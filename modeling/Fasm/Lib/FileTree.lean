import Fasm.Lib.Path
import Mathlib.Logic.Function.Basic

/-!
# File trees

What a file system holds, by the lexical normal form of paths, and what the calls of the
operating system do to it.  A call may fail: whether it does, and what it leaves behind then, is
an argument.  There are no links.
-/

namespace Fasm

variable {β : Type}

/-- A directory, or a file with its contents. -/
inductive Node (β : Type) where
  | dir
  | file (contents : β)
deriving DecidableEq

/-- What is at the places of a file system. -/
abbrev FileTree (β : Type) : Type := Path → Option (Node β)

/-- How a call of the operating system goes. -/
inductive Fate (β : Type) where
  | runs
  | fails (error : String) (left : FileTree β)

/-- What a call leaves behind, when nothing looks at its result. -/
def Fate.leaves (fate : Fate β) (effect : FileTree β → FileTree β) (t : FileTree β) : FileTree β :=
  match fate with
  | .runs => effect t
  | .fails _ left => left

namespace FileTree

/-- `create_dir_all`. -/
def makeDirs (q : Path) (t : FileTree β) : FileTree β := fun k =>
  if k.Within q then some .dir else t k

/-- `write`. -/
def write (q : Path) (contents : β) (t : FileTree β) : FileTree β :=
  Function.update t q (some (.file contents))

/-- `rename`. -/
def rename (q q' : Path) (t : FileTree β) : FileTree β :=
  Function.update (Function.update t q' (t q)) q none

/-- `remove_file`. -/
def removeFile (q : Path) (t : FileTree β) : FileTree β :=
  match t q with
  | some (.file _) => Function.update t q none
  | _ => t

/-- `remove_dir_all`. -/
def removeTree (q : Path) (t : FileTree β) : FileTree β := fun k =>
  if q.Within k then none else t k

/-- There is a directory. -/
def isDir (t : FileTree β) (k : Path) : Bool :=
  match t k with
  | some .dir => true
  | _ => false

/-- Every directory that the path goes through is there, and something at its end, which is a
directory if one is asked for. -/
def reaches (asDir : Bool) (q : Path) (t : FileTree β) : Bool :=
  ((List.range q.comps.length).all fun i =>
    t.isDir ({ q with comps := q.comps.take i } : Path).normal) &&
      if asDir then t.isDir q.normal else (t q.normal).isSome

/-- `exists`, where the call of the operating system runs.  Windows brings a path into normal form
before it looks; nowhere is there anything whose path has a zero character. -/
def pathExists (p : Platform) (asDir : Bool) (q : Path) (t : FileTree β) : Bool :=
  q.comps.all (fun c => !c.toList.contains '\x00') &&
    match p with
    | .unix => t.reaches asDir q
    | .windows => t.reaches asDir q.normal

variable {q q' k : Path} {t : FileTree β}

theorem makeDirs_of_within (h : k.Within q) : t.makeDirs q k = some .dir := if_pos h

theorem makeDirs_of_not_within (h : ¬ k.Within q) : t.makeDirs q k = t k := if_neg h

theorem write_self (q : Path) (contents : β) (t : FileTree β) :
    t.write q contents q = some (.file contents) := Function.update_self _ _ _

theorem write_of_ne (h : k ≠ q) (contents : β) : t.write q contents k = t k :=
  Function.update_of_ne h _ _

/-- What is renamed is there under the new name. -/
theorem rename_new (h : q' ≠ q) : t.rename q q' q' = t q := by
  unfold rename
  rw [Function.update_of_ne h, Function.update_self]

/-- Nothing is there any more under the old one. -/
theorem rename_old (q q' : Path) (t : FileTree β) : t.rename q q' q = none :=
  Function.update_self _ _ _

theorem rename_of_ne (h : k ≠ q) (h' : k ≠ q') : t.rename q q' k = t k := by
  unfold rename
  rw [Function.update_of_ne h, Function.update_of_ne h']

/-- Taking out a file touches nothing else. -/
theorem removeFile_of_ne (h : k ≠ q) : t.removeFile q k = t k := by
  unfold removeFile
  cases hq : t q with
  | none => rfl
  | some node =>
    cases node with
    | dir => rfl
    | file contents => exact Function.update_of_ne h _ _

/-- A file that is taken out is gone. -/
theorem removeFile_self {contents : β} (h : t q = some (.file contents)) :
    t.removeFile q q = none := by
  unfold removeFile
  rw [h]
  exact Function.update_self _ _ _

/-- Only a file can be taken out. -/
theorem removeFile_cases (q k : Path) (t : FileTree β) :
    t.removeFile q k = t k ∨
      t.removeFile q k = none ∧ k = q ∧ ∃ contents, t q = some (.file contents) := by
  by_cases heq : k = q
  · subst heq
    cases hk : t k with
    | none =>
      left
      unfold removeFile
      rw [hk]
      exact hk
    | some node =>
      cases node with
      | dir =>
        left
        unfold removeFile
        rw [hk]
        exact hk
      | file contents => exact .inr ⟨removeFile_self hk, rfl, contents, rfl⟩
  · exact .inl (removeFile_of_ne heq)

/-- What is missing then is the file. -/
theorem removeFile_eq_none (h : t.removeFile q k = none) (hk : t k ≠ none) :
    k = q ∧ ∃ contents, t q = some (.file contents) := by
  rcases removeFile_cases q k t with hsame | ⟨-, hfile⟩
  · rw [hsame] at h
    exact absurd h hk
  · exact hfile

/-- What is there then was there before. -/
theorem of_removeFile {node : Node β} (h : t.removeFile q k = some node) : t k = some node := by
  rcases removeFile_cases q k t with hsame | ⟨hnone, -⟩
  · rwa [hsame] at h
  · rw [hnone] at h
    cases h

theorem removeTree_of_within (h : q.Within k) : t.removeTree q k = none := if_pos h

theorem removeTree_of_not_within (h : ¬ q.Within k) : t.removeTree q k = t k := if_neg h

/-- What is there without a directory was there with it, and is not in it. -/
theorem of_removeTree {node : Node β} (h : t.removeTree q k = some node) :
    ¬ q.Within k ∧ t k = some node := by
  by_cases hwithin : q.Within k
  · rw [removeTree_of_within hwithin] at h
    cases h
  · rw [removeTree_of_not_within hwithin] at h
    exact ⟨hwithin, h⟩

/-! ## Directories that stay -/

theorem makeDirs_dir (q : Path) (h : t k = some .dir) : t.makeDirs q k = some .dir := by
  unfold makeDirs
  split
  · rfl
  · exact h

/-- What is written over is not a directory. -/
theorem write_dir (hq : t q ≠ some .dir) (contents : β) (h : t k = some .dir) :
    t.write q contents k = some .dir := by
  have hne : k ≠ q := by
    rintro rfl
    exact hq h
  rw [write_of_ne hne, h]

theorem removeFile_dir (q : Path) (h : t k = some .dir) : t.removeFile q k = some .dir := by
  rcases removeFile_cases q k t with hsame | ⟨-, rfl, contents, hfile⟩
  · rw [hsame, h]
  · rw [h] at hfile
    cases hfile

/-! ## Entries -/

/-- The names of what is in a directory, when all that is there is in the list. -/
def entriesOf (l : List Path) (t : FileTree β) (q : Path) : List String :=
  l.filterMap fun k =>
    k.comps.getLast?.filter fun name => decide (q.under [name] = k) && (t k).isSome

/-- They are the names of what is there. -/
theorem mem_entriesOf {l : List Path} (h : ∀ k, t k ≠ none → k ∈ l) (q : Path) (name : String) :
    name ∈ entriesOf l t q ↔ t (q.under [name]) ≠ none := by
  unfold entriesOf
  rw [List.mem_filterMap]
  constructor
  · rintro ⟨k, -, hk⟩
    rw [Option.filter_eq_some_iff, Bool.and_eq_true, decide_eq_true_eq] at hk
    obtain ⟨-, rfl, hsome⟩ := hk
    exact Option.isSome_iff_ne_none.mp hsome
  · intro hsome
    refine ⟨q.under [name], h _ hsome, ?_⟩
    rw [Option.filter_eq_some_iff, Bool.and_eq_true, decide_eq_true_eq]
    refine ⟨?_, rfl, Option.isSome_iff_ne_none.mpr hsome⟩
    show (q.comps ++ [name]).getLast? = some name
    exact List.getLast?_concat

end FileTree

end Fasm
