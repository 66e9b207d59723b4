import Mathlib.Data.List.Infix

/-!
# Paths and their lexical normal form

A path is read from a text by the rules of its platform, joined to another one, and brought into
normal form without a look at any file system: `.` and empty components go, and `..` takes the
component before it away.

The rules of Windows are idealised.  A prefix is a drive here, and those that begin with two
separators are not told apart from a root; names that differ in case, or in dots and blanks at
their end, are different names.
-/

namespace Fasm

/-- Whose rules a path follows. -/
inductive Platform where
  | unix
  | windows
deriving DecidableEq

/-- A path: its drive, whether it begins at the root, and its components. -/
structure Path where
  drive : Option Char
  rooted : Bool
  comps : List String
deriving DecidableEq

namespace Platform

/-- Whether the character stands between components. -/
def isSep : Platform → Char → Bool
  | .unix, c => c == '/'
  | .windows, c => c == '/' || c == '\\'

/-- The drive at the beginning of a text, and what follows it. -/
def splitDrive : Platform → List Char → Option Char × List Char
  | .windows, c :: ':' :: rest => if c.isAlpha then (some c, rest) else (none, c :: ':' :: rest)
  | _, cs => (none, cs)

/-- The components of a text: what stands between separators, and is not empty. -/
def components (p : Platform) (cs : List Char) : List String :=
  ((cs.splitOnP p.isSep).filter fun c => !c.isEmpty).map String.ofList

/-- The text ends in a separator, or adds one to what is before it: it asks for a directory. -/
def asksDir (p : Platform) (s : String) : Bool := s.toList.getLast?.all p.isSep

/-- A text as a path. -/
def parse (p : Platform) (s : String) : Path where
  drive := (p.splitDrive s.toList).1
  rooted := ((p.splitDrive s.toList).2.head?.map p.isSep).getD false
  comps := p.components (p.splitDrive s.toList).2

end Platform

namespace Path

/-- More components behind the path. -/
def under (q : Path) (cs : List String) : Path := { q with comps := q.comps ++ cs }

/-- `join`: a text with a drive replaces the path, one that begins at the root replaces all of
it but its drive, and any other one goes behind it. -/
def join (p : Platform) (base : Path) (s : String) : Path :=
  let q := p.parse s
  if q.drive.isSome then q
  else if q.rooted then { q with drive := base.drive }
  else base.under q.comps

/-- One component of a normal form, behind those before it in reverse order. -/
def clean (rooted : Bool) (acc : List String) (c : String) : List String :=
  if c = "." then acc
  else if c = ".." then
    match acc with
    | [] => if rooted then [] else [".."]
    | top :: rest => if top = ".." then ".." :: top :: rest else rest
  else c :: acc

/-- The lexical normal form. -/
def normal (q : Path) : Path :=
  { q with comps := (q.comps.foldl (clean q.rooted) []).reverse }

/-- The second path is that of something in the directory of the first. -/
def Above (q q' : Path) : Prop :=
  ∃ cs, cs ≠ [] ∧ q' = q.under cs

/-- The second path is the first, or of something in its directory. -/
def Within (q q' : Path) : Prop :=
  q'.drive = q.drive ∧ q'.rooted = q.rooted ∧ q.comps <+: q'.comps

instance instDecidableWithin (q q' : Path) : Decidable (Within q q') :=
  inferInstanceAs (Decidable (_ ∧ _ ∧ _))

/-! ### Routes

Wherever it starts, a relative path goes up some directories and then down through some names. A
name with a `..` behind it counts for nothing. -/

/-- One component more: how many directories up so far, and the names since then in reverse
order. -/
def proceed : Nat × List String → String → Nat × List String
  | (ups, names), c =>
    if c = "." then (ups, names)
    else if c = ".." then
      match names with
      | [] => (ups + 1, [])
      | _ :: rest => (ups, rest)
    else (ups, c :: names)

/-- How many directories up the components go, and the names that they go down through then. -/
def route (cs : List String) : Nat × List String :=
  ((cs.foldl proceed (0, [])).1, (cs.foldl proceed (0, [])).2.reverse)

/-- From the directory, the route comes back into it: it names the directories that it has gone
up from, and then an entry. -/
def Returns (dir : Path) (r : Nat × List String) (f : String) : Prop :=
  (dir.rooted = true ∨ r.1 ≤ dir.comps.length) ∧
    r.2 = dir.comps.drop (dir.comps.length - r.1) ++ [f]

/-- The path spells out the whole directory, and then an entry. -/
def SpellsOut (q dir : Path) (f : String) : Prop :=
  (q.drive = none ∨ q.drive = dir.drive) ∧ q.rooted = dir.rooted ∧
    (if q.rooted then [] else List.replicate (route q.comps).1 "..") ++ (route q.comps).2 =
      dir.comps ++ [f]

/-- Behind the directory, the text names the entry. -/
def LeadsTo (p : Platform) (dir : Path) (s f : String) : Prop :=
  if (p.parse s).drive.isSome ∨ (p.parse s).rooted then (p.parse s).SpellsOut dir f
  else dir.Returns (route (p.parse s).comps) f

instance instDecidableLeadsTo (p : Platform) (dir : Path) (s f : String) :
    Decidable (LeadsTo p dir s f) :=
  have (r : Nat × List String) : Decidable (dir.Returns r f) :=
    inferInstanceAs (Decidable (_ ∧ _))
  have (q : Path) : Decidable (q.SpellsOut dir f) := inferInstanceAs (Decidable (_ ∧ _ ∧ _))
  inferInstanceAs (Decidable
    (if (p.parse s).drive.isSome ∨ (p.parse s).rooted then (p.parse s).SpellsOut dir f
    else dir.Returns (route (p.parse s).comps) f))

end Path

/-! ## Names -/

namespace Platform

variable {p : Platform} {s : String}

/-- The text is one component: it is not empty, has no separator and begins with no drive. -/
structure Plain (p : Platform) (s : String) : Prop where
  nonempty : s.toList ≠ []
  unseparated : ∀ c ∈ s.toList, p.isSep c = false
  driveless : (p.splitDrive s.toList).1 = none

/-- A text without a colon begins with no drive. -/
theorem splitDrive_of_noColon {cs : List Char} (h : ':' ∉ cs) : (p.splitDrive cs).1 = none := by
  unfold splitDrive
  split
  · exact absurd (List.mem_cons_of_mem _ List.mem_cons_self) h
  · rfl

/-- What follows the drive is of the text. -/
theorem mem_of_splitDrive {cs : List Char} {c : Char} (h : c ∈ (p.splitDrive cs).2) : c ∈ cs := by
  unfold splitDrive at h
  split at h
  · split at h
    · exact List.mem_cons_of_mem _ (List.mem_cons_of_mem _ h)
    · exact h
  · exact h

/-- Without a drive, all of the text follows. -/
theorem splitDrive_none {cs : List Char} (h : (p.splitDrive cs).1 = none) :
    (p.splitDrive cs).2 = cs := by
  unfold splitDrive at h ⊢
  split
  · rename_i c rest
    by_cases hc : c.isAlpha
    · simp only [hc, if_true, reduceCtorEq] at h
    · rw [if_neg hc]
  · rfl

/-- The components of a text without separators. -/
theorem components_unseparated {cs : List Char} (h : ∀ c ∈ cs, p.isSep c = false)
    (hne : cs ≠ []) : p.components cs = [String.ofList cs] := by
  unfold components
  rw [List.splitOnP_eq_singleton h, List.filter_cons_of_pos]
  · rfl
  · rw [List.isEmpty_eq_false_iff.mpr hne]
    rfl

/-- A text without separators has one component at most. -/
theorem length_components_le {cs : List Char} (h : ∀ c ∈ cs, p.isSep c = false) :
    (p.components cs).length ≤ 1 := by
  unfold components
  rw [List.splitOnP_eq_singleton h, List.length_map]
  exact List.length_filter_le _ [cs]

/-- A plain text is its only component. -/
theorem parse_plain (h : p.Plain s) : p.parse s = ⟨none, false, [s]⟩ := by
  have hrest := splitDrive_none h.driveless
  unfold parse
  rw [h.driveless, hrest, components_unseparated h.unseparated h.nonempty, String.ofList_toList]
  cases hcs : s.toList with
  | nil => exact absurd hcs h.nonempty
  | cons c cs =>
    have hc := h.unseparated c (by rw [hcs]; exact List.mem_cons_self)
    simp [hc]

end Platform

namespace Path

variable {p : Platform} {base q q' q'' : Path} {s : String}

/-- A plain text goes behind the path. -/
theorem join_plain (h : p.Plain s) : join p base s = base.under [s] := by
  unfold join
  rw [Platform.parse_plain h]
  rfl

/-- A text with a drive replaces the path. -/
theorem join_drive (h : (p.splitDrive s.toList).1 ≠ none) : join p base s = p.parse s := by
  have hdrive : (p.parse s).drive.isSome := Option.isSome_iff_ne_none.mpr h
  unfold join
  rw [if_pos hdrive]

@[simp] theorem normal_drive (q : Path) : q.normal.drive = q.drive := rfl
@[simp] theorem normal_rooted (q : Path) : q.normal.rooted = q.rooted := rfl

theorem clean_dot (rooted : Bool) (acc : List String) : clean rooted acc "." = acc := by
  unfold clean
  rw [if_pos rfl]

theorem clean_name (rooted : Bool) (acc : List String) {c : String} (hdot : c ≠ ".")
    (hdots : c ≠ "..") : clean rooted acc c = c :: acc := by
  unfold clean
  rw [if_neg hdot, if_neg hdots]

/-- A component adds one to the normal form at most. -/
theorem length_clean_le (rooted : Bool) (acc : List String) (c : String) :
    (clean rooted acc c).length ≤ acc.length + 1 := by
  unfold clean
  by_cases hdot : c = "."
  · rw [if_pos hdot]
    omega
  · rw [if_neg hdot]
    by_cases hdots : c = ".."
    · rw [if_pos hdots]
      cases acc with
      | nil => cases rooted <;> simp
      | cons top rest =>
        by_cases htop : top = ".."
        · simp [htop]
        · simp only [htop, if_false, List.length_cons]
          omega
    · rw [if_neg hdots]
      exact Nat.le_refl _

/-- A component other than `.` and `..` ends the normal form. -/
theorem normal_under (base : Path) {c : String} (hdot : c ≠ ".") (hdots : c ≠ "..") :
    (base.under [c]).normal = base.normal.under [c] := by
  unfold normal under
  simp only [List.foldl_append, List.foldl_cons, List.foldl_nil]
  rw [clean_name _ _ hdot hdots, List.reverse_cons]

/-- A `.` leaves it as it is. -/
theorem normal_under_dot (base : Path) : (base.under ["."]).normal = base.normal := by
  unfold normal under
  simp only [List.foldl_append, List.foldl_cons, List.foldl_nil]
  rw [clean_dot]

/-- The normal form of a plain name in a directory. -/
theorem normal_join (h : p.Plain s) (hdot : s ≠ ".") (hdots : s ≠ "..") :
    (base.join p s).normal = base.normal.under [s] := by
  rw [join_plain h, normal_under base hdot hdots]

/-- A normal form has no more components than the path. -/
theorem length_normal_le (q : Path) : q.normal.comps.length ≤ q.comps.length := by
  have hfold (cs acc : List String) :
      (cs.foldl (clean q.rooted) acc).length ≤ acc.length + cs.length := by
    induction cs generalizing acc with
    | nil => exact Nat.le_refl _
    | cons c cs ih =>
      rw [List.foldl_cons, List.length_cons]
      have hc := length_clean_le q.rooted acc c
      have hcs := ih (clean q.rooted acc c)
      omega
  unfold normal
  rw [List.length_reverse]
  have hcs := hfold q.comps []
  rwa [List.length_nil, Nat.zero_add] at hcs

/-! ## Where routes lead -/

/-- As many times `..` behind a normal form. -/
def climb (rooted : Bool) (acc : List String) : Nat → List String
  | 0 => acc
  | n + 1 => clean rooted (climb rooted acc n) ".."

/-- A normal form in reverse order: names, and before them `..` if it does not begin at the
root. -/
structure Settled (rooted : Bool) (acc names : List String) (k : Nat) : Prop where
  eq : acc = names ++ List.replicate k ".."
  names : ".." ∉ names
  rooted : rooted = true → k = 0

variable {rooted : Bool} {acc names cs : List String} {k : Nat} {f : String}

theorem clean_dots_names {c : String} (hc : c ≠ "..") (names : List String) :
    clean rooted (c :: names) ".." = names := by
  show (if c = ".." then ".." :: c :: names else names) = names
  rw [if_neg hc]

theorem clean_dots_root (h : ".." ∉ names) : clean true names ".." = names.tail := by
  cases names with
  | nil => rfl
  | cons top rest => exact clean_dots_names (Ne.symm (List.ne_of_not_mem_cons h)) rest

theorem clean_dots_dots (k : Nat) :
    clean false (List.replicate k "..") ".." = List.replicate (k + 1) ".." := by
  cases k <;> rfl

/-- A normal form stays one. -/
theorem Settled.clean (h : Settled rooted acc names k) (c : String) :
    ∃ names' k', Settled rooted (clean rooted acc c) names' k' := by
  obtain ⟨rfl, hnames, hrooted⟩ := h
  by_cases hdot : c = "."
  · subst hdot
    rw [clean_dot]
    exact ⟨names, k, rfl, hnames, hrooted⟩
  by_cases hdots : c = ".."
  · subst hdots
    cases names with
    | nil =>
      cases rooted with
      | true =>
        rw [hrooted rfl]
        exact ⟨[], 0, rfl, List.not_mem_nil, fun _ => rfl⟩
      | false => exact ⟨[], k + 1, clean_dots_dots k, List.not_mem_nil, nofun⟩
    | cons top rest =>
      rw [List.cons_append, clean_dots_names (Ne.symm (List.ne_of_not_mem_cons hnames))]
      exact ⟨rest, k, rfl, List.not_mem_of_not_mem_cons hnames, hrooted⟩
  · rw [clean_name _ _ hdot hdots]
    exact ⟨c :: names, k, rfl, List.not_mem_cons_of_ne_of_not_mem (Ne.symm hdots) hnames, hrooted⟩

theorem settled_normal (q : Path) :
    ∃ names k, Settled q.rooted q.normal.comps.reverse names k := by
  have hfold (cs acc names : List String) (k : Nat) (h : Settled q.rooted acc names k) :
      ∃ names' k', Settled q.rooted (cs.foldl (Path.clean q.rooted) acc) names' k' := by
    induction cs generalizing acc names k with
    | nil => exact ⟨names, k, h⟩
    | cons c cs ih =>
      obtain ⟨names', k', h'⟩ := h.clean c
      exact ih _ names' k' h'
  unfold normal
  rw [List.reverse_reverse]
  exact hfold q.comps [] [] 0 ⟨rfl, List.not_mem_nil, fun _ => rfl⟩

/-- Up from a normal form, as far as there are names. -/
theorem Settled.climb_of_le (h : Settled rooted acc names k) {n : Nat} (hn : n ≤ names.length) :
    climb rooted acc n = acc.drop n := by
  induction n with
  | zero => rfl
  | succ n ih =>
    rw [climb, ih (Nat.le_of_succ_le hn), h.eq, List.drop_append_of_le_length (by omega),
      List.drop_append_of_le_length hn, List.drop_eq_getElem_cons hn, List.cons_append]
    exact clean_dots_names (fun hc => h.names (hc ▸ List.getElem_mem hn)) _

/-- Nothing is above the root. -/
theorem climb_root (h : ".." ∉ names) (n : Nat) : climb true names n = names.drop n := by
  induction n with
  | zero => rfl
  | succ n ih =>
    rw [climb, ih, clean_dots_root fun hmem => h (List.mem_of_mem_drop hmem), List.tail_drop]

/-- Without a root, every `..` beyond the names is kept. -/
theorem climb_beyond (h : Settled false acc names k) (m : Nat) :
    climb false acc (names.length + m) = List.replicate (k + m) ".." := by
  induction m with
  | zero =>
    rw [Nat.add_zero, h.climb_of_le (Nat.le_refl _), h.eq, List.drop_left]
    rfl
  | succ m ih => rw [← Nat.add_assoc, climb, ih, clean_dots_dots, Nat.add_assoc]

theorem proceed_dot (r : Nat × List String) : proceed r "." = r := rfl

theorem proceed_name (r : Nat × List String) {c : String} (hdot : c ≠ ".") (hdots : c ≠ "..") :
    proceed r c = (r.1, c :: r.2) := by
  unfold proceed
  simp only [hdot, hdots, if_false]

/-- One component of the route behind a normal form; what the route names stays free of `..`. -/
theorem clean_proceed (rooted : Bool) (acc : List String) {r : Nat × List String}
    (h : ".." ∉ r.2) (c : String) :
    ".." ∉ (proceed r c).2 ∧
      clean rooted (r.2 ++ climb rooted acc r.1) c =
        (proceed r c).2 ++ climb rooted acc (proceed r c).1 := by
  by_cases hdot : c = "."
  · subst hdot
    rw [clean_dot, proceed_dot]
    exact ⟨h, rfl⟩
  by_cases hdots : c = ".."
  · subst hdots
    obtain ⟨ups, names⟩ := r
    cases names with
    | nil => exact ⟨List.not_mem_nil, rfl⟩
    | cons top rest =>
      exact ⟨List.not_mem_of_not_mem_cons h,
        clean_dots_names (Ne.symm (List.ne_of_not_mem_cons h)) _⟩
  · rw [clean_name _ _ hdot hdots, proceed_name r hdot hdots]
    exact ⟨List.not_mem_cons_of_ne_of_not_mem (Ne.symm hdots) h, rfl⟩

/-- The route behind a normal form: up, and then down. -/
theorem foldl_clean_proceed (rooted : Bool) (acc : List String) {r : Nat × List String}
    (h : ".." ∉ r.2) (cs : List String) :
    ".." ∉ (cs.foldl proceed r).2 ∧
      cs.foldl (clean rooted) (r.2 ++ climb rooted acc r.1) =
        (cs.foldl proceed r).2 ++ climb rooted acc (cs.foldl proceed r).1 := by
  induction cs generalizing r with
  | nil => exact ⟨h, rfl⟩
  | cons c cs ih =>
    obtain ⟨hnames, hstep⟩ := clean_proceed rooted acc h c
    rw [List.foldl_cons, List.foldl_cons, hstep]
    exact ih hnames

theorem route_names (cs : List String) : ".." ∉ (route cs).2 := by
  have h := foldl_clean_proceed true [] (r := (0, [])) List.not_mem_nil cs
  rw [route, List.mem_reverse]
  exact h.1

theorem foldl_clean_route (rooted : Bool) (cs acc : List String) :
    (cs.foldl (clean rooted) acc).reverse =
      (climb rooted acc (route cs).1).reverse ++ (route cs).2 := by
  have h := foldl_clean_proceed rooted acc (r := (0, [])) List.not_mem_nil cs
  rw [route, ← List.reverse_append]
  exact congrArg List.reverse h.2

/-- The normal form of components behind a path. -/
theorem normal_under_route (base : Path) (cs : List String) :
    (base.under cs).normal = { base with
      comps := (climb base.rooted base.normal.comps.reverse (route cs).1).reverse ++
        (route cs).2 } := by
  unfold normal under
  rw [List.foldl_append, foldl_clean_route, List.reverse_reverse]

/-- The normal form of a path by itself. -/
theorem normal_route (q : Path) :
    q.normal = { q with
      comps := (if q.rooted then [] else List.replicate (route q.comps).1 "..") ++
        (route q.comps).2 } := by
  have hclimb (n : Nat) : (climb q.rooted [] n).reverse =
      if q.rooted then [] else List.replicate n ".." := by
    cases q.rooted with
    | true => rw [climb_root List.not_mem_nil, List.drop_nil, List.reverse_nil, if_pos rfl]
    | false =>
      have hempty : Settled false [] [] 0 := ⟨rfl, List.not_mem_nil, nofun⟩
      have h := climb_beyond hempty n
      rw [List.length_nil, Nat.zero_add] at h
      rw [h, List.reverse_replicate, if_neg Bool.false_ne_true]
  unfold normal
  rw [foldl_clean_route, hclimb]

/-- What is left of the directory, and the names of the route, make an entry of the directory
again just when the route returns. -/
theorem climb_append_eq_iff {dir : Path} {c : String} {r : Nat × List String}
    (h : Settled dir.rooted dir.comps.reverse names k) (hlast : dir.comps.getLast? = some c)
    (hc : c ≠ "..") (hr : ".." ∉ r.2) :
    (climb dir.rooted dir.comps.reverse r.1).reverse ++ r.2 = dir.comps ++ [f] ↔
      dir.Returns r f := by
  -- where the climb only takes away, what it has taken is named again
  have hdrop (hup : climb dir.rooted dir.comps.reverse r.1 = dir.comps.reverse.drop r.1) :
      (climb dir.rooted dir.comps.reverse r.1).reverse ++ r.2 = dir.comps ++ [f] ↔
        r.2 = dir.comps.drop (dir.comps.length - r.1) ++ [f] := by
    have hsplit := List.take_append_drop (dir.comps.length - r.1) dir.comps
    rw [hup, List.drop_reverse, List.reverse_reverse]
    constructor
    · intro heq
      rw [← hsplit, List.append_assoc, hsplit] at heq
      exact List.append_cancel_left heq
    · intro heq
      rw [heq, ← List.append_assoc, hsplit]
  have hlength : dir.comps.length = names.length + k := by
    rw [← List.length_reverse, h.eq, List.length_append, List.length_replicate]
  unfold Returns
  cases hrooted : dir.rooted with
  | true =>
    rw [hrooted] at h hdrop
    have hnames : dir.comps.reverse = names := by
      rw [h.eq, h.rooted rfl, List.replicate_zero, List.append_nil]
    rw [hdrop (hnames ▸ climb_root h.names _)]
    exact (and_iff_right (.inl rfl)).symm
  | false =>
    rw [hrooted] at h hdrop
    by_cases hle : r.1 ≤ names.length
    · rw [hdrop (h.climb_of_le hle)]
      exact (and_iff_right (.inr (by omega))).symm
    · -- it ends at a `..` above the names, and no names lead from there to where it began
      obtain ⟨m, hm⟩ := Nat.exists_eq_add_of_lt (Nat.lt_of_not_le hle)
      have hcomps : dir.comps = List.replicate k ".." ++ names.reverse := by
        rw [← List.reverse_reverse dir.comps, h.eq, List.reverse_append, List.reverse_replicate]
      refine iff_of_false (fun heq => ?_) (fun hreturns => ?_)
      · rw [hm, Nat.add_assoc, climb_beyond h, List.reverse_replicate, hcomps,
          List.replicate_add, List.append_assoc, List.append_assoc] at heq
        have hhead := List.append_cancel_left heq
        cases hcase : names.reverse with
        | nil =>
          rw [hcomps, hcase, List.append_nil] at hlast
          exact hc (List.eq_of_mem_replicate (List.mem_of_getLast? hlast))
        | cons top rest =>
          rw [hcase] at hhead
          have htop : ".." = top := (List.cons.inj hhead).1
          apply h.names
          rw [← List.mem_reverse, hcase, htop]
          exact List.mem_cons_self
      · obtain ⟨hfalse | hups, heq⟩ := hreturns
        · cases hfalse
        · apply hr
          rw [heq, hcomps, List.drop_append_of_le_length (by simp; omega), List.drop_replicate]
          refine List.mem_append_left _ (List.mem_append_left _ (List.mem_replicate.mpr ⟨?_, rfl⟩))
          simp only [List.length_append, List.length_replicate, List.length_reverse]
          omega

/-- A path that does not begin in the directory is that of an entry if it spells all of it out. -/
theorem normal_eq_under_iff {dir : Path} : q.normal = dir.under [f] ↔
    q.drive = dir.drive ∧ q.rooted = dir.rooted ∧
      (if q.rooted then [] else List.replicate (route q.comps).1 "..") ++ (route q.comps).2 =
        dir.comps ++ [f] := by
  rw [normal_route, under, Path.mk.injEq]

/-- In a directory that ends in a name, the texts that lead to an entry are those that name it. -/
theorem normal_join_eq_iff {dir : Path} {c : String} (hdir : base.normal = dir.under [c])
    (hc : c ≠ "..") : (base.join p s).normal = base.normal.under [f] ↔
      LeadsTo p base.normal s f := by
  obtain ⟨names, k, hsettled⟩ := settled_normal base
  have hlast : base.normal.comps.getLast? = some c := by
    rw [hdir]
    exact List.getLast?_concat
  unfold LeadsTo join
  generalize p.parse s = q
  by_cases hdrive : q.drive.isSome
  · rw [if_pos hdrive, if_pos (.inl hdrive), normal_eq_under_iff, SpellsOut,
      or_iff_right (Option.isSome_iff_ne_none.mp hdrive)]
  have hnone : q.drive = none := Option.not_isSome_iff_eq_none.mp hdrive
  by_cases hrooted : q.rooted = true
  · -- the drive of the directory is put before the path
    rw [if_neg hdrive, if_pos hrooted, if_pos (.inr hrooted), normal_eq_under_iff, SpellsOut]
    exact and_congr_left' (iff_of_true rfl (.inl hnone))
  · rw [if_neg hdrive, if_neg hrooted, if_neg (not_or.mpr ⟨hdrive, hrooted⟩), normal_under_route,
      ← climb_append_eq_iff hsettled hlast hc (route_names q.comps)]
    exact ⟨congrArg Path.comps, fun hcomps => congrArg (Path.mk base.drive base.rooted) hcomps⟩

/-! ## Places -/

theorem under_under (q : Path) (cs cs' : List String) :
    (q.under cs).under cs' = q.under (cs ++ cs') := by
  unfold under
  rw [List.append_assoc]

theorem under_inj {cs cs' : List String} : q.under cs = q.under cs' ↔ cs = cs' := by
  constructor
  · intro h
    exact List.append_cancel_left (congrArg Path.comps h)
  · rintro rfl
    rfl

/-- Something is above what is behind it. -/
theorem above_under (cs : List String) {cs' : List String} (h : cs' ≠ []) :
    (q.under cs).Above (q.under (cs ++ cs')) := ⟨cs', h, (under_under q cs cs').symm⟩

/-- One place within another, behind the same path. -/
theorem within_under {cs cs' : List String} : (q.under cs).Within (q.under cs') ↔ cs <+: cs' := by
  constructor
  · rintro ⟨-, -, hcs⟩
    exact (List.prefix_append_right_inj q.comps).mp hcs
  · intro hcs
    exact ⟨rfl, rfl, (List.prefix_append_right_inj q.comps).mpr hcs⟩

/-- What is behind a path is within it. -/
theorem within_self_under (q : Path) (cs : List String) : q.Within (q.under cs) :=
  ⟨rfl, rfl, List.prefix_append q.comps cs⟩

/-- What is above has fewer components. -/
theorem Above.length_lt (h : Above q q') : q.comps.length < q'.comps.length := by
  obtain ⟨cs, hcs, rfl⟩ := h
  unfold under
  rw [List.length_append]
  have hpos := List.length_pos_of_ne_nil hcs
  omega

end Path

end Fasm
