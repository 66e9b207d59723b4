import Fasm.Engine.Registry
import Fasm.Lib.Path

/-!
# Where the registry puts things

The directories of namespaces and apps and the files in them, by the rules of a platform, and
what the validation of names keeps apart there.
-/

namespace Fasm

section Paths

variable (p : Platform) (dataDir : Path)

/-- `data_dir.join(ns)`. -/
def nsDir (ns : String) : Path := dataDir.join p ns

/-- `data_dir.join(ns).join(app)`. -/
def appDir (ns app : String) : Path := (nsDir p dataDir ns).join p app

/-- `data_dir.join(ns).join(app).join("files")`. -/
def filesDir (ns app : String) : Path := (appDir p dataDir ns app).join p "files"

/-- `file_path`. -/
def filePath (ns app filename : String) : Path := (filesDir p dataDir ns app).join p filename

end Paths

/-- A file of an app of a namespace, by the three names. -/
structure FileAddress where
  ns : String
  app : String
  file : String
deriving DecidableEq

namespace FileAddress

/-- The three names pass their checks. -/
structure Accepted (isAlphanumeric : Char → Bool) (a : FileAddress) : Prop where
  ns : validateNamespace isAlphanumeric a.ns = .ok ()
  app : validateName isAlphanumeric a.app = .ok ()
  file : validateFilename a.file = .ok ()

/-- The namespace is not `.`, and the platform reads no drive in the name of the file. -/
def Proper (p : Platform) (a : FileAddress) : Prop :=
  a.ns ≠ "." ∧ (p.splitDrive a.file.toList).1 = none

/-- The file is in the directory of its app, which is in the directory of its namespace, which
is a child of the data directory. -/
structure Contained (p : Platform) (dataDir : Path) (a : FileAddress) : Prop where
  file : (filesDir p dataDir a.ns a.app).normal.Above (filePath p dataDir a.ns a.app a.file).normal
  app : (nsDir p dataDir a.ns).normal.Above (filesDir p dataDir a.ns a.app).normal
  ns : ∃ c, (nsDir p dataDir a.ns).normal = dataDir.normal.under [c]

/-- Different names have different places, and what is deleted with a namespace, an app or a
file does not hold a file of another one. -/
structure Separate (p : Platform) (dataDir : Path) (a b : FileAddress) : Prop where
  files : a ≠ b →
    (filePath p dataDir a.ns a.app a.file).normal ≠ (filePath p dataDir b.ns b.app b.file).normal
  namespaces : a.ns ≠ b.ns → (nsDir p dataDir a.ns).normal ≠ (nsDir p dataDir b.ns).normal
  spared_ns : a.ns ≠ b.ns →
    ¬ (nsDir p dataDir a.ns).normal.Within (filePath p dataDir b.ns b.app b.file).normal
  spared_app : ¬ (a.ns = b.ns ∧ a.app = b.app) →
    ¬ (appDir p dataDir a.ns a.app).normal.Within (filePath p dataDir b.ns b.app b.file).normal

end FileAddress

/-! ## What the checks accept -/

/-- On ASCII, the alphanumeric characters are the letters and digits. -/
def AlphanumericAscii (isAlphanumeric : Char → Bool) : Prop :=
  ∀ c : Char, c.toNat < 128 → isAlphanumeric c = c.isAlphanum

section Validate

variable {isAlphanumeric : Char → Bool} {name : String}

/-- The name of a namespace. -/
theorem validateNamespace_eq_ok (h : validateNamespace isAlphanumeric name = .ok ()) :
    name.toList ≠ [] ∧
      (∀ ch ∈ name.toList, isAlphanumeric ch = true ∨ ch = '.' ∨ ch = '-' ∨ ch = '_') ∧
      ¬ ['.', '.'] <:+: name.toList := by
  unfold validateNamespace at h
  split at h
  · cases h
  · rename_i hne
    cases hfind : name.toList.find? fun ch =>
        !isAlphanumeric ch && ch != '.' && ch != '-' && ch != '_' with
    | some ch => simp only [hfind, reduceCtorEq] at h
    | none =>
      simp only [hfind] at h
      split at h
      · cases h
      · rename_i hdots
        refine ⟨hne, ?_, hdots⟩
        intro ch hch
        have hno := List.find?_eq_none.mp hfind ch hch
        simp only [Bool.and_eq_true, Bool.not_eq_true', bne_iff_ne, not_and_or, not_not,
          Bool.not_eq_false] at hno
        tauto

/-- The name of an app. -/
theorem validateName_eq_ok (h : validateName isAlphanumeric name = .ok ()) :
    name.toList ≠ [] ∧
      ∀ ch ∈ name.toList, isAlphanumeric ch = true ∨ ch = '-' ∨ ch = '_' := by
  unfold validateName at h
  split at h
  · cases h
  · rename_i hne
    cases hfind : name.toList.find? fun ch =>
        !isAlphanumeric ch && ch != '-' && ch != '_' with
    | some ch => simp only [hfind, reduceCtorEq] at h
    | none =>
      refine ⟨hne, ?_⟩
      intro ch hch
      have hno := List.find?_eq_none.mp hfind ch hch
      simp only [Bool.and_eq_true, Bool.not_eq_true', bne_iff_ne, not_and_or, not_not,
        Bool.not_eq_false] at hno
      tauto

/-- The name of a file. -/
theorem validateFilename_eq_ok (h : validateFilename name = .ok ()) :
    name.toList ≠ [] ∧ '/' ∉ name.toList ∧ '\\' ∉ name.toList ∧ ¬ ['.', '.'] <:+: name.toList ∧
      (".fasm".toList <:+ name.toList ∨ ".fasmc".toList <:+ name.toList) := by
  unfold validateFilename at h
  split at h
  · cases h
  · rename_i hne
    split at h
    · cases h
    · rename_i hseps
      split at h
      · cases h
      · rename_i hend
        simp only [not_or] at hseps
        refine ⟨hne, hseps.1, hseps.2.1, hseps.2.2, ?_⟩
        by_contra hno
        exact hend (not_or.mp hno)

end Validate

/-! ## Where the names lead -/

section Places

variable {isAlphanumeric : Char → Bool} {p : Platform} {dataDir : Path}

/-- What stands between components or after a drive is not alphanumeric. -/
theorem AlphanumericAscii.ne (h : AlphanumericAscii isAlphanumeric) {c : Char}
    (hc : isAlphanumeric c = true) : c ≠ '/' ∧ c ≠ '\\' ∧ c ≠ ':' ∧ c ≠ '.' := by
  refine ⟨?_, ?_, ?_, ?_⟩
  all_goals
    rintro rfl
    rw [h _ (by decide)] at hc
    exact absurd hc (by decide)

/-- The names of namespaces and apps are plain on every platform. -/
theorem plain_of_chars (h : AlphanumericAscii isAlphanumeric) {name : String}
    (hne : name.toList ≠ [])
    (hchars : ∀ ch ∈ name.toList, isAlphanumeric ch = true ∨ ch = '.' ∨ ch = '-' ∨ ch = '_') :
    p.Plain name := by
  have hothers {c : Char} (hc : c = '/' ∨ c = '\\' ∨ c = ':') : c ∉ name.toList := by
    intro hmem
    rcases hchars c hmem with halnum | hch
    · obtain ⟨h₁, h₂, h₃, -⟩ := h.ne halnum
      tauto
    · rcases hc with rfl | rfl | rfl <;> revert hch <;> decide
  refine ⟨hne, ?_, Platform.splitDrive_of_noColon (hothers (by tauto))⟩
  intro c hc
  by_contra hsep
  rw [Bool.not_eq_false] at hsep
  cases p with
  | unix => exact hothers (.inl (beq_iff_eq.mp hsep)) hc
  | windows =>
    rcases Bool.or_eq_true_iff.mp hsep with hslash | hback
    · exact hothers (.inl (beq_iff_eq.mp hslash)) hc
    · exact hothers (.inr (.inl (beq_iff_eq.mp hback))) hc

/-- An accepted file name has no separators. -/
theorem unseparated_of_validateFilename {name : String} (h : validateFilename name = .ok ())
    {c : Char} (hc : c ∈ name.toList) : p.isSep c = false := by
  obtain ⟨-, hslash, hback, -⟩ := validateFilename_eq_ok h
  by_contra hsep
  rw [Bool.not_eq_false] at hsep
  cases p with
  | unix =>
    rw [beq_iff_eq.mp hsep] at hc
    exact hslash hc
  | windows =>
    rcases Bool.or_eq_true_iff.mp hsep with hsep | hsep
    · rw [beq_iff_eq.mp hsep] at hc
      exact hslash hc
    · rw [beq_iff_eq.mp hsep] at hc
      exact hback hc

/-- It is neither `.` nor `..`. -/
theorem filename_ne {name : String} (h : validateFilename name = .ok ()) :
    name ≠ "." ∧ name ≠ ".." := by
  obtain ⟨-, -, -, hdots, hend⟩ := validateFilename_eq_ok h
  constructor
  · intro heq
    rw [heq] at hend
    exact absurd hend (by decide)
  · intro heq
    rw [heq] at hdots
    exact hdots (by decide)

/-- An accepted name of a namespace is plain. -/
theorem plain_of_validateNamespace (halnum : AlphanumericAscii isAlphanumeric) {ns : String}
    (h : validateNamespace isAlphanumeric ns = .ok ()) : p.Plain ns := by
  obtain ⟨hne, hchars, -⟩ := validateNamespace_eq_ok h
  exact plain_of_chars halnum hne hchars

/-- It is not `..`. -/
theorem namespace_ne {ns : String} (h : validateNamespace isAlphanumeric ns = .ok ()) :
    ns ≠ ".." := by
  obtain ⟨-, -, hdots⟩ := validateNamespace_eq_ok h
  intro heq
  rw [heq] at hdots
  exact hdots (by decide)

/-- An accepted name of an app is plain. -/
theorem plain_of_validateName (halnum : AlphanumericAscii isAlphanumeric) {app : String}
    (h : validateName isAlphanumeric app = .ok ()) : p.Plain app := by
  obtain ⟨hne, hchars⟩ := validateName_eq_ok h
  exact plain_of_chars halnum hne fun ch hch => (hchars ch hch).imp_right .inr

/-- It has no dot. -/
theorem app_ne (halnum : AlphanumericAscii isAlphanumeric) {app : String}
    (h : validateName isAlphanumeric app = .ok ()) : app ≠ "." ∧ app ≠ ".." := by
  obtain ⟨-, hchars⟩ := validateName_eq_ok h
  have hdot : '.' ∉ app.toList := by
    intro hmem
    rcases hchars '.' hmem with hch | hch | hch
    · exact (halnum.ne hch).2.2.2 rfl
    · exact absurd hch (by decide)
    · exact absurd hch (by decide)
  constructor
  · intro heq
    rw [heq] at hdot
    exact hdot (by decide)
  · intro heq
    rw [heq] at hdot
    exact hdot (by decide)

theorem plain_files : p.Plain "files" :=
  ⟨by decide, by cases p <;> simp [Platform.isSep], Platform.splitDrive_of_noColon (by decide)⟩

/-- The directory of a namespace. -/
theorem normal_nsDir (halnum : AlphanumericAscii isAlphanumeric) {ns : String}
    (hns : validateNamespace isAlphanumeric ns = .ok ()) (hdot : ns ≠ ".") :
    (nsDir p dataDir ns).normal = dataDir.normal.under [ns] :=
  Path.normal_join (plain_of_validateNamespace halnum hns) hdot (namespace_ne hns)

/-- The directory of an app. -/
theorem normal_appDir (halnum : AlphanumericAscii isAlphanumeric) {ns app : String}
    (hns : validateNamespace isAlphanumeric ns = .ok ()) (hdot : ns ≠ ".")
    (happ : validateName isAlphanumeric app = .ok ()) :
    (appDir p dataDir ns app).normal = dataDir.normal.under [ns, app] := by
  obtain ⟨hne, hne'⟩ := app_ne halnum happ
  rw [appDir, Path.normal_join (plain_of_validateName halnum happ) hne hne',
    normal_nsDir halnum hns hdot, Path.under_under]
  rfl

/-- The directory of its files. -/
theorem normal_filesDir (halnum : AlphanumericAscii isAlphanumeric) {ns app : String}
    (hns : validateNamespace isAlphanumeric ns = .ok ()) (hdot : ns ≠ ".")
    (happ : validateName isAlphanumeric app = .ok ()) :
    (filesDir p dataDir ns app).normal = dataDir.normal.under [ns, app, "files"] := by
  rw [filesDir, Path.normal_join plain_files (by decide) (by decide),
    normal_appDir halnum hns hdot happ, Path.under_under]
  rfl

/-- A file in it. -/
theorem normal_filePath (halnum : AlphanumericAscii isAlphanumeric) {ns app filename : String}
    (hns : validateNamespace isAlphanumeric ns = .ok ()) (hdot : ns ≠ ".")
    (happ : validateName isAlphanumeric app = .ok ()) (hfile : validateFilename filename = .ok ())
    (hdrive : (p.splitDrive filename.toList).1 = none) :
    (filePath p dataDir ns app filename).normal =
      dataDir.normal.under [ns, app, "files", filename] := by
  have hplain : p.Plain filename :=
    ⟨(validateFilename_eq_ok hfile).1, fun _ hc => unseparated_of_validateFilename hfile hc,
      hdrive⟩
  obtain ⟨hne, hne'⟩ := filename_ne hfile
  rw [filePath, Path.normal_join hplain hne hne', normal_filesDir halnum hns hdot happ,
    Path.under_under]
  rfl

/-- A drive makes a path of one component. -/
theorem length_filePath_le (dataDir : Path) (ns app : String) {filename : String}
    (hfile : validateFilename filename = .ok ()) (hdrive : (p.splitDrive filename.toList).1 ≠ none) :
    (filePath p dataDir ns app filename).normal.comps.length ≤ 1 := by
  have hjoin : filePath p dataDir ns app filename = p.parse filename := Path.join_drive hdrive
  have hone : (p.parse filename).comps.length ≤ 1 :=
    Platform.length_components_le fun c hc =>
      unseparated_of_validateFilename hfile (Platform.mem_of_splitDrive hc)
  rw [hjoin]
  exact (Path.length_normal_le (p.parse filename)).trans hone

namespace FileAddress

variable {a b : FileAddress}

variable (dataDir) in
/-- The places of proper names. -/
theorem Accepted.places (h : a.Accepted isAlphanumeric) (halnum : AlphanumericAscii isAlphanumeric)
    (hproper : a.Proper p) :
    (nsDir p dataDir a.ns).normal = dataDir.normal.under [a.ns] ∧
    (appDir p dataDir a.ns a.app).normal = dataDir.normal.under [a.ns, a.app] ∧
    (filesDir p dataDir a.ns a.app).normal = dataDir.normal.under [a.ns, a.app, "files"] ∧
    (filePath p dataDir a.ns a.app a.file).normal =
      dataDir.normal.under [a.ns, a.app, "files", a.file] :=
  ⟨normal_nsDir halnum h.ns hproper.1, normal_appDir halnum h.ns hproper.1 h.app,
    normal_filesDir halnum h.ns hproper.1 h.app,
    normal_filePath halnum h.ns hproper.1 h.app h.file hproper.2⟩

/-- Proper names stay inside. -/
theorem Accepted.contained (h : a.Accepted isAlphanumeric)
    (halnum : AlphanumericAscii isAlphanumeric) (hproper : a.Proper p) :
    a.Contained p dataDir := by
  obtain ⟨hns, -, hfiles, hfile⟩ := h.places dataDir halnum hproper
  refine ⟨?_, ?_, a.ns, hns⟩
  · rw [hfiles, hfile]
    exact Path.above_under [a.ns, a.app, "files"] (List.cons_ne_nil a.file [])
  · rw [hns, hfiles]
    exact Path.above_under [a.ns] (List.cons_ne_nil a.app ["files"])

/-- What stays inside has proper names. -/
theorem Accepted.proper_of_contained (h : a.Accepted isAlphanumeric)
    (halnum : AlphanumericAscii isAlphanumeric) (hcontained : a.Contained p dataDir) :
    a.Proper p := by
  constructor
  · -- a namespace `.` has the data directory for its own
    intro hdot
    obtain ⟨c, hc⟩ := hcontained.ns
    rw [nsDir, Path.join_plain (plain_of_validateNamespace halnum h.ns), hdot,
      Path.normal_under_dot] at hc
    have hlength := congrArg (fun q => q.comps.length) hc
    simp [Path.under] at hlength
  · by_contra hdrive
    have hone := length_filePath_le dataDir a.ns a.app h.file hdrive
    have hfile := hcontained.file.length_lt
    have happ := hcontained.app.length_lt
    omega

/-- Proper names are kept apart. -/
theorem Accepted.separate (ha : a.Accepted isAlphanumeric) (hb : b.Accepted isAlphanumeric)
    (halnum : AlphanumericAscii isAlphanumeric) (hpa : a.Proper p) (hpb : b.Proper p) :
    Separate p dataDir a b := by
  obtain ⟨hns, happ, -, hfile⟩ := ha.places dataDir halnum hpa
  obtain ⟨hns', -, -, hfile'⟩ := hb.places dataDir halnum hpb
  refine ⟨?_, ?_, ?_, ?_⟩
  · intro hne heq
    rw [hfile, hfile', Path.under_inj] at heq
    injection heq with h₁ heq
    injection heq with h₂ heq
    injection heq with _ heq
    injection heq with h₃ _
    apply hne
    cases a
    cases b
    cases h₁
    cases h₂
    cases h₃
    rfl
  · intro hne heq
    rw [hns, hns', Path.under_inj] at heq
    exact hne (List.cons.inj heq).1
  · intro hne hwithin
    rw [hns, hfile', Path.within_under, List.cons_prefix_cons] at hwithin
    exact hne hwithin.1
  · intro hne hwithin
    rw [happ, hfile', Path.within_under, List.cons_prefix_cons, List.cons_prefix_cons] at hwithin
    exact hne ⟨hwithin.1, hwithin.2.1⟩

end FileAddress

end Places

/-- Accepted names have separate places in the data directory just when no namespace is `.` and
no file name begins with a drive. -/
theorem names_separate_iff {isAlphanumeric : Char → Bool} {p : Platform} {dataDir : Path}
    {a b : FileAddress} (halnum : AlphanumericAscii isAlphanumeric)
    (ha : a.Accepted isAlphanumeric) (hb : b.Accepted isAlphanumeric) :
    (a.Contained p dataDir ∧ b.Contained p dataDir ∧ a.Separate p dataDir b) ↔
      a.Proper p ∧ b.Proper p := by
  constructor
  · rintro ⟨hca, hcb, -⟩
    exact ⟨ha.proper_of_contained halnum hca, hb.proper_of_contained halnum hcb⟩
  · rintro ⟨hpa, hpb⟩
    exact ⟨ha.contained halnum hpa, hb.contained halnum hpb, ha.separate hb halnum hpa hpb⟩

section Example

/-- A file of an app. -/
def cartFile : FileAddress := ⟨"shop", "cart", "a.fasm"⟩

/-- A file of a namespace `.`. -/
def dotFile : FileAddress := ⟨".", "cart", "a.fasm"⟩

/-- A file on a drive of its own, where there are drives. -/
def driveFile : FileAddress := ⟨"shop", "cart", "C:a.fasm"⟩

theorem cartFile_accepted : cartFile.Accepted Char.isAlphanum := ⟨rfl, rfl, rfl⟩

theorem names_separate_cart :
    (cartFile.Contained .windows ⟨some 'D', true, ["data"]⟩ ∧
      cartFile.Contained .windows ⟨some 'D', true, ["data"]⟩ ∧
      cartFile.Separate .windows ⟨some 'D', true, ["data"]⟩ cartFile) ↔
    cartFile.Proper .windows ∧ cartFile.Proper .windows :=
  names_separate_iff (fun _ _ => rfl) cartFile_accepted cartFile_accepted

/-- The namespace `.` is accepted, and its directory is the data directory, with all that is in
it; and so is a file name that leads to another drive. -/
theorem names_not_separate :
    dotFile.Accepted Char.isAlphanum ∧ driveFile.Accepted Char.isAlphanum ∧
    (nsDir .unix ⟨none, true, ["srv", "data"]⟩ ".").normal = ⟨none, true, ["srv", "data"]⟩ ∧
    (nsDir .unix ⟨none, true, ["srv", "data"]⟩ ".").normal.Within
      (filePath .unix ⟨none, true, ["srv", "data"]⟩ "shop" "cart" "a.fasm").normal ∧
    ¬ dotFile.Contained .unix ⟨none, true, ["srv", "data"]⟩ ∧
    filePath .windows ⟨some 'D', true, ["data"]⟩ "shop" "cart" "C:a.fasm" =
      ⟨some 'C', false, ["a.fasm"]⟩ := by
  refine ⟨⟨rfl, rfl, rfl⟩, ⟨rfl, rfl, rfl⟩, rfl, ?_, ?_, rfl⟩
  · exact Path.within_self_under ⟨none, true, ["srv", "data"]⟩ ["shop", "cart", "files", "a.fasm"]
  · rintro ⟨-, -, c, hc⟩
    have hlength : 2 = 3 := congrArg (fun q => q.comps.length) hc
    omega

end Example

end Fasm
