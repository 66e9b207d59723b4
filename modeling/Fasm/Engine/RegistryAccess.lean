import Fasm.Engine.RegistryFailures

/-!
# Downloads and deletions

`get_file_path` and `delete_file` join a name that the client sends to the directory of an app
without a check of it, and the first does not look at the registry.
-/

namespace Fasm

section Access

variable (p : Platform) (dataDir : Path)

/-- The place is that of a file in the directory of the app, and the app lists the file. -/
def Inside (s : AppRegistry) (ns app : String) (k : Path) : Prop :=
  ∃ m, s.inner.getApp ns app = some m ∧
    ∃ f ∈ m.files, k = (filesDir p dataDir ns app).normal.under [f.name]

/-- The path that `download_file` reads is of a file of the app. -/
def DownloadInside (stat : Option String) (s : AppRegistry) (ns app filename : String) : Prop :=
  ∀ q, s.getFilePath p dataDir stat ns app filename = some q → Inside p dataDir s ns app q.normal

/-- What `remove_file` takes away in `delete_file` is a file of the app. -/
def DeleteInside (serialize : AppManifest → List U8) (io : IoPattern) (s : AppRegistry)
    (ns app filename : String) : Prop :=
  ∀ s₁, s.unlistFile p dataDir serialize io ns app filename = (.ok (), s₁) → ∀ k,
    s₁.tree k ≠ none → (s.deleteFile p dataDir serialize io ns app filename).2.tree k = none →
      Inside p dataDir s ns app k

/-- The app is registered, and behind its directory of files the name of the file names one that
the app lists. -/
def NamesListed (r : RegistryInner) (ns app filename : String) : Prop :=
  ∃ m, r.getApp ns app = some m ∧
    ∃ f ∈ m.files, Path.LeadsTo p (filesDir p dataDir ns app).normal filename f.name

/-- There is something where the names lead, and the call that looks for it does not fail. -/
def Finds (stat : Option String) (s : AppRegistry) (ns app filename : String) : Prop :=
  stat = none ∧
    s.tree.pathExists p (p.asksDir filename) (filePath p dataDir ns app filename) = true

/-- `delete_file` comes to `remove_file`, which finds a file: the app is there, no route
references the file, the manifest is written, and at the path is a file that is not the manifest
under its first name, or the manifest itself. -/
def Removes (io : IoPattern) (s : AppRegistry) (ns app filename : String) : Prop :=
  ∃ m m', s.inner.getApp ns app = some m ∧ m.withoutFile filename = .ok m' ∧
    ¬ io.PersistFails ∧ io.removeFile = none ∧
      ((filePath p dataDir ns app filename).normal = (manifestPath p dataDir m.ns m.app).normal ∨
        (filePath p dataDir ns app filename).normal ≠ (manifestTmp p dataDir m.ns m.app).normal ∧
          ∃ text, s.tree (filePath p dataDir ns app filename).normal = some (.file text))

end Access

section Lemmas

variable {p : Platform} {dataDir : Path} {serialize : AppManifest → List U8} {io : IoPattern}
  {stat : Option String} {s : AppRegistry} {ns app filename : String}

/-- The place of a name is that of a listed file just when the name leads to one. -/
theorem inside_filePath_iff :
    Inside p dataDir s ns app (filePath p dataDir ns app filename).normal ↔
      NamesListed p dataDir s.inner ns app filename := by
  have hfiles : (filesDir p dataDir ns app).normal =
      (appDir p dataDir ns app).normal.under ["files"] :=
    Path.normal_join plain_files (by decide) (by decide)
  refine exists_congr fun m => and_congr_right' (exists_congr fun f => and_congr_right' ?_)
  exact Path.normal_join_eq_iff hfiles (by decide)

/-- A name that passes the check of an upload names a listed file when the app lists it. -/
theorem namesListed_of_lists {m : AppManifest} (hm : s.inner.getApp ns app = some m)
    (hvalid : validateFilename filename = .ok ())
    (hdrive : (p.splitDrive filename.toList).1 = none) (hlists : m.Lists filename) :
    NamesListed p dataDir s.inner ns app filename := by
  obtain ⟨f, hf, rfl⟩ := hlists
  have hplain : p.Plain f.name :=
    ⟨(validateFilename_eq_ok hvalid).1, fun _ hc => unseparated_of_validateFilename hvalid hc,
      hdrive⟩
  obtain ⟨hdot, hdots⟩ := filename_ne hvalid
  rw [← inside_filePath_iff]
  exact ⟨m, hm, f, hf, Path.normal_join hplain hdot hdots⟩

/-- What is found is returned. -/
theorem downloadInside_iff :
    DownloadInside p dataDir stat s ns app filename ↔
      (Finds p dataDir stat s ns app filename →
        Inside p dataDir s ns app (filePath p dataDir ns app filename).normal) := by
  have hfinds : (stat.isNone && s.tree.pathExists p (p.asksDir filename)
      (filePath p dataDir ns app filename)) = true ↔ Finds p dataDir stat s ns app filename := by
    rw [Bool.and_eq_true, Option.isNone_iff_eq_none, Finds]
  unfold DownloadInside AppRegistry.getFilePath
  constructor
  · intro hinside hfound
    exact hinside _ (if_pos (hfinds.mpr hfound))
  · intro hinside q hq
    by_cases hfound : Finds p dataDir stat s ns app filename
    · rw [if_pos (hfinds.mpr hfound)] at hq
      cases hq
      exact hinside hfound
    · rw [if_neg (mt hfinds.mp hfound)] at hq
      cases hq

/-- What is in the tree before the file is removed. -/
theorem unlistFile_tree {s₁ : AppRegistry}
    (h : s.unlistFile p dataDir serialize io ns app filename = (.ok (), s₁)) :
    ∃ m m', s.inner.getApp ns app = some m ∧ m.withoutFile filename = .ok m' ∧
      m'.ns = m.ns ∧ m'.app = m.app ∧ ¬ io.PersistFails ∧
      s₁.tree = persistedTree p dataDir serialize m' s.tree := by
  obtain ⟨m, m', hm, hf, -, hruns, htree⟩ := AppRegistry.editPersist_eq_ok h
  obtain ⟨hns, happ⟩ := AppManifest.withoutFile_names hf
  exact ⟨m, m', hm, hf, hns, happ, hruns, htree⟩

/-- When the file can be unlisted. -/
theorem unlistFile_ok {d : Path} {f : AppManifest → List U8} {m m' : AppManifest}
    (hm : s.inner.getApp ns app = some m) (hf : m.withoutFile filename = .ok m')
    (hruns : ¬ io.PersistFails) :
    ∃ s₁, s.unlistFile p d f io ns app filename = (.ok (), s₁) := by
  have houtcome : AppRegistry.EditOutcome p d f io ns app
      (fun m => m.withoutFile filename) s (s.unlistFile p d f io ns app filename) :=
    AppRegistry.editPersist_outcome _
  generalize s.unlistFile p d f io ns app filename = result at houtcome ⊢
  cases houtcome with
  | refused e hno => exact absurd hf (hno m m' hm)
  | unwritten e t hm₁ hf₁ hself hfails => exact absurd hfails hruns
  | written => exact ⟨_, rfl⟩

/-- What `delete_file` leaves after the file is unlisted. -/
theorem deleteFile_tree {s₁ : AppRegistry}
    (h : s.unlistFile p dataDir serialize io ns app filename = (.ok (), s₁)) :
    (s.deleteFile p dataDir serialize io ns app filename).2.tree =
      if io.removeFile = none then
        s₁.tree.removeFile (filePath p dataDir ns app filename).normal
      else s₁.tree := by
  unfold AppRegistry.deleteFile
  rw [h]
  cases io.removeFile with
  | none => rfl
  | some e => rfl

/-- A request that removes a file takes away what is at its path, and nothing else. -/
theorem deleteInside_iff :
    DeleteInside p dataDir serialize io s ns app filename ↔
      (Removes p dataDir io s ns app filename →
        Inside p dataDir s ns app (filePath p dataDir ns app filename).normal) := by
  constructor
  · rintro hinside ⟨m, m', hm, hf, hruns, hremove, hthere⟩
    obtain ⟨s₁, h₁⟩ := unlistFile_ok (p := p) (d := dataDir) (f := serialize) hm hf hruns
    obtain ⟨m₁, m₁', hm₁, hf₁, hns, happ, -, htree⟩ := unlistFile_tree h₁
    rw [hm] at hm₁
    cases hm₁
    rw [hf] at hf₁
    cases hf₁
    rw [← hns, ← happ] at hthere
    have hfile : ∃ text, s₁.tree (filePath p dataDir ns app filename).normal =
        some (.file text) := by
      rw [htree]
      by_cases hmanifest : (filePath p dataDir ns app filename).normal =
          (manifestPath p dataDir m'.ns m'.app).normal
      · refine ⟨serialize m', ?_⟩
        rw [hmanifest, persistedTree_manifest]
      · obtain ⟨htmp, text, htext⟩ := hthere.resolve_left hmanifest
        refine ⟨text, ?_⟩
        rw [persistedTree_of_ne hmanifest htmp, htext]
    obtain ⟨text, htext⟩ := hfile
    apply hinside s₁ h₁
    · rw [htext]
      nofun
    · rw [deleteFile_tree h₁, if_pos hremove, FileTree.removeFile_self htext]
  · intro hinside s₁ h₁ k hk hgone
    obtain ⟨m, m', hm, hf, hns, happ, hruns, htree⟩ := unlistFile_tree h₁
    rw [deleteFile_tree h₁] at hgone
    by_cases hremove : io.removeFile = none
    · rw [if_pos hremove] at hgone
      obtain ⟨rfl, text, htext⟩ := FileTree.removeFile_eq_none hgone hk
      apply hinside
      refine ⟨m, m', hm, hf, hruns, hremove, ?_⟩
      rw [← hns, ← happ]
      by_cases hmanifest : (filePath p dataDir ns app filename).normal =
          (manifestPath p dataDir m'.ns m'.app).normal
      · exact .inl hmanifest
      · right
        have htmp : (filePath p dataDir ns app filename).normal ≠
            (manifestTmp p dataDir m'.ns m'.app).normal := by
          intro heq
          rw [htree, heq, persistedTree_tmp] at htext
          cases htext
        rw [htree, persistedTree_of_ne hmanifest htmp] at htext
        exact ⟨htmp, text, htext⟩
    · rw [if_neg hremove] at hgone
      exact absurd hgone hk

end Lemmas

/-- What a client downloads and deletes is a file that the app lists, just when the name that the
client gives leads from the files of the app to such a file, or there is nothing where it leads
and nothing that is taken away there. -/
theorem access_inside_iff (p : Platform) (dataDir : Path) (serialize : AppManifest → List U8)
    (io : IoPattern) (stat : Option String) (s : AppRegistry) (ns app filename : String) :
    (DownloadInside p dataDir stat s ns app filename ∧
      DeleteInside p dataDir serialize io s ns app filename) ↔
      NamesListed p dataDir s.inner ns app filename ∨
        ¬ Finds p dataDir stat s ns app filename ∧ ¬ Removes p dataDir io s ns app filename := by
  rw [downloadInside_iff, deleteInside_iff, inside_filePath_iff]
  tauto

section Example

/-- A registry with one app without files, and a file elsewhere on the disk. -/
def passwdRegistry : AppRegistry where
  inner := ⟨Finmap.insert "shop" (Finmap.insert "cart" ⟨"shop", "cart", 0, [], []⟩ ∅) ∅⟩
  tree := fun k =>
    if k.comps = ["etc", "passwd"] then some (.file [1])
    else if k.comps ∈ [[], ["etc"], ["data"], ["data", "shop"], ["data", "shop", "cart"],
      ["data", "shop", "cart", "files"]] then some .dir
    else none

/-- Every call of the operating system runs. -/
def allRuns : IoPattern := ⟨.runs, .runs, .runs, .runs, .runs, none⟩

/-- A name with `..` leads out of the app, for a download and for a deletion. -/
theorem access_outside :
    let s := passwdRegistry
    let d : Path := ⟨none, true, ["data"]⟩
    let name := "../../../../etc/passwd"
    (s.getFilePath .unix d none "shop" "cart" name).map Path.normal =
      some ⟨none, true, ["etc", "passwd"]⟩ ∧
    (s.deleteFile .unix d (fun _ => []) allRuns "shop" "cart" name).1 = .ok () ∧
    (s.deleteFile .unix d (fun _ => []) allRuns "shop" "cart" name).2.tree
      ⟨none, true, ["etc", "passwd"]⟩ = none ∧
    ¬ DownloadInside .unix d none s "shop" "cart" name := by
  intro s d name
  refine ⟨by decide, rfl, by decide, ?_⟩
  intro hinside
  have hfound : s.getFilePath .unix d none "shop" "cart" name =
      some (filePath .unix d "shop" "cart" name) := by decide
  obtain ⟨m, hm, f, hf, -⟩ := hinside _ hfound
  cases hm
  cases hf

end Example

end Fasm
