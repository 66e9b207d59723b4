import Fasm.Engine.RegistryStore

/-!
# Calls that fail

A call of the registry that fails should leave the memory as it was, and one that succeeds
should leave the manifest on the disk that is in memory.  The operations on files and route
records edit the manifest in memory before they write it, and some results are not looked at.
-/

namespace Fasm

/-- A manifest without a file is of the same app. -/
theorem AppManifest.withoutFile_names {m m' : AppManifest} {filename : String}
    (h : m.withoutFile filename = .ok m') : m'.ns = m.ns ∧ m'.app = m.app := by
  unfold withoutFile at h
  split at h
  · cases h
  · cases h
    exact ⟨rfl, rfl⟩

/-- So is one with a file stored. -/
theorem AppManifest.storeRecord_names (record : FileRecord) (m : AppManifest) :
    (m.storeRecord record).ns = m.ns ∧ (m.storeRecord record).app = m.app := by
  unfold storeRecord
  split
  · exact ⟨rfl, rfl⟩
  · exact ⟨rfl, rfl⟩

namespace RegistryInner

variable {r r' : RegistryInner} {ns app : String}

/-- The registries are the same when their namespaces are. -/
theorem ext_namespaces (h : r.namespaces = r'.namespaces) : r = r' := by
  cases r
  cases r'
  exact congrArg RegistryInner.mk h

/-- An edit leaves the registry as it is just when it leaves the manifest as it is. -/
theorem editApp_eq_self {f : AppManifest → Except String AppManifest} {m m' : AppManifest}
    (h : r.editApp ns app f = .ok r') (hm : r.getApp ns app = some m) (hf : f m = .ok m') :
    r' = r ↔ m' = m := by
  obtain ⟨m₁, m₁', hm₁, hf₁, hedits⟩ := editApp_eq_ok h
  rw [hm] at hm₁
  cases hm₁
  rw [hf] at hf₁
  cases hf₁
  constructor
  · rintro rfl
    exact Option.some.inj (hedits.here.symm.trans hm)
  · rintro rfl
    obtain ⟨apps, hns, happ⟩ := Option.bind_eq_some_iff.mp hm
    simp only [editApp, hns, happ, hf, Except.map, Except.ok.injEq] at h
    subst h
    have happs : apps.insert app m' = apps := by
      apply Finmap.ext_lookup
      intro app'
      by_cases heq : app' = app
      · rw [heq, Finmap.lookup_insert, happ]
      · exact Finmap.lookup_insert_of_ne _ heq
    apply ext_namespaces
    show r.namespaces.insert ns _ = r.namespaces
    rw [happs]
    apply Finmap.ext_lookup
    intro ns'
    by_cases heq : ns' = ns
    · rw [heq, Finmap.lookup_insert, hns]
    · exact Finmap.lookup_insert_of_ne _ heq

end RegistryInner

section Persist

variable {p : Platform} {d : Path} {f : AppManifest → List U8} {io : IoPattern}
  {m : AppManifest} {t : FileTree (List U8)}

theorem plain_manifest : p.Plain "manifest.json" ∧ p.Plain "manifest.json.tmp" := by
  refine ⟨⟨by decide, ?_, Platform.splitDrive_of_noColon (by decide)⟩,
    ⟨by decide, ?_, Platform.splitDrive_of_noColon (by decide)⟩⟩
  all_goals cases p <;> simp [Platform.isSep]

/-- Where a manifest is. -/
theorem normal_manifestPath (ns app : String) :
    (manifestPath p d ns app).normal =
      (appDir p d ns app).normal.under ["manifest.json"] :=
  Path.normal_join plain_manifest.1 (by decide) (by decide)

/-- Where it is written first. -/
theorem normal_manifestTmp (ns app : String) :
    (manifestTmp p d ns app).normal =
      (appDir p d ns app).normal.under ["manifest.json.tmp"] :=
  Path.normal_join plain_manifest.2 (by decide) (by decide)

theorem manifestPath_ne_tmp (ns app : String) :
    (manifestPath p d ns app).normal ≠ (manifestTmp p d ns app).normal := by
  rw [normal_manifestPath, normal_manifestTmp]
  intro heq
  exact absurd (Path.under_inj.mp heq) (by decide)

/-- What a manifest that is written leaves behind. -/
def persistedTree (p : Platform) (dataDir : Path) (serialize : AppManifest → List U8)
    (m : AppManifest) (t : FileTree (List U8)) : FileTree (List U8) :=
  (t.write (manifestTmp p dataDir m.ns m.app).normal (serialize m)).rename
    (manifestTmp p dataDir m.ns m.app).normal (manifestPath p dataDir m.ns m.app).normal

theorem persistedTree_manifest (m : AppManifest) (t : FileTree (List U8)) :
    persistedTree p d f m t (manifestPath p d m.ns m.app).normal = some (.file (f m)) := by
  unfold persistedTree
  rw [FileTree.rename_new (manifestPath_ne_tmp m.ns m.app), FileTree.write_self]

theorem persistedTree_tmp (m : AppManifest) (t : FileTree (List U8)) :
    persistedTree p d f m t (manifestTmp p d m.ns m.app).normal = none :=
  FileTree.rename_old _ _ _

theorem persistedTree_of_ne {k : Path} (hpath : k ≠ (manifestPath p d m.ns m.app).normal)
    (htmp : k ≠ (manifestTmp p d m.ns m.app).normal) : persistedTree p d f m t k = t k := by
  unfold persistedTree
  rw [FileTree.rename_of_ne htmp hpath, FileTree.write_of_ne htmp]

/-- A manifest that is written is on the disk. -/
theorem persistManifest_ok (h : ¬ io.PersistFails) :
    persistManifest p d f io m t = (.ok (), persistedTree p d f m t) := by
  obtain ⟨htmp, hrename⟩ := not_not.mp h
  unfold persistManifest
  rw [htmp, hrename]
  rfl

/-- One that is not is an error. -/
theorem persistManifest_error (h : io.PersistFails) :
    ∃ e t', persistManifest p d f io m t = (.error e, t') := by
  unfold persistManifest
  cases htmp : io.writeTmp with
  | fails e left => exact ⟨_, _, rfl⟩
  | runs =>
    cases hrename : io.rename with
    | fails e left => exact ⟨_, _, rfl⟩
    | runs => exact absurd ⟨htmp, hrename⟩ h

end Persist

namespace AppRegistry

/-- The manifest of an app is on the disk as it is in memory, or in neither. -/
def OnDisk (p : Platform) (dataDir : Path) (serialize : AppManifest → List U8) (s : AppRegistry)
    (ns app : String) : Prop :=
  match s.inner.getApp ns app with
  | some m => s.tree (manifestPath p dataDir m.ns m.app).normal = some (.file (serialize m))
  | none => ∀ text, s.tree (manifestPath p dataDir ns app).normal ≠ some (.file text)

variable {p : Platform} {dataDir : Path} {serialize : AppManifest → List U8} {io : IoPattern}
  {s s' : AppRegistry} {ns app : String}

theorem onDisk_of_getApp {m : AppManifest} (h : s.inner.getApp ns app = some m) :
    s.OnDisk p dataDir serialize ns app ↔
      s.tree (manifestPath p dataDir m.ns m.app).normal = some (.file (serialize m)) := by
  unfold OnDisk
  rw [h]

theorem onDisk_of_none (h : s.inner.getApp ns app = none) :
    s.OnDisk p dataDir serialize ns app ↔
      ∀ text, s.tree (manifestPath p dataDir ns app).normal ≠ some (.file text) := by
  unfold OnDisk
  rw [h]

/-- The manifest that is written is that of the app. -/
theorem onDisk_persisted {r : RegistryInner} {m : AppManifest} (h : r.getApp ns app = some m)
    (t : FileTree (List U8)) :
    OnDisk p dataDir serialize ⟨r, persistedTree p dataDir serialize m t⟩ ns app := by
  unfold OnDisk
  simp only [h]
  exact persistedTree_manifest m t

/-- What an edit that is persisted can come to: an error before it changes anything, an error
when the memory is changed already, or the edit in memory and on the disk. -/
inductive EditOutcome (p : Platform) (dataDir : Path) (serialize : AppManifest → List U8)
    (io : IoPattern) (ns app : String) (f : AppManifest → Except String AppManifest)
    (s : AppRegistry) : Except String Unit × AppRegistry → Prop
  | refused (e : String) (h : ∀ m m', s.inner.getApp ns app = some m → f m ≠ .ok m') :
    EditOutcome p dataDir serialize io ns app f s (.error e, s)
  | unwritten {m m' : AppManifest} {inner : RegistryInner} (e : String) (t : FileTree (List U8))
    (hm : s.inner.getApp ns app = some m) (hf : f m = .ok m') (hself : inner = s.inner ↔ m' = m)
    (hfails : io.PersistFails) :
    EditOutcome p dataDir serialize io ns app f s (.error e, ⟨inner, t⟩)
  | written {m m' : AppManifest} {inner : RegistryInner} {t : FileTree (List U8)}
    (hm : s.inner.getApp ns app = some m) (hf : f m = .ok m')
    (hhere : inner.getApp ns app = some m') (hruns : ¬ io.PersistFails)
    (ht : t (manifestPath p dataDir m'.ns m'.app).normal = some (.file (serialize m'))) :
    EditOutcome p dataDir serialize io ns app f s (.ok (), ⟨inner, t⟩)

theorem editPersist_outcome (f : AppManifest → Except String AppManifest) :
    EditOutcome p dataDir serialize io ns app f s
      (s.editPersist p dataDir serialize io ns app f) := by
  unfold editPersist
  cases hedit : s.inner.editApp ns app f with
  | error e =>
    refine .refused e ?_
    intro m m' hm hf
    obtain ⟨r', hr'⟩ := RegistryInner.editApp_of_getApp hm hf
    rw [hedit] at hr'
    cases hr'
  | ok inner =>
    obtain ⟨m, m', hm, hf, hedits⟩ := RegistryInner.editApp_eq_ok hedit
    simp only [hedits.here]
    by_cases hfails : io.PersistFails
    · obtain ⟨e, t, h⟩ := persistManifest_error (p := p) (d := dataDir) (f := serialize) (m := m')
        (t := s.tree) hfails
      rw [h]
      exact .unwritten e t hm hf (RegistryInner.editApp_eq_self hedit hm hf) hfails
    · rw [persistManifest_ok hfails]
      have ht := persistedTree_manifest (p := p) (d := dataDir) (f := serialize) m' s.tree
      exact .written hm hf hedits.here hfails ht

/-- What a successful edit leaves in memory and on the disk. -/
theorem editPersist_eq_ok {f : AppManifest → Except String AppManifest}
    (h : s.editPersist p dataDir serialize io ns app f = (.ok (), s')) :
    ∃ m m', s.inner.getApp ns app = some m ∧ f m = .ok m' ∧
      RegistryInner.Edits s.inner s'.inner ns app (some m') ∧ ¬ io.PersistFails ∧
      s'.tree = persistedTree p dataDir serialize m' s.tree := by
  unfold editPersist at h
  cases hedit : s.inner.editApp ns app f with
  | error e => simp only [hedit, Prod.mk.injEq, reduceCtorEq, false_and] at h
  | ok inner =>
    obtain ⟨m, m', hm, hf, hedits⟩ := RegistryInner.editApp_eq_ok hedit
    simp only [hedit, hedits.here] at h
    by_cases hfails : io.PersistFails
    · obtain ⟨e, t, hpersist⟩ := persistManifest_error (p := p) (d := dataDir) (f := serialize)
        (m := m') (t := s.tree) hfails
      simp only [hpersist, Prod.mk.injEq, reduceCtorEq, false_and] at h
    · simp only [persistManifest_ok hfails, Prod.mk.injEq, true_and] at h
      subst h
      exact ⟨m, m', hm, hf, hedits, hfails, rfl⟩

end AppRegistry

/-! ## Calls -/

namespace RegistryCall

variable {isAlphanumeric : Char → Bool} {p : Platform} {dataDir : Path}
  {serialize : AppManifest → List U8} {io : IoPattern} {s : AppRegistry} {ns app : String}

/-- A call with this result keeps its promise: an error has changed nothing in memory, and a
success leaves the manifest of the app on the disk that is in memory. -/
def Kept (p : Platform) (dataDir : Path) (serialize : AppManifest → List U8) (s : AppRegistry)
    (call : RegistryCall) (result : Except String Unit × AppRegistry) : Prop :=
  (∀ e, result.1 = .error e → result.2.inner = s.inner) ∧
    (result.1 = .ok () → ∀ ns app, call.app = some (ns, app) →
      result.2.OnDisk p dataDir serialize ns app)

/-- An edit of the manifest of an app would be lost: the app is there, the edit changes its
manifest, and the manifest cannot be written. -/
def Loses (io : IoPattern) (s : AppRegistry) (ns app : String)
    (f : AppManifest → Except String AppManifest) : Prop :=
  io.PersistFails ∧ ∃ m m', s.inner.getApp ns app = some m ∧ f m = .ok m' ∧ m' ≠ m

/-- No edit in memory is lost, no directory of a deleted app stays with a manifest, and the
file that is deleted is not the manifest. -/
def Careful (p : Platform) (dataDir : Path) (io : IoPattern) (s : AppRegistry) :
    RegistryCall → Prop
  | .createNamespace _ | .deleteNamespace _ | .createApp _ _ _ => True
  | .deleteApp ns app =>
    s.inner.getApp ns app ≠ none → ∀ e left, io.removeDir = .fails e left →
      ∀ text, left (manifestPath p dataDir ns app).normal ≠ some (.file text)
  | .storeFile ns app filename data now =>
    validateFilename filename = .ok () → io.write = .runs →
      ¬ Loses io s ns app fun m => .ok (m.storeRecord (.of filename data now))
  | .deleteFile ns app filename =>
    ¬ (Loses io s ns app fun m => m.withoutFile filename) ∧
      ∀ m m', s.inner.getApp ns app = some m → m.withoutFile filename = .ok m' →
        ¬ io.PersistFails → io.removeFile = none →
          (filePath p dataDir ns app filename).normal ≠ (manifestPath p dataDir m.ns m.app).normal
  | .addRouteRecord ns app record => ¬ Loses io s ns app fun m => .ok (m.withRoute record)
  | .removeRouteRecord ns app routeId =>
    ¬ Loses io s ns app fun m => .ok (m.withoutRoute routeId)

/-- An edit that is persisted keeps its promise when it is not lost. -/
theorem kept_of_outcome {call : RegistryCall} (hcall : call.app = some (ns, app))
    {f : AppManifest → Except String AppManifest} {result : Except String Unit × AppRegistry}
    {s' : AppRegistry} (hinner : s'.inner = s.inner)
    (h : AppRegistry.EditOutcome p dataDir serialize io ns app f s' result) :
    Kept p dataDir serialize s call result ↔ ¬ Loses io s ns app f := by
  constructor
  · rintro ⟨herror, -⟩ ⟨hfails, m, m', hm, hf, hne⟩
    rw [← hinner] at hm
    cases h with
    | refused e hno => exact hno m m' hm hf
    | unwritten e t hm₁ hf₁ hself _ =>
      rw [hm] at hm₁
      cases hm₁
      rw [hf] at hf₁
      cases hf₁
      exact hne (hself.mp ((herror e rfl).trans hinner.symm))
    | written _ _ _ hruns _ => exact hruns hfails
  · intro hkeeps
    cases h with
    | refused e hno =>
      refine ⟨fun _ _ => hinner, ?_⟩
      intro hok
      cases hok
    | @unwritten m m' inner e t hm hf hself hfails =>
      refine ⟨?_, ?_⟩
      · intro _ _
        rw [← hinner]
        apply hself.mpr
        by_contra hne
        rw [hinner] at hm
        exact hkeeps ⟨hfails, m, m', hm, hf, hne⟩
      · intro hok
        cases hok
    | written hm hf hhere hruns ht =>
      refine ⟨nofun, ?_⟩
      rintro - ns' app' happ
      rw [hcall] at happ
      cases happ
      exact (AppRegistry.onDisk_of_getApp hhere).mpr ht

/-- A call that fails before it changes the memory keeps its promise. -/
theorem kept_error {call : RegistryCall} (e : String) {s' : AppRegistry}
    (h : s'.inner = s.inner) : Kept p dataDir serialize s call (.error e, s') := by
  refine ⟨fun _ _ => h, ?_⟩
  intro hok
  cases hok

/-- So does a successful one that is concerned with no app. -/
theorem kept_ok {call : RegistryCall} (hcall : call.app = none) (s' : AppRegistry) :
    Kept p dataDir serialize s call (.ok (), s') := by
  refine ⟨nofun, ?_⟩
  rintro - ns app happ
  rw [hcall] at happ
  cases happ

/-- `create_namespace` looks before it changes the memory. -/
theorem kept_createNamespace (name : String) :
    Kept p dataDir serialize s (.createNamespace name)
      (s.createNamespace isAlphanumeric p dataDir io name) := by
  unfold AppRegistry.createNamespace
  cases validateNamespace isAlphanumeric name with
  | error e => exact kept_error e rfl
  | ok _ =>
    cases io.createDirs with
    | fails e left => exact kept_error _ rfl
    | runs =>
      cases s.inner.createNamespace name with
      | error e => exact kept_error e rfl
      | ok inner => exact kept_ok rfl _

/-- `delete_namespace` does. -/
theorem kept_deleteNamespace (name : String) :
    Kept p dataDir serialize s (.deleteNamespace name)
      (s.deleteNamespace p dataDir io name) := by
  unfold AppRegistry.deleteNamespace
  cases s.inner.deleteNamespace name with
  | error e => exact kept_error e rfl
  | ok inner => exact kept_ok rfl _

/-- `create_app` changes the memory last. -/
theorem kept_createApp (ns app : String) (now : Nat) :
    Kept p dataDir serialize s (.createApp ns app now)
      (s.createApp isAlphanumeric p dataDir serialize io ns app now) := by
  unfold AppRegistry.createApp
  cases validateName isAlphanumeric app with
  | error e => exact kept_error e rfl
  | ok _ =>
    cases hcreate : s.inner.createApp ns app now with
    | error e => exact kept_error e rfl
    | ok inner =>
      cases io.createDirs with
      | fails e left => exact kept_error _ rfl
      | runs =>
        obtain ⟨-, -, hedits⟩ := RegistryInner.createApp_eq_ok hcreate
        by_cases hfails : io.PersistFails
        · obtain ⟨e, t, h⟩ := persistManifest_error (p := p) (d := dataDir) (f := serialize)
            (m := ⟨ns, app, now, [], []⟩) (t := s.tree.makeDirs (filesDir p dataDir ns app).normal)
            hfails
          simp only [h]
          exact kept_error e rfl
        · simp only [persistManifest_ok hfails]
          refine ⟨nofun, ?_⟩
          rintro - _ _ ⟨⟩
          exact AppRegistry.onDisk_persisted hedits.here _

/-- `delete_app` does not look at the removal of the directory. -/
theorem kept_deleteApp (ns app : String) :
    Kept p dataDir serialize s (.deleteApp ns app) (s.deleteApp p dataDir io ns app) ↔
      (RegistryCall.deleteApp ns app).Careful p dataDir io s := by
  unfold AppRegistry.deleteApp
  cases hdelete : s.inner.deleteApp ns app with
  | error e =>
    refine iff_of_true (kept_error e rfl) ?_
    intro hsome
    obtain ⟨m, hm⟩ := Option.ne_none_iff_exists'.mp hsome
    obtain ⟨r', hr'⟩ := RegistryInner.deleteApp_of_getApp hm
    rw [hdelete] at hr'
    cases hr'
  | ok inner =>
    obtain ⟨⟨m, hm⟩, hedits⟩ := RegistryInner.deleteApp_eq_ok hdelete
    have hkept (tree : FileTree (List U8)) :
        Kept p dataDir serialize s (.deleteApp ns app) (.ok (), ⟨inner, tree⟩) ↔
          ∀ text, tree (manifestPath p dataDir ns app).normal ≠ some (.file text) := by
      have hdisk := @AppRegistry.onDisk_of_none p dataDir serialize ⟨inner, tree⟩ ns app hedits.here
      constructor
      · rintro ⟨-, hok⟩
        exact hdisk.mp (hok rfl ns app rfl)
      · intro hgone
        refine ⟨nofun, ?_⟩
        rintro - _ _ ⟨⟩
        exact hdisk.mpr hgone
    rw [hkept]
    cases hremove : io.removeDir with
    | runs =>
      apply iff_of_true
      · intro text htext
        change FileTree.removeTree _ s.tree _ = _ at htext
        rw [FileTree.removeTree_of_within] at htext
        · cases htext
        · rw [normal_manifestPath]
          exact Path.within_self_under _ _
      · intro _ e left hfails
        rw [hremove] at hfails
        cases hfails
    | fails e left =>
      constructor
      · rintro hgone - e' left' hfails
        rw [hremove] at hfails
        cases hfails
        exact hgone
      · intro hcareful
        exact hcareful (by rw [hm]; nofun) e left hremove

/-- `delete_file` removes whatever the name leads to. -/
theorem kept_deleteFile (ns app filename : String) :
    Kept p dataDir serialize s (.deleteFile ns app filename)
      (s.deleteFile p dataDir serialize io ns app filename) ↔
      (RegistryCall.deleteFile ns app filename).Careful p dataDir io s := by
  have houtcome : AppRegistry.EditOutcome p dataDir serialize io ns app
      (fun m => m.withoutFile filename) s (s.unlistFile p dataDir serialize io ns app filename) :=
    AppRegistry.editPersist_outcome _
  have hkept : Kept p dataDir serialize s (.deleteFile ns app filename)
      (s.unlistFile p dataDir serialize io ns app filename) ↔
        ¬ Loses io s ns app fun m => m.withoutFile filename :=
    kept_of_outcome rfl rfl houtcome
  unfold AppRegistry.deleteFile
  generalize s.unlistFile p dataDir serialize io ns app filename = result at houtcome hkept ⊢
  cases houtcome with
  | refused e hno =>
    refine hkept.trans (and_iff_left ?_).symm
    intro m m' hm hf
    exact absurd hf (hno m m' hm)
  | unwritten e t hm hf hself hfails =>
    refine hkept.trans (and_iff_left ?_).symm
    intro _ _ _ _ hruns
    exact absurd hfails hruns
  | @written m m' inner t hm hf hhere hruns ht =>
    have hlists : m'.ns = m.ns ∧ m'.app = m.app := AppManifest.withoutFile_names hf
    cases hremove : io.removeFile with
    | some e =>
      refine hkept.trans (and_iff_left ?_).symm
      intro _ _ _ _ _ hnone
      rw [hremove] at hnone
      cases hnone
    | none =>
      have hdisk := @AppRegistry.onDisk_of_getApp p dataDir serialize
        ⟨inner, t.removeFile (filePath p dataDir ns app filename).normal⟩ ns app m' hhere
      constructor
      · rintro ⟨-, hok⟩
        refine ⟨fun hloses => hruns hloses.1, ?_⟩
        rintro m₁ m₁' hm₁ hf₁ - - heq
        rw [hm] at hm₁
        cases hm₁
        have hthere := hdisk.mp (hok rfl ns app rfl)
        rw [hlists.1, hlists.2] at hthere ht
        change t.removeFile _ _ = _ at hthere
        rw [heq, FileTree.removeFile_self ht] at hthere
        cases hthere
      · rintro ⟨-, hapart⟩
        refine ⟨nofun, ?_⟩
        rintro - _ _ ⟨⟩
        apply hdisk.mpr
        show t.removeFile _ _ = _
        rw [FileTree.removeFile_of_ne, ht]
        rw [hlists.1, hlists.2]
        exact (hapart m m' hm hf hruns hremove).symm

end RegistryCall

/-- A call keeps its promise, under every failure of the operating system, just when no edit in
memory is lost, no directory of a deleted app stays with a manifest, and the file that is
deleted is not the manifest. -/
theorem call_kept_iff (isAlphanumeric : Char → Bool) (p : Platform) (dataDir : Path)
    (serialize : AppManifest → List U8) (io : IoPattern) (s : AppRegistry) (call : RegistryCall) :
    call.Kept p dataDir serialize s (call.run isAlphanumeric p dataDir serialize io s) ↔
      call.Careful p dataDir io s := by
  cases call with
  | createNamespace name => exact iff_of_true (RegistryCall.kept_createNamespace name) trivial
  | deleteNamespace name => exact iff_of_true (RegistryCall.kept_deleteNamespace name) trivial
  | createApp ns app now => exact iff_of_true (RegistryCall.kept_createApp ns app now) trivial
  | deleteApp ns app => exact RegistryCall.kept_deleteApp ns app
  | deleteFile ns app filename => exact RegistryCall.kept_deleteFile ns app filename
  | addRouteRecord ns app record =>
    exact RegistryCall.kept_of_outcome rfl rfl (AppRegistry.editPersist_outcome _)
  | removeRouteRecord ns app routeId =>
    exact RegistryCall.kept_of_outcome rfl rfl (AppRegistry.editPersist_outcome _)
  | storeFile ns app filename data now =>
    show RegistryCall.Kept p dataDir serialize s _ (s.storeFile p dataDir serialize io ns app
      filename data now) ↔ (_ → _ → _)
    unfold AppRegistry.storeFile
    cases hvalid : validateFilename filename with
    | error e => exact iff_of_true (RegistryCall.kept_error e rfl) nofun
    | ok _ =>
      cases hwrite : io.write with
      | fails e left => exact iff_of_true (RegistryCall.kept_error _ rfl) fun _ => nofun
      | runs =>
        have hkept := @RegistryCall.kept_of_outcome p dataDir serialize io s ns app
          (.storeFile ns app filename data now) rfl _ _
          { s with tree := s.tree.write (filePath p dataDir ns app filename).normal data } rfl
          (AppRegistry.editPersist_outcome fun m => .ok (m.storeRecord (.of filename data now)))
        exact hkept.trans ⟨fun h _ _ => h, fun h => h rfl rfl⟩

section Example

/-- A registry with one app, which is not on the disk yet. -/
def cartRegistry : AppRegistry :=
  ⟨⟨Finmap.insert "shop" (Finmap.insert "cart" ⟨"shop", "cart", 0, [], []⟩ ∅) ∅⟩, fun _ => none⟩

/-- The manifest is written under its first name, and cannot be renamed. -/
def renameFails : IoPattern :=
  ⟨.runs, .runs, .runs, .fails "no space left on device" fun _ => none, .runs, none⟩

/-- A record that `add_route_record` fails to write stays in memory. -/
theorem failed_record_stays :
    let call : RegistryCall := .addRouteRecord "shop" "cart" ⟨"u1", "GET", "/a", "Main", "a.fasm"⟩
    let result := call.run Char.isAlphanum .unix ⟨none, true, ["data"]⟩ (fun _ => []) renameFails
      cartRegistry
    result.1 = .error "rename manifest: no space left on device" ∧
    (result.2.inner.getApp "shop" "cart").map (fun m => m.routes.length) = some 1 ∧
    ¬ call.Kept .unix ⟨none, true, ["data"]⟩ (fun _ => []) cartRegistry result := by
  intro call result
  refine ⟨rfl, rfl, ?_⟩
  rintro ⟨herror, -⟩
  have hinner := herror _ rfl
  have hcount : (result.2.inner.getApp "shop" "cart").map (fun m => m.routes.length) =
      (cartRegistry.inner.getApp "shop" "cart").map fun m => m.routes.length := by rw [hinner]
  exact absurd hcount (by decide)

end Example

end Fasm
