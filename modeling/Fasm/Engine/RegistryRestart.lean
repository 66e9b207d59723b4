import Fasm.Engine.RegistryReload
import Fasm.Lib.Trace

/-!
# The registry survives a restart

A registry that starts on an empty directory and changes by successful calls is mirrored by its
directory after each of them, if no namespace is called `.` and no manifest is deleted as a file.
What `load_from_disk` makes of the directory is then known.
-/

namespace Fasm

/-- Nothing in the pattern fails that a call looks at. -/
structure IoPattern.Runs (io : IoPattern) : Prop where
  createDirs : io.createDirs = .runs
  write : io.write = .runs
  writeTmp : io.writeTmp = .runs
  rename : io.rename = .runs
  removeDir : io.removeDir = .runs

theorem IoPattern.Runs.persists {io : IoPattern} (h : io.Runs) : ¬ io.PersistFails :=
  not_not_intro ⟨h.writeTmp, h.rename⟩

/-- A registry without namespaces, on an empty data directory. -/
structure Fresh (dataDir : Path) (s : AppRegistry) : Prop where
  inner : s.inner = .new
  dir : s.tree dataDir.normal = some .dir
  empty : ∀ cs, cs ≠ [] → s.tree (dataDir.normal.under cs) = none

namespace RegistryCall

variable (p : Platform) (dataDir : Path) (s : AppRegistry)

/-- What the call writes over is not a directory. -/
def Writable : RegistryCall → Prop
  | .storeFile ns app filename _ _ => s.tree (filePath p dataDir ns app filename).normal ≠ some .dir
  | _ => True

/-- The call does not make a namespace `.`, and does not delete a manifest as a file. -/
def Tidy : RegistryCall → Prop
  | .createNamespace name => name ≠ "."
  | .deleteFile ns app filename =>
    ∀ ns' app' m, s.inner.getApp ns' app' = some m →
      (filePath p dataDir ns app filename).normal ≠
        dataDir.normal.under [ns', app', "manifest.json"]
  | _ => True

end RegistryCall

/-- A successful call in which nothing fails. -/
def RegistryStep (isAlphanumeric : Char → Bool) (p : Platform) (dataDir : Path)
    (serialize : AppManifest → List U8) (s : AppRegistry) (call : RegistryCall)
    (s' : AppRegistry) : Prop :=
  ∃ io : IoPattern, io.Runs ∧ call.Writable p dataDir s ∧
    call.run isAlphanumeric p dataDir serialize io s = (.ok (), s')

namespace Mirrors

variable {isAlphanumeric : Char → Bool} {p : Platform} {dataDir : Path}
  {serialize : AppManifest → List U8} {io : IoPattern} {s s' : AppRegistry} {ns app : String}

/-- An empty directory mirrors an empty registry. -/
theorem of_fresh (h : Fresh dataDir s) : Mirrors isAlphanumeric dataDir serialize s := by
  refine ⟨?_, ?_, ?_⟩
  · intro ns hns
    rw [h.inner] at hns
    exact absurd hns Bool.false_ne_true
  · intro ns app m hm
    rw [h.inner] at hm
    cases hm
  · intro ns app text htext
    rw [h.empty _ (List.cons_ne_nil _ _)] at htext
    cases htext

/-- The directory may change where it is not looked at. -/
theorem of_tree (h : Mirrors isAlphanumeric dataDir serialize s) {t : FileTree (List U8)}
    (hdir : ∀ k, s.tree k = some .dir → t k = some .dir)
    (hkeep : ∀ ns app m, s.inner.getApp ns app = some m →
      t (dataDir.normal.under [ns, app, "manifest.json"]) =
        s.tree (dataDir.normal.under [ns, app, "manifest.json"]))
    (hold : ∀ ns app text, t (dataDir.normal.under [ns, app, "manifest.json"]) =
      some (.file text) → s.tree (dataDir.normal.under [ns, app, "manifest.json"]) =
        some (.file text)) :
    Mirrors isAlphanumeric dataDir serialize { s with tree := t } := by
  refine ⟨?_, ?_, ?_⟩
  · intro ns hns
    obtain ⟨hvalid, hdot, hthere⟩ := h.namespaces ns hns
    exact ⟨hvalid, hdot, hdir _ hthere⟩
  · intro ns app m hm
    obtain ⟨hmns, hmapp, hvalid, hthere, hfile⟩ := h.apps ns app m hm
    refine ⟨hmns, hmapp, hvalid, hdir _ hthere, ?_⟩
    exact (hkeep ns app m hm).trans hfile
  · intro ns app text htext
    exact h.manifests ns app text (hold ns app text htext)

/-- More directories, in none of the places of manifests. -/
theorem makeDirs (h : Mirrors isAlphanumeric dataDir serialize s) {cs : List String}
    (hcs : ∀ ns app, ¬ [ns, app, "manifest.json"] <+: cs) :
    Mirrors isAlphanumeric dataDir serialize
      { s with tree := s.tree.makeDirs (dataDir.normal.under cs) } := by
  have hsame (ns app : String) :
      s.tree.makeDirs (dataDir.normal.under cs) (dataDir.normal.under [ns, app, "manifest.json"]) =
        s.tree (dataDir.normal.under [ns, app, "manifest.json"]) := by
    apply FileTree.makeDirs_of_not_within
    intro hwithin
    exact hcs ns app (Path.within_under.mp hwithin)
  apply h.of_tree
  · intro k hk
    exact FileTree.makeDirs_dir _ hk
  · intro ns app _ _
    exact hsame ns app
  · intro ns app text htext
    rwa [hsame] at htext

/-- A manifest is written for an app that is put into memory. -/
theorem persist (h : Mirrors isAlphanumeric dataDir serialize s)
    (halnum : AlphanumericAscii isAlphanumeric) {r : RegistryInner} {m : AppManifest}
    (hedits : RegistryInner.Edits s.inner r m.ns m.app (some m)) (hns : s.inner.HasNamespace m.ns)
    (happ : validateName isAlphanumeric m.app = .ok ())
    (hdir : s.tree (dataDir.normal.under [m.ns, m.app]) = some .dir) :
    Mirrors isAlphanumeric dataDir serialize ⟨r, persistedTree p dataDir serialize m s.tree⟩ := by
  obtain ⟨hvalid, hdot, -⟩ := h.namespaces m.ns hns
  have happDir : (appDir p dataDir m.ns m.app).normal = dataDir.normal.under [m.ns, m.app] :=
    normal_appDir halnum hvalid hdot happ
  have hpath : (manifestPath p dataDir m.ns m.app).normal =
      dataDir.normal.under [m.ns, m.app, "manifest.json"] := by
    rw [normal_manifestPath, happDir, Path.under_under]
    rfl
  have htmp : (manifestTmp p dataDir m.ns m.app).normal =
      dataDir.normal.under [m.ns, m.app, "manifest.json.tmp"] := by
    rw [normal_manifestTmp, happDir, Path.under_under]
    rfl
  have hsame {cs : List String} (hne : cs ≠ [m.ns, m.app, "manifest.json"])
      (hne' : cs ≠ [m.ns, m.app, "manifest.json.tmp"]) :
      persistedTree p dataDir serialize m s.tree (dataDir.normal.under cs) =
        s.tree (dataDir.normal.under cs) := by
    apply persistedTree_of_ne
    · rw [hpath, Ne, Path.under_inj]
      exact hne
    · rw [htmp, Ne, Path.under_inj]
      exact hne'
  have hnsDirs (ns' : String) : persistedTree p dataDir serialize m s.tree
      (dataDir.normal.under [ns']) = s.tree (dataDir.normal.under [ns']) := hsame nofun nofun
  have happDirs (ns' app' : String) : persistedTree p dataDir serialize m s.tree
      (dataDir.normal.under [ns', app']) = s.tree (dataDir.normal.under [ns', app']) :=
    hsame nofun nofun
  have hthere : persistedTree p dataDir serialize m s.tree
      (dataDir.normal.under [m.ns, m.app, "manifest.json"]) = some (.file (serialize m)) := by
    rw [← hpath]
    exact persistedTree_manifest m s.tree
  have hothers {ns' app' : String} (hne : ¬ (ns' = m.ns ∧ app' = m.app)) :
      persistedTree p dataDir serialize m s.tree
          (dataDir.normal.under [ns', app', "manifest.json"]) =
        s.tree (dataDir.normal.under [ns', app', "manifest.json"]) := by
    apply hsame
    · intro heq
      injection heq with h₁ heq
      injection heq with h₂ _
      exact hne ⟨h₁, h₂⟩
    · intro heq
      injection heq with h₁ heq
      injection heq with h₂ _
      exact hne ⟨h₁, h₂⟩
  refine ⟨?_, ?_, ?_⟩
  · intro ns' hns'
    obtain ⟨hvalid', hdot', hdir'⟩ := h.namespaces ns' ((hedits.names ns').mp hns')
    exact ⟨hvalid', hdot', (hnsDirs ns').trans hdir'⟩
  · intro ns' app' m' hm'
    change r.getApp ns' app' = some m' at hm'
    by_cases heq : ns' = m.ns ∧ app' = m.app
    · obtain ⟨rfl, rfl⟩ := heq
      rw [hedits.here] at hm'
      cases hm'
      exact ⟨rfl, rfl, happ, (happDirs m.ns m.app).trans hdir, hthere⟩
    · rw [hedits.others ns' app' heq] at hm'
      obtain ⟨hmns, hmapp, hvalid', hdir', hfile⟩ := h.apps ns' app' m' hm'
      exact ⟨hmns, hmapp, hvalid', (happDirs ns' app').trans hdir', (hothers heq).trans hfile⟩
  · intro ns' app' text htext
    show ∃ m', r.getApp ns' app' = some m'
    by_cases heq : ns' = m.ns ∧ app' = m.app
    · obtain ⟨rfl, rfl⟩ := heq
      exact ⟨m, hedits.here⟩
    · change persistedTree p dataDir serialize m s.tree _ = _ at htext
      rw [hothers heq] at htext
      rw [hedits.others ns' app' heq]
      exact h.manifests ns' app' text htext

/-- An edit of a manifest that is there is written. -/
theorem editPersist (h : Mirrors isAlphanumeric dataDir serialize s)
    (halnum : AlphanumericAscii isAlphanumeric) {f : AppManifest → Except String AppManifest}
    (hnames : ∀ m m', f m = .ok m' → m'.ns = m.ns ∧ m'.app = m.app)
    (hok : s.editPersist p dataDir serialize io ns app f = (.ok (), s')) :
    Mirrors isAlphanumeric dataDir serialize s' ∧
      ∀ ns' app' m', s'.inner.getApp ns' app' = some m' →
        ∃ m, s.inner.getApp ns' app' = some m := by
  obtain ⟨m, m', hm, hf, hedits, -, htree⟩ := AppRegistry.editPersist_eq_ok hok
  obtain ⟨hmns, hmapp, happ, hdir, -⟩ := h.apps ns app m hm
  obtain ⟨hns', happ'⟩ := hnames m m' hf
  rw [hmns] at hns'
  rw [hmapp] at happ'
  subst hns' happ'
  constructor
  · have hpersist := h.persist (p := p) halnum hedits (RegistryInner.hasNamespace_of_getApp hm)
      happ hdir
    rw [← htree] at hpersist
    exact hpersist
  · intro ns' app' m₁ hm₁
    by_cases heq : ns' = m'.ns ∧ app' = m'.app
    · rw [heq.1, heq.2]
      exact ⟨m, hm⟩
    · rw [hedits.others ns' app' heq] at hm₁
      exact ⟨m₁, hm₁⟩

/-! ### One lemma for each call -/

/-- `create_namespace`. -/
theorem createNamespace (h : Mirrors isAlphanumeric dataDir serialize s)
    (halnum : AlphanumericAscii isAlphanumeric) (hio : io.Runs) {name : String} (hdot : name ≠ ".")
    (hok : s.createNamespace isAlphanumeric p dataDir io name = (.ok (), s')) :
    Mirrors isAlphanumeric dataDir serialize s' := by
  unfold AppRegistry.createNamespace at hok
  cases hvalid : validateNamespace isAlphanumeric name with
  | error e => simp only [hvalid, Prod.mk.injEq, reduceCtorEq, false_and] at hok
  | ok _ =>
    cases hcreate : s.inner.createNamespace name with
    | error e => simp only [hvalid, hio.createDirs, hcreate, Prod.mk.injEq, reduceCtorEq,
        false_and] at hok
    | ok inner =>
      simp only [hvalid, hio.createDirs, hcreate, Prod.mk.injEq, true_and] at hok
      subst hok
      obtain ⟨-, hget, hnames⟩ := RegistryInner.createNamespace_eq_ok hcreate
      rw [normal_nsDir halnum hvalid hdot]
      have hshort (ns app : String) : ¬ [ns, app, "manifest.json"] <+: [name] := by
        intro hprefix
        have hlength : 3 ≤ 1 := hprefix.length_le
        omega
      have hdirs := h.makeDirs hshort
      refine ⟨?_, ?_, ?_⟩
      · intro ns hns
        rcases (hnames ns).mp hns with rfl | hns
        · refine ⟨hvalid, hdot, ?_⟩
          exact FileTree.makeDirs_of_within (Path.within_under.mpr (List.prefix_refl _))
        · exact hdirs.namespaces ns hns
      · intro ns app m hm
        exact hdirs.apps ns app m ((hget ns app).symm.trans hm)
      · intro ns app text htext
        obtain ⟨m, hm⟩ := hdirs.manifests ns app text htext
        exact ⟨m, (hget ns app).trans hm⟩

/-- `delete_namespace`. -/
theorem deleteNamespace (h : Mirrors isAlphanumeric dataDir serialize s)
    (halnum : AlphanumericAscii isAlphanumeric) (hio : io.Runs) {name : String}
    (hok : s.deleteNamespace p dataDir io name = (.ok (), s')) :
    Mirrors isAlphanumeric dataDir serialize s' := by
  unfold AppRegistry.deleteNamespace at hok
  cases hdelete : s.inner.deleteNamespace name with
  | error e => simp only [hdelete, Prod.mk.injEq, reduceCtorEq, false_and] at hok
  | ok inner =>
    simp only [hdelete, hio.removeDir, Fate.leaves, Prod.mk.injEq, true_and] at hok
    subst hok
    obtain ⟨hhas, hget, hnone, hnames⟩ := RegistryInner.deleteNamespace_eq_ok hdelete
    obtain ⟨hvalid, hdot, -⟩ := h.namespaces name hhas
    rw [normal_nsDir halnum hvalid hdot]
    have hstays {ns : String} (hne : ns ≠ name) (cs : List String) :
        s.tree.removeTree (dataDir.normal.under [name]) (dataDir.normal.under (ns :: cs)) =
          s.tree (dataDir.normal.under (ns :: cs)) := by
      apply FileTree.removeTree_of_not_within
      intro hwithin
      rw [Path.within_under, List.cons_prefix_cons] at hwithin
      exact hne hwithin.1.symm
    refine ⟨?_, ?_, ?_⟩
    · intro ns hns
      obtain ⟨hne, hns⟩ := (hnames ns).mp hns
      obtain ⟨hvalid', hdot', hdir⟩ := h.namespaces ns hns
      exact ⟨hvalid', hdot', (hstays hne []).trans hdir⟩
    · intro ns app m hm
      have hm' : s.inner.getApp ns app = some m := (hget ns app).symm.trans hm
      have hne : ns ≠ name := by
        rintro rfl
        rw [hnone] at hm'
        cases hm'
      obtain ⟨hmns, hmapp, happ, hdir, hfile⟩ := h.apps ns app m hm'
      refine ⟨hmns, hmapp, happ, (hstays hne [app]).trans hdir, ?_⟩
      exact (hstays hne [app, "manifest.json"]).trans hfile
    · intro ns app text htext
      obtain ⟨m, hm⟩ := h.manifests ns app text (FileTree.of_removeTree htext).2
      exact ⟨m, (hget ns app).trans hm⟩

/-- `create_app`. -/
theorem createApp (h : Mirrors isAlphanumeric dataDir serialize s)
    (halnum : AlphanumericAscii isAlphanumeric) (hio : io.Runs) {now : Nat}
    (hok : s.createApp isAlphanumeric p dataDir serialize io ns app now = (.ok (), s')) :
    Mirrors isAlphanumeric dataDir serialize s' := by
  unfold AppRegistry.createApp at hok
  cases hvalid : validateName isAlphanumeric app with
  | error e => simp only [hvalid, Prod.mk.injEq, reduceCtorEq, false_and] at hok
  | ok _ =>
    cases hcreate : s.inner.createApp ns app now with
    | error e => simp only [hvalid, hcreate, Prod.mk.injEq, reduceCtorEq, false_and] at hok
    | ok inner =>
      simp only [hvalid, hcreate, hio.createDirs, persistManifest_ok hio.persists, Prod.mk.injEq,
        true_and] at hok
      subst hok
      obtain ⟨-, hhas, hedits⟩ := RegistryInner.createApp_eq_ok hcreate
      obtain ⟨hns, hdot, -⟩ := h.namespaces ns hhas
      rw [normal_filesDir halnum hns hdot hvalid]
      have hfiles (ns' app' : String) : ¬ [ns', app', "manifest.json"] <+: [ns, app, "files"] := by
        intro hprefix
        simp only [List.cons_prefix_cons] at hprefix
        exact absurd hprefix.2.2.1 (by decide)
      have hdirs := h.makeDirs hfiles
      apply hdirs.persist (m := ⟨ns, app, now, [], []⟩) halnum hedits hhas hvalid
      apply FileTree.makeDirs_of_within
      exact Path.within_under.mpr (List.prefix_append [ns, app] ["files"])

/-- `delete_app`. -/
theorem deleteApp (h : Mirrors isAlphanumeric dataDir serialize s)
    (halnum : AlphanumericAscii isAlphanumeric) (hio : io.Runs)
    (hok : s.deleteApp p dataDir io ns app = (.ok (), s')) :
    Mirrors isAlphanumeric dataDir serialize s' := by
  unfold AppRegistry.deleteApp at hok
  cases hdelete : s.inner.deleteApp ns app with
  | error e => simp only [hdelete, Prod.mk.injEq, reduceCtorEq, false_and] at hok
  | ok inner =>
    simp only [hdelete, hio.removeDir, Fate.leaves, Prod.mk.injEq, true_and] at hok
    subst hok
    obtain ⟨⟨m, hm⟩, hedits⟩ := RegistryInner.deleteApp_eq_ok hdelete
    obtain ⟨hvalid, hdot, -⟩ := h.namespaces ns (RegistryInner.hasNamespace_of_getApp hm)
    obtain ⟨-, -, happ, -⟩ := h.apps ns app m hm
    rw [normal_appDir halnum hvalid hdot happ]
    have hstays {ns' app' : String} (hne : ¬ (ns' = ns ∧ app' = app)) (cs : List String) :
        s.tree.removeTree (dataDir.normal.under [ns, app])
            (dataDir.normal.under (ns' :: app' :: cs)) =
          s.tree (dataDir.normal.under (ns' :: app' :: cs)) := by
      apply FileTree.removeTree_of_not_within
      intro hwithin
      simp only [Path.within_under, List.cons_prefix_cons] at hwithin
      exact hne ⟨hwithin.1.symm, hwithin.2.1.symm⟩
    refine ⟨?_, ?_, ?_⟩
    · intro ns' hns'
      obtain ⟨hvalid', hdot', hdir⟩ := h.namespaces ns' ((hedits.names ns').mp hns')
      refine ⟨hvalid', hdot', ?_⟩
      show s.tree.removeTree _ _ = _
      rw [FileTree.removeTree_of_not_within, hdir]
      intro hwithin
      have hlength : 2 ≤ 1 := (Path.within_under.mp hwithin).length_le
      omega
    · intro ns' app' m' hm'
      change inner.getApp ns' app' = some m' at hm'
      have hne : ¬ (ns' = ns ∧ app' = app) := by
        rintro ⟨rfl, rfl⟩
        rw [hedits.here] at hm'
        cases hm'
      rw [hedits.others ns' app' hne] at hm'
      obtain ⟨hmns, hmapp, happ', hdir, hfile⟩ := h.apps ns' app' m' hm'
      exact ⟨hmns, hmapp, happ', (hstays hne []).trans hdir,
        (hstays hne ["manifest.json"]).trans hfile⟩
    · intro ns' app' text htext
      obtain ⟨hnot, htext⟩ := FileTree.of_removeTree htext
      have hne : ¬ (ns' = ns ∧ app' = app) := by
        rintro ⟨rfl, rfl⟩
        exact hnot (Path.within_under.mpr (List.prefix_append [ns', app'] ["manifest.json"]))
      show ∃ m', inner.getApp ns' app' = some m'
      rw [hedits.others ns' app' hne]
      exact h.manifests ns' app' text htext

/-- Where an accepted file name leads to, there is no manifest. -/
theorem filePath_ne_manifest (h : Mirrors isAlphanumeric dataDir serialize s)
    (halnum : AlphanumericAscii isAlphanumeric) {filename : String} {m : AppManifest}
    (hvalid : validateFilename filename = .ok ()) (hm : s.inner.getApp ns app = some m)
    (ns' app' : String) :
    dataDir.normal.under [ns', app', "manifest.json"] ≠
      (filePath p dataDir ns app filename).normal := by
  obtain ⟨hns, hdot, -⟩ := h.namespaces ns (RegistryInner.hasNamespace_of_getApp hm)
  obtain ⟨-, -, happ, -⟩ := h.apps ns app m hm
  intro heq
  have hlength := congrArg (fun q => q.comps.length) heq
  change (dataDir.normal.comps ++ [ns', app', "manifest.json"]).length = _ at hlength
  rw [List.length_append] at hlength
  by_cases hdrive : (p.splitDrive filename.toList).1 = none
  · rw [normal_filePath halnum hns hdot happ hvalid hdrive] at hlength
    change _ = (dataDir.normal.comps ++ [ns, app, "files", filename]).length at hlength
    rw [List.length_append] at hlength
    simp only [List.length_cons, List.length_nil] at hlength
    omega
  · have hone := length_filePath_le dataDir ns app hvalid hdrive
    rw [← hlength] at hone
    simp only [List.length_cons, List.length_nil] at hone
    omega

/-- `store_file`. -/
theorem storeFile (h : Mirrors isAlphanumeric dataDir serialize s)
    (halnum : AlphanumericAscii isAlphanumeric) (hio : io.Runs) {filename : String}
    {data : List U8} {now : Nat}
    (hdir : s.tree (filePath p dataDir ns app filename).normal ≠ some .dir)
    (hok : s.storeFile p dataDir serialize io ns app filename data now = (.ok (), s')) :
    Mirrors isAlphanumeric dataDir serialize s' := by
  unfold AppRegistry.storeFile at hok
  cases hvalid : validateFilename filename with
  | error e => simp only [hvalid, Prod.mk.injEq, reduceCtorEq, false_and] at hok
  | ok _ =>
    simp only [hvalid, hio.write] at hok
    obtain ⟨m, -, hm, -⟩ := AppRegistry.editPersist_eq_ok hok
    have hapart := h.filePath_ne_manifest (p := p) halnum hvalid hm
    have hwrite : Mirrors isAlphanumeric dataDir serialize
        { s with tree := s.tree.write (filePath p dataDir ns app filename).normal data } := by
      apply h.of_tree
      · intro k hk
        exact FileTree.write_dir hdir data hk
      · intro ns' app' _ _
        exact FileTree.write_of_ne (hapart ns' app') data
      · intro ns' app' text htext
        rwa [FileTree.write_of_ne (hapart ns' app')] at htext
    refine (hwrite.editPersist halnum ?_ hok).1
    intro m m' hm'
    cases hm'
    exact AppManifest.storeRecord_names _ m

/-- `delete_file`. -/
theorem deleteFile (h : Mirrors isAlphanumeric dataDir serialize s)
    (halnum : AlphanumericAscii isAlphanumeric) {filename : String}
    (htidy : (RegistryCall.deleteFile ns app filename).Tidy p dataDir s)
    (hok : s.deleteFile p dataDir serialize io ns app filename = (.ok (), s')) :
    Mirrors isAlphanumeric dataDir serialize s' := by
  unfold AppRegistry.deleteFile at hok
  cases hunlist : s.unlistFile p dataDir serialize io ns app filename with
  | mk result s₁ =>
    cases result with
    | error e => simp only [hunlist, Prod.mk.injEq, reduceCtorEq, false_and] at hok
    | ok _ =>
      obtain ⟨hmirrors, hsome⟩ :=
        h.editPersist halnum (fun _ _ => AppManifest.withoutFile_names) hunlist
      cases hremove : io.removeFile with
      | some e =>
        simp only [hunlist, hremove, Prod.mk.injEq, true_and] at hok
        subst hok
        exact hmirrors
      | none =>
        simp only [hunlist, hremove, Prod.mk.injEq, true_and] at hok
        subst hok
        apply hmirrors.of_tree
        · intro k hk
          exact FileTree.removeFile_dir _ hk
        · intro ns' app' m hm
          obtain ⟨m', hm'⟩ := hsome ns' app' m hm
          exact FileTree.removeFile_of_ne (htidy ns' app' m' hm').symm
        · intro ns' app' text htext
          exact FileTree.of_removeFile htext

/-- A successful call keeps the directory in step. -/
theorem step (h : Mirrors isAlphanumeric dataDir serialize s)
    (halnum : AlphanumericAscii isAlphanumeric) {call : RegistryCall}
    (hstep : RegistryStep isAlphanumeric p dataDir serialize s call s')
    (htidy : call.Tidy p dataDir s) : Mirrors isAlphanumeric dataDir serialize s' := by
  obtain ⟨io, hio, hdir, hok⟩ := hstep
  cases call with
  | createNamespace name => exact h.createNamespace halnum hio htidy hok
  | deleteNamespace name => exact h.deleteNamespace halnum hio hok
  | createApp ns app now => exact h.createApp halnum hio hok
  | deleteApp ns app => exact h.deleteApp halnum hio hok
  | storeFile ns app filename data now => exact h.storeFile halnum hio hdir hok
  | deleteFile ns app filename => exact h.deleteFile halnum htidy hok
  | addRouteRecord ns app record =>
    refine (h.editPersist halnum ?_ hok).1
    intro m m' hm'
    cases hm'
    exact ⟨rfl, rfl⟩
  | removeRouteRecord ns app routeId =>
    refine (h.editPersist halnum ?_ hok).1
    intro m m' hm'
    cases hm'
    exact ⟨rfl, rfl⟩

end Mirrors

/-- After successful calls that make no namespace `.` and delete no manifest, the registry that
is read back is the one in memory just when every namespace has an app. -/
theorem registry_survives_iff {isAlphanumeric : Char → Bool} {p : Platform} {dataDir : Path}
    {serialize : AppManifest → List U8} {deserialize : List U8 → Option AppManifest}
    {entries : Path → List String} {σ : Nat → AppRegistry} {ev : Nat → RegistryCall} {n : Nat}
    (halnum : AlphanumericAscii isAlphanumeric)
    (htrace : IsTrace (Fresh dataDir) (RegistryStep isAlphanumeric p dataDir serialize) σ ev n)
    (htidy : ∀ i < n, (ev i).Tidy p dataDir (σ i))
    (hjson : ReadsBack deserialize serialize (σ n).inner)
    (hentries : ListsEntries entries (σ n).tree) :
    (loadFromDisk isAlphanumeric dataDir deserialize entries (σ n).tree).1 = (σ n).inner ↔
      ∀ ns, (σ n).inner.HasNamespace ns → ∃ app m, (σ n).inner.getApp ns app = some m := by
  have hmirrors : Mirrors isAlphanumeric dataDir serialize (σ n) := by
    apply htrace.invariant_of (C := fun s call => call.Tidy p dataDir s) _ _ htidy
    · intro s hs
      exact Mirrors.of_fresh hs
    · intro s call s' hstep hcall hs
      exact hs.step halnum hstep hcall
  exact hmirrors.loadFromDisk_iff hjson hentries

section Example

/-- Where the registry is. -/
def diskDir : Path := ⟨none, true, ["data"]⟩

/-- The manifest of an app, as it is written. -/
def diskManifest : AppManifest := ⟨"shop", "cart", 0, [], []⟩

/-- Its text. -/
def diskText : List U8 :=
  asBytes ("\x7b\n  \"namespace\": \"shop\",\n  \"app\": \"cart\",\n" ++
    "  \"created\": \"1970-01-01T00:00:00Z\",\n  \"files\": [],\n  \"routes\": []\n\x7d")

def diskSerialize (m : AppManifest) : List U8 := if m = diskManifest then diskText else []

def diskDeserialize (raw : List U8) : Option AppManifest :=
  if raw = diskText then some diskManifest else none

/-- A namespace is created, and then an app in it. -/
def diskCalls : Nat → RegistryCall
  | 0 => .createNamespace "shop"
  | _ => .createApp "shop" "cart" 0

/-- What they make of a registry on an empty directory. -/
def diskRun : Nat → AppRegistry
  | 0 => ⟨.new, FileTree.makeDirs diskDir fun _ => none⟩
  | n + 1 => ((diskCalls n).run Char.isAlphanum .unix diskDir diskSerialize
      ⟨.runs, .runs, .runs, .runs, .runs, none⟩ (diskRun n)).2

/-- The places that are in use then. -/
def diskPlaces : List Path :=
  ⟨none, true, ["data", "shop", "cart", "manifest.json"]⟩ ::
    ["data", "shop", "cart", "files"].inits.map fun cs => ⟨none, true, cs⟩

theorem diskRun_trace :
    IsTrace (Fresh diskDir) (RegistryStep Char.isAlphanum .unix diskDir diskSerialize) diskRun
      diskCalls 2 := by
  refine ⟨⟨rfl, by decide, ?_⟩, ?_⟩
  · intro cs hcs
    refine FileTree.makeDirs_of_not_within (t := fun _ => none) (q := diskDir) ?_
    intro hwithin
    have hprefix : ["data"] ++ cs <+: ["data"] ++ [] := hwithin.2.2
    exact hcs (List.prefix_nil.mp ((List.prefix_append_right_inj _).mp hprefix))
  · intro i hi
    refine ⟨⟨.runs, .runs, .runs, .runs, .runs, none⟩, ⟨rfl, rfl, rfl, rfl, rfl⟩, ?_⟩
    match i, hi with
    | 0, _ => exact ⟨trivial, rfl⟩
    | 1, _ => exact ⟨trivial, rfl⟩

theorem diskRun_tidy : ∀ i < 2, (diskCalls i).Tidy .unix diskDir (diskRun i)
  | 0, _ => show "shop" ≠ "." by decide
  | 1, _ => trivial

theorem diskRun_getApp :
    (∀ ns app, (diskRun 1).inner.getApp ns app = none) ∧
      RegistryInner.Edits (diskRun 1).inner (diskRun 2).inner "shop" "cart"
        (some diskManifest) := by
  have hns : RegistryInner.createNamespace "shop" .new = .ok (diskRun 1).inner := rfl
  have happ : (diskRun 1).inner.createApp "shop" "cart" 0 = .ok (diskRun 2).inner := rfl
  obtain ⟨-, hget, -⟩ := RegistryInner.createNamespace_eq_ok hns
  obtain ⟨-, -, hedits⟩ := RegistryInner.createApp_eq_ok happ
  exact ⟨hget, hedits⟩

theorem diskRun_readsBack :
    ReadsBack diskDeserialize diskSerialize (diskRun 1).inner ∧
      ReadsBack diskDeserialize diskSerialize (diskRun 2).inner := by
  obtain ⟨hnone, hedits⟩ := diskRun_getApp
  constructor
  · intro ns app m hm
    rw [hnone] at hm
    cases hm
  · intro ns app m hm
    by_cases heq : ns = "shop" ∧ app = "cart"
    · rw [heq.1, heq.2, hedits.here] at hm
      cases hm
      unfold diskSerialize diskDeserialize
      rw [if_pos rfl, if_pos rfl]
    · rw [hedits.others ns app heq, hnone] at hm
      cases hm

theorem diskRun_places (k : Path) :
    ((diskRun 1).tree k ≠ none → k ∈ diskPlaces) ∧
      ((diskRun 2).tree k ≠ none → k ∈ diskPlaces) := by
  have hdirs (cs : List String) (hcs : cs <+: ["data", "shop", "cart", "files"])
      (t : FileTree (List U8)) (hk : t.makeDirs ⟨none, true, cs⟩ k ≠ none) :
      k ∈ diskPlaces ∨ t k ≠ none := by
    by_cases hwithin : k.Within ⟨none, true, cs⟩
    · obtain ⟨hdrive, hrooted, hcomps⟩ := hwithin
      left
      apply List.mem_cons_of_mem
      rw [List.mem_map]
      refine ⟨k.comps, (List.mem_inits _ _).mpr (hcomps.trans hcs), ?_⟩
      cases k
      cases hdrive
      cases hrooted
      rfl
    · rw [FileTree.makeDirs_of_not_within hwithin] at hk
      exact .inr hk
  have hpersisted (t : FileTree (List U8))
      (hk : persistedTree .unix diskDir diskSerialize diskManifest t k ≠ none) :
      k ∈ diskPlaces ∨ t k ≠ none := by
    by_cases hpath : k = (manifestPath .unix diskDir diskManifest.ns diskManifest.app).normal
    · rw [hpath]
      exact .inl List.mem_cons_self
    · by_cases htmp : k = (manifestTmp .unix diskDir diskManifest.ns diskManifest.app).normal
      · rw [htmp, persistedTree_tmp] at hk
        exact absurd rfl hk
      · rw [persistedTree_of_ne hpath htmp] at hk
        exact .inr hk
  have hfirst (hk : (diskRun 1).tree k ≠ none) : k ∈ diskPlaces := by
    rcases hdirs ["data", "shop"] (by decide) (diskRun 0).tree hk with hmem | hk
    · exact hmem
    · rcases hdirs ["data"] (by decide) (fun _ => none) hk with hmem | hk
      · exact hmem
      · exact absurd rfl hk
  refine ⟨hfirst, ?_⟩
  intro hk
  rcases hpersisted _ hk with hmem | hk
  · exact hmem
  · rcases hdirs _ (List.prefix_refl _) (diskRun 1).tree hk with hmem | hk
    · exact hmem
    · exact hfirst hk

theorem registry_survives_shop :
    (loadFromDisk Char.isAlphanum diskDir diskDeserialize
      (FileTree.entriesOf diskPlaces (diskRun 2).tree) (diskRun 2).tree).1 = (diskRun 2).inner ↔
      ∀ ns, (diskRun 2).inner.HasNamespace ns →
        ∃ app m, (diskRun 2).inner.getApp ns app = some m :=
  registry_survives_iff (p := .unix) (fun _ _ => rfl) diskRun_trace diskRun_tidy
    diskRun_readsBack.2 (FileTree.mem_entriesOf fun k => (diskRun_places k).2)

/-- A namespace without apps is not found again. -/
theorem registry_not_reloaded :
    IsTrace (Fresh diskDir) (RegistryStep Char.isAlphanum .unix diskDir diskSerialize) diskRun
      diskCalls 1 ∧
    ReadsBack diskDeserialize diskSerialize (diskRun 1).inner ∧
    ListsEntries (FileTree.entriesOf diskPlaces (diskRun 1).tree) (diskRun 1).tree ∧
    (diskRun 1).inner.HasNamespace "shop" ∧
    ¬ (loadFromDisk Char.isAlphanum diskDir diskDeserialize
      (FileTree.entriesOf diskPlaces (diskRun 1).tree) (diskRun 1).tree).1.HasNamespace "shop" := by
  refine ⟨diskRun_trace.le (by decide), diskRun_readsBack.1,
    FileTree.mem_entriesOf fun k => (diskRun_places k).1, rfl, ?_⟩
  exact Bool.false_ne_true

end Example

end Fasm
