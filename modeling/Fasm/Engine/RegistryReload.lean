import Fasm.Engine.RegistryFailures

/-!
# The registry after a restart

`load_from_disk` reads the registry back from its directory.  It finds a namespace through the
manifests of its apps, so that a namespace without apps is not found again.

The entries of a directory come in some order, which is a parameter, as is what is read from the
JSON text of a manifest.
-/

namespace Fasm

namespace RegistryInner

/-- The update of the map for a manifest that is read in the directory of a namespace. -/
def insertManifest (ns : String) (m : AppManifest) (r : RegistryInner) : RegistryInner :=
  ⟨r.namespaces.insert ns (((r.namespaces.lookup ns).getD ∅).insert m.app m)⟩

end RegistryInner

section Load

variable (isAlphanumeric : Char → Bool) (dataDir : Path)
  (deserialize : List U8 → Option AppManifest) (entries : Path → List String)
  (t : FileTree (List U8))

/-- The manifest in an entry of the directory of a namespace. -/
def readManifest (ns app : String) : Option AppManifest :=
  if t.isDir (dataDir.normal.under [ns, app]) then
    match t (dataDir.normal.under [ns, app, "manifest.json"]) with
    | some (.file raw) => deserialize raw
    | _ => none
  else none

/-- One entry of the directory of a namespace. -/
def loadApp (ns : String) (acc : RegistryInner × List AppManifest) (app : String) :
    RegistryInner × List AppManifest :=
  match readManifest dataDir deserialize t ns app with
  | some m => (acc.1.insertManifest ns m, acc.2 ++ [m])
  | none => acc

/-- One entry of the data directory. -/
def loadNamespace (acc : RegistryInner × List AppManifest) (ns : String) :
    RegistryInner × List AppManifest :=
  if t.isDir (dataDir.normal.under [ns]) && (validateNamespace isAlphanumeric ns).isOk then
    (entries (dataDir.normal.under [ns])).foldl (loadApp dataDir deserialize t ns) acc
  else acc

/-- `load_from_disk` of a new registry: what is in memory then, and the manifests. -/
def loadFromDisk : RegistryInner × List AppManifest :=
  (entries dataDir.normal).foldl (loadNamespace isAlphanumeric dataDir deserialize entries t)
    (.new, [])

end Load

/-- What is read from the texts of the manifests in the registry are the manifests. -/
def ReadsBack (deserialize : List U8 → Option AppManifest) (serialize : AppManifest → List U8)
    (r : RegistryInner) : Prop :=
  ∀ ns app m, r.getApp ns app = some m → deserialize (serialize m) = some m

/-- The names are those of what is in the directories. -/
def ListsEntries (entries : Path → List String) (t : FileTree (List U8)) : Prop :=
  ∀ q name, name ∈ entries q ↔ t (q.under [name]) ≠ none

namespace RegistryInner

variable {r r' : RegistryInner} {ns app : String}

/-- What is found after a manifest is inserted. -/
theorem getApp_insertManifest (ns : String) (m : AppManifest) (r : RegistryInner)
    (ns' app' : String) :
    (r.insertManifest ns m).getApp ns' app' =
      if ns' = ns ∧ app' = m.app then some m else r.getApp ns' app' := by
  unfold insertManifest getApp
  by_cases hns : ns' = ns
  · subst hns
    rw [Finmap.lookup_insert]
    show Finmap.lookup app' _ = _
    by_cases happ : app' = m.app
    · rw [if_pos ⟨rfl, happ⟩, happ, Finmap.lookup_insert]
    · rw [if_neg (fun h => happ h.2), Finmap.lookup_insert_of_ne _ happ]
      cases r.namespaces.lookup ns' with
      | none => exact Finmap.lookup_empty app'
      | some apps => rfl
  · rw [if_neg (fun h => hns h.1), Finmap.lookup_insert_of_ne _ hns]

/-- Which namespaces there are then. -/
theorem hasNamespace_insertManifest (ns : String) (m : AppManifest) (r : RegistryInner)
    (ns' : String) :
    (r.insertManifest ns m).HasNamespace ns' ↔ ns' = ns ∨ r.HasNamespace ns' := by
  unfold insertManifest HasNamespace
  by_cases hns : ns' = ns
  · subst hns
    rw [Finmap.lookup_insert]
    exact iff_of_true rfl (.inl rfl)
  · rw [Finmap.lookup_insert_of_ne _ hns]
    exact ⟨.inr, fun h => h.resolve_left hns⟩

/-- Registries with the same namespaces and the same apps are the same. -/
theorem ext_getApp (hget : ∀ ns app, r.getApp ns app = r'.getApp ns app)
    (hnames : ∀ ns, r.HasNamespace ns ↔ r'.HasNamespace ns) : r = r' := by
  apply ext_namespaces
  apply Finmap.ext_lookup
  intro ns
  have hns := hnames ns
  unfold HasNamespace at hns
  cases h : r.namespaces.lookup ns with
  | none =>
    rw [h] at hns
    cases h' : r'.namespaces.lookup ns with
    | none => rfl
    | some apps' =>
      rw [h'] at hns
      exact absurd (hns.mpr rfl) Bool.false_ne_true
  | some apps =>
    rw [h] at hns
    cases h' : r'.namespaces.lookup ns with
    | none =>
      rw [h'] at hns
      exact absurd (hns.mp rfl) Bool.false_ne_true
    | some apps' =>
      congr 1
      apply Finmap.ext_lookup
      intro app
      rw [← getApp_of_lookup h, ← getApp_of_lookup h', hget]

end RegistryInner

/-! ## What the directory mirrors -/

/-- The directory shows the namespaces and the apps that are in memory, each under a name that
is accepted, and no other manifest. -/
structure Mirrors (isAlphanumeric : Char → Bool) (dataDir : Path)
    (serialize : AppManifest → List U8) (s : AppRegistry) : Prop where
  namespaces : ∀ ns, s.inner.HasNamespace ns →
    validateNamespace isAlphanumeric ns = .ok () ∧ ns ≠ "." ∧
      s.tree (dataDir.normal.under [ns]) = some .dir
  apps : ∀ ns app m, s.inner.getApp ns app = some m →
    m.ns = ns ∧ m.app = app ∧ validateName isAlphanumeric app = .ok () ∧
      s.tree (dataDir.normal.under [ns, app]) = some .dir ∧
      s.tree (dataDir.normal.under [ns, app, "manifest.json"]) = some (.file (serialize m))
  manifests : ∀ ns app text,
    s.tree (dataDir.normal.under [ns, app, "manifest.json"]) = some (.file text) →
      ∃ m, s.inner.getApp ns app = some m

section Loaded

variable {isAlphanumeric : Char → Bool} {dataDir : Path} {serialize : AppManifest → List U8}
  {deserialize : List U8 → Option AppManifest} {entries : Path → List String} {s : AppRegistry}

/-- What has been read is in the registry, and every namespace has been found by an app. -/
structure PartOf (s r : RegistryInner) : Prop where
  apps : ∀ ns app m, r.getApp ns app = some m → s.getApp ns app = some m
  found : ∀ ns, r.HasNamespace ns → ∃ app m, r.getApp ns app = some m

/-- The manifests on the disk are those in memory. -/
theorem Mirrors.readManifest_iff (h : Mirrors isAlphanumeric dataDir serialize s)
    (hjson : ReadsBack deserialize serialize s.inner) (ns app : String) (m : AppManifest) :
    readManifest dataDir deserialize s.tree ns app = some m ↔ s.inner.getApp ns app = some m := by
  constructor
  · intro hread
    unfold readManifest at hread
    split at hread
    · split at hread
      · rename_i raw hraw
        obtain ⟨m', hm'⟩ := h.manifests ns app raw hraw
        obtain ⟨-, -, -, -, hfile⟩ := h.apps ns app m' hm'
        rw [hfile] at hraw
        cases hraw
        rw [hjson ns app m' hm'] at hread
        rw [hm', hread]
      · cases hread
    · cases hread
  · intro hm
    obtain ⟨-, -, -, hdir, hfile⟩ := h.apps ns app m hm
    have hisDir : s.tree.isDir (dataDir.normal.under [ns, app]) = true := by
      unfold FileTree.isDir
      rw [hdir]
    unfold readManifest
    rw [if_pos hisDir, hfile]
    exact hjson ns app m hm

/-- One entry of the directory of a namespace: what was found stays, and its app is found. -/
theorem Mirrors.loadApp (h : Mirrors isAlphanumeric dataDir serialize s)
    (hjson : ReadsBack deserialize serialize s.inner) (ns app : String)
    {acc : RegistryInner × List AppManifest} (hacc : PartOf s.inner acc.1) :
    PartOf s.inner (Fasm.loadApp dataDir deserialize s.tree ns acc app).1 ∧
      (∀ ns' app' m, acc.1.getApp ns' app' = some m →
        (Fasm.loadApp dataDir deserialize s.tree ns acc app).1.getApp ns' app' = some m) ∧
      ∀ m, s.inner.getApp ns app = some m →
        (Fasm.loadApp dataDir deserialize s.tree ns acc app).1.getApp ns app = some m := by
  unfold Fasm.loadApp
  cases hread : readManifest dataDir deserialize s.tree ns app with
  | none =>
    refine ⟨hacc, fun _ _ _ => id, ?_⟩
    intro m hm
    rw [(h.readManifest_iff hjson ns app m).mpr hm] at hread
    cases hread
  | some m =>
    have hm := (h.readManifest_iff hjson ns app m).mp hread
    obtain ⟨-, rfl, -⟩ := h.apps ns app m hm
    have hget := RegistryInner.getApp_insertManifest ns m acc.1
    refine ⟨⟨?_, ?_⟩, ?_, ?_⟩
    · intro ns' app' m' hm'
      rw [hget] at hm'
      split at hm'
      · rename_i heq
        cases hm'
        rw [heq.1, heq.2]
        exact hm
      · exact hacc.apps ns' app' m' hm'
    · intro ns' hns'
      rcases (RegistryInner.hasNamespace_insertManifest ns m acc.1 ns').mp hns' with rfl | hns'
      · exact ⟨m.app, m, by rw [hget, if_pos ⟨rfl, rfl⟩]⟩
      · obtain ⟨app', m', hm'⟩ := hacc.found ns' hns'
        by_cases heq : ns' = ns ∧ app' = m.app
        · exact ⟨app', m, by rw [hget, if_pos heq]⟩
        · exact ⟨app', m', by rw [hget, if_neg heq, hm']⟩
    · intro ns' app' m' hm'
      show (acc.1.insertManifest ns m).getApp ns' app' = _
      rw [hget]
      split
      · rename_i heq
        have hold := hacc.apps ns' app' m' hm'
        rw [heq.1, heq.2, hm] at hold
        exact hold
      · exact hm'
    · intro m' hm'
      rw [hm] at hm'
      cases hm'
      show (acc.1.insertManifest ns m).getApp ns m.app = _
      rw [hget, if_pos ⟨rfl, rfl⟩]

/-- A fold that loses nothing and brings in each element of the list brings in all. -/
theorem foldl_collects {α β : Type} {f : α → β → α} {P : α → Prop} {L : α → α → Prop}
    {Q : β → α → Prop} (hrefl : ∀ a, L a a) (htrans : ∀ a b c, L a b → L b c → L a c)
    (hQ : ∀ b a a', L a a' → Q b a → Q b a')
    (hstep : ∀ a b, P a → P (f a b) ∧ L a (f a b) ∧ Q b (f a b)) (l : List β) {a : α} (ha : P a) :
    P (l.foldl f a) ∧ L a (l.foldl f a) ∧ ∀ b ∈ l, Q b (l.foldl f a) := by
  induction l generalizing a with
  | nil => exact ⟨ha, hrefl a, nofun⟩
  | cons b l ih =>
    obtain ⟨hP, hle, hb⟩ := hstep a b ha
    obtain ⟨hP', hle', hall⟩ := ih hP
    refine ⟨hP', htrans _ _ _ hle hle', ?_⟩
    intro b' hb'
    rcases List.mem_cons.mp hb' with rfl | hb'
    · exact hQ b' _ _ hle' hb
    · exact hall b' hb'

/-- What is found in the one is found in the other. -/
def FoundIn (acc acc' : RegistryInner × List AppManifest) : Prop :=
  ∀ ns app m, acc.1.getApp ns app = some m → acc'.1.getApp ns app = some m

/-- The app of the registry has been found. -/
def Found (s : RegistryInner) (ns app : String) (acc : RegistryInner × List AppManifest) : Prop :=
  ∀ m, s.getApp ns app = some m → acc.1.getApp ns app = some m

theorem Found.mono {r : RegistryInner} {ns app : String}
    {acc acc' : RegistryInner × List AppManifest} (hle : FoundIn acc acc')
    (h : Found r ns app acc) : Found r ns app acc' := fun m hm => hle ns app m (h m hm)

/-- One entry of the data directory: what was found stays, and its apps are found. -/
theorem Mirrors.loadNamespace (h : Mirrors isAlphanumeric dataDir serialize s)
    (hjson : ReadsBack deserialize serialize s.inner) (hentries : ListsEntries entries s.tree)
    (acc : RegistryInner × List AppManifest) (ns : String) (hacc : PartOf s.inner acc.1) :
    PartOf s.inner (Fasm.loadNamespace isAlphanumeric dataDir deserialize entries s.tree acc ns).1 ∧
      FoundIn acc (Fasm.loadNamespace isAlphanumeric dataDir deserialize entries s.tree acc ns) ∧
      ∀ app, Found s.inner ns app
        (Fasm.loadNamespace isAlphanumeric dataDir deserialize entries s.tree acc ns) := by
  unfold Fasm.loadNamespace
  split
  · obtain ⟨hpart, hle, hall⟩ := foldl_collects (L := FoundIn) (Q := Found s.inner ns)
      (P := fun acc => PartOf s.inner acc.1) (f := Fasm.loadApp dataDir deserialize s.tree ns)
      (fun _ _ _ _ => id) (fun _ _ _ h₁ h₂ ns app m hm => h₂ ns app m (h₁ ns app m hm))
      (fun _ _ _ hle hfound => hfound.mono hle)
      (fun acc app hacc => h.loadApp hjson ns app hacc) (entries (dataDir.normal.under [ns])) hacc
    refine ⟨hpart, hle, ?_⟩
    intro app m hm
    obtain ⟨-, -, -, hdir, -⟩ := h.apps ns app m hm
    apply hall app _ m hm
    rw [hentries, Path.under_under]
    show s.tree (dataDir.normal.under [ns, app]) ≠ none
    rw [hdir]
    nofun
  · rename_i hno
    refine ⟨hacc, fun _ _ _ => id, ?_⟩
    intro app m hm
    obtain ⟨hvalid, -, hdir⟩ := h.namespaces ns (RegistryInner.hasNamespace_of_getApp hm)
    have hisDir : s.tree.isDir (dataDir.normal.under [ns]) = true := by
      unfold FileTree.isDir
      rw [hdir]
    rw [hisDir, hvalid] at hno
    exact absurd rfl hno

/-- What is read back is what is in memory, but for the namespaces without apps. -/
theorem Mirrors.loadFromDisk (h : Mirrors isAlphanumeric dataDir serialize s)
    (hjson : ReadsBack deserialize serialize s.inner) (hentries : ListsEntries entries s.tree) :
    (∀ ns app,
      (Fasm.loadFromDisk isAlphanumeric dataDir deserialize entries s.tree).1.getApp ns app =
        s.inner.getApp ns app) ∧
    ∀ ns, (Fasm.loadFromDisk isAlphanumeric dataDir deserialize entries s.tree).1.HasNamespace ns ↔
      ∃ app m, s.inner.getApp ns app = some m := by
  have hnew : PartOf s.inner .new := ⟨nofun, nofun⟩
  obtain ⟨hpart, -, hall⟩ := foldl_collects (L := FoundIn)
    (Q := fun ns acc => ∀ app, Found s.inner ns app acc)
    (P := fun acc => PartOf s.inner acc.1)
    (f := Fasm.loadNamespace isAlphanumeric dataDir deserialize entries s.tree)
    (a := (RegistryInner.new, [])) (fun _ _ _ _ => id)
    (fun _ _ _ h₁ h₂ ns app m hm => h₂ ns app m (h₁ ns app m hm))
    (fun _ _ _ hle hfound app => (hfound app).mono hle)
    (h.loadNamespace hjson hentries) (entries dataDir.normal) hnew
  change PartOf s.inner
    (Fasm.loadFromDisk isAlphanumeric dataDir deserialize entries s.tree).1 at hpart
  have hfound (ns app : String) (m : AppManifest) (hm : s.inner.getApp ns app = some m) :
      (Fasm.loadFromDisk isAlphanumeric dataDir deserialize entries s.tree).1.getApp ns app =
        some m := by
    obtain ⟨-, -, hdir⟩ := h.namespaces ns (RegistryInner.hasNamespace_of_getApp hm)
    apply hall ns _ app m hm
    rw [hentries, hdir]
    nofun
  constructor
  · intro ns app
    cases hm : s.inner.getApp ns app with
    | some m => exact hfound ns app m hm
    | none =>
      cases hload : (Fasm.loadFromDisk isAlphanumeric dataDir deserialize entries
          s.tree).1.getApp ns app with
      | none => rfl
      | some m =>
        rw [hpart.apps ns app m hload] at hm
        cases hm
  · intro ns
    constructor
    · intro hns
      obtain ⟨app, m, hm⟩ := hpart.found ns hns
      exact ⟨app, m, hpart.apps ns app m hm⟩
    · rintro ⟨app, m, hm⟩
      exact RegistryInner.hasNamespace_of_getApp (hfound ns app m hm)

/-- The registry that is read back is the one in memory just when no namespace is empty. -/
theorem Mirrors.loadFromDisk_iff (h : Mirrors isAlphanumeric dataDir serialize s)
    (hjson : ReadsBack deserialize serialize s.inner) (hentries : ListsEntries entries s.tree) :
    (Fasm.loadFromDisk isAlphanumeric dataDir deserialize entries s.tree).1 = s.inner ↔
      ∀ ns, s.inner.HasNamespace ns → ∃ app m, s.inner.getApp ns app = some m := by
  obtain ⟨hget, hnames⟩ := h.loadFromDisk hjson hentries
  constructor
  · intro heq ns hns
    rw [← heq] at hns
    exact (hnames ns).mp hns
  · intro hfound
    apply RegistryInner.ext_getApp hget
    intro ns
    rw [hnames]
    exact ⟨fun ⟨_, _, hm⟩ => RegistryInner.hasNamespace_of_getApp hm, hfound ns⟩

end Loaded

end Fasm
