import Fasm.Bytecode.Encode
import Fasm.Engine.Router

/-!
# The app registry

`registry.rs` as it stands in memory: namespaces, the apps in them, and for each app a manifest
with the files that were uploaded to it and the routes that were registered for it.  What the
operations do to the disk is not in this file.

`char::is_alphanumeric` is a parameter.  Times are natural numbers.
-/

namespace Fasm

/-- `FileKind`. -/
inductive FileKind where
  | source
  | bytecode
deriving DecidableEq

/-- `FileRecord`. -/
structure FileRecord where
  name : String
  kind : FileKind
  size : Nat
  uploaded : Nat
deriving DecidableEq

/-- `RouteRecord`. -/
structure RouteRecord where
  id : Uuid
  method : String
  path : String
  function : String
  file : String
deriving DecidableEq

/-- `AppManifest`.  Its `ns` is the field `namespace` of the source. -/
structure AppManifest where
  ns : String
  app : String
  created : Nat
  files : List FileRecord
  routes : List RouteRecord
deriving DecidableEq

/-- `RegistryInner`: the manifests, by namespace and app. -/
structure RegistryInner where
  namespaces : HashMap String (HashMap String AppManifest)

/-! ## Names -/

section Validate

variable (isAlphanumeric : Char → Bool)

/-- `validate_namespace`. -/
def validateNamespace (name : String) : Except String Unit :=
  if name.toList = [] then .error "namespace name is empty"
  else
    match name.toList.find? fun ch =>
      !isAlphanumeric ch && ch != '.' && ch != '-' && ch != '_' with
    | some ch => .error ("namespace '" ++ name ++ "': invalid character '" ++ ch.toString ++ "'")
    | none =>
      if ['.', '.'] <:+: name.toList then .error "namespace may not contain '..'" else .ok ()

/-- `validate_name`. -/
def validateName (name : String) : Except String Unit :=
  if name.toList = [] then .error "name is empty"
  else
    match name.toList.find? fun ch => !isAlphanumeric ch && ch != '-' && ch != '_' with
    | some ch => .error ("name '" ++ name ++ "': invalid character '" ++ ch.toString ++ "'")
    | none => .ok ()

/-- `validate_filename`. -/
def validateFilename (name : String) : Except String Unit :=
  if name.toList = [] then .error "filename is empty"
  else if '/' ∈ name.toList ∨ '\\' ∈ name.toList ∨ ['.', '.'] <:+: name.toList then
    .error "filename must not contain path separators"
  else if ¬ ".fasm".toList <:+ name.toList ∧ ¬ ".fasmc".toList <:+ name.toList then
    .error "filename must end in .fasm or .fasmc"
  else .ok ()

end Validate

/-! ## Manifests -/

namespace AppManifest

/-- What `store_file` writes into the manifest: replace or append. -/
def storeRecord (record : FileRecord) (m : AppManifest) : AppManifest :=
  match m.files.findIdx? fun f => f.name == record.name with
  | some pos => { m with files := m.files.set pos record }
  | none => { m with files := m.files ++ [record] }

/-- What `delete_file` writes into the manifest, unless a route still references the file. -/
def withoutFile (filename : String) (m : AppManifest) : Except String AppManifest :=
  if m.routes.any fun r => r.file == filename then
    .error ("file '" ++ filename ++ "' is still referenced by a route")
  else .ok { m with files := m.files.filter fun f => f.name != filename }

/-- What `add_route_record` writes into the manifest. -/
def withRoute (record : RouteRecord) (m : AppManifest) : AppManifest :=
  { m with routes := m.routes ++ [record] }

/-- What `remove_route_record` writes into the manifest. -/
def withoutRoute (routeId : Uuid) (m : AppManifest) : AppManifest :=
  { m with routes := m.routes.filter fun r => r.id != routeId }

/-- The file is listed. -/
def Lists (filename : String) (m : AppManifest) : Prop := ∃ f ∈ m.files, f.name = filename

end AppManifest

/-- The file record that `store_file` makes. -/
def FileRecord.of (filename : String) (data : List U8) (now : Nat) : FileRecord :=
  ⟨filename, if magic <+: data then .bytecode else .source, data.length, now⟩

namespace RegistryInner

/-- `AppRegistry::new`. -/
def new : RegistryInner := ⟨∅⟩

/-- The error for a namespace that is not there. -/
def namespaceNotFound (ns : String) : String := "namespace '" ++ ns ++ "' not found"

/-- The error for an app that is not there. -/
def appNotFound (ns app : String) : String := "app '" ++ ns ++ "/" ++ app ++ "' not found"

/-- `get_app`. -/
def getApp (ns app : String) (r : RegistryInner) : Option AppManifest :=
  (r.namespaces.lookup ns).bind fun apps => apps.lookup app

/-- `create_namespace` of a valid name. -/
def createNamespace (name : String) (r : RegistryInner) : Except String RegistryInner :=
  match r.namespaces.lookup name with
  | some _ => .error ("namespace '" ++ name ++ "' already exists")
  | none => .ok ⟨r.namespaces.insert name ∅⟩

/-- `delete_namespace`. -/
def deleteNamespace (name : String) (r : RegistryInner) : Except String RegistryInner :=
  match r.namespaces.lookup name with
  | none => .error (namespaceNotFound name)
  | some apps =>
    if apps.keys.card ≠ 0 then
      .error ("namespace '" ++ name ++ "' is not empty (" ++ toString apps.keys.card ++ " apps)")
    else .ok ⟨r.namespaces.erase name⟩

/-- The checks of `create_app` on the namespace and the app. -/
def vacantApp (ns app : String) (r : RegistryInner) :
    Except String (HashMap String AppManifest) :=
  match r.namespaces.lookup ns with
  | none => .error (namespaceNotFound ns)
  | some apps =>
    match apps.lookup app with
    | some _ => .error ("app '" ++ app ++ "' already exists in namespace '" ++ ns ++ "'")
    | none => .ok apps

/-- `create_app` of a valid name. -/
def createApp (ns app : String) (now : Nat) (r : RegistryInner) : Except String RegistryInner :=
  (r.vacantApp ns app).map fun apps =>
    ⟨r.namespaces.insert ns (apps.insert app ⟨ns, app, now, [], []⟩)⟩

/-- `delete_app`. -/
def deleteApp (ns app : String) (r : RegistryInner) : Except String RegistryInner :=
  match r.namespaces.lookup ns with
  | none => .error (namespaceNotFound ns)
  | some apps =>
    match apps.lookup app with
    | none => .error ("app '" ++ app ++ "' not found in namespace '" ++ ns ++ "'")
    | some _ => .ok ⟨r.namespaces.insert ns (apps.erase app)⟩

/-- The manifest of an app is looked up and edited in place. -/
def editApp (ns app : String) (edit : AppManifest → Except String AppManifest)
    (r : RegistryInner) : Except String RegistryInner :=
  match r.namespaces.lookup ns with
  | none => .error (appNotFound ns app)
  | some apps =>
    match apps.lookup app with
    | none => .error (appNotFound ns app)
    | some m => (edit m).map fun m' => ⟨r.namespaces.insert ns (apps.insert app m')⟩

/-- `store_file` of a valid file name. -/
def storeFile (ns app : String) (record : FileRecord) (r : RegistryInner) :
    Except String RegistryInner :=
  r.editApp ns app fun m => .ok (m.storeRecord record)

/-- `delete_file`. -/
def deleteFile (ns app filename : String) (r : RegistryInner) : Except String RegistryInner :=
  r.editApp ns app fun m => m.withoutFile filename

/-- `add_route_record`. -/
def addRouteRecord (ns app : String) (record : RouteRecord) (r : RegistryInner) :
    Except String RegistryInner :=
  r.editApp ns app fun m => .ok (m.withRoute record)

/-- `remove_route_record`. -/
def removeRouteRecord (ns app : String) (routeId : Uuid) (r : RegistryInner) :
    Except String RegistryInner :=
  r.editApp ns app fun m => .ok (m.withoutRoute routeId)

/-! ## What the operations change -/

/-- The namespace exists. -/
def HasNamespace (ns : String) (r : RegistryInner) : Prop := (r.namespaces.lookup ns).isSome

/-- The registries differ at one app at most, and have the same namespaces. -/
structure Edits (r r' : RegistryInner) (ns app : String) (o : Option AppManifest) : Prop where
  here : r'.getApp ns app = o
  others : ∀ ns' app', ¬ (ns' = ns ∧ app' = app) → r'.getApp ns' app' = r.getApp ns' app'
  names : ∀ ns', r'.HasNamespace ns' ↔ r.HasNamespace ns'

variable {r r' : RegistryInner} {ns app : String}

/-- An app in its namespace. -/
theorem getApp_of_lookup {apps : HashMap String AppManifest}
    (h : r.namespaces.lookup ns = some apps) (app : String) : r.getApp ns app = apps.lookup app := by
  unfold getApp
  rw [h]
  rfl

/-- What an app belongs to exists. -/
theorem hasNamespace_of_getApp {m : AppManifest} (h : r.getApp ns app = some m) :
    r.HasNamespace ns := by
  obtain ⟨apps, happs, -⟩ := Option.bind_eq_some_iff.mp h
  unfold HasNamespace
  rw [happs]
  rfl

/-- One entry of one namespace is replaced. -/
theorem edits_insert {apps apps' : HashMap String AppManifest}
    (h : r.namespaces.lookup ns = some apps)
    (hothers : ∀ app', app' ≠ app → apps'.lookup app' = apps.lookup app') :
    Edits r ⟨r.namespaces.insert ns apps'⟩ ns app (apps'.lookup app) where
  here := getApp_of_lookup (Finmap.lookup_insert _) app
  others := by
    intro ns' app' hne
    by_cases hns : ns' = ns
    · subst hns
      unfold getApp
      rw [Finmap.lookup_insert, h]
      exact hothers app' fun happ => hne ⟨rfl, happ⟩
    · unfold getApp
      rw [Finmap.lookup_insert_of_ne _ hns]
  names := by
    intro ns'
    unfold HasNamespace
    by_cases hns : ns' = ns
    · subst hns
      rw [Finmap.lookup_insert, h]
      exact iff_of_true rfl rfl
    · rw [Finmap.lookup_insert_of_ne _ hns]

/-- A successful edit. -/
theorem editApp_eq_ok {edit : AppManifest → Except String AppManifest}
    (h : r.editApp ns app edit = .ok r') :
    ∃ m m', r.getApp ns app = some m ∧ edit m = .ok m' ∧ Edits r r' ns app (some m') := by
  unfold editApp at h
  cases hns : r.namespaces.lookup ns with
  | none => simp only [hns, reduceCtorEq] at h
  | some apps =>
    cases happ : apps.lookup app with
    | none => simp only [hns, happ, reduceCtorEq] at h
    | some m =>
      cases hedit : edit m with
      | error e => simp only [hns, happ, hedit, Except.map, reduceCtorEq] at h
      | ok m' =>
        simp only [hns, happ, hedit, Except.map, Except.ok.injEq] at h
        subst h
        refine ⟨m, m', ?_, hedit, ?_⟩
        · rw [getApp_of_lookup hns, happ]
        · rw [← Finmap.lookup_insert (a := app) (b := m') apps]
          exact edits_insert hns fun app' hne => Finmap.lookup_insert_of_ne _ hne

/-- The edit of an app that is there succeeds when the edit of its manifest does. -/
theorem editApp_of_getApp {f : AppManifest → Except String AppManifest} {m m' : AppManifest}
    (h : r.getApp ns app = some m) (hf : f m = .ok m') : ∃ r', r.editApp ns app f = .ok r' := by
  obtain ⟨apps, hns, happ⟩ := Option.bind_eq_some_iff.mp h
  unfold editApp
  simp only [hns, happ, hf]
  exact ⟨_, rfl⟩

/-- A successful `create_app`. -/
theorem createApp_eq_ok {now : Nat} (h : r.createApp ns app now = .ok r') :
    r.getApp ns app = none ∧ r.HasNamespace ns ∧
      Edits r r' ns app (some ⟨ns, app, now, [], []⟩) := by
  unfold createApp vacantApp at h
  cases hns : r.namespaces.lookup ns with
  | none => simp only [hns, Except.map, reduceCtorEq] at h
  | some apps =>
    cases happ : apps.lookup app with
    | some m => simp only [hns, happ, Except.map, reduceCtorEq] at h
    | none =>
      simp only [hns, happ, Except.map, Except.ok.injEq] at h
      subst h
      refine ⟨?_, ?_, ?_⟩
      · rw [getApp_of_lookup hns, happ]
      · unfold HasNamespace
        rw [hns]
        rfl
      · rw [← Finmap.lookup_insert (a := app) (b := (⟨ns, app, now, [], []⟩ : AppManifest)) apps]
        exact edits_insert hns fun app' hne => Finmap.lookup_insert_of_ne _ hne

/-- A successful `delete_app`. -/
theorem deleteApp_eq_ok (h : r.deleteApp ns app = .ok r') :
    (∃ m, r.getApp ns app = some m) ∧ Edits r r' ns app none := by
  unfold deleteApp at h
  cases hns : r.namespaces.lookup ns with
  | none => simp only [hns, reduceCtorEq] at h
  | some apps =>
    cases happ : apps.lookup app with
    | none => simp only [hns, happ, reduceCtorEq] at h
    | some m =>
      simp only [hns, happ, Except.ok.injEq] at h
      subst h
      refine ⟨⟨m, ?_⟩, ?_⟩
      · rw [getApp_of_lookup hns, happ]
      · rw [← Finmap.lookup_erase app apps]
        exact edits_insert hns fun app' hne => Finmap.lookup_erase_ne hne

/-- An app that is there can be deleted. -/
theorem deleteApp_of_getApp {m : AppManifest} (h : r.getApp ns app = some m) :
    ∃ r', r.deleteApp ns app = .ok r' := by
  obtain ⟨apps, hns, happ⟩ := Option.bind_eq_some_iff.mp h
  unfold deleteApp
  simp only [hns, happ]
  exact ⟨_, rfl⟩

/-- A successful `create_namespace`. -/
theorem createNamespace_eq_ok (h : r.createNamespace ns = .ok r') :
    ¬ r.HasNamespace ns ∧ (∀ ns' app', r'.getApp ns' app' = r.getApp ns' app') ∧
      ∀ ns', r'.HasNamespace ns' ↔ ns' = ns ∨ r.HasNamespace ns' := by
  unfold createNamespace at h
  cases hns : r.namespaces.lookup ns with
  | some apps => simp only [hns, reduceCtorEq] at h
  | none =>
    simp only [hns, Except.ok.injEq] at h
    subst h
    refine ⟨?_, ?_, ?_⟩
    · unfold HasNamespace
      rw [hns]
      exact Bool.false_ne_true
    · intro ns' app'
      by_cases heq : ns' = ns
      · subst heq
        unfold getApp
        rw [Finmap.lookup_insert, hns]
        exact Finmap.lookup_empty app'
      · unfold getApp
        rw [Finmap.lookup_insert_of_ne _ heq]
    · intro ns'
      unfold HasNamespace
      by_cases heq : ns' = ns
      · subst heq
        rw [Finmap.lookup_insert]
        exact iff_of_true rfl (.inl rfl)
      · rw [Finmap.lookup_insert_of_ne _ heq]
        exact ⟨.inr, fun hor => hor.resolve_left heq⟩

/-- A successful `delete_namespace`. -/
theorem deleteNamespace_eq_ok (h : r.deleteNamespace ns = .ok r') :
    r.HasNamespace ns ∧ (∀ ns' app', r'.getApp ns' app' = r.getApp ns' app') ∧
      (∀ app, r.getApp ns app = none) ∧
      ∀ ns', r'.HasNamespace ns' ↔ ns' ≠ ns ∧ r.HasNamespace ns' := by
  unfold deleteNamespace at h
  cases hns : r.namespaces.lookup ns with
  | none => simp only [hns, reduceCtorEq] at h
  | some apps =>
    simp only [hns] at h
    split at h
    · cases h
    · rename_i hcard
      cases h
      have hempty (app : String) : apps.lookup app = none := by
        rw [not_not, Finset.card_eq_zero] at hcard
        rw [Finmap.lookup_eq_none, ← Finmap.mem_keys, hcard]
        exact Finset.notMem_empty app
      refine ⟨?_, ?_, ?_, ?_⟩
      · unfold HasNamespace
        rw [hns]
        rfl
      · intro ns' app'
        by_cases heq : ns' = ns
        · subst heq
          rw [getApp_of_lookup hns, hempty]
          unfold getApp
          rw [Finmap.lookup_erase]
          rfl
        · unfold getApp
          rw [Finmap.lookup_erase_ne heq]
      · intro app
        rw [getApp_of_lookup hns, hempty]
      · intro ns'
        unfold HasNamespace
        by_cases heq : ns' = ns
        · subst heq
          rw [Finmap.lookup_erase]
          exact iff_of_false Bool.false_ne_true fun hand => hand.1 rfl
        · rw [Finmap.lookup_erase_ne heq]
          exact ⟨fun hsome => ⟨heq, hsome⟩, fun hand => hand.2⟩

end RegistryInner

end Fasm
