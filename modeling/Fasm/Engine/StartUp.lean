import Fasm.Engine.RouteAgreement

/-!
# Routes after a restart

`engine.rs` builds the route table of a new process: the static routes of the configuration, and
then a route for each record of the manifests that it has read.  It goes through
`compile_source_file` and `add_route_dyn`, where a registration goes through `load_program` and
keeps the identifier in the record.

The compiler, on the texts for which it returns, the files on the disk and the texts of their
paths are parameters.
-/

namespace Fasm

variable {ω : Type}

/-- What the loaders work with: the compiler, the contents of the file of an app, and its path
as an error shows it. -/
structure Sources where
  compileSource : String → Except String Program
  contents : String → String → String → Option (List U8)
  shown : String → String → String → String

namespace Sources

/-- `load_program`, on the file of an app. -/
def loadProgram (src : Sources) (ns app file : String) : Except String Program :=
  match src.contents ns app file with
  | none => .error ("cannot read file " ++ src.shown ns app file)
  | some bytes =>
    if magic <+: bytes then
      (decodeProgram bytes).mapError ("bytecode decode error: " ++ ·)
    else
      match fromUtf8 bytes with
      | .error _ => .error "file is not valid UTF-8 FASM source"
      | .ok text => (src.compileSource text).mapError ("compile error: " ++ ·)

/-- `compile_source_file`, on the file of an app. -/
def compileSourceFile (src : Sources) (ns app file : String) : Except String Program :=
  match src.contents ns app file with
  | none => .error ("cannot read " ++ src.shown ns app file)
  | some bytes =>
    match fromUtf8 bytes with
    | .error _ => .error ("cannot read " ++ src.shown ns app file)
    | .ok text =>
      (src.compileSource text).mapError ("compile error in " ++ src.shown ns app file ++ ": " ++ ·)

end Sources

namespace RouteTable

section StartUp

variable (toUppercase : String → String) (compile : Program → Option (FasmJit ω)) (src : Sources)
  (drawn : Nat → Uuid)

/-- The route of one record, under the identifier that is drawn for it.  A file that does not
compile and a conflict are skipped with a warning. -/
def reRegister (ns app : String) (rec : RouteRecord) (id : Uuid) (t : RouteTable ω) :
    RouteTable ω :=
  match src.compileSourceFile ns app rec.file with
  | .error _ => t
  | .ok prog =>
    match t.addRouteDyn toUppercase compile rec.method rec.path rec.function prog id with
    | .error _ => t
    | .ok t' => t'

/-- The loop over the records of a manifest, from the `n`th identifier on. -/
def reRegisterRoutes (ns app : String) : List RouteRecord → Nat → RouteTable ω → RouteTable ω
  | [], _, t => t
  | rec :: recs, n, t =>
    reRegisterRoutes ns app recs (n + 1) (t.reRegister toUppercase compile src ns app rec (drawn n))

/-- The loop over the manifests. -/
def reRegisterAll : List AppManifest → Nat → RouteTable ω → RouteTable ω
  | [], _, t => t
  | m :: ms, n, t =>
    reRegisterAll ms (n + m.routes.length)
      (t.reRegisterRoutes toUppercase compile src drawn m.ns m.app m.routes n)

end StartUp

/-- The record of an app is a live route, which runs the program of its file. -/
def Survives (src : Sources) (ns app : String) (rec : RouteRecord) (t : RouteTable ω) : Prop :=
  ∃ e ∈ t.managedRoutes, rec.Describes e ∧ src.loadProgram ns app rec.file = .ok e.program

/-- Every managed route has one of the drawn identifiers. -/
def Drawn (drawn : Nat → Uuid) (t : RouteTable ω) : Prop :=
  ∀ e ∈ t.managedRoutes, ∃ n, e.id = drawn n

variable {toUppercase : String → String} {compile : Program → Option (FasmJit ω)} {src : Sources}
  {drawn : Nat → Uuid} {t : RouteTable ω}

/-- A route that is registered again has a drawn identifier. -/
theorem Drawn.reRegister (h : t.Drawn drawn) (ns app : String) (rec : RouteRecord) (n : Nat) :
    (t.reRegister toUppercase compile src ns app rec (drawn n)).Drawn drawn := by
  unfold RouteTable.reRegister
  cases src.compileSourceFile ns app rec.file with
  | error _ => exact h
  | ok prog =>
    cases hadd : t.addRouteDyn toUppercase compile rec.method rec.path rec.function prog
        (drawn n) with
    | error _ => simpa only [hadd] using h
    | ok t' =>
      simp only [hadd]
      intro e he
      rw [managedRoutes_concat (addRouteDyn_appends hadd) rfl, List.mem_append,
        List.mem_singleton] at he
      rcases he with he | rfl
      · exact h e he
      · exact ⟨n, rfl⟩

/-- So have all routes of a manifest. -/
theorem Drawn.reRegisterRoutes (h : t.Drawn drawn) (ns app : String) (recs : List RouteRecord)
    (n : Nat) :
    (t.reRegisterRoutes toUppercase compile src drawn ns app recs n).Drawn drawn := by
  induction recs generalizing t n with
  | nil => exact h
  | cons rec recs ih => exact ih (h.reRegister ns app rec n) (n + 1)

/-- And all routes of all manifests. -/
theorem Drawn.reRegisterAll (h : t.Drawn drawn) (ms : List AppManifest) (n : Nat) :
    (t.reRegisterAll toUppercase compile src drawn ms n).Drawn drawn := by
  induction ms generalizing t n with
  | nil => exact h
  | cons m ms ih => exact ih (h.reRegisterRoutes m.ns m.app m.routes n) _

/-- No record survives under its identifier when the drawn ones are new. -/
theorem Drawn.not_survives (h : t.Drawn drawn) {rec : RouteRecord} (hnew : ∀ n, drawn n ≠ rec.id)
    (ns app : String) : ¬ t.Survives src ns app rec := by
  rintro ⟨e, he, hdescribes, -⟩
  obtain ⟨n, hn⟩ := h e he
  exact hnew n (hn.symm.trans hdescribes.1.symm)

end RouteTable

/-- After a start-up from the manifests of a registry, every recorded route is live again as it
was recorded, just when no route is recorded. -/
theorem routes_survive_iff {toUppercase : String → String}
    {compile : Program → Option (FasmJit ω)} {src : Sources} {drawn : Nat → Uuid}
    {statics : RouteTable ω} (hstatics : statics.managedRoutes = []) (persisted : List AppManifest)
    (hnew : ∀ m ∈ persisted, ∀ rec ∈ m.routes, ∀ n, drawn n ≠ rec.id) :
    (∀ m ∈ persisted, ∀ rec ∈ m.routes,
      (statics.reRegisterAll toUppercase compile src drawn persisted 0).Survives
        src m.ns m.app rec) ↔
      ∀ m ∈ persisted, m.routes = [] := by
  constructor
  · intro hsurvives m hm
    rw [List.eq_nil_iff_forall_not_mem]
    intro rec hrec
    have hdrawn : statics.Drawn drawn := by
      intro e he
      rw [hstatics] at he
      cases he
    exact (hdrawn.reRegisterAll persisted 0).not_survives (hnew m hm rec hrec) m.ns m.app
      (hsurvives m hm rec hrec)
  · intro hnone m hm rec hrec
    rw [hnone m hm] at hrec
    cases hrec

section Example

/-- The manifest that the run `shopRun` has written for its app before the last request. -/
def shopManifest : AppManifest :=
  ⟨"shop", "cart", 0, [⟨"a.fasm", .source, 1, 0⟩], [⟨"u1", "GET", "/a", "Main", "a.fasm"⟩]⟩

/-- Every file compiles. -/
def shopSources : Sources := ⟨fun _ => .ok ⟨1, [], []⟩, fun _ _ _ => some [0], fun _ _ f => f⟩

/-- The identifiers of the new process. -/
def newUuids (n : Nat) : Uuid := String.ofList (List.replicate (n + 1) 'v')

theorem newUuids_ne (n : Nat) : newUuids n ≠ "u1" := by
  intro h
  have hchars := congrArg String.toList h
  rw [newUuids, String.toList_ofList, List.replicate_succ] at hchars
  exact absurd (List.cons.inj hchars).1 (by decide)

theorem newUuids_new : ∀ m ∈ [shopManifest], ∀ rec ∈ m.routes, ∀ n, newUuids n ≠ rec.id := by
  intro m hm rec hrec n
  cases List.mem_singleton.mp hm
  cases List.mem_singleton.mp hrec
  exact newUuids_ne n

/-- The table of the new process. -/
def shopTable : RouteTable Unit :=
  RouteTable.reRegisterAll id (fun _ => none) shopSources newUuids [shopManifest] 0 ⟨[]⟩

theorem routes_survive_shop :
    (∀ m ∈ [shopManifest], ∀ rec ∈ m.routes,
      shopTable.Survives shopSources m.ns m.app rec) ↔ ∀ m ∈ [shopManifest], m.routes = [] :=
  routes_survive_iff rfl [shopManifest] newUuids_new

/-- The route of the manifest is live again, under another identifier, and the recorded one
unregisters nothing. -/
theorem routes_renamed :
    (shopRun 4).registry.getApp "shop" "cart" = some shopManifest ∧
    shopSources.loadProgram "shop" "cart" "a.fasm" = .ok ⟨1, [], []⟩ ∧
    shopTable.routes.map RouteEntry.id = ["v"] ∧ (shopTable.removeRoute "u1").1 = false ∧
    ¬ ∀ m ∈ [shopManifest], ∀ rec ∈ m.routes, shopTable.Survives shopSources m.ns m.app rec := by
  refine ⟨rfl, rfl, rfl, rfl, ?_⟩
  intro hsurvives
  obtain ⟨e, he, hdescribes, -⟩ := hsurvives shopManifest (List.mem_singleton.mpr rfl) _
    (List.mem_singleton.mpr rfl)
  have hids : e.id ∈ shopTable.managedRoutes.map RouteEntry.id := List.mem_map_of_mem he
  rw [← hdescribes.1] at hids
  exact absurd hids (by decide)

end Example

end Fasm
