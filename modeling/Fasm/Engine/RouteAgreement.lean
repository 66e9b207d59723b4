import Fasm.Engine.Admin

/-!
# Registered routes and live routes

Two stores know a managed route: the route table, under its identifier, and the manifest of an
app, as a record.  A request that unregisters a route finds it in the first by the identifier
and in the second by the app that the client names, and the two need not belong together.
-/

namespace Fasm

variable {ω : Type}

namespace RegistryInner

/-- The route records of an app. -/
def routesOf (ns app : String) (r : RegistryInner) : List RouteRecord :=
  ((r.getApp ns app).map AppManifest.routes).getD []

/-- The file of every route record is listed in the manifest of its app. -/
def FilesListed (r : RegistryInner) : Prop :=
  ∀ ns app m, r.getApp ns app = some m → ∀ rec ∈ m.routes, m.Lists rec.file

variable {r r' : RegistryInner} {ns app : String}

theorem routesOf_of_getApp {m : AppManifest} (h : r.getApp ns app = some m) :
    r.routesOf ns app = m.routes := by
  unfold routesOf
  rw [h]
  rfl

theorem routesOf_of_none (h : r.getApp ns app = none) : r.routesOf ns app = [] := by
  unfold routesOf
  rw [h]
  rfl

/-- A route record belongs to an app. -/
theorem getApp_of_routesOf {rec : RouteRecord} (h : rec ∈ r.routesOf ns app) :
    ∃ m, r.getApp ns app = some m ∧ rec ∈ m.routes := by
  cases happ : r.getApp ns app with
  | none =>
    rw [routesOf_of_none happ] at h
    exact absurd h List.not_mem_nil
  | some m =>
    rw [routesOf_of_getApp happ] at h
    exact ⟨m, rfl, h⟩

/-- The records of the other apps stay. -/
theorem Edits.routesOf_others {o : Option AppManifest} (h : Edits r r' ns app o) {ns' app' : String}
    (hne : ¬ (ns' = ns ∧ app' = app)) : r'.routesOf ns' app' = r.routesOf ns' app' := by
  unfold routesOf
  rw [h.others ns' app' hne]

/-- The records of the app itself. -/
theorem Edits.routesOf_here {o : Option AppManifest} (h : Edits r r' ns app o) :
    r'.routesOf ns app = (o.map AppManifest.routes).getD [] := by
  unfold routesOf
  rw [h.here]

theorem routesOf_congr (h : ∀ ns app, r'.getApp ns app = r.getApp ns app) (ns app : String) :
    r'.routesOf ns app = r.routesOf ns app := by
  unfold routesOf
  rw [h]

/-- The records after one more has been written into the manifest of an app. -/
theorem Edits.mem_routesOf_withRoute {m : AppManifest} {rec : RouteRecord}
    (h : Edits r r' ns app (some (m.withRoute rec))) (hm : r.getApp ns app = some m)
    (ns' app' : String) (rec' : RouteRecord) :
    rec' ∈ r'.routesOf ns' app' ↔
      rec' ∈ r.routesOf ns' app' ∨ (ns' = ns ∧ app' = app) ∧ rec' = rec := by
  by_cases heq : ns' = ns ∧ app' = app
  · obtain ⟨rfl, rfl⟩ := heq
    rw [h.routesOf_here, routesOf_of_getApp hm]
    show rec' ∈ m.routes ++ [rec] ↔ _
    rw [List.mem_append, List.mem_singleton]
    simp
  · rw [h.routesOf_others heq]
    simp [heq]

/-- The records after those of a route have been taken out of the manifest of an app. -/
theorem Edits.mem_routesOf_withoutRoute {m : AppManifest} {routeId : Uuid}
    (h : Edits r r' ns app (some (m.withoutRoute routeId))) (hm : r.getApp ns app = some m)
    (ns' app' : String) (rec' : RouteRecord) :
    rec' ∈ r'.routesOf ns' app' ↔
      rec' ∈ r.routesOf ns' app' ∧ ((ns' = ns ∧ app' = app) → rec'.id ≠ routeId) := by
  by_cases heq : ns' = ns ∧ app' = app
  · obtain ⟨rfl, rfl⟩ := heq
    rw [h.routesOf_here, routesOf_of_getApp hm]
    show rec' ∈ m.routes.filter _ ↔ _
    rw [List.mem_filter, bne_iff_ne]
    simp
  · rw [h.routesOf_others heq]
    simp [heq]

/-- An edit that leaves the records alone. -/
theorem Edits.routesOf_eq {o : Option AppManifest} (h : Edits r r' ns app o)
    (ho : (o.map AppManifest.routes).getD [] = r.routesOf ns app) (ns' app' : String) :
    r'.routesOf ns' app' = r.routesOf ns' app' := by
  by_cases heq : ns' = ns ∧ app' = app
  · obtain ⟨rfl, rfl⟩ := heq
    rw [h.routesOf_here, ho]
  · exact h.routesOf_others heq

theorem FilesListed.congr (h : r.FilesListed)
    (hget : ∀ ns app, r'.getApp ns app = r.getApp ns app) :
    r'.FilesListed := by
  intro ns app m hm
  rw [hget] at hm
  exact h ns app m hm

/-- The files of the other apps stay listed. -/
theorem FilesListed.edits {o : Option AppManifest} (h : r.FilesListed) (hedit : Edits r r' ns app o)
    (ho : ∀ m, o = some m → ∀ rec ∈ m.routes, m.Lists rec.file) : r'.FilesListed := by
  intro ns' app' m hm
  by_cases heq : ns' = ns ∧ app' = app
  · obtain ⟨rfl, rfl⟩ := heq
    exact ho m (hedit.here.symm.trans hm)
  · rw [hedit.others ns' app' heq] at hm
    exact h ns' app' m hm

/-- So do those of the app itself when a record of a listed file is written. -/
theorem FilesListed.withRoute {m : AppManifest} {rec : RouteRecord} (h : r.FilesListed)
    (hm : r.getApp ns app = some m) (hedit : Edits r r' ns app (some (m.withRoute rec)))
    (hlists : m.Lists rec.file) : r'.FilesListed := by
  apply h.edits hedit
  rintro _ ⟨⟩ rec' hrec'
  rcases List.mem_append.mp hrec' with hrec' | hrec'
  · exact h ns app m hm rec' hrec'
  · rw [List.mem_singleton.mp hrec']
    exact hlists

/-- And when records are taken out. -/
theorem FilesListed.withoutRoute {m : AppManifest} {routeId : Uuid} (h : r.FilesListed)
    (hm : r.getApp ns app = some m)
    (hedit : Edits r r' ns app (some (m.withoutRoute routeId))) : r'.FilesListed := by
  apply h.edits hedit
  rintro _ ⟨⟩ rec' hrec'
  exact h ns app m hm rec' (List.mem_of_mem_filter hrec')

end RegistryInner

/-! ## Files of a manifest -/

namespace AppManifest

variable {m m' : AppManifest} {filename : String}

/-- What `store_file` has listed stays listed, and the file is listed too. -/
theorem lists_storeRecord (record : FileRecord) (m : AppManifest) :
    (m.storeRecord record).routes = m.routes ∧
      ∀ name, m.Lists name → (m.storeRecord record).Lists name := by
  unfold storeRecord
  cases hpos : m.files.findIdx? fun f => f.name == record.name with
  | none =>
    refine ⟨rfl, ?_⟩
    rintro name ⟨f, hf, hname⟩
    exact ⟨f, List.mem_append_left _ hf, hname⟩
  | some pos =>
    obtain ⟨hlt, hsame, -⟩ := List.findIdx?_eq_some_iff_getElem.mp hpos
    refine ⟨rfl, ?_⟩
    rintro name ⟨f, hf, hname⟩
    obtain ⟨i, hi, hfi⟩ := List.getElem_of_mem hf
    by_cases heq : pos = i
    · refine ⟨record, List.mem_set hlt record, ?_⟩
      subst heq
      rw [← hname, ← hfi]
      exact (beq_iff_eq.mp hsame).symm
    · refine ⟨f, List.mem_of_getElem? (i := i) ?_, hname⟩
      show (m.files.set pos record)[i]? = some f
      rw [List.getElem?_set_ne heq]
      exact List.getElem?_eq_some_iff.mpr ⟨hi, hfi⟩

/-- What `delete_file` takes out of a manifest is the file of no route. -/
theorem lists_withoutFile (h : m.withoutFile filename = .ok m') :
    m'.routes = m.routes ∧ ∀ rec ∈ m.routes, m.Lists rec.file → m'.Lists rec.file := by
  unfold withoutFile at h
  split at h
  · cases h
  · rename_i hno
    cases h
    refine ⟨rfl, ?_⟩
    rintro rec hrec ⟨f, hf, hname⟩
    refine ⟨f, List.mem_filter.mpr ⟨hf, ?_⟩, hname⟩
    rw [hname, bne_iff_ne]
    rintro heq
    apply hno
    rw [List.any_eq_true]
    exact ⟨rec, hrec, by rw [heq, beq_self_eq_true]⟩

end AppManifest

/-! ## Agreement -/

/-- A record and a live route are of one route. -/
def RouteRecord.Describes (rec : RouteRecord) (e : RouteEntry ω) : Prop :=
  rec.id = e.id ∧ rec.method = e.method ∧ parsePath rec.path = e.segments ∧ rec.function = e.func

/-- The managed routes of the table are those of the records, and every record's file is
listed. -/
structure RoutesAgree (s : AppState ω) : Prop where
  recorded : ∀ e ∈ s.routes.managedRoutes, ∃ ns app, ∃ rec ∈ s.registry.routesOf ns app,
    rec.Describes e
  live : ∀ ns app, ∀ rec ∈ s.registry.routesOf ns app, ∃ e ∈ s.routes.managedRoutes,
    rec.Describes e
  listed : s.registry.FilesListed

/-- The stores agree, and an identifier tells the route and the app. -/
structure Consistent (s : AppState ω) : Prop where
  agree : RoutesAgree s
  ids : (s.routes.managedRoutes.map RouteEntry.id).Nodup
  owner : ∀ ns app ns' app', ∀ rec ∈ s.registry.routesOf ns app,
    ∀ rec' ∈ s.registry.routesOf ns' app', rec.id = rec'.id → ns' = ns ∧ app' = app

/-- The drawn identifier is new, to the table and to the manifests. -/
def AdminRequest.Fresh (s : AppState ω) : AdminRequest → Prop
  | .registerRoute _ _ _ _ drawn =>
    drawn ∉ s.routes.routes.map RouteEntry.id ∧
      ∀ ns app, ∀ rec ∈ s.registry.routesOf ns app, rec.id ≠ drawn
  | _ => True

/-- The app that a request to unregister a live route names has its record. -/
def AdminRequest.NamesOwner (s : AppState ω) : AdminRequest → Prop
  | .unregisterRoute ns app routeId =>
    (∃ e ∈ s.routes.managedRoutes, e.id = routeId) →
      ∃ rec ∈ s.registry.routesOf ns app, rec.id = routeId
  | _ => True

section Steps

variable {isAlphanumeric : Char → Bool} {toUppercase : String → String}
  {compile : Program → Option (FasmJit ω)} {s s' : AppState ω}

/-- A request is handled. -/
def AdminStep (isAlphanumeric : Char → Bool) (toUppercase : String → String)
    (compile : Program → Option (FasmJit ω)) (s : AppState ω) (q : AdminRequest)
    (s' : AppState ω) : Prop :=
  q.Fresh s ∧ (q.handle isAlphanumeric toUppercase compile s).2 = s'

namespace Consistent

/-- A change that leaves the table and the records alone. -/
theorem of_same (h : Consistent s) (hroutes : s'.routes = s.routes)
    (hrecords : ∀ ns app, s'.registry.routesOf ns app = s.registry.routesOf ns app)
    (hlisted : s'.registry.FilesListed) : Consistent s' where
  agree := by
    refine ⟨?_, ?_, hlisted⟩
    · intro e he
      rw [hroutes] at he
      obtain ⟨ns, app, rec, hrec, hdescribes⟩ := h.agree.recorded e he
      rw [← hrecords] at hrec
      exact ⟨ns, app, rec, hrec, hdescribes⟩
    · intro ns app rec hrec
      rw [hrecords] at hrec
      rw [hroutes]
      exact h.agree.live ns app rec hrec
  ids := by
    rw [hroutes]
    exact h.ids
  owner := by
    intro ns app ns' app'
    rw [hrecords, hrecords]
    exact h.owner ns app ns' app'

/-- A call of the registry that leaves the records alone. -/
theorem answer (h : Consistent s) {result : Except String RegistryInner}
    (hok : ∀ r, result = .ok r →
      (∀ ns app, r.routesOf ns app = s.registry.routesOf ns app) ∧ r.FilesListed)
    (status : Nat) (cases : List (String × Nat)) (other : Nat) :
    Consistent (s.answer status cases other result).2 := by
  cases hresult : result with
  | error e => exact h
  | ok r =>
    obtain ⟨hrecords, hlisted⟩ := hok r hresult
    exact h.of_same rfl hrecords hlisted

/-- A new route and its record. -/
theorem register (h : Consistent s) {e : RouteEntry ω} {rec : RouteRecord} {ns app : String}
    {m : AppManifest} (hdescribes : rec.Describes e) (hmanaged : e.managed = true)
    (hroutes : s'.routes.routes = s.routes.routes ++ [e])
    (hm : s.registry.getApp ns app = some m)
    (hedit : RegistryInner.Edits s.registry s'.registry ns app (some (m.withRoute rec)))
    (hlists : m.Lists rec.file) (hnew : e.id ∉ s.routes.routes.map RouteEntry.id)
    (hunused : ∀ ns app, ∀ rec' ∈ s.registry.routesOf ns app, rec'.id ≠ e.id) :
    Consistent s' := by
  have hmanagedRoutes := RouteTable.managedRoutes_concat hroutes hmanaged
  have hrecords := hedit.mem_routesOf_withRoute hm
  refine ⟨⟨?_, ?_, h.agree.listed.withRoute hm hedit hlists⟩, ?_, ?_⟩
  · intro e' he'
    rw [hmanagedRoutes, List.mem_append, List.mem_singleton] at he'
    rcases he' with he' | rfl
    · obtain ⟨ns', app', rec', hrec', hdescribes'⟩ := h.agree.recorded e' he'
      exact ⟨ns', app', rec', (hrecords _ _ _).mpr (.inl hrec'), hdescribes'⟩
    · exact ⟨ns, app, rec, (hrecords _ _ _).mpr (.inr ⟨⟨rfl, rfl⟩, rfl⟩), hdescribes⟩
  · intro ns' app' rec' hrec'
    rw [hmanagedRoutes]
    rcases (hrecords _ _ _).mp hrec' with hrec' | ⟨-, rfl⟩
    · obtain ⟨e', he', hdescribes'⟩ := h.agree.live ns' app' rec' hrec'
      exact ⟨e', List.mem_append_left _ he', hdescribes'⟩
    · exact ⟨e, List.mem_append_right _ (List.mem_singleton_self e), hdescribes⟩
  · rw [hmanagedRoutes]
    apply RouteTable.nodup_ids_concat h.ids
    intro e' he' heq
    exact hnew (List.mem_map.mpr ⟨e', List.mem_of_mem_filter he', heq⟩)
  · intro ns₁ app₁ ns₂ app₂ rec₁ hrec₁ rec₂ hrec₂ hid
    rcases (hrecords _ _ _).mp hrec₁ with hrec₁ | ⟨⟨rfl, rfl⟩, rfl⟩
    · rcases (hrecords _ _ _).mp hrec₂ with hrec₂ | ⟨⟨rfl, rfl⟩, rfl⟩
      · exact h.owner _ _ _ _ rec₁ hrec₁ rec₂ hrec₂ hid
      · exact absurd (hid.trans hdescribes.1) (hunused _ _ rec₁ hrec₁)
    · rcases (hrecords _ _ _).mp hrec₂ with hrec₂ | ⟨⟨rfl, rfl⟩, -⟩
      · exact absurd (hid.symm.trans hdescribes.1) (hunused _ _ rec₂ hrec₂)
      · exact ⟨rfl, rfl⟩

/-- The routes with some identifiers go, and their records with them. -/
theorem remove (h : Consistent s) {p : Uuid → Prop} [DecidablePred p]
    (hroutes : s'.routes.managedRoutes = s.routes.managedRoutes.filter fun e => ¬ p e.id)
    (hrecords : ∀ ns app rec, rec ∈ s'.registry.routesOf ns app ↔
      rec ∈ s.registry.routesOf ns app ∧ ¬ p rec.id)
    (hlisted : s'.registry.FilesListed) : Consistent s' := by
  refine ⟨⟨?_, ?_, hlisted⟩, ?_, ?_⟩
  · intro e he
    rw [hroutes, List.mem_filter, decide_eq_true_eq] at he
    obtain ⟨ns, app, rec, hrec, hdescribes⟩ := h.agree.recorded e he.1
    refine ⟨ns, app, rec, (hrecords _ _ _).mpr ⟨hrec, ?_⟩, hdescribes⟩
    rw [hdescribes.1]
    exact he.2
  · intro ns app rec hrec
    obtain ⟨hrec, hkept⟩ := (hrecords _ _ _).mp hrec
    obtain ⟨e, he, hdescribes⟩ := h.agree.live ns app rec hrec
    refine ⟨e, ?_, hdescribes⟩
    rw [hroutes, List.mem_filter, decide_eq_true_eq, ← hdescribes.1]
    exact ⟨he, hkept⟩
  · rw [hroutes]
    exact h.ids.sublist (List.filter_sublist.map _)
  · intro ns app ns' app' rec hrec rec' hrec'
    have hold := ((hrecords _ _ _).mp hrec).1
    exact h.owner ns app ns' app' rec hold rec' ((hrecords _ _ _).mp hrec').1

/-- `unregister_route`, when the client names the app of the route. -/
theorem unregister (h : Consistent s) {ns app : String} {routeId : Uuid}
    (hnames : (AdminRequest.unregisterRoute ns app routeId).NamesOwner s) :
    Consistent (unregisterRoute ns app routeId s).2 := by
  unfold unregisterRoute
  rcases hremove : s.routes.removeRoute routeId with ⟨removed, routes⟩
  cases removed with
  | false => exact h
  | true =>
    have hlive := (RouteTable.removeRoute_fst s.routes routeId).mp (by rw [hremove])
    obtain ⟨rec, hrec, hid⟩ := hnames hlive
    obtain ⟨m, hm, hmem⟩ := RegistryInner.getApp_of_routesOf hrec
    obtain ⟨registry, hok⟩ := RegistryInner.editApp_of_getApp hm
      (f := fun m => .ok (m.withoutRoute routeId)) rfl
    obtain ⟨m₁, m', hm₁, hedit, hedits⟩ := RegistryInner.editApp_eq_ok hok
    rw [hm] at hm₁
    cases hm₁
    cases hedit
    simp only [RegistryInner.removeRouteRecord, hok]
    apply h.remove (p := fun id => id = routeId)
    · show routes.managedRoutes = _
      have hmanaged := RouteTable.managedRoutes_removeRoute h.ids routeId
      rwa [hremove] at hmanaged
    · intro ns' app' rec'
      rw [hedits.mem_routesOf_withoutRoute hm]
      refine ⟨fun ⟨hrec', hkept⟩ => ⟨hrec', ?_⟩, fun ⟨hrec', hne⟩ => ⟨hrec', fun _ => hne⟩⟩
      intro hid'
      exact hkept (h.owner ns app ns' app' rec hrec rec' hrec' (hid.trans hid'.symm)) hid'
    · exact h.agree.listed.withoutRoute hm hedits

/-- `delete_app`. -/
theorem delete (h : Consistent s) (ns app : String) : Consistent (deleteApp ns app s).2 := by
  unfold deleteApp
  cases hm : s.registry.getApp ns app with
  | none => exact h
  | some m =>
    obtain ⟨registry, hok⟩ := RegistryInner.deleteApp_of_getApp hm
    obtain ⟨-, hedits⟩ := RegistryInner.deleteApp_eq_ok hok
    simp only [AppState.answer, hok]
    apply h.remove (p := fun id => id ∈ m.routes.map RouteRecord.id)
    · exact RouteTable.managedRoutes_removeRoutes _ h.ids
    · intro ns' app' rec'
      by_cases heq : ns' = ns ∧ app' = app
      · obtain ⟨rfl, rfl⟩ := heq
        rw [hedits.routesOf_here, RegistryInner.routesOf_of_getApp hm]
        refine iff_of_false List.not_mem_nil ?_
        rintro ⟨hrec', hkept⟩
        exact hkept (List.mem_map_of_mem hrec')
      · rw [hedits.routesOf_others heq]
        refine ⟨fun hrec' => ⟨hrec', ?_⟩, And.left⟩
        intro hgone
        obtain ⟨rec, hrec, hid⟩ := List.mem_map.mp hgone
        rw [← RegistryInner.routesOf_of_getApp hm] at hrec
        exact heq (h.owner ns app ns' app' rec hrec rec' hrec' hid)
    · apply h.agree.listed.edits hedits
      rintro _ ⟨⟩

/-- `register_route`, with a new identifier. -/
theorem registered (h : Consistent s) {ns app : String} {body : RegisterRouteBody}
    {loaded : Except String Program} {drawn : Uuid}
    (hfresh : (AdminRequest.registerRoute ns app body loaded drawn).Fresh s) :
    Consistent (registerRoute toUppercase compile ns app body loaded drawn s).2 := by
  unfold registerRoute
  cases hm : s.registry.getApp ns app with
  | none => exact h
  | some m =>
    cases hlists : m.files.any fun f => f.name == body.file with
    | false => simpa [hlists] using h
    | true =>
      cases loaded with
      | error e => simpa [hlists] using h
      | ok program =>
        cases hadd : s.routes.addRouteDyn toUppercase compile body.method body.path body.function
            program drawn with
        | error e => simpa [hlists, hadd] using h
        | ok routes =>
          obtain ⟨registry, hok⟩ := RegistryInner.editApp_of_getApp hm
            (f := fun m => .ok (m.withRoute (body.record toUppercase drawn))) rfl
          obtain ⟨m₁, m', hm₁, hedit, hedits⟩ := RegistryInner.editApp_eq_ok hok
          rw [hm] at hm₁
          cases hm₁
          cases hedit
          simp only [hlists, hadd, RegistryInner.addRouteRecord, hok]
          obtain ⟨f, hf, hname⟩ := List.any_eq_true.mp hlists
          exact h.register ⟨rfl, rfl, rfl, rfl⟩ rfl (RouteTable.addRouteDyn_appends hadd) hm hedits
            ⟨f, hf, beq_iff_eq.mp hname⟩ hfresh.1 hfresh.2

/-- Every request keeps the stores consistent, if one that unregisters a route names its app. -/
theorem step (h : Consistent s) {q : AdminRequest}
    (hstep : AdminStep isAlphanumeric toUppercase compile s q s') (hnames : q.NamesOwner s) :
    Consistent s' := by
  obtain ⟨hfresh, rfl⟩ := hstep
  cases q with
  | createNamespace name =>
    show Consistent (createNamespace isAlphanumeric name s).2
    unfold createNamespace
    cases validateNamespace isAlphanumeric name with
    | error e => exact h
    | ok _ =>
      apply h.answer
      intro r hr
      obtain ⟨-, hget, -⟩ := RegistryInner.createNamespace_eq_ok hr
      exact ⟨RegistryInner.routesOf_congr hget, h.agree.listed.congr hget⟩
  | deleteNamespace name =>
    apply h.answer
    intro r hr
    obtain ⟨-, hget, -, -⟩ := RegistryInner.deleteNamespace_eq_ok hr
    exact ⟨RegistryInner.routesOf_congr hget, h.agree.listed.congr hget⟩
  | createApp ns name now =>
    apply h.answer
    intro r hr
    cases hvalid : validateName isAlphanumeric name with
    | error e =>
      rw [hvalid] at hr
      cases hr
    | ok _ =>
      rw [hvalid] at hr
      obtain ⟨hnone, -, hedits⟩ := RegistryInner.createApp_eq_ok hr
      refine ⟨hedits.routesOf_eq (RegistryInner.routesOf_of_none hnone).symm, ?_⟩
      apply h.agree.listed.edits hedits
      rintro _ ⟨⟩ rec hrec
      cases hrec
  | uploadFile ns app filename raw now =>
    show Consistent (uploadFile ns app filename raw now s).2
    unfold uploadFile
    split
    · exact h
    · apply h.answer
      intro r hr
      cases hvalid : validateFilename filename with
      | error e =>
        rw [hvalid] at hr
        cases hr
      | ok _ =>
        rw [hvalid] at hr
        obtain ⟨m, m', hm, hedit, hedits⟩ := RegistryInner.editApp_eq_ok hr
        cases hedit
        obtain ⟨hsame, hlists⟩ := AppManifest.lists_storeRecord (.of filename raw now) m
        refine ⟨hedits.routesOf_eq ?_, ?_⟩
        · rw [RegistryInner.routesOf_of_getApp hm]
          exact hsame
        · apply h.agree.listed.edits hedits
          rintro _ ⟨⟩ rec hrec
          rw [hsame] at hrec
          exact hlists _ (h.agree.listed ns app m hm rec hrec)
  | deleteFile ns app filename =>
    apply h.answer
    intro r hr
    obtain ⟨m, m', hm, hedit, hedits⟩ := RegistryInner.editApp_eq_ok hr
    obtain ⟨hsame, hlists⟩ := AppManifest.lists_withoutFile hedit
    refine ⟨hedits.routesOf_eq ?_, ?_⟩
    · rw [RegistryInner.routesOf_of_getApp hm]
      exact hsame
    · apply h.agree.listed.edits hedits
      rintro _ ⟨⟩ rec hrec
      rw [hsame] at hrec
      exact hlists rec hrec (h.agree.listed ns app m hm rec hrec)
  | registerRoute ns app body loaded drawn => exact h.registered hfresh
  | unregisterRoute ns app routeId => exact h.unregister hnames
  | deleteApp ns app => exact h.delete ns app

/-- Unregistering a live route under another app leaves its record behind. -/
theorem disagree (h : Consistent s) {q : AdminRequest}
    (hstep : AdminStep isAlphanumeric toUppercase compile s q s') (hnames : ¬ q.NamesOwner s) :
    ¬ RoutesAgree s' := by
  obtain ⟨-, rfl⟩ := hstep
  cases q with
  | unregisterRoute ns app routeId =>
    obtain ⟨⟨e, he, hid⟩, hno⟩ := Classical.not_imp.mp hnames
    obtain ⟨ns', app', rec, hrec, hdescribes⟩ := h.agree.recorded e he
    have hrecid : rec.id = routeId := hdescribes.1.trans hid
    have hremoved := (RouteTable.removeRoute_fst s.routes routeId).mpr ⟨e, he, hid⟩
    have hmanaged := RouteTable.managedRoutes_removeRoute h.ids routeId
    -- the table has lost the route, and the record is where it was
    have hgone (s' : AppState ω) (hroutes : s'.routes = (s.routes.removeRoute routeId).2)
        (hkept : rec ∈ s'.registry.routesOf ns' app') : ¬ RoutesAgree s' := by
      intro hagree
      obtain ⟨e', he', hdescribes'⟩ := hagree.live ns' app' rec hkept
      rw [hroutes, hmanaged, List.mem_filter, decide_eq_true_eq] at he'
      exact he'.2 (hdescribes'.1.symm.trans hrecid)
    show ¬ RoutesAgree (unregisterRoute ns app routeId s).2
    unfold unregisterRoute
    rcases hremove : s.routes.removeRoute routeId with ⟨removed, routes⟩
    rw [hremove] at hremoved hgone
    cases removed with
    | false => cases hremoved
    | true =>
      cases hok : s.registry.removeRouteRecord ns app routeId with
      | error e' => exact hgone _ rfl hrec
      | ok registry =>
        obtain ⟨m, m', hm, hedit, hedits⟩ := RegistryInner.editApp_eq_ok hok
        apply hgone _ rfl
        show rec ∈ registry.routesOf ns' app'
        rw [hedits.routesOf_others]
        · exact hrec
        · rintro ⟨rfl, rfl⟩
          exact hno ⟨rec, hrec, hrecid⟩
  | _ => exact absurd trivial hnames

end Consistent

end Steps

/-- An empty registry, and static routes only. -/
def AppState.Empty (s : AppState ω) : Prop :=
  s.registry = .new ∧ s.routes.managedRoutes = []

/-- An empty registry agrees with a table of static routes. -/
theorem AppState.Empty.consistent {s : AppState ω} (h : s.Empty) : Consistent s := by
  obtain ⟨hregistry, hroutes⟩ := h
  have hrecords (ns app : String) : s.registry.routesOf ns app = [] := by
    rw [hregistry]
    rfl
  refine ⟨⟨?_, ?_, ?_⟩, ?_, ?_⟩
  · intro e he
    rw [hroutes] at he
    cases he
  · intro ns app rec hrec
    rw [hrecords] at hrec
    cases hrec
  · intro ns app m hm
    rw [hregistry] at hm
    cases hm
  · rw [hroutes]
    exact List.nodup_nil
  · intro ns app ns' app' rec hrec
    rw [hrecords] at hrec
    cases hrec

/-- The stores stay consistent as long as every request to unregister a route names its app. -/
theorem IsTrace.consistent {isAlphanumeric : Char → Bool} {toUppercase : String → String}
    {compile : Program → Option (FasmJit ω)} {σ : Nat → AppState ω} {q : Nat → AdminRequest}
    {n : Nat}
    (h : IsTrace AppState.Empty (AdminStep isAlphanumeric toUppercase compile) σ q n)
    (hnames : ∀ i < n, (q i).NamesOwner (σ i)) : Consistent (σ n) := by
  apply h.invariant_of (P := Consistent) (C := fun s q => q.NamesOwner s)
  · intro s hs
    exact hs.consistent
  · intro s q s' hstep hq hs
    exact hs.step hstep hq
  · exact hnames

/-- After every request of a run, the live routes are those of the records, and their files are
listed, just when every request that unregisters a live route names the app of its record. -/
theorem routes_agree_iff {isAlphanumeric : Char → Bool} {toUppercase : String → String}
    {compile : Program → Option (FasmJit ω)} {σ : Nat → AppState ω} {q : Nat → AdminRequest}
    {n : Nat}
    (h : IsTrace AppState.Empty (AdminStep isAlphanumeric toUppercase compile) σ q n) :
    (∀ i ≤ n, RoutesAgree (σ i)) ↔ ∀ i < n, (q i).NamesOwner (σ i) := by
  constructor
  · intro hagree i
    induction i using Nat.strong_induction_on with
    | h i ih =>
      intro hi
      by_contra hnames
      have hi' := (h.le (Nat.le_of_lt hi)).consistent fun j hj => ih j hj (hj.trans hi)
      exact hi'.disagree (h.step i hi) hnames (hagree (i + 1) hi)
  · intro hnames i hi
    exact ((h.le hi).consistent fun j hj => hnames j (Nat.lt_of_lt_of_le hj hi)).agree

section Example

/-- An app with a file and a route, and a second namespace. -/
def shopRequests : Nat → AdminRequest
  | 0 => .createNamespace "shop"
  | 1 => .createApp "shop" "cart" 0
  | 2 => .uploadFile "shop" "cart" "a.fasm" [0] 0
  | 3 => .registerRoute "shop" "cart" ⟨"GET", "/a", "Main", "a.fasm"⟩ (.ok ⟨1, [], []⟩) "u1"
  | _ => .unregisterRoute "blog" "cart" "u1"

/-- The run of `shopRequests`. -/
def shopRun : Nat → AppState Unit
  | 0 => ⟨.new, ⟨[]⟩⟩
  | n + 1 => ((shopRequests n).handle Char.isAlphanum id (fun _ => none) (shopRun n)).2

theorem shopRun_start :
    IsTrace AppState.Empty (AdminStep Char.isAlphanum id fun _ => none) shopRun shopRequests 3 where
  init := ⟨rfl, rfl⟩
  step := by
    intro i hi
    match i, hi with
    | 0, _ => exact ⟨trivial, rfl⟩
    | 1, _ => exact ⟨trivial, rfl⟩
    | 2, _ => exact ⟨trivial, rfl⟩

theorem shopRun_consistent : Consistent (shopRun 3) := by
  apply shopRun_start.consistent
  intro i hi
  match i, hi with
  | 0, _ => trivial
  | 1, _ => trivial
  | 2, _ => trivial

/-- Before the first route is registered, there are no records. -/
theorem shopRun_noRecords (ns app : String) (rec : RouteRecord) :
    rec ∉ (shopRun 3).registry.routesOf ns app := by
  intro hrec
  obtain ⟨e, he, -⟩ := shopRun_consistent.agree.live ns app rec hrec
  exact absurd he List.not_mem_nil

theorem shopRun_fresh : (shopRequests 3).Fresh (shopRun 3) :=
  ⟨List.not_mem_nil, fun ns app rec hrec => absurd hrec (shopRun_noRecords ns app rec)⟩

theorem shopRun_trace :
    IsTrace AppState.Empty (AdminStep Char.isAlphanum id fun _ => none) shopRun shopRequests 5 where
  init := ⟨rfl, rfl⟩
  step := by
    intro i hi
    match i, hi with
    | 3, _ => exact ⟨shopRun_fresh, rfl⟩
    | 4, _ => exact ⟨trivial, rfl⟩
    | 0, hi => exact shopRun_start.step 0 (by omega)
    | 1, hi => exact shopRun_start.step 1 (by omega)
    | 2, hi => exact shopRun_start.step 2 (by omega)

theorem routes_agree_registered : (∀ i ≤ 4, RoutesAgree (shopRun i)) ↔
    ∀ i < 4, (shopRequests i).NamesOwner (shopRun i) :=
  routes_agree_iff (shopRun_trace.le (by omega))

/-- The route is unregistered under another app, and its record stays. -/
theorem routes_disagree :
    IsTrace AppState.Empty (AdminStep Char.isAlphanum id fun _ => none) shopRun shopRequests 5 ∧
    ((shopRequests 4).handle Char.isAlphanum id (fun _ => none) (shopRun 4)).1 = .done 204 ∧
    (shopRun 5).registry.routesOf "shop" "cart" = [⟨"u1", "GET", "/a", "Main", "a.fasm"⟩] ∧
    (shopRun 5).routes.managedRoutes.map RouteEntry.id = [] ∧ ¬ RoutesAgree (shopRun 5) := by
  refine ⟨shopRun_trace, rfl, rfl, rfl, ?_⟩
  intro hagree
  obtain ⟨e, he, -⟩ := hagree.live "shop" "cart" ⟨"u1", "GET", "/a", "Main", "a.fasm"⟩
    (List.mem_singleton.mpr rfl)
  exact absurd he List.not_mem_nil

end Example

end Fasm
