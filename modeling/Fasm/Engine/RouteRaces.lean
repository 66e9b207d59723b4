import Fasm.Engine.RouteAgreement
import Mathlib.Data.Multiset.Filter

/-!
# Admin requests side by side

`register_route`, `unregister_route`, `delete_file` and `delete_app`, in the steps between which
they hold no lock.  A registration looks at the manifest, inserts the route and writes the
record; to delete an app, a request reads the identifiers of its routes, unloads them and
deletes the manifest.  The steps of any number of requests come in any order.
-/

namespace Fasm

variable {ω : Type}

/-- What a request does next, with what it has kept from its earlier steps. -/
inductive Pending where
  | register (ns app : String) (body : RegisterRouteBody) (loaded : Except String Program)
  | insert (ns app : String) (body : RegisterRouteBody) (program : Program)
  | record (ns app : String) (body : RegisterRouteBody) (routeId : Uuid)
  | rollBack (routeId : Uuid)
  | unregister (ns app : String) (routeId : Uuid)
  | unrecord (ns app : String) (routeId : Uuid)
  | deleteFile (ns app filename : String)
  | deleteApp (ns app : String)
  | unload (ns app : String) (routeIds : List Uuid)
  | dropApp (ns app : String)

namespace Pending

section Advance

variable (toUppercase : String → String) (compile : Program → Option (FasmJit ω))

/-- One step of a request, with the identifier that it may draw: what is left of the request,
and the stores after the step. -/
def advance (drawn : Uuid) (s : AppState ω) : Pending → Option Pending × AppState ω
  | .register ns app body loaded =>
    match s.registry.getApp ns app with
    | none => (none, s)
    | some manifest =>
      if !manifest.files.any fun f => f.name == body.file then (none, s)
      else
        match loaded with
        | .error _ => (none, s)
        | .ok program => (some (.insert ns app body program), s)
  | .insert ns app body program =>
    match s.routes.addRouteDyn toUppercase compile body.method body.path body.function program
      drawn with
    | .error _ => (none, s)
    | .ok routes => (some (.record ns app body drawn), { s with routes })
  | .record ns app body routeId =>
    match s.registry.addRouteRecord ns app (body.record toUppercase routeId) with
    | .error _ => (some (.rollBack routeId), s)
    | .ok registry => (none, { s with registry })
  | .rollBack routeId => (none, { s with routes := (s.routes.removeRoute routeId).2 })
  | .unregister ns app routeId =>
    match s.routes.removeRoute routeId with
    | (false, _) => (none, s)
    | (true, routes) => (some (.unrecord ns app routeId), { s with routes })
  | .unrecord ns app routeId =>
    match s.registry.removeRouteRecord ns app routeId with
    | .error _ => (none, s)
    | .ok registry => (none, { s with registry })
  | .deleteFile ns app filename =>
    match s.registry.deleteFile ns app filename with
    | .error _ => (none, s)
    | .ok registry => (none, { s with registry })
  | .deleteApp ns app =>
    match s.registry.getApp ns app with
    | none => (none, s)
    | some manifest => (some (.unload ns app (manifest.routes.map RouteRecord.id)), s)
  | .unload ns app routeIds =>
    (some (.dropApp ns app), { s with routes := s.routes.removeRoutes routeIds })
  | .dropApp ns app =>
    match s.registry.deleteApp ns app with
    | .error _ => (none, s)
    | .ok registry => (none, { s with registry })

/-- A request on its own, from step to step. -/
def runAlone (drawn : Uuid) : (steps : Nat) → Option Pending → AppState ω → AppState ω
  | 0, _, s => s
  | _ + 1, none, s => s
  | steps + 1, some p, s =>
    runAlone drawn steps (p.advance toUppercase compile drawn s).1
      (p.advance toUppercase compile drawn s).2

end Advance

/-- The identifiers that a request has kept. -/
def ids : Pending → List Uuid
  | .record _ _ _ routeId | .rollBack routeId | .unregister _ _ routeId | .unrecord _ _ routeId =>
    [routeId]
  | .unload _ _ routeIds => routeIds
  | _ => []

/-- A request as it comes in.  The identifier that it names belongs to the app that it names. -/
def Arrives (owner : Uuid → String × String) : Pending → Prop
  | .register .. | .deleteFile .. | .deleteApp .. => True
  | .unregister ns app routeId => owner routeId = (ns, app)
  | _ => False

end Pending

/-- The stores and the requests that are not finished. -/
structure AdminRace (ω : Type) where
  stores : AppState ω
  pending : Multiset Pending

/-- A request comes in, or one of those that are not finished takes a step. -/
inductive RaceEvent where
  | arrive (p : Pending)
  | advance (p : Pending) (drawn : Uuid)

/-- The identifier is drawn for the app of a new route, and used nowhere yet. -/
def Pending.Draws (owner : Uuid → String × String) (r : AdminRace ω) (drawn : Uuid) :
    Pending → Prop
  | .insert ns app _ _ =>
    owner drawn = (ns, app) ∧ drawn ∉ r.stores.routes.routes.map RouteEntry.id ∧
      (∀ ns app, ∀ rec ∈ r.stores.registry.routesOf ns app, rec.id ≠ drawn) ∧
      ∀ p ∈ r.pending, drawn ∉ p.ids
  | _ => True

/-- The steps of any number of requests.  `owner` tells for which app an identifier is drawn. -/
inductive RaceStep (owner : Uuid → String × String) (toUppercase : String → String)
    (compile : Program → Option (FasmJit ω)) : AdminRace ω → RaceEvent → AdminRace ω → Prop
  | arrive (s : AppState ω) (ps : Multiset Pending) (p : Pending) (h : p.Arrives owner) :
    RaceStep owner toUppercase compile ⟨s, ps⟩ (.arrive p) ⟨s, p ::ₘ ps⟩
  | advance (s : AppState ω) (ps : Multiset Pending) (p : Pending) (drawn : Uuid)
    (h : p.Draws owner ⟨s, p ::ₘ ps⟩ drawn) :
    RaceStep owner toUppercase compile ⟨s, p ::ₘ ps⟩ (.advance p drawn)
      ⟨(p.advance toUppercase compile drawn s).2,
        (p.advance toUppercase compile drawn s).1.toList + ps⟩

/-- Stores that agree, and no request. -/
def AdminRace.Quiet (owner : Uuid → String × String) (r : AdminRace ω) : Prop :=
  Consistent r.stores ∧ r.pending = 0 ∧
    ∀ ns app, ∀ rec ∈ r.stores.registry.routesOf ns app, owner rec.id = (ns, app)

/-- A record is written only of a route that is live, or about to be unrecorded, and of a file
that is listed; an app is dropped only when the routes of its records are not live, or about to
be unregistered. -/
def RaceEvent.Safe (r : AdminRace ω) : RaceEvent → Prop
  | .advance (.record ns app body routeId) _ =>
    ∀ m, r.stores.registry.getApp ns app = some m → m.Lists body.file ∧
      ((∃ e ∈ r.stores.routes.managedRoutes, e.id = routeId) ∨
        .unrecord ns app routeId ∈ r.pending)
  | .advance (.dropApp ns app) _ =>
    ∀ rec ∈ r.stores.registry.routesOf ns app,
      (∃ e ∈ r.stores.routes.managedRoutes, e.id = rec.id) →
        .unregister ns app rec.id ∈ r.pending
  | _ => True

section Alone

variable {toUppercase : String → String} {compile : Program → Option (FasmJit ω)}

/-- Nothing is left of the request. -/
theorem Pending.runAlone_none (drawn : Uuid) (steps : Nat) (s : AppState ω) :
    runAlone toUppercase compile drawn steps none s = s := by
  cases steps with
  | zero => rfl
  | succ steps => rfl

/-- The first step of a request. -/
theorem Pending.runAlone_some {p : Pending} {drawn : Uuid} {s s' : AppState ω} {o : Option Pending}
    (h : p.advance toUppercase compile drawn s = (o, s')) (steps : Nat) :
    runAlone toUppercase compile drawn (steps + 1) (some p) s =
      runAlone toUppercase compile drawn steps o s' := by
  rw [runAlone, h]

/-- The steps of a registration, without another request between them, are the handler. -/
theorem Pending.runAlone_register (ns app : String) (body : RegisterRouteBody)
    (loaded : Except String Program) (drawn : Uuid) (s : AppState ω) :
    runAlone toUppercase compile drawn 4 (some (.register ns app body loaded)) s =
      (registerRoute toUppercase compile ns app body loaded drawn s).2 := by
  unfold registerRoute
  rw [runAlone_some rfl]
  simp only
  cases hm : s.registry.getApp ns app with
  | none => rfl
  | some m =>
    cases hlists : m.files.any fun f => f.name == body.file with
    | false => simp [hlists, runAlone_none]
    | true =>
      cases loaded with
      | error e => simp [hlists, runAlone_none]
      | ok program =>
        simp only [hlists, Bool.not_true, Bool.false_eq_true, if_false]
        rw [runAlone_some rfl]
        simp only
        cases hadd : s.routes.addRouteDyn toUppercase compile body.method body.path body.function
            program drawn with
        | error e => exact runAlone_none drawn 2 s
        | ok routes =>
          rw [runAlone_some rfl]
          simp only
          cases s.registry.addRouteRecord ns app (body.record toUppercase drawn) with
          | error e => rfl
          | ok registry => rfl

/-- So are those of a request that unregisters a route. -/
theorem Pending.runAlone_unregister (ns app : String) (routeId drawn : Uuid) (s : AppState ω) :
    runAlone toUppercase compile drawn 2 (some (.unregister ns app routeId)) s =
      (unregisterRoute ns app routeId s).2 := by
  unfold unregisterRoute
  rw [runAlone_some rfl]
  simp only
  rcases s.routes.removeRoute routeId with ⟨removed, routes⟩
  cases removed with
  | false => rfl
  | true =>
    show runAlone toUppercase compile drawn 1 (some (.unrecord ns app routeId))
      { s with routes } = _
    rw [runAlone_some rfl]
    simp only
    cases s.registry.removeRouteRecord ns app routeId with
    | error e => rfl
    | ok registry => rfl

/-- And those of a request that deletes an app. -/
theorem Pending.runAlone_deleteApp (ns app : String) (drawn : Uuid) (s : AppState ω) :
    runAlone toUppercase compile drawn 3 (some (.deleteApp ns app)) s =
      (Fasm.deleteApp ns app s).2 := by
  unfold Fasm.deleteApp
  rw [runAlone_some rfl]
  simp only
  cases s.registry.getApp ns app with
  | none => rfl
  | some m =>
    show runAlone toUppercase compile drawn 1 (some (.dropApp ns app))
      { s with routes := s.routes.removeRoutes (m.routes.map RouteRecord.id) } = _
    rw [runAlone_some rfl]
    simp only
    cases s.registry.deleteApp ns app with
    | error e => rfl
    | ok registry => rfl

end Alone

/-! ## What the unfinished requests will settle -/

namespace Pending

section Settle

variable (toUppercase : String → String)

/-- The request will write the record of a live route, or remove the route. -/
def Concludes (e : RouteEntry ω) : Pending → Prop
  | .record _ _ body routeId => (body.record toUppercase routeId).Describes e
  | .rollBack routeId | .unregister _ _ routeId => routeId = e.id
  | _ => False

/-- The request will remove a record of an app. -/
def Clears (ns app : String) (id : Uuid) : Pending → Prop
  | .unrecord ns' app' routeId => (ns' = ns ∧ app' = app) ∧ routeId = id
  | .dropApp ns' app' => ns' = ns ∧ app' = app
  | _ => False

/-- What a request has kept fits the stores. -/
def Sound (owner : Uuid → String × String) (s : AppState ω) : Pending → Prop
  | .record ns app body routeId =>
    owner routeId = (ns, app) ∧ (∀ ns app, ∀ rec ∈ s.registry.routesOf ns app, rec.id ≠ routeId) ∧
      ∀ e ∈ s.routes.managedRoutes, e.id = routeId →
        (body.record toUppercase routeId).Describes e
  | .rollBack routeId => ∀ ns app, ∀ rec ∈ s.registry.routesOf ns app, rec.id ≠ routeId
  | .unregister ns app routeId => owner routeId = (ns, app)
  | .unrecord ns app routeId =>
    owner routeId = (ns, app) ∧ ∀ e ∈ s.routes.managedRoutes, e.id ≠ routeId
  | .unload ns app routeIds => ∀ id ∈ routeIds, owner id = (ns, app)
  | _ => True

end Settle

/-- The identifier that the request has drawn. -/
def own : Pending → Option Uuid
  | .record _ _ _ routeId | .rollBack routeId => some routeId
  | _ => none

theorem mem_ids_of_own {p : Pending} {id : Uuid} (h : p.own = some id) : id ∈ p.ids := by
  cases p with
  | record ns app body routeId =>
    cases h
    exact List.mem_singleton_self id
  | rollBack routeId =>
    cases h
    exact List.mem_singleton_self id
  | _ => cases h

/-- What a request has kept still fits when routes and records are taken out, or others are
added under identifiers that it does not know. -/
theorem Sound.mono {toUppercase : String → String} {owner : Uuid → String × String}
    {s s' : AppState ω} {p : Pending} (h : p.Sound toUppercase owner s)
    (hroutes : ∀ e ∈ s'.routes.managedRoutes, e.id ∈ p.ids → e ∈ s.routes.managedRoutes)
    (hrecords : ∀ ns app, ∀ rec ∈ s'.registry.routesOf ns app, p.own = some rec.id →
      rec ∈ s.registry.routesOf ns app) : p.Sound toUppercase owner s' := by
  cases p with
  | record ns app body routeId =>
    obtain ⟨howner, hunused, hlive⟩ := h
    refine ⟨howner, ?_, ?_⟩
    · rintro ns' app' rec hrec rfl
      exact hunused ns' app' rec (hrecords ns' app' rec hrec rfl) rfl
    · rintro e he rfl
      exact hlive e (hroutes e he (List.mem_singleton_self _)) rfl
  | rollBack routeId =>
    rintro ns' app' rec hrec rfl
    exact h ns' app' rec (hrecords ns' app' rec hrec rfl) rfl
  | unrecord ns app routeId =>
    refine ⟨h.1, ?_⟩
    rintro e he rfl
    exact h.2 e (hroutes e he (List.mem_singleton_self _)) rfl
  | _ => exact h

end Pending

/-- The stores agree but for what the unfinished requests will settle. -/
structure Settling (toUppercase : String → String) (owner : Uuid → String × String)
    (s : AppState ω) (ps : Multiset Pending) : Prop where
  ids : (s.routes.managedRoutes.map RouteEntry.id).Nodup
  owned : ∀ ns app, ∀ rec ∈ s.registry.routesOf ns app, owner rec.id = (ns, app)
  listed : s.registry.FilesListed
  recorded : ∀ e ∈ s.routes.managedRoutes,
    (∃ ns app, ∃ rec ∈ s.registry.routesOf ns app, rec.Describes e) ∨
      ∃ p ∈ ps, p.Concludes toUppercase e
  live : ∀ ns app, ∀ rec ∈ s.registry.routesOf ns app,
    (∃ e ∈ s.routes.managedRoutes, rec.Describes e) ∨ ∃ p ∈ ps, p.Clears ns app rec.id
  sound : ∀ p ∈ ps, p.Sound toUppercase owner s
  distinct : (ps.filterMap Pending.own).Nodup

namespace Settling

variable {toUppercase : String → String} {owner : Uuid → String × String} {s s' : AppState ω}
  {p : Pending} {ps : Multiset Pending}

/-- When no request is left, the stores agree. -/
theorem agree (h : Settling toUppercase owner s 0) : RoutesAgree s where
  recorded := by
    intro e he
    rcases h.recorded e he with hrecorded | ⟨p, hp, -⟩
    · exact hrecorded
    · exact absurd hp (Multiset.notMem_zero p)
  live := by
    intro ns app rec hrec
    rcases h.live ns app rec hrec with hlive | ⟨p, hp, -⟩
    · exact hlive
    · exact absurd hp (Multiset.notMem_zero p)
  listed := h.listed

/-- The drawn identifiers of the other requests. -/
theorem distinct_cons (h : Settling toUppercase owner s (p ::ₘ ps)) :
    (ps.filterMap Pending.own).Nodup ∧ ∀ id, p.own = some id → ∀ p' ∈ ps, p'.own ≠ some id := by
  have hnodup := h.distinct
  cases hown : p.own with
  | none =>
    rw [Multiset.filterMap_cons_none _ _ hown] at hnodup
    exact ⟨hnodup, nofun⟩
  | some id =>
    rw [Multiset.filterMap_cons_some _ _ _ hown, Multiset.nodup_cons] at hnodup
    refine ⟨hnodup.2, ?_⟩
    rintro _ ⟨⟩ p' hp' hown'
    exact hnodup.1 ((Multiset.mem_filterMap _ _).mpr ⟨p', hp', hown'⟩)

/-- A request that keeps what an earlier step of it has drawn, or nothing. -/
theorem distinct_step (h : Settling toUppercase owner s (p ::ₘ ps)) {o : Option Pending}
    (ho : ∀ q ∈ o, q.own = none ∨ q.own = p.own) :
    ((o.toList + ps : Multiset Pending).filterMap Pending.own).Nodup := by
  obtain ⟨hnodup, hother⟩ := h.distinct_cons
  cases o with
  | none => rwa [Option.toList_none, Multiset.coe_nil, zero_add]
  | some q =>
    rw [Option.toList_some, Multiset.coe_singleton, Multiset.singleton_add]
    cases hown : q.own with
    | none => rwa [Multiset.filterMap_cons_none _ _ hown]
    | some id =>
      rw [Multiset.filterMap_cons_some _ _ _ hown, Multiset.nodup_cons]
      refine ⟨?_, hnodup⟩
      intro hmem
      obtain ⟨p', hp', hown'⟩ := (Multiset.mem_filterMap _ _).mp hmem
      rcases ho q rfl with hnone | hsame
      · rw [hown] at hnone
        cases hnone
      · exact hother id (hsame.symm.trans hown) p' hp' hown'

/-- The requests after a step: what is left of one, and the others. -/
theorem mem_left {o : Option Pending} {p' : Pending} :
    p' ∈ (o.toList + ps : Multiset Pending) ↔ p' ∈ o ∨ p' ∈ ps := by
  rw [Multiset.mem_add, Multiset.mem_coe, Option.mem_toList]
  exact Iff.rfl

/-- A step that takes the routes with some identifiers out of the table, or none. -/
theorem take_out (h : Settling toUppercase owner s (p ::ₘ ps)) {g : Uuid → Prop} [DecidablePred g]
    {o : Option Pending}
    (hroutes : s'.routes.managedRoutes = s.routes.managedRoutes.filter fun e => ¬ g e.id)
    (hregistry : s'.registry = s.registry)
    (hconcludes : ∀ e ∈ s.routes.managedRoutes, ¬ g e.id → p.Concludes toUppercase e →
      ∃ q ∈ o, q.Concludes toUppercase e)
    (hclears : ∀ ns app, ∀ rec ∈ s.registry.routesOf ns app, g rec.id ∨ p.Clears ns app rec.id →
      ∃ q ∈ o, q.Clears ns app rec.id)
    (hsound : ∀ q ∈ o, q.Sound toUppercase owner s')
    (hown : ∀ q ∈ o, q.own = none ∨ q.own = p.own) :
    Settling toUppercase owner s' (o.toList + ps) := by
  refine ⟨?_, ?_, ?_, ?_, ?_, ?_, h.distinct_step hown⟩
  · rw [hroutes]
    exact h.ids.sublist (List.filter_sublist.map _)
  · rw [hregistry]
    exact h.owned
  · rw [hregistry]
    exact h.listed
  · intro e he
    rw [hroutes, List.mem_filter, decide_eq_true_eq] at he
    rw [hregistry]
    rcases h.recorded e he.1 with hrecorded | ⟨p', hp', hconclude⟩
    · exact .inl hrecorded
    · right
      rcases Multiset.mem_cons.mp hp' with rfl | hp'
      · obtain ⟨q, hq, hqe⟩ := hconcludes e he.1 he.2 hconclude
        exact ⟨q, mem_left.mpr (.inl hq), hqe⟩
      · exact ⟨p', mem_left.mpr (.inr hp'), hconclude⟩
  · intro ns app rec hrec
    rw [hregistry] at hrec
    have hleft (hgone : g rec.id ∨ p.Clears ns app rec.id) :
        ∃ p' ∈ (o.toList + ps : Multiset Pending), p'.Clears ns app rec.id := by
      obtain ⟨q, hq, hqrec⟩ := hclears ns app rec hrec hgone
      exact ⟨q, mem_left.mpr (.inl hq), hqrec⟩
    rcases h.live ns app rec hrec with ⟨e, he, hdescribes⟩ | ⟨p', hp', hclear⟩
    · by_cases hg : g rec.id
      · exact .inr (hleft (.inl hg))
      · left
        refine ⟨e, ?_, hdescribes⟩
        rw [hroutes, List.mem_filter, decide_eq_true_eq, ← hdescribes.1]
        exact ⟨he, hg⟩
    · right
      rcases Multiset.mem_cons.mp hp' with rfl | hp'
      · exact hleft (.inr hclear)
      · exact ⟨p', mem_left.mpr (.inr hp'), hclear⟩
  · intro p' hp'
    rcases mem_left.mp hp' with hp' | hp'
    · exact hsound p' hp'
    · apply (h.sound p' (Multiset.mem_cons_of_mem hp')).mono
      · intro e he _
        rw [hroutes] at he
        exact List.mem_of_mem_filter he
      · intro ns app rec hrec _
        rwa [hregistry] at hrec

/-- A step that leaves the stores alone. -/
theorem same (h : Settling toUppercase owner s (p ::ₘ ps)) {o : Option Pending}
    (hconcludes : ∀ e ∈ s.routes.managedRoutes, p.Concludes toUppercase e →
      ∃ q ∈ o, q.Concludes toUppercase e)
    (hclears : ∀ ns app, ∀ rec ∈ s.registry.routesOf ns app, p.Clears ns app rec.id →
      ∃ q ∈ o, q.Clears ns app rec.id)
    (hsound : ∀ q ∈ o, q.Sound toUppercase owner s)
    (hown : ∀ q ∈ o, q.own = none ∨ q.own = p.own) :
    Settling toUppercase owner s (o.toList + ps) := by
  apply h.take_out (g := fun _ => False)
  · simp
  · rfl
  · intro e he _
    exact hconcludes e he
  · intro ns app rec hrec hor
    exact hclears ns app rec hrec (hor.resolve_left id)
  · exact hsound
  · exact hown

/-- A request that ends without a change and would not have settled anything. -/
theorem ended (h : Settling toUppercase owner s (p ::ₘ ps))
    (hconcludes : ∀ e ∈ s.routes.managedRoutes, ¬ p.Concludes toUppercase e)
    (hclears : ∀ ns app, ∀ rec ∈ s.registry.routesOf ns app, ¬ p.Clears ns app rec.id) :
    Settling toUppercase owner s ((none : Option Pending).toList + ps) := by
  apply h.same
  · intro e he hconclude
    exact absurd hconclude (hconcludes e he)
  · intro ns app rec hrec hclear
    exact absurd hclear (hclears ns app rec hrec)
  · nofun
  · nofun

/-- A step that takes records out of the registry, and ends the request. -/
theorem edited (h : Settling toUppercase owner s (p ::ₘ ps)) (hroutes : s'.routes = s.routes)
    (hrecords : ∀ ns app, ∀ rec ∈ s'.registry.routesOf ns app, rec ∈ s.registry.routesOf ns app)
    (hlisted : s'.registry.FilesListed)
    (hconcludes : ∀ e ∈ s.routes.managedRoutes, ¬ p.Concludes toUppercase e)
    (hlost : ∀ ns app, ∀ rec ∈ s.registry.routesOf ns app, ∀ e ∈ s.routes.managedRoutes,
      rec.Describes e → rec ∈ s'.registry.routesOf ns app ∨ ∃ p' ∈ ps, p'.Concludes toUppercase e)
    (hclears : ∀ ns app, ∀ rec ∈ s'.registry.routesOf ns app, ¬ p.Clears ns app rec.id) :
    Settling toUppercase owner s' ((none : Option Pending).toList + ps) := by
  refine ⟨?_, ?_, hlisted, ?_, ?_, ?_, h.distinct_step nofun⟩
  · rw [hroutes]
    exact h.ids
  · intro ns app rec hrec
    exact h.owned ns app rec (hrecords ns app rec hrec)
  · intro e he
    rw [hroutes] at he
    rcases h.recorded e he with ⟨ns, app, rec, hrec, hdescribes⟩ | ⟨p', hp', hconclude⟩
    · rcases hlost ns app rec hrec e he hdescribes with hkept | ⟨p', hp', hconclude⟩
      · exact .inl ⟨ns, app, rec, hkept, hdescribes⟩
      · exact .inr ⟨p', mem_left.mpr (.inr hp'), hconclude⟩
    · rcases Multiset.mem_cons.mp hp' with rfl | hp'
      · exact absurd hconclude (hconcludes e he)
      · exact .inr ⟨p', mem_left.mpr (.inr hp'), hconclude⟩
  · intro ns app rec hrec
    rw [hroutes]
    rcases h.live ns app rec (hrecords ns app rec hrec) with hlive | ⟨p', hp', hclear⟩
    · exact .inl hlive
    · rcases Multiset.mem_cons.mp hp' with rfl | hp'
      · exact absurd hclear (hclears ns app rec hrec)
      · exact .inr ⟨p', mem_left.mpr (.inr hp'), hclear⟩
  · intro p' hp'
    have hp' := (mem_left.mp hp').resolve_left nofun
    apply (h.sound p' (Multiset.mem_cons_of_mem hp')).mono
    · intro e he _
      rwa [hroutes] at he
    · intro ns app rec hrec _
      exact hrecords ns app rec hrec

/-- A route goes into the table under a new identifier, and its record is still to be written. -/
theorem inserted {ns app : String} {body : RegisterRouteBody} {program : Program} {drawn : Uuid}
    {e : RouteEntry ω} (h : Settling toUppercase owner s (.insert ns app body program ::ₘ ps))
    (hdraws : (Pending.insert ns app body program).Draws owner
      ⟨s, .insert ns app body program ::ₘ ps⟩ drawn)
    (hroutes : s'.routes.routes = s.routes.routes ++ [e]) (hmanaged : e.managed = true)
    (hdescribes : (body.record toUppercase drawn).Describes e)
    (hregistry : s'.registry = s.registry) :
    Settling toUppercase owner s'
      ((some (Pending.record ns app body drawn)).toList + ps) := by
  obtain ⟨howner, hnew, hunused, hunknown⟩ := hdraws
  have hlive := RouteTable.managedRoutes_concat hroutes hmanaged
  have hid : e.id = drawn := hdescribes.1.symm
  have hnew' : ∀ e' ∈ s.routes.managedRoutes, e'.id ≠ drawn := by
    rintro e' he' rfl
    exact hnew (List.mem_map_of_mem (List.mem_of_mem_filter he'))
  refine ⟨?_, ?_, ?_, ?_, ?_, ?_, ?_⟩
  · rw [hlive]
    apply RouteTable.nodup_ids_concat h.ids
    rw [hid]
    exact hnew'
  · rw [hregistry]
    exact h.owned
  · rw [hregistry]
    exact h.listed
  · intro e' he'
    rw [hlive, List.mem_append, List.mem_singleton] at he'
    rw [hregistry]
    rcases he' with he' | rfl
    · rcases h.recorded e' he' with hrecorded | ⟨p', hp', hconclude⟩
      · exact .inl hrecorded
      · rcases Multiset.mem_cons.mp hp' with rfl | hp'
        · exact hconclude.elim
        · exact .inr ⟨p', mem_left.mpr (.inr hp'), hconclude⟩
    · exact .inr ⟨_, mem_left.mpr (.inl rfl), hdescribes⟩
  · intro ns' app' rec hrec
    rw [hregistry] at hrec
    rcases h.live ns' app' rec hrec with ⟨e', he', hrec'⟩ | ⟨p', hp', hclear⟩
    · refine .inl ⟨e', ?_, hrec'⟩
      rw [hlive]
      exact List.mem_append_left _ he'
    · rcases Multiset.mem_cons.mp hp' with rfl | hp'
      · exact hclear.elim
      · exact .inr ⟨p', mem_left.mpr (.inr hp'), hclear⟩
  · intro p' hp'
    rcases mem_left.mp hp' with hq | hp'
    · cases hq
      refine ⟨howner, ?_, ?_⟩
      · rw [hregistry]
        exact hunused
      · intro e' he' hid'
        rw [hlive, List.mem_append, List.mem_singleton] at he'
        rcases he' with he' | rfl
        · exact absurd hid' (hnew' e' he')
        · exact hdescribes
    · apply (h.sound p' (Multiset.mem_cons_of_mem hp')).mono
      · intro e' he' hknown
        rw [hlive, List.mem_append, List.mem_singleton] at he'
        rcases he' with he' | rfl
        · exact he'
        · rw [hid] at hknown
          exact absurd hknown (hunknown p' (Multiset.mem_cons_of_mem hp'))
      · intro ns' app' rec hrec _
        rwa [hregistry] at hrec
  · have hown : (Pending.record ns app body drawn).own = some drawn := rfl
    rw [Option.toList_some, Multiset.coe_singleton, Multiset.singleton_add,
      Multiset.filterMap_cons_some _ _ _ hown, Multiset.nodup_cons]
    refine ⟨?_, h.distinct_cons.1⟩
    intro hmem
    obtain ⟨p', hp', hown⟩ := (Multiset.mem_filterMap _ _).mp hmem
    exact hunknown p' (Multiset.mem_cons_of_mem hp') (Pending.mem_ids_of_own hown)

/-- The record of a route is written. -/
theorem written {ns app : String} {body : RegisterRouteBody} {routeId : Uuid} {m : AppManifest}
    (h : Settling toUppercase owner s (.record ns app body routeId ::ₘ ps))
    (hroutes : s'.routes = s.routes) (hm : s.registry.getApp ns app = some m)
    (hedits : RegistryInner.Edits s.registry s'.registry ns app
      (some (m.withRoute (body.record toUppercase routeId))))
    (hlists : m.Lists body.file)
    (hlive : (∃ e ∈ s.routes.managedRoutes, e.id = routeId) ∨ .unrecord ns app routeId ∈ ps) :
    Settling toUppercase owner s' ((none : Option Pending).toList + ps) := by
  obtain ⟨howner, hunused, hdescribes⟩ := h.sound _ (Multiset.mem_cons_self _ ps)
  have hrecords := hedits.mem_routesOf_withRoute hm
  refine ⟨?_, ?_, h.listed.withRoute hm hedits hlists, ?_, ?_, ?_, h.distinct_step nofun⟩
  · rw [hroutes]
    exact h.ids
  · intro ns' app' rec hrec
    rcases (hrecords ns' app' rec).mp hrec with hrec | ⟨⟨rfl, rfl⟩, rfl⟩
    · exact h.owned ns' app' rec hrec
    · exact howner
  · intro e he
    rw [hroutes] at he
    rcases h.recorded e he with ⟨ns', app', rec, hrec, hdescribes'⟩ | ⟨p', hp', hconclude⟩
    · exact .inl ⟨ns', app', rec, (hrecords _ _ _).mpr (.inl hrec), hdescribes'⟩
    · rcases Multiset.mem_cons.mp hp' with rfl | hp'
      · exact .inl ⟨ns, app, _, (hrecords _ _ _).mpr (.inr ⟨⟨rfl, rfl⟩, rfl⟩), hconclude⟩
      · exact .inr ⟨p', mem_left.mpr (.inr hp'), hconclude⟩
  · intro ns' app' rec hrec
    rw [hroutes]
    rcases (hrecords ns' app' rec).mp hrec with hrec | ⟨⟨rfl, rfl⟩, rfl⟩
    · rcases h.live ns' app' rec hrec with hlive' | ⟨p', hp', hclear⟩
      · exact .inl hlive'
      · rcases Multiset.mem_cons.mp hp' with rfl | hp'
        · exact hclear.elim
        · exact .inr ⟨p', mem_left.mpr (.inr hp'), hclear⟩
    · rcases hlive with ⟨e, he, hid⟩ | hunrecord
      · exact .inl ⟨e, he, hdescribes e he hid⟩
      · exact .inr ⟨_, mem_left.mpr (.inr hunrecord), ⟨rfl, rfl⟩, rfl⟩
  · intro p' hp'
    have hp' := (mem_left.mp hp').resolve_left nofun
    apply (h.sound p' (Multiset.mem_cons_of_mem hp')).mono
    · intro e he _
      rwa [hroutes] at he
    · intro ns' app' rec hrec hown
      rcases (hrecords ns' app' rec).mp hrec with hrec | ⟨-, rfl⟩
      · exact hrec
      · exact absurd hown (h.distinct_cons.2 routeId rfl p' hp')

section Advance

variable {compile : Program → Option (FasmJit ω)} {drawn : Uuid}

variable (toUppercase owner compile drawn s p ps) in
/-- The stores settle after a step of the request, with what is left of it. -/
def SettlesAfter : Prop :=
  Settling toUppercase owner (p.advance toUppercase compile drawn s).2
    ((p.advance toUppercase compile drawn s).1.toList + ps)

/-- A registration that passes its checks goes on, and another one ends. -/
theorem advance_register {ns app : String} {body : RegisterRouteBody}
    {loaded : Except String Program}
    (h : Settling toUppercase owner s (.register ns app body loaded ::ₘ ps)) :
    SettlesAfter toUppercase owner s (.register ns app body loaded) ps compile drawn := by
  unfold SettlesAfter
  have hended := h.ended (fun _ _ => id) fun _ _ _ _ => id
  simp only [Pending.advance]
  cases s.registry.getApp ns app with
  | none => exact hended
  | some m =>
    cases hlists : m.files.any fun f => f.name == body.file with
    | false =>
      simp only [hlists, Bool.not_false, if_true]
      exact hended
    | true =>
      simp only [hlists, Bool.not_true, Bool.false_eq_true, if_false]
      cases loaded with
      | error e => exact hended
      | ok program =>
        apply h.same
        · exact fun _ _ => False.elim
        · exact fun _ _ _ _ => False.elim
        · rintro q ⟨⟩
          trivial
        · rintro q ⟨⟩
          exact .inl rfl

/-- A registration puts its route into the table. -/
theorem advance_insert {ns app : String} {body : RegisterRouteBody} {program : Program}
    (h : Settling toUppercase owner s (.insert ns app body program ::ₘ ps))
    (hdraws : (Pending.insert ns app body program).Draws owner
      ⟨s, .insert ns app body program ::ₘ ps⟩ drawn) :
    SettlesAfter toUppercase owner s (.insert ns app body program) ps compile drawn := by
  unfold SettlesAfter
  simp only [Pending.advance]
  cases hadd : s.routes.addRouteDyn toUppercase compile body.method body.path body.function
      program drawn with
  | error e => exact h.ended (fun _ _ => id) fun _ _ _ _ => id
  | ok routes =>
    exact h.inserted hdraws (RouteTable.addRouteDyn_appends hadd) rfl ⟨rfl, rfl, rfl, rfl⟩ rfl

/-- A registration writes the record of its route, or has to take the route out again. -/
theorem advance_record {ns app : String} {body : RegisterRouteBody} {routeId : Uuid}
    (h : Settling toUppercase owner s (.record ns app body routeId ::ₘ ps))
    (hsafe : (RaceEvent.advance (.record ns app body routeId) drawn).Safe
      (⟨s, .record ns app body routeId ::ₘ ps⟩ : AdminRace ω)) :
    SettlesAfter toUppercase owner s (.record ns app body routeId) ps compile drawn := by
  unfold SettlesAfter
  have hsound := h.sound _ (Multiset.mem_cons_self _ ps)
  simp only [Pending.advance, RegistryInner.addRouteRecord]
  cases hadd : s.registry.editApp ns app
      (fun m => .ok (m.withRoute (body.record toUppercase routeId))) with
  | error e =>
    apply h.same
    · intro e he hdescribes
      exact ⟨_, rfl, hdescribes.1⟩
    · exact fun _ _ _ _ => False.elim
    · rintro q ⟨⟩
      exact hsound.2.1
    · rintro q ⟨⟩
      exact .inr rfl
  | ok registry =>
    obtain ⟨m, m', hm, hedit, hedits⟩ := RegistryInner.editApp_eq_ok hadd
    cases hedit
    obtain ⟨hlists, hlive⟩ := hsafe m hm
    refine h.written rfl hm hedits hlists (hlive.imp_right ?_)
    intro hunrecord
    exact (Multiset.mem_cons.mp hunrecord).resolve_left (by rintro ⟨⟩)

/-- A registration takes out the route that it could not record. -/
theorem advance_rollBack {routeId : Uuid}
    (h : Settling toUppercase owner s (.rollBack routeId ::ₘ ps)) :
    SettlesAfter toUppercase owner s (.rollBack routeId) ps compile drawn := by
  unfold SettlesAfter
  have hsound := h.sound _ (Multiset.mem_cons_self _ ps)
  apply h.take_out (g := fun id => id = routeId)
  · show (s.routes.removeRoute routeId).2.managedRoutes = _
    exact RouteTable.managedRoutes_removeRoute h.ids routeId
  · rfl
  · intro e he hne heq
    exact absurd heq.symm hne
  · rintro ns app rec hrec (heq | hclear)
    · exact absurd heq (hsound ns app rec hrec)
    · exact hclear.elim
  · rintro _ ⟨⟩
  · rintro _ ⟨⟩

/-- A removal takes the route out of the table. -/
theorem advance_unregister {ns app : String} {routeId : Uuid}
    (h : Settling toUppercase owner s (.unregister ns app routeId ::ₘ ps)) :
    SettlesAfter toUppercase owner s (.unregister ns app routeId) ps compile drawn := by
  unfold SettlesAfter
  have hsound := h.sound _ (Multiset.mem_cons_self _ ps)
  simp only [Pending.advance]
  rcases hremove : s.routes.removeRoute routeId with ⟨removed, routes⟩
  have hfst := RouteTable.removeRoute_fst s.routes routeId
  have hmanaged := RouteTable.managedRoutes_removeRoute h.ids routeId
  rw [hremove] at hfst hmanaged
  cases removed with
  | false =>
    apply h.ended
    · intro e he heq
      exact Bool.false_ne_true (hfst.mpr ⟨e, he, heq.symm⟩)
    · exact fun _ _ _ _ => id
  | true =>
    apply h.take_out (g := fun id => id = routeId)
    · exact hmanaged
    · rfl
    · intro e he hne heq
      exact absurd heq.symm hne
    · rintro ns' app' rec hrec (heq | hclear)
      · refine ⟨_, rfl, ?_, heq.symm⟩
        have howned := h.owned ns' app' rec hrec
        rw [heq, hsound] at howned
        exact Prod.mk.inj howned
      · exact hclear.elim
    · rintro q ⟨⟩
      refine ⟨hsound, ?_⟩
      intro e he
      change e ∈ routes.managedRoutes at he
      rw [hmanaged, List.mem_filter, decide_eq_true_eq] at he
      exact he.2
    · rintro q ⟨⟩
      exact .inl rfl

/-- A removal takes out the record of a route that is gone. -/
theorem advance_unrecord {ns app : String} {routeId : Uuid}
    (h : Settling toUppercase owner s (.unrecord ns app routeId ::ₘ ps)) :
    SettlesAfter toUppercase owner s (.unrecord ns app routeId) ps compile drawn := by
  unfold SettlesAfter
  have hsound := h.sound _ (Multiset.mem_cons_self _ ps)
  simp only [Pending.advance, RegistryInner.removeRouteRecord]
  cases hremove : s.registry.editApp ns app (fun m => .ok (m.withoutRoute routeId)) with
  | error e =>
    apply h.ended
    · exact fun _ _ => id
    · rintro ns' app' rec hrec ⟨⟨rfl, rfl⟩, -⟩
      obtain ⟨m, hm, -⟩ := RegistryInner.getApp_of_routesOf hrec
      obtain ⟨r', hr'⟩ := RegistryInner.editApp_of_getApp hm
        (f := fun m => .ok (m.withoutRoute routeId)) rfl
      rw [hremove] at hr'
      cases hr'
  | ok registry =>
    obtain ⟨m, m', hm, hedit, hedits⟩ := RegistryInner.editApp_eq_ok hremove
    cases hedit
    have hrecords := hedits.mem_routesOf_withoutRoute hm
    apply h.edited
    · rfl
    · intro ns' app' rec hrec
      exact ((hrecords ns' app' rec).mp hrec).1
    · exact h.listed.withoutRoute hm hedits
    · exact fun _ _ => id
    · intro ns' app' rec hrec e he hdescribes
      refine .inl ((hrecords ns' app' rec).mpr ⟨hrec, ?_⟩)
      intro _
      rw [hdescribes.1]
      exact hsound.2 e he
    · rintro ns' app' rec hrec ⟨⟨rfl, rfl⟩, heq⟩
      exact ((hrecords ns app rec).mp hrec).2 ⟨rfl, rfl⟩ heq.symm

/-- A deletion takes a file out of its app. -/
theorem advance_deleteFile {ns app : String} {filename : String}
    (h : Settling toUppercase owner s (.deleteFile ns app filename ::ₘ ps)) :
    SettlesAfter toUppercase owner s (.deleteFile ns app filename) ps compile drawn := by
  unfold SettlesAfter
  simp only [Pending.advance, RegistryInner.deleteFile]
  cases hdelete : s.registry.editApp ns app (fun m => m.withoutFile filename) with
  | error e => exact h.ended (fun _ _ => id) fun _ _ _ _ => id
  | ok registry =>
    obtain ⟨m, m', hm, hedit, hedits⟩ := RegistryInner.editApp_eq_ok hdelete
    obtain ⟨hsame, hlists⟩ := AppManifest.lists_withoutFile hedit
    have hrecords := hedits.routesOf_eq (by rw [RegistryInner.routesOf_of_getApp hm]; exact hsame)
    apply h.edited
    · rfl
    · intro ns' app' rec hrec
      rwa [← hrecords]
    · apply h.listed.edits hedits
      rintro _ ⟨⟩ rec hrec
      rw [hsame] at hrec
      exact hlists rec hrec (h.listed ns app m hm rec hrec)
    · exact fun _ _ => id
    · intro ns' app' rec hrec e he _
      left
      show rec ∈ registry.routesOf ns' app'
      rwa [hrecords]
    · exact fun _ _ _ _ => id

/-- The deletion of an app reads the records of its routes. -/
theorem advance_deleteApp {ns app : String}
    (h : Settling toUppercase owner s (.deleteApp ns app ::ₘ ps)) :
    SettlesAfter toUppercase owner s (.deleteApp ns app) ps compile drawn := by
  unfold SettlesAfter
  simp only [Pending.advance]
  cases hm : s.registry.getApp ns app with
  | none => exact h.ended (fun _ _ => id) fun _ _ _ _ => id
  | some m =>
    apply h.same
    · exact fun _ _ => False.elim
    · exact fun _ _ _ _ => False.elim
    · rintro q ⟨⟩ id hid
      obtain ⟨rec, hrec, rfl⟩ := List.mem_map.mp hid
      rw [← RegistryInner.routesOf_of_getApp hm] at hrec
      exact h.owned ns app rec hrec
    · rintro q ⟨⟩
      exact .inl rfl

/-- The deletion of an app takes its routes out of the table. -/
theorem advance_unload {ns app : String} {routeIds : List Uuid}
    (h : Settling toUppercase owner s (.unload ns app routeIds ::ₘ ps)) :
    SettlesAfter toUppercase owner s (.unload ns app routeIds) ps compile drawn := by
  unfold SettlesAfter
  have hsound := h.sound _ (Multiset.mem_cons_self _ ps)
  apply h.take_out (g := fun id => id ∈ routeIds)
  · exact RouteTable.managedRoutes_removeRoutes routeIds h.ids
  · rfl
  · exact fun _ _ _ => False.elim
  · rintro ns' app' rec hrec (hmem | hclear)
    · refine ⟨_, rfl, ?_⟩
      have howned := h.owned ns' app' rec hrec
      rw [hsound rec.id hmem] at howned
      exact Prod.mk.inj howned
    · exact hclear.elim
  · rintro q ⟨⟩
    trivial
  · rintro q ⟨⟩
    exact .inl rfl

/-- The deletion of an app takes the app out of the registry. -/
theorem advance_dropApp {ns app : String}
    (h : Settling toUppercase owner s (.dropApp ns app ::ₘ ps))
    (hsafe : (RaceEvent.advance (.dropApp ns app) drawn).Safe
      (⟨s, .dropApp ns app ::ₘ ps⟩ : AdminRace ω)) :
    SettlesAfter toUppercase owner s (.dropApp ns app) ps compile drawn := by
  unfold SettlesAfter
  simp only [Pending.advance]
  cases hdelete : s.registry.deleteApp ns app with
  | error e =>
    apply h.ended
    · exact fun _ _ => id
    · rintro ns' app' rec hrec ⟨rfl, rfl⟩
      obtain ⟨m, hm, -⟩ := RegistryInner.getApp_of_routesOf hrec
      obtain ⟨r', hr'⟩ := RegistryInner.deleteApp_of_getApp hm
      rw [hdelete] at hr'
      cases hr'
  | ok registry =>
    obtain ⟨-, hedits⟩ := RegistryInner.deleteApp_eq_ok hdelete
    have hhere : registry.routesOf ns app = [] := hedits.routesOf_here
    apply h.edited
    · rfl
    · intro ns' app' rec hrec
      by_cases heq : ns' = ns ∧ app' = app
      · obtain ⟨rfl, rfl⟩ := heq
        exact absurd (hhere ▸ hrec) List.not_mem_nil
      · rwa [← hedits.routesOf_others heq]
    · apply h.listed.edits hedits
      rintro _ ⟨⟩
    · exact fun _ _ => id
    · intro ns' app' rec hrec e he hdescribes
      by_cases heq : ns' = ns ∧ app' = app
      · obtain ⟨rfl, rfl⟩ := heq
        right
        have hpending := hsafe rec hrec ⟨e, he, hdescribes.1.symm⟩
        exact ⟨_, (Multiset.mem_cons.mp hpending).resolve_left (by rintro ⟨⟩), hdescribes.1⟩
      · left
        show rec ∈ registry.routesOf ns' app'
        rwa [hedits.routesOf_others heq]
    · rintro ns' app' rec hrec ⟨rfl, rfl⟩
      exact absurd (hhere ▸ hrec) List.not_mem_nil

/-- One step of a request that is safe to take. -/
theorem advance (h : Settling toUppercase owner s (p ::ₘ ps))
    (hdraws : p.Draws owner ⟨s, p ::ₘ ps⟩ drawn)
    (hsafe : (RaceEvent.advance p drawn).Safe (⟨s, p ::ₘ ps⟩ : AdminRace ω)) :
    SettlesAfter toUppercase owner s p ps compile drawn := by
  cases p with
  | register => exact advance_register h
  | insert => exact advance_insert h hdraws
  | record => exact advance_record h hsafe
  | rollBack => exact advance_rollBack h
  | unregister => exact advance_unregister h
  | unrecord => exact advance_unrecord h
  | deleteFile => exact advance_deleteFile h
  | deleteApp => exact advance_deleteApp h
  | unload => exact advance_unload h
  | dropApp => exact advance_dropApp h hsafe

end Advance

/-- Every step of a race that is safe to take. -/
theorem step {compile : Program → Option (FasmJit ω)} {r r' : AdminRace ω} {ev : RaceEvent}
    (h : Settling toUppercase owner r.stores r.pending)
    (hstep : RaceStep owner toUppercase compile r ev r') (hsafe : ev.Safe r) :
    Settling toUppercase owner r'.stores r'.pending := by
  cases hstep with
  | advance s ps p drawn hdraws => exact h.advance hdraws hsafe
  | arrive s ps p harrives =>
    refine ⟨h.ids, h.owned, h.listed, ?_, ?_, ?_, ?_⟩
    · intro e he
      rcases h.recorded e he with hrecorded | ⟨p', hp', hconclude⟩
      · exact .inl hrecorded
      · exact .inr ⟨p', Multiset.mem_cons_of_mem hp', hconclude⟩
    · intro ns app rec hrec
      rcases h.live ns app rec hrec with hlive | ⟨p', hp', hclear⟩
      · exact .inl hlive
      · exact .inr ⟨p', Multiset.mem_cons_of_mem hp', hclear⟩
    · intro p' hp'
      rcases Multiset.mem_cons.mp hp' with rfl | hp'
      · cases p' with
        | unregister ns app routeId => exact harrives
        | register => trivial
        | deleteFile => trivial
        | deleteApp => trivial
        | _ => exact harrives.elim
      · exact h.sound p' hp'
    · have hown : p.own = none := by
        cases p with
        | record => exact harrives.elim
        | rollBack => exact harrives.elim
        | _ => rfl
      rw [Multiset.filterMap_cons_none _ _ hown]
      exact h.distinct

end Settling

/-- Quiet stores have nothing to settle. -/
theorem AdminRace.Quiet.settling {toUppercase : String → String} {owner : Uuid → String × String}
    {r : AdminRace ω} (h : r.Quiet owner) : Settling toUppercase owner r.stores r.pending := by
  obtain ⟨hconsistent, hnone, howned⟩ := h
  rw [hnone]
  refine ⟨hconsistent.ids, howned, hconsistent.agree.listed, ?_, ?_, ?_, Multiset.nodup_zero⟩
  · intro e he
    exact .inl (hconsistent.agree.recorded e he)
  · intro ns app rec hrec
    exact .inl (hconsistent.agree.live ns app rec hrec)
  · intro p hp
    exact absurd hp (Multiset.notMem_zero p)

/-- When all the requests of a race have finished, and its steps were safe to take, every
managed route has a record in an app that lists its file, and every record is live. -/
theorem races_leave_agreement {toUppercase : String → String}
    {compile : Program → Option (FasmJit ω)} {owner : Uuid → String × String}
    {σ : Nat → AdminRace ω} {ev : Nat → RaceEvent} {n : Nat}
    (h : IsTrace (AdminRace.Quiet owner) (RaceStep owner toUppercase compile) σ ev n)
    (hsafe : ∀ i < n, (ev i).Safe (σ i)) (hfinished : (σ n).pending = 0) :
    RoutesAgree (σ n).stores := by
  have hsettling : Settling toUppercase owner (σ n).stores (σ n).pending := by
    apply h.invariant_of (P := fun r => Settling toUppercase owner r.stores r.pending)
      (C := fun r ev => ev.Safe r)
    · intro r hr
      exact hr.settling
    · intro r ev r' hstep hev hr
      exact hr.step hstep hev
    · exact hsafe
  rw [hfinished] at hsettling
  exact hsettling.agree

section Example

/-- A route of the app that `shopRun` creates. -/
def raceBody : RegisterRouteBody := ⟨"GET", "/a", "Main", "a.fasm"⟩

/-- The live route that a registration makes of it. -/
def raceEntry : RouteEntry Unit :=
  ⟨"u1", "GET", parsePath "/a", "Main", ⟨1, [], []⟩, none, true⟩

/-- The table with the route, before its record is written. -/
def raceInserted : AppState Unit := { shopRun 3 with routes := ⟨[raceEntry]⟩ }

theorem shopRun_quiet :
    AdminRace.Quiet (fun _ => ("shop", "cart")) (⟨shopRun 3, 0⟩ : AdminRace Unit) := by
  refine ⟨shopRun_consistent, rfl, ?_⟩
  intro ns app rec hrec
  exact absurd hrec (shopRun_noRecords ns app rec)

theorem shopRun_draws (ps : Multiset Pending) (h : ∀ p ∈ ps, p.ids = []) :
    (Pending.insert "shop" "cart" raceBody ⟨1, [], []⟩).Draws (fun _ => ("shop", "cart"))
      (⟨shopRun 3, .insert "shop" "cart" raceBody ⟨1, [], []⟩ ::ₘ ps⟩ : AdminRace Unit) "u1" := by
  refine ⟨rfl, List.not_mem_nil, shopRun_fresh.2, ?_⟩
  intro p hp
  rcases Multiset.mem_cons.mp hp with rfl | hp
  · exact List.not_mem_nil
  · rw [h p hp]
    exact List.not_mem_nil

/-- A registration that meets no other request. -/
def calmRun : Nat → AdminRace Unit
  | 0 => ⟨shopRun 3, 0⟩
  | 1 => ⟨shopRun 3, .register "shop" "cart" raceBody (.ok ⟨1, [], []⟩) ::ₘ 0⟩
  | 2 => ⟨shopRun 3, .insert "shop" "cart" raceBody ⟨1, [], []⟩ ::ₘ 0⟩
  | 3 => ⟨raceInserted, .record "shop" "cart" raceBody "u1" ::ₘ 0⟩
  | _ => ⟨shopRun 4, 0⟩

/-- The events of `calmRun`. -/
def calmEvents : Nat → RaceEvent
  | 0 => .arrive (.register "shop" "cart" raceBody (.ok ⟨1, [], []⟩))
  | 1 => .advance (.register "shop" "cart" raceBody (.ok ⟨1, [], []⟩)) "u1"
  | 2 => .advance (.insert "shop" "cart" raceBody ⟨1, [], []⟩) "u1"
  | _ => .advance (.record "shop" "cart" raceBody "u1") "u1"

theorem races_leave_agreement_calm : RoutesAgree (calmRun 4).stores := by
  refine @races_leave_agreement _ id (fun _ => none) (fun _ => ("shop", "cart")) calmRun
    calmEvents 4 ?_ ?_ ?_
  · refine ⟨shopRun_quiet, ?_⟩
    intro i hi
    match i, hi with
    | 0, _ => exact .arrive _ _ _ trivial
    | 1, _ => exact .advance _ _ _ _ trivial
    | 2, _ => exact .advance _ _ _ _ (shopRun_draws 0 nofun)
    | 3, _ => exact .advance _ _ _ _ trivial
  · intro i hi
    match i, hi with
    | 0, _ => trivial
    | 1, _ => trivial
    | 2, _ => trivial
    | 3, _ =>
      rintro m ⟨⟩
      exact ⟨⟨_, List.mem_singleton_self _, rfl⟩, .inl ⟨_, List.mem_singleton_self _, rfl⟩⟩
  · rfl

/-- A registration whose app is deleted between its look at the manifest and its record. -/
def raceRun : Nat → AdminRace Unit
  | 0 => ⟨shopRun 3, 0⟩
  | 1 => ⟨shopRun 3, .register "shop" "cart" raceBody (.ok ⟨1, [], []⟩) ::ₘ 0⟩
  | 2 => ⟨shopRun 3, .insert "shop" "cart" raceBody ⟨1, [], []⟩ ::ₘ 0⟩
  | 3 =>
    ⟨shopRun 3, .deleteApp "shop" "cart" ::ₘ .insert "shop" "cart" raceBody ⟨1, [], []⟩ ::ₘ 0⟩
  | 4 =>
    ⟨shopRun 3, .unload "shop" "cart" [] ::ₘ .insert "shop" "cart" raceBody ⟨1, [], []⟩ ::ₘ 0⟩
  | 5 =>
    ⟨shopRun 3, .insert "shop" "cart" raceBody ⟨1, [], []⟩ ::ₘ .dropApp "shop" "cart" ::ₘ 0⟩
  | 6 => ⟨raceInserted, .record "shop" "cart" raceBody "u1" ::ₘ .dropApp "shop" "cart" ::ₘ 0⟩
  | 7 => ⟨shopRun 4, .dropApp "shop" "cart" ::ₘ 0⟩
  | _ => ⟨⟨⟨Finmap.insert "shop" ∅ ∅⟩, ⟨[raceEntry]⟩⟩, 0⟩

/-- The events of `raceRun`. -/
def raceEvents : Nat → RaceEvent
  | 0 => .arrive (.register "shop" "cart" raceBody (.ok ⟨1, [], []⟩))
  | 1 => .advance (.register "shop" "cart" raceBody (.ok ⟨1, [], []⟩)) "u1"
  | 2 => .arrive (.deleteApp "shop" "cart")
  | 3 => .advance (.deleteApp "shop" "cart") "u1"
  | 4 => .advance (.unload "shop" "cart" []) "u1"
  | 5 => .advance (.insert "shop" "cart" raceBody ⟨1, [], []⟩) "u1"
  | 6 => .advance (.record "shop" "cart" raceBody "u1") "u1"
  | _ => .advance (.dropApp "shop" "cart") "u1"

theorem raceRun_trace :
    IsTrace (AdminRace.Quiet fun _ => ("shop", "cart"))
      (RaceStep (fun _ => ("shop", "cart")) id fun _ => none) raceRun raceEvents 8 where
  init := shopRun_quiet
  step := by
    intro i hi
    match i, hi with
    | 0, _ => exact .arrive _ _ _ trivial
    | 1, _ => exact .advance _ _ _ _ trivial
    | 2, _ => exact .arrive _ _ _ trivial
    | 3, _ => exact .advance _ _ _ _ trivial
    | 4, _ =>
      show RaceStep _ _ _ _ _ ⟨shopRun 3, _ ::ₘ _ ::ₘ 0⟩
      rw [Multiset.cons_swap]
      exact .advance _ _ _ _ trivial
    | 5, _ =>
      refine .advance _ _ _ _ (shopRun_draws _ ?_)
      intro p hp
      rw [Multiset.cons_zero, Multiset.mem_singleton] at hp
      rw [hp]
      rfl
    | 6, _ => exact .advance _ _ _ _ trivial
    | 7, _ => exact .advance _ _ _ _ trivial

/-- Both requests have finished: the app is gone, and its route is live. -/
theorem race_leaves_orphan :
    IsTrace (AdminRace.Quiet fun _ => ("shop", "cart"))
      (RaceStep (fun _ => ("shop", "cart")) id fun _ => none) raceRun raceEvents 8 ∧
    (raceRun 8).pending = 0 ∧ (raceRun 8).stores.routes.managedRoutes = [raceEntry] ∧
    (∀ ns app, (raceRun 8).stores.registry.getApp ns app = none) ∧
    ¬ RoutesAgree (raceRun 8).stores := by
  have hnone (ns app : String) : (raceRun 8).stores.registry.getApp ns app = none := by
    show (Finmap.lookup ns (Finmap.insert "shop" ∅ ∅)).bind _ = none
    by_cases hns : ns = "shop"
    · rw [hns, Finmap.lookup_insert]
      exact Finmap.lookup_empty app
    · rw [Finmap.lookup_insert_of_ne _ hns, Finmap.lookup_empty]
      rfl
  refine ⟨raceRun_trace, rfl, rfl, hnone, ?_⟩
  intro hagree
  obtain ⟨ns, app, rec, hrec, -⟩ := hagree.recorded raceEntry (List.mem_singleton_self _)
  rw [RegistryInner.routesOf_of_none (hnone ns app)] at hrec
  cases hrec

end Example

end Fasm
