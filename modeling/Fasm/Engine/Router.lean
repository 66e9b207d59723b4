import Fasm.Lib.HashMap
import Fasm.Engine.Dispatcher
import Mathlib.Data.List.DropRight

/-!
# Routes

`router.rs`: a table of routes that is searched from the front, so that overlapping patterns
are told apart by their place.  Routes of the static configuration are never removed; managed
ones come and go, at the end of the table and by their identifier.

`str::to_uppercase` and the compilation of native code are parameters.
-/

namespace Fasm

variable {ω : Type}

/-- A `Uuid`, by its text. -/
abbrev Uuid : Type := String

/-- `Segment`. -/
inductive PathSegment where
  | literal (text : String)
  | param (name : String)
deriving DecidableEq, Repr

/-- `RouteEntry`. -/
structure RouteEntry (ω : Type) where
  id : Uuid
  method : String
  segments : List PathSegment
  func : String
  program : Program
  jit : Option (FasmJit ω)
  managed : Bool

/-- `RouteTable`. -/
structure RouteTable (ω : Type) where
  routes : List (RouteEntry ω)

/-- `MatchedRoute`. -/
structure MatchedRoute (ω : Type) where
  func : String
  program : Program
  jit : Option (FasmJit ω)
  params : HashMap String String

/-! ## Paths -/

/-- `path.trim_matches('/').split('/')`. -/
def splitPath (path : String) : List (List Char) :=
  ((path.toList.dropWhile (· == '/')).rdropWhile (· == '/')).splitOn '/'

/-- What `parse_path` makes of one segment. -/
def PathSegment.parse : List Char → PathSegment
  | ':' :: rest => .param (String.ofList rest)
  | cs => .literal (String.ofList cs)

/-- `parse_path`. -/
def parsePath (path : String) : List PathSegment := (splitPath path).map PathSegment.parse

/-- The segments of a request. -/
def requestSegments (path : String) : List String := (splitPath path).map String.ofList

/-- Whether two segments take the same place of a pattern. -/
def PathSegment.same : PathSegment → PathSegment → Bool
  | .literal a, .literal b => a == b
  | .param _, .param _ => true
  | _, _ => false

/-- `segments_equal`. -/
def segmentsEqual (a b : List PathSegment) : Bool :=
  a.length == b.length && (a.zip b).all fun e => e.1.same e.2

/-- The loop over the segments of `match_route`: the parameters, unless a literal differs. -/
def matchSegments : List PathSegment → List String → HashMap String String →
    Option (HashMap String String)
  | .literal lit :: segs, req :: reqs, params =>
    if lit = req then matchSegments segs reqs params else none
  | .param name :: segs, req :: reqs, params => matchSegments segs reqs (params.insert name req)
  | _, _, params => some params

/-- One turn of the loop over the routes of `match_route`. -/
def RouteEntry.serve (method : String) (reqs : List String) (r : RouteEntry ω) :
    Option (MatchedRoute ω) :=
  if r.method ≠ method then none
  else if r.segments.length ≠ reqs.length then none
  else (matchSegments r.segments reqs ∅).map fun params => ⟨r.func, r.program, r.jit, params⟩

namespace RouteTable

/-- `add_route_dyn`, with the identifier that is drawn. -/
def addRouteDyn (toUppercase : String → String) (compile : Program → Option (FasmJit ω))
    (method path func : String) (program : Program) (id : Uuid) (t : RouteTable ω) :
    Except String (RouteTable ω) :=
  let methodUp := toUppercase method
  let segments := parsePath path
  match t.routes.find? fun r => r.method == methodUp && segmentsEqual r.segments segments with
  | some existing =>
    .error ("route conflict: " ++ methodUp ++ " " ++ path ++ " is already registered (id=" ++
      existing.id ++ ")")
  | none => .ok ⟨t.routes ++ [⟨id, methodUp, segments, func, program, compile program, true⟩]⟩

/-- Whether `remove_route` removes the route. -/
def Removes (id : Uuid) (r : RouteEntry ω) : Bool := r.id == id && r.managed

/-- `remove_route`. -/
def removeRoute (id : Uuid) (t : RouteTable ω) : Bool × RouteTable ω :=
  match t.routes.findIdx? (Removes id) with
  | some pos => (true, ⟨t.routes.eraseIdx pos⟩)
  | none => (false, t)

/-- `match_route`. -/
def matchRoute (toUppercase : String → String) (method path : String) (t : RouteTable ω) :
    Option (MatchedRoute ω) :=
  t.routes.findSome? (RouteEntry.serve (toUppercase method) (requestSegments path))

/-- The route that serves a request. -/
def serving (toUppercase : String → String) (method path : String) (t : RouteTable ω) :
    Option (RouteEntry ω) :=
  t.routes.find? fun r => (r.serve (toUppercase method) (requestSegments path)).isSome

/-- Two routes with one method and the same pattern. -/
def Conflict (r r' : RouteEntry ω) : Prop :=
  r.method = r'.method ∧ segmentsEqual r.segments r'.segments = true

/-- No two routes of the table conflict. -/
def NonConflicting (t : RouteTable ω) : Prop := t.routes.Pairwise fun r r' => ¬ Conflict r r'

/-- The routes that come and go. -/
def managedRoutes (t : RouteTable ω) : List (RouteEntry ω) := t.routes.filter RouteEntry.managed

/-- `remove_route` for each identifier of a list. -/
def removeRoutes (ids : List Uuid) (t : RouteTable ω) : RouteTable ω :=
  ids.foldl (fun t id => (t.removeRoute id).2) t

/-- The routes of the static configuration. -/
def statics (t : RouteTable ω) : List (RouteEntry ω) := t.routes.filter fun r => !r.managed

variable {toUppercase : String → String} {compile : Program → Option (FasmJit ω)}
  {t t' : RouteTable ω}

/-! ## Adding and removing -/

/-- What a successful `add_route_dyn` does: the route goes behind the others, none of which
it conflicts with. -/
theorem addRouteDyn_eq_ok {method path func : String} {program : Program} {id : Uuid}
    (h : t.addRouteDyn toUppercase compile method path func program id = .ok t') :
    ∃ r : RouteEntry ω, r.id = id ∧ r.managed = true ∧ t'.routes = t.routes ++ [r] ∧
      ∀ r' ∈ t.routes, ¬ Conflict r' r := by
  unfold addRouteDyn at h
  cases hfind : t.routes.find? fun r =>
      r.method == toUppercase method && segmentsEqual r.segments (parsePath path) with
  | some existing => simp only [hfind, reduceCtorEq] at h
  | none =>
    simp only [hfind, Except.ok.injEq] at h
    subst h
    refine ⟨_, rfl, rfl, rfl, ?_⟩
    rintro r' hr' ⟨hmethod, hsegments⟩
    have hno := List.find?_eq_none.mp hfind r' hr'
    exact hno (by rw [hmethod, hsegments, beq_self_eq_true, Bool.and_self])

/-- The route that a successful `add_route_dyn` adds. -/
theorem addRouteDyn_appends {method path func : String} {program : Program} {id : Uuid}
    (h : t.addRouteDyn toUppercase compile method path func program id = .ok t') :
    t'.routes = t.routes ++
      [⟨id, toUppercase method, parsePath path, func, program, compile program, true⟩] := by
  unfold addRouteDyn at h
  cases hfind : t.routes.find? fun r =>
      r.method == toUppercase method && segmentsEqual r.segments (parsePath path) with
  | some existing => simp only [hfind, reduceCtorEq] at h
  | none =>
    simp only [hfind, Except.ok.injEq] at h
    rw [← h]

/-- What a successful `remove_route` does: one managed route with the identifier goes. -/
theorem removeRoute_eq_true {id : Uuid} (h : t.removeRoute id = (true, t')) :
    ∃ pre r post, t.routes = pre ++ r :: post ∧ r.id = id ∧ r.managed = true ∧
      t'.routes = pre ++ post := by
  unfold removeRoute at h
  cases hpos : t.routes.findIdx? (Removes id) with
  | none => simp only [hpos, Prod.mk.injEq, Bool.false_eq_true, false_and] at h
  | some pos =>
    simp only [hpos, Prod.mk.injEq, true_and] at h
    subst h
    obtain ⟨hlt, hremoves, -⟩ := List.findIdx?_eq_some_iff_getElem.mp hpos
    obtain ⟨hid, hmanaged⟩ := Bool.and_eq_true_iff.mp hremoves
    refine ⟨t.routes.take pos, t.routes[pos], t.routes.drop (pos + 1), ?_, beq_iff_eq.mp hid,
      hmanaged, List.eraseIdx_eq_take_drop_succ _ _⟩
    rw [List.getElem_cons_drop, List.take_append_drop]

/-- An unsuccessful one changes nothing. -/
theorem removeRoute_eq_false {id : Uuid} (h : t.removeRoute id = (false, t')) : t' = t := by
  unfold removeRoute at h
  cases hpos : t.routes.findIdx? (Removes id) with
  | none =>
    simp only [hpos, Prod.mk.injEq, true_and] at h
    exact h.symm
  | some pos => simp only [hpos, Prod.mk.injEq, Bool.true_eq_false, false_and] at h

/-- A route under a new identifier is the one that its identifier removes. -/
theorem removeRoute_new {r : RouteEntry ω} (hnew : r.id ∉ t.routes.map RouteEntry.id)
    (hmanaged : r.managed = true) (h : t'.routes = t.routes ++ [r]) :
    t'.removeRoute r.id = (true, t) := by
  have hnone : t.routes.findIdx? (Removes r.id) = none := by
    rw [List.findIdx?_eq_none_iff]
    intro r' hr'
    have hne : r'.id ≠ r.id := by
      rintro heq
      rw [← heq] at hnew
      exact hnew (List.mem_map_of_mem hr')
    simp only [Removes, beq_eq_false_iff_ne.mpr hne, Bool.false_and]
  have hself : Removes r.id r = true := by
    simp only [Removes, beq_self_eq_true, hmanaged, Bool.and_self]
  have hpos : t'.routes.findIdx? (Removes r.id) = some t.routes.length := by
    rw [h, List.findIdx?_append, hnone, List.findIdx?_cons, hself]
    simp
  have herase : (t.routes ++ [r]).eraseIdx t.routes.length = t.routes := by
    rw [List.eraseIdx_append_of_length_le (Nat.le_refl _), Nat.sub_self]
    exact List.append_nil _
  unfold removeRoute
  rw [hpos, h]
  simp only [herase]

/-! ## The managed routes -/

/-- What `add_route_dyn` adds to them. -/
theorem managedRoutes_concat {r : RouteEntry ω} (h : t'.routes = t.routes ++ [r])
    (hr : r.managed = true) : t'.managedRoutes = t.managedRoutes ++ [r] := by
  unfold managedRoutes
  rw [h, List.filter_append, List.filter_cons_of_pos hr]
  rfl

/-- When their identifiers are distinct, `remove_route` takes out the one that it names. -/
theorem managedRoutes_removeRoute (hids : (t.managedRoutes.map RouteEntry.id).Nodup) (id : Uuid) :
    (t.removeRoute id).2.managedRoutes = t.managedRoutes.filter fun r => ¬ r.id = id := by
  rcases h : t.removeRoute id with ⟨removed, t'⟩
  cases removed with
  | false =>
    rw [removeRoute_eq_false h, eq_comm, List.filter_eq_self]
    intro r hr
    unfold removeRoute at h
    cases hpos : t.routes.findIdx? (Removes id) with
    | some pos => simp only [hpos, Prod.mk.injEq, Bool.true_eq_false, false_and] at h
    | none =>
      obtain ⟨hmem, hmanaged⟩ := List.mem_filter.mp hr
      have hno := List.findIdx?_eq_none_iff.mp hpos r hmem
      unfold Removes at hno
      rw [hmanaged, Bool.and_true] at hno
      exact decide_eq_true (beq_eq_false_iff_ne.mp hno)
  | true =>
    obtain ⟨pre, r, post, hroutes, hid, hmanaged, hroutes'⟩ := removeRoute_eq_true h
    subst hid
    have hsplit : t.managedRoutes =
        pre.filter RouteEntry.managed ++ r :: post.filter RouteEntry.managed := by
      unfold managedRoutes
      rw [hroutes, List.filter_append, List.filter_cons_of_pos hmanaged]
    rw [hsplit, List.map_append, List.map_cons, List.nodup_middle, List.nodup_cons,
      ← List.map_append] at hids
    have hkeep (l : List (RouteEntry ω)) (hl : r.id ∉ l.map RouteEntry.id) :
        l.filter (fun r' => ¬ r'.id = r.id) = l := by
      rw [List.filter_eq_self]
      intro r' hr'
      apply decide_eq_true
      intro heq
      rw [← heq] at hl
      exact hl (List.mem_map_of_mem hr')
    rw [hsplit, List.filter_append, List.filter_cons_of_neg (by simp), ← List.filter_append,
      hkeep _ hids.1]
    unfold managedRoutes
    rw [hroutes', List.filter_append]

/-- Identifiers stay distinct when a route with a new one goes behind the others. -/
theorem nodup_ids_concat {l : List (RouteEntry ω)} {r : RouteEntry ω}
    (h : (l.map RouteEntry.id).Nodup) (hnew : ∀ r' ∈ l, r'.id ≠ r.id) :
    ((l ++ [r]).map RouteEntry.id).Nodup := by
  rw [List.map_append, List.map_singleton, List.nodup_append]
  refine ⟨h, List.nodup_singleton _, ?_⟩
  intro id hid id' hid' heq
  rw [List.mem_singleton.mp hid'] at heq
  obtain ⟨r', hr', hsame⟩ := List.mem_map.mp hid
  exact hnew r' hr' (hsame.trans heq)

/-- What has happened when `remove_route` reports a removal. -/
theorem removeRoute_fst (t : RouteTable ω) (id : Uuid) :
    (t.removeRoute id).1 = true ↔ ∃ r ∈ t.managedRoutes, r.id = id := by
  unfold removeRoute
  cases hpos : t.routes.findIdx? (Removes id) with
  | some pos =>
    obtain ⟨hlt, hremoves, -⟩ := List.findIdx?_eq_some_iff_getElem.mp hpos
    obtain ⟨hid, hmanaged⟩ := Bool.and_eq_true_iff.mp hremoves
    refine iff_of_true rfl ⟨t.routes[pos], ?_, beq_iff_eq.mp hid⟩
    exact List.mem_filter.mpr ⟨List.getElem_mem hlt, hmanaged⟩
  | none =>
    refine iff_of_false Bool.false_ne_true ?_
    rintro ⟨r, hr, rfl⟩
    obtain ⟨hmem, hmanaged⟩ := List.mem_filter.mp hr
    have hno := List.findIdx?_eq_none_iff.mp hpos r hmem
    unfold Removes at hno
    rw [hmanaged, beq_self_eq_true] at hno
    cases hno

/-- The same for a list of identifiers. -/
theorem managedRoutes_removeRoutes (ids : List Uuid)
    (hids : (t.managedRoutes.map RouteEntry.id).Nodup) :
    (t.removeRoutes ids).managedRoutes = t.managedRoutes.filter fun r => r.id ∉ ids := by
  induction ids generalizing t with
  | nil =>
    show t.managedRoutes = _
    rw [eq_comm, List.filter_eq_self]
    intro r _
    exact decide_eq_true List.not_mem_nil
  | cons id ids ih =>
    have hstep := managedRoutes_removeRoute hids id
    show ((t.removeRoute id).2.removeRoutes ids).managedRoutes = _
    rw [ih, hstep, List.filter_filter]
    · apply List.filter_congr
      intro r _
      by_cases hr : r.id = id
      · simp [hr]
      · simp [hr]
    · rw [hstep]
      exact hids.sublist (List.filter_sublist.map _)

/-! ## What they change -/

/-- A route behind the others serves what they do not. -/
theorem matchRoute_concat {r : RouteEntry ω} (h : t'.routes = t.routes ++ [r])
    {method path : String}
    (hdiff : t'.matchRoute toUppercase method path ≠ t.matchRoute toUppercase method path) :
    t.matchRoute toUppercase method path = none := by
  unfold matchRoute at hdiff ⊢
  rw [h, List.findSome?_append] at hdiff
  cases hfound : t.routes.findSome?
      (RouteEntry.serve (toUppercase method) (requestSegments path)) with
  | none => rfl
  | some m =>
    rw [hfound] at hdiff
    exact absurd rfl hdiff

/-- Without a route, only what it served is served differently. -/
theorem matchRoute_without {pre post : List (RouteEntry ω)} {r : RouteEntry ω}
    (h : t.routes = pre ++ r :: post) (h' : t'.routes = pre ++ post) {method path : String}
    (hdiff : t'.matchRoute toUppercase method path ≠ t.matchRoute toUppercase method path) :
    t.serving toUppercase method path = some r := by
  unfold matchRoute at hdiff
  rw [h, h', List.findSome?_append, List.findSome?_append, List.findSome?_cons] at hdiff
  unfold serving
  rw [h, List.find?_append, List.find?_cons]
  cases hpre : pre.findSome? (RouteEntry.serve (toUppercase method) (requestSegments path)) with
  | some m =>
    rw [hpre] at hdiff
    exact absurd rfl hdiff
  | none =>
    have hpre' : pre.find? (fun r =>
        (r.serve (toUppercase method) (requestSegments path)).isSome) = none := by
      rw [List.find?_eq_none]
      intro r' hr'
      rw [List.findSome?_eq_none_iff.mp hpre r' hr']
      exact Bool.false_ne_true
    rw [hpre']
    cases hr : r.serve (toUppercase method) (requestSegments path) with
    | some m => rfl
    | none =>
      rw [hpre, hr] at hdiff
      exact absurd rfl hdiff

/-! ## Sequences of changes -/

/-- A call of `add_route_dyn`, with the identifier that is drawn, or of `remove_route`. -/
inductive RouteCall where
  | add (method path func : String) (program : Program) (id : Uuid)
  | remove (id : Uuid)

/-- What a call does; a conflict changes nothing. -/
def step (toUppercase : String → String) (compile : Program → Option (FasmJit ω))
    (t : RouteTable ω) : RouteCall → RouteTable ω
  | .add method path func program id =>
    match t.addRouteDyn toUppercase compile method path func program id with
    | .ok t' => t'
    | .error _ => t
  | .remove id => (t.removeRoute id).2

/-- A sequence of calls. -/
def run (toUppercase : String → String) (compile : Program → Option (FasmJit ω))
    (t : RouteTable ω) (calls : List RouteCall) : RouteTable ω :=
  calls.foldl (step toUppercase compile) t

/-- What a call can do: nothing, add a route behind the others, or take a managed one away. -/
theorem step_cases (toUppercase : String → String) (compile : Program → Option (FasmJit ω))
    (t : RouteTable ω) (c : RouteCall) :
    t.step toUppercase compile c = t ∨
    (∃ r : RouteEntry ω, r.managed = true ∧
      (t.step toUppercase compile c).routes = t.routes ++ [r] ∧
        ∀ r' ∈ t.routes, ¬ Conflict r' r) ∨
    ∃ pre r post, t.routes = pre ++ r :: post ∧ r.managed = true ∧
      (t.step toUppercase compile c).routes = pre ++ post := by
  cases c with
  | add method path func program id =>
    simp only [step]
    cases h : t.addRouteDyn toUppercase compile method path func program id with
    | error e => exact .inl rfl
    | ok t' =>
      obtain ⟨r, -, hmanaged, hroutes, hno⟩ := addRouteDyn_eq_ok h
      exact .inr (.inl ⟨r, hmanaged, hroutes, hno⟩)
  | remove id =>
    simp only [step]
    rcases h : t.removeRoute id with ⟨removed, t'⟩
    cases removed with
    | false => exact .inl (removeRoute_eq_false h)
    | true =>
      obtain ⟨pre, r, post, hroutes, -, hmanaged, hroutes'⟩ := removeRoute_eq_true h
      exact .inr (.inr ⟨pre, r, post, hroutes, hmanaged, hroutes'⟩)

/-- Every call keeps the table free of conflicts. -/
theorem NonConflicting.step (h : t.NonConflicting) (c : RouteCall) :
    (t.step toUppercase compile c).NonConflicting := by
  rcases step_cases toUppercase compile t c with hsame | ⟨r, -, hroutes, hno⟩ |
    ⟨pre, r, post, hroutes, -, hroutes'⟩
  · rw [hsame]
    exact h
  · unfold NonConflicting
    rw [hroutes, List.pairwise_append]
    refine ⟨h, List.pairwise_singleton _ _, ?_⟩
    intro r' hr' r'' hr''
    rw [List.mem_singleton.mp hr'']
    exact hno r' hr'
  · unfold NonConflicting at h ⊢
    rw [hroutes] at h
    rw [hroutes']
    exact List.Pairwise.sublist ((List.Sublist.refl pre).append (List.sublist_cons_self r post)) h

/-- No call touches the static routes. -/
theorem statics_step (c : RouteCall) : (t.step toUppercase compile c).statics = t.statics := by
  rcases step_cases toUppercase compile t c with hsame | ⟨r, hmanaged, hroutes, -⟩ |
    ⟨pre, r, post, hroutes, hmanaged, hroutes'⟩
  · rw [hsame]
  · unfold statics
    rw [hroutes, List.filter_append, List.filter_cons_of_neg (by simp [hmanaged]), List.filter_nil,
      List.append_nil]
  · unfold statics
    rw [hroutes, hroutes', List.filter_append, List.filter_append,
      List.filter_cons_of_neg (by simp [hmanaged])]

/-- A sequence of calls keeps the table free of conflicts and the static routes in it. -/
theorem run_keeps (h : t.NonConflicting) (calls : List RouteCall) :
    (t.run toUppercase compile calls).NonConflicting ∧
      (t.run toUppercase compile calls).statics = t.statics := by
  induction calls using List.reverseRecOn with
  | nil => exact ⟨h, rfl⟩
  | append_singleton calls c ih =>
    unfold run
    rw [List.foldl_append]
    exact ⟨ih.1.step c, (statics_step c).trans ih.2⟩

/-- **Isolation of changes.**  From a table without conflicts, after any sequence of calls: the
table has no conflicts and the static routes it had; the next route that is added only changes
requests that nothing matched; the next one that is removed only changes requests that it
served; and a route that is added and removed again leaves the table as it was. -/
theorem route_changes_isolated (h : t.NonConflicting) (calls : List RouteCall)
    (ht' : t.run toUppercase compile calls = t') :
    t'.NonConflicting ∧ t'.statics = t.statics ∧
    (∀ method path func program id t'',
      t'.addRouteDyn toUppercase compile method path func program id = .ok t'' →
      (∀ method path,
        t''.matchRoute toUppercase method path ≠ t'.matchRoute toUppercase method path →
          t'.matchRoute toUppercase method path = none) ∧
      (id ∉ t'.routes.map RouteEntry.id → t''.removeRoute id = (true, t'))) ∧
    ∀ id t'', t'.removeRoute id = (true, t'') →
      ∃ r ∈ t'.routes, r.id = id ∧ r.managed = true ∧ ∀ method path,
        t''.matchRoute toUppercase method path ≠ t'.matchRoute toUppercase method path →
          t'.serving toUppercase method path = some r := by
  obtain ⟨hconflicts, hstatics⟩ := ht' ▸ run_keeps h calls
  refine ⟨hconflicts, hstatics, ?_, ?_⟩
  · intro method path func program id t'' hadd
    obtain ⟨r, rfl, hmanaged, hroutes, -⟩ := addRouteDyn_eq_ok hadd
    exact ⟨fun _ _ => matchRoute_concat hroutes, fun hnew => removeRoute_new hnew hmanaged hroutes⟩
  · intro id t'' hremove
    obtain ⟨pre, r, post, hroutes, hid, hmanaged, hroutes'⟩ := removeRoute_eq_true hremove
    refine ⟨r, ?_, hid, hmanaged, fun _ _ => matchRoute_without hroutes hroutes'⟩
    rw [hroutes]
    exact List.mem_append_right _ List.mem_cons_self

/-- A static route, and a managed one behind it whose pattern overlaps. -/
theorem route_changes_isolated_overlapping :
    let t : RouteTable Unit :=
      ⟨[⟨"u1", "GET", parsePath "/api/special", "Special", ⟨1, [], []⟩, none, false⟩]⟩
    let t' := t.run id (fun _ => none) [.add "GET" "/api/:slug" "Generic" ⟨1, [], []⟩ "u2"]
    t'.NonConflicting ∧ t'.statics = t.statics ∧
      (∀ method path func program routeId t'',
        t'.addRouteDyn id (fun _ => none) method path func program routeId = .ok t'' →
        (∀ method path, t''.matchRoute id method path ≠ t'.matchRoute id method path →
          t'.matchRoute id method path = none) ∧
        (routeId ∉ t'.routes.map RouteEntry.id → t''.removeRoute routeId = (true, t'))) ∧
      ∀ routeId t'', t'.removeRoute routeId = (true, t'') →
        ∃ r ∈ t'.routes, r.id = routeId ∧ r.managed = true ∧ ∀ method path,
          t''.matchRoute id method path ≠ t'.matchRoute id method path →
            t'.serving id method path = some r := by
  intro t t'
  exact @route_changes_isolated Unit id (fun _ => none) t t' (List.pairwise_singleton _ _)
    [.add "GET" "/api/:slug" "Generic" ⟨1, [], []⟩ "u2"] rfl

end RouteTable

end Fasm
