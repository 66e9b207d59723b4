import Fasm.Engine.Router
import Fasm.Bytecode.Encode

/-!
# From a request to the arguments of a function

`handle_request` of `http_handler.rs`, up to the dispatch: the route is looked up, and its
parameters, the query and the body become the fields of one `STRUCT`, numbered from zero.

The parameters of the route arrive in a hash map, so that the order in which the map gives them
is an argument here.  `serde_json` and `base64` are parameters.
-/

namespace Fasm

variable {ω : Type}

/-! ## Bodies -/

/-- `serde_json::Number`. -/
inductive JsonNumber where
  | posInt (n : U64)
  | negInt (n : U64)
  | float (bits : U64)

namespace JsonNumber

/-- `as_i64`. -/
def asI64 : JsonNumber → Option U64
  | posInt n => if n ≤ 0x7FFFFFFFFFFFFFFF then some n else none
  | negInt n => some n
  | float _ => none

/-- `as_f64`. -/
def asF64 : JsonNumber → U64
  | posInt n => f64ToBits (.ofInt n.toNat)
  | negInt n => i64AsF64 n
  | float bits => bits

end JsonNumber

/-- `serde_json::Value`; the fields of an object stand in the order of the map. -/
inductive JsonValue where
  | null
  | bool (b : Bool)
  | number (n : JsonNumber)
  | string (s : String)
  | array (elems : List JsonValue)
  | object (fields : List (String × JsonValue))

/-- A `VEC<UINT8>`. -/
def bytesValue (bytes : List U8) : Value := .vec (bytes.map fun b => .int .uint8 b)

/-- The `VEC<UINT8>` of a text. -/
def textValue (s : String) : Value := bytesValue (asBytes s)

/-- What `json_to_value` makes of a number. -/
def numberValue (n : JsonNumber) : Value :=
  match n.asI64 with
  | some i =>
    if -0x80000000 ≤ i.toInt ∧ i.toInt ≤ 0x7FFFFFFF then .int .int32 (i.setWidth 32)
    else .int .int64 i
  | none => .float64 n.asF64

/-- An object that stands for binary data. -/
def sentinel (b64Decode : String → Option (List U8)) : List (String × JsonValue) → Option Value
  | [(key, .string enc)] => if key = "$b64" then (b64Decode enc).map bytesValue else none
  | _ => none

mutual

/-- `json_to_value`. -/
def jsonToValue (b64Decode : String → Option (List U8)) : JsonValue → Value
  | .null => .null
  | .bool b => .bool b
  | .string s => textValue s
  | .number n => numberValue n
  | .array elems => .vec (jsonElems b64Decode elems)
  | .object fields =>
    match sentinel b64Decode fields with
    | some v => v
    | none => .struct (jsonFields b64Decode fields 0 [])

/-- The elements of an array. -/
def jsonElems (b64Decode : String → Option (List U8)) : List JsonValue → List Value
  | [] => []
  | jv :: elems => jsonToValue b64Decode jv :: jsonElems b64Decode elems

/-- The fields of an object, under their positions. -/
def jsonFields (b64Decode : String → Option (List U8)) :
    List (String × JsonValue) → U32 → List (U32 × Value) → List (U32 × Value)
  | [], _, s => s
  | (_, jv) :: fields, idx, s =>
    jsonFields b64Decode fields (idx + 1) (FasmStruct.insert s idx (jsonToValue b64Decode jv))

end

/-! ## Queries -/

/-- `char::to_digit` in base 16. -/
def toDigit16 (c : Char) : Option Nat :=
  if '0' ≤ c ∧ c ≤ '9' then some (c.toNat - '0'.toNat)
  else if 'a' ≤ c ∧ c ≤ 'f' then some (c.toNat - 'a'.toNat + 10)
  else if 'A' ≤ c ∧ c ≤ 'F' then some (c.toNat - 'A'.toNat + 10)
  else none

/-- The loop of `percent_decode`: the two characters after a `%` are taken in any case, and
dropped with it unless both are digits. -/
def percentDecodeChars : List Char → List Char
  | '%' :: c :: c' :: cs =>
    match toDigit16 c, toDigit16 c' with
    | some h, some l => Char.ofNat (h * 16 + l) :: percentDecodeChars cs
    | _, _ => percentDecodeChars cs
  | '%' :: _ => []
  | c :: cs => c :: percentDecodeChars cs
  | [] => []

/-- `percent_decode`. -/
def percentDecode (cs : List Char) : String :=
  if '%' ∈ cs then String.ofList (percentDecodeChars cs) else String.ofList cs

/-- What stands behind the first `=` of a pair, as `split_once` finds it. -/
def afterEquals : List Char → Option (List Char)
  | [] => none
  | c :: cs => if c = '=' then some cs else afterEquals cs

/-- The decoded values of the pairs of a query. -/
def queryValues : Option String → List String
  | none => []
  | some query => (query.toList.splitOn '&').filterMap fun pair =>
      (afterEquals pair).map percentDecode

/-! ## Requests -/

/-- A request.  The content type is the text of the header, where it has one; the body is what
`to_bytes` gives, and nothing where it is too large or unreadable.  A `Uri` has no more than
65534 bytes. -/
structure HttpRequest where
  method : String
  path : String
  query : Option String
  contentType : Option String
  body : Option (List U8)
  uriLen : path.length + (query.elim 0 String.length) ≤ 65534

/-- A response that the handler gives without a dispatch: its status and its text. -/
abbrev Refusal : Type := Nat × String

/-- What the handler takes from its libraries. -/
structure HttpLib where
  toUppercase : String → String
  fromSlice : List U8 → Except String JsonValue
  b64Decode : String → Option (List U8)

/-- Whether the body is parsed as JSON. -/
def HttpRequest.isJson (req : HttpRequest) : Bool :=
  req.contentType.any fun ct => ct.startsWith "application/json"

/-- The value of the body, if it is not empty. -/
def bodyValue (lib : HttpLib) (req : HttpRequest) : Except Refusal (Option Value) :=
  match req.body with
  | none => .error (400, "request body too large or unreadable")
  | some [] => .ok none
  | some bytes =>
    if req.isJson then
      match lib.fromSlice bytes with
      | .ok jv => .ok (some (jsonToValue lib.b64Decode jv))
      | .error e => .error (400, "invalid JSON body: " ++ e)
    else .ok (some (bytesValue bytes))

/-- A field is inserted under the next index. -/
def pushField (args : List (U32 × Value) × U32) (v : Value) : List (U32 × Value) × U32 :=
  (FasmStruct.insert args.1 args.2 v, args.2 + 1)

/-- `handle_request`, up to the dispatch.  `order` is the order in which a map gives its
values. -/
def handleRequest (lib : HttpLib) (order : HashMap String String → List String)
    (routes : RouteTable ω) (req : HttpRequest) : Except Refusal (ExecRequest ω) :=
  match routes.matchRoute lib.toUppercase (lib.toUppercase req.method) req.path with
  | none => .error (404, "404 not found")
  | some matched => do
    let args := ((order matched.params).map textValue).foldl pushField ([], 0)
    let args := ((queryValues req.query).map textValue).foldl pushField args
    let body ← bodyValue lib req
    let args := match body with
      | some v => FasmStruct.insert args.1 args.2 v
      | none => args.1
    return ⟨matched.func, matched.program, .struct args, matched.jit⟩

/-! ## Numbered fields -/

/-- The fields of a `STRUCT` that is numbered from zero. -/
def numbered (fields : List Value) : List (U32 × Value) :=
  fields.mapIdx fun i v => (BitVec.ofNat 32 i, v)

/-- One more field. -/
theorem numbered_concat (fields : List Value) (v : Value) :
    numbered (fields ++ [v]) = numbered fields ++ [(BitVec.ofNat 32 fields.length, v)] := by
  unfold numbered
  rw [List.mapIdx_append]
  simp

/-- The values of the fields are the fields. -/
theorem map_snd_numbered (fields : List Value) : (numbered fields).map Prod.snd = fields := by
  induction fields using List.reverseRecOn with
  | nil => rfl
  | append_singleton fields v ih => rw [numbered_concat, List.map_append, ih, List.map_singleton]

/-- The keys of the fields are their places. -/
theorem map_fst_numbered (fields : List Value) :
    (numbered fields).map Prod.fst = (List.range fields.length).map (BitVec.ofNat 32) := by
  induction fields using List.reverseRecOn with
  | nil => rfl
  | append_singleton fields v ih =>
    rw [numbered_concat, List.map_append, ih, List.length_append, List.length_singleton,
      List.range_succ, List.map_append, List.map_singleton, List.map_singleton]

/-- A key that is not there goes behind the others. -/
theorem FasmStruct.insert_of_notMem {s : List (U32 × Value)} {key : U32}
    (h : key ∉ s.map Prod.fst) (v : Value) : FasmStruct.insert s key v = s ++ [(key, v)] := by
  induction s with
  | nil => rfl
  | cons e s ih =>
    rw [List.map_cons, List.mem_cons, not_or] at h
    unfold FasmStruct.insert
    rw [if_neg (fun heq => h.1 (beq_iff_eq.mp heq).symm), ih h.2, List.cons_append]

/-- The next index is free, until the indices are used up. -/
theorem notMem_keys_numbered {fields : List Value} (h : fields.length < 2 ^ 32) :
    BitVec.ofNat 32 fields.length ∉ (numbered fields).map Prod.fst := by
  rw [map_fst_numbered]
  intro hmem
  obtain ⟨i, hi, heq⟩ := List.mem_map.mp hmem
  have hlt := List.mem_range.mp hi
  have hnat := congrArg BitVec.toNat heq
  simp only [BitVec.toNat_ofNat] at hnat
  rw [Nat.mod_eq_of_lt (by omega), Nat.mod_eq_of_lt h] at hnat
  omega

/-- Fields that are pushed one after the other are numbered. -/
theorem foldl_pushField {fields : List Value} (h : fields.length ≤ 2 ^ 32) :
    fields.foldl pushField ([], 0) = (numbered fields, BitVec.ofNat 32 fields.length) := by
  induction fields using List.reverseRecOn with
  | nil => rfl
  | append_singleton fields v ih =>
    rw [List.length_append, List.length_singleton] at h
    rw [List.foldl_append, ih (by omega), List.foldl_cons, List.foldl_nil, pushField,
      FasmStruct.insert_of_notMem (notMem_keys_numbered (by omega)), numbered_concat,
      List.length_append, List.length_singleton, BitVec.ofNat_add]
    rfl

/-! ## Parameters -/

/-- The names of the parameters of a pattern. -/
def paramNames : List PathSegment → List String
  | [] => []
  | .literal _ :: segs => paramNames segs
  | .param name :: segs => name :: paramNames segs

/-- The segments of a request at the parameters of a pattern. -/
def paramTexts : List PathSegment → List String → List String
  | .literal _ :: segs, _ :: reqs => paramTexts segs reqs
  | .param _ :: segs, req :: reqs => req :: paramTexts segs reqs
  | _, _ => []

/-- The names and the texts belong together. -/
theorem length_paramTexts {segs : List PathSegment} {reqs : List String}
    (h : segs.length = reqs.length) : (paramTexts segs reqs).length = (paramNames segs).length := by
  induction segs generalizing reqs with
  | nil => cases reqs <;> rfl
  | cons seg segs ih =>
    cases reqs with
    | nil => cases h
    | cons req reqs =>
      have hlen := ih (Nat.succ.inj h)
      cases seg with
      | literal text => exact hlen
      | param name => exact congrArg Nat.succ hlen

/-- No more parameters than segments. -/
theorem length_paramTexts_le (segs : List PathSegment) (reqs : List String) :
    (paramTexts segs reqs).length ≤ reqs.length := by
  induction segs generalizing reqs with
  | nil => cases reqs <;> exact Nat.zero_le _
  | cons seg segs ih =>
    cases reqs with
    | nil => cases seg <;> exact Nat.le_refl _
    | cons req reqs =>
      cases seg with
      | literal text => exact Nat.le_succ_of_le (ih reqs)
      | param name => exact Nat.succ_le_succ (ih reqs)

/-- A match inserts each text under its name. -/
theorem matchSegments_eq_some {segs : List PathSegment} {reqs : List String}
    (hlen : segs.length = reqs.length) {params params' : HashMap String String}
    (h : matchSegments segs reqs params = some params') :
    params' = HashMap.insertAll ((paramNames segs).zip (paramTexts segs reqs)) params := by
  induction segs generalizing reqs params with
  | nil =>
    simp only [matchSegments, Option.some.injEq] at h
    exact h.symm
  | cons seg segs ih =>
    cases reqs with
    | nil => cases hlen
    | cons req reqs =>
      cases seg with
      | literal text =>
        simp only [matchSegments] at h
        split at h
        · exact ih (Nat.succ.inj hlen) h
        · cases h
      | param name => exact ih (Nat.succ.inj hlen) h

/-- The parameters of the route that serves a request. -/
theorem RouteTable.matchRoute_of_serving {toUppercase : String → String} {routes : RouteTable ω}
    {method path : String} {r : RouteEntry ω}
    (h : routes.serving toUppercase method path = some r) :
    r.segments.length = (requestSegments path).length ∧
    routes.matchRoute toUppercase method path = some ⟨r.func, r.program, r.jit,
      HashMap.insertAll ((paramNames r.segments).zip
        (paramTexts r.segments (requestSegments path))) ∅⟩ := by
  have hserves := List.find?_some h
  obtain ⟨m, hm⟩ := Option.isSome_iff_exists.mp hserves
  have hmatch : routes.matchRoute toUppercase method path = some m := by
    obtain ⟨-, pre, post, hroutes, hpre⟩ := List.find?_eq_some_iff_append.mp h
    unfold matchRoute
    rw [hroutes, List.findSome?_append, List.findSome?_eq_none_iff.mpr, List.findSome?_cons, hm]
    · rfl
    · intro r' hr'
      simpa using hpre r' hr'
  unfold RouteEntry.serve at hm
  split at hm
  · cases hm
  · split at hm
    · cases hm
    · rename_i hlen
      have hlen := not_not.mp hlen
      obtain ⟨params, hparams, rfl⟩ := Option.map_eq_some_iff.mp hm
      rw [hmatch, matchSegments_eq_some hlen hparams]
      exact ⟨hlen, rfl⟩

/-! ## How many fields there are -/

/-- A split at a character gives at most one part more than there are characters. -/
theorem length_splitOn_le (c : Char) (cs : List Char) :
    (cs.splitOn c).length ≤ cs.length + 1 := by
  induction cs with
  | nil => exact Nat.le_refl 1
  | cons c' cs ih =>
    rw [List.splitOn_cons_eq_if_modifyHead]
    split
    · exact Nat.succ_le_succ ih
    · rw [List.length_modifyHead]
      exact Nat.le_succ_of_le ih

/-- The segments of a request. -/
theorem length_requestSegments_le (path : String) :
    (requestSegments path).length ≤ path.length + 1 := by
  unfold requestSegments splitPath
  rw [List.length_map]
  apply (length_splitOn_le _ _).trans
  apply Nat.succ_le_succ
  apply (List.rdropWhile_prefix _ _).length_le.trans
  exact (List.dropWhile_suffix _).length_le

/-- The values of a query. -/
theorem length_queryValues_le (query : Option String) :
    (queryValues query).length ≤ query.elim 0 String.length + 1 := by
  cases query with
  | none => exact Nat.zero_le 1
  | some query => exact (List.length_filterMap_le _ _).trans (length_splitOn_le _ _)

/-- The fields of a request can be numbered. -/
theorem length_fields_lt (req : HttpRequest) {texts : List String}
    (h : texts.length ≤ (requestSegments req.path).length) :
    ((texts ++ queryValues req.query).map textValue).length < 2 ^ 32 := by
  have hsegs := length_requestSegments_le req.path
  have hquery := length_queryValues_le req.query
  have huri := req.uriLen
  rw [List.length_map, List.length_append]
  omega

/-! ## The order of the arguments -/

/-- A list of equal elements has no other order. -/
theorem eq_of_perm_of_eq {α : Type} {l l' : List α} (h : l.Perm l')
    (heq : ∀ a ∈ l', ∀ b ∈ l', a = b) : l = l' := by
  cases l' with
  | nil => exact List.perm_nil.mp h
  | cons a l' =>
    have hreplicate : a :: l' = List.replicate (a :: l').length a :=
      List.eq_replicate_of_mem fun b hb => heq b hb a List.mem_cons_self
    rw [hreplicate] at h ⊢
    exact List.perm_replicate.mp h

/-- An order in which every map gives its values. -/
def Enumerates (order : HashMap String String → List String) : Prop :=
  ∀ m, (order m : Multiset String) = m.values

/-- Whatever order a map chooses, the fields are the texts of the parameters in the order of
the pattern, the values of the query in its order, and the body. -/
def ArgsDocumented (lib : HttpLib) (routes : RouteTable ω) (req : HttpRequest)
    (r : RouteEntry ω) (body : Option Value) : Prop :=
  ∀ order, Enumerates order → ∃ exec, handleRequest lib order routes req = .ok exec ∧
    exec.args = .struct (numbered ((paramTexts r.segments (requestSegments req.path) ++
      queryValues req.query).map textValue ++ body.toList))

/-- The parameters that the route hands on. -/
def paramMap (r : RouteEntry ω) (req : HttpRequest) : HashMap String String :=
  HashMap.insertAll ((paramNames r.segments).zip
    (paramTexts r.segments (requestSegments req.path))) ∅

section Served

variable {lib : HttpLib} {routes : RouteTable ω} {req : HttpRequest} {r : RouteEntry ω}
  {body : Option Value} {order : HashMap String String → List String}

/-- What the handler passes on: the parameters in the order of the map come first. -/
theorem handleRequest_of_serving
    (hserving : routes.serving lib.toUppercase (lib.toUppercase req.method) req.path = some r)
    (hbody : bodyValue lib req = .ok body)
    (hlen : (order (paramMap r req)).length ≤ (requestSegments req.path).length) :
    handleRequest lib order routes req = .ok ⟨r.func, r.program,
      .struct (numbered ((order (paramMap r req) ++ queryValues req.query).map textValue ++
        body.toList)), r.jit⟩ := by
  have hlt := length_fields_lt req hlen
  unfold handleRequest
  rw [(RouteTable.matchRoute_of_serving hserving).2, hbody]
  have hpush : ((queryValues req.query).map textValue).foldl pushField
      (((order (paramMap r req)).map textValue).foldl pushField ([], 0)) =
      (numbered ((order (paramMap r req) ++ queryValues req.query).map textValue),
        BitVec.ofNat 32 ((order (paramMap r req) ++ queryValues req.query).map
          textValue).length) := by
    rw [← List.foldl_append, ← List.map_append, foldl_pushField (Nat.le_of_lt hlt)]
  cases body with
  | none =>
    show Except.ok (ExecRequest.mk r.func r.program (Value.struct (((queryValues req.query).map
      textValue).foldl pushField (((order (paramMap r req)).map textValue).foldl pushField
        ([], 0))).1) r.jit) = _
    rw [hpush, Option.toList_none, List.append_nil]
  | some v =>
    show Except.ok (ExecRequest.mk r.func r.program (Value.struct (pushField
      (((queryValues req.query).map textValue).foldl pushField
        (((order (paramMap r req)).map textValue).foldl pushField ([], 0))) v).1) r.jit) = _
    rw [hpush, pushField, FasmStruct.insert_of_notMem (notMem_keys_numbered hlt),
      Option.toList_some, numbered_concat]

/-- The bytes of a value are seen. -/
theorem bytesValue_injective : Function.Injective bytesValue := by
  intro a b h
  injection h with h
  refine List.map_injective_iff.mpr ?_ h
  intro x y hxy
  injection hxy with _ hxy

/-- Two texts have the same bytes only if they are the same. -/
theorem textValue_injective : Function.Injective textValue := by
  intro a b h
  have hbytes : asBytes a = asBytes b := bytesValue_injective h
  have hread := fromUtf8_asBytes a
  rw [hbytes, fromUtf8_asBytes] at hread
  exact (Except.ok.inj hread).symm

/-- No more values than parameters. -/
theorem length_order_le (horder : Enumerates order) :
    (order (paramMap r req)).length ≤ (paramTexts r.segments (requestSegments req.path)).length := by
  rw [← Multiset.coe_card, horder]
  apply (HashMap.card_values_insertAll_le _).trans
  rw [List.length_zip]
  exact Nat.min_le_right _ _

/-- What the documentation promises for an order. -/
theorem order_of_documented
    (hserving : routes.serving lib.toUppercase (lib.toUppercase req.method) req.path = some r)
    (hbody : bodyValue lib req = .ok body) (h : ArgsDocumented lib routes req r body)
    (horder : Enumerates order) :
    order (paramMap r req) = paramTexts r.segments (requestSegments req.path) := by
  obtain ⟨exec, hexec, hargs⟩ := h order horder
  rw [handleRequest_of_serving hserving hbody
    ((length_order_le horder).trans (length_paramTexts_le _ _))] at hexec
  cases hexec
  injection hargs with hargs
  have hfields := congrArg (List.map Prod.snd) hargs
  rw [map_snd_numbered, map_snd_numbered] at hfields
  have htexts := List.map_injective_iff.mpr textValue_injective (List.append_cancel_right hfields)
  exact List.append_cancel_right htexts

/-- Then no name is repeated. -/
theorem nodup_of_documented
    (hserving : routes.serving lib.toUppercase (lib.toUppercase req.method) req.path = some r)
    (hbody : bodyValue lib req = .ok body) (h : ArgsDocumented lib routes req r body) :
    (paramNames r.segments).Nodup := by
  have horder : Enumerates fun m => m.values.toList := fun m => Multiset.coe_toList _
  have hlist := order_of_documented hserving hbody h horder
  have hlen := length_paramTexts (RouteTable.matchRoute_of_serving hserving).1
  have hcard : (paramMap r req).values.card = ((paramNames r.segments).zip
      (paramTexts r.segments (requestSegments req.path))).length := by
    rw [List.length_zip, hlen, Nat.min_self, ← hlen, ← hlist, Multiset.length_toList]
  have hnodup := HashMap.nodup_of_card_insertAll hcard
  rwa [List.map_fst_zip (Nat.le_of_eq hlen.symm)] at hnodup

/-- And all parameters have the same text, since any of them may come first. -/
theorem eq_of_documented
    (hserving : routes.serving lib.toUppercase (lib.toUppercase req.method) req.path = some r)
    (hbody : bodyValue lib req = .ok body) (h : ArgsDocumented lib routes req r body)
    {a b : String} (ha : a ∈ paramTexts r.segments (requestSegments req.path))
    (hb : b ∈ paramTexts r.segments (requestSegments req.path)) : a = b := by
  -- The order in which `c` comes first, wherever it is a value.
  have hfirst : ∀ c ∈ paramTexts r.segments (requestSegments req.path),
      (paramTexts r.segments (requestSegments req.path)).head? = some c := by
    intro c hc
    have horder : Enumerates fun m =>
        if c ∈ m.values then c :: (m.values.erase c).toList else m.values.toList := by
      intro m
      dsimp only
      split
      · rename_i hmem
        rw [← Multiset.cons_coe, Multiset.coe_toList, Multiset.cons_erase hmem]
      · exact Multiset.coe_toList _
    have hlist := order_of_documented hserving hbody h horder
    have hmem : c ∈ (paramMap r req).values := by
      rw [← horder, Multiset.mem_coe]
      dsimp only
      rw [hlist]
      exact hc
    rw [← hlist]
    simp only [hmem, if_true, List.head?_cons]
  exact Option.some.inj ((hfirst a ha).symm.trans (hfirst b hb))

/-- **Arguments in order.**  A request is passed on as documented, whatever order the map of its
parameters chooses, exactly when no name is repeated in the pattern and all parameters have the
same text: in particular when there is no more than one. -/
theorem args_documented_iff
    (hserving : routes.serving lib.toUppercase (lib.toUppercase req.method) req.path = some r)
    (hbody : bodyValue lib req = .ok body) :
    ArgsDocumented lib routes req r body ↔ (paramNames r.segments).Nodup ∧
      ∀ a ∈ paramTexts r.segments (requestSegments req.path),
        ∀ b ∈ paramTexts r.segments (requestSegments req.path), a = b := by
  constructor
  · intro h
    exact ⟨nodup_of_documented hserving hbody h,
      fun a ha b hb => eq_of_documented hserving hbody h ha hb⟩
  · rintro ⟨hnodup, heq⟩ order horder
    refine ⟨_, handleRequest_of_serving hserving hbody
      ((length_order_le horder).trans (length_paramTexts_le _ _)), ?_⟩
    have hlen := length_paramTexts (RouteTable.matchRoute_of_serving hserving).1
    have hvalues : (paramMap r req).values =
        (paramTexts r.segments (requestSegments req.path) : List String) := by
      unfold paramMap
      rw [HashMap.values_insertAll, HashMap.values_empty, zero_add,
        List.map_snd_zip (Nat.le_of_eq hlen)]
      · rwa [List.map_fst_zip (Nat.le_of_eq hlen.symm)]
      · exact fun k _ => Finmap.notMem_empty
    have hperm : (order (paramMap r req)).Perm
        (paramTexts r.segments (requestSegments req.path)) :=
      Multiset.coe_eq_coe.mp ((horder _).trans hvalues)
    rw [eq_of_perm_of_eq hperm heq]

end Served

/-- A route with two parameters, and one with one. -/
def orderItem : RouteEntry Unit :=
  ⟨"u1", "GET", parsePath "/orders/:order_id/items/:item_id", "GetItem", ⟨1, [], []⟩, none, false⟩

def getUser : RouteEntry Unit :=
  ⟨"u2", "GET", parsePath "/users/:id", "GetUser", ⟨1, [], []⟩, none, false⟩

/-- Libraries that no body is given to. -/
def noBody : HttpLib := ⟨id, fun _ => .error "", fun _ => none⟩

/-- A request without a query and a body. -/
def getRequest (path : String) (h : path.length ≤ 65534) : HttpRequest :=
  ⟨"GET", path, none, none, some [], h⟩

/-- One parameter. -/
theorem args_documented_user :
    ArgsDocumented noBody ⟨[orderItem, getUser]⟩ (getRequest "/users/42" (by decide)) getUser
      none :=
  (args_documented_iff rfl rfl).mpr ⟨by decide, by decide⟩

/-- Two parameters with different texts, which the map may give in either order. -/
theorem args_not_documented :
    RouteTable.serving id "GET" "/orders/7/items/3" ⟨[orderItem, getUser]⟩ = some orderItem ∧
    ¬ ArgsDocumented noBody ⟨[orderItem, getUser]⟩
      (getRequest "/orders/7/items/3" (by decide)) orderItem none := by
  refine ⟨rfl, ?_⟩
  intro h
  have heq : "7" = "3" := eq_of_documented rfl rfl h
    (show "7" ∈ ["7", "3"] by decide) (show "3" ∈ ["7", "3"] by decide)
  exact absurd heq (by decide)

end Fasm
