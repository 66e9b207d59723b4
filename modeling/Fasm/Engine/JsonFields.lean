import Fasm.Engine.JsonEcho

/-!
# Objects in the order of their texts

An object becomes a `STRUCT` whose fields are numbered in the order in which the map of
`serde_json` gives them, which is that of the keys, and not in the order in which the client
wrote them.  This makes no difference exactly where what stands at each place is read alike in
both orders.
-/

namespace Fasm

variable {b64Decode : String → Option (List U8)}

/-! ## The map of an object -/

/-- The map of an object whose members are written in this order. -/
def jsonMap (members : List (String × JsonValue)) : List (String × JsonValue) :=
  members.foldl (fun map e => jsonMapInsert e.1 e.2 map) []

theorem jsonMap_concat (members : List (String × JsonValue)) (e : String × JsonValue) :
    jsonMap (members ++ [e]) = jsonMapInsert e.1 e.2 (jsonMap members) := List.foldl_concat _ _ _ _

/-- A new key is one more entry. -/
theorem jsonMapInsert_perm {key : String} {fields : List (String × JsonValue)}
    (h : key ∉ fields.map Prod.fst) (jv : JsonValue) :
    (jsonMapInsert key jv fields).Perm ((key, jv) :: fields) := by
  induction fields with
  | nil => exact .refl _
  | cons e fields ih =>
    rw [List.map_cons, List.mem_cons, not_or] at h
    rw [jsonMapInsert]
    split
    · exact .refl _
    · rw [if_neg h.1]
      exact ((ih h.2).cons e).trans (.swap _ _ _)

/-- The map has the members that are written, if their keys are different. -/
theorem jsonMap_perm {members : List (String × JsonValue)}
    (h : (members.map Prod.fst).Nodup) : (jsonMap members).Perm members := by
  induction members using List.reverseRecOn with
  | nil => exact .refl _
  | append_singleton members e ih =>
    rw [List.map_append, List.nodup_append] at h
    obtain ⟨hnodup, -, hdisjoint⟩ := h
    have hperm := ih hnodup
    have hkey : e.1 ∉ (jsonMap members).map Prod.fst := by
      intro hmem
      exact hdisjoint _ ((hperm.map Prod.fst).mem_iff.mp hmem) _ (List.mem_singleton_self _) rfl
    rw [jsonMap_concat]
    have hinsert := jsonMapInsert_perm hkey e.2
    exact hinsert.trans ((hperm.cons e).trans (List.perm_append_singleton e members).symm)

/-- A key behind all others. -/
theorem jsonMapInsert_of_lt {key : String} {fields : List (String × JsonValue)}
    (h : ∀ e ∈ fields, e.1 < key) (jv : JsonValue) :
    jsonMapInsert key jv fields = fields ++ [(key, jv)] := by
  induction fields with
  | nil => rfl
  | cons e fields ih =>
    have hlt := h e List.mem_cons_self
    have hne : key ≠ e.1 := fun heq => String.lt_irrefl _ (heq ▸ hlt)
    rw [jsonMapInsert, if_neg (String.lt_asymm hlt), if_neg hne,
      ih fun e' he' => h e' (List.mem_cons_of_mem _ he')]
    rfl

/-- Members in the order of their keys are the map. -/
theorem jsonMap_of_sorted {members : List (String × JsonValue)}
    (h : members.Pairwise fun e e' => e.1 < e'.1) : jsonMap members = members := by
  induction members using List.reverseRecOn with
  | nil => rfl
  | append_singleton members e ih =>
    rw [List.pairwise_append] at h
    obtain ⟨hsorted, -, hlast⟩ := h
    rw [jsonMap_concat, ih hsorted]
    exact jsonMapInsert_of_lt (fun e' he' => hlast e' he' e (List.mem_singleton_self e)) e.2

/-! ## The fields of an object -/

/-- The loop pushes the conversions one after the other. -/
theorem jsonFields_eq_foldl (fields : List (String × JsonValue)) (idx : U32)
    (s : List (U32 × Value)) : jsonFields b64Decode fields idx s =
      ((fields.map fun e => jsonToValue b64Decode e.2).foldl pushField (s, idx)).1 := by
  induction fields generalizing idx s with
  | nil => rfl
  | cons e fields ih => exact ih _ _

/-- The bytes that stand for a text, binary data or an empty array. -/
def JsonValue.bytes (b64Decode : String → Option (List U8)) : JsonValue → Option (List U8)
  | .string s => some (asBytes s)
  | .array [] => some []
  | .object [(key, .string enc)] => if key = "$b64" then b64Decode enc else none
  | _ => none

theorem sentinel_eq_bytes (fields : List (String × JsonValue)) :
    sentinel b64Decode fields =
      ((JsonValue.object fields).bytes b64Decode).map bytesValue := by
  unfold sentinel JsonValue.bytes
  split
  · rename_i key enc
    dsimp only
    split <;> rfl
  · rename_i hno
    split
    case h_3 key enc heq => exact absurd (JsonValue.object.inj heq) (hno key enc)
    case h_1 heq => cases heq
    case h_2 heq => cases heq
    case h_4 => rfl

/-- The fields are numbered in the order of the map. -/
theorem jsonToValue_object {fields : List (String × JsonValue)}
    (hbytes : (JsonValue.object fields).bytes b64Decode = none) (hlen : fields.length ≤ 2 ^ 32) :
    jsonToValue b64Decode (.object fields) =
      .struct (numbered (fields.map fun e => jsonToValue b64Decode e.2)) := by
  have hmap : (fields.map fun e => jsonToValue b64Decode e.2).length ≤ 2 ^ 32 := by
    rwa [List.length_map]
  rw [jsonToValue, sentinel_eq_bytes, hbytes, jsonFields_eq_foldl]
  exact congrArg (fun args => Value.struct args.1) (foldl_pushField hmap)

/-! ## Values that are read alike -/

namespace JsonValue

/-- No object in it has more members than there are indices.  A body has at most 1048576
bytes. -/
inductive Sized : JsonValue → Prop
  | null : Sized .null
  | bool (b : Bool) : Sized (.bool b)
  | number (n : JsonNumber) : Sized (.number n)
  | string (s : String) : Sized (.string s)
  | array {elems : List JsonValue} (h : ∀ jv ∈ elems, Sized jv) : Sized (.array elems)
  | object {fields : List (String × JsonValue)} (hlen : fields.length ≤ 2 ^ 32)
      (h : ∀ e ∈ fields, Sized e.2) : Sized (.object fields)

/-- The two differ in the keys of objects only, and in the way in which bytes are written. -/
inductive Alike (b64Decode : String → Option (List U8)) : JsonValue → JsonValue → Prop
  | null : Alike b64Decode .null .null
  | bool (b : Bool) : Alike b64Decode (.bool b) (.bool b)
  | number {n n' : JsonNumber} (hint : n.asI64 = n'.asI64)
      (hfloat : n.asI64 = none → n.asF64 = n'.asF64) :
      Alike b64Decode (.number n) (.number n')
  | bytes {jv jv' : JsonValue} {bs : List U8} (h : jv.bytes b64Decode = some bs)
      (h' : jv'.bytes b64Decode = some bs) : Alike b64Decode jv jv'
  | array {elems elems' : List JsonValue} (h : List.Forall₂ (Alike b64Decode) elems elems') :
      Alike b64Decode (.array elems) (.array elems')
  | object {fields fields' : List (String × JsonValue)}
      (hbytes : (object fields).bytes b64Decode = none)
      (hbytes' : (object fields').bytes b64Decode = none)
      (h : List.Forall₂ (fun e e' => Alike b64Decode e.2 e'.2) fields fields') :
      Alike b64Decode (.object fields) (.object fields')

end JsonValue

/-! ## Equal values -/

/-- What is read as bytes. -/
theorem jsonToValue_of_bytes {jv : JsonValue} {bs : List U8}
    (h : jv.bytes b64Decode = some bs) : jsonToValue b64Decode jv = bytesValue bs := by
  cases jv with
  | null | bool | number => cases h
  | string s =>
    cases h
    rfl
  | array elems =>
    cases elems with
    | nil =>
      cases h
      rfl
    | cons jv elems => cases h
  | object fields =>
    rw [jsonToValue, sentinel_eq_bytes, h]
    rfl

/-- An integer is read as one of two types, which depends on it. -/
def intValue (i : U64) : Value :=
  if -0x80000000 ≤ i.toInt ∧ i.toInt ≤ 0x7FFFFFFF then .int .int32 (i.setWidth 32)
  else .int .int64 i

theorem intValue_injective : Function.Injective intValue := by
  intro i i' heq
  unfold intValue at heq
  by_cases h : -0x80000000 ≤ i.toInt ∧ i.toInt ≤ 0x7FFFFFFF
  · by_cases h' : -0x80000000 ≤ i'.toInt ∧ i'.toInt ≤ 0x7FFFFFFF
    · rw [if_pos h, if_pos h'] at heq
      injection heq with _ heq
      rw [← signExtend_setWidth h, heq, signExtend_setWidth h']
    · rw [if_pos h, if_neg h'] at heq
      cases heq
  · by_cases h' : -0x80000000 ≤ i'.toInt ∧ i'.toInt ≤ 0x7FFFFFFF
    · rw [if_neg h, if_pos h'] at heq
      cases heq
    · rw [if_neg h, if_neg h'] at heq
      injection heq

theorem numberValue_of_int {n : JsonNumber} {i : U64} (h : n.asI64 = some i) :
    numberValue n = intValue i := by
  rw [numberValue, h]
  rfl

theorem numberValue_of_float {n : JsonNumber} (h : n.asI64 = none) :
    numberValue n = .float64 n.asF64 := by
  rw [numberValue, h]

theorem intValue_ne_float64 (i f : U64) : intValue i ≠ .float64 f := by
  unfold intValue
  split <;> exact nofun

/-- Numbers are told apart by their integers, and by their floats where they have none. -/
theorem numberValue_eq_iff (n n' : JsonNumber) : numberValue n = numberValue n' ↔
    n.asI64 = n'.asI64 ∧ (n.asI64 = none → n.asF64 = n'.asF64) := by
  cases hn : n.asI64 with
  | some i =>
    cases hn' : n'.asI64 with
    | some i' =>
      rw [numberValue_of_int hn, numberValue_of_int hn', intValue_injective.eq_iff]
      simp only [Option.some.injEq, reduceCtorEq, false_implies, and_true]
    | none =>
      rw [numberValue_of_int hn, numberValue_of_float hn']
      exact iff_of_false (intValue_ne_float64 _ _) nofun
  | none =>
    cases hn' : n'.asI64 with
    | some i' =>
      rw [numberValue_of_float hn, numberValue_of_int hn']
      exact iff_of_false (Ne.symm (intValue_ne_float64 _ _)) nofun
    | none =>
      rw [numberValue_of_float hn, numberValue_of_float hn']
      simp only [Value.float64.injEq, true_and, forall_const]

namespace JsonValue

/-- The kind of a value that is not read as bytes. -/
def kind : JsonValue → Nat
  | null => 0
  | bool _ => 1
  | number _ => 2
  | string _ | array _ => 3
  | object _ => 4

end JsonValue

/-- The kind of what it is read as. -/
def Value.jsonKind : Value → Nat
  | .null => 0
  | .bool _ => 1
  | .vec _ => 3
  | .struct _ => 4
  | _ => 2

/-- A value that is not read as bytes keeps its kind. -/
theorem jsonKind_jsonToValue {jv : JsonValue} (h : jv.bytes b64Decode = none) :
    (jsonToValue b64Decode jv).jsonKind = jv.kind := by
  cases jv with
  | null | bool | string | array => rfl
  | number n =>
    rw [jsonToValue]
    cases hn : n.asI64 with
    | some i =>
      rw [numberValue_of_int hn, intValue]
      split <;> rfl
    | none =>
      rw [numberValue_of_float hn]
      rfl
  | object fields =>
    rw [jsonToValue, sentinel_eq_bytes, h]
    rfl

/-- It is not read as bytes. -/
theorem jsonToValue_ne_bytesValue {jv : JsonValue} (h : jv.bytes b64Decode = none)
    (bs : List U8) : jsonToValue b64Decode jv ≠ bytesValue bs := by
  intro heq
  have hkind := jsonKind_jsonToValue h
  rw [heq] at hkind
  cases jv with
  | string s => cases h
  | array elems =>
    cases elems with
    | nil => cases h
    | cons jv elems =>
      injection heq with heq
      cases bs with
      | nil => cases heq
      | cons b bs =>
        have hbyte : (jsonToValue b64Decode jv).byte = none := byte_jsonToValue jv
        rw [(List.cons.inj heq).1] at hbyte
        cases hbyte
  | _ => cases hkind

section Equal

variable {jv jv' : JsonValue}

/-- Equal values are read from the same bytes. -/
theorem bytes_eq_of_eq (heq : jsonToValue b64Decode jv = jsonToValue b64Decode jv') :
    jv.bytes b64Decode = jv'.bytes b64Decode := by
  cases h : jv.bytes b64Decode with
  | some bs =>
    cases h' : jv'.bytes b64Decode with
    | some bs' =>
      rw [jsonToValue_of_bytes h, jsonToValue_of_bytes h'] at heq
      rw [bytesValue_injective heq]
    | none =>
      rw [jsonToValue_of_bytes h] at heq
      exact absurd heq.symm (jsonToValue_ne_bytesValue h' bs)
  | none =>
    cases h' : jv'.bytes b64Decode with
    | some bs' =>
      rw [jsonToValue_of_bytes h'] at heq
      exact absurd heq (jsonToValue_ne_bytesValue h bs')
    | none => rfl

/-- Equal values that are not read from bytes are of the same kind. -/
theorem kind_eq_of_eq (h : jv.bytes b64Decode = none)
    (heq : jsonToValue b64Decode jv = jsonToValue b64Decode jv') :
    jv'.bytes b64Decode = none ∧ jv.kind = jv'.kind := by
  have h' := (bytes_eq_of_eq heq).symm.trans h
  refine ⟨h', ?_⟩
  rw [← jsonKind_jsonToValue h, heq, jsonKind_jsonToValue h']

/-- Lists that are mapped to the same list. -/
theorem map_eq_map_iff_forall₂ {α β : Type} {f : α → β} {xs ys : List α} :
    xs.map f = ys.map f ↔ List.Forall₂ (fun x y => f x = f y) xs ys := by
  rw [← List.forall₂_eq_eq_eq, List.forall₂_map_left_iff, List.forall₂_map_right_iff]

/-- The relation has to be shown for elements only. -/
theorem forall₂_imp_of_mem {α : Type} {R S : α → α → Prop} {xs ys : List α}
    (h : List.Forall₂ R xs ys) (himp : ∀ x ∈ xs, ∀ y ∈ ys, R x y → S x y) :
    List.Forall₂ S xs ys := by
  induction h with
  | nil => exact .nil
  | cons hhead _ ih =>
    refine .cons (himp _ List.mem_cons_self _ List.mem_cons_self hhead) (ih ?_)
    exact fun x hx y hy => himp x (List.mem_cons_of_mem _ hx) y (List.mem_cons_of_mem _ hy)

/-- What is read as the same value is alike. -/
theorem alike_of_eq (h : jv.Sized) (h' : jv'.Sized)
    (heq : jsonToValue b64Decode jv = jsonToValue b64Decode jv') : jv.Alike b64Decode jv' := by
  induction h generalizing jv' with
  | null =>
    obtain ⟨-, hkind⟩ := kind_eq_of_eq rfl heq
    cases jv' with
    | null => exact .null
    | _ => cases hkind
  | bool b =>
    obtain ⟨-, hkind⟩ := kind_eq_of_eq rfl heq
    cases jv' with
    | bool b' =>
      cases heq
      exact .bool b
    | _ => cases hkind
  | number n =>
    obtain ⟨-, hkind⟩ := kind_eq_of_eq rfl heq
    cases jv' with
    | number n' =>
      obtain ⟨hint, hfloat⟩ := (numberValue_eq_iff n n').mp heq
      exact .number hint hfloat
    | _ => cases hkind
  | string s => exact .bytes rfl (bytes_eq_of_eq heq).symm
  | @array elems _ ih =>
    cases hbytes : (JsonValue.array elems).bytes b64Decode with
    | some bs => exact .bytes hbytes ((bytes_eq_of_eq heq).symm.trans hbytes)
    | none =>
      obtain ⟨hbytes', hkind⟩ := kind_eq_of_eq hbytes heq
      cases h' with
      | @array elems' h' =>
        rw [jsonToValue, jsonToValue, jsonElems_eq_map, jsonElems_eq_map] at heq
        have hall := map_eq_map_iff_forall₂.mp (Value.vec.inj heq)
        exact .array (forall₂_imp_of_mem hall fun x hx y hy hxy => ih x hx (h' y hy) hxy)
      | string s => cases hbytes'
      | _ => cases hkind
  | @object fields hlen _ ih =>
    cases hbytes : (JsonValue.object fields).bytes b64Decode with
    | some bs => exact .bytes hbytes ((bytes_eq_of_eq heq).symm.trans hbytes)
    | none =>
      obtain ⟨hbytes', hkind⟩ := kind_eq_of_eq hbytes heq
      cases h' with
      | @object fields' hlen' h' =>
        rw [jsonToValue_object hbytes hlen, jsonToValue_object hbytes' hlen'] at heq
        have hmap := congrArg (List.map Prod.snd) (Value.struct.inj heq)
        rw [map_snd_numbered, map_snd_numbered] at hmap
        have hall := map_eq_map_iff_forall₂.mp hmap
        exact .object hbytes hbytes'
          (forall₂_imp_of_mem hall fun e he e' he' hee => ih e he (h' e' he') hee)
      | _ => cases hkind

/-- What is alike is read as the same value. -/
theorem eq_of_alike (h : jv.Sized) (h' : jv'.Sized) (halike : jv.Alike b64Decode jv') :
    jsonToValue b64Decode jv = jsonToValue b64Decode jv' := by
  induction h generalizing jv' with
  | null | bool | string =>
    cases halike with
    | bytes h h' => rw [jsonToValue_of_bytes h, jsonToValue_of_bytes h']
    | _ => rfl
  | number n =>
    cases halike with
    | bytes h h' => rw [jsonToValue_of_bytes h, jsonToValue_of_bytes h']
    | number hint hfloat => exact (numberValue_eq_iff _ _).mpr ⟨hint, hfloat⟩
  | @array elems _ ih =>
    cases halike with
    | bytes h h' => rw [jsonToValue_of_bytes h, jsonToValue_of_bytes h']
    | array hall =>
      cases h' with
      | array h' =>
        rw [jsonToValue, jsonToValue, jsonElems_eq_map, jsonElems_eq_map]
        refine congrArg Value.vec (map_eq_map_iff_forall₂.mpr ?_)
        exact forall₂_imp_of_mem hall fun x hx y hy hxy => ih x hx (h' y hy) hxy
  | @object fields hlen _ ih =>
    cases halike with
    | bytes h h' => rw [jsonToValue_of_bytes h, jsonToValue_of_bytes h']
    | object hbytes hbytes' hall =>
      cases h' with
      | object hlen' h' =>
        rw [jsonToValue_object hbytes hlen, jsonToValue_object hbytes' hlen']
        refine congrArg (fun vs => Value.struct (numbered vs)) (map_eq_map_iff_forall₂.mpr ?_)
        exact forall₂_imp_of_mem hall fun e he e' he' hee => ih e he (h' e' he') hee

end Equal

/-! ## The order of the fields -/

section Members

variable {members : List (String × JsonValue)}

/-- The fields of the `STRUCT` stand as the members are written. -/
def FieldsAsWritten (b64Decode : String → Option (List U8))
    (members : List (String × JsonValue)) : Prop :=
  jsonToValue b64Decode (.object (jsonMap members)) =
    .struct (numbered (members.map fun e => jsonToValue b64Decode e.2))

/-- The map of an object with different keys is binary data only if the object is. -/
theorem bytes_jsonMap (hkeys : (members.map Prod.fst).Nodup)
    (hbytes : (JsonValue.object members).bytes b64Decode = none) :
    (JsonValue.object (jsonMap members)).bytes b64Decode = none := by
  have hlen := (jsonMap_perm hkeys).length_eq
  match members, hbytes with
  | [], _ => rfl
  | [e], hbytes => exact hbytes
  | e :: e' :: members, _ =>
    unfold JsonValue.bytes
    split
    case h_3 key enc heq =>
      rw [JsonValue.object.inj heq] at hlen
      exact absurd hlen (by simp)
    case h_1 heq => cases heq
    case h_2 heq => cases heq
    case h_4 => rfl

/-- **Fields of an object.**  The fields stand as the members are written, if and only if what is
written at each place is read like what stands there in the order of the keys. -/
theorem json_fields_iff (hkeys : (members.map Prod.fst).Nodup)
    (hbytes : (JsonValue.object members).bytes b64Decode = none)
    (hsized : (JsonValue.object members).Sized) :
    FieldsAsWritten b64Decode members ↔
      List.Forall₂ (fun e e' => e.2.Alike b64Decode e'.2) (jsonMap members) members := by
  have hperm := jsonMap_perm hkeys
  cases hsized with
  | object hlen hall =>
    have hlen' : (jsonMap members).length ≤ 2 ^ 32 := hperm.length_eq ▸ hlen
    have hall' : ∀ e ∈ jsonMap members, e.2.Sized := fun e he => hall e (hperm.mem_iff.mp he)
    rw [FieldsAsWritten, jsonToValue_object (bytes_jsonMap hkeys hbytes) hlen']
    constructor
    · intro heq
      have hmap := congrArg (List.map Prod.snd) (Value.struct.inj heq)
      rw [map_snd_numbered, map_snd_numbered] at hmap
      refine forall₂_imp_of_mem (map_eq_map_iff_forall₂.mp hmap) fun e he e' he' hee => ?_
      exact alike_of_eq (hall' e he) (hall e' he') hee
    · intro halike
      refine congrArg (fun vs => Value.struct (numbered vs)) (map_eq_map_iff_forall₂.mpr ?_)
      refine forall₂_imp_of_mem halike fun e he e' he' hee => ?_
      exact eq_of_alike (hall' e he) (hall e' he') hee

/-- They do so when the keys are written in order. -/
theorem fieldsAsWritten_of_sorted (hsorted : members.Pairwise fun e e' => e.1 < e'.1)
    (hbytes : (JsonValue.object members).bytes b64Decode = none)
    (hlen : members.length ≤ 2 ^ 32) : FieldsAsWritten b64Decode members := by
  rw [FieldsAsWritten, jsonMap_of_sorted hsorted]
  exact jsonToValue_object hbytes hlen

end Members

/-- `{"y": null, "x": null}`. -/
theorem json_fields_null : FieldsAsWritten (fun _ => none) [("y", .null), ("x", .null)] := by
  refine (json_fields_iff (by decide) rfl ?_).mpr ?_
  · refine .object (by decide) fun e he => ?_
    simp only [List.mem_cons, List.not_mem_nil, or_false] at he
    rcases he with rfl | rfl <;> exact .null
  · have hmap : jsonMap [("y", .null), ("x", .null)] = [("x", .null), ("y", .null)] := by rfl
    rw [hmap]
    exact .cons .null (.cons .null .nil)

/-- `{"y": true, "x": false}`. -/
theorem json_fields_swapped : ∃ members : List (String × JsonValue),
    (members.map Prod.fst).Nodup ∧
    (JsonValue.object members).bytes (fun _ => none) = none ∧
    ¬ FieldsAsWritten (fun _ => none) members := by
  refine ⟨[("y", .bool true), ("x", .bool false)], by decide, rfl, ?_⟩
  have hmap : jsonMap [("y", .bool true), ("x", .bool false)] =
      [("x", .bool false), ("y", .bool true)] := by rfl
  rw [FieldsAsWritten, hmap]
  intro heq
  cases heq

end Fasm
