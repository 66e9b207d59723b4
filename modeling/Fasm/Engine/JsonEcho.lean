import Fasm.Engine.HttpHandler

/-!
# From a result to the response

`value_to_json` of `http_handler.rs`, the way back from a value to JSON.  Strings, byte vectors
and arrays have all become `VEC`s on the way in, so it has to guess: a vector of bytes is a
string, or a base64 object where it is not valid UTF-8.  An array never holds bytes, so the
guess is right, but for the empty array.

`base64` and the `Debug` texts of values are parameters.
-/

namespace Fasm

/-! ## Numbers and objects -/

/-- `Number::from`, for an `i64`. -/
def JsonNumber.ofI64 (i : U64) : JsonNumber := if i.toInt < 0 then .negInt i else .posInt i

/-- `json!` of an `f64`: `null` where it is no number. -/
def floatJson (bits : U64) : JsonValue :=
  if (bits >>> 52) &&& 0x7FF = 0x7FF then .null else .number (.float bits)

/-- `serde_json::Map::insert`: the keys are in order. -/
def jsonMapInsert (key : String) (jv : JsonValue) :
    List (String × JsonValue) → List (String × JsonValue)
  | [] => [(key, jv)]
  | e :: fields =>
    if key < e.1 then (key, jv) :: e :: fields
    else if key = e.1 then (key, jv) :: fields
    else e :: jsonMapInsert key jv fields

/-- The byte of a `UINT8`. -/
def Value.byte : Value → Option U8
  | .int .uint8 b => some b
  | _ => none

/-- The bytes among the elements of a vector. -/
def bytesOf (elems : List Value) : List U8 := elems.filterMap Value.byte

/-- What `value_to_json` takes from elsewhere. -/
structure JsonLib where
  b64Encode : List U8 → String
  debug : Value → String

/-- A vector of bytes. -/
def bytesJson (lib : JsonLib) (bytes : List U8) : JsonValue :=
  match fromUtf8 bytes with
  | .ok s => .string s
  | .error _ => .object [("$b64", .string (lib.b64Encode bytes))]

/-! ## Values -/

mutual

/-- `value_to_json`. -/
def valueToJson (lib : JsonLib) : Value → JsonValue
  | .null => .null
  | .bool b => .bool b
  | .int .int32 n => .number (.ofI64 (n.signExtend 64))
  | .int .int64 n => .number (.ofI64 n)
  | .int .uint8 n => .number (.posInt (n.setWidth 64))
  | .int .uint16 n => .number (.posInt (n.setWidth 64))
  | .int .uint32 n => .number (.posInt (n.setWidth 64))
  | .int .uint64 n => .number (.posInt n)
  | .float32 f => floatJson (f32AsF64 f)
  | .float64 f => floatJson f
  | .vec elems =>
    if (bytesOf elems).length = elems.length then bytesJson lib (bytesOf elems)
    else .array (elemsJson lib elems)
  | .struct fields => .object (fieldsJson lib fields [])
  | .option o => optionJson lib o
  | .result r => resultJson lib r
  | v => .string (lib.debug v)
termination_by structural v => v

/-- The elements of a vector. -/
def elemsJson (lib : JsonLib) : List Value → List JsonValue
  | [] => []
  | v :: elems => valueToJson lib v :: elemsJson lib elems
termination_by structural elems => elems

/-- The fields of a struct, under the texts of their keys. -/
def fieldsJson (lib : JsonLib) :
    List (U32 × Value) → List (String × JsonValue) → List (String × JsonValue)
  | [], map => map
  | e :: fields, map => fieldsJson lib fields (fieldJson lib e map)
termination_by structural fields => fields

def fieldJson (lib : JsonLib) :
    U32 × Value → List (String × JsonValue) → List (String × JsonValue)
  | (k, v), map => jsonMapInsert (toString k.toNat) (valueToJson lib v) map
termination_by structural e => e

def optionJson (lib : JsonLib) : Option Value → JsonValue
  | none => .null
  | some v => valueToJson lib v
termination_by structural o => o

def resultJson (lib : JsonLib) : Except U32 Value → JsonValue
  | .ok v => .object [("ok", valueToJson lib v)]
  | .error c => .object [("err", .number (.posInt (c.setWidth 64)))]
termination_by structural r => r

end

theorem elemsJson_eq_map (lib : JsonLib) (elems : List Value) :
    elemsJson lib elems = elems.map (valueToJson lib) := by
  induction elems with
  | nil => rfl
  | cons v elems ih => rw [elemsJson, ih, List.map_cons]

theorem jsonElems_eq_map (b64Decode : String → Option (List U8)) (elems : List JsonValue) :
    jsonElems b64Decode elems = elems.map (jsonToValue b64Decode) := by
  induction elems with
  | nil => rfl
  | cons jv elems ih => rw [jsonElems, ih, List.map_cons]

/-! ## Echoes -/

/-- Built from `null`, booleans, integers in the range of an `i64`, strings and arrays. -/
inductive JsonValue.Plain : JsonValue → Prop
  | null : Plain .null
  | bool (b : Bool) : Plain (.bool b)
  | integer (i : U64) : Plain (.number (.ofI64 i))
  | string (s : String) : Plain (.string s)
  | array {elems : List JsonValue} (h : ∀ jv ∈ elems, Plain jv) : Plain (.array elems)

/-- There is an empty array in it, at some depth. -/
inductive JsonValue.HasEmptyArray : JsonValue → Prop
  | here : HasEmptyArray (.array [])
  | inside {jv : JsonValue} {elems : List JsonValue} (hmem : jv ∈ elems)
    (h : HasEmptyArray jv) : HasEmptyArray (.array elems)

variable {lib : JsonLib} {b64Decode : String → Option (List U8)}

/-- All elements of the vector of a text are bytes. -/
theorem bytesOf_bytesValue (bytes : List U8) :
    bytesOf (bytes.map fun b => .int .uint8 b) = bytes := by
  induction bytes with
  | nil => rfl
  | cons b bytes ih => exact congrArg (b :: ·) ih

/-- A string comes back. -/
theorem valueToJson_textValue (s : String) : valueToJson lib (textValue s) = .string s := by
  have hbytes := bytesOf_bytesValue (asBytes s)
  have hlen : (bytesOf ((asBytes s).map fun b => .int .uint8 b)).length =
      ((asBytes s).map fun b => Value.int .uint8 b).length := by
    rw [hbytes]
    exact (List.length_map _).symm
  show (if _ then bytesJson lib _ else _) = _
  rw [if_pos hlen, hbytes, bytesJson, fromUtf8_asBytes]

/-- No JSON value becomes a byte. -/
theorem byte_jsonToValue (jv : JsonValue) : (jsonToValue b64Decode jv).byte = none := by
  cases jv with
  | null | bool | string | array => rfl
  | number n =>
    rw [jsonToValue, numberValue]
    split
    · split <;> rfl
    · rfl
  | object fields =>
    rw [jsonToValue]
    split
    · rename_i v hv
      unfold sentinel at hv
      split at hv
      · split at hv
        · obtain ⟨bytes, -, rfl⟩ := Option.map_eq_some_iff.mp hv
          rfl
        · cases hv
      · cases hv
    · rfl

/-- The integers of an `i64` are told from other numbers. -/
theorem asI64_ofI64 (i : U64) : (JsonNumber.ofI64 i).asI64 = some i := by
  unfold JsonNumber.ofI64
  split
  · rfl
  · rename_i hneg
    have hle : i ≤ 0x7FFFFFFFFFFFFFFF := by
      rw [BitVec.toInt_eq_toNat_cond] at hneg
      rw [BitVec.le_def]
      split at hneg
      · show i.toNat ≤ 9223372036854775807
        omega
      · have := i.isLt
        omega
    rw [JsonNumber.asI64, if_pos hle]

/-- Narrowing an integer that fits an `i32` loses nothing. -/
theorem signExtend_setWidth {i : U64} (h : -0x80000000 ≤ i.toInt ∧ i.toInt ≤ 0x7FFFFFFF) :
    (i.setWidth 32).signExtend 64 = i := by
  apply BitVec.eq_of_toInt_eq
  rw [BitVec.toInt_signExtend_of_le (by decide), BitVec.toInt_setWidth]
  rw [BitVec.toInt_eq_toNat_bmod] at h ⊢
  rw [← Int.bmod_bmod_of_dvd (n := 2 ^ 32) (m := 2 ^ 64) (by decide)]
  exact Int.bmod_eq_of_le (by omega) (by omega)

/-- An integer comes back. -/
theorem valueToJson_numberValue (i : U64) :
    valueToJson lib (numberValue (.ofI64 i)) = .number (.ofI64 i) := by
  rw [numberValue, asI64_ofI64]
  simp only
  split
  · rename_i h
    show JsonValue.number (.ofI64 ((i.setWidth 32).signExtend 64)) = _
    rw [signExtend_setWidth h]
  · rfl

/-- An array with an element comes back as an array. -/
theorem valueToJson_array {elems : List JsonValue} (h : elems ≠ []) :
    valueToJson lib (jsonToValue b64Decode (.array elems)) =
      .array (elems.map fun jv => valueToJson lib (jsonToValue b64Decode jv)) := by
  have hbytes : bytesOf (elems.map (jsonToValue b64Decode)) = [] := by
    rw [bytesOf, List.filterMap_eq_nil_iff]
    intro v hv
    obtain ⟨jv, -, rfl⟩ := List.mem_map.mp hv
    exact byte_jsonToValue jv
  have hlen : ¬ (bytesOf (elems.map (jsonToValue b64Decode))).length =
      (elems.map (jsonToValue b64Decode)).length := by
    rw [hbytes, List.length_map]
    exact fun hzero => h (List.length_eq_zero_iff.mp hzero.symm)
  rw [jsonToValue, jsonElems_eq_map, valueToJson, if_neg hlen, elemsJson_eq_map, List.map_map]
  rfl

/-- The empty array comes back as the empty string. -/
theorem valueToJson_empty :
    valueToJson lib (jsonToValue b64Decode (.array [])) = .string "" := by
  exact valueToJson_textValue ""

/-- **Echo.**  What a handler gives back of a body built from `null`, booleans, integers, strings
and arrays is the body, exactly when there is no empty array in it. -/
theorem json_echo_iff {jv : JsonValue} (h : jv.Plain) :
    valueToJson lib (jsonToValue b64Decode jv) = jv ↔ ¬ jv.HasEmptyArray := by
  induction h with
  | null => exact iff_of_true rfl nofun
  | bool b => exact iff_of_true rfl nofun
  | integer i =>
    refine iff_of_true ?_ nofun
    rw [jsonToValue]
    exact valueToJson_numberValue i
  | string s =>
    refine iff_of_true ?_ nofun
    rw [jsonToValue]
    exact valueToJson_textValue s
  | @array elems _ ih =>
    cases elems with
    | nil =>
      refine iff_of_false ?_ fun hno => hno .here
      rw [valueToJson_empty]
      exact nofun
    | cons jv elems =>
      have hmap := List.map_inj_left (l := jv :: elems) (g := id)
        (f := fun jv => valueToJson lib (jsonToValue b64Decode jv))
      rw [List.map_id] at hmap
      rw [valueToJson_array (List.cons_ne_nil jv elems)]
      constructor
      · intro hecho hempty
        have hall := hmap.mp (JsonValue.array.inj hecho)
        cases hempty with
        | inside hmem hinside => exact (ih _ hmem).mp (hall _ hmem) hinside
      · intro hno
        refine congrArg JsonValue.array (hmap.mpr ?_)
        intro jv' hmem
        exact (ih jv' hmem).mpr fun hinside => hno (.inside hmem hinside)

/-- Nested arrays with elements. -/
theorem json_echo_nested :
    valueToJson ⟨fun _ => "", fun _ => ""⟩ (jsonToValue (fun _ => none)
      (.array [.array [.null, .string ""], .number (.ofI64 5)])) =
        .array [.array [.null, .string ""], .number (.ofI64 5)] := by
  refine (json_echo_iff (.array ?_)).mpr ?_
  · intro jv hjv
    simp only [List.mem_cons, List.not_mem_nil, or_false] at hjv
    rcases hjv with rfl | rfl
    · refine .array fun jv hjv => ?_
      simp only [List.mem_cons, List.not_mem_nil, or_false] at hjv
      rcases hjv with rfl | rfl
      · exact .null
      · exact .string ""
    · exact .integer 5
  · intro h
    cases h with
    | inside hmem h =>
      simp only [List.mem_cons, List.not_mem_nil, or_false] at hmem
      rcases hmem with rfl | rfl
      · cases h with
        | inside hmem h =>
          simp only [List.mem_cons, List.not_mem_nil, or_false] at hmem
          rcases hmem with rfl | rfl <;> cases h
      · cases h

/-- The body `[]` is answered with `""`. -/
theorem json_echo_empty_array :
    JsonValue.Plain (.array []) ∧ ∀ lib b64Decode,
      valueToJson lib (jsonToValue b64Decode (.array [])) = .string "" ∧
        valueToJson lib (jsonToValue b64Decode (.array [])) ≠ .array [] := by
  refine ⟨.array nofun, fun lib b64Decode => ⟨valueToJson_empty, ?_⟩⟩
  rw [valueToJson_empty]
  exact nofun

end Fasm
