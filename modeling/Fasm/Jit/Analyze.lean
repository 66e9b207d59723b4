import Fasm.Bytecode.Instruction

/-!
# Eligibility for the JIT

`analyze.rs`: which functions the JIT compiles, and what it knows of them.  A
`HashMap` from slots to types is a list of entries with the latest first; the set of
struct slots is a list.
-/

namespace Fasm

/-- `JitType`: the four machine types, which are also the Cranelift types in use. -/
inductive JitType where
  | i32 | i64 | f32 | f64
deriving DecidableEq, Repr

namespace JitType

/-- `JitType::from_fasm`. -/
def fromFasm : FasmType → Option JitType
  | .bool => some i32
  | .int .int64 | .int .uint64 => some i64
  | .int _ => some i32
  | .float32 => some f32
  | .float64 => some f64
  | _ => none

/-- Width in bits. -/
def width : JitType → Nat
  | i32 | f32 => 32
  | i64 | f64 => 64

/-- Is this one of the integer types? -/
def isInt : JitType → Bool
  | i32 | i64 => true
  | f32 | f64 => false

theorem width_le (t : JitType) : t.width ≤ 64 := by cases t <;> decide

theorem width_pos (t : JitType) : 0 < t.width := by cases t <;> decide

end JitType

/-- `JitFnInfo`. -/
structure JitFnInfo where
  slotTypes : List (U8 × JitType)
  structAccumulators : List U8
  params : List (U32 × JitType)
  retType : JitType
deriving DecidableEq, Repr

/-- What a `RESERVE` tells of its slot: a numeric type, a struct, or nothing that the JIT
supports. -/
def reserveSlot (acc : List (U8 × JitType) × List U8) (instr : Instruction) :
    Option (List (U8 × JitType) × List U8) :=
  if instr.opcode = .reserve then
    match instr.operands with
    | .slot (.local_ idx) :: .type t :: _ =>
      match JitType.fromFasm t with
      | some jt => some ((idx, jt) :: acc.1, acc.2)
      | none => if t = .struct then some (acc.1, idx :: acc.2) else none
    | _ => none
  else some acc

/-- What a `RET` tells of the return type: local slots must agree, a bare `RET`, `$ret` and
immediates do not count. -/
def retSlotType (slotTypes : List (U8 × JitType)) (acc : Option JitType) (instr : Instruction) :
    Option (Option JitType) :=
  if instr.opcode = .ret then
    match instr.operands.head? with
    | none | some (.slot (.builtIn .ret)) | some (.imm _) => some acc
    | some (.slot (.local_ idx)) => do
      let jt ← slotTypes.lookup idx
      match acc with
      | none => some (some jt)
      | some prev => if prev = jt then some acc else none
    | _ => none
  else some acc

/-- `is_jit_eligible_opcode`. -/
def isJitEligibleOpcode (instr : Instruction) (structSlots : List U8) (selfIdx : Nat) : Bool :=
  match instr.opcode with
  | .nop | .reserve | .release | .mov | .store | .add | .sub | .mul | .div | .mod | .neg
  | .eq | .neq | .lt | .lte | .gt | .gte | .and | .or | .xor | .not | .shl | .shr
  | .jmp | .jz | .jnz | .ret | .halt | .cast | .tmpBlock | .endTmp => true
  | .getField =>
    match instr.operands.head? with
    | some (.slot (.builtIn .args)) => true
    | _ => false
  | .setField =>
    match instr.operands.head? with
    | some (.slot (.local_ idx)) => structSlots.contains idx
    | _ => false
  | .tailCall =>
    match instr.operands.head? with
    | some (.funcRef idx) => idx.toNat == selfIdx
    | _ => false
  | _ => false

/-- `analyze_function`.  Its last pass, over `GET_FIELD` and `SET_FIELD`, repeats what the
whitelist has checked. -/
def analyzeFunction (func : FunctionDef) (selfIdx : Nat) : Option JitFnInfo := do
  let (slotTypes, structSlots) ← func.instructions.foldlM reserveSlot ([], [])
  let params ← func.params.mapM fun p => (JitType.fromFasm p.fasmType).map (p.key, ·)
  let retType ← func.instructions.foldlM (retSlotType slotTypes) none
  if func.instructions.all fun instr => isJitEligibleOpcode instr structSlots selfIdx then
    some ⟨slotTypes, structSlots, params, retType.getD .i64⟩
  else none

/-- `analyze_program`: the eligible functions with their indices. -/
def analyzeProgram (p : Program) : List (Nat × JitFnInfo) :=
  p.functions.zipIdx.filterMap fun (func, idx) => (analyzeFunction func idx).map (idx, ·)

/-- An eligible function is one of the program. -/
theorem mem_analyzeProgram {p : Program} {idx : Nat} {info : JitFnInfo} :
    (idx, info) ∈ analyzeProgram p ↔
      ∃ func, p.functions[idx]? = some func ∧ analyzeFunction func idx = some info := by
  simp only [analyzeProgram, List.mem_filterMap, Prod.exists, Option.map_eq_some_iff, Prod.mk.injEq,
    List.mk_mem_zipIdx_iff_getElem?]
  constructor
  · rintro ⟨func, _, hfunc, _, hinfo, rfl, rfl⟩
    exact ⟨func, hfunc, hinfo⟩
  · rintro ⟨func, hfunc, hinfo⟩
    exact ⟨func, idx, hfunc, info, hinfo, rfl, rfl⟩

end Fasm
