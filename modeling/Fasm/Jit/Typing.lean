import Fasm.Jit.Runs

/-!
# Which instructions are compiled

`analyze_function` lets an instruction pass by its opcode.  `compile_fn` compiles it if its
operands are of types that the Cranelift instruction can have, and if the operands are there.
-/

namespace Fasm

namespace JitFnInfo

variable (info : JitFnInfo)

/-- The type of an immediate. -/
def immType : Immediate → Option JitType
  | .bool _ => some .i32
  | .int t _ => some (if t.width = 64 then .i64 else .i32)
  | .float32 _ => some .f32
  | .float64 _ => some .f64
  | .null => if info.retType.isInt then some info.retType else none
  | .str _ => none

/-- The type of an operand that is read. -/
def readType : Operand → Option JitType
  | .slot (.local_ idx) => info.slotTypes.lookup idx
  | .slot (.builtIn .ret) => some info.retType
  | .imm i => info.immType i
  | _ => none

/-- The operand can be assigned a value of the type: a numeric slot of any, `$ret` of its own. -/
def stores : Operand → JitType → Bool
  | .slot (.local_ idx), _ => (info.slotTypes.lookup idx).isSome
  | .slot (.builtIn .ret), t => t == info.retType
  | _, _ => false

/-- The type of the operand at a position. -/
def typeAt (instr : Instruction) (n : Nat) : Option JitType :=
  instr.operands[n]?.bind info.readType

/-- The operand at a position can be assigned a value of the type. -/
def storesAt (instr : Instruction) (n : Nat) (t : JitType) : Bool :=
  instr.operands[n]?.any fun op => info.stores op t

end JitFnInfo

/-- There is an instruction for the operation at the type. -/
def BinOp.hasType : BinOp → JitType → Bool
  | .mod, t | .shl, t | .shr, t => t.isInt
  | _, _ => true

theorem JitType.isInt_i32 : JitType.i32.isInt = true := rfl

section Operands

variable {info : JitFnInfo}

theorem iconst_fst (t : JitType) (n : U64) :
    ((iconst (Γ := info.typeOf) t n).map (Sigma.mk t)).map Sigma.fst =
      if t.isInt then some t else none := by
  rw [iconst]
  split
  · rw [Option.map_some, Option.map_some]
  · rw [Option.map_none, Option.map_none]

theorem immToCv_fst (i : Immediate) : (immToCv (Γ := info.typeOf) info.retType i).map Sigma.fst =
    info.immType i := by
  cases i with
  | bool b => rw [immToCv, iconst_fst, JitFnInfo.immType, if_pos JitType.isInt_i32]
  | int t n =>
    rw [immToCv, iconst_fst, JitFnInfo.immType]
    split <;> rfl
  | float32 f => rw [immToCv, JitFnInfo.immType, Option.map_some]
  | float64 f => rw [immToCv, JitFnInfo.immType, Option.map_some]
  | null => rw [immToCv, iconst_fst, JitFnInfo.immType]
  | str s => rw [immToCv, JitFnInfo.immType, Option.map_none]

/-- What is read has the type of the operand. -/
theorem readOp_fst (op : Operand) : (readOp info op).map Sigma.fst = info.readType op := by
  cases op with
  | slot s =>
    cases s with
    | local_ idx =>
      rw [readOp, JitFnInfo.readType]
      cases h : info.slotTypes.lookup idx with
      | none => rw [Option.isSome_none, if_neg Bool.false_ne_true, Option.map_none]
      | some t =>
        rw [Option.isSome_some, if_pos rfl, Option.map_some]
        show some ((info.slotTypes.lookup idx).getD .i64) = _
        rw [h, Option.getD_some]
    | builtIn b =>
      cases b with
      | ret => rfl
      | _ => rfl
    | _ => rfl
  | imm i => exact immToCv_fst i
  | _ => rfl

theorem isSome_writeOp (op : Operand) (val : Typed info.typeOf) :
    (writeOp info op val).isSome = info.stores op val.1 := by
  cases op with
  | slot s =>
    cases s with
    | local_ idx =>
      rw [writeOp, JitFnInfo.stores]
      split
      case isTrue h => exact h.symm
      case isFalse h => exact (Bool.eq_false_iff.mpr h).symm
    | builtIn b =>
      cases b with
      | ret =>
        rw [writeOp, JitFnInfo.stores, Option.isSome_map, Typed.as]
        split
        case isTrue h => exact (beq_iff_eq.mpr h).symm
        case isFalse h => exact (beq_eq_false_iff_ne.mpr h).symm
      | _ => rfl
    | _ => rfl
  | _ => rfl

/-- Reading an operand, to go on with what only depends on its type. -/
theorem any_typeAt (instr : Instruction) (n : Nat) (f : JitType → Bool) :
    (info.typeAt instr n).any f =
      (instr.operands[n]?.bind (readOp info)).any fun a => f a.1 := by
  rw [JitFnInfo.typeAt]
  cases instr.operands[n]? with
  | none => rfl
  | some op =>
    rw [Option.bind_some, Option.bind_some, ← readOp_fst, Option.any_map]

theorem any_inst (op : BinOp) (t : JitType) :
    ((op.inst t).any fun inst => inst.accepts t) = op.hasType t := by
  cases op <;> cases t <;> rfl

/-- An assignment of a value of a type. -/
theorem isSome_bind_writeOp (instr : Instruction) (n : Nat) (val : Typed info.typeOf) :
    (instr.operands[n]?.bind fun op => writeOp info op val).isSome =
      info.storesAt instr n val.1 := by
  rw [Option.isSome_bind, JitFnInfo.storesAt]
  simp only [isSome_writeOp]

/-- A step that reads an operand succeeds as far as what it does then does, whatever is read. -/
theorem isSome_bind_readOp (instr : Instruction) (n : Nat) {α : Type}
    {k : Typed info.typeOf → Option α} {f : JitType → Bool} (h : ∀ a, (k a).isSome = f a.1) :
    (instr.operands[n]?.bind fun op => (readOp info op).bind k).isSome =
      (info.typeAt instr n).any f := by
  rw [any_typeAt, ← Option.bind_assoc, Option.isSome_bind]
  congr 1
  exact funext h

theorem isSome_emitBinop (instr : Instruction) (op : BinOp) : (emitBinop info instr op).isSome =
    (info.typeAt instr 0).any fun t => (info.typeAt instr 1).any fun _ =>
      op.hasType t && info.storesAt instr 2 t := by
  refine isSome_bind_readOp instr 0 fun a => isSome_bind_readOp instr 1 fun b => ?_
  have hinst := any_inst op a.1
  cases hop : op.inst a.1 with
  | none =>
    rw [hop, Option.any_none] at hinst
    rw [← hinst]
    rfl
  | some inst =>
    rw [hop, Option.any_some] at hinst
    rw [← hinst]
    show (if inst.accepts a.1 = true then _ else none).isSome = _
    cases inst.accepts a.1 with
    | false => rfl
    | true => exact isSome_bind_writeOp instr 2 _

theorem isSome_emitCmp (instr : Instruction) (cc : IntCC) : (emitCmp info instr cc).isSome =
    (info.typeAt instr 0).any fun t => (info.typeAt instr 1).any fun _ =>
      t.isInt && info.storesAt instr 2 .i32 := by
  refine isSome_bind_readOp instr 0 fun a => isSome_bind_readOp instr 1 fun b => ?_
  show (if a.1.isInt = true then _ else none).isSome = _
  cases a.1.isInt with
  | false => rfl
  | true => exact isSome_bind_writeOp instr 2 _

theorem isSome_emitBranch (instrs : List Instruction) (instr : Instruction) (cc : IntCC) :
    (emitBranch info instrs instr cc).isSome = (info.typeAt instr 0).any fun t =>
      (instr.operands[1]?.bind (jumpTarget instrs)).isSome && t.isInt := by
  refine isSome_bind_readOp instr 0 fun a => ?_
  show (instr.operands[1]?.bind fun op => (jumpTarget instrs op).bind fun target =>
    if a.1.isInt = true then some (Segment.brif cc a.2 target) else none).isSome = _
  rw [← Option.bind_assoc, Option.isSome_bind]
  cases instr.operands[1]?.bind (jumpTarget instrs) with
  | none => rfl
  | some target =>
    rw [Option.any_some, Option.isSome_some, Bool.true_and]
    cases a.1.isInt <;> rfl

end Operands

/-! ## Instructions -/

namespace JitFnInfo

variable (info : JitFnInfo)

/-- The types of a binary operation. -/
def binopTyped (instr : Instruction) (op : BinOp) : Bool :=
  (info.typeAt instr 0).any fun t => (info.typeAt instr 1).any fun _ =>
    op.hasType t && info.storesAt instr 2 t

/-- The types of a comparison: floats are not compared. -/
def cmpTyped (instr : Instruction) : Bool :=
  (info.typeAt instr 0).any fun t => (info.typeAt instr 1).any fun _ =>
    t.isInt && info.storesAt instr 2 .i32

/-- The types of a conditional jump, and its target. -/
def branchTyped (instrs : List Instruction) (instr : Instruction) : Bool :=
  (info.typeAt instr 0).any fun t =>
    (instr.operands[1]?.bind (jumpTarget instrs)).isSome && t.isInt

/-- The last `SET_FIELD` before a `TAIL_CALL` in the text sets the parameter, at its type. -/
def tailArgTyped (instrs : List Instruction) (slot : U8) (ip : Nat) (key : U32) : Bool :=
  (setfieldVal instrs slot key ip).any fun q =>
    (instrs[q]?.bind fun set => info.typeAt set 2).any fun t => t == info.typeOf (.param key)

/-- The operands of the instruction are there, and of types that it can have. -/
def typed (selfIdx : Nat) (instrs : List Instruction) (ip : Nat) (instr : Instruction) : Bool :=
  match instr.opcode with
  | .nop | .tmpBlock | .endTmp | .release | .reserve | .halt => true
  | .mov => (info.typeAt instr 0).any fun t => info.storesAt instr 1 t
  | .store =>
    match (instr.operands[0]? : Option Operand) with
    | some (.imm i) => (info.immType i).any fun t => info.storesAt instr 1 t
    | _ => false
  | .add => info.binopTyped instr .add
  | .sub => info.binopTyped instr .sub
  | .mul => info.binopTyped instr .mul
  | .div => info.binopTyped instr .div
  | .mod => info.binopTyped instr .mod
  | .and => info.binopTyped instr .and
  | .or => info.binopTyped instr .or
  | .xor => info.binopTyped instr .xor
  | .shl => info.binopTyped instr .shl
  | .shr => info.binopTyped instr .shr
  | .neg => (info.typeAt instr 0).any fun t => info.storesAt instr 1 t
  | .not => (info.typeAt instr 0).any fun t => t.isInt && info.storesAt instr 1 t
  | .eq | .neq | .lt | .lte | .gt | .gte => info.cmpTyped instr
  | .jmp => (instr.operands.getLast?.bind (jumpTarget instrs)).isSome
  | .jnz | .jz => info.branchTyped instrs instr
  | .getField =>
    match (instr.operands[0]? : Option Operand), (instr.operands[1]? : Option Operand) with
    | some (.slot (.builtIn .args)), some (.key key) =>
      (info.paramType key).any fun t => info.storesAt instr 2 t
    | _, _ => false
  | .setField =>
    match (instr.operands[0]? : Option Operand), (instr.operands[1]? : Option Operand) with
    | some (.slot (.local_ _)), some (.key _) => (info.typeAt instr 2).isSome
    | _, _ => false
  | .tailCall =>
    match (instr.operands[0]? : Option Operand), (instr.operands[1]? : Option Operand) with
    | some (.funcRef idx), some (.slot (.local_ slot)) =>
      idx.toNat == selfIdx && info.params.all fun param => info.tailArgTyped instrs slot ip param.1
    | _, _ => false
  | .ret =>
    match (instr.operands[0]? : Option Operand) with
    | none => true
    | some op => (info.readType op).isSome
  | .cast =>
    (info.typeAt instr 0).any fun _ =>
      match (instr.operands[1]? : Option Operand) with
      | some (.type t) => (JitType.fromFasm t).any fun target => info.storesAt instr 2 target
      | _ => false
  | _ => false

end JitFnInfo

section Instructions

variable {info : JitFnInfo} {instrs : List Instruction} {selfIdx ip : Nat}

theorem isSome_mapM {α β : Type} (f : α → Option β) (l : List α) :
    (l.mapM f).isSome = l.all fun a => (f a).isSome := by
  induction l with
  | nil => rfl
  | cons a l ih =>
    rw [List.mapM_cons, List.all_cons, ← ih]
    cases f a with
    | none => rfl
    | some b => cases l.mapM f <;> rfl

theorem isSome_tailArg (slot : U8) (key : U32) :
    (tailArg info instrs slot ip key).isSome = info.tailArgTyped instrs slot ip key := by
  rw [JitFnInfo.tailArgTyped]
  show ((setfieldVal instrs slot key ip).bind fun q => instrs[q]?.bind fun set =>
    set.operands[2]?.bind fun op => (readOp info op).bind fun val =>
      if val.1 = info.typeOf (.param key) then some (key, q) else none).isSome = _
  cases setfieldVal instrs slot key ip with
  | none => rfl
  | some q =>
    rw [Option.bind_some, Option.any_some]
    cases instrs[q]? with
    | none => rfl
    | some set =>
      rw [Option.bind_some, Option.bind_some]
      refine isSome_bind_readOp set 2 fun val => ?_
      split
      case isTrue h => exact (beq_iff_eq.mpr h).symm
      case isFalse h => exact (beq_eq_false_iff_ne.mpr h).symm

theorem isSome_compileStore (ops : List Operand) :
    (compileInstr info selfIdx instrs ip ⟨.store, ops⟩).isSome =
      info.typed selfIdx instrs ip ⟨.store, ops⟩ := by
  cases ops with
  | nil => rfl
  | cons op ops =>
    cases op with
    | imm i =>
      show ((ops[0]? : Option Operand).bind fun op => (immToCv info.retType i).bind fun val =>
        writeOp info op val).isSome = (info.immType i).any fun t =>
          (ops[0]? : Option Operand).any fun op => info.stores op t
      rw [← immToCv_fst, Option.any_map]
      cases (ops[0]? : Option Operand) with
      | none => cases immToCv (Γ := info.typeOf) info.retType i <;> rfl
      | some op =>
        cases immToCv (Γ := info.typeOf) info.retType i with
        | none => rfl
        | some val => exact isSome_writeOp op val
    | _ => rfl

theorem isSome_compileNot (ops : List Operand) :
    (compileInstr info selfIdx instrs ip ⟨.not, ops⟩).isSome =
      info.typed selfIdx instrs ip ⟨.not, ops⟩ := by
  refine isSome_bind_readOp (f := fun t => t.isInt && info.storesAt ⟨.not, ops⟩ 1 t) ⟨.not, ops⟩ 0
    fun a => ?_
  rw [iconst]
  cases a.1.isInt with
  | false => rfl
  | true => exact isSome_bind_writeOp ⟨.not, ops⟩ 1 ⟨a.1, _⟩

theorem isSome_compileJmp (ops : List Operand) :
    (compileInstr info selfIdx instrs ip ⟨.jmp, ops⟩).isSome =
      info.typed selfIdx instrs ip ⟨.jmp, ops⟩ := by
  show (ops.getLast?.bind fun op => (jumpTarget instrs op).bind fun t =>
    some (Segment.jump (Γ := info.typeOf) t)).isSome = (ops.getLast?.bind (jumpTarget instrs)).isSome
  cases ops.getLast? with
  | none => rfl
  | some op =>
    rw [Option.bind_some, Option.bind_some]
    cases jumpTarget instrs op <;> rfl

theorem isSome_compileRet (ops : List Operand) :
    (compileInstr info selfIdx instrs ip ⟨.ret, ops⟩).isSome =
      info.typed selfIdx instrs ip ⟨.ret, ops⟩ := by
  cases ops with
  | nil => rfl
  | cons op ops =>
    show ((readOp info op).map _).isSome = (info.readType op).isSome
    rw [← readOp_fst, Option.isSome_map, Option.isSome_map]

theorem isSome_compileCast (ops : List Operand) :
    (compileInstr info selfIdx instrs ip ⟨.cast, ops⟩).isSome =
      info.typed selfIdx instrs ip ⟨.cast, ops⟩ := by
  refine isSome_bind_readOp (f := fun _ => match (ops[1]? : Option Operand) with
    | some (.type t) =>
      (JitType.fromFasm t).any fun target => info.storesAt ⟨.cast, ops⟩ 2 target
    | _ => false) ⟨.cast, ops⟩ 0 fun a => ?_
  show ((ops[1]? : Option Operand).bind _).isSome = _
  cases (ops[1]? : Option Operand) with
  | none => rfl
  | some op =>
    cases op with
    | type t =>
      show ((JitType.fromFasm t).bind _).isSome = (JitType.fromFasm t).any _
      rw [Option.isSome_bind]
      congr 1
      exact funext fun target => isSome_bind_writeOp ⟨.cast, ops⟩ 2 ⟨target, _⟩
    | _ => rfl

/-- The instructions of a struct begin with two operands of a certain form. -/
theorem isSome_compileGetField (ops : List Operand) :
    (compileInstr info selfIdx instrs ip ⟨.getField, ops⟩).isSome =
      info.typed selfIdx instrs ip ⟨.getField, ops⟩ := by
  rcases ops with - | ⟨op, - | ⟨op', ops⟩⟩
  · rfl
  · cases op with
    | slot s =>
      cases s with
      | builtIn b => cases b <;> rfl
      | _ => rfl
    | _ => rfl
  · cases op with
    | slot s =>
      cases s with
      | builtIn b =>
        cases b with
        | args =>
          cases op' with
          | key key =>
            show (if (info.paramType key).isSome = true then _ else none).isSome =
              (info.paramType key).any _
            cases h : info.paramType key with
            | none => rfl
            | some t =>
              refine (isSome_bind_writeOp ⟨.getField, _⟩ 2 ⟨_, .useVar (.param key)⟩).trans ?_
              show info.storesAt _ 2 ((info.paramType key).getD .i64) = _
              rw [h]
              rfl
          | _ => rfl
        | _ => rfl
      | _ => rfl
    | _ => rfl

theorem isSome_compileSetField (ops : List Operand) :
    (compileInstr info selfIdx instrs ip ⟨.setField, ops⟩).isSome =
      info.typed selfIdx instrs ip ⟨.setField, ops⟩ := by
  rcases ops with - | ⟨op, - | ⟨op', ops⟩⟩
  · rfl
  · cases op with
    | slot s => cases s <;> rfl
    | _ => rfl
  · cases op with
    | slot s =>
      cases s with
      | local_ idx =>
        cases op' with
        | key key =>
          refine (isSome_bind_readOp (f := fun _ => true) ⟨.setField, _⟩ 2 fun _ => rfl).trans ?_
          show _ = (info.typeAt _ 2).isSome
          cases info.typeAt ⟨.setField, .slot (.local_ idx) :: .key key :: ops⟩ 2 <;> rfl
        | _ => rfl
      | _ => rfl
    | _ => rfl

theorem isSome_compileTailCall (ops : List Operand) :
    (compileInstr info selfIdx instrs ip ⟨.tailCall, ops⟩).isSome =
      info.typed selfIdx instrs ip ⟨.tailCall, ops⟩ := by
  rcases ops with - | ⟨op, - | ⟨op', ops⟩⟩
  · rfl
  · cases op <;> rfl
  · cases op with
    | funcRef idx =>
      cases op' with
      | slot s =>
        cases s with
        | local_ slot =>
          show (if idx.toNat = selfIdx then
            (info.params.mapM fun param => tailArg info instrs slot ip param.1).bind fun args =>
              some (Segment.loop args) else none).isSome = _
          split
          case isTrue h =>
            have hargs := isSome_mapM (fun param : U32 × JitType =>
              tailArg info instrs slot ip param.1) info.params
            simp only [isSome_tailArg] at hargs
            show _ = (idx.toNat == selfIdx && _)
            rw [beq_iff_eq.mpr h, Bool.true_and, ← hargs]
            cases info.params.mapM fun param => tailArg info instrs slot ip param.1 <;> rfl
          case isFalse h =>
            show _ = (idx.toNat == selfIdx && _)
            rw [beq_eq_false_iff_ne.mpr h]
            rfl
        | _ => rfl
      | _ => rfl
    | _ => rfl

/-- An instruction is compiled exactly if it is well typed. -/
theorem isSome_compileInstr (instr : Instruction) :
    (compileInstr info selfIdx instrs ip instr).isSome = info.typed selfIdx instrs ip instr := by
  obtain ⟨op, ops⟩ := instr
  cases op with
  | add => exact isSome_emitBinop _ .add
  | sub => exact isSome_emitBinop _ .sub
  | mul => exact isSome_emitBinop _ .mul
  | div => exact isSome_emitBinop _ .div
  | mod => exact isSome_emitBinop _ .mod
  | and => exact isSome_emitBinop _ .and
  | or => exact isSome_emitBinop _ .or
  | xor => exact isSome_emitBinop _ .xor
  | shl => exact isSome_emitBinop _ .shl
  | shr => exact isSome_emitBinop _ .shr
  | eq | neq | lt | lte | gt | gte => exact isSome_emitCmp _ _
  | jz | jnz => exact isSome_emitBranch instrs _ _
  | mov => exact isSome_bind_readOp ⟨.mov, ops⟩ 0 fun a => isSome_bind_writeOp _ 1 a
  | neg =>
    exact isSome_bind_readOp (f := fun t => info.storesAt ⟨.neg, ops⟩ 1 t) ⟨.neg, ops⟩ 0 fun a =>
      isSome_bind_writeOp ⟨.neg, ops⟩ 1 ⟨a.1, _⟩
  | store => exact isSome_compileStore ops
  | not => exact isSome_compileNot ops
  | jmp => exact isSome_compileJmp ops
  | getField => exact isSome_compileGetField ops
  | setField => exact isSome_compileSetField ops
  | tailCall => exact isSome_compileTailCall ops
  | ret => exact isSome_compileRet ops
  | cast => exact isSome_compileCast ops
  | _ => rfl

end Instructions

/-! ## Functions and programs -/

/-- Every instruction of the function is well typed, and no two of its parameters have one key and
two types. -/
def FunctionDef.WellTyped (func : FunctionDef) (info : JitFnInfo) (idx : Nat) : Prop :=
  (∀ param ∈ info.params, info.typeOf (.param param.1) = param.2) ∧
    ∀ ip instr, func.instructions[ip]? = some instr →
      info.typed idx func.instructions ip instr = true

theorem isSome_compileFn {func : FunctionDef} {info : JitFnInfo} {idx : Nat} :
    (compileFn info func idx).isSome ↔ func.WellTyped info idx := by
  rw [compileFn]
  split
  case isTrue h =>
    rw [isSome_mapM, List.all_eq_true]
    constructor
    · refine fun hall => ⟨fun param hparam => beq_iff_eq.mp (List.all_eq_true.mp h param hparam), ?_⟩
      intro ip instr hinstr
      rw [← isSome_compileInstr]
      exact hall (instr, ip) (List.mk_mem_zipIdx_iff_getElem?.mpr hinstr)
    · rintro ⟨-, hall⟩ ⟨instr, ip⟩ hmem
      have hinstr := List.mk_mem_zipIdx_iff_getElem?.mp hmem
      exact (isSome_compileInstr instr).trans (hall ip instr hinstr)
  case isFalse h =>
    refine iff_of_false Bool.false_ne_true fun hw => h ?_
    exact List.all_eq_true.mpr fun param hparam => beq_iff_eq.mpr (hw.1 param hparam)

/-- `compile_program`, where `verifies` is what the verifier of Cranelift says of the one thing
that `compile_fn` leaves to it: a `TAIL_CALL` uses the `Value` of a `SET_FIELD` that may be in
another block. -/
def compileProgramBy (verifies : JitEntry → Bool) (p : Program) : Option (List (Nat × JitEntry)) :=
  (compileProgram p (analyzeProgram p)).filter fun entries => entries.all fun e => verifies e.2

/-- The function at the index is dispatched natively. -/
def Program.Native (verifies : JitEntry → Bool) (p : Program) (idx : Nat) : Prop :=
  ∃ entries, compileProgramBy verifies p = some entries ∧ idx ∈ entries.map Prod.fst

/-- The function is compiled, and the verifier accepts its code. -/
def FunctionDef.Compiles (verifies : JitEntry → Bool) (func : FunctionDef) (info : JitFnInfo)
    (idx : Nat) : Prop :=
  ∃ code, compileFn info func idx = some code ∧ verifies ⟨info, code⟩ = true

/-- Every eligible function of the program is compiled. -/
def Program.AllCompile (verifies : JitEntry → Bool) (p : Program) : Prop :=
  ∀ idx func info, p.functions[idx]? = some func → analyzeFunction func idx = some info →
    func.Compiles verifies info idx

/-- Each element has its result among the results. -/
theorem exists_mem_of_mapM {α β : Type} {f : α → Option β} {l : List α} {l' : List β} {a : α}
    (h : l.mapM f = some l') (ha : a ∈ l) : ∃ b ∈ l', f a = some b := by
  have hall := forall₂_of_mapM h
  clear h
  induction hall with
  | nil => cases ha
  | cons hab _ ih =>
    rcases List.mem_cons.mp ha with rfl | ha
    · exact ⟨_, .head _, hab⟩
    · obtain ⟨b, hb, hab⟩ := ih ha
      exact ⟨b, .tail _ hb, hab⟩

section Programs

variable {verifies : JitEntry → Bool} {p : Program}

/-- The entries of a list of functions that are all compiled. -/
theorem exists_entries (p : Program) : ∀ (eligible : List (Nat × JitFnInfo)),
    (∀ e ∈ eligible, ∃ func, p.functions[e.1]? = some func ∧ func.Compiles verifies e.2 e.1) →
    ∃ entries : List (Nat × JitEntry), (eligible.mapM fun (idx, info) => do
      return (idx, ⟨info, ← compileFn info (← p.functions[idx]?) idx⟩)) = some entries ∧
      (entries.all fun e => verifies e.2) = true ∧ entries.map Prod.fst = eligible.map Prod.fst
  | [], _ => ⟨[], rfl, rfl, rfl⟩
  | (idx, info) :: eligible, h => by
    obtain ⟨⟨func, hfunc, code, hcode, hver⟩, htail⟩ := List.forall_mem_cons.mp h
    obtain ⟨entries, hentries, hall, hfst⟩ := exists_entries p eligible htail
    refine ⟨(idx, ⟨info, code⟩) :: entries, ?_, ?_, ?_⟩
    · rw [List.mapM_cons, hentries]
      show ((p.functions[idx]?.bind fun func => (compileFn info func idx).bind fun code =>
        some (idx, JitEntry.mk info code)).bind fun entry => some (entry :: entries)) = _
      rw [show p.functions[idx]? = some func from hfunc, Option.bind_some,
        show compileFn info func idx = some code from hcode]
      rfl
    · rw [List.all_cons, hver, hall]
      rfl
    · rw [List.map_cons, List.map_cons, hfst]

/-- If all eligible functions are compiled, they are the ones that are dispatched natively. -/
theorem Program.AllCompile.native_iff (h : p.AllCompile verifies) {idx : Nat} :
    p.Native verifies idx ↔ ∃ info, (idx, info) ∈ analyzeProgram p := by
  cases helig : analyzeProgram p with
  | nil =>
    refine iff_of_false ?_ nofun
    rintro ⟨entries, hentries, -⟩
    rw [compileProgramBy, helig] at hentries
    cases hentries
  | cons e eligible =>
    have hcomp : ∀ x ∈ e :: eligible, ∃ func, p.functions[x.1]? = some func ∧
        func.Compiles verifies x.2 x.1 := by
      intro x hx
      rw [← helig] at hx
      obtain ⟨func, hfunc, hinfo⟩ := mem_analyzeProgram.mp (show (x.1, x.2) ∈ _ from hx)
      exact ⟨func, hfunc, h _ _ _ hfunc hinfo⟩
    obtain ⟨entries, hentries, hall, hfst⟩ := exists_entries p _ hcomp
    have hprog : compileProgramBy verifies p = some entries := by
      rw [compileProgramBy, helig, compileProgram, List.isEmpty_cons, if_neg Bool.false_ne_true,
        hentries, Option.filter_some, if_pos hall]
    constructor
    · rintro ⟨entries', hentries', hidx⟩
      cases hprog.symm.trans hentries'
      rw [hfst] at hidx
      obtain ⟨⟨idx, info⟩, hmem, rfl⟩ := List.mem_map.mp hidx
      exact ⟨info, hmem⟩
    · rintro ⟨info, hmem⟩
      exact ⟨entries, hprog, hfst ▸ List.mem_map.mpr ⟨(idx, info), hmem, rfl⟩⟩

/-- If one eligible function is not compiled, none is dispatched natively. -/
theorem Program.allCompile_of_native {idx : Nat} (h : p.Native verifies idx) :
    p.AllCompile verifies := by
  obtain ⟨entries, hentries, -⟩ := h
  obtain ⟨hprog, hall⟩ := Option.filter_eq_some_iff.mp hentries
  intro idx func info hfunc hinfo
  have helig := mem_analyzeProgram.mpr ⟨func, hfunc, hinfo⟩
  unfold compileProgram at hprog
  split at hprog
  case isTrue => cases hprog
  case isFalse =>
    obtain ⟨⟨idx', entry⟩, hmem, hentry⟩ := exists_mem_of_mapM hprog helig
    simp only [Option.bind_eq_bind, Option.bind_eq_some_iff, Option.pure_def, Option.some.injEq,
      Prod.mk.injEq] at hentry
    obtain ⟨func', hfunc', code, hcode, rfl, rfl⟩ := hentry
    cases hfunc.symm.trans hfunc'
    exact ⟨code, hcode, List.all_eq_true.mp hall _ hmem⟩

/-- The function is ineligible, or well typed, with code that the verifier accepts. -/
def FunctionDef.Good (verifies : JitEntry → Bool) (func : FunctionDef) (idx : Nat) : Prop :=
  ∀ info, analyzeFunction func idx = some info → func.WellTyped info idx ∧
    ∀ code, compileFn info func idx = some code → verifies ⟨info, code⟩ = true

/-- All its functions are. -/
def Program.Good (verifies : JitEntry → Bool) (p : Program) : Prop :=
  ∀ (idx : Nat) func, p.functions[idx]? = some func → func.Good verifies idx

theorem FunctionDef.good_iff {func : FunctionDef} {idx : Nat} : func.Good verifies idx ↔
    ∀ info, analyzeFunction func idx = some info → func.Compiles verifies info idx := by
  refine forall₂_congr fun info _ => ?_
  rw [← isSome_compileFn, Option.isSome_iff_exists]
  constructor
  · rintro ⟨⟨code, hcode⟩, hver⟩
    exact ⟨code, hcode, hver code hcode⟩
  · rintro ⟨code, hcode, hver⟩
    refine ⟨⟨code, hcode⟩, fun code' hcode' => ?_⟩
    cases hcode.symm.trans hcode'
    exact hver

theorem Program.good_iff : p.Good verifies ↔ p.AllCompile verifies := by
  constructor
  · exact fun h idx func info hfunc => FunctionDef.good_iff.mp (h idx func hfunc) info
  · exact fun h idx func hfunc => FunctionDef.good_iff.mpr fun info => h idx func info hfunc

/-- The program with one more function. -/
def Program.add (p : Program) (func : FunctionDef) : Program :=
  { p with functions := p.functions ++ [func] }

theorem Program.add_functions (func : FunctionDef) {idx : Nat} (h : idx < p.functions.length) :
    (p.add func).functions[idx]? = p.functions[idx]? := List.getElem?_append_left h

theorem Program.add_last (p : Program) (func : FunctionDef) :
    (p.add func).functions[p.functions.length]? = some func := by
  rw [add, List.getElem?_append_right (Nat.le_refl _), Nat.sub_self]
  rfl

/-- The eligible functions are the same before the added one. -/
theorem Program.add_eligible (func : FunctionDef) {idx : Nat} (h : idx < p.functions.length)
    {info : JitFnInfo} :
    (idx, info) ∈ analyzeProgram (p.add func) ↔ (idx, info) ∈ analyzeProgram p := by
  rw [mem_analyzeProgram, mem_analyzeProgram, add_functions func h]

theorem Program.add_good {func : FunctionDef} : (p.add func).Good verifies ↔
    p.Good verifies ∧ func.Good verifies p.functions.length := by
  constructor
  · intro h
    refine ⟨fun idx f hf => ?_, h _ func (p.add_last func)⟩
    refine h idx f ?_
    rw [add_functions func (List.getElem?_eq_some_iff.mp hf).1]
    exact hf
  · rintro ⟨hp, hfunc⟩ idx f hf
    by_cases hidx : idx < p.functions.length
    · rw [add_functions func hidx] at hf
      exact hp idx f hf
    · have hlt : idx < (p.functions ++ [func]).length := (List.getElem?_eq_some_iff.mp hf).1
      rw [List.length_append, List.length_singleton] at hlt
      cases (show idx = p.functions.length by omega)
      cases hf.symm.trans (p.add_last func)
      exact hfunc

theorem Program.native_iff {idx : Nat} : p.Native verifies idx ↔
    p.Good verifies ∧ ∃ info, (idx, info) ∈ analyzeProgram p := by
  rw [good_iff]
  constructor
  · exact fun h => ⟨allCompile_of_native h, (allCompile_of_native h).native_iff.mp h⟩
  · rintro ⟨hall, helig⟩
    exact hall.native_iff.mpr helig

end Programs

/-- **One function costs the others their JIT** exactly if it is eligible and not well typed: the
eligible functions of a program are compiled, and dispatched natively, exactly if they are all
good; and a function that is ineligible or fails to compile changes which others are dispatched
natively exactly if it is not good and the others would be. -/
theorem jit_independent_iff (verifies : JitEntry → Bool) (p : Program) (func : FunctionDef) :
    ((p.AllCompile verifies ∧ ∀ idx, p.Native verifies idx ↔ ∃ info, (idx, info) ∈ analyzeProgram p) ↔
      p.Good verifies) ∧
    (((¬ ∃ info, analyzeFunction func p.functions.length = some info ∧
        func.Compiles verifies info p.functions.length) →
      ∀ idx < p.functions.length, (p.add func).Native verifies idx ↔ p.Native verifies idx) ↔
      func.Good verifies p.functions.length ∨ ¬ p.Good verifies ∨ analyzeProgram p = []) := by
  constructor
  · rw [Program.good_iff]
    exact ⟨fun h => h.1, fun h => ⟨h, fun _ => h.native_iff⟩⟩
  constructor
  · intro h
    by_contra hno
    rw [not_or, not_or, not_not] at hno
    obtain ⟨hbad, hgood, helig⟩ := hno
    obtain ⟨⟨idx, info⟩, hmem⟩ := List.exists_mem_of_ne_nil _ helig
    obtain ⟨f, hf, -⟩ := mem_analyzeProgram.mp hmem
    have hidx := (List.getElem?_eq_some_iff.mp hf).1
    refine hbad (Program.add_good.mp (Program.native_iff.mp ((h ?_ idx hidx).mpr ?_)).1).2
    · rintro ⟨info', hinfo', hcomp⟩
      refine hbad (FunctionDef.good_iff.mpr fun info'' hinfo'' => ?_)
      cases hinfo'.symm.trans hinfo''
      exact hcomp
    · exact Program.native_iff.mpr ⟨hgood, info, hmem⟩
  · intro h hnot idx hidx
    rw [Program.native_iff, Program.native_iff, Program.add_good]
    have helig : (∃ info, (idx, info) ∈ analyzeProgram (p.add func)) ↔
        ∃ info, (idx, info) ∈ analyzeProgram p := exists_congr fun info => p.add_eligible func hidx
    rw [helig]
    rcases h with hgood | hbad | hnil
    · exact and_congr_left fun _ => and_iff_left hgood
    · exact iff_of_false (fun h => hbad h.1.1) fun h => hbad h.1
    · refine iff_of_false ?_ ?_
      all_goals
        rintro ⟨-, info, hmem⟩
        rw [hnil] at hmem
        cases hmem

section Example

/-- A program whose only function is compiled. -/
def returnsOne : Program := ⟨1, [], [⟨"Main", [], [⟨.ret, [.imm (.int .int64 1)]⟩]⟩]⟩

/-- A function that assigns a slot without a `RESERVE`. -/
def assignsUnreserved : FunctionDef :=
  ⟨"F", [], [⟨.mov, [.imm (.int .int32 1), .slot (.local_ 0)]⟩]⟩

/-- With it in the program, `Main` is interpreted. -/
theorem assignsUnreserved_costs :
    analyzeFunction assignsUnreserved 1 = some ⟨[], [], [], .i64⟩ ∧
      (compileFn ⟨[], [], [], .i64⟩ assignsUnreserved 1).isNone ∧
      returnsOne.Native (fun _ => true) 0 ∧
      ¬ (returnsOne.add assignsUnreserved).Native (fun _ => true) 0 := by
  refine ⟨rfl, rfl, ⟨_, rfl, .head _⟩, ?_⟩
  rintro ⟨entries, hentries, -⟩
  have hnone : compileProgramBy (fun _ => true) (returnsOne.add assignsUnreserved) = none := rfl
  cases hnone.symm.trans hentries

end Example

end Fasm
