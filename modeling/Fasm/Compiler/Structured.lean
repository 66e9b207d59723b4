import Fasm.Compiler.Continuation
import Fasm.Lib.Lowering
import Fasm.Vm.Moves

/-!
# The structured machine

What a program does, in the terms of its source: a frame holds what is left to execute in its
function, a guard holds what is left at the `CATCH` and at the `ENDTRY` of its block, a jump
goes behind the `LABEL` that it names, and a call goes to the function that it names.  What an
instruction does to the data, and which way a branch goes, is what the interpreter does.

The source gives no meaning to a jump to a name that is no `LABEL`, nor to a tail call that
would take a guard into another function; there the machine stops without a result.
-/

namespace Fasm

open Pushdown (Move Machine)

variable {ω : Type}

/-! ## Frames -/

/-- A guard in the terms of the source. -/
structure SourceGuard where
  catchRest : Rest
  endRest : Rest
  frameSnap : List (Option Value)
  globalSnap : List (Option Value)

/-- A frame in the terms of the source. -/
structure SourceFrame where
  funcIdx : Nat
  rest : Rest
  frame : Frame
  args : Value
  retVal : Value
  guard : Option SourceGuard
  tmpFrames : List TmpFrame

/-- The body of the function at the index. -/
def ProgramAst.bodyAt (ast : ProgramAst) (funcIdx : Nat) : List Statement :=
  (ast.functions[funcIdx]?.map Function.body).getD []

/-- The number of instructions of the function that come before what is left. -/
def ProgramAst.position (ast : ProgramAst) (funcIdx : Nat) (k : Rest) : Nat :=
  sizeOfAll (ast.bodyAt funcIdx) - restSize k

/-- A frame at the start of a function. -/
def SourceFrame.entry (ast : ProgramAst) (funcIdx : Nat) (args : Value) : SourceFrame where
  funcIdx
  rest := andThen (ast.bodyAt funcIdx) []
  frame := .new
  args
  retVal := .null
  guard := none
  tmpFrames := []

/-- A guard as the interpreter has it. -/
def SourceGuard.lower (position : Rest → Nat) (g : SourceGuard) : TryGuard where
  catchIp := position g.catchRest
  endIp := position g.endRest
  frameSnap := g.frameSnap
  globalSnap := g.globalSnap

/-- A frame as the interpreter has it. -/
def SourceFrame.lower (ast : ProgramAst) (sf : SourceFrame) : CallFrame where
  funcIdx := sf.funcIdx
  ip := ast.position sf.funcIdx sf.rest
  frame := sf.frame
  args := sf.args
  retVal := sf.retVal
  tryGuard := sf.guard.map (SourceGuard.lower (ast.position sf.funcIdx))
  tmpFrames := sf.tmpFrames

/-- A frame with the data of a frame of the interpreter. -/
def SourceFrame.withData (sf : SourceFrame) (cf : CallFrame) : SourceFrame :=
  { sf with frame := cf.frame, args := cf.args, retVal := cf.retVal, tmpFrames := cf.tmpFrames }

/-! ## Names -/

/-- What a call needs to know of a function. -/
def Function.header (f : Function) : FunctionDef := ⟨f.name, [], []⟩

/-- What calls need to know of a program. -/
def ProgramAst.headers (ast : ProgramAst) : Program :=
  { Program.new with functions := ast.functions.map Function.header }

/-- The function that a call names. -/
def Statement.callee (ast : ProgramAst) : Statement → Option Nat
  | .instr i =>
    (i.operands[0]?.bind AstValue.asIdent).bind ast.headers.getFunctionIndex
  | _ => none

/-- What is left behind the `LABEL` that a jump names. -/
def Statement.target (f : Function) : Statement → Option Rest
  | .instr i => i.jumpLabel.bind f.afterLabel
  | _ => none

/-! ## Moves -/

/-- Moves of the structured machine; `none` is the end of a run that has no meaning. -/
abbrev SourceMove (ω : Type) := Move SourceFrame (GlobalRegister × ω) Value (Option Ending)

namespace SourceFrame

/-- What an action of the statement comes to. -/
def act (host : Host ω) (ast : ProgramAst) (f : Function) (stmt : Statement) (a : Action)
    (sf : SourceFrame) (s : GlobalRegister × ω) : SourceMove ω :=
  match a with
  | .continue_ => .stay sf s
  | .jump _ =>
    match stmt.target f with
    | some k => .stay { sf with rest := k } s
    | none => .stop none sf s
  | .callFunc _ args =>
    match stmt.callee ast with
    | some callee =>
      match jitDispatch host callee args s.2 with
      | (some ret, world) => .stay { sf with retVal := ret } (s.1, world)
      | (none, world) => .enter sf (.entry ast callee args) (s.1, world)
    | none => .stop none sf s
  | .tailCall _ args =>
    match stmt.callee ast with
    | some callee =>
      match jitDispatch host callee args s.2 with
      | (some ret, world) => .leave ret (s.1, world)
      | (none, world) =>
        if sf.guard.isSome ∧ callee ≠ sf.funcIdx then .stop none sf s
        else
          .stay { SourceFrame.entry ast callee args with
            guard := sf.guard, tmpFrames := sf.tmpFrames } (s.1, world)
    | none => .stop none sf s
  | .return_ val => .leave val s
  | .halt => .stop (some (.result (.ok .null))) sf s

/-- A fault rolls back to the guard and goes on at the `CATCH` of its block. -/
def fault (f : Function) (ip : Nat) (x : Fault) (sf : SourceFrame) (s : GlobalRegister × ω) :
    SourceMove ω :=
  match sf.guard with
  | some g =>
    .stay { sf with
      rest := g.catchRest
      frame := sf.frame.restore g.frameSnap
      retVal := .uint32 x.code
      guard := none } (s.1.restore g.globalSnap, s.2)
  | none => .stop (some (.result (.error (unhandled f.header ip x)))) sf s

/-- What becomes of the result of an operation. -/
def settle (host : Host ω) (ast : ProgramAst) (f : Function) (stmt : Statement) (ip : Nat)
    (sf : SourceFrame) : EStateM.Result Stop (View ω) Action → SourceMove ω
  | .ok a w => act host ast f stmt a (sf.withData w.frame) w.shared
  | .error (.fault x) w => fault f ip x (sf.withData w.frame) w.shared
  | .error (.panic x) w => .stop (some (.panic x)) (sf.withData w.frame) w.shared
  | .error (.exit c) w => .stop (some (.exit c)) (sf.withData w.frame) w.shared

/-- A statement that is one operation, with `k` behind it. -/
def operate (host : Host ω) (ast : ProgramAst) (f : Function) (stmt : Statement)
    (op : Instruction) (k : Rest) (sf : SourceFrame) (s : GlobalRegister × ω) : SourceMove ω :=
  let next := { sf with rest := k }
  settle host ast f stmt (ast.position sf.funcIdx (.stmt stmt :: k)) next
    (View.exec host ast.headers op ⟨next.lower ast, s.1, s.2⟩)

/-- The `TRY` of a block sets the guard. -/
def enterBlock (body catchBody : List Statement) (k : Rest) (sf : SourceFrame)
    (s : GlobalRegister × ω) : SourceMove ω :=
  .stay { sf with
    rest := inBlock body catchBody k
    guard := some ⟨atCatch catchBody k, .endTry :: k, sf.frame.snapshot, s.1.snapshot⟩ } s

/-- What the frame does next, by what is left. -/
def moveAt (host : Host ω) (ast : ProgramAst) (f : Function) (sf : SourceFrame)
    (s : GlobalRegister × ω) : Rest → SourceMove ω
  | [] => .leave sf.retVal s
  | .stmt (.label _ _) :: k => moveAt host ast f sf s k
  | .stmt (.local_ decl) :: k =>
    operate host ast f (.local_ decl)
      ⟨.reserve, [.slot (.local_ decl.index), .type decl.fasmType, .imm .null]⟩ k sf s
  | .stmt (.instr i) :: k =>
    match (f.emitCtx ast).emitInstr i with
    | .ok op => operate host ast f (.instr i) op k sf s
    | .error _ => .stop none sf s
  | .stmt (.tryBlock _ _ body catchBody _) :: k => enterBlock body catchBody k sf s
  -- reached by normal execution it skips the second body, if a guard is still set
  | .catch_ :: k =>
    .stay { sf with rest := (sf.guard.map SourceGuard.endRest).getD k, guard := none } s
  | .endTry :: k => .stay { sf with rest := k, guard := none } s

/-- What the frame does next. -/
def move (host : Host ω) (ast : ProgramAst) (sf : SourceFrame) (s : GlobalRegister × ω) :
    SourceMove ω :=
  match ast.functions[sf.funcIdx]? with
  | some f => moveAt host ast f sf s sf.rest
  | none => .stop none sf s

end SourceFrame

/-- The structured machine of a program. -/
def structured (host : Host ω) (ast : ProgramAst) :
    Machine SourceFrame (GlobalRegister × ω) Value (Option Ending) where
  move := SourceFrame.move host ast
  resume sf r := { sf with retVal := r }
  limit := maxCallDepth
  overflow := some (.result (.error Fault.stackOverflow.display))
  finish r := some (.result (.ok r))

/-! ## Positions that frames are at -/

/-- The frame is at a position of its function, and so are the two ends of its guard. -/
structure SourceFrame.Placed (ast : ProgramAst) (sf : SourceFrame) : Prop where
  rest : ∃ f ip, ast.functions[sf.funcIdx]? = some f ∧ f.At sf.rest ip
  guard : ∀ g, sf.guard = some g → ∀ f, ast.functions[sf.funcIdx]? = some f →
    (∃ ip, f.At g.catchRest ip) ∧ ∃ ip, f.At g.endRest ip

section Placed

variable {ast : ProgramAst} {f : Function}

theorem bodyAt_eq {i : Nat} (hf : ast.functions[i]? = some f) : ast.bodyAt i = f.body := by
  rw [ProgramAst.bodyAt, hf]
  rfl

/-- A position has its index. -/
theorem position_eq {i : Nat} (hf : ast.functions[i]? = some f) {k : Rest} {ip : Nat}
    (h : f.At k ip) : ast.position i k = ip := by
  have hsize := h.size_eq
  rw [ProgramAst.position, bodyAt_eq hf]
  omega

theorem getFunctionIndex_headers_lt {name : String} {i : Nat}
    (h : ast.headers.getFunctionIndex name = some i) : i < ast.functions.length := by
  have hlt := Program.getFunctionIndex_lt h
  rwa [ProgramAst.headers, List.length_map] at hlt

theorem Statement.callee_lt {stmt : Statement} {i : Nat} (h : stmt.callee ast = some i) :
    i < ast.functions.length := by
  cases stmt with
  | instr instr =>
    obtain ⟨name, -, hi⟩ := Option.bind_eq_some_iff.mp h
    exact getFunctionIndex_headers_lt hi
  | _ => cases h

theorem SourceFrame.placed_entry {i : Nat} (hi : i < ast.functions.length) (args : Value) :
    (SourceFrame.entry ast i args).Placed ast where
  rest := by
    have hf := List.getElem?_eq_getElem hi
    refine ⟨_, 0, hf, ?_⟩
    rw [entry, bodyAt_eq hf]
    exact .start
  guard := by
    rintro g ⟨⟩

/-- The frames of a move. -/
def SourceFrame.MovesIn (P : SourceFrame → Prop) : SourceMove ω → Prop
  | .stay sf _ => P sf
  | .enter sf callee _ => P sf ∧ P callee
  | .leave _ _ => True
  | .stop _ _ _ => True

namespace SourceFrame.Placed

variable {sf : SourceFrame} {host : Host ω} {stmt : Statement} {s : GlobalRegister × ω}

/-- Going on elsewhere in the function, with the same guard or none. -/
theorem goto (h : sf.Placed ast) (hf : ast.functions[sf.funcIdx]? = some f) {sf' : SourceFrame}
    {ip : Nat} (hidx : sf'.funcIdx = sf.funcIdx) (hat : f.At sf'.rest ip)
    (hguard : sf'.guard = sf.guard ∨ sf'.guard = none) : sf'.Placed ast where
  rest := ⟨f, ip, hidx ▸ hf, hat⟩
  guard := by
    intro g hg f' hf'
    rw [hidx] at hf'
    rcases hguard with hsame | hnone
    · exact h.guard g (hsame ▸ hg) f' hf'
    · cases hnone.symm.trans hg

theorem act (h : sf.Placed ast) (hf : ast.functions[sf.funcIdx]? = some f) (a : Action) :
    MovesIn (Placed ast) (SourceFrame.act host ast f stmt a sf s) := by
  obtain ⟨f', ip, hf', hat⟩ := h.rest
  cases hf.symm.trans hf'
  cases a with
  | continue_ => exact h
  | jump _ =>
    simp only [SourceFrame.act]
    split
    case h_1 k htarget =>
      cases stmt with
      | instr i =>
        obtain ⟨name, -, hk⟩ := Option.bind_eq_some_iff.mp htarget
        obtain ⟨ip', hat', -⟩ := Function.at_afterLabel hk
        exact h.goto hf rfl hat' (.inl rfl)
      | _ => cases htarget
    case h_2 => trivial
  | callFunc _ args =>
    simp only [SourceFrame.act]
    split
    case h_1 callee hcallee =>
      split
      case h_1 => exact h.goto hf rfl hat (.inl rfl)
      case h_2 => exact ⟨h, placed_entry (Statement.callee_lt hcallee) args⟩
    case h_2 => trivial
  | tailCall _ args =>
    simp only [SourceFrame.act]
    split
    case h_1 callee hcallee =>
      split
      case h_1 => trivial
      case h_2 =>
        split
        case isTrue => trivial
        case isFalse hsame =>
          refine ⟨(placed_entry (Statement.callee_lt hcallee) args).rest, fun g hg => ?_⟩
          have hguard : sf.guard = some g := hg
          have hidx : callee = sf.funcIdx := by
            refine Classical.byContradiction fun hne => hsame ⟨?_, hne⟩
            rw [hguard]
            rfl
          exact hidx ▸ h.guard g hguard
    case h_2 => trivial
  | return_ _ => trivial
  | halt => trivial

theorem fault (h : sf.Placed ast) (ip : Nat) (x : Fault) :
    MovesIn (Placed ast) (SourceFrame.fault f ip x sf s) := by
  obtain ⟨f', ip', hf', -⟩ := h.rest
  rw [SourceFrame.fault]
  split
  case h_1 g hg =>
    obtain ⟨⟨ip'', hcatch⟩, -⟩ := h.guard g hg f' hf'
    exact h.goto hf' rfl hcatch (.inr rfl)
  case h_2 => trivial

theorem settle (h : sf.Placed ast) (hf : ast.functions[sf.funcIdx]? = some f) (ip : Nat)
    (r : EStateM.Result Stop (View ω) Action) :
    MovesIn (Placed ast) (SourceFrame.settle host ast f stmt ip sf r) := by
  have hdata : ∀ cf, (sf.withData cf).Placed ast := fun cf => by
    obtain ⟨f', ip', hf', hat⟩ := h.rest
    exact h.goto hf' rfl hat (.inl rfl)
  match r with
  | .ok a w => exact (hdata w.frame).act hf a
  | .error (.fault x) w => exact (hdata w.frame).fault ip x
  | .error (.panic x) w => trivial
  | .error (.exit c) w => trivial

theorem operate (h : sf.Placed ast) (hf : ast.functions[sf.funcIdx]? = some f) {k : Rest}
    {ip : Nat} (hat : f.At k ip) (op : Instruction) :
    MovesIn (Placed ast) (SourceFrame.operate host ast f stmt op k sf s) := by
  have hnext : SourceFrame.Placed ast { sf with rest := k } := h.goto hf rfl hat (.inl rfl)
  exact hnext.settle hf _ _

theorem moveAt (h : sf.Placed ast) (hf : ast.functions[sf.funcIdx]? = some f) :
    ∀ (k : Rest) {ip : Nat}, f.At k ip →
    MovesIn (Placed ast) (SourceFrame.moveAt host ast f sf s k)
  | [], _, _ => trivial
  | .stmt (.label _ _) :: k, _, hat => moveAt h hf k hat.skip
  | .stmt (.local_ decl) :: k, _, hat => h.operate hf hat.skip _
  | .stmt (.instr i) :: k, _, hat => by
    rw [SourceFrame.moveAt]
    split
    case h_1 op _ => exact h.operate hf hat.skip op
    case h_2 => trivial
  | .stmt (.tryBlock _ _ body catchBody _) :: k, ip, hat => by
    refine ⟨⟨f, _, hf, hat.enter⟩, fun g hg f' hf' => ?_⟩
    cases hf.symm.trans hf'
    cases hg
    exact ⟨⟨_, hat.block_catch⟩, _, hat.block_end⟩
  | .catch_ :: k, ip, hat => by
    rw [SourceFrame.moveAt]
    cases hg : sf.guard with
    | none => exact h.goto hf rfl hat.skip (.inr rfl)
    | some g =>
      obtain ⟨-, ip', hend⟩ := h.guard g hg f hf
      exact h.goto hf rfl hend (.inr rfl)
  | .endTry :: k, ip, hat => h.goto hf rfl hat.skip (.inr rfl)

variable (host s) in
theorem move (h : sf.Placed ast) : MovesIn (Placed ast) (SourceFrame.move host ast sf s) := by
  obtain ⟨f, ip, hf, hat⟩ := h.rest
  rw [SourceFrame.move, hf]
  exact h.moveAt hf sf.rest hat

end SourceFrame.Placed

/-- Frames stay at positions of their functions. -/
theorem structured_keeps (host : Host ω) (ast : ProgramAst) :
    (structured host ast).Keeps (SourceFrame.Placed ast) where
  stay := by
    intro sf s sf' s' hmove h
    have hin := h.move host s
    rw [show sf.move host ast s = .stay sf' s' from hmove] at hin
    exact hin
  enter := by
    intro sf s sf' callee s' hmove h
    have hin := h.move host s
    rw [show sf.move host ast s = .enter sf' callee s' from hmove] at hin
    exact hin
  resume := fun _ h => ⟨h.rest, h.guard⟩

end Placed

end Fasm
