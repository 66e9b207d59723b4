import Fasm.Compiler.Preservation
import Fasm.Lib.Contracts

/-!
# Proof outlines

A proof outline of a source gives its calls a contract and asserts something of the frame wherever
control arrives other than from the statement in front: at the start of a function, behind a
`LABEL`, at the `CATCH` of a block and at its `ENDTRY`.  What must hold in front of each statement
is then computed from what must hold behind it, and the outline verifies the program if that
follows from what it asserts.

An assertion is about a frame of the source and what all frames share.  It may speak of the call
that the frame is in the course of, and of how many calls are below that.

A source has such an outline if and only if its code is correct.
-/

namespace Fasm

open Pushdown (Move Machine Config Activation Contract)

variable {ω : Type}

/-- A call: how many frames are below, the function and its arguments, and what is shared. -/
structure Call (ω : Type) where
  depth : Nat
  funcIdx : Nat
  args : Value
  shared : GlobalRegister × ω

/-- An assertion about the frame on top. -/
abbrev Assertion (ω : Type) := SourceFrame → GlobalRegister × ω → Prop

/-- A proof outline. -/
structure Outline (ω : Type) where
  pre : Call ω → Prop
  post : Call ω → Value → GlobalRegister × ω → Prop
  /-- what is asserted in the course of a call, by what is left to execute -/
  cut : Call ω → Assertion ω
  /-- the ends of runs that are allowed, other than the return of the first function -/
  stops : Ending → Prop

/-! ## Weakest preconditions -/

namespace Outline

variable (O : Outline ω) (host : Host ω) (ast : ProgramAst) (f : Function) (a : Call ω)

section Wp

-- `L` is asserted wherever control goes other than behind the statement
variable (L : Assertion ω)

/-- What an action of the statement needs, for `K` behind the statement. -/
def wpAct (stmt : Statement) (K : Assertion ω) (x : Action) : Assertion ω := fun sf s =>
  match x with
  | .continue_ => K sf s
  | .jump _ => ∃ k, stmt.target f = some k ∧ L { sf with rest := k } s
  | .callFunc _ args => ∃ j, stmt.callee ast = some j ∧
    match jitDispatch host j args s.2 with
    | (some ret, world) => K { sf with retVal := ret } (s.1, world)
    | (none, world) =>
      if maxCallDepth ≤ a.depth + 1 then O.stops (.result (.error Fault.stackOverflow.display))
      else O.pre ⟨a.depth + 1, j, args, (s.1, world)⟩ ∧
        ∀ r s', O.post ⟨a.depth + 1, j, args, (s.1, world)⟩ r s' → K { sf with retVal := r } s'
  | .tailCall _ args => ∃ j, stmt.callee ast = some j ∧
    match jitDispatch host j args s.2 with
    | (some ret, world) => O.post a ret (s.1, world)
    | (none, world) => ¬ (sf.guard.isSome ∧ j ≠ sf.funcIdx) ∧
      L { SourceFrame.entry ast j args with guard := sf.guard, tmpFrames := sf.tmpFrames }
        (s.1, world)
  | .return_ val => O.post a val s
  | .halt => O.stops (.result (.ok .null))

/-- What a fault needs: to be allowed, or what is asserted at the `CATCH` of its guard. -/
def wpFault (ip : Nat) (x : Fault) : Assertion ω := fun sf s =>
  match sf.guard with
  | some g =>
    L { sf with
      rest := g.catchRest
      frame := sf.frame.restore g.frameSnap
      retVal := .uint32 x.code
      guard := none } (s.1.restore g.globalSnap, s.2)
  | none => O.stops (.result (.error (unhandled f.header ip x)))

/-- What the result of an operation needs. -/
def wpSettle (stmt : Statement) (ip : Nat) (K : Assertion ω) (sf : SourceFrame) :
    EStateM.Result Stop (View ω) Action → Prop
  | .ok x w => O.wpAct host ast f a L stmt K x (sf.withData w.frame) w.shared
  | .error (.fault x) w => O.wpFault f L ip x (sf.withData w.frame) w.shared
  | .error (.panic x) _ => O.stops (.panic x)
  | .error (.exit c) _ => O.stops (.exit c)

/-- What a statement that is one operation needs, with `k` behind it. -/
def wpOperate (stmt : Statement) (op : Instruction) (k : Rest) (K : Assertion ω) : Assertion ω :=
  fun sf s =>
    let next := { sf with rest := k }
    O.wpSettle host ast f a L stmt (ast.position sf.funcIdx (.stmt stmt :: k)) K next
      (View.exec host ast.headers op ⟨next.lower ast, s.1, s.2⟩)

end Wp

/-- What must hold of a frame with this left, in the course of the call. -/
def wp : Rest → Assertion ω
  | [] => fun sf s => O.post a sf.retVal s
  | .stmt (.label _ _) :: k => wp k
  | .stmt (.local_ decl) :: k =>
    O.wpOperate host ast f a (O.cut a) (.local_ decl)
      ⟨.reserve, [.slot (.local_ decl.index), .type decl.fasmType, .imm .null]⟩ k (wp k)
  | .stmt (.instr i) :: k =>
    match (f.emitCtx ast).emitInstr i with
    | .ok op => O.wpOperate host ast f a (O.cut a) (.instr i) op k (wp k)
    | .error _ => fun _ _ => False
  | .stmt (.tryBlock _ _ body catchBody _) :: k => fun sf s =>
    wp (inBlock body catchBody k) { sf with
      rest := inBlock body catchBody k
      guard := some ⟨atCatch catchBody k, .endTry :: k, sf.frame.snapshot, s.1.snapshot⟩ } s
  | .catch_ :: k => fun sf s =>
    match sf.guard with
    | some g => O.cut a { sf with rest := g.endRest, guard := none } s
    | none => wp k { sf with rest := k } s
  | .endTry :: k => fun sf s => wp k { sf with rest := k, guard := none } s
termination_by k => (restSize k, k.length)
decreasing_by
  all_goals simp only [Prod.lex_def, restSize, restSize_inBlock, Item.size, Statement.size,
    List.length_cons]
  all_goals omega

section Rules

-- behind this section the rules take the place of the equations of `wp`
attribute [local simp] wp

variable {O host ast f a} {k : Rest} {sf : SourceFrame} {s : GlobalRegister × ω}

theorem wp_nil : O.wp host ast f a [] sf s = O.post a sf.retVal s := by simp

theorem wp_label {name : String} {line : Nat} :
    O.wp host ast f a (.stmt (.label name line) :: k) = O.wp host ast f a k := by simp

theorem wp_local {decl : LocalDecl} :
    O.wp host ast f a (.stmt (.local_ decl) :: k) =
      O.wpOperate host ast f a (O.cut a) (.local_ decl)
        ⟨.reserve, [.slot (.local_ decl.index), .type decl.fasmType, .imm .null]⟩ k
        (O.wp host ast f a k) := by simp

theorem wp_instr {i : Instr} {op : Instruction} (hop : (f.emitCtx ast).emitInstr i = .ok op) :
    O.wp host ast f a (.stmt (.instr i) :: k) =
      O.wpOperate host ast f a (O.cut a) (.instr i) op k (O.wp host ast f a k) := by
  simp [hop]

theorem not_wp_instr {i : Instr} {e : CompileFail}
    (hop : (f.emitCtx ast).emitInstr i = .error e) :
    ¬ O.wp host ast f a (.stmt (.instr i) :: k) sf s := by
  simp [hop]

theorem wp_tryBlock {catchLabel endLabel : String} {body catchBody : List Statement}
    {line : Nat} :
    O.wp host ast f a (.stmt (.tryBlock catchLabel endLabel body catchBody line) :: k) sf s =
      O.wp host ast f a (inBlock body catchBody k) { sf with
        rest := inBlock body catchBody k
        guard := some ⟨atCatch catchBody k, .endTry :: k, sf.frame.snapshot, s.1.snapshot⟩ } s := by
  simp

/-- Without a guard the `CATCH` is passed, with one the second body is skipped. -/
theorem wp_catch (hguard : sf.guard = none) :
    O.wp host ast f a (.catch_ :: k) sf s =
      O.wp host ast f a k { sf with rest := k, guard := none } s := by
  simp [hguard]

theorem wp_catch_guarded {g : SourceGuard} (hguard : sf.guard = some g) :
    O.wp host ast f a (.catch_ :: k) sf s =
      O.cut a { sf with rest := g.endRest, guard := none } s := by
  simp [hguard]

theorem wp_endTry :
    O.wp host ast f a (.endTry :: k) sf s =
      O.wp host ast f a k { sf with rest := k, guard := none } s := by simp

end Rules

/-- The outline verifies the program: what it asserts at the start of a call follows from the
precondition, and from what it asserts follows what must hold there. -/
structure Verifies : Prop where
  entry : ∀ a f, ast.functions[a.funcIdx]? = some f → O.pre a →
    O.cut a (.entry ast a.funcIdx a.args) a.shared
  cut : ∀ a f sf s, sf.Placed ast → ast.functions[sf.funcIdx]? = some f → O.cut a sf s →
    O.wp host ast f a sf.rest sf s

end Outline

/-! ## What moves need -/

/-- The activation that a call starts. -/
def Call.activation (ast : ProgramAst) (a : Call ω) :
    Activation SourceFrame (GlobalRegister × ω) :=
  ⟨a.depth, .entry ast a.funcIdx a.args, a.shared⟩

/-- The call that has started the activation. -/
def Call.of (x : Activation SourceFrame (GlobalRegister × ω)) : Call ω :=
  ⟨x.depth, x.frame.funcIdx, x.frame.args, x.shared⟩

namespace Outline

/-- The contract of activations is the one of their calls. -/
structure Fits (O : Outline ω) (ast : ProgramAst)
    (C : Contract SourceFrame (GlobalRegister × ω) Value) (T : Option Ending → Prop) : Prop where
  pre : ∀ a : Call ω, a.funcIdx < ast.functions.length → (C.pre (a.activation ast) ↔ O.pre a)
  post : ∀ (a : Call ω) r s, C.post (a.activation ast) r s ↔ O.post a r s
  stops : ∀ t, T (some t) ↔ O.stops t
  undefined : ¬ T none

variable {O : Outline ω} {host : Host ω} {ast : ProgramAst} {f : Function} {a : Call ω}
  {L L' K K' : Assertion ω} {stmt : Statement} {sf : SourceFrame} {s : GlobalRegister × ω}

section Moves

variable {C : Contract SourceFrame (GlobalRegister × ω) Value} {T : Option Ending → Prop}
  (hfit : O.Fits ast C T)
include hfit

theorem respects_act_iff (x : Action) :
    (structured host ast).Respects C T (a.activation ast) L
      (SourceFrame.act host ast f stmt x sf s) ↔ O.wpAct host ast f a L stmt L x sf s := by
  cases x with
  | continue_ => exact .rfl
  | jump t =>
    simp only [SourceFrame.act, wpAct]
    cases stmt.target f with
    | none => exact iff_of_false hfit.undefined (by simp)
    | some k =>
      simp only [Option.some.injEq, exists_eq_left']
      exact .rfl
  | callFunc i args =>
    simp only [SourceFrame.act, wpAct]
    cases hcallee : stmt.callee ast with
    | none => exact iff_of_false hfit.undefined (by simp)
    | some j =>
      simp only [Option.some.injEq, exists_eq_left']
      rcases jitDispatch host j args s.2 with ⟨_ | ret, world⟩
      · have hpre := hfit.pre ⟨a.depth + 1, j, args, (s.1, world)⟩ (Statement.callee_lt hcallee)
        have hpost := hfit.post ⟨a.depth + 1, j, args, (s.1, world)⟩
        refine iff_of_eq (if_congr Iff.rfl (propext (hfit.stops _)) (propext ?_))
        exact and_congr hpre (forall₂_congr fun r s' => imp_congr (hpost r s') Iff.rfl)
      · exact .rfl
  | tailCall i args =>
    simp only [SourceFrame.act, wpAct]
    cases stmt.callee ast with
    | none => exact iff_of_false hfit.undefined (by simp)
    | some j =>
      simp only [Option.some.injEq, exists_eq_left']
      rcases jitDispatch host j args s.2 with ⟨_ | ret, world⟩
      · simp only
        split
        case isTrue hguard =>
          exact iff_of_false hfit.undefined (not_and_of_not_left _ (not_not_intro hguard))
        case isFalse hguard => exact (and_iff_right hguard).symm
      · exact hfit.post a ret (s.1, world)
  | return_ val => exact hfit.post a val s
  | halt => exact hfit.stops _

theorem respects_fault_iff (ip : Nat) (x : Fault) :
    (structured host ast).Respects C T (a.activation ast) L (SourceFrame.fault f ip x sf s) ↔
      O.wpFault f L ip x sf s := by
  rw [SourceFrame.fault, wpFault]
  cases sf.guard with
  | some g => exact .rfl
  | none => exact hfit.stops _

theorem respects_settle_iff (ip : Nat) (r : EStateM.Result Stop (View ω) Action) :
    (structured host ast).Respects C T (a.activation ast) L
      (SourceFrame.settle host ast f stmt ip sf r) ↔ O.wpSettle host ast f a L stmt ip L sf r := by
  match r with
  | .ok x w => exact respects_act_iff hfit x
  | .error (.fault x) w => exact respects_fault_iff hfit ip x
  | .error (.panic x) w => exact hfit.stops _
  | .error (.exit c) w => exact hfit.stops _

end Moves

/-! ## Monotonicity -/

section Mono

-- an operation goes on behind its statement, with `k` left, in the same function
variable {k : Rest} {i : Nat}
  (hK : ∀ sf s, sf.rest = k → sf.funcIdx = i → K sf s → K' sf s)
  (hL : ∀ sf s, L sf s → L' sf s)
include hK hL

theorem wpAct_mono {x : Action} (hrest : sf.rest = k) (hidx : sf.funcIdx = i)
    (h : O.wpAct host ast f a L stmt K x sf s) : O.wpAct host ast f a L' stmt K' x sf s := by
  cases x with
  | continue_ => exact hK _ _ hrest hidx h
  | jump t =>
    obtain ⟨k', hk', h⟩ := h
    exact ⟨k', hk', hL _ _ h⟩
  | callFunc _ args =>
    obtain ⟨j, hj, h⟩ := h
    refine ⟨j, hj, ?_⟩
    revert h
    rcases jitDispatch host j args s.2 with ⟨_ | ret, world⟩
    · simp only
      split
      case isTrue => exact id
      case isFalse =>
        exact fun ⟨hpre, hpost⟩ => ⟨hpre, fun r s' hr => hK _ _ hrest hidx (hpost r s' hr)⟩
    · exact hK _ _ hrest hidx
  | tailCall _ args =>
    obtain ⟨j, hj, h⟩ := h
    refine ⟨j, hj, ?_⟩
    revert h
    rcases jitDispatch host j args s.2 with ⟨_ | ret, world⟩
    · exact fun ⟨hguard, h⟩ => ⟨hguard, hL _ _ h⟩
    · exact id
  | return_ val => exact h
  | halt => exact h

theorem wpSettle_mono {ip : Nat} {r : EStateM.Result Stop (View ω) Action} (hrest : sf.rest = k)
    (hidx : sf.funcIdx = i) (h : O.wpSettle host ast f a L stmt ip K sf r) :
    O.wpSettle host ast f a L' stmt ip K' sf r := by
  match r with
  | .ok x w => exact wpAct_mono hK hL hrest hidx h
  | .error (.fault x) w =>
    revert h
    simp only [wpSettle, wpFault]
    cases (sf.withData w.frame).guard with
    | some g => exact hL _ _
    | none => exact id
  | .error (.panic x) w => exact h
  | .error (.exit c) w => exact h

end Mono

/-! ## Soundness -/

variable (O host ast) in
/-- What must hold of a frame in the course of the call. -/
def Holds (a : Call ω) : Assertion ω := fun sf s =>
  ∀ f, ast.functions[sf.funcIdx]? = some f → O.wp host ast f a sf.rest sf s

variable (O ast) in
/-- The contract of the calls, as one of activations. -/
def contract : Contract SourceFrame (GlobalRegister × ω) Value where
  pre x := x = (Call.of x).activation ast ∧ x.frame.funcIdx < ast.functions.length ∧
    O.pre (Call.of x)
  post x r s := O.post (Call.of x) r s

variable (O) in
/-- The ends that are allowed; a run that has no meaning is not. -/
def allows : Option Ending → Prop
  | some t => O.stops t
  | none => False

theorem fits_contract : O.Fits ast (O.contract ast) O.allows where
  pre _ hlt := ⟨fun h => h.2.2, fun h => ⟨rfl, hlt, h⟩⟩
  post _ _ _ := .rfl
  stops _ := .rfl
  undefined := id

/-- Behind a statement, in the same function. -/
theorem holds_behind {i : Nat} (hf : ast.functions[i]? = some f) (k : Rest) (sf : SourceFrame)
    (s : GlobalRegister × ω) (hrest : sf.rest = k) (hidx : sf.funcIdx = i)
    (hwp : O.wp host ast f a k sf s) (_ : sf.Placed ast) : O.Holds host ast a sf s := by
  intro f' hf'
  rw [hidx] at hf'
  cases hf.symm.trans hf'
  rwa [hrest]

namespace Verifies

variable (h : O.Verifies host ast)
include h

theorem holds_cut {sf : SourceFrame} {s : GlobalRegister × ω} (hcut : O.cut a sf s)
    (hplaced : sf.Placed ast) : O.Holds host ast a sf s :=
  fun f hf => h.cut a f sf s hplaced hf hcut

/-- Where the frame's moves lead, what must hold there does. -/
theorem respects_operate (hf : ast.functions[sf.funcIdx]? = some f) {op : Instruction} {k : Rest}
    (hwp : O.wpOperate host ast f a (O.cut a) stmt op k (O.wp host ast f a k) sf s) :
    (structured host ast).Respects (O.contract ast) O.allows (a.activation ast)
      (fun sf s => sf.Placed ast → O.Holds host ast a sf s)
      (SourceFrame.operate host ast f stmt op k sf s) := by
  refine (respects_settle_iff fits_contract _ _).mpr ?_
  exact wpSettle_mono (holds_behind hf k) (fun _ _ => h.holds_cut) rfl rfl hwp

theorem respects_moveAt (hf : ast.functions[sf.funcIdx]? = some f) : ∀ k : Rest,
    O.wp host ast f a k sf s →
    (structured host ast).Respects (O.contract ast) O.allows (a.activation ast)
      (fun sf s => sf.Placed ast → O.Holds host ast a sf s) (SourceFrame.moveAt host ast f sf s k)
  | [], hwp => by
    rw [wp_nil] at hwp
    exact hwp
  | .stmt (.label _ _) :: k, hwp => by
    rw [wp_label] at hwp
    exact respects_moveAt hf k hwp
  | .stmt (.local_ decl) :: k, hwp => by
    rw [wp_local] at hwp
    exact h.respects_operate hf hwp
  | .stmt (.instr i) :: k, hwp => by
    rw [SourceFrame.moveAt]
    cases hop : (f.emitCtx ast).emitInstr i with
    | ok op =>
      rw [wp_instr hop] at hwp
      exact h.respects_operate hf hwp
    | error e => exact absurd hwp (not_wp_instr hop)
  | .stmt (.tryBlock _ _ body catchBody _) :: k, hwp => by
    rw [wp_tryBlock] at hwp
    exact holds_behind hf _ _ _ rfl rfl hwp
  | .catch_ :: k, hwp => by
    rw [SourceFrame.moveAt]
    cases hguard : sf.guard with
    | some g =>
      rw [wp_catch_guarded hguard] at hwp
      exact h.holds_cut hwp
    | none =>
      rw [wp_catch hguard] at hwp
      exact holds_behind hf _ _ _ rfl rfl hwp
  | .endTry :: k, hwp => by
    rw [wp_endTry] at hwp
    exact holds_behind hf _ _ _ rfl rfl hwp

/-- An outline that verifies the source verifies its machine. -/
theorem machine : (structured host ast).Verifies (O.contract ast) O.allows fun x sf s =>
    sf.Placed ast ∧ O.Holds host ast (Call.of x) sf s where
  entry := by
    intro x ⟨hx, hlt, hpre⟩
    have hplaced := SourceFrame.placed_entry hlt (Call.of x).args
    rw [hx]
    exact ⟨hplaced, h.holds_cut (h.entry _ _ (List.getElem?_eq_getElem hlt) hpre) hplaced⟩
  move := by
    intro x sf s ⟨hplaced, hholds⟩
    obtain ⟨f, ip, hf, -⟩ := hplaced.rest
    have hmove := h.respects_moveAt hf sf.rest (hholds f hf)
    have hsame : (structured host ast).move sf s = SourceFrame.moveAt host ast f sf s sf.rest := by
      simp only [structured, SourceFrame.move, hf]
    rw [← hsame] at hmove
    exact Machine.Respects.and_keeps (structured_keeps host ast) hplaced hmove

end Verifies

/-! ## Completeness -/

/-- The outline that asserts everywhere what an invariant of activations says. -/
def ofContract (ast : ProgramAst) (C : Contract SourceFrame (GlobalRegister × ω) Value)
    (T : Ending → Prop)
    (Inv : Activation SourceFrame (GlobalRegister × ω) → SourceFrame → GlobalRegister × ω → Prop) :
    Outline ω where
  pre a := C.pre (a.activation ast)
  post a r s := C.post (a.activation ast) r s
  cut a sf s := Inv (a.activation ast) sf s
  stops := T

section Completeness

variable {C : Contract SourceFrame (GlobalRegister × ω) Value} {T : Ending → Prop}
  {Inv : Activation SourceFrame (GlobalRegister × ω) → SourceFrame → GlobalRegister × ω → Prop}

theorem fits_ofContract :
    (ofContract ast C T Inv).Fits ast C (ofContract ast C T Inv).allows where
  pre _ _ := .rfl
  post _ _ _ := .rfl
  stops _ := .rfl
  undefined := id

variable (h : (structured host ast).Verifies C (ofContract ast C T Inv).allows Inv)
include h

/-- From where the invariant holds, the frame moves to where it does. -/
theorem respects_of_inv (hf : ast.functions[sf.funcIdx]? = some f)
    (hInv : Inv (a.activation ast) sf s) :
    (structured host ast).Respects C (ofContract ast C T Inv).allows (a.activation ast)
      (Inv (a.activation ast)) (SourceFrame.moveAt host ast f sf s sf.rest) := by
  have hmove := h.move hInv
  simp only [structured, SourceFrame.move, hf] at hmove
  exact hmove

theorem wpOperate_of_respects {i : Nat} (hf : ast.functions[i]? = some f) {k : Rest}
    {op : Instruction}
    (hk : ∀ {sf s}, sf.funcIdx = i →
      (structured host ast).Respects C (ofContract ast C T Inv).allows (a.activation ast)
        (Inv (a.activation ast)) (SourceFrame.moveAt host ast f sf s k) →
      (ofContract ast C T Inv).wp host ast f a k sf s)
    (hidx : sf.funcIdx = i)
    (hmove : (structured host ast).Respects C (ofContract ast C T Inv).allows (a.activation ast)
      (Inv (a.activation ast)) (SourceFrame.operate host ast f stmt op k sf s)) :
    (ofContract ast C T Inv).wpOperate host ast f a ((ofContract ast C T Inv).cut a) stmt op k
      ((ofContract ast C T Inv).wp host ast f a k) sf s := by
  have hbehind : ∀ sf s, sf.rest = k → sf.funcIdx = i → Inv (a.activation ast) sf s →
      (ofContract ast C T Inv).wp host ast f a k sf s := fun sf s hrest hidx hInv => by
    have hmove := respects_of_inv h (hidx ▸ hf) hInv
    rw [hrest] at hmove
    exact hk hidx hmove
  refine wpSettle_mono hbehind (fun _ _ => id) ?_ ?_
    ((respects_settle_iff fits_ofContract _ _).mp hmove)
  · rfl
  · exact hidx

/-- The weakest precondition is no stronger than an invariant that verifies the machine. -/
theorem wp_of_respects {i : Nat} (hf : ast.functions[i]? = some f) : ∀ (k : Rest) {sf s},
    sf.funcIdx = i →
    (structured host ast).Respects C (ofContract ast C T Inv).allows (a.activation ast)
      (Inv (a.activation ast)) (SourceFrame.moveAt host ast f sf s k) →
    (ofContract ast C T Inv).wp host ast f a k sf s
  | [], _, _, _, hmove => by
    rw [wp_nil]
    exact hmove
  | .stmt (.label _ _) :: k, _, _, hidx, hmove => by
    rw [wp_label]
    exact wp_of_respects hf k hidx hmove
  | .stmt (.local_ decl) :: k, sf, s, hidx, hmove => by
    rw [wp_local]
    exact wpOperate_of_respects h hf (fun hidx => wp_of_respects hf k hidx) hidx hmove
  | .stmt (.instr instr) :: k, sf, s, hidx, hmove => by
    rw [SourceFrame.moveAt] at hmove
    cases hop : (f.emitCtx ast).emitInstr instr with
    | ok op =>
      rw [hop] at hmove
      rw [wp_instr hop]
      exact wpOperate_of_respects h hf (fun hidx => wp_of_respects hf k hidx) hidx hmove
    | error e =>
      rw [hop] at hmove
      exact hmove.elim
  | .stmt (.tryBlock _ _ body catchBody _) :: k, sf, s, hidx, hmove => by
    rw [wp_tryBlock]
    exact wp_of_respects hf _ hidx (respects_of_inv h (hidx ▸ hf) hmove)
  | .catch_ :: k, sf, s, hidx, hmove => by
    rw [SourceFrame.moveAt] at hmove
    cases hguard : sf.guard with
    | some g =>
      rw [hguard] at hmove
      rw [wp_catch_guarded hguard]
      exact hmove
    | none =>
      rw [hguard] at hmove
      rw [wp_catch hguard]
      exact wp_of_respects hf k hidx (respects_of_inv h (hidx ▸ hf) hmove)
  | .endTry :: k, sf, s, hidx, hmove => by
    rw [wp_endTry]
    exact wp_of_respects hf k hidx (respects_of_inv h (hidx ▸ hf) hmove)
termination_by k => (restSize k, k.length)
decreasing_by
  all_goals simp only [Prod.lex_def, restSize, restSize_inBlock, Item.size, Statement.size,
    List.length_cons]
  all_goals omega

theorem verifies_ofContract : (ofContract ast C T Inv).Verifies host ast where
  entry _ _ _ hpre := h.entry hpre
  cut _ _ _ _ _ hf hcut := wp_of_respects h hf _ rfl (respects_of_inv h hf hcut)

end Completeness

end Outline

/-! ## Correct code -/

section Correct

variable {host : Host ω} {ast : ProgramAst} {p : Program} {R : Value → GlobalRegister × ω → Prop}
  {T : Ending → Prop} {e₁ : Executor ω}

/-- Every end of the run is a return of its first function with a value in `R`, or an end in
`T`. -/
def RunCorrect (host : Host ω) (p : Program) (R : Value → GlobalRegister × ω → Prop)
    (T : Ending → Prop) (e₁ : Executor ω) : Prop :=
  ∀ e t e', Relation.ReflTransGen (Step host p) e₁ e → Ends host p e t e' →
    (e'.callStack = [] ∧ ∃ r, t = .result (.ok r) ∧ R r (e'.globals, e'.world)) ∨
      (e'.callStack ≠ [] ∧ T t)

theorem runCorrect_iff (hne : e₁.callStack ≠ []) :
    RunCorrect host p R T e₁ ↔ (machine host p).Correct R T e₁.config := by
  have hstack : ∀ e, Relation.ReflTransGen (Step host p) e₁ e → e.callStack ≠ [] := by
    intro e hsteps
    rcases Relation.ReflTransGen.cases_tail hsteps with rfl | ⟨_, _, hstep⟩
    · exact hne
    · exact (step_iff.mp hstep).stack_ne_nil
  constructor
  · intro h c t c' hsteps hend
    have hrun := steps_ofConfig hsteps
    exact h _ t (ofConfig c') hrun ((ends_iff (hstack _ hrun)).mpr hend)
  · intro h e t e' hsteps hend
    exact h _ t _ (steps_config hsteps) ((ends_iff (hstack e hsteps)).mp hend)

/-- The run of the source from `c₁` always has a meaning. -/
def Meaningful (host : Host ω) (ast : ProgramAst)
    (c₁ : Config SourceFrame (GlobalRegister × ω)) : Prop :=
  ∀ c c', (structured host ast).Steps c₁ c → ¬ (structured host ast).Ends c none c'

/-- **Proof outlines are sound and complete.**  On every accepted source whose labels are apart, a
run of the interpreter on the compiled program is correct, and has a meaning in the source, if and
only if some outline verifies the source, requires no more of the first call and promises no less.-/
theorem outline_iff {u : Unicode} {src func : String} {args : Value} {e₀ : Executor ω}
    (hast : frontend u src = .ok ast) (hp : compileSource u src = .ok p)
    (hapart : ∀ f ∈ ast.functions, f.LabelsApart) (hlen : ast.functions.length ≤ 2 ^ 16)
    (hempty : e₀.callStack = []) (hstart : start p func args e₀ = .next e₁) :
    ∃ i, ast.headers.getFunctionIndex func = some i ∧
      ((∃ O : Outline ω, O.Verifies host ast ∧ O.stops = T ∧
          O.pre ⟨0, i, args, (e₁.globals, e₁.world)⟩ ∧
          ∀ r s, O.post ⟨0, i, args, (e₁.globals, e₁.world)⟩ r s → R r s) ↔
        Meaningful host ast ⟨[.entry ast i args], (e₁.globals, e₁.world)⟩ ∧
          RunCorrect host p R T e₁) := by
  have hemit : emit ast = .ok p := emit_of_compileSource hast hp
  obtain ⟨i, hidx, hplaced, he₁⟩ := start_entry hemit hempty hstart
  have hlowers := structured_lowers host hemit (resolves_of_frontend hast hapart hlen)
  let c₁ : Config SourceFrame (GlobalRegister × ω) :=
    ⟨[.entry ast i args], (e₁.globals, e₁.world)⟩
  have hconfig : c₁.lower (SourceFrame.lower ast) = e₁.config := by
    rw [← he₁]
    rfl
  have hne : e₁.callStack ≠ [] := by
    rw [← he₁]
    exact List.cons_ne_nil _ _
  let allowed : Option Ending → Prop := fun t => t.elim False T
  have hcorrect : (structured host ast).Correct R allowed c₁ ↔
      Meaningful host ast c₁ ∧ RunCorrect host p R T e₁ := by
    rw [runCorrect_iff hne, ← hconfig]
    exact hlowers.correct_iff (fun _ => .rfl) id (List.forall_mem_singleton.mpr hplaced)
  refine ⟨i, hidx, ?_⟩
  rw [← hcorrect, Machine.correct_iff fun r r' hr => by cases hr; rfl]
  constructor
  · rintro ⟨O, hver, rfl, hpre, hpost⟩
    have hallows : O.allows = allowed := by
      funext t
      cases t <;> rfl
    refine ⟨O.contract ast, _, hallows ▸ hver.machine, ⟨rfl, ?_, hpre⟩, hpost⟩
    exact getFunctionIndex_headers_lt hidx
  · rintro ⟨C, Inv, hver, hpre, hpost⟩
    have hallows : (Outline.ofContract ast C T Inv).allows = allowed := by
      funext t
      cases t <;> rfl
    exact ⟨.ofContract ast C T Inv, Outline.verifies_ofContract (hallows ▸ hver), rfl, hpre, hpost⟩

end Correct

section Example

/-- The tree of `backwardJumpSource`. -/
def backwardJumpAst : ProgramAst := ⟨[], [], [], [backwardJumpFunction]⟩

/-- What is left behind its block. -/
def backwardJumpTail : Rest :=
  [.stmt (.label "L" 6), .stmt (.instr ⟨"JMP", [.ident "L"], 7⟩)]

/-- It has come to its start, to its `CATCH` or behind its `LABEL`, without a guard, and never
returns. -/
def backwardJumpOutline : Outline Unit where
  pre _ := True
  post _ _ _ := False
  cut _ sf _ := sf.guard = none ∧ sf.rest ∈ [andThen backwardJumpFunction.body [],
    atCatch [] backwardJumpTail, backwardJumpTail.tail]
  stops _ := False

section Wp

variable {a : Call Unit} {sf : SourceFrame} {s : GlobalRegister × Unit}

theorem wp_backwardJump_jmp (hguard : sf.guard = none) :
    backwardJumpOutline.wp Host.bare backwardJumpAst backwardJumpFunction a backwardJumpTail.tail
      sf s := by
  have hop : (backwardJumpFunction.emitCtx backwardJumpAst).emitInstr
    ⟨"JMP", [.ident "L"], 7⟩ = .ok ⟨.jmp, [.labelTarget 4]⟩ := rfl
  have hexec : ∀ v : View Unit, v.exec Host.bare backwardJumpAst.headers
    ⟨.jmp, [.labelTarget 4]⟩ = .ok (.jump 4) v := fun _ => rfl
  rw [backwardJumpTail, List.tail_cons, Outline.wp_instr hop, Outline.wpOperate, hexec]
  exact ⟨backwardJumpTail.tail, rfl, hguard, .tail _ (.tail _ (.head _))⟩

/-- The division by zero comes to the `CATCH`. -/
theorem wp_backwardJump_start :
    backwardJumpOutline.wp Host.bare backwardJumpAst backwardJumpFunction a
      (andThen backwardJumpFunction.body []) sf s := by
  have hop : (backwardJumpFunction.emitCtx backwardJumpAst).emitInstr
    ⟨"DIV", [.integer 1, .integer 0, .integer 0], 3⟩ =
      .ok ⟨.div, [.imm (.int .int32 1), .imm (.int .int32 0), .slot (.local_ 0)]⟩ := rfl
  have hexec : ∀ v : View Unit, v.exec Host.bare backwardJumpAst.headers
    ⟨.div, [.imm (.int .int32 1), .imm (.int .int32 0), .slot (.local_ 0)]⟩ =
      .error (.fault .divisionByZero) v := fun _ => rfl
  have hbody : andThen backwardJumpFunction.body [] =
    .stmt (.tryBlock "__catch_2" "__endtry_2"
      [.instr ⟨"DIV", [.integer 1, .integer 0, .integer 0], 3⟩] [] 2) :: backwardJumpTail := rfl
  rw [hbody, Outline.wp_tryBlock, inBlock, andThen_cons, Outline.wp_instr hop, Outline.wpOperate,
    hexec]
  exact ⟨rfl, .tail _ (.head _)⟩

end Wp

theorem backwardJump_verified : backwardJumpOutline.Verifies Host.bare backwardJumpAst where
  entry a f hf _ := by
    have hidx : a.funcIdx = 0 := Nat.lt_one_iff.mp (List.getElem?_eq_some_iff.mp hf).1
    rw [hidx]
    exact ⟨rfl, .head _⟩
  cut a f sf s _ hf hcut := by
    have hidx : sf.funcIdx = 0 := Nat.lt_one_iff.mp (List.getElem?_eq_some_iff.mp hf).1
    rw [hidx] at hf
    cases hf
    obtain ⟨hguard, hrest⟩ := hcut
    simp only [List.mem_cons, List.not_mem_nil, or_false] at hrest
    rcases hrest with hrest | hrest | hrest
    · rw [hrest]
      exact wp_backwardJump_start
    · rw [hrest, atCatch, Outline.wp_catch hguard, andThen_nil, Outline.wp_endTry,
        backwardJumpTail, Outline.wp_label]
      exact wp_backwardJump_jmp rfl
    · rw [hrest]
      exact wp_backwardJump_jmp hguard

/-- No run of the program of `backwardJumpSource` ends: its fault is caught, and then it loops. -/
theorem outline_iff_backwardJump :
    RunCorrect Host.bare ⟨1, [], [backwardJumpCode]⟩ (fun _ _ => False) (fun _ => False)
      ⟨.new, [.new 0 (.struct [])], ()⟩ := by
  have hstart : start ⟨1, [], [backwardJumpCode]⟩ "Main" (.struct []) (.new ()) =
      .next ⟨.new, [.new 0 (.struct [])], ()⟩ := rfl
  obtain ⟨i, -, hiff⟩ := outline_iff backwardJump_frontend backwardJump_compiles
    (List.forall_mem_singleton.mpr backwardJump_labelsApart) (by decide) rfl hstart
  exact (hiff.mp ⟨backwardJumpOutline, backwardJump_verified, rfl, trivial, fun _ _ => id⟩).2

end Example

end Fasm
