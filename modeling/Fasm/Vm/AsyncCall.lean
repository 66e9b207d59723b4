import Fasm.Lib.Chain
import Fasm.Vm.CallReturn
import Fasm.Vm.Footprint
import Fasm.Vm.Guard

/-!
# Asynchronous calls

`ASYNC_CALL` enters its callee as `CALL` does, and the callee's value comes back as
`$ret` as it is and not as a future.  `AWAIT` takes every value that is not a
resolved future for `Null`, so an `AWAIT` of `$ret` gives what a `MOV` of `$ret`
gives only where the callee has returned `Null`.  `ASYNC_SYSCALL` wraps the value of
its handler, and there the two agree.
-/

namespace Fasm

open ExecM

variable {ω : Type} {host : Host ω} {p : Program}

/-! ## Running one instruction -/

/-- The turn of the run loop that has fetched `instr` from `func` for the top frame. -/
def turnOf (host : Host ω) (p : Program) (func : FunctionDef) (instr : Instruction)
    (e : Executor ω) : Iteration ω :=
  match e.callStack with
  | [] => .panic .emptyCallStack e
  | cf :: below => settle host func cf.ip (executeInstruction host p instr (e.advance cf below))

theorem iterate_eq_turnOf {e : Executor ω} {cf : CallFrame} {below : List CallFrame}
    {func : FunctionDef} {instr : Instruction} (hstack : e.callStack = cf :: below)
    (hfetch : Fetch p cf func instr) : iterate host p e = turnOf host p func instr e := by
  simp only [iterate, turnOf, hstack, hfetch.func_eq, hfetch.instr_eq]
  rfl

/-- `instr` runs on `e` without a fault, the callee that it enters, if any, has returned, and
the run goes on from `e'`. -/
inductive Completes (host : Host ω) (p : Program) (func : FunctionDef) (instr : Instruction)
    (e : Executor ω) : Executor ω → Prop
  | next {cf below e'} (hstack : e.callStack = cf :: below)
    (hexec : executeInstruction host p instr (e.advance cf below) = .ok .continue_ e') :
    Completes host p func instr e e'
  | returned {e₁ e₂ e'} (hcall : turnOf host p func instr e = .next e₁)
    (hpush : e₁.callStack.length = e.callStack.length + 1)
    (hrun : StepsAbove host p e.callStack.length e₁ e₂) (hback : Step host p e₂ e')
    (hdepth : e'.callStack.length = e.callStack.length) : Completes host p func instr e e'

/-- What completes is a run of the loop, when the instruction is the one that is fetched. -/
theorem Completes.steps {e e' : Executor ω} {cf : CallFrame} {below : List CallFrame}
    {func : FunctionDef} {instr : Instruction} (hstack : e.callStack = cf :: below)
    (hfetch : Fetch p cf func instr) (h : Completes host p func instr e e') :
    Relation.ReflTransGen (Step host p) e e' := by
  have hturn : iterate host p e = turnOf host p func instr e := iterate_eq_turnOf hstack hfetch
  cases h with
  | next hstack' hexec =>
    obtain ⟨rfl, rfl⟩ := List.cons.inj (hstack.symm.trans hstack')
    simp only [turnOf, hstack, hexec] at hturn
    exact .single hturn
  | @returned e₁ e₂ _ hcall hpush hrun hback hdepth =>
    have hfirst : Step host p e e₁ := hturn.trans hcall
    have hsteps : Relation.ReflTransGen (Step host p) e₁ e₂ :=
      Relation.ReflTransGen.mono (fun _ _ hstep => hstep.1) _ _ hrun
    exact (hsteps.head hfirst).tail hback

/-! ### Runs that come back are unique -/

/-- The next executor of a run, while the stack is deeper than `d`. -/
def nextAbove (host : Host ω) (p : Program) (d : Nat) (e : Executor ω) : Option (Executor ω) :=
  if d < e.callStack.length then
    match iterate host p e with
    | .next e' => some e'
    | _ => none
  else none

theorem nextAbove_of_step {d : Nat} {e e' : Executor ω} (hd : d < e.callStack.length)
    (h : Step host p e e') : nextAbove host p d e = some e' := by
  rw [nextAbove, if_pos hd, h]

theorem nextAbove_eq_none {d : Nat} {e : Executor ω} (hd : e.callStack.length = d) :
    nextAbove host p d e = none := by
  rw [nextAbove, if_neg (by omega)]

/-- A run above `d` that comes back to `d` is a chain to its end. -/
theorem leads_of_stepsAbove {d : Nat} {e₁ e₂ e' : Executor ω} (hd : d < e₁.callStack.length)
    (hrun : StepsAbove host p d e₁ e₂) (hback : Step host p e₂ e') :
    Relation.ReflTransGen (Leads (nextAbove host p d)) e₁ e' := by
  suffices h : Relation.ReflTransGen (Leads (nextAbove host p d)) e₁ e₂ ∧
      d < e₂.callStack.length from h.1.tail (nextAbove_of_step h.2 hback)
  clear hback
  induction hrun with
  | refl => exact ⟨.refl, hd⟩
  | tail _ hstep ih =>
    obtain ⟨hlead, hdeep⟩ := ih
    exact ⟨hlead.tail (nextAbove_of_step hdeep hstep.1), hstep.2⟩

/-- An instruction of which it is known whether it calls completes in one way. -/
theorem Completes.unique_call {func : FunctionDef} {operands : List Operand}
    {e e₁ e₂ : Executor ω} (h₁ : Completes host p func ⟨.call, operands⟩ e e₁)
    (h₂ : Completes host p func ⟨.call, operands⟩ e e₂) : e₁ = e₂ := by
  have hnext {cf below e'} : executeInstruction host p ⟨.call, operands⟩ (e.advance cf below) ≠
      .ok .continue_ e' := fun h => by
    have hy := executeInstruction_yields host p _ _ _ _ h
    simp [Instruction.Yields, Opcode.isControl] at hy
  cases h₁ with
  | next _ hexec => exact absurd hexec hnext
  | returned hcall hpush hrun hback hdepth =>
    cases h₂ with
    | next _ hexec => exact absurd hexec hnext
    | returned hcall' hpush' hrun' hback' hdepth' =>
      cases hcall.symm.trans hcall'
      exact end_unique (leads_of_stepsAbove (by omega) hrun hback)
        (leads_of_stepsAbove (by omega) hrun' hback')
        (nextAbove_eq_none hdepth) (nextAbove_eq_none hdepth')

/-! ## Writing a result -/

/-- A write to the operand completes. -/
def Operand.Assignable (x : Operand) (e : Executor ω) : Prop :=
  ∃ v e', writeOperand x v e = .ok () e'

section Write

variable (g : GlobalRegister) (cf : CallFrame) (below : List CallFrame) (w : ω)

/-- The executor with a top frame of which `ip` and `$ret` are set. -/
def framed (ip : Nat) (r : Value) : Executor ω :=
  ⟨g, { cf with ip := ip, retVal := r } :: below, w⟩

/-- A write faults alike or puts its value alike, whatever the value, `ip` and `$ret`. -/
def WritesAlike (m : Value → ExecM ω Unit) : Prop :=
  (∃ s, ∀ ip r u, m u (framed g cf below w ip r) = .error s (framed g cf below w ip r)) ∨
  ∃ put : Value → GlobalRegister × CallFrame, ∀ ip r u,
    m u (framed g cf below w ip r) = .ok () (framed (put u).1 (put u).2 below w ip r)

theorem writesAlike_deref (r : Value) : WritesAlike g cf below w (derefWrite r) := by
  cases r with
  | refMut isGlobal idx =>
    cases isGlobal with
    | true => exact .inr ⟨fun u => (g.set idx.toNat u, cf), fun _ _ _ => rfl⟩
    | false =>
      exact .inr ⟨fun u => (g, { cf with frame := cf.frame.set (idx.setWidth 8).toNat u }),
        fun _ _ _ => rfl⟩
  | _ => exact .inl ⟨_, fun _ _ _ => rfl⟩

theorem writesAlike_derefOf {f : Executor ω → Except Stop Value}
    (hf : ∀ ip r, f (framed g cf below w ip r) = f (framed g cf below w 0 .null)) :
    WritesAlike g cf below w fun u => reads f >>= fun r => derefWrite r u := by
  cases hy : f (framed g cf below w 0 .null) with
  | error s => exact .inl ⟨s, fun ip r u => reads_bind_error ((hf ip r).trans hy)⟩
  | ok x =>
    rcases writesAlike_deref g cf below w x with ⟨s, hs⟩ | ⟨put, hput⟩
    · exact .inl ⟨s, fun ip r u => (reads_bind_ok ((hf ip r).trans hy)).trans (hs ip r u)⟩
    · exact .inr ⟨put, fun ip r u => (reads_bind_ok ((hf ip r).trans hy)).trans (hput ip r u)⟩

theorem writesAlike_tmp (idx : U8) : WritesAlike g cf below w (writeSlot (.tmp idx)) := by
  cases hfs : cf.tmpFrames with
  | nil =>
    refine .inl ⟨.fault .indexOutOfBounds, fun ip r u => ?_⟩
    simp only [writeSlot, onLast, framed, CallFrame.setTmpSlot, hfs]
    rfl
  | cons f fs =>
    by_cases hlt : idx.toNat < 16
    · refine .inr ⟨fun u => (g, { cf with tmpFrames := f.set idx.toNat (some u) :: fs }),
        fun ip r u => ?_⟩
      simp only [writeSlot, onLast, framed, CallFrame.setTmpSlot, hfs, dif_pos hlt]
      rfl
    · refine .inl ⟨.fault .indexOutOfBounds, fun ip r u => ?_⟩
      simp only [writeSlot, onLast, framed, CallFrame.setTmpSlot, hfs, dif_neg hlt]
      rfl

theorem writesAlike_operand {x : Operand} (hx : x ≠ .slot (.builtIn .ret)) :
    WritesAlike g cf below w (writeOperand x) := by
  cases x with
  | slot s =>
    cases s with
    | local_ idx =>
      exact .inr ⟨fun u => (g, { cf with frame := cf.frame.set idx.toNat u }), fun _ _ _ => rfl⟩
    | tmp idx => exact writesAlike_tmp g cf below w idx
    | global idx => exact .inr ⟨fun u => (g.set idx.toNat u, cf), fun _ _ _ => rfl⟩
    | derefLocal idx => exact writesAlike_derefOf g cf below w fun _ _ => rfl
    | derefTmp idx => exact writesAlike_derefOf g cf below w fun _ _ => rfl
    | derefGlobal idx => exact writesAlike_derefOf g cf below w fun _ _ => rfl
    | builtIn b =>
      cases b with
      | ret => exact absurd rfl hx
      | _ => exact .inl ⟨_, fun _ _ _ => rfl⟩
  | _ => exact .inl ⟨_, fun _ _ _ => rfl⟩

variable {g cf below w}

/-- What places other than `$ret` hold does not depend on `ip` and `$ret`. -/
theorem get_framed {q : Place} (hq : q ≠ .ret) (ip ip' : Nat) (r r' : Value) :
    q.get (framed g cf below w ip r) = q.get (framed g cf below w ip' r') := by
  cases q with
  | ret => exact absurd rfl hq
  | _ => rfl

theorem place_framed (x : Operand) (ip ip' : Nat) (r r' : Value) :
    x.place (framed g cf below w ip r) = x.place (framed g cf below w ip' r') := by
  cases x with
  | slot s =>
    cases s with
    | builtIn b => cases b <;> rfl
    | _ => rfl
  | _ => rfl

end Write

/-- Only `$ret` names the place `$ret`. -/
theorem place_ne_ret {x : Operand} (hx : x ≠ .slot (.builtIn .ret)) (e : Executor ω) :
    x.place e ≠ some .ret := by
  have hderef (o : Option Value) : o.bind Value.place ≠ some .ret := by
    intro h
    obtain ⟨v, -, hv⟩ := Option.bind_eq_some_iff.mp h
    cases v with
    | refMut isGlobal idx => cases isGlobal <;> cases hv
    | _ => cases hv
  cases x with
  | slot s =>
    cases s with
    | derefLocal | derefTmp | derefGlobal => exact hderef _
    | builtIn b =>
      cases b with
      | ret => exact absurd rfl hx
      | _ => exact nofun
    | _ => exact nofun
  | _ => exact nofun

/-! ## What two turns leave -/

/-- How an iteration ends the run, if it does, and the executor it leaves. -/
def Iteration.left : Iteration ω → Option Ending × Executor ω
  | .next e => (none, e)
  | .done r e => (some (.result r), e)
  | .panic x e => (some (.panic x), e)
  | .exit c e => (some (.exit c), e)

/-- Two turns end alike and leave the same globals and the same value at the place. -/
structure SameLeft (q : Option Place) (it it' : Iteration ω) : Prop where
  ending_eq : it.left.1 = it'.left.1
  globals_eq : it.left.2.globals = it'.left.2.globals
  target_eq : ∀ x, q = some x → x.get it.left.2 = x.get it'.left.2

/-- The end of a turn that writes a value to an operand. -/
def putTurn (host : Host ω) (func : FunctionDef) (ip : Nat) (x : Operand) (u : Value)
    (e : Executor ω) : Iteration ω :=
  settle host func ip ((writeOperand x u >>= fun _ => pure .continue_) e)

section Put

variable {g : GlobalRegister} {cf : CallFrame} {below : List CallFrame} {w : ω}

theorem putTurn_ok {func : FunctionDef} {ip : Nat} {x : Operand} {u : Value} {e e' : Executor ω}
    (h : writeOperand x u e = .ok () e') : putTurn host func ip x u e = .next e' := by
  rw [putTurn, bind_run_ok h]
  rfl

/-- A fault leaves the same whatever `$ret` was. -/
theorem sameLeft_error (func : FunctionDef) (ip ip' : Nat) (s : Stop) (r r' : Value)
    {q : Option Place} (hq : q ≠ some .ret) :
    SameLeft q (settle host func ip' (.error s (framed g cf below w ip r)))
      (settle host func ip' (.error s (framed g cf below w ip r'))) := by
  have hget (x : Place) (hx : q = some x) : x.get (framed g cf below w ip r) =
      x.get (framed g cf below w ip r') := get_framed (fun h => hq (h ▸ hx)) ip ip r r'
  cases s with
  | panic x => exact ⟨rfl, rfl, hget⟩
  | exit c => exact ⟨rfl, rfl, hget⟩
  | fault f =>
    simp only [settle, deliver, framed]
    split
    · exact ⟨rfl, rfl, fun _ _ => rfl⟩
    · exact ⟨rfl, rfl, hget⟩

/-- Two values written to one operand leave the same if and only if they are equal or the
operand cannot be assigned. -/
theorem sameLeft_put_iff (cf : CallFrame) (func : FunctionDef) (ip ip' : Nat) (x : Operand)
    (r r' u u' : Value) (ip₀ : Nat) (r₀ : Value) :
    SameLeft (x.place (framed g cf below w ip₀ r₀))
        (putTurn host func ip' x u (framed g cf below w ip r))
        (putTurn host func ip' x u' (framed g cf below w ip r')) ↔
      u = u' ∨ ¬ x.Assignable (framed g cf below w ip₀ r₀) := by
  by_cases hx : x = .slot (.builtIn .ret)
  · subst hx
    have hassign : Operand.Assignable (.slot (.builtIn .ret)) (framed g cf below w ip₀ r₀) :=
      ⟨.null, _, rfl⟩
    refine ⟨fun h => .inl (Option.some.inj (h.target_eq .ret rfl)), fun h => ?_⟩
    obtain rfl := h.resolve_right fun hno => hno hassign
    exact ⟨rfl, rfl, fun _ _ => rfl⟩
  have hret (ip r) : x.place (framed g cf below w ip r) ≠ some .ret := place_ne_ret hx _
  rcases writesAlike_operand g cf below w hx with ⟨s, hs⟩ | ⟨put, hput⟩
  · refine iff_of_true ?_ (.inr fun ⟨v, e', he'⟩ => ?_)
    · rw [putTurn, putTurn, bind_run_error (hs _ _ _), bind_run_error (hs _ _ _)]
      exact sameLeft_error func ip ip' s r r' (hret _ _)
    · cases (hs ip₀ r₀ v).symm.trans he'
  · rw [putTurn_ok (hput ip r u), putTurn_ok (hput ip r' u')]
    constructor
    · intro h
      obtain ⟨q, hq, hget, -⟩ := writeOperand_ok (hput ip r u)
      obtain ⟨q', hq', hget', -⟩ := writeOperand_ok (hput ip r' u')
      rw [place_framed x ip ip₀ r r₀] at hq
      rw [place_framed x ip ip₀ r' r₀] at hq'
      cases hq.symm.trans hq'
      exact .inl (Option.some.inj (hget.symm.trans ((h.target_eq q hq).trans hget')))
    · intro h
      obtain rfl := h.resolve_right fun hno => hno ⟨.null, _, hput ip₀ r₀ .null⟩
      exact ⟨rfl, rfl, fun q hq => get_framed (fun h => hret _ _ (h ▸ hq)) ip ip r r'⟩

end Put

/-! ## The two ways to a result -/

/-- `AWAIT $ret, x`. -/
def awaitRet (x : Operand) : Instruction := ⟨.await, [.slot (.builtIn .ret), x]⟩

/-- `MOV $ret, x`. -/
def movRet (x : Operand) : Instruction := ⟨.mov, [.slot (.builtIn .ret), x]⟩

/-- What `AWAIT` makes of a value. -/
def Value.awaited : Value → Value
  | .future (some v) => v
  | _ => .null

/-- A value is no future of itself. -/
theorem awaited_eq_self_iff {v : Value} : v.awaited = v ↔ v = .null := by
  cases v with
  | future o =>
    cases o with
    | none => exact iff_of_false nofun nofun
    | some v =>
      refine iff_of_false (fun h => ?_) nofun
      have hsize : sizeOf v = sizeOf (Value.future (some v)) := congrArg sizeOf h
      simp only [Value.future.sizeOf_spec, Option.some.sizeOf_spec] at hsize
      omega
  | null => exact iff_of_true rfl rfl
  | _ => exact iff_of_false nofun nofun

theorem turnOf_awaitRet (func : FunctionDef) (x : Operand) (g : GlobalRegister) (cf : CallFrame)
    (below : List CallFrame) (w : ω) :
    turnOf host p func (awaitRet x) ⟨g, cf :: below, w⟩ =
      putTurn host func cf.ip x cf.retVal.awaited
        (framed g cf below w (cf.ip + 1) cf.retVal) := by
  obtain ⟨funcIdx, ip, frame, args, retVal, guard, tmp⟩ := cf
  cases retVal with
  | future o => cases o <;> rfl
  | _ => rfl

theorem turnOf_movRet (func : FunctionDef) (x : Operand) (g : GlobalRegister) (cf : CallFrame)
    (below : List CallFrame) (w : ω) :
    turnOf host p func (movRet x) ⟨g, cf :: below, w⟩ =
      putTurn host func cf.ip x cf.retVal (framed g cf below w (cf.ip + 1) cf.retVal) := rfl

/-- Run from `e`, `async` and then `AWAIT $ret, x` leave what `plain` and then `MOV $ret, x`
leave. -/
def AwaitsAs (host : Host ω) (p : Program) (func : FunctionDef) (async plain : Instruction)
    (x : Operand) (e : Executor ω) : Prop :=
  (∀ e₁, Completes host p func async e e₁ → ∃ e₂, Completes host p func plain e e₂ ∧
    SameLeft (x.place e₁) (turnOf host p func (awaitRet x) e₁)
      (turnOf host p func (movRet x) e₂)) ∧
  ∀ e₂, Completes host p func plain e e₂ → ∃ e₁, Completes host p func async e e₁ ∧
    SameLeft (x.place e₁) (turnOf host p func (awaitRet x) e₁)
      (turnOf host p func (movRet x) e₂)

/-! ### Calls -/

section Call

variable {func : FunctionDef} {operands : List Operand} {e e₁ : Executor ω}

/-- The two calls do the same. -/
theorem completes_asyncCall :
    Completes host p func ⟨.asyncCall, operands⟩ e e₁ ↔
      Completes host p func ⟨.call, operands⟩ e e₁ := by
  constructor
  · intro h
    cases h with
    | next hstack hexec => exact .next hstack hexec
    | returned hcall hpush hrun hback hdepth => exact .returned hcall hpush hrun hback hdepth
  · intro h
    cases h with
    | next hstack hexec => exact .next hstack hexec
    | returned hcall hpush hrun hback hdepth => exact .returned hcall hpush hrun hback hdepth

theorem Completes.exists_frame (h : Completes host p func ⟨.call, operands⟩ e e₁) :
    ∃ cf below, e₁.callStack = cf :: below := by
  cases h with
  | next hstack hexec =>
    have hy := executeInstruction_yields host p _ _ _ _ hexec
    simp [Instruction.Yields, Opcode.isControl] at hy
  | returned hcall hpush hrun hback hdepth =>
    refine List.exists_cons_of_length_pos ?_
    cases hs : e.callStack with
    | nil => simp only [turnOf, hs] at hcall; cases hcall
    | cons => rw [hdepth, hs]; exact Nat.succ_pos _

/-- After a call, `AWAIT` and `MOV` leave the same if and only if the callee has returned `Null`
or the target cannot be assigned. -/
theorem sameLeft_awaitRet_iff (x : Operand) (h : Completes host p func ⟨.call, operands⟩ e e₁) :
    SameLeft (x.place e₁) (turnOf host p func (awaitRet x) e₁)
        (turnOf host p func (movRet x) e₁) ↔
      Place.ret.get e₁ = some .null ∨ ¬ x.Assignable e₁ := by
  obtain ⟨cf, below, hstack⟩ := h.exists_frame
  obtain ⟨g, stack, w⟩ := e₁
  obtain rfl : stack = cf :: below := hstack
  rw [turnOf_awaitRet, turnOf_movRet]
  refine (sameLeft_put_iff cf func _ _ x _ _ _ _ cf.ip cf.retVal).trans (or_congr_left ?_)
  exact awaited_eq_self_iff.trans ⟨fun h => congrArg some h, Option.some.inj⟩

theorem awaitsAs_call_iff (x : Operand) :
    AwaitsAs host p func ⟨.asyncCall, operands⟩ ⟨.call, operands⟩ x e ↔
      ∀ e₁, Completes host p func ⟨.asyncCall, operands⟩ e e₁ →
        Place.ret.get e₁ = some .null ∨ ¬ x.Assignable e₁ := by
  constructor
  · intro h e₁ h₁
    have hcall := completes_asyncCall.mp h₁
    obtain ⟨e₂, h₂, hsame⟩ := h.1 e₁ h₁
    cases hcall.unique_call h₂
    exact (sameLeft_awaitRet_iff x hcall).mp hsame
  · intro h
    refine ⟨fun e₁ h₁ => ?_, fun e₂ h₂ => ?_⟩
    · have hcall := completes_asyncCall.mp h₁
      exact ⟨e₁, hcall, (sameLeft_awaitRet_iff x hcall).mpr (h e₁ h₁)⟩
    · have hasync := completes_asyncCall.mpr h₂
      exact ⟨e₂, hasync, (sameLeft_awaitRet_iff x h₂).mpr (h e₂ hasync)⟩

end Call

/-! ### Syscalls -/

/-- The handler that the operands name returns `v` and leaves the globals `g` and the world
`w`. -/
def SyscallReturns (host : Host ω) (instr : Instruction) (e : Executor ω) (v : Value)
    (g : GlobalRegister) (w : ω) : Prop :=
  ∃ idOp id argOp args handler, instr.getOp 0 = .ok idOp ∧ syscallId idOp = .ok id ∧
    instr.getOp 1 = .ok argOp ∧ e.readOperand argOp = .ok args ∧
    host.syscalls id = some handler ∧ handler args e.globals e.world = (.value v, g, w)

/-- A syscall completes if and only if its handler returns a value, which is `$ret` then. -/
theorem syscallOp_eq_ok_iff {instr : Instruction} {wrap : Value → Value} {g : GlobalRegister}
    {cf : CallFrame} {below : List CallFrame} {w : ω} {e' : Executor ω} :
    syscallOp instr host wrap ⟨g, cf :: below, w⟩ = .ok .continue_ e' ↔
      ∃ v g' w', SyscallReturns host instr ⟨g, cf :: below, w⟩ v g' w' ∧
        e' = ⟨g', { cf with retVal := wrap v } :: below, w'⟩ := by
  constructor
  · intro h
    obtain ⟨idOp, hidOp, h⟩ := lift_bind_eq_ok h
    obtain ⟨id, hid, h⟩ := lift_bind_eq_ok h
    obtain ⟨argOp, hargOp, h⟩ := lift_bind_eq_ok h
    obtain ⟨args, hargs, h⟩ := reads_bind_eq_ok h
    obtain ⟨handler, hhandler, h⟩ := lift_bind_eq_ok h
    obtain ⟨v, e₁, hcall, h⟩ := bind_run_eq_ok h
    obtain ⟨u, e₂, hset, hpure⟩ := bind_run_eq_ok h
    cases hpure
    unfold callSyscall at hcall
    split at hcall
    case h_1 v' g' w' hrun =>
      cases hcall
      cases hset
      exact ⟨v, g', w', ⟨idOp, id, argOp, args, handler, hidOp, hid, hargOp, hargs,
        orFault_eq_ok.mp hhandler, hrun⟩, rfl⟩
    case h_2 => cases hcall
    case h_3 => cases hcall
  · rintro ⟨v, g', w', ⟨idOp, id, argOp, args, handler, hidOp, hid, hargOp, hargs, hhandler,
      hrun⟩, rfl⟩
    have hcall : callSyscall handler args ⟨g, cf :: below, w⟩ = .ok v ⟨g', cf :: below, w'⟩ := by
      simp only [callSyscall, hrun]
    have hlift {α β : Type} {y : Except Stop α} {a : α} {k : α → ExecM ω β} {e : Executor ω}
        (h : y = .ok a) : ((liftM y : ExecM ω α) >>= k) e = k a e := reads_bind_ok h
    rw [syscallOp, hlift hidOp, hlift hid, hlift hargOp]
    refine (reads_bind_ok hargs).trans ?_
    rw [hlift (orFault_eq_ok.mpr hhandler), bind_run_ok hcall]
    rfl

section Syscall

variable {func : FunctionDef} {operands : List Operand} {e e₁ : Executor ω}

/-- A syscall enters no callee. -/
theorem Completes.syscall {instr : Instruction} (hop : instr.opcode ∈ [.syscall, .asyncSyscall])
    (h : Completes host p func instr e e₁) :
    ∃ cf below, e.callStack = cf :: below ∧
      executeInstruction host p instr (e.advance cf below) = .ok .continue_ e₁ := by
  cases h with
  | next hstack hexec => exact ⟨_, _, hstack, hexec⟩
  | @returned e₀ e₂ _ hcall hpush =>
    obtain ⟨g, stack, w⟩ := e
    cases stack with
    | nil => cases hcall
    | cons cf below =>
      change settle host func cf.ip (executeInstruction host p instr
        (View.plug ⟨{ cf with ip := cf.ip + 1 }, g, w⟩ below)) = _ at hcall
      rw [View.exec_plug, settle_plug host p] at hcall
      -- only a call makes the stack deeper
      match hexec : View.exec host p instr ⟨{ cf with ip := cf.ip + 1 }, g, w⟩ with
      | .ok a v =>
        have hy := View.exec_yields host p instr _ hexec
        rw [hexec] at hcall
        cases a with
        | continue_ =>
          cases hcall
          simp [ofConfig] at hpush
        | _ =>
          rcases List.mem_cons.mp hop with ho | ho
          · simp [Instruction.Yields, ho] at hy
          · simp [Instruction.Yields, List.mem_singleton.mp ho] at hy
      | .error (.fault f) v =>
        rw [hexec] at hcall
        simp only [View.settle, View.fault] at hcall
        split at hcall
        · cases hcall
          simp [ofConfig] at hpush
        · cases hcall
      | .error (.panic x) v => rw [hexec] at hcall; cases hcall
      | .error (.exit c) v => rw [hexec] at hcall; cases hcall

/-- `AWAIT` takes the value of the handler out of the future that it is wrapped in. -/
theorem sameLeft_syscall (func : FunctionDef) (x : Operand) (g : GlobalRegister) (cf : CallFrame)
    (below : List CallFrame) (w : ω) (v : Value) :
    SameLeft (x.place (framed g cf below w cf.ip (.future (some v))))
      (turnOf host p func (awaitRet x) (framed g cf below w cf.ip (.future (some v))))
      (turnOf host p func (movRet x) (framed g cf below w cf.ip v)) := by
  rw [framed, framed, turnOf_awaitRet, turnOf_movRet]
  exact (sameLeft_put_iff cf func _ _ x _ _ v v _ _).mpr (.inl rfl)

theorem awaitsAs_syscall (x : Operand) :
    AwaitsAs host p func ⟨.asyncSyscall, operands⟩ ⟨.syscall, operands⟩ x e := by
  constructor
  · intro e₁ h₁
    obtain ⟨cf, below, hstack, hexec⟩ := h₁.syscall (by simp)
    obtain ⟨v, g, w, hreturns, rfl⟩ := syscallOp_eq_ok_iff.mp hexec
    exact ⟨_, .next hstack (syscallOp_eq_ok_iff.mpr ⟨v, g, w, hreturns, rfl⟩),
      sameLeft_syscall func x g { cf with ip := cf.ip + 1 } below w v⟩
  · intro e₂ h₂
    obtain ⟨cf, below, hstack, hexec⟩ := h₂.syscall (by simp)
    obtain ⟨v, g, w, hreturns, rfl⟩ := syscallOp_eq_ok_iff.mp hexec
    exact ⟨_, .next hstack (syscallOp_eq_ok_iff.mpr ⟨v, g, w, hreturns, rfl⟩),
      sameLeft_syscall func x g { cf with ip := cf.ip + 1 } below w v⟩

end Syscall

/-- **`ASYNC CALL` and `AWAIT` against `CALL` and `MOV`.**  For every program, callee, argument,
target and state, the asynchronous call leaves in the target what the plain one does if and only
if the callee has returned `Null` (or the target cannot be assigned, so that both fault): the
callee's value is not wrapped in a future, and `AWAIT` makes `Null` of it.  For syscalls the two
agree always. -/
theorem asyncCall_await_iff (func : FunctionDef) (operands : List Operand) (x : Operand)
    (e : Executor ω) :
    (AwaitsAs host p func ⟨.asyncCall, operands⟩ ⟨.call, operands⟩ x e ↔
      ∀ e₁, Completes host p func ⟨.asyncCall, operands⟩ e e₁ →
        Place.ret.get e₁ = some .null ∨ ¬ x.Assignable e₁) ∧
    AwaitsAs host p func ⟨.asyncSyscall, operands⟩ ⟨.syscall, operands⟩ x e :=
  ⟨awaitsAs_call_iff x, awaitsAs_syscall x⟩

section Counterexample

/-- `Main` calls `f` asynchronously and awaits its value, which is 7. -/
def awaitMain : Program :=
  ⟨1, [], [⟨"Main", [], [⟨.asyncCall, [.funcRef 1, .imm .null]⟩, awaitRet (.slot (.local_ 0))]⟩,
    ⟨"f", [], [⟨.ret, [.imm (.int .int32 7)]⟩]⟩]⟩

/-- The local 0 of `Main` is not what a plain call would leave in it. -/
theorem awaitMain_differs :
    ¬ AwaitsAs Host.bare awaitMain ⟨"Main", [], []⟩ ⟨.asyncCall, [.funcRef 1, .imm .null]⟩
      ⟨.call, [.funcRef 1, .imm .null]⟩ (.slot (.local_ 0))
      ⟨.new, [.new 0 (.struct [])], ()⟩ := by
  intro h
  have hcompletes : Completes Host.bare awaitMain ⟨"Main", [], []⟩
      ⟨.asyncCall, [.funcRef 1, .imm .null]⟩ ⟨.new, [.new 0 (.struct [])], ()⟩
      ⟨.new, [{ CallFrame.new 0 (.struct []) with ip := 1, retVal := .int .int32 7 }], ()⟩ :=
    .returned rfl rfl .refl rfl rfl
  rcases (awaitsAs_call_iff _).mp h _ hcompletes with hnull | hno
  · cases hnull
  · exact hno ⟨.null, _, rfl⟩

end Counterexample

end Fasm
