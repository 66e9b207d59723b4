import Fasm.Vm.Panic

/-!
# What an instruction computes

Most instructions do nothing but compute a value from those of their operands and write it to
their target, or update the value of their target.  `Gives` and `UpdatesTo` say what value, on any
executor and for all operands that read the same; what an opcode computes is then a question
about the operation that it is dispatched to.
-/

namespace Fasm

open ExecM

variable {ω : Type} {α : Type}

/-- Each of the operands reads the value beside it. -/
def Executor.ReadsAll (e : Executor ω) (srcs : List Operand) (args : List Value) : Prop :=
  List.Forall₂ (fun op v => e.readOperand op = .ok v) srcs args

namespace Executor.ReadsAll

variable {e : Executor ω} {srcs : List Operand} {a b c : Value}

theorem one (h : e.ReadsAll srcs [a]) : ∃ x, e.readOperand x = .ok a ∧ srcs = [x] := by
  obtain ⟨x, rest, hx, hrest, rfl⟩ := List.forall₂_cons_right_iff.mp h
  obtain rfl := List.forall₂_nil_right_iff.mp hrest
  exact ⟨x, hx, rfl⟩

theorem two (h : e.ReadsAll srcs [a, b]) :
    ∃ x y, e.readOperand x = .ok a ∧ e.readOperand y = .ok b ∧ srcs = [x, y] := by
  obtain ⟨x, rest, hx, hrest, rfl⟩ := List.forall₂_cons_right_iff.mp h
  obtain ⟨y, hy, rfl⟩ := one hrest
  exact ⟨x, y, hx, hy, rfl⟩

theorem three (h : e.ReadsAll srcs [a, b, c]) : ∃ x y z, e.readOperand x = .ok a ∧
    e.readOperand y = .ok b ∧ e.readOperand z = .ok c ∧ srcs = [x, y, z] := by
  obtain ⟨x, rest, hx, hrest, rfl⟩ := List.forall₂_cons_right_iff.mp h
  obtain ⟨y, z, hy, hz, rfl⟩ := two hrest
  exact ⟨x, y, z, hx, hy, hz, rfl⟩

end Executor.ReadsAll

/-- An instruction but for the operands that it reads and the one that it writes. -/
abbrev Template : Type := List Operand → Operand → Instruction

/-- The target is the last operand. -/
def Opcode.into (op : Opcode) : Template := fun srcs dst => ⟨op, srcs ++ [dst]⟩

/-- `CAST`, which has its type between the two. -/
def castTo (t : FasmType) : Template := fun srcs dst => ⟨.cast, srcs ++ [.type t, dst]⟩

/-- The result is written to the target, or it stops the instruction. -/
def finish (dst : Operand) (r : Except Stop Value) : ExecM ω Action := do
  let v ← r
  writeVal dst v
  return .continue_

/-- The result replaces the value of the target, or it stops the instruction. -/
def replace (dst : Operand) (r : Except Stop Value) : ExecM ω Action := do
  writeTargetMut dst fun _ => do return ((), ← r)
  return .continue_

/-- On operands that read `args`, the instruction gives the result `r`. -/
def Gives (instr : Template) (args : List Value) (r : Except Stop Value) : Prop :=
  ∀ (ω : Type) (host : Host ω) (p : Program) (e : Executor ω) (srcs : List Operand)
    (dst : Operand), e.ReadsAll srcs args →
      executeInstruction host p (instr srcs dst) e = finish dst r e

/-- On operands that read `args`, the instruction makes `r` of a target that is `coll`. -/
def UpdatesTo (op : Opcode) (coll : Value) (args : List Value) (r : Except Stop Value) : Prop :=
  ∀ (ω : Type) (host : Host ω) (p : Program) (e : Executor ω) (srcs : List Operand)
    (dst : Operand), e.target dst = .ok coll → e.ReadsAll srcs args →
      executeInstruction host p ⟨op, dst :: srcs⟩ e = replace dst r e

/-! ## Runs of the families -/

section Families

variable {instr : Instruction} {e : Executor ω}

/-- Fetching an operand that is there. -/
theorem getOp_bind_run {n : Nat} {op : Operand} (h : instr.operands[n]? = some op)
    (k : Operand → ExecM ω α) :
    ((liftM (instr.getOp n) : ExecM ω Operand) >>= k) e = k op e :=
  reads_bind_ok (f := fun _ => instr.getOp n) (orFault_eq_ok.mpr h)

/-- Fetching an operand and reading it. -/
theorem val_bind_run {n : Nat} {op : Operand} {v : Value} (h : instr.operands[n]? = some op)
    (hv : e.readOperand op = .ok v) (k : Value → ExecM ω α) :
    ((liftM (instr.getOp n) : ExecM ω Operand) >>= fun op => readVal op >>= k) e = k v e :=
  (getOp_bind_run h _).trans (reads_bind_ok hv)

/-- The end of an instruction that writes its result. -/
theorem finish_run {n : Nat} {dst : Operand} (h : instr.operands[n]? = some dst)
    (r : Except Stop Value) :
    ((liftM r : ExecM ω Value) >>= fun v => (liftM (instr.getOp n) : ExecM ω Operand) >>= fun op =>
      writeVal op v >>= fun _ => pure .continue_) e = finish dst r e := by
  cases r with
  | ok v => exact getOp_bind_run h _
  | error s => rfl

theorem onLast_congr {f f' : CallFrame → Except Stop (α × CallFrame)} {g : GlobalRegister}
    {cf : CallFrame} {below : List CallFrame} {w : ω} (h : f cf = f' cf) :
    (onLast f : ExecM ω α) ⟨g, cf :: below, w⟩ = onLast f' ⟨g, cf :: below, w⟩ := by
  simp only [onLast, h]

/-- Only the value of the target matters for its update. -/
theorem writeTargetMut_target {dst : Operand} {c : Value} (h : e.target dst = .ok c)
    (f : Value → Except Stop (α × Value)) :
    writeTargetMut dst f e = writeTargetMut dst (fun _ => f c) e := by
  obtain ⟨g, stack, w⟩ := e
  cases dst with
  | slot s =>
    cases s with
    | local_ idx =>
      cases stack with
      | nil => cases h
      | cons cf below =>
        have h : orFault (cf.frame.get idx.toNat) .undeclaredSlot = .ok c := h
        simp only [writeTargetMut, onLast, h]
        rfl
    | tmp idx =>
      cases stack with
      | nil => cases h
      | cons cf below =>
        have h : (cf.tmpSlot idx >>= fun o => orFault o .undeclaredSlot) = .ok c := h
        obtain ⟨o, ho, h⟩ := bind_eq_ok h
        unfold writeTargetMut
        refine onLast_congr ?_
        show (cf.tmpSlot idx >>= fun o => orFault o .undeclaredSlot >>= fun c => f c >>= _) =
          cf.tmpSlot idx >>= fun o => orFault o .undeclaredSlot >>= fun _ => f c >>= _
        rw [ho]
        show (orFault o .undeclaredSlot >>= fun c => f c >>= _) =
          orFault o .undeclaredSlot >>= fun _ => f c >>= _
        rw [h]
        rfl
    | global idx =>
      have h : orFault (g.get idx.toNat) .undeclaredSlot = .ok c := h
      simp only [writeTargetMut, onGlobals, h]
      rfl
    | _ => cases h
  | _ => cases h

variable {o : Opcode} {x y dst : Operand} {a b : Value}

theorem binaryOp_run {f : Value → Value → Except Stop Value} (hx : e.readOperand x = .ok a)
    (hy : e.readOperand y = .ok b) :
    binaryOp ⟨o, [x, y, dst]⟩ f e = finish dst (f a b) e := by
  refine (val_bind_run rfl hx _).trans ?_
  refine (val_bind_run rfl hy _).trans ?_
  exact finish_run rfl (f a b)

theorem unaryOp_run {f : Value → Except Stop Value} (hx : e.readOperand x = .ok a) :
    unaryOp ⟨o, [x, dst]⟩ f e = finish dst (f a) e := by
  refine (val_bind_run rfl hx _).trans ?_
  exact finish_run rfl (f a)

theorem execCast_run {t : FasmType} (hx : e.readOperand x = .ok a) :
    execCast ⟨o, [x, .type t, dst]⟩ e = finish dst (castValue a t) e := by
  refine (val_bind_run rfl hx _).trans ?_
  refine (getOp_bind_run rfl _).trans ?_
  exact finish_run rfl (castValue a t)

theorem keyedGet_run {f : Value → U32 → Except Stop Value} {i : U32}
    (hx : e.readOperand x = .ok a) (hy : e.readOperand y = .ok b) (hi : asU32 b = .ok i) :
    keyedGet ⟨o, [x, y, dst]⟩ f e = finish dst (f a i) e := by
  refine (val_bind_run rfl hy _).trans ?_
  refine (reads_bind_ok (f := fun _ => asU32 b) hi).trans ?_
  refine (val_bind_run rfl hx _).trans ?_
  exact finish_run rfl (f a i)

theorem execVecSlice_run {z : Operand} {v : List Value} {c : Value} {i j : U32}
    (hx : e.readOperand x = .ok (.vec v)) (hy : e.readOperand y = .ok b) (hi : asU32 b = .ok i)
    (hz : e.readOperand z = .ok c) (hj : asU32 c = .ok j) :
    execVecSlice ⟨o, [x, y, z, dst]⟩ e =
      finish dst (.ok (.slice (sliceOf v i.toNat j.toNat))) e := by
  refine (val_bind_run rfl hx _).trans ?_
  refine (val_bind_run rfl hy _).trans ?_
  refine (reads_bind_ok (f := fun _ => asU32 b) hi).trans ?_
  refine (val_bind_run rfl hz _).trans ?_
  refine (reads_bind_ok (f := fun _ => asU32 c) hj).trans ?_
  exact getOp_bind_run rfl _

/-- The end of an instruction that updates its target. -/
theorem replace_run {c : Value} (h : instr.operands[0]? = some dst) (hc : e.target dst = .ok c)
    (f : Value → Except Stop Value) :
    ((liftM (instr.getOp 0) : ExecM ω Operand) >>= fun op =>
      (writeTargetMut op fun coll => do return ((), ← f coll)) >>= fun _ =>
        pure .continue_) e = replace dst (f c) e := by
  refine (getOp_bind_run h _).trans ?_
  have htarget := writeTargetMut_target hc fun coll => do return ((), ← f coll)
  show EStateM.bind _ _ e = EStateM.bind _ _ e
  rw [EStateM.bind, htarget]
  rfl

theorem pushOp_run {c : Value} {f : Value → Value → Except Stop Value} (hc : e.target dst = .ok c)
    (hx : e.readOperand x = .ok a) : pushOp ⟨o, [dst, x]⟩ f e = replace dst (f c a) e := by
  refine (val_bind_run rfl hx _).trans ?_
  exact replace_run rfl hc fun coll => f coll a

theorem keyedMut_run {c : Value} {f : Value → U32 → Except Stop Value} {i : U32}
    (hc : e.target dst = .ok c) (hx : e.readOperand x = .ok a) (hi : asU32 a = .ok i) :
    keyedMut ⟨o, [dst, x]⟩ f e = replace dst (f c i) e := by
  refine (val_bind_run rfl hx _).trans ?_
  refine (reads_bind_ok (f := fun _ => asU32 a) hi).trans ?_
  exact replace_run rfl hc fun coll => f coll i

theorem keyedSet_run {c : Value} {f : Value → U32 → Value → Except Stop Value} {i : U32}
    (hc : e.target dst = .ok c) (hx : e.readOperand x = .ok a) (hi : asU32 a = .ok i)
    (hy : e.readOperand y = .ok b) :
    keyedSet ⟨o, [dst, x, y]⟩ f e = replace dst (f c i b) e := by
  refine (val_bind_run rfl hx _).trans ?_
  refine (reads_bind_ok (f := fun _ => asU32 a) hi).trans ?_
  refine (val_bind_run rfl hy _).trans ?_
  exact replace_run rfl hc fun coll => f coll i b

end Families

/-! ## What the opcodes give -/

theorem Gives.of_eq {instr : Template} {args : List Value} {r r' : Except Stop Value}
    (h : Gives instr args r) (hr : r = r') : Gives instr args r' := hr ▸ h

/-- An opcode that is dispatched to a family computes the family's operation. -/
theorem gives_binary {op : Opcode} {f : Value → Value → Except Stop Value}
    (h : ∀ {ω : Type} (host : Host ω) (p : Program) (operands : List Operand),
      executeInstruction host p ⟨op, operands⟩ = binaryOp ⟨op, operands⟩ f) (a b : Value) :
    Gives op.into [a, b] (f a b) := by
  intro ω host p e srcs dst hread
  obtain ⟨x, y, hx, hy, rfl⟩ := hread.two
  exact (congrFun (h host p _) e).trans (binaryOp_run hx hy)

theorem gives_unary {op : Opcode} {f : Value → Except Stop Value}
    (h : ∀ {ω : Type} (host : Host ω) (p : Program) (operands : List Operand),
      executeInstruction host p ⟨op, operands⟩ = unaryOp ⟨op, operands⟩ f) (a : Value) :
    Gives op.into [a] (f a) := by
  intro ω host p e srcs dst hread
  obtain ⟨x, hx, rfl⟩ := hread.one
  exact (congrFun (h host p _) e).trans (unaryOp_run hx)

theorem gives_keyed {op : Opcode} {f : Value → U32 → Except Stop Value} {k : Value} {i : U32}
    (h : ∀ {ω : Type} (host : Host ω) (p : Program) (operands : List Operand),
      executeInstruction host p ⟨op, operands⟩ = keyedGet ⟨op, operands⟩ f)
    (hi : asU32 k = .ok i) (a : Value) : Gives op.into [a, k] (f a i) := by
  intro ω host p e srcs dst hread
  obtain ⟨x, y, hx, hy, rfl⟩ := hread.two
  exact (congrFun (h host p _) e).trans (keyedGet_run hx hy hi)

theorem gives_vecSlice {k l : Value} {i j : U32} (hi : asU32 k = .ok i) (hj : asU32 l = .ok j)
    (v : List Value) : Gives Opcode.vecSlice.into [.vec v, k, l]
      (.ok (.slice (sliceOf v i.toNat j.toNat))) := by
  intro ω host p e srcs dst hread
  obtain ⟨x, y, z, hx, hy, hz, rfl⟩ := hread.three
  exact execVecSlice_run hx hy hi hz hj

theorem gives_cast (t : FasmType) (a : Value) : Gives (castTo t) [a] (castValue a t) := by
  intro ω host p e srcs dst hread
  obtain ⟨x, hx, rfl⟩ := hread.one
  exact execCast_run hx

/-! ## What they update -/

section UpdatesTo

variable {op : Opcode} {k : Value} {i : U32}

theorem updatesTo_push {f : Value → Value → Except Stop Value}
    (h : ∀ {ω : Type} (host : Host ω) (p : Program) (operands : List Operand),
      executeInstruction host p ⟨op, operands⟩ = pushOp ⟨op, operands⟩ f) (c a : Value) :
    UpdatesTo op c [a] (f c a) := by
  intro ω host p e srcs dst hc hread
  obtain ⟨x, hx, rfl⟩ := hread.one
  exact (congrFun (h host p _) e).trans (pushOp_run hc hx)

theorem updatesTo_keyedMut {f : Value → U32 → Except Stop Value}
    (h : ∀ {ω : Type} (host : Host ω) (p : Program) (operands : List Operand),
      executeInstruction host p ⟨op, operands⟩ = keyedMut ⟨op, operands⟩ f)
    (hi : asU32 k = .ok i) (c : Value) : UpdatesTo op c [k] (f c i) := by
  intro ω host p e srcs dst hc hread
  obtain ⟨x, hx, rfl⟩ := hread.one
  exact (congrFun (h host p _) e).trans (keyedMut_run hc hx hi)

theorem updatesTo_keyedSet {f : Value → U32 → Value → Except Stop Value}
    (h : ∀ {ω : Type} (host : Host ω) (p : Program) (operands : List Operand),
      executeInstruction host p ⟨op, operands⟩ = keyedSet ⟨op, operands⟩ f)
    (hi : asU32 k = .ok i) (c a : Value) : UpdatesTo op c [k, a] (f c i a) := by
  intro ω host p e srcs dst hc hread
  obtain ⟨x, y, hx, hy, rfl⟩ := hread.two
  exact (congrFun (h host p _) e).trans (keyedSet_run hc hx hi hy)

end UpdatesTo

section Opcodes

variable (a b : Value)

theorem gives_add : Gives Opcode.add.into [a, b] (checked Value.add a b) :=
  gives_binary (fun _ _ _ => rfl) a b

theorem gives_sub : Gives Opcode.sub.into [a, b] (checked Value.sub a b) :=
  gives_binary (fun _ _ _ => rfl) a b

theorem gives_mul : Gives Opcode.mul.into [a, b] (checked Value.mul a b) :=
  gives_binary (fun _ _ _ => rfl) a b

theorem gives_div : Gives Opcode.div.into [a, b] (divChecked Value.div a b) :=
  gives_binary (fun _ _ _ => rfl) a b

theorem gives_mod : Gives Opcode.mod.into [a, b] (divChecked Value.rem a b) :=
  gives_binary (fun _ _ _ => rfl) a b

theorem gives_and : Gives Opcode.and.into [a, b] (orFault (a.bitAnd b) .typeMismatch) :=
  gives_binary (f := fun a b => orFault (a.bitAnd b) .typeMismatch) (fun _ _ _ => rfl) a b

theorem gives_or : Gives Opcode.or.into [a, b] (orFault (a.bitOr b) .typeMismatch) :=
  gives_binary (f := fun a b => orFault (a.bitOr b) .typeMismatch) (fun _ _ _ => rfl) a b

theorem gives_xor : Gives Opcode.xor.into [a, b] (orFault (a.bitXor b) .typeMismatch) :=
  gives_binary (f := fun a b => orFault (a.bitXor b) .typeMismatch) (fun _ _ _ => rfl) a b

theorem gives_eq : Gives Opcode.eq.into [a, b] (.ok (.bool (a.eqVal b))) :=
  gives_binary (f := fun a b => .ok (.bool (a.eqVal b))) (fun _ _ _ => rfl) a b

theorem gives_neq : Gives Opcode.neq.into [a, b] (.ok (.bool !(a.eqVal b))) :=
  gives_binary (f := fun a b => .ok (.bool !(a.eqVal b))) (fun _ _ _ => rfl) a b

theorem gives_lt : Gives Opcode.lt.into [a, b] (compared Value.cmpLt a b) :=
  gives_binary (fun _ _ _ => rfl) a b

theorem gives_lte : Gives Opcode.lte.into [a, b] (compared Value.cmpLte a b) :=
  gives_binary (fun _ _ _ => rfl) a b

theorem gives_gt : Gives Opcode.gt.into [a, b] (compared Value.cmpGt a b) :=
  gives_binary (fun _ _ _ => rfl) a b

theorem gives_gte : Gives Opcode.gte.into [a, b] (compared Value.cmpGte a b) :=
  gives_binary (fun _ _ _ => rfl) a b

theorem gives_shl : Gives Opcode.shl.into [a, b] (shifted Value.shl a b) :=
  gives_binary (fun _ _ _ => rfl) a b

theorem gives_shr : Gives Opcode.shr.into [a, b] (shifted Value.shr a b) :=
  gives_binary (fun _ _ _ => rfl) a b

theorem gives_neg : Gives Opcode.neg.into [a] (orFault a.neg .typeMismatch) :=
  gives_unary (f := fun a => orFault a.neg .typeMismatch) (fun _ _ _ => rfl) a

theorem gives_not : Gives Opcode.not.into [a] (orFault a.bitNot .typeMismatch) :=
  gives_unary (f := fun a => orFault a.bitNot .typeMismatch) (fun _ _ _ => rfl) a

end Opcodes

/-! ## One result -/

/-- The local slot of each of the values. -/
def localSlots (args : List Value) : List Operand :=
  (List.range args.length).map fun i => .slot (.local_ (.ofNat 8 i))

/-- An executor whose local slots hold the values. -/
def showing (args : List Value) : Executor Unit where
  globals := .new
  callStack := [{ CallFrame.new 0 .null with frame := ⟨args.map some⟩ }]
  world := ()

theorem showing_readsAll {args : List Value} (h : args.length ≤ 256) :
    (showing args).ReadsAll (localSlots args) args := by
  apply List.forall₂_iff_get.mpr
  refine ⟨by simp [localSlots], ?_⟩
  intro i hi hargs
  have hlocal : (localSlots args).get ⟨i, hi⟩ = .slot (.local_ (.ofNat 8 i)) := by
    simp [localSlots]
  have hslot : Slots.get ⟨args.map some⟩ (BitVec.ofNat 8 i).toNat = some args[i] := by
    rw [BitVec.toNat_ofNat, Nat.mod_eq_of_lt (by omega)]
    simp [Slots.get, hargs]
  rw [hlocal]
  exact orFault_eq_ok.mpr hslot

/-- What is written to `$ret` can be told from what is not. -/
theorem finish_ret_inj {args : List Value} {r r' : Except Stop Value}
    (h : finish (.slot (.builtIn .ret)) r (showing args) =
      finish (.slot (.builtIn .ret)) r' (showing args)) : r = r' := by
  cases r with
  | ok v =>
    cases r' with
    | ok v' =>
      injection h with _ h
      injection h with _ h _
      injection h with h _
      injection h with _ _ _ _ h _ _
      exact congrArg Except.ok h
    | error s' => cases h
  | error s =>
    cases r' with
    | ok v' => cases h
    | error s' =>
      injection h with h _
      exact congrArg Except.error h

/-- An instruction has no other result than the one it gives. -/
theorem Gives.iff {instr : Template} {args : List Value} {r r' : Except Stop Value}
    (h : Gives instr args r) (hlen : args.length ≤ 256) : Gives instr args r' ↔ r = r' := by
  constructor
  · intro h'
    have hread := showing_readsAll hlen
    exact finish_ret_inj ((h Unit .bare ⟨1, [], []⟩ _ _ _ hread).symm.trans
      (h' Unit .bare ⟨1, [], []⟩ _ _ _ hread))
  · rintro rfl
    exact h

theorem Gives.pair_iff {instr : Template} {a b : Value} {r r' : Except Stop Value}
    (h : Gives instr [a, b] r) : Gives instr [a, b] r' ↔ r = r' :=
  h.iff (Nat.le_of_ble_eq_true rfl)

/-- What replaces a value in a local slot can be told from what does not. -/
theorem replace_local_inj {args : List Value} {c : Value} {r r' : Except Stop Value}
    (h : replace (.slot (.local_ 0)) r (showing (c :: args)) =
      replace (.slot (.local_ 0)) r' (showing (c :: args))) : r = r' := by
  cases r with
  | ok v =>
    cases r' with
    | ok v' =>
      injection h with _ h
      injection h with _ h _
      injection h with h _
      injection h with _ _ h _ _ _ _
      injection h with h
      injection h with h _
      injection h with h
      exact congrArg Except.ok h
    | error s' => cases h
  | error s =>
    cases r' with
    | ok v' => cases h
    | error s' =>
      injection h with h _
      exact congrArg Except.error h

/-- An instruction makes nothing else of a target than what it updates it to. -/
theorem UpdatesTo.iff {op : Opcode} {c : Value} {args : List Value} {r r' : Except Stop Value}
    (h : UpdatesTo op c args r) (hlen : args.length < 256) : UpdatesTo op c args r' ↔ r = r' := by
  constructor
  · intro h'
    have hread : (showing (c :: args)).ReadsAll (localSlots (c :: args)) (c :: args) :=
      showing_readsAll hlen
    obtain ⟨dst, srcs, hc, hargs, heq⟩ := List.forall₂_cons_right_iff.mp hread
    have htarget : (showing (c :: args)).target (.slot (.local_ 0)) = .ok c := rfl
    exact replace_local_inj ((h Unit .bare ⟨1, [], []⟩ _ _ _ htarget hargs).symm.trans
      (h' Unit .bare ⟨1, [], []⟩ _ _ _ htarget hargs))
  · rintro rfl
    exact h

end Fasm
