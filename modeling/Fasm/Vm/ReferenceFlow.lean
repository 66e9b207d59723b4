import Fasm.Vm.References

/-!
# How references flow through an instruction

`Carries R W e m` says of a computation run on `e` that it changes places of `W` only and
puts only values there whose references are of `R`; so do the actions that it returns.
An instruction carries what it reads and what it makes to the places that its operands
name.
-/

namespace Fasm

open ExecM Value

variable {ω : Type} {α : Type}

/-- The references in the value that an action hands on are of `R`. -/
def Action.RefsIn (R : SlotAddress → Prop) : Action → Prop
  | .callFunc _ args | .tailCall _ args => args.RefsIn R
  | .return_ val => val.RefsIn R
  | _ => True

/-- Run on `e`, the computation changes places of `W` only, and what it puts there and returns
has references of `R` only. -/
structure Carries (R : SlotAddress → Prop) (W : Place → Prop) (e : Executor ω)
    (m : ExecM ω Action) : Prop where
  places : ∀ q, q.get (stateOf (m e)) = q.get e ∨
    W q ∧ ∀ v, q.get (stateOf (m e)) = some v → v.RefsIn R
  action : ∀ a e', m e = .ok a e' → a.RefsIn R

/-- A release empties the place of its operand, if it is a plain slot. -/
theorem releaseOperand_empties {op : Operand} {e e' : Executor ω}
    (h : releaseOperand op e = .ok () e') (q : Place) :
    q.get e' = q.get e ∨ op.place e = some q ∧ q.get e' = none := by
  have hch := releaseOperand_changes h
  by_cases hq : ∃ s, op = .slot s ∧ s.isPlain = true ∧ s.place e = some q
  · obtain ⟨s, rfl, hplain, hq⟩ := hq
    obtain ⟨g, stack, w⟩ := e
    cases s with
    | local_ idx =>
      cases hq
      cases stack with
      | nil =>
        cases h
        exact .inl rfl
      | cons cf below =>
        cases h
        exact .inr ⟨rfl, Slots.get_remove_self _ _⟩
    | tmp idx =>
      cases hq
      cases stack with
      | nil =>
        cases h
        exact .inl rfl
      | cons cf below =>
        cases hset : cf.setTmpSlot idx none with
        | ok cf' =>
          cases (releaseOperand_tmp hset).symm.trans h
          exact .inr ⟨rfl, (register_setTmpSlot hset).1⟩
        | error s =>
          cases (releaseOperand_tmp_error hset).symm.trans h
          exact .inl rfl
    | global idx =>
      cases hq
      cases h
      exact .inr ⟨rfl, Slots.get_remove_self _ _⟩
    | _ => cases hplain
  · exact .inl (hch.get_eq q hq)

/-- Opening or closing a `TMP` frame moves the registers of the others; those of a new frame are
empty. -/
theorem register_tmpFrames {cf : CallFrame} {fs : List TmpFrame}
    (h : fs = .new :: cf.tmpFrames ∨ ∃ f, cf.tmpFrames = f :: fs) (d i : Nat) :
    CallFrame.register { cf with tmpFrames := fs } d i = none ∨
      ∃ d', CallFrame.register { cf with tmpFrames := fs } d i = cf.register d' i := by
  rcases h with rfl | ⟨f, hf⟩
  · cases d with
    | zero =>
      refine .inl ?_
      have hnew : TmpFrame.new[i]?.join = none := by
        unfold TmpFrame.new
        rw [Vector.getElem?_replicate]
        split <;> rfl
      exact hnew
    | succ d => exact .inr ⟨d, rfl⟩
  · refine .inr ⟨d + 1, ?_⟩
    simp only [CallFrame.register, hf, List.getElem?_cons_succ]

namespace Carries

variable {R : SlotAddress → Prop} {W : Place → Prop} {e e₁ : Executor ω} {m : ExecM ω Action}

/-- A computation that leaves the executor as it is. -/
theorem of_same {s : Stop} (h : m e = .error s e) : Carries R W e m where
  places q := .inl (by rw [h]; rfl)
  action a e' ha := by rw [h] at ha; cases ha

theorem pure {a : Action} (ha : a.RefsIn R) : Carries R W e (pure a) where
  places q := .inl rfl
  action a' e' h := by cases h; exact ha

theorem throw (s : Stop) : Carries R W e (throw s) := of_same rfl

theorem look {f : Executor ω → Except Stop α} {k : α → ExecM ω Action}
    (hk : ∀ a, f e = .ok a → Carries R W e (k a)) : Carries R W e (reads f >>= k) := by
  cases hf : f e with
  | ok a =>
    obtain ⟨hplaces, haction⟩ := hk a hf
    constructor
    · rw [reads_bind_ok hf]
      exact hplaces
    · rw [reads_bind_ok hf]
      exact haction
  | error s => exact of_same (reads_bind_error hf)

theorem lift {x : Except Stop α} {k : α → ExecM ω Action}
    (hk : ∀ a, x = .ok a → Carries R W e (k a)) :
    Carries R W e ((liftM x : ExecM ω α) >>= k) :=
  look (f := fun _ => x) hk

theorem getOp {instr : Instruction} {n : Nat} {k : Operand → ExecM ω Action}
    (hk : ∀ op, instr.operands[n]? = some op → Carries R W e (k op)) :
    Carries R W e ((liftM (instr.getOp n) : ExecM ω Operand) >>= k) :=
  lift fun op hop => hk op (getOp_eq_ok hop)

/-- A change of one place of `W`, with nothing after it that could fail. -/
theorem of_change {n : ExecM ω α} (hn : Unharmed n)
    (hok : ∀ a e', n e = .ok a e' → ∃ q v, W q ∧ q.get e' = some v ∧ v.RefsIn R ∧
      ChangesOnly (· = q) e e') : Carries R W e (n >>= fun _ => Pure.pure .continue_) := by
  cases hrun : n e with
  | ok a e' =>
    obtain ⟨q, v, hq, hget, hv, hch⟩ := hok a e' hrun
    have hbind : (n >>= fun _ => Pure.pure .continue_ : ExecM ω Action) e = .ok .continue_ e' :=
      bind_run_ok hrun
    constructor
    · intro q'
      rw [hbind]
      by_cases hq' : q' = q
      · subst hq'
        refine .inr ⟨hq, fun v' hv' => ?_⟩
        obtain rfl := Option.some.inj (hget.symm.trans hv')
        exact hv
      · exact .inl (hch.get_eq q' hq')
    · intro a' e'' h
      rw [hbind] at h
      cases h
      trivial
  | error s e' =>
    obtain rfl := hn e s e' hrun
    exact of_same (bind_run_error hrun)

theorem write {op : Operand} {v : Value} (hv : v.RefsIn R)
    (hW : ∀ q, op.place e = some q → W q) :
    Carries R W e (writeVal op v >>= fun _ => Pure.pure .continue_) := by
  refine of_change (Unharmed.writeVal op v) fun u e' h => ?_
  obtain ⟨q, hq, hget, hch⟩ := writeOperand_ok h
  exact ⟨q, v, hW q hq, hget, hv, hch⟩

theorem update {op : Operand} {f : Value → Except Stop (Unit × Value)}
    (hf : ∀ c u c', e.readOperand op = .ok c → f c = .ok (u, c') → c'.RefsIn R)
    (hW : ∀ q, op.place e = some q → W q) :
    Carries R W e (ExecM.writeTargetMut op f >>= fun _ => Pure.pure .continue_) := by
  refine of_change (Unharmed.writeTargetMut op f) fun u e' h => ?_
  obtain ⟨q, c, c', hq, hread, -, hfc, hget, hch⟩ := writeTargetMut_changes h
  exact ⟨q, c', hW q hq, hget, hf c u c' hread hfc, hch⟩

/-- The end of an instruction that writes its result. -/
theorem put {instr : Instruction} {n : Nat} {v : Value} (hv : v.RefsIn R)
    (hW : ∀ op q, instr.operands[n]? = some op → op.place e = some q → W q) :
    Carries R W e ((liftM (instr.getOp n) : ExecM ω Operand) >>= fun op =>
      writeVal op v >>= fun _ => Pure.pure .continue_) :=
  getOp fun op hop => write hv fun q => hW op q hop

/-- Taking an element out of a collection, and then writing it. -/
theorem take {instr : Instruction} {op : Operand} {f : Value → Except Stop (Value × Value)}
    (hf : ∀ c x c', e.readOperand op = .ok c → f c = .ok (x, c') →
      x.RefsIn R ∧ c'.RefsIn R ∧ c'.place = none)
    (hW : ∀ q, op.place e = some q → W q)
    (hW' : ∀ op q, instr.operands[1]? = some op → op.place e = some q → W q) :
    Carries R W e (ExecM.writeTargetMut op f >>= putSecond instr) := by
  cases hrun : ExecM.writeTargetMut op f e with
  | ok x e₁ =>
    obtain ⟨q, c, c', hq, hread, -, hfc, hget, hch⟩ := writeTargetMut_changes hrun
    obtain ⟨hx, hc', href⟩ := hf c x c' hread hfc
    have hput : Carries R W e₁ (putSecond instr x) :=
      put hx fun op q₁ hop hq₁ => hW' op q₁ hop (place_of_changesOnly hch hget href hq₁)
    constructor
    · rw [bind_run_ok hrun]
      intro q'
      rcases hput.places q' with hsame | hchanged
      · by_cases hq' : q' = q
        · subst hq'
          refine .inr ⟨hW q' hq, fun v hv => ?_⟩
          rw [hsame, hget] at hv
          cases hv
          exact hc'
        · exact .inl (hsame.trans (hch.get_eq q' hq'))
      · exact .inr hchanged
    · rw [bind_run_ok hrun]
      exact hput.action
  | error s e' =>
    obtain rfl := Unharmed.writeTargetMut op f e s e' hrun
    exact of_same (bind_run_error hrun)

theorem release {op : Operand} (hW : ∀ q, op.place e = some q → W q) :
    Carries R W e (ExecM.releaseOperand op >>= fun _ => Pure.pure .continue_) := by
  cases hrun : ExecM.releaseOperand op e with
  | ok u e' =>
    have hbind : (ExecM.releaseOperand op >>= fun _ => Pure.pure .continue_ : ExecM ω Action) e =
        .ok .continue_ e' := bind_run_ok hrun
    constructor
    · intro q
      rw [hbind]
      rcases releaseOperand_empties hrun q with hsame | ⟨hq, hnone⟩
      · exact .inl hsame
      · refine .inr ⟨hW q hq, fun v hv => ?_⟩
        cases hnone.symm.trans hv
    · intro a e'' h
      rw [hbind] at h
      cases h
      trivial
  | error s e' =>
    obtain rfl := Unharmed.releaseOperand op e s e' hrun
    exact of_same (bind_run_error hrun)

end Carries

/-! ## Families -/

/-- The references that an instruction makes: `ADDR` the address of its operand 0, and
`RESERVE` one to local 0 as the default of a reference type. -/
def Instruction.Creates (instr : Instruction) (r : SlotAddress) : Prop :=
  match instr.opcode with
  | .addr => ∃ op, instr.operands[0]? = some op ∧ slotAddress op = r
  | .reserve => r = (false, 0)
  | _ => False

/-- What the operands of the instruction read, that of its result apart, has references of `R`,
its targets name places of `W`, and the instruction makes references of `R`. -/
structure Instruction.Within (instr : Instruction) (R : SlotAddress → Prop) (W : Place → Prop)
    (e : Executor ω) : Prop where
  reads : ∀ (n : Nat) op v, instr.opcode.resultIndex ≠ some n → instr.operands[n]? = some op →
    e.readOperand op = .ok v → v.RefsIn R
  names : ∀ q, instr.Targets e q → W q
  creates : ∀ r, instr.Creates r → R r

section Within

variable {R : SlotAddress → Prop} {W : Place → Prop} {e : Executor ω} {instr : Instruction}
  {n : Nat} {op : Operand} {q : Place}

/-- What an operand reads. -/
theorem Instruction.Within.sees {o : Option Nat} {v : Value} (h : instr.Within R W e)
    (hres : instr.opcode.resultIndex = o) (hop : instr.operands[n]? = some op)
    (hn : o ≠ some n) (hv : e.readOperand op = .ok v) : v.RefsIn R :=
  h.reads n op v (hres ▸ hn) hop hv

/-- Where the result goes. -/
theorem Instruction.Within.result (h : instr.Within R W e)
    (hres : instr.opcode.resultIndex = some n) (hop : instr.operands[n]? = some op)
    (hq : op.place e = some q) : W q := by
  refine h.names q ⟨op, .inl ?_, hq⟩
  rw [Instruction.destination, hres]
  exact hop

/-- The place that is updated. -/
theorem Instruction.Within.updated (h : instr.Within R W e)
    (hup : instr.opcode.updatedIndex = some n) (hop : instr.operands[n]? = some op)
    (hq : op.place e = some q) : W q := by
  refine h.names q ⟨op, .inr ?_, hq⟩
  rw [Instruction.updated, hup]
  exact hop

end Within

namespace Carries

variable {R : SlotAddress → Prop} {W : Place → Prop} {e : Executor ω} {instr : Instruction}
  {n : Nat} {op : Operand}

section Within

variable (h : instr.Within R W e)
include h

/-- Reading an operand, if not that of the result. -/
theorem val {o : Option Nat} {k : Value → ExecM ω Action}
    (hres : instr.opcode.resultIndex = o) (hop : instr.operands[n]? = some op) (hn : o ≠ some n)
    (hk : ∀ v, e.readOperand op = .ok v → v.RefsIn R → Carries R W e (k v)) :
    Carries R W e (readVal op >>= k) :=
  look fun v hv => hk v hv (h.sees hres hop hn hv)

theorem result {v : Value} (hres : instr.opcode.resultIndex = some n) (hv : v.RefsIn R) :
    Carries R W e ((liftM (instr.getOp n) : ExecM ω Operand) >>= fun op =>
      writeVal op v >>= fun _ => Pure.pure .continue_) :=
  put hv fun _ _ => h.result hres

/-- The end of an instruction that updates a collection in place. -/
theorem updateOp (hres : instr.opcode.resultIndex = none)
    (hup : instr.opcode.updatedIndex = some 0) {f : Value → Except Stop Value}
    (hf : ∀ c r, c.RefsIn R → f c = .ok r → r.RefsIn R) :
    Carries R W e ((liftM (instr.getOp 0) : ExecM ω Operand) >>= fun op =>
      (ExecM.writeTargetMut op fun coll => do return ((), ← f coll)) >>=
        fun _ => Pure.pure .continue_) := by
  refine getOp fun op hop => update (fun c u c' hc hfc => ?_) fun _ => h.updated hup hop
  obtain ⟨r, hr, hfc⟩ := bind_eq_ok hfc
  cases hfc
  exact hf c _ (h.sees hres hop nofun hc) hr

theorem binaryOp (hres : instr.opcode.resultIndex = some 2) {f : Value → Value → Except Stop Value}
    (hf : ∀ a b r, a.RefsIn R → b.RefsIn R → f a b = .ok r → r.RefsIn R) :
    Carries R W e (binaryOp instr f) :=
  getOp fun _ h₀ => val h hres h₀ nofun fun a _ ha => getOp fun _ h₁ =>
    val h hres h₁ nofun fun b _ hb => lift fun r hr => result h hres (hf a b r ha hb hr)

theorem unaryOp (hres : instr.opcode.resultIndex = some 1) {f : Value → Except Stop Value}
    (hf : ∀ a r, a.RefsIn R → f a = .ok r → r.RefsIn R) : Carries R W e (unaryOp instr f) :=
  getOp fun _ h₀ => val h hres h₀ nofun fun a _ ha => lift fun r hr => result h hres (hf a r ha hr)

theorem wrapOp (hres : instr.opcode.resultIndex = some 0) {f : Value → Except Stop Value}
    (hf : ∀ a r, a.RefsIn R → f a = .ok r → r.RefsIn R) : Carries R W e (wrapOp instr f) :=
  getOp fun _ h₁ => val h hres h₁ nofun fun a _ ha => lift fun r hr => result h hres (hf a r ha hr)

theorem fieldGet (hres : instr.opcode.resultIndex = some 2)
    {f : List (U32 × Value) → U32 → Except Stop Value}
    (hf : ∀ m key r, (∀ x ∈ m, x.2.RefsIn R) → f m key = .ok r → r.RefsIn R) :
    Carries R W e (fieldGet instr f) := by
  refine getOp fun _ _ => look fun key _ => getOp fun _ h₀ => val h hres h₀ nofun fun c _ hc =>
    lift fun r hr => ?_
  obtain ⟨m, rfl, hr⟩ := onStruct_eq_ok hr
  exact result h hres (hf m key r (refsIn_struct.mp hc) hr)

theorem keyedGet (hres : instr.opcode.resultIndex = some 2) {f : Value → U32 → Except Stop Value}
    (hf : ∀ c key r, c.RefsIn R → f c key = .ok r → r.RefsIn R) :
    Carries R W e (keyedGet instr f) :=
  getOp fun _ h₁ => val h hres h₁ nofun fun _ _ _ => lift fun key _ => getOp fun _ h₀ =>
    val h hres h₀ nofun fun c _ hc => lift fun r hr => result h hres (hf c key r hc hr)

theorem pushOp (hres : instr.opcode.resultIndex = none)
    (hup : instr.opcode.updatedIndex = some 0) {f : Value → Value → Except Stop Value}
    (hf : ∀ c x r, c.RefsIn R → x.RefsIn R → f c x = .ok r → r.RefsIn R) :
    Carries R W e (pushOp instr f) :=
  getOp fun _ h₁ => val h hres h₁ nofun fun x _ hx =>
    updateOp h hres hup fun c r hc => hf c x r hc hx

theorem keyedMut (hres : instr.opcode.resultIndex = none)
    (hup : instr.opcode.updatedIndex = some 0) {f : Value → U32 → Except Stop Value}
    (hf : ∀ c key r, c.RefsIn R → f c key = .ok r → r.RefsIn R) :
    Carries R W e (keyedMut instr f) :=
  getOp fun _ h₁ => val h hres h₁ nofun fun _ _ _ => lift fun key _ =>
    updateOp h hres hup fun c r => hf c key r

theorem keyedSet (hres : instr.opcode.resultIndex = none)
    (hup : instr.opcode.updatedIndex = some 0) {f : Value → U32 → Value → Except Stop Value}
    (hf : ∀ c key x r, c.RefsIn R → x.RefsIn R → f c key x = .ok r → r.RefsIn R) :
    Carries R W e (keyedSet instr f) :=
  getOp fun _ h₁ => val h hres h₁ nofun fun _ _ _ => lift fun key _ => getOp fun _ h₂ =>
    val h hres h₂ nofun fun x _ hx => updateOp h hres hup fun c r hc => hf c key x r hc hx

theorem popOp (hres : instr.opcode.resultIndex = some 1)
    (hup : instr.opcode.updatedIndex = some 0) {f : Value → Except Stop (Value × Value)}
    (hf : ∀ c x c', c.RefsIn R → f c = .ok (x, c') →
      x.RefsIn R ∧ c'.RefsIn R ∧ c'.place = none) : Carries R W e (popOp instr f) :=
  getOp fun _ h₀ => take (fun c x c' hc => hf c x c' (h.sees hres h₀ nofun hc))
    (fun _ => h.updated hup h₀) fun _ _ => h.result hres

theorem callOp (hres : instr.opcode.resultIndex = none)
    {p : Program} {action : Nat → Value → Action}
    (ha : ∀ i args, args.RefsIn R → (action i args).RefsIn R) :
    Carries R W e (callOp instr p action) := by
  refine look fun r hr => pure (ha _ _ ?_)
  obtain ⟨op, hop, hr⟩ := bind_eq_ok hr
  cases op with
  | funcRef idx =>
    simp only at hr
    split at hr
    · obtain ⟨op₁, h₁, hr⟩ := bind_eq_ok hr
      obtain ⟨args, hargs, hr⟩ := bind_eq_ok hr
      cases hr
      exact h.sees hres (getOp_eq_ok h₁) nofun hargs
    · cases hr
  | _ => cases hr

/-! ## Single instructions -/

theorem execReserve (hop : instr.opcode = .reserve) : Carries R W e (execReserve instr) := by
  refine getOp fun op h₀ => getOp fun t _ => getOp fun init _ => ?_
  cases t with
  | type t =>
    have hres : instr.opcode.resultIndex = some 0 := by rw [hop]; rfl
    refine write ?_ fun _ => h.result hres h₀
    have hdefault : (defaultForType t).RefsIn R := by
      have hzero : R (false, 0) := h.creates _ (by simp only [Instruction.Creates, hop])
      cases t <;> first | exact refsIn_of_plain rfl rfl | exact (refsIn_of_reference rfl).mpr hzero
    unfold immToValueForType
    split
    · exact hdefault
    · exact refsIn_immToValue _
    · exact hdefault
  | _ => exact throw _

theorem execAddr (hop : instr.opcode = .addr) : Carries R W e (execAddr instr) := by
  have hres : instr.opcode.resultIndex = some 1 := by rw [hop]; rfl
  refine getOp fun op h₀ => result h hres ?_
  refine (refsIn_refMut _ _).mpr (h.creates _ ?_)
  simp only [Instruction.Creates, hop]
  exact ⟨op, h₀, rfl⟩

theorem execRet (hres : instr.opcode.resultIndex = none) : Carries R W e (execRet instr) := by
  unfold Fasm.execRet
  split
  · exact pure refsIn_null
  · exact getOp fun _ h₀ => val h hres h₀ nofun fun _ _ hv => pure hv

theorem execSetField (hres : instr.opcode.resultIndex = none)
    (hup : instr.opcode.updatedIndex = some 0) :
    Carries R W e (execSetField instr) := by
  refine getOp fun _ _ => look fun key _ => getOp fun _ h₂ => val h hres h₂ nofun fun x _ hx =>
    getOp fun op h₀ => update (fun c u c' hc hfc => ?_) fun _ => h.updated hup h₀
  obtain ⟨m, rfl, hfc⟩ := onStruct_eq_ok hfc
  cases hfc
  exact refsIn_struct.mpr (forall_mem_structInsert (refsIn_struct.mp (h.sees hres h₀ nofun hc)) hx)

theorem execDelField (hres : instr.opcode.resultIndex = none)
    (hup : instr.opcode.updatedIndex = some 0) :
    Carries R W e (execDelField instr) := by
  refine getOp fun _ _ => look fun key _ =>
    getOp fun op h₀ => update (fun c u c' hc hfc => ?_) fun _ => h.updated hup h₀
  obtain ⟨m, rfl, hfc⟩ := onStruct_eq_ok hfc
  cases hfc
  exact refsIn_struct.mpr (forall_mem_remove (refsIn_struct.mp (h.sees hres h₀ nofun hc)))

theorem execCast (hres : instr.opcode.resultIndex = some 2) : Carries R W e (execCast instr) := by
  refine getOp fun _ h₀ => val h hres h₀ nofun fun v _ _ => getOp fun t _ => ?_
  cases t with
  | type t => exact lift fun r hr => result h hres (refsIn_castValue hr)
  | _ => exact throw _

theorem execVecSort (hres : instr.opcode.resultIndex = none)
    (hup : instr.opcode.updatedIndex = some 0) (host : Host ω) :
    Carries R W e (execVecSort instr host) := by
  refine getOp fun op h₀ => update (fun c u c' hc hfc => ?_) fun _ => h.updated hup h₀
  cases c with
  | vec l =>
    cases hfc
    have hl := refsIn_vec.mp (h.sees hres h₀ nofun hc)
    exact refsIn_vec.mpr fun x hx => hl x ((host.sort.perm l).mem_iff.mp hx)
  | _ => cases hfc

theorem execVecFilter (hres : instr.opcode.resultIndex = some 3) :
    Carries R W e (execVecFilter instr) := by
  refine getOp fun _ h₀ => val h hres h₀ nofun fun src _ hsrc => getOp fun _ h₁ =>
    val h hres h₁ nofun fun _ _ _ => lift fun _ _ => getOp fun _ h₂ =>
      val h hres h₂ nofun fun _ _ _ => ?_
  cases src with
  | vec l =>
    refine result h hres (refsIn_vec.mpr fun x hx => ?_)
    exact refsIn_vec.mp hsrc x (List.mem_filter.mp hx).1
  | _ => exact throw _

theorem execVecSlice (hres : instr.opcode.resultIndex = some 3) :
    Carries R W e (execVecSlice instr) := by
  refine getOp fun _ h₀ => val h hres h₀ nofun fun src _ hsrc => getOp fun _ h₁ =>
    val h hres h₁ nofun fun _ _ _ => lift fun start _ => getOp fun _ h₂ =>
      val h hres h₂ nofun fun _ _ _ => lift fun len _ => ?_
  cases src with
  | vec l =>
    refine result h hres (refsIn_slice.mpr fun x hx => ?_)
    unfold sliceOf at hx
    simp only at hx
    split at hx
    · exact refsIn_vec.mp hsrc x (List.mem_of_mem_take (List.mem_of_mem_drop hx))
    · cases hx
  | _ => exact throw _

theorem execBitvecRead (hres : instr.opcode.resultIndex = some 3) :
    Carries R W e (execBitvecRead instr) := by
  refine getOp fun _ h₁ => val h hres h₁ nofun fun _ _ _ => lift fun _ _ => getOp fun _ h₂ =>
    val h hres h₂ nofun fun _ _ _ => lift fun _ _ => getOp fun _ h₀ =>
      val h hres h₀ nofun fun coll _ _ => ?_
  cases coll with
  | bitvec bv => exact result h hres (refsIn_int _ _)
  | _ => exact throw _

theorem execBitvecWrite (hres : instr.opcode.resultIndex = none)
    (hup : instr.opcode.updatedIndex = some 0) :
    Carries R W e (execBitvecWrite instr) :=
  getOp fun _ h₁ => val h hres h₁ nofun fun _ _ _ => lift fun _ _ => getOp fun _ h₂ =>
    val h hres h₂ nofun fun _ _ _ => lift fun _ _ => getOp fun _ h₃ =>
      val h hres h₃ nofun fun _ _ _ => lift fun _ _ =>
        updateOp h hres hup fun _ _ _ hr => refsIn_onBitvec hr

theorem execBitvecPush (hres : instr.opcode.resultIndex = none)
    (hup : instr.opcode.updatedIndex = some 0) :
    Carries R W e (execBitvecPush instr) :=
  getOp fun _ h₁ => val h hres h₁ nofun fun _ _ _ => lift fun _ _ => getOp fun _ h₂ =>
    val h hres h₂ nofun fun _ _ _ => lift fun _ _ =>
      updateOp h hres hup fun _ _ _ hr => refsIn_onBitvec hr

omit h in
theorem jump {k : Nat → ExecM ω Action} (hk : ∀ t, Carries R W e (k t)) :
    Carries R W e ((liftM (instr.getOp n) : ExecM ω Operand) >>= fun op =>
      (liftM (labelTarget op) : ExecM ω Nat) >>= k) :=
  getOp fun _ _ => lift fun t _ => hk t

theorem condJump (hres : instr.opcode.resultIndex = none)
    (taken : Bool) : Carries R W e (condJump instr taken) := by
  refine getOp fun _ h₀ => val h hres h₀ nofun fun cond _ _ => jump fun t => pure ?_
  split <;> trivial

end Within

end Carries

/-! ### The opcodes of a kind -/

section Kinds

variable (host : Host ω) (p : Program) {instr : Instruction} {R : SlotAddress → Prop}
  {W : Place → Prop} {e : Executor ω} (h : instr.Within R W e)
include h

theorem carries_special (hkind : instr.opcode.kind = .special) :
    Carries R W e (executeInstruction host p instr) := by
  obtain ⟨op, operands⟩ := instr
  cases op with
  | nop | halt => exact .pure trivial
  | _ => cases hkind

theorem carries_memory (hkind : instr.opcode.kind = .memory) :
    Carries R W e (executeInstruction host p instr) := by
  obtain ⟨op, operands⟩ := instr
  cases op with
  | release => exact .getOp fun op hop => .release fun _ => h.updated rfl hop
  | reserve => exact .execReserve h rfl
  | _ => cases hkind

theorem carries_movement (hkind : instr.opcode.kind = .movement) :
    Carries R W e (executeInstruction host p instr) := by
  obtain ⟨op, operands⟩ := instr
  cases op with
  | mov =>
    refine .getOp fun _ h₀ => .val (o := some 1) h rfl h₀ nofun fun _ _ hv => ?_
    exact .result h rfl hv
  | store =>
    refine .getOp fun op h₀ => .look fun v hv => .result h rfl ?_
    refine h.sees (o := some 1) rfl h₀ nofun ?_
    rw [← View.immOperand_eq]
    exact hv
  | addr => exact .execAddr h rfl
  | _ => cases hkind

theorem carries_arithmetic (hkind : instr.opcode.kind = .arithmetic) :
    Carries R W e (executeInstruction host p instr) := by
  obtain ⟨op, operands⟩ := instr
  cases op with
  | add | sub | mul =>
    exact .binaryOp h rfl fun _ _ _ _ _ => refsIn_checked fun _ _ _ => refsIn_numericOp
  | div | mod =>
    exact .binaryOp h rfl fun _ _ _ _ _ => refsIn_divChecked fun _ _ _ => refsIn_numericOp
  | neg => exact .unaryOp h rfl fun _ _ _ hr => refsIn_neg (orFault_eq_ok.mp hr)
  | _ => cases hkind

theorem carries_comparison (hkind : instr.opcode.kind = .comparison) :
    Carries R W e (executeInstruction host p instr) := by
  obtain ⟨op, operands⟩ := instr
  cases op with
  | eq | neq =>
    refine .binaryOp h rfl fun _ _ _ _ _ hr => ?_
    cases hr
    exact refsIn_bool _
  | lt | lte | gt | gte => exact .binaryOp h rfl fun _ _ _ _ _ => refsIn_compared
  | _ => cases hkind

theorem carries_bitwise (hkind : instr.opcode.kind = .bitwise) :
    Carries R W e (executeInstruction host p instr) := by
  obtain ⟨op, operands⟩ := instr
  cases op with
  | not => exact .unaryOp h rfl fun _ _ _ hr => refsIn_bitNot (orFault_eq_ok.mp hr)
  | and | or | xor =>
    exact .binaryOp h rfl fun _ _ _ _ _ hr => refsIn_bitwiseOp (orFault_eq_ok.mp hr)
  | shl => exact .binaryOp h rfl fun _ _ _ _ _ => refsIn_shifted fun _ => refsIn_shl
  | shr => exact .binaryOp h rfl fun _ _ _ _ _ => refsIn_shifted fun _ => refsIn_shr
  | _ => cases hkind

theorem carries_controlFlow (hkind : instr.opcode.kind = .controlFlow)
    (htmp : instr.opcode.setsTmp = false) :
    Carries R W e (executeInstruction host p instr) := by
  obtain ⟨op, operands⟩ := instr
  cases op with
  | call | asyncCall | tailCall => exact .callOp h rfl fun _ _ => id
  | jmp => exact .jump fun _ => .pure trivial
  | jz | jnz => exact .condJump h rfl _
  | ret => exact .execRet h rfl
  | await =>
    refine .unaryOp h rfl fun a r ha hr => ?_
    split at hr <;> cases hr
    · exact refsIn_future_some.mp ha
    · exact refsIn_null
  | tmpBlock | endTmp => cases htmp
  | _ => cases hkind

theorem carries_collections (hkind : instr.opcode.kind = .collections) :
    Carries R W e (executeInstruction host p instr) := by
  obtain ⟨op, operands⟩ := instr
  cases op with
  | push =>
    refine .pushOp h rfl rfl fun c x r hc hx hr => ?_
    cases c <;> cases hr
    · exact refsIn_vec.mpr (List.forall_mem_append.mpr ⟨refsIn_vec.mp hc, by simpa⟩)
    · exact refsIn_stack.mpr (List.forall_mem_append.mpr ⟨refsIn_stack.mp hc, by simpa⟩)
    · exact refsIn_deque.mpr (List.forall_mem_append.mpr ⟨refsIn_deque.mp hc, by simpa⟩)
  | enqueue =>
    refine .pushOp h rfl rfl fun c x r hc hx hr => ?_
    cases c <;> cases hr
    · exact refsIn_queue.mpr (List.forall_mem_append.mpr ⟨refsIn_queue.mp hc, by simpa⟩)
    · exact refsIn_deque.mpr (List.forall_mem_append.mpr ⟨refsIn_deque.mp hc, by simpa⟩)
  | prepend =>
    refine .pushOp h rfl rfl fun c x r hc hx hr => ?_
    cases c <;> cases hr
    exact refsIn_deque.mpr (List.forall_mem_cons.mpr ⟨hx, refsIn_deque.mp hc⟩)
  | pop =>
    refine .popOp h rfl rfl fun c x c' hc hr => ?_
    cases c with
    | stack l =>
      obtain ⟨⟨y, l'⟩, hl, hr⟩ := map_eq_ok hr
      cases hr
      obtain ⟨hx, hl'⟩ := forall_mem_popLast (refsIn_stack.mp hc) hl
      exact ⟨hx, refsIn_stack.mpr hl', rfl⟩
    | _ => cases hr
  | dequeue =>
    refine .popOp h rfl rfl fun c x c' hc hr => ?_
    cases c with
    | queue l =>
      obtain ⟨⟨y, l'⟩, hl, hr⟩ := map_eq_ok hr
      cases hr
      obtain ⟨hx, hl'⟩ := forall_mem_popFront (refsIn_queue.mp hc) hl
      exact ⟨hx, refsIn_queue.mpr hl', rfl⟩
    | deque l =>
      obtain ⟨⟨y, l'⟩, hl, hr⟩ := map_eq_ok hr
      cases hr
      obtain ⟨hx, hl'⟩ := forall_mem_popFront (refsIn_deque.mp hc) hl
      exact ⟨hx, refsIn_deque.mpr hl', rfl⟩
    | _ => cases hr
  | popBack =>
    refine .popOp h rfl rfl fun c x c' hc hr => ?_
    cases c with
    | deque l =>
      obtain ⟨⟨y, l'⟩, hl, hr⟩ := map_eq_ok hr
      cases hr
      obtain ⟨hx, hl'⟩ := forall_mem_popLast (refsIn_deque.mp hc) hl
      exact ⟨hx, refsIn_deque.mpr hl', rfl⟩
    | _ => cases hr
  | peek => exact .unaryOp h rfl fun _ _ => refsIn_peek
  | peekBack => exact .unaryOp h rfl fun _ _ => refsIn_peekBack
  | getIdx => exact .binaryOp h rfl fun _ _ _ ha _ => refsIn_getIdx ha
  | setIdx =>
    refine .keyedSet h rfl rfl fun c i x r hc hx hr => ?_
    split at hr
    · split at hr <;> cases hr
      refine refsIn_vec.mpr fun y hy => ?_
      rcases List.mem_or_eq_of_mem_set hy with hy | rfl
      · exact refsIn_vec.mp hc y hy
      · exact hx
    · cases hr
  | getField => exact .fieldGet h rfl fun _ _ _ hm hr => refsIn_of_get hm (orFault_eq_ok.mp hr)
  | hasField =>
    refine .fieldGet h rfl fun _ _ _ _ hr => ?_
    cases hr
    exact refsIn_bool _
  | setField => exact .execSetField h rfl rfl
  | delField => exact .execDelField h rfl rfl
  | len => exact .unaryOp h rfl fun _ _ _ => refsIn_lenOf
  | _ => cases hkind

theorem carries_wrappers (hkind : instr.opcode.kind = .wrappers) :
    Carries R W e (executeInstruction host p instr) := by
  obtain ⟨op, operands⟩ := instr
  cases op with
  | some_ =>
    refine .wrapOp h rfl fun a r ha hr => ?_
    cases hr
    exact refsIn_option_some.mpr ha
  | ok_ =>
    refine .wrapOp h rfl fun a r ha hr => ?_
    cases hr
    exact refsIn_result_ok.mpr ha
  | err_ =>
    refine .wrapOp h rfl fun a r ha hr => ?_
    obtain ⟨k, -, rfl⟩ := map_eq_ok hr
    exact refsIn_result_error k
  | isSome | isOk =>
    refine .unaryOp h rfl fun a r _ hr => ?_
    split at hr <;> cases hr <;> exact refsIn_bool _
  | unwrap =>
    refine .unaryOp h rfl fun a r ha hr => ?_
    split at hr
    · rw [orFault_eq_ok.mp hr] at ha
      exact refsIn_option_some.mp ha
    · cases hr
  | unwrapOk =>
    refine .unaryOp h rfl fun a r ha hr => ?_
    split at hr <;> cases hr
    exact refsIn_result_ok.mp ha
  | unwrapErr =>
    refine .unaryOp h rfl fun a r _ hr => ?_
    split at hr <;> cases hr
    exact refsIn_int _ _
  | _ => cases hkind

theorem carries_conversion (hkind : instr.opcode.kind = .conversion) :
    Carries R W e (executeInstruction host p instr) := by
  obtain ⟨op, operands⟩ := instr
  cases op with
  | cast => exact .execCast h rfl
  | _ => cases hkind

theorem carries_vec (hkind : instr.opcode.kind = .vec) :
    Carries R W e (executeInstruction host p instr) := by
  obtain ⟨op, operands⟩ := instr
  cases op with
  | vecSort => exact .execVecSort h rfl rfl host
  | vecFilter => exact .execVecFilter h rfl
  | vecMerge =>
    refine .binaryOp h rfl fun a b r ha hb hr => ?_
    split at hr <;> cases hr
    exact refsIn_vec.mpr (forall_mem_vecMerge (refsIn_vec.mp ha) (refsIn_vec.mp hb))
  | vecSlice => exact .execVecSlice h rfl
  | _ => cases hkind

theorem carries_sparse (hkind : instr.opcode.kind = .sparse) :
    Carries R W e (executeInstruction host p instr) := by
  obtain ⟨op, operands⟩ := instr
  cases op with
  | sparseGet =>
    refine .keyedGet h rfl fun c key r hc hr => ?_
    obtain ⟨m, rfl, hr⟩ := onSparse_eq_ok hr
    exact refsIn_of_get (refsIn_sparse.mp hc) (orFault_eq_ok.mp hr)
  | sparseSet =>
    refine .keyedSet h rfl rfl fun c key x r hc hx hr => ?_
    obtain ⟨m, rfl, hr⟩ := onSparse_eq_ok hr
    cases hr
    exact refsIn_sparse.mpr (forall_mem_mapInsert (refsIn_sparse.mp hc) hx)
  | sparseDel =>
    refine .keyedMut h rfl rfl fun c key r hc hr => ?_
    obtain ⟨m, rfl, hr⟩ := onSparse_eq_ok hr
    cases hr
    exact refsIn_sparse.mpr (forall_mem_remove (refsIn_sparse.mp hc))
  | sparseHas =>
    refine .keyedGet h rfl fun c key r _ hr => ?_
    obtain ⟨m, -, hr⟩ := onSparse_eq_ok hr
    cases hr
    exact refsIn_bool _
  | _ => cases hkind

theorem carries_btree (hkind : instr.opcode.kind = .btree) :
    Carries R W e (executeInstruction host p instr) := by
  obtain ⟨op, operands⟩ := instr
  cases op with
  | btreeGet =>
    refine .keyedGet h rfl fun c key r hc hr => ?_
    obtain ⟨m, rfl, hr⟩ := onBTree_eq_ok hr
    exact refsIn_of_get (refsIn_btree.mp hc) (orFault_eq_ok.mp hr)
  | btreeSet =>
    refine .keyedSet h rfl rfl fun c key x r hc hx hr => ?_
    obtain ⟨m, rfl, hr⟩ := onBTree_eq_ok hr
    cases hr
    exact refsIn_btree.mpr (forall_mem_mapInsert (refsIn_btree.mp hc) hx)
  | btreeDel =>
    refine .keyedMut h rfl rfl fun c key r hc hr => ?_
    obtain ⟨m, rfl, hr⟩ := onBTree_eq_ok hr
    cases hr
    exact refsIn_btree.mpr (forall_mem_remove (refsIn_btree.mp hc))
  | btreeHas =>
    refine .keyedGet h rfl fun c key r _ hr => ?_
    obtain ⟨m, -, hr⟩ := onBTree_eq_ok hr
    cases hr
    exact refsIn_bool _
  | btreeMin | btreeMax =>
    refine .unaryOp h rfl fun a r _ hr => ?_
    obtain ⟨m, -, hr⟩ := onBTree_eq_ok hr
    obtain ⟨k, -, rfl⟩ := map_eq_ok hr
    exact refsIn_int _ _
  | _ => cases hkind

theorem carries_bitset (hkind : instr.opcode.kind = .bitset) :
    Carries R W e (executeInstruction host p instr) := by
  obtain ⟨op, operands⟩ := instr
  cases op with
  | bitAnd | bitOr | bitXor => exact .pushOp h rfl rfl fun _ _ _ _ _ => refsIn_onBitsets
  | bitCount =>
    refine .unaryOp h rfl fun a r _ hr => ?_
    split at hr <;> cases hr
    exact refsIn_int _ _
  | bitSet_ | bitFlip | bitClr | bitGrow => exact .keyedMut h rfl rfl fun _ _ _ _ => refsIn_onBitset
  | bitGet =>
    refine .keyedGet h rfl fun c key r _ hr => ?_
    split at hr <;> cases hr
    exact refsIn_bool _
  | _ => cases hkind

theorem carries_bitvec (hkind : instr.opcode.kind = .bitvec) :
    Carries R W e (executeInstruction host p instr) := by
  obtain ⟨op, operands⟩ := instr
  cases op with
  | bitvecRead => exact .execBitvecRead h rfl
  | bitvecWrite => exact .execBitvecWrite h rfl rfl
  | bitvecPush => exact .execBitvecPush h rfl rfl
  | _ => cases hkind

end Kinds

/-- **Reference flow.**  An instruction, whether it completes or faults, changes places that its
operands name only; and what it puts there and hands on holds no other references than its
operands held, or than it has made itself. -/
theorem executeInstruction_carries (host : Host ω) (p : Program) {instr : Instruction}
    {R : SlotAddress → Prop} {W : Place → Prop} {e : Executor ω} (h : instr.Within R W e)
    (hcall : instr.opcode.callsHandler = false) (hguard : instr.opcode.setsGuard = false)
    (htmp : instr.opcode.setsTmp = false) : Carries R W e (executeInstruction host p instr) := by
  cases hkind : instr.opcode.kind with
  | special => exact carries_special host p h hkind
  | memory => exact carries_memory host p h hkind
  | movement => exact carries_movement host p h hkind
  | arithmetic => exact carries_arithmetic host p h hkind
  | comparison => exact carries_comparison host p h hkind
  | bitwise => exact carries_bitwise host p h hkind
  | controlFlow => exact carries_controlFlow host p h hkind htmp
  | syscalls =>
    obtain ⟨op, operands⟩ := instr
    cases op with
    | syscall | asyncSyscall => cases hcall
    | _ => cases hkind
  | collections => exact carries_collections host p h hkind
  | wrappers => exact carries_wrappers host p h hkind
  | conversion => exact carries_conversion host p h hkind
  | errors =>
    obtain ⟨op, operands⟩ := instr
    cases op with
    | try_ | catch_ | endTry => cases hguard
    | _ => cases hkind
  | vec => exact carries_vec host p h hkind
  | sparse => exact carries_sparse host p h hkind
  | btree => exact carries_btree host p h hkind
  | bitset => exact carries_bitset host p h hkind
  | bitvec => exact carries_bitvec host p h hkind

end Fasm
