import Fasm.Vm.Control

/-!
# What a faulting instruction leaves behind

An instruction that reads first and makes one change at the end has changed nothing
when it faults.  `POP`, `DEQUEUE` and `POP_BACK` are not of that kind: they take the
element out of the collection and only then look at the operand that is to receive
it.  When that operand cannot be written, the element is gone.
-/

namespace Fasm

open ExecM

variable {ω : Type} {α : Type}

/-! ## Computations that fail without an effect -/

/-- An error of `m` leaves the executor as it was. -/
def Unharmed (m : ExecM ω α) : Prop := ∀ e s e', m e = .error s e' → e' = e

namespace Unharmed

theorem pure (a : α) : Unharmed (pure a : ExecM ω α) := nofun

theorem throw (s : Stop) : Unharmed (throw s : ExecM ω α) := by
  intro e s' e' h
  cases h
  rfl

/-- Reading first does no harm. -/
theorem look {β : Type} {f : Executor ω → Except Stop α} {k : α → ExecM ω β}
    (hk : ∀ e a, f e = .ok a → Unharmed (k a)) : Unharmed (reads f >>= k) := by
  intro e s e' h
  cases hf : f e with
  | ok a =>
    rw [reads_bind_ok hf] at h
    exact hk e a hf e s e' h
  | error s' =>
    rw [reads_bind_error hf] at h
    cases h
    rfl

/-- What comes after the change does not fail. -/
theorem bind_pure {β : Type} {m : ExecM ω α} (hm : Unharmed m) (g : α → β) :
    Unharmed (m >>= fun a => Pure.pure (g a)) := by
  intro e s e' h
  cases hrun : m e with
  | ok a e₁ =>
    rw [bind_run_ok hrun] at h
    cases h
  | error s₁ e₁ =>
    rw [bind_run_error hrun] at h
    cases h
    exact hm e s e' hrun

theorem onLast (f : CallFrame → Except Stop (α × CallFrame)) :
    Unharmed (onLast f : ExecM ω α) := by
  intro e s e' h
  unfold ExecM.onLast at h
  split at h
  · cases h; rfl
  · split at h <;> cases h
    rfl

theorem onGlobals (f : GlobalRegister → Except Stop (α × GlobalRegister)) :
    Unharmed (onGlobals f : ExecM ω α) := by
  intro e s e' h
  unfold ExecM.onGlobals at h
  split at h <;> cases h
  rfl

theorem derefWrite (refVal val : Value) : Unharmed (derefWrite refVal val : ExecM ω Unit) := by
  unfold ExecM.derefWrite
  split
  · split
    · exact onGlobals _
    · exact onLast _
  · exact throw _
  · exact throw _
  · exact throw _

theorem assignLast (f : CallFrame → CallFrame) : Unharmed (assignLast f : ExecM ω Unit) :=
  onLast _

theorem writeSlot (s : SlotRef) (val : Value) : Unharmed (writeSlot s val : ExecM ω Unit) := by
  unfold ExecM.writeSlot
  cases s with
  | local_ => exact assignLast _
  | tmp => exact onLast _
  | global => exact onGlobals _
  | derefLocal | derefTmp | derefGlobal => exact look fun _ r _ => derefWrite r val
  | builtIn b =>
    cases b with
    | ret => exact assignLast _
    | _ => exact throw _

theorem writeVal (op : Operand) (val : Value) : Unharmed (writeVal op val : ExecM ω Unit) := by
  cases op with
  | slot s => exact writeSlot s val
  | _ => exact throw _

theorem writeTargetMut (op : Operand) (f : Value → Except Stop (α × Value)) :
    Unharmed (writeTargetMut op f : ExecM ω α) := by
  unfold ExecM.writeTargetMut
  cases op with
  | slot s =>
    cases s with
    | local_ | tmp => exact onLast _
    | global => exact onGlobals _
    | _ => exact throw _
  | _ => exact throw _

theorem releaseOperand (op : Operand) : Unharmed (releaseOperand op : ExecM ω Unit) := by
  cases op with
  | slot s => cases s <;> exact nofun
  | _ => exact pure ()

/-- A simple instruction makes its one change last. -/
theorem of_simple {E : Stop → Prop} {Q : Action → Prop} {dst upd : Operand → Prop}
    {m : ExecM ω Action} (h : Simple E Q dst upd m) : Unharmed m := by
  induction h with
  | done ha => exact pure _
  | stop hs => exact throw _
  | look hf _ ih => exact look ih
  | write => exact (writeVal _ _).bind_pure _
  | update => exact (writeTargetMut _ _).bind_pure _
  | release => exact (releaseOperand _).bind_pure _

end Unharmed

/-- The opcodes that take an element out of a collection and then write it. -/
def Opcode.takesOut : Opcode → Bool
  | .pop | .dequeue | .popBack => true
  | _ => false

/-- The opcodes that call a handler. -/
def Opcode.callsHandler : Opcode → Bool
  | .syscall | .asyncSyscall => true
  | _ => false

/-- All other instructions fail without an effect. -/
theorem executeInstruction_unharmed (host : Host ω) (p : Program) {instr : Instruction}
    (hcall : instr.opcode.callsHandler = false) (htake : instr.opcode.takesOut = false) :
    Unharmed (executeInstruction host p instr) := by
  by_cases h : instr.opcode.isSimple = true
  · exact .of_simple (executeInstruction_simple host p h)
  obtain ⟨op, operands⟩ := instr
  cases op with
  | tmpBlock | endTmp | endTry => exact (Unharmed.onLast _).bind_pure _
  | try_ =>
    exact .look (f := fun _ => Instruction.tryTargets _) fun _ _ _ => .look fun _ _ _ =>
      .look fun _ _ _ => (Unharmed.onLast _).bind_pure _
  | catch_ => exact .look fun _ _ _ => (Unharmed.onLast _).bind_pure _
  | pop | dequeue | popBack => cases htake
  | syscall | asyncSyscall => cases hcall
  | _ => exact absurd rfl h

/-! ## Slots that can be updated in place -/

/-- The slots whose content is the operand itself. -/
def SlotRef.isPlain : SlotRef → Bool
  | .local_ _ | .tmp _ | .global _ => true
  | _ => false

theorem readSlot_local {e : Executor ω} {cf : CallFrame} {below : List CallFrame}
    (h : e.callStack = cf :: below) (i : U8) :
    e.readSlot (.local_ i) = orFault (cf.frame.get i.toNat) .undeclaredSlot := by
  simp only [Executor.readSlot, Executor.last, h]
  rfl

theorem readSlot_tmp {e : Executor ω} {cf : CallFrame} {below : List CallFrame}
    (h : e.callStack = cf :: below) (i : U8) :
    e.readSlot (.tmp i) = cf.tmpSlot i >>= fun o => orFault o .undeclaredSlot := by
  simp only [Executor.readSlot, Executor.last, h]
  rfl

/-- Setting a `TMP` register: what the registers hold afterwards. -/
theorem tmpSlot_setTmpSlot {cf cf' : CallFrame} {i : U8} {o : Option Value}
    (h : cf.setTmpSlot i o = .ok cf') :
    cf'.tmpSlot i = .ok o ∧ (∀ j, j ≠ i → cf'.tmpSlot j = cf.tmpSlot j) ∧
      cf'.frame = cf.frame := by
  unfold CallFrame.setTmpSlot at h
  split at h
  · cases h
  · rename_i f fs hfs
    split at h
    case isTrue hi =>
      cases h
      refine ⟨?_, fun j hj => ?_, rfl⟩
      · simp only [CallFrame.tmpSlot, dif_pos hi, Vector.getElem_set_self]
      · have hne : i.toNat ≠ j.toNat := fun hij => hj (BitVec.eq_of_toNat_eq hij.symm)
        simp only [CallFrame.tmpSlot, hfs]
        split
        · rw [Vector.getElem_set_ne _ _ hne]
        · rfl
    case isFalse => cases h

theorem onLast_eq_ok {f : CallFrame → Except Stop (α × CallFrame)} {e e₁ : Executor ω} {a : α}
    (h : onLast f e = .ok a e₁) :
    ∃ cf below cf', e.callStack = cf :: below ∧ f cf = .ok (a, cf') ∧
      e₁ = { e with callStack := cf' :: below } := by
  unfold onLast at h
  split at h
  · cases h
  · rename_i cf below hstack
    split at h
    · rename_i hf
      cases h
      exact ⟨cf, below, _, hstack, hf, rfl⟩
    · cases h

theorem onGlobals_eq_ok {f : GlobalRegister → Except Stop (α × GlobalRegister)}
    {e e₁ : Executor ω} {a : α} (h : onGlobals f e = .ok a e₁) :
    ∃ g, f e.globals = .ok (a, g) ∧ e₁ = { e with globals := g } := by
  unfold onGlobals at h
  split at h
  · rename_i hf
    cases h
    exact ⟨_, hf, rfl⟩
  · cases h

/-- Updating a slot in place: it held a value, holds the new one, and no other slot has
changed. -/
theorem writeTargetMut_ok {op : Operand} {f : Value → Except Stop (α × Value)}
    {e e₁ : Executor ω} {a : α} (h : writeTargetMut op f e = .ok a e₁) :
    ∃ s v v', op = .slot s ∧ s.isPlain = true ∧ e.readSlot s = .ok v ∧ f v = .ok (a, v') ∧
      e₁.readSlot s = .ok v' ∧
      ∀ t, t.isPlain = true → t ≠ s → e₁.readSlot t = e.readSlot t := by
  have htoNat {i j : U8} (hij : SlotRef.local_ j ≠ .local_ i) : i.toNat ≠ j.toNat :=
    fun hn => hij (congrArg _ (BitVec.eq_of_toNat_eq hn.symm))
  unfold writeTargetMut at h
  split at h
  · rename_i i
    obtain ⟨cf, below, cf', hstack, hf, rfl⟩ := onLast_eq_ok h
    obtain ⟨v, hv, hf⟩ := bind_eq_ok hf
    obtain ⟨⟨a', v'⟩, hfv, hf⟩ := bind_eq_ok hf
    cases hf
    refine ⟨.local_ i, v, v', rfl, rfl, (readSlot_local hstack i).trans hv, hfv, ?_, ?_⟩
    · rw [readSlot_local rfl, Slots.get_set_self]
      rfl
    · intro t ht hne
      cases t with
      | local_ j =>
        rw [readSlot_local rfl, readSlot_local hstack, Slots.get_set_of_ne _ (htoNat hne)]
      | tmp j => rw [readSlot_tmp rfl, readSlot_tmp hstack]; rfl
      | global j => rfl
      | _ => cases ht
  · rename_i i
    obtain ⟨cf, below, cf', hstack, hf, rfl⟩ := onLast_eq_ok h
    obtain ⟨o, ho, hf⟩ := bind_eq_ok hf
    obtain ⟨v, hv, hf⟩ := bind_eq_ok hf
    obtain ⟨⟨a', v'⟩, hfv, hf⟩ := bind_eq_ok hf
    obtain ⟨cf₁, hset, hf⟩ := bind_eq_ok hf
    cases hf
    obtain ⟨hself, hother, hframe⟩ := tmpSlot_setTmpSlot hset
    refine ⟨.tmp i, v, v', rfl, rfl, ?_, hfv, ?_, ?_⟩
    · rw [readSlot_tmp hstack, ho]
      exact hv
    · rw [readSlot_tmp rfl, hself]
      rfl
    · intro t ht hne
      cases t with
      | local_ j => rw [readSlot_local rfl, readSlot_local hstack, hframe]
      | tmp j =>
        have hj : j ≠ i := fun hj => hne (congrArg _ hj)
        rw [readSlot_tmp rfl, readSlot_tmp hstack, hother j hj]
      | global j => rfl
      | _ => cases ht
  · rename_i i
    obtain ⟨g, hf, rfl⟩ := onGlobals_eq_ok h
    obtain ⟨v, hv, hf⟩ := bind_eq_ok hf
    obtain ⟨⟨a', v'⟩, hfv, hf⟩ := bind_eq_ok hf
    cases hf
    refine ⟨.global i, v, v', rfl, rfl, hv, hfv, ?_, ?_⟩
    · simp only [Executor.readSlot, Slots.get_set_self]
      rfl
    · intro t ht hne
      cases t with
      | global j =>
        have hj : i.toNat ≠ j.toNat := fun hn => hne (congrArg _ (BitVec.eq_of_toNat_eq hn.symm))
        simp only [Executor.readSlot, Slots.get_set_of_ne _ hj]
      | local_ j => rfl
      | tmp j => rfl
      | _ => cases ht
  · cases h

/-! ## Operands that cannot be written -/

namespace Executor

/-- The slot holds no reference that could be written through. -/
def NoTarget (e : Executor ω) (s : SlotRef) : Prop :=
  (∃ f, e.readSlot s = .error (.fault f)) ∨
    ∃ v, e.readSlot s = .ok v ∧ ∀ g i, v ≠ .refMut g i

/-- A write to the operand faults: a built-in other than `$ret`, a `TMP` register without a
block, a dereference of something else than a mutable reference, or no slot at all. -/
def Refuses (e : Executor ω) : Operand → Prop
  | .slot (.local_ _) | .slot (.global _) | .slot (.builtIn .ret) => False
  | .slot (.tmp i) => e.readSlot (.tmp i) = .error (.fault .indexOutOfBounds)
  | .slot (.derefLocal i) => e.NoTarget (.local_ i)
  | .slot (.derefTmp i) => e.NoTarget (.tmp i)
  | .slot (.derefGlobal i) => e.NoTarget (.global i)
  | _ => True

end Executor

/-- The computation faults on the executor. -/
def FaultsOn (m : ExecM ω α) (e : Executor ω) : Prop := ∃ f e', m e = .error (.fault f) e'

/-- What comes after the change does not fault. -/
theorem faultsOn_bind_pure {β : Type} {m : ExecM ω α} {g : α → β} {e : Executor ω} :
    FaultsOn (m >>= fun a => pure (g a)) e ↔ FaultsOn m e := by
  unfold FaultsOn
  cases hrun : m e with
  | ok a e₁ =>
    rw [bind_run_ok hrun]
    exact iff_of_false nofun nofun
  | error s e₁ =>
    rw [bind_run_error hrun]
    constructor
    · rintro ⟨f, e', h⟩
      cases h
      exact ⟨f, e₁, rfl⟩
    · rintro ⟨f, e', h⟩
      cases h
      exact ⟨f, e₁, rfl⟩

theorem faultsOn_throw (f : Fault) (e : Executor ω) :
    FaultsOn (throw (.fault f) : ExecM ω α) e := ⟨f, e, rfl⟩

theorem not_faultsOn_assignLast (f : CallFrame → CallFrame) (e : Executor ω) :
    ¬ FaultsOn (assignLast f) e := by
  rintro ⟨x, e', h⟩
  unfold assignLast onLast at h
  split at h <;> cases h

theorem not_faultsOn_setGlobal (i : Nat) (v : Value) (e : Executor ω) :
    ¬ FaultsOn (onGlobals fun g => .ok ((), g.set i v)) e := by
  rintro ⟨x, e', h⟩
  cases h

theorem faultsOn_derefWrite {r val : Value} {e : Executor ω} :
    FaultsOn (derefWrite r val) e ↔ ∀ g i, r ≠ .refMut g i := by
  constructor
  · rintro h g i rfl
    unfold derefWrite at h
    cases g with
    | true => exact not_faultsOn_setGlobal _ _ _ h
    | false => exact not_faultsOn_assignLast _ _ h
  · intro h
    cases r with
    | refMut g i => exact absurd rfl (h g i)
    | _ => exact faultsOn_throw _ _

/-- A write through a slot faults for want of a mutable reference in it. -/
theorem faultsOn_deref {f : Executor ω → Except Stop Value} {s : SlotRef} {val : Value}
    {e : Executor ω} (hf : f e = e.readSlot s) :
    FaultsOn (reads f >>= fun r => derefWrite r val) e ↔ e.NoTarget s := by
  unfold FaultsOn Executor.NoTarget
  cases hr : e.readSlot s with
  | ok r =>
    rw [reads_bind_ok (hf.trans hr)]
    refine faultsOn_derefWrite.trans ⟨fun h => .inr ⟨r, rfl, h⟩, ?_⟩
    rintro (⟨f, hf⟩ | ⟨r', hr', h⟩)
    · cases hf
    · cases hr'
      exact h
  | error x =>
    rw [reads_bind_error (hf.trans hr)]
    constructor
    · rintro ⟨f, e', h⟩
      cases h
      exact .inl ⟨f, rfl⟩
    · rintro (⟨f, h⟩ | ⟨r, h, -⟩)
      · cases h
        exact ⟨f, e, rfl⟩
      · cases h

/-- A `TMP` register can be assigned when it can be looked at. -/
theorem setTmpSlot_cases (cf : CallFrame) (i : U8) (o : Option Value) :
    (∃ cf' o', cf.setTmpSlot i o = .ok cf' ∧ cf.tmpSlot i = .ok o') ∨
      cf.setTmpSlot i o = .error (.fault .indexOutOfBounds) ∧
        cf.tmpSlot i = .error (.fault .indexOutOfBounds) := by
  obtain ⟨_, _, _, _, _, _, tmpFrames⟩ := cf
  cases tmpFrames with
  | nil => exact .inr ⟨rfl, rfl⟩
  | cons f fs =>
    by_cases hi : i.toNat < 16
    · exact .inl ⟨_, _, dif_pos hi, dif_pos hi⟩
    · exact .inr ⟨dif_neg hi, dif_neg hi⟩

section Release

variable {g : GlobalRegister} {cf cf' : CallFrame} {below : List CallFrame} {w : ω} {i : U8}

theorem releaseOperand_tmp (hset : cf.setTmpSlot i none = .ok cf') :
    releaseOperand (.slot (.tmp i)) ⟨g, cf :: below, w⟩ = .ok () ⟨g, cf' :: below, w⟩ := by
  show EStateM.Result.ok () _ = _
  simp only [hset]

theorem releaseOperand_tmp_error {x : Stop} (hset : cf.setTmpSlot i none = .error x) :
    releaseOperand (.slot (.tmp i)) ⟨g, cf :: below, w⟩ = .ok () ⟨g, cf :: below, w⟩ := by
  show EStateM.Result.ok () _ = _
  simp only [hset]

end Release

theorem faultsOn_setTmp {i : U8} {v : Value} {e : Executor ω} :
    FaultsOn (onLast fun cf => do return ((), ← cf.setTmpSlot i (some v))) e ↔
      e.readSlot (.tmp i) = .error (.fault .indexOutOfBounds) := by
  obtain ⟨g, stack, w⟩ := e
  cases stack with
  | nil => exact iff_of_false (by rintro ⟨f, e', h⟩; cases h) (by rintro ⟨⟩)
  | cons cf below =>
    rw [readSlot_tmp rfl]
    rcases setTmpSlot_cases cf i (some v) with ⟨cf', o, hset, hget⟩ | ⟨hset, hget⟩
    · rw [hget]
      refine iff_of_false ?_ ?_
      · rintro ⟨x, e', h⟩
        simp only [onLast, hset] at h
        cases h
      · cases o <;> rintro ⟨⟩
    · rw [hget]
      refine iff_of_true ⟨.indexOutOfBounds, ⟨g, cf :: below, w⟩, ?_⟩ rfl
      simp only [onLast, hset]
      rfl

/-- A write faults exactly when its operand refuses it. -/
theorem faultsOn_writeVal {op : Operand} {val : Value} {e : Executor ω} :
    FaultsOn (writeVal op val) e ↔ e.Refuses op := by
  cases op with
  | slot s =>
    change FaultsOn (writeSlot s val) e ↔ _
    cases s with
    | local_ i => exact iff_of_false (not_faultsOn_assignLast _ e) id
    | tmp i => exact faultsOn_setTmp
    | global i =>
      unfold writeSlot
      exact iff_of_false (not_faultsOn_setGlobal _ _ e) id
    | derefLocal i => exact faultsOn_deref rfl
    | derefTmp i => exact faultsOn_deref rfl
    | derefGlobal i => exact faultsOn_deref rfl
    | builtIn b =>
      cases b with
      | ret => exact iff_of_false (not_faultsOn_assignLast _ e) id
      | _ => exact iff_of_true (faultsOn_throw _ _) trivial
  | _ => exact iff_of_true (faultsOn_throw _ _) trivial

/-! ## What the program can see of the state -/

/-- The slots, `TMP` registers, `$ret` and `$args` of a frame. -/
def CallFrame.memory (cf : CallFrame) :
    (Nat → Option Value) × List TmpFrame × Value × Value :=
  (cf.frame.get, cf.tmpFrames, cf.retVal, cf.args)

/-- The memory of all frames and the globals. -/
def Executor.memory (e : Executor ω) :
    List ((Nat → Option Value) × List TmpFrame × Value × Value) × (Nat → Option Value) :=
  (e.callStack.map CallFrame.memory, e.globals.get)

/-- The locals and `TMP` registers of all frames, and the globals. -/
def Executor.slots (e : Executor ω) : List ((Nat → Option Value) × List TmpFrame) ×
    (Nat → Option Value) :=
  (e.callStack.map fun cf => (cf.frame.get, cf.tmpFrames), e.globals.get)

theorem slots_of_memory {e e' : Executor ω} (h : e'.memory = e.memory) : e'.slots = e.slots := by
  obtain ⟨hstack, hglobals⟩ := Prod.mk.inj h
  refine Prod.ext ?_ hglobals
  have hmap := congrArg (List.map fun m : (Nat → Option Value) × List TmpFrame × Value × Value =>
    (m.1, m.2.1)) hstack
  rw [List.map_map, List.map_map] at hmap
  exact hmap

/-- Plain slots read the same where all slots hold the same. -/
theorem readSlot_of_slots {e e' : Executor ω} (h : e'.slots = e.slots) {s : SlotRef}
    (hs : s.isPlain = true) : e'.readSlot s = e.readSlot s := by
  obtain ⟨hstack, hglobals⟩ := Prod.mk.inj h
  obtain ⟨g, stack, w⟩ := e
  obtain ⟨g', stack', w'⟩ := e'
  cases s with
  | global i =>
    have hget : g'.get i.toNat = g.get i.toNat := congrFun hglobals i.toNat
    simp only [Executor.readSlot, hget]
  | local_ i =>
    cases stack with
    | nil =>
      obtain rfl : stack' = [] := List.map_eq_nil_iff.mp hstack
      rfl
    | cons cf below =>
      obtain ⟨cf', below', rfl, hcf, -⟩ := List.map_eq_cons_iff.mp hstack
      have hget : cf'.frame.get i.toNat = cf.frame.get i.toNat :=
        congrFun (congrArg Prod.fst hcf) i.toNat
      rw [readSlot_local rfl, readSlot_local rfl, hget]
  | tmp i =>
    cases stack with
    | nil =>
      obtain rfl : stack' = [] := List.map_eq_nil_iff.mp hstack
      rfl
    | cons cf below =>
      obtain ⟨cf', below', rfl, hcf, -⟩ := List.map_eq_cons_iff.mp hstack
      have htmp : cf'.tmpFrames = cf.tmpFrames := congrArg Prod.snd hcf
      rw [readSlot_tmp rfl, readSlot_tmp rfl]
      simp only [CallFrame.tmpSlot, htmp]
  | _ => cases hs

/-- Plain slots are part of the memory. -/
theorem readSlot_of_memory {e e' : Executor ω} (h : e'.memory = e.memory) {s : SlotRef}
    (hs : s.isPlain = true) : e'.readSlot s = e.readSlot s :=
  readSlot_of_slots (slots_of_memory h) hs

/-- The computation, when it faults, leaves the memory as it was. -/
def FaultsClean (m : ExecM ω α) (e : Executor ω) : Prop :=
  ∀ f e', m e = .error (.fault f) e' → e'.memory = e.memory

theorem Unharmed.faultsClean {m : ExecM ω α} (h : Unharmed m) (e : Executor ω) :
    FaultsClean m e := by
  intro f e' hrun
  rw [h e _ e' hrun]

/-! ## Taking an element out -/

/-- The collections out of which the opcode takes an element. -/
def Opcode.canTake : Opcode → Value → Bool
  | .pop, .stack s => !s.isEmpty
  | .dequeue, .queue q | .dequeue, .deque q => !q.isEmpty
  | .popBack, .deque d => !d.isEmpty
  | _, _ => false

/-- The instruction takes an element out of the collection of operand 0 and cannot write it
to operand 1. -/
def Instruction.LosesElement (instr : Instruction) (e : Executor ω) : Prop :=
  (∃ s v, instr.operands[0]? = some (.slot s) ∧ s.isPlain = true ∧ e.readSlot s = .ok v ∧
    instr.opcode.canTake v = true) ∧
  ∀ op, instr.operands[1]? = some op → e.Refuses op

/-- `f` takes an element out of the values of `can`, and leaves another collection. -/
structure Takes (can : Value → Bool) (f : Value → Except Stop (Value × Value)) : Prop where
  ok_of : ∀ v, can v = true → ∃ r, f v = .ok r
  of_ok : ∀ v r, f v = .ok r → can v = true
  changes : ∀ v r, f v = .ok r → r.2 ≠ v
  noRef : ∀ v r, f v = .ok r → ∀ g i, v ≠ .refMut g i ∧ r.2 ≠ .refMut g i

/-- What can be updated in place is a plain slot that holds a value. -/
theorem writeTargetMut_of_read {s : SlotRef} {f : Value → Except Stop (α × Value)}
    {e : Executor ω} {v v' : Value} {a : α} (hs : s.isPlain = true) (hv : e.readSlot s = .ok v)
    (hf : f v = .ok (a, v')) : ∃ e₁, writeTargetMut (.slot s) f e = .ok a e₁ := by
  obtain ⟨g, stack, w⟩ := e
  cases s with
  | local_ i =>
    cases stack with
    | nil => cases hv
    | cons cf below =>
      rw [readSlot_local rfl] at hv
      simp only [writeTargetMut, onLast, hv, bind, Except.bind, hf]
      exact ⟨_, rfl⟩
  | tmp i =>
    cases stack with
    | nil => cases hv
    | cons cf below =>
      rw [readSlot_tmp rfl] at hv
      obtain ⟨o, ho, hv⟩ := bind_eq_ok hv
      rcases setTmpSlot_cases cf i (some v') with ⟨cf', o', hset, -⟩ | ⟨-, hget⟩
      · simp only [writeTargetMut, onLast, ho, hv, bind, Except.bind, hf, hset]
        exact ⟨_, rfl⟩
      · rw [hget] at ho
        cases ho
  | global i =>
    have hv : orFault (g.get i.toNat) .undeclaredSlot = .ok v := hv
    simp only [writeTargetMut, onGlobals, hv, bind, Except.bind, hf]
    exact ⟨_, rfl⟩
  | _ => cases hs

section Take

variable {e e₁ : Executor ω} {s : SlotRef} {v v' : Value}

/-- Taking an element out of a collection does not change which operands can be written. -/
theorem refuses_of_take (hv : e.readSlot s = .ok v) (hv' : e₁.readSlot s = .ok v')
    (hother : ∀ t, t.isPlain = true → t ≠ s → e₁.readSlot t = e.readSlot t)
    (href : ∀ g i, v ≠ .refMut g i ∧ v' ≠ .refMut g i) (op : Operand) :
    e₁.Refuses op ↔ e.Refuses op := by
  have htarget (t : SlotRef) (ht : t.isPlain = true) : e₁.NoTarget t ↔ e.NoTarget t := by
    by_cases hts : t = s
    · subst hts
      exact iff_of_true (.inr ⟨v', hv', fun g i => (href g i).2⟩)
        (.inr ⟨v, hv, fun g i => (href g i).1⟩)
    · unfold Executor.NoTarget
      rw [hother t ht hts]
  cases op with
  | slot t =>
    cases t with
    | tmp i =>
      change e₁.readSlot (.tmp i) = _ ↔ e.readSlot (.tmp i) = _
      by_cases hts : SlotRef.tmp i = s
      · rw [hts, hv, hv']
        exact iff_of_false nofun nofun
      · rw [hother _ rfl hts]
    | derefLocal i => exact htarget _ rfl
    | derefTmp i => exact htarget _ rfl
    | derefGlobal i => exact htarget _ rfl
    | local_ i => exact Iff.rfl
    | global i => exact Iff.rfl
    | builtIn b => cases b <;> exact Iff.rfl
  | _ => exact Iff.rfl

variable {instr : Instruction}

theorem getOp_of_some {n : Nat} {op : Operand} (h : instr.operands[n]? = some op) :
    instr.getOp n = .ok op := by
  simp only [Instruction.getOp, h]
  rfl

theorem getOp_of_none {n : Nat} (h : instr.operands[n]? = none) :
    instr.getOp n = .error (.fault .typeMismatch) := by
  simp only [Instruction.getOp, h]
  rfl

/-- The end of an instruction that writes operand 1. -/
abbrev putSecond (instr : Instruction) (x : Value) : ExecM ω Action :=
  (liftM (instr.getOp 1) : ExecM ω Operand) >>= fun op => writeVal op x >>= fun _ => pure .continue_

theorem putSecond_unharmed (x : Value) : Unharmed (putSecond instr x : ExecM ω Action) :=
  .look (f := fun _ => instr.getOp 1) fun _ op _ => (Unharmed.writeVal op x).bind_pure _

/-- It faults when operand 1 is missing or cannot be written. -/
theorem faultsOn_putSecond (x : Value) :
    FaultsOn (putSecond instr x) e ↔ ∀ op, instr.operands[1]? = some op → e.Refuses op := by
  cases hop : instr.operands[1]? with
  | none =>
    refine iff_of_true ⟨.typeMismatch, e, ?_⟩ nofun
    exact reads_bind_error (f := fun _ => instr.getOp 1) (getOp_of_none hop)
  | some op =>
    have hrun : putSecond instr x e = (writeVal op x >>= fun _ => pure .continue_) e :=
      reads_bind_ok (f := fun _ => instr.getOp 1) (getOp_of_some hop)
    have hput : FaultsOn (putSecond instr x) e ↔ e.Refuses op := by
      unfold FaultsOn
      rw [hrun]
      exact faultsOn_bind_pure.trans faultsOn_writeVal
    rw [hput]
    constructor
    · rintro h op' hop'
      cases hop'
      exact h
    · intro h
      exact h op rfl

/-- Taking an element out changes the memory. -/
theorem Takes.memory_ne {can : Value → Bool} {f : Value → Except Stop (Value × Value)}
    {op : Operand} {x : Value} (hf : Takes can f) (h : writeTargetMut op f e = .ok x e₁) :
    e₁.memory ≠ e.memory := by
  obtain ⟨s, v, v', rfl, hplain, hv, hfv, hv', -⟩ := writeTargetMut_ok h
  intro hmem
  have hsame := readSlot_of_memory hmem hplain
  rw [hv, hv'] at hsame
  exact hf.changes v _ hfv (Except.ok.inj hsame)

/-- When the computation faults, the memory is as before unless an element has been taken out
that cannot be written. -/
theorem popOp_faultsClean_iff {f : Value → Except Stop (Value × Value)}
    (hf : Takes instr.opcode.canTake f) :
    FaultsClean (popOp instr f) e ↔ ¬ instr.LosesElement e := by
  cases hop : instr.operands[0]? with
  | none =>
    have hrun : popOp instr f e = .error (.fault .typeMismatch) e :=
      reads_bind_error (f := fun _ => instr.getOp 0) (getOp_of_none hop)
    refine iff_of_true (fun x e' h => ?_) ?_
    · rw [hrun] at h
      cases h
      rfl
    · rintro ⟨⟨s, v, hs, -⟩, -⟩
      rw [hop] at hs
      cases hs
  | some op =>
    have hrun : popOp instr f e = (writeTargetMut op f >>= putSecond instr) e :=
      reads_bind_ok (f := fun _ => instr.getOp 0) (getOp_of_some hop)
    unfold FaultsClean
    rw [hrun]
    cases htake : writeTargetMut op f e with
    | error x e₁ =>
      rw [bind_run_error htake]
      refine iff_of_true (fun f' e' h => ?_) ?_
      · cases h
        rw [Unharmed.writeTargetMut op f e _ e₁ htake]
      · rintro ⟨⟨s, v, hs, hplain, hv, hcan⟩, -⟩
        cases hop.symm.trans hs
        obtain ⟨⟨a, v'⟩, hr⟩ := hf.ok_of v hcan
        obtain ⟨e₂, htake'⟩ := writeTargetMut_of_read hplain hv hr
        rw [htake'] at htake
        cases htake
    | ok x e₁ =>
      rw [bind_run_ok htake]
      obtain ⟨s, v, v', rfl, hplain, hv, hfv, hv', hother⟩ := writeTargetMut_ok htake
      have hmem : e₁.memory ≠ e.memory := hf.memory_ne htake
      have hrefuses := refuses_of_take hv hv' hother (hf.noRef v _ hfv)
      have hfault : FaultsOn (putSecond instr x) e₁ ↔ _ := faultsOn_putSecond x
      constructor
      · rintro hclean ⟨-, hlost⟩
        obtain ⟨f', e', herr⟩ := hfault.mpr fun op' hop' => (hrefuses op').mpr (hlost op' hop')
        refine hmem ?_
        rw [← putSecond_unharmed x e₁ _ e' herr]
        exact hclean f' e' herr
      · intro hlost f' e' herr
        refine absurd ⟨⟨s, v, hop, hplain, hv, hf.of_ok v _ hfv⟩, fun op' hop' => ?_⟩ hlost
        exact (hrefuses op').mp (hfault.mp ⟨f', e', herr⟩ op' hop')

end Take

/-! ### The three opcodes -/

/-- The end of a list that a take leaves is another list. -/
theorem take_end {pop : List Value → Except Stop (Value × List Value)}
    (hpop : pop = popLast ∨ pop = popFront) (l : List Value) :
    (l = [] ∧ ∀ r, pop l ≠ .ok r) ∨ (!l.isEmpty) = true ∧ ∃ r, pop l = .ok r ∧ r.2 ≠ l := by
  cases l with
  | nil =>
    refine .inl ⟨rfl, ?_⟩
    rcases hpop with rfl | rfl <;> exact nofun
  | cons x xs =>
    refine .inr ⟨rfl, ?_⟩
    rcases hpop with rfl | rfl
    · refine ⟨((x :: xs).getLast (by simp), (x :: xs).dropLast), ?_, fun h => ?_⟩
      · simp only [popLast, List.getLast?_eq_some_getLast (List.cons_ne_nil x xs)]
        rfl
      · have hlen := congrArg List.length h
        simp at hlen
    · refine ⟨(x, xs), rfl, fun h => ?_⟩
      have hlen := congrArg List.length h
      simp at hlen

/-- What it means for `f` to take an element out of one value. -/
structure TakesFrom (can : Bool) (f : Except Stop (Value × Value)) (v : Value) : Prop where
  ok_iff : (∃ r, f = .ok r) ↔ can = true
  changes : ∀ r, f = .ok r → r.2 ≠ v ∧ ∀ g i, v ≠ .refMut g i ∧ r.2 ≠ .refMut g i

theorem takesFrom_error (f : Fault) (v : Value) : TakesFrom false (.error (.fault f)) v where
  ok_iff := iff_of_false (by rintro ⟨_, ⟨⟩⟩) Bool.false_ne_true
  changes := by rintro _ ⟨⟩

/-- Taking an element off one end of a collection with the elements `l`. -/
theorem takesFrom_end {pop : List Value → Except Stop (Value × List Value)}
    (hpop : pop = popLast ∨ pop = popFront) {mk : List Value → Value}
    (hmk : ∀ l l', mk l = mk l' → l = l') (href : ∀ l g i, mk l ≠ .refMut g i) (l : List Value) :
    TakesFrom (!l.isEmpty) ((pop l).map fun r => (r.1, mk r.2)) (mk l) := by
  rcases take_end hpop l with ⟨rfl, h⟩ | ⟨hl, r, hr, hne⟩
  · cases hp : pop [] with
    | ok r => exact absurd hp (h r)
    | error s => exact ⟨iff_of_false nofun nofun, nofun⟩
  · rw [hr]
    refine ⟨iff_of_true ⟨_, rfl⟩ hl, fun r' h => ?_⟩
    cases h
    exact ⟨fun h => hne (hmk _ _ h), fun g i => ⟨href _ g i, href _ g i⟩⟩

theorem Takes.of_takesFrom {can : Value → Bool} {f : Value → Except Stop (Value × Value)}
    (h : ∀ v, TakesFrom (can v) (f v) v) : Takes can f where
  ok_of v := (h v).ok_iff.mpr
  of_ok v r hr := (h v).ok_iff.mp ⟨r, hr⟩
  changes v r hr := ((h v).changes r hr).1
  noRef v r hr := ((h v).changes r hr).2

/-- The values that some instruction updates in place. -/
def Value.updatable : Value → Bool
  | .vec _ | .struct _ | .stack _ | .queue _ | .sparse _ | .btree _ | .deque _ | .bitset _
  | .bitvec _ => true
  | _ => false

/-- The update declines all other values. -/
def Declines (f : Value → Except Stop (α × Value)) : Prop :=
  ∀ v, v.updatable = false → f v = .error (.fault .typeMismatch)

/-- What the opcodes that take an element out take it by. -/
theorem executeInstruction_takes {op : Opcode} (h : op.takesOut = true) :
    ∃ f, Takes op.canTake f ∧ Declines f ∧ ∀ {ω : Type} (host : Host ω) (p : Program) operands,
      executeInstruction host p ⟨op, operands⟩ = popOp ⟨op, operands⟩ f := by
  have hstack : ∀ l l', Value.stack l = .stack l' → l = l' := fun _ _ => Value.stack.inj
  have hqueue : ∀ l l', Value.queue l = .queue l' → l = l' := fun _ _ => Value.queue.inj
  have hdeque : ∀ l l', Value.deque l = .deque l' → l = l' := fun _ _ => Value.deque.inj
  cases op with
  | pop =>
    refine ⟨_, .of_takesFrom fun v => ?_, fun v hv => ?_, fun _ _ _ => rfl⟩
    case refine_2 => cases v <;> first | rfl | cases hv
    cases v with
    | stack s => exact takesFrom_end (.inl rfl) hstack nofun s
    | _ => exact takesFrom_error _ _
  | dequeue =>
    refine ⟨_, .of_takesFrom fun v => ?_, fun v hv => ?_, fun _ _ _ => rfl⟩
    case refine_2 => cases v <;> first | rfl | cases hv
    cases v with
    | queue q => exact takesFrom_end (.inr rfl) hqueue nofun q
    | deque d => exact takesFrom_end (.inr rfl) hdeque nofun d
    | _ => exact takesFrom_error _ _
  | popBack =>
    refine ⟨_, .of_takesFrom fun v => ?_, fun v hv => ?_, fun _ _ _ => rfl⟩
    case refine_2 => cases v <;> first | rfl | cases hv
    cases v with
    | deque d => exact takesFrom_end (.inl rfl) hdeque nofun d
    | _ => exact takesFrom_error _ _
  | _ => cases h

/-- **Faulting instructions and their effects.**  An instruction other than `SYSCALL` and
`ASYNC_SYSCALL` that faults leaves all slots, `TMP` registers, `$ret` and `$args` of all
frames and the globals as they were, except when it takes an element out of a collection
and cannot write it. -/
theorem fault_effect_iff (host : Host ω) (p : Program) {instr : Instruction}
    (hcall : instr.opcode ≠ .syscall ∧ instr.opcode ≠ .asyncSyscall) (e : Executor ω) :
    (∀ f e', executeInstruction host p instr e = .error (.fault f) e' → e'.memory = e.memory) ↔
      ¬ instr.LosesElement e := by
  have hcall' : instr.opcode.callsHandler = false := by
    obtain ⟨op, operands⟩ := instr
    cases op with
    | syscall => exact absurd rfl hcall.1
    | asyncSyscall => exact absurd rfl hcall.2
    | _ => rfl
  by_cases htake : instr.opcode.takesOut = false
  · refine iff_of_true ((executeInstruction_unharmed host p hcall' htake).faultsClean e) ?_
    rintro ⟨⟨s, v, -, -, -, hcan⟩, -⟩
    obtain ⟨op, operands⟩ := instr
    cases op with
    | pop | dequeue | popBack => cases htake
    | _ => cases hcan
  obtain ⟨op, operands⟩ := instr
  obtain ⟨f, hf, -, hrun⟩ := executeInstruction_takes (Bool.not_eq_false _ ▸ htake)
  rw [hrun host p operands]
  exact popOp_faultsClean_iff hf

/-- A frame whose first local is a stack of one element. -/
def oneOnStack : Executor Unit :=
  ⟨.new, [{ CallFrame.new 0 .null with frame := ⟨[some (.stack [.bool true])]⟩ }], ()⟩

/-- A program without functions. -/
def noFunctions : Program := ⟨1, [], []⟩

/-- `POP` of that stack into another local loses nothing. -/
theorem fault_effect_iff_popIntoLocal :
    ¬ Instruction.LosesElement ⟨.pop, [.slot (.local_ 0), .slot (.local_ 1)]⟩ oneOnStack ∧
      ∀ f e', executeInstruction Host.bare noFunctions
        ⟨.pop, [.slot (.local_ 0), .slot (.local_ 1)]⟩ oneOnStack = .error (.fault f) e' →
          e'.memory = oneOnStack.memory := by
  have hkeeps : ¬ Instruction.LosesElement ⟨.pop, [.slot (.local_ 0), .slot (.local_ 1)]⟩
      oneOnStack := fun h => h.2 _ rfl
  exact ⟨hkeeps, (fault_effect_iff Host.bare noFunctions ⟨by decide, by decide⟩ _).mpr hkeeps⟩

/-- `POP` of that stack into `$args`, which is read-only: the instruction faults and the
element is gone. -/
theorem popIntoArgs_loses_element :
    ∃ e', executeInstruction Host.bare noFunctions
        ⟨.pop, [.slot (.local_ 0), .slot (.builtIn .args)]⟩ oneOnStack =
          .error (.fault .writeAccessViolation) e' ∧ e'.memory ≠ oneOnStack.memory := by
  refine ⟨_, rfl, fun h => ?_⟩
  have hslot := readSlot_of_memory h (s := .local_ 0) rfl
  cases hslot

end Fasm
