import Fasm.Vm.SourceOperand

/-!
# Dereferences and the slots they stand for

`ADDR x, r` puts a reference into `r` that names `x`, or local 0 when `x` is a `TMP`
register.  A read of `&r` reads the slot that is named and a write writes it, but `&r`
cannot be updated in place, a release of it does nothing, and its address is that of
local 0.
-/

namespace Fasm

open ExecM

variable {ω : Type} {α : Type}

/-! ## References and what they name -/

namespace SlotRef

/-- The dereference of what a slot holds. -/
def deref : SlotRef → SlotRef
  | .local_ i => .derefLocal i
  | .tmp i => .derefTmp i
  | .global i => .derefGlobal i
  | s => s

/-- The slot that the reference to a slot names. -/
def named : SlotRef → SlotRef
  | .tmp _ => .local_ 0
  | s => s

/-- The reference that `ADDR` makes of a slot. -/
def reference (s : SlotRef) : Value := .refMut (slotAddress (.slot s)).1 (slotAddress (.slot s)).2

end SlotRef

/-- A slot index is the same in a reference. -/
theorem toNat_widen (i : U16) : (i.setWidth 32).toNat = i.toNat := by
  rw [BitVec.toNat_setWidth]
  exact Nat.mod_eq_of_lt (Nat.lt_trans i.isLt (by decide))

section Deref

variable {e : Executor ω} {x r : SlotRef}

theorem readSlot_deref (hr : r.isPlain = true) :
    e.readSlot r.deref = (e.readSlot r >>= fun c => e.derefValue c) := by
  cases r with
  | local_ i =>
    simp only [SlotRef.deref, Executor.readSlot]
    cases e.last <;> rfl
  | tmp i =>
    simp only [SlotRef.deref, Executor.readSlot]
    cases e.last with
    | error s => rfl
    | ok cf =>
      show (cf.tmpSlot i >>= _) = ((cf.tmpSlot i >>= _) >>= _)
      cases cf.tmpSlot i <;> rfl
  | global i => rfl
  | _ => cases hr

theorem writeSlot_deref (hr : r.isPlain = true) (v : Value) :
    (writeSlot r.deref v : ExecM ω Unit) =
      (reads fun e => e.readSlot r) >>= fun c => derefWrite c v := by
  cases r with
  | local_ | tmp | global => rfl
  | _ => cases hr

theorem writeTargetMut_deref (hr : r.isPlain = true) (f : Value → Except Stop (α × Value)) :
    (writeTargetMut (.slot r.deref) f : ExecM ω α) = throw (.fault .typeMismatch) := by
  cases r with
  | local_ | tmp | global => rfl
  | _ => cases hr

theorem releaseOperand_deref (hr : r.isPlain = true) :
    (releaseOperand (.slot r.deref) : ExecM ω Unit) = pure () := by
  cases r with
  | local_ | tmp | global => rfl
  | _ => cases hr

theorem slotAddress_deref (hr : r.isPlain = true) : slotAddress (.slot r.deref) = (false, 0) := by
  cases r with
  | local_ | tmp | global => rfl
  | _ => cases hr

/-- A write through the reference to a slot. -/
theorem derefWrite_reference (hx : x.isPlain = true) (v : Value) :
    (derefWrite x.reference v : ExecM ω Unit) = writeSlot x.named v := by
  cases x with
  | local_ i =>
    have hi : ((i.setWidth 32).setWidth 8 : U8) = i := by simp
    simp only [SlotRef.reference, slotAddress, derefWrite, SlotRef.named, writeSlot, hi]
    rfl
  | tmp i => rfl
  | global i =>
    simp only [SlotRef.reference, slotAddress, derefWrite, SlotRef.named, writeSlot, toNat_widen,
      if_true]
  | _ => cases hx

/-- A read through the reference to a slot: it finds what the named slot holds. -/
theorem derefValue_reference (hx : x.isPlain = true) (hne : e.callStack ≠ []) :
    (∃ v, e.readSlot x.named = .ok v ∧ e.derefValue x.reference = .ok v) ∨
      (∀ v, e.readSlot x.named ≠ .ok v) ∧
        e.derefValue x.reference = .error (.fault .nullDeref) := by
  have hcell (o : Option Value) :
      (∃ v, orFault o .undeclaredSlot = .ok v ∧ orFault o .nullDeref = .ok v) ∨
        (∀ v, orFault o .undeclaredSlot ≠ .ok v) ∧
          orFault o .nullDeref = .error (.fault .nullDeref) := by
    cases o with
    | none => exact .inr ⟨nofun, rfl⟩
    | some v => exact .inl ⟨v, rfl, rfl⟩
  obtain ⟨g, stack, w⟩ := e
  cases stack with
  | nil => exact absurd rfl hne
  | cons cf below =>
    cases x with
    | local_ i =>
      have hi : ((i.setWidth 32).setWidth 8 : U8) = i := by simp
      have hderef : Executor.derefValue ⟨g, cf :: below, w⟩ (SlotRef.local_ i).reference =
          orFault (cf.frame.get i.toNat) .nullDeref := by
        simp only [SlotRef.reference, slotAddress, Executor.derefValue, hi]
        rfl
      have hread : Executor.readSlot ⟨g, cf :: below, w⟩ (SlotRef.local_ i).named =
          orFault (cf.frame.get i.toNat) .undeclaredSlot := readSlot_local rfl i
      rw [hderef, hread]
      exact hcell _
    | tmp i =>
      have hderef : Executor.derefValue ⟨g, cf :: below, w⟩ (SlotRef.tmp i).reference =
          orFault (cf.frame.get 0) .nullDeref := rfl
      have hread : Executor.readSlot ⟨g, cf :: below, w⟩ (SlotRef.tmp i).named =
          orFault (cf.frame.get 0) .undeclaredSlot := readSlot_local rfl 0
      rw [hderef, hread]
      exact hcell _
    | global i =>
      have hderef : Executor.derefValue ⟨g, cf :: below, w⟩ (SlotRef.global i).reference =
          orFault (g.get i.toNat) .nullDeref := by
        simp only [SlotRef.reference, slotAddress, Executor.derefValue, toNat_widen, if_true]
      have hread : Executor.readSlot ⟨g, cf :: below, w⟩ (SlotRef.global i).named =
          orFault (g.get i.toNat) .undeclaredSlot := rfl
      rw [hderef, hread]
      exact hcell _
    | _ => cases hx

end Deref

/-! ## Uses of an operand -/

/-- What an instruction does with an operand. -/
inductive OperandUse where
  | read
  | result
  | updated
  | released
  | address
deriving DecidableEq

/-- What an opcode does with its operand at `n`. -/
def Opcode.use (op : Opcode) (n : Nat) : OperandUse :=
  if op.resultIndex = some n then .result
  else if op.updatedIndex = some n then if op = .release then .released else .updated
  else if op = .addr ∧ n = 0 then .address
  else .read

section Use

variable {op : Opcode} {n : Nat}

theorem use_eq_result (h : op.use n = .result) : op.resultIndex = some n := by
  unfold Opcode.use at h
  split at h
  · assumption
  · split at h
    · split at h <;> cases h
    · split at h <;> cases h

theorem use_eq_updated (h : op.use n = .updated) :
    op.updatedIndex = some n ∧ op ≠ .release := by
  unfold Opcode.use at h
  split at h
  · cases h
  · split at h
    · split at h
      · cases h
      · exact ⟨by assumption, by assumption⟩
    · split at h <;> cases h

theorem use_eq_released (h : op.use n = .released) : op = .release ∧ n = 0 := by
  unfold Opcode.use at h
  split at h
  · cases h
  · split at h
    · rename_i hup
      split at h
      · rename_i hrel
        rw [hrel] at hup
        cases hup
        exact ⟨hrel, rfl⟩
      · cases h
    · split at h <;> cases h

theorem use_eq_address (h : op.use n = .address) : op = .addr ∧ n = 0 := by
  unfold Opcode.use at h
  split at h
  · cases h
  · split at h
    · split at h <;> cases h
    · split at h
      · assumption
      · cases h

theorem use_eq_read (h : op.use n = .read) :
    (∀ i, op.resultIndex = some i → i ≠ n) ∧ (∀ i, op.updatedIndex = some i → i ≠ n) ∧
      (op = .addr → 0 ≠ n) := by
  unfold Opcode.use at h
  split at h
  · cases h
  · rename_i hres
    split at h
    · split at h <;> cases h
    · rename_i hup
      split at h
      · cases h
      · rename_i haddr
        refine ⟨?_, ?_, ?_⟩
        · rintro i hi rfl
          exact hres hi
        · rintro i hi rfl
          exact hup hi
        · rintro ho rfl
          exact haddr ⟨ho, rfl⟩

end Use

/-! ## The law -/

/-- Both fault alike, or both complete and leave the same in all slots. -/
def SameOutcome :
    EStateM.Result Stop (Executor ω) Action → EStateM.Result Stop (Executor ω) Action → Prop
  | .ok _ e, .ok _ e' => e.slots = e'.slots
  | .error s _, .error s' _ => s = s'
  | _, _ => False

theorem SameOutcome.refl (r : EStateM.Result Stop (Executor ω) Action) : SameOutcome r r := by
  cases r <;> rfl

/-- `ADDR x, r` has just been executed in the frame on top. -/
structure JustReferred (host : Host ω) (p : Program) (e : Executor ω) (x r : SlotRef) : Prop where
  plain : x.isPlain = true
  plainRef : r.isPlain = true
  ne : x ≠ r
  frame : e.callStack ≠ []
  run : ∃ e₀ a, executeInstruction host p ⟨.addr, [.slot x, .slot r]⟩ e₀ = .ok a e

/-- The instruction `instr` fares the same on `e` with `&r` as with `x` as its operand at `n`. -/
def SameThrough (host : Host ω) (p : Program) (e : Executor ω) (x r : SlotRef)
    (instr : Instruction) (n : Nat) : Prop :=
  executeInstruction host p (instr.withOperand n (.slot r.deref)) e =
    executeInstruction host p (instr.withOperand n (.slot x)) e

/-- All instructions have the same outcome on `e` with `&r` as with `x` as an operand of the
use. -/
def Transparent (host : Host ω) (p : Program) (e : Executor ω) (x r : SlotRef)
    (u : OperandUse) : Prop :=
  ∀ (instr : Instruction) n, instr.opcode.use n = u →
    SameOutcome (executeInstruction host p (instr.withOperand n (.slot r.deref)) e)
      (executeInstruction host p (instr.withOperand n (.slot x)) e)

/-- When `&r` stands for `x`. -/
def TransparentWhen (e : Executor ω) (x : SlotRef) : OperandUse → Prop
  -- the slot that is named holds what `x` holds
  | .read => ∃ v, e.readSlot x = .ok v ∧ e.readSlot x.named = .ok v
  -- `x` is no `TMP` register
  | .result => x.named = x
  -- `x` holds a value that cannot be updated in place
  | .updated => ∃ v, e.readSlot x = .ok v ∧ v.updatable = false
  -- there is nothing to release in `x`
  | .released => ∀ v, e.readSlot x ≠ .ok v
  -- `x` is local 0 or a `TMP` register
  | .address => x.named = .local_ 0

/-! ## Where it holds -/

/-- What a slot reads as is what its place holds. -/
theorem readSlot_of_place {e : Executor ω} {s : SlotRef} (hs : s.isPlain = true) {q : Place}
    {v : Value} (hq : s.place e = some q) (h : q.get e = some v) : e.readSlot s = .ok v := by
  obtain ⟨g, stack, w⟩ := e
  cases s with
  | local_ i =>
    cases hq
    cases stack with
    | nil => cases h
    | cons cf below =>
      have hget : cf.frame.get i.toNat = some v := h
      rw [readSlot_local rfl, hget]
      rfl
  | tmp i =>
    cases hq
    cases stack with
    | nil => cases h
    | cons cf below =>
      have hreg : cf.register 0 i.toNat = some v := h
      rw [readSlot_tmp rfl, tmpSlot_eq, hreg, if_pos]
      · rfl
      · unfold CallFrame.register at hreg
        obtain ⟨f, hf, hreg⟩ := Option.bind_eq_some_iff.mp hreg
        obtain ⟨hlen, -⟩ := List.getElem?_eq_some_iff.mp hf
        refine ⟨hlen, Nat.lt_of_not_le fun hi => ?_⟩
        rw [Vector.getElem?_eq_none hi] at hreg
        cases hreg
  | global i =>
    cases hq
    have hget : g.get i.toNat = some v := h
    simp only [Executor.readSlot, hget]
    rfl
  | _ => cases hs

/-- The place of a slot is the same in all executors. -/
theorem place_of_plain {e e' : Executor ω} {s : SlotRef} (hs : s.isPlain = true) :
    s.place e = s.place e' := by
  cases s with
  | local_ | tmp | global => rfl
  | _ => cases hs

section Law

variable {host : Host ω} {p : Program} {e : Executor ω} {x r : SlotRef} {instr : Instruction}
  {n : Nat}

/-- The reference is in its slot. -/
theorem JustReferred.readSlot (h : JustReferred host p e x r) : e.readSlot r = .ok x.reference := by
  obtain ⟨e₀, a, hrun⟩ := h.run
  obtain ⟨op₀, h₀, hrun⟩ := getOp_bind_eq_ok hrun
  obtain ⟨op₁, h₁, hrun⟩ := getOp_bind_eq_ok hrun
  obtain ⟨u, e₁, hw, hpure⟩ := bind_run_eq_ok hrun
  cases h₀
  cases h₁
  cases hpure
  obtain ⟨q, hq, hget, hch⟩ := writeOperand_ok hw
  exact readSlot_of_place h.plainRef ((place_of_plain h.plainRef).trans hq) hget

/-- The operand does not matter where there is none. -/
theorem withOperand_of_le {op : Operand} (h : instr.operands.length ≤ n) :
    instr.withOperand n op = instr := by
  unfold Instruction.withOperand
  rw [List.set_eq_of_length_le h]

/-- Where the reference names `x` itself, a write through it writes `x`. -/
theorem writeVal_deref_reference (hx : x.isPlain = true) (hr : r.isPlain = true)
    (hread : e.readSlot r = .ok x.reference) (hnamed : x.named = x) (v : Value) :
    writeVal (.slot r.deref) v e = writeVal (.slot x) v e := by
  show writeSlot r.deref v e = writeSlot x v e
  rw [writeSlot_deref hr, reads_bind_ok hread, derefWrite_reference hx, hnamed]

/-- Reads. -/
theorem sameThrough_read (h : JustReferred host p e x r) (hn : instr.opcode.use n = .read)
    (hw : TransparentWhen e x .read) : SameThrough host p e x r instr n := by
  obtain ⟨hres, hup, haddr⟩ := use_eq_read hn
  obtain ⟨v, hv, hnamed⟩ := hw
  refine executeInstruction_agrees host p hres hup haddr ?_
  have hbind : (e.readSlot r >>= fun c => e.derefValue c) = e.derefValue x.reference := by
    rw [h.readSlot]
    rfl
  rw [readSlot_deref h.plainRef, hbind, hv]
  rcases derefValue_reference h.plain h.frame with ⟨v', hv', hderef⟩ | ⟨hno, -⟩
  · rw [hderef, ← hv', hnamed]
  · exact absurd hnamed (hno v)

/-- Results. -/
theorem sameThrough_result (h : JustReferred host p e x r) (hn : instr.opcode.use n = .result)
    (hnamed : TransparentWhen e x .result) : SameThrough host p e x r instr n := by
  have hn := use_eq_result hn
  by_cases hlen : instr.operands.length ≤ n
  · unfold SameThrough
    rw [withOperand_of_le hlen, withOperand_of_le hlen]
  have hlen : n < instr.operands.length := Nat.lt_of_not_le hlen
  have hwrite {e₁ : Executor ω} (hread : e₁.readSlot r = .ok x.reference) (y : Value) :
      (writeVal (.slot r.deref) y >>= fun _ => pure Action.continue_) e₁ =
        (writeVal (.slot x) y >>= fun _ => pure Action.continue_) e₁ := by
    have hval := writeVal_deref_reference h.plain h.plainRef hread hnamed y
    cases hw : writeVal (.slot x) y e₁ with
    | ok u e₂ => rw [bind_run_ok (hval.trans hw), bind_run_ok hw]
    | error s e₂ => rw [bind_run_error (hval.trans hw), bind_run_error hw]
  by_cases htake : instr.opcode.takesOut = true
  · obtain ⟨o, operands⟩ := instr
    obtain rfl : n = 1 := by
      cases o with
      | pop | dequeue | popBack => cases hn; rfl
      | _ => cases htake
    obtain ⟨f, hf, -, hpop⟩ := executeInstruction_takes htake
    have hrun (op : Operand) :
        executeInstruction host p (Instruction.withOperand ⟨o, operands⟩ 1 op) e =
          popOp (Instruction.withOperand ⟨o, operands⟩ 1 op) f e := congrFun (hpop host p _) e
    unfold SameThrough
    rw [hrun, hrun]
    rcases popOp_cases ⟨o, operands⟩ Nat.one_ne_zero f e with ⟨s, hs⟩ | ⟨coll, y, e₁, -, htaken, hy⟩
    · rw [hs, hs]
    · -- the reference is still in its slot: nothing can be taken out of it
      have hread : e₁.readSlot r = .ok x.reference := by
        obtain ⟨t, v, v', rfl, hplain, hv, hfv, -, hother⟩ := writeTargetMut_ok htaken
        rw [hother r h.plainRef, h.readSlot]
        rintro rfl
        cases hv.symm.trans h.readSlot
        exact (hf.noRef _ _ hfv _ _).1 rfl
      have hput (op : Operand) : putSecond (Instruction.withOperand ⟨o, operands⟩ 1 op) y e₁ =
          (writeVal op y >>= fun _ => pure Action.continue_) e₁ :=
        reads_bind_ok (f := fun _ => Instruction.getOp _ 1) (getOp_withOperand_self hlen)
      rw [hy, hy, hput, hput]
      exact hwrite hread y
  · have hlast := executeInstruction_writesLast host p hn (Bool.not_eq_true _ ▸ htake) hlen
    unfold SameThrough
    rcases hlast.stops_or_acts e with ⟨s, hs⟩ | ⟨y, -, hy⟩
    · rw [hs, hs]
    · rw [hy, hy]
      exact hwrite h.readSlot y

/-- An update that fails on what the slot holds. -/
theorem writeTargetMut_of_error {f : Value → Except Stop (α × Value)} (hx : x.isPlain = true)
    {v : Value} (hv : e.readSlot x = .ok v) {s : Stop} (hf : f v = .error s) :
    writeTargetMut (.slot x) f e = .error s e := by
  obtain ⟨g, stack, w⟩ := e
  cases x with
  | local_ i =>
    cases stack with
    | nil => cases hv
    | cons cf below =>
      rw [readSlot_local rfl] at hv
      simp only [writeTargetMut, onLast, hv, bind, Except.bind, hf]
  | tmp i =>
    cases stack with
    | nil => cases hv
    | cons cf below =>
      rw [readSlot_tmp rfl] at hv
      obtain ⟨o, ho, hv⟩ := bind_eq_ok hv
      simp only [writeTargetMut, onLast, ho, hv, bind, Except.bind, hf]
  | global i =>
    have hv : orFault (g.get i.toNat) .undeclaredSlot = .ok v := hv
    simp only [writeTargetMut, onGlobals, hv, bind, Except.bind, hf]
  | _ => cases hx

/-- An update of a slot that cannot be read. -/
theorem writeTargetMut_unread {f : Value → Except Stop (α × Value)} (hx : x.isPlain = true)
    (hne : e.callStack ≠ []) {s : Stop} (hs : e.readSlot x = .error s) :
    writeTargetMut (.slot x) f e = .error s e := by
  obtain ⟨g, stack, w⟩ := e
  cases stack with
  | nil => exact absurd rfl hne
  | cons cf below =>
    cases x with
    | local_ i =>
      rw [readSlot_local rfl] at hs
      simp only [writeTargetMut, onLast, hs, bind, Except.bind]
    | tmp i =>
      rw [readSlot_tmp rfl] at hs
      cases ho : cf.tmpSlot i with
      | error s' =>
        rw [ho] at hs
        cases hs
        simp only [writeTargetMut, onLast, ho, bind, Except.bind]
      | ok o =>
        rw [ho] at hs
        have hs : orFault o .undeclaredSlot = .error s := hs
        simp only [writeTargetMut, onLast, ho, hs, bind, Except.bind]
    | global i =>
      have hs : orFault (g.get i.toNat) .undeclaredSlot = .error s := hs
      simp only [writeTargetMut, onGlobals, hs, bind, Except.bind]
    | _ => cases hx

/-- Updates in place. -/
theorem sameThrough_updated (h : JustReferred host p e x r) (hn : instr.opcode.use n = .updated)
    (hw : TransparentWhen e x .updated) : SameThrough host p e x r instr n := by
  obtain ⟨hn, hrel⟩ := use_eq_updated hn
  obtain ⟨v, hv, hup⟩ := hw
  by_cases hlen : instr.operands.length ≤ n
  · unfold SameThrough
    rw [withOperand_of_le hlen, withOperand_of_le hlen]
  have hlen : n < instr.operands.length := Nat.lt_of_not_le hlen
  have hdecline {β : Type} {f : Value → Except Stop (β × Value)} (hf : Declines f) :
      writeTargetMut (.slot r.deref) f e = writeTargetMut (.slot x) f e := by
    rw [writeTargetMut_of_error h.plain hv (hf v hup), writeTargetMut_deref h.plainRef]
    rfl
  unfold SameThrough
  by_cases htake : instr.opcode.takesOut = true
  · obtain ⟨o, operands⟩ := instr
    obtain rfl : n = 0 := by
      cases o with
      | pop | dequeue | popBack => cases hn; rfl
      | _ => cases htake
    obtain ⟨f, -, hf, hpop⟩ := executeInstruction_takes htake
    have hrun (op : Operand) (hop : writeTargetMut op f e = .error (.fault .typeMismatch) e) :
        executeInstruction host p (Instruction.withOperand ⟨o, operands⟩ 0 op) e =
          .error (.fault .typeMismatch) e := by
      refine (congrFun (hpop host p _) e).trans ?_
      refine (reads_bind_ok (f := fun _ => Instruction.getOp _ 0) ?_).trans (bind_run_error hop)
      exact getOp_withOperand_self hlen
    have hx := writeTargetMut_of_error h.plain hv (hf v hup)
    rw [hrun _ hx, hrun _ ((hdecline hf).trans hx)]
  · have hlast := executeInstruction_updatesLast host p hn (Bool.not_eq_true _ ▸ htake) hrel hlen
    rcases hlast.stops_or_acts e with ⟨s, hs⟩ | ⟨f, hf, hy⟩
    · rw [hs, hs]
    · have hx := writeTargetMut_of_error h.plain hv (hf v hup)
      rw [hy, hy, bind_run_error ((hdecline hf).trans hx), bind_run_error hx]

theorem remove_of_none {s : Slots} {i : Nat} (h : s.get i = none) : s.remove i = s := by
  obtain ⟨slots⟩ := s
  unfold Slots.remove
  congr 1
  by_cases hi : i < slots.length
  · have hnone : slots[i] = none := by
      have hget : slots[i]?.join = none := h
      rwa [List.getElem?_eq_getElem hi, Option.join_some] at hget
    rw [← hnone, List.set_getElem_self]
  · exact List.set_eq_of_length_le (Nat.le_of_not_lt hi)

/-- Setting a `TMP` register to what it holds. -/
theorem setTmpSlot_self {cf : CallFrame} {i : U8} {o : Option Value} (h : cf.tmpSlot i = .ok o) :
    cf.setTmpSlot i o = .ok cf := by
  unfold CallFrame.tmpSlot at h
  unfold CallFrame.setTmpSlot
  obtain ⟨_, _, _, _, _, _, tmpFrames⟩ := cf
  cases tmpFrames with
  | nil => cases h
  | cons f fs =>
    simp only at h ⊢
    split at h
    case isTrue hi =>
      cases h
      rw [dif_pos hi, Vector.set_getElem_self]
    case isFalse => cases h

/-- A release of a slot with nothing in it. -/
theorem releaseOperand_unread (hx : x.isPlain = true) (hno : ∀ v, e.readSlot x ≠ .ok v) :
    releaseOperand (.slot x) e = .ok () e := by
  have hget {o : Option Value} {f : Fault} (h : ∀ v, orFault o f ≠ .ok v) : o = none := by
    cases o with
    | none => rfl
    | some v => exact absurd rfl (h v)
  obtain ⟨g, stack, w⟩ := e
  cases x with
  | local_ i =>
    cases stack with
    | nil => rfl
    | cons cf below =>
      rw [readSlot_local rfl] at hno
      show EStateM.Result.ok () _ = _
      simp only [remove_of_none (hget hno)]
  | tmp i =>
    cases stack with
    | nil => rfl
    | cons cf below =>
      rw [readSlot_tmp rfl] at hno
      rcases setTmpSlot_cases cf i none with ⟨cf', o, hset, ho⟩ | ⟨hset, -⟩
      · rw [ho] at hno
        obtain rfl : o = none := hget hno
        obtain rfl : cf = cf' := Except.ok.inj ((setTmpSlot_self ho).symm.trans hset)
        exact releaseOperand_tmp hset
      · exact releaseOperand_tmp_error hset
  | global i =>
    have hno : ∀ v, orFault (g.get i.toNat) .undeclaredSlot ≠ .ok v := hno
    show EStateM.Result.ok () _ = _
    simp only [remove_of_none (hget hno)]
  | _ => cases hx

/-- Releases. -/
theorem sameThrough_released (h : JustReferred host p e x r)
    (hn : instr.opcode.use n = .released) (hw : TransparentWhen e x .released) :
    SameThrough host p e x r instr n := by
  obtain ⟨o, operands⟩ := instr
  obtain ⟨ho, rfl⟩ := use_eq_released hn
  obtain rfl : o = .release := ho
  by_cases hlen : operands.length ≤ 0
  · unfold SameThrough
    rw [withOperand_of_le hlen, withOperand_of_le hlen]
  have hrun (op : Operand) :
      executeInstruction host p (Instruction.withOperand ⟨.release, operands⟩ 0 op) e =
        (releaseOperand op >>= fun _ => pure .continue_) e :=
    reads_bind_ok (f := fun _ => Instruction.getOp _ 0)
      (getOp_withOperand_self (Nat.lt_of_not_le hlen))
  unfold SameThrough
  rw [hrun, hrun, releaseOperand_deref h.plainRef,
    bind_run_ok (releaseOperand_unread h.plain hw)]
  rfl

/-- What the reference to a slot is, if it names local 0. -/
theorem slotAddress_of_named (hx : x.isPlain = true) :
    x.named = .local_ 0 ↔ slotAddress (.slot x) = (false, 0) := by
  cases x with
  | local_ i =>
    constructor
    · intro h
      cases h
      rfl
    · intro h
      have hi : i.setWidth 32 = (0 : U32) := (Prod.mk.inj h).2
      have hi : i = 0 := by
        apply BitVec.eq_of_toNat_eq
        have hnat := congrArg BitVec.toNat hi
        rw [BitVec.toNat_setWidth] at hnat
        have hlt := i.isLt
        simp at hnat ⊢
        omega
      rw [hi]
      rfl
  | tmp i => exact iff_of_true rfl rfl
  | global i => exact iff_of_false nofun nofun
  | _ => cases hx

/-- Addresses. -/
theorem sameThrough_address (h : JustReferred host p e x r)
    (hn : instr.opcode.use n = .address) (hw : TransparentWhen e x .address) :
    SameThrough host p e x r instr n := by
  obtain ⟨o, operands⟩ := instr
  obtain ⟨ho, rfl⟩ := use_eq_address hn
  obtain rfl : o = .addr := ho
  have haddr : slotAddress (.slot r.deref) = slotAddress (.slot x) :=
    (slotAddress_deref h.plainRef).trans ((slotAddress_of_named h.plain).mp hw).symm
  by_cases hlen : operands.length ≤ 0
  · unfold SameThrough
    rw [withOperand_of_le hlen, withOperand_of_le hlen]
  have hrun (op : Operand) :
      executeInstruction host p (Instruction.withOperand ⟨.addr, operands⟩ 0 op) e =
        ((liftM (Instruction.getOp ⟨.addr, operands⟩ 1) : ExecM ω Operand) >>= fun dst =>
          writeVal dst (.refMut (slotAddress op).1 (slotAddress op).2) >>=
            fun _ => pure .continue_) e := by
    refine (reads_bind_ok (f := fun _ => Instruction.getOp _ 0)
      (getOp_withOperand_self (Nat.lt_of_not_le hlen))).trans ?_
    rw [getOp_withOperand_ne Nat.one_ne_zero]
  unfold SameThrough
  rw [hrun, hrun, haddr]

/-- Under the condition, `&r` stands for `x` in every instruction. -/
theorem sameThrough_of_when (h : JustReferred host p e x r)
    (hw : TransparentWhen e x (instr.opcode.use n)) : SameThrough host p e x r instr n := by
  cases hn : instr.opcode.use n with
  | read => exact sameThrough_read h hn (hn ▸ hw)
  | result => exact sameThrough_result h hn (hn ▸ hw)
  | updated => exact sameThrough_updated h hn (hn ▸ hw)
  | released => exact sameThrough_released h hn (hn ▸ hw)
  | address => exact sameThrough_address h hn (hn ▸ hw)

end Law

end Fasm
