import Fasm.Vm.TargetOperand

/-!
# Instructions whose target is refused

A write through an immutable reference raises `WriteAccessViolation` and changes nothing.
An update in place takes no dereference as its operand at all and raises `TypeMismatch`,
`RELEASE` of one does nothing, and `POP`, `DEQUEUE` and `POP_BACK` have changed the
collection by the time the write is refused.
-/

namespace Fasm

open ExecM

variable {ω : Type} {α β : Type}

namespace Instruction

/-- The operand at `n` is the dereference of the local `i`, and the instruction writes, updates
or releases it. -/
structure Aims (instr : Instruction) (n : Nat) (i : U8) : Prop where
  deref : instr.operands[n]? = some (.slot (.derefLocal i))
  target : instr.opcode.resultIndex = some n ∨ instr.opcode.updatedIndex = some n

/-- Whatever its operand at `n` is, the instruction stops with `s` and has changed nothing. -/
def StopsBefore (host : Host ω) (p : Program) (instr : Instruction) (n : Nat) (e : Executor ω)
    (s : Stop) : Prop :=
  ∀ op, executeInstruction host p (instr.withOperand n op) e = .error s e

/-- The instruction changes no slot, and raises `WriteAccessViolation` or faults before it gets
to write through the local `i`. -/
def Refused (host : Host ω) (p : Program) (instr : Instruction) (n : Nat) (i : U8)
    (e : Executor ω) : Prop :=
  ∃ f e', executeInstruction host p instr e = .error (.fault f) e' ∧ e'.memory = e.memory ∧
    (f = .writeAccessViolation ∨ StopsBefore host p instr n e (.fault f) ∨
      (Place.local_ i.toNat).get e = none ∧ f = .undeclaredSlot)

end Instruction

/-- Nothing, or an immutable reference. -/
def ReadOnly (o : Option Value) : Prop := ∀ v, o = some v → ∃ g j, v = .refImm g j

theorem readOnly_none : ReadOnly none := nofun

theorem readOnly_refImm (g : Bool) (j : U32) : ReadOnly (some (.refImm g j)) := by
  intro v hv
  cases hv
  exact ⟨g, j, rfl⟩

/-! ## A dereference as the target -/

section Deref

variable {e : Executor ω} {i : U8} {x : Value}

theorem writeVal_deref_none (hne : e.callStack ≠ []) (h : (Place.local_ i.toNat).get e = none) :
    writeVal (.slot (.derefLocal i)) x e = .error (.fault .undeclaredSlot) e := by
  refine reads_bind_error (f := fun e => e.readSlot (.local_ i)) ?_
  obtain ⟨g, stack, w⟩ := e
  cases stack with
  | nil => exact absurd rfl hne
  | cons cf below =>
    have hget : cf.frame.get i.toNat = none := h
    rw [readSlot_local rfl, hget]
    rfl

theorem writeVal_deref {c : Value} (h : (Place.local_ i.toNat).get e = some c) :
    writeVal (.slot (.derefLocal i)) x e = derefWrite c x e := by
  refine reads_bind_ok (f := fun e => e.readSlot (.local_ i)) ?_
  obtain ⟨g, stack, w⟩ := e
  cases stack with
  | nil => cases h
  | cons cf below =>
    have hget : cf.frame.get i.toNat = some c := h
    rw [readSlot_local rfl, hget]
    rfl

/-- A write through a slot raises `WriteAccessViolation`, or `UndeclaredSlot` for want of a
reference, exactly when the slot holds nothing but an immutable reference. -/
theorem writeVal_deref_iff (hne : e.callStack ≠ []) :
    (∃ f, writeVal (.slot (.derefLocal i)) x e = .error (.fault f) e ∧
      (f = .writeAccessViolation ∨
        (Place.local_ i.toNat).get e = none ∧ f = .undeclaredSlot)) ↔
      ReadOnly ((Place.local_ i.toNat).get e) := by
  cases h : (Place.local_ i.toNat).get e with
  | none =>
    rw [writeVal_deref_none hne h]
    exact iff_of_true ⟨.undeclaredSlot, rfl, .inr ⟨rfl, rfl⟩⟩ readOnly_none
  | some c =>
    rw [writeVal_deref h]
    constructor
    · rintro ⟨f, hrun, rfl | ⟨hnone, -⟩⟩
      · cases c with
        | refImm g j => exact readOnly_refImm g j
        | refMut g j => exact absurd rfl (faultsOn_derefWrite.mp ⟨_, _, hrun⟩ g j)
        | _ => cases hrun
      · cases hnone
    · intro hro
      obtain ⟨g, j, rfl⟩ := hro c rfl
      exact ⟨.writeAccessViolation, rfl, .inl rfl⟩

end Deref

/-! ## When the target is refused -/

section Refused

variable {host : Host ω} {p : Program} {instr : Instruction} {n : Nat} {i : U8} {e : Executor ω}

/-- What stops before it gets to the operand is refused exactly when it faults. -/
theorem refused_of_stops {s : Stop} (ht : instr.operands[n]? = some (.slot (.derefLocal i)))
    (h : instr.StopsBefore host p n e s) :
    instr.Refused host p n i e ↔ ∃ f, instr.StopsBefore host p n e (.fault f) := by
  have hrun : executeInstruction host p instr e = .error s e := by
    rw [← withOperand_self ht]
    exact h _
  constructor
  · rintro ⟨f, e', hrun', -⟩
    cases hrun.symm.trans hrun'
    exact ⟨f, h⟩
  · rintro ⟨f, hf⟩
    refine ⟨f, e, ?_, rfl, .inr (.inl hf)⟩
    rw [← withOperand_self ht]
    exact hf _

/-- Two operands with which the instruction fares differently. -/
theorem not_stopsBefore {s : Stop} (op : Operand)
    (h : executeInstruction host p (instr.withOperand n op) e ≠ .error s e) :
    ¬ instr.StopsBefore host p n e s := fun hs => h (hs op)

/-- `$ret` can be written. -/
theorem writeVal_ret (hne : e.callStack ≠ []) (x : Value) :
    ∃ e', writeVal (.slot (.builtIn .ret)) x e = .ok () e' := by
  obtain ⟨g, stack, w⟩ := e
  cases stack with
  | nil => exact absurd rfl hne
  | cons cf below => exact ⟨_, rfl⟩

/-- There is no `TMP` register 255. -/
theorem writeTargetMut_tmp (hne : e.callStack ≠ []) (f : Value → Except Stop (α × Value)) :
    writeTargetMut (.slot (.tmp 255)) f e = .error (.fault .indexOutOfBounds) e := by
  obtain ⟨g, stack, w⟩ := e
  cases stack with
  | nil => exact absurd rfl hne
  | cons cf below =>
    have htmp : cf.tmpSlot 255 = .error (.fault .indexOutOfBounds) := by
      rw [tmpSlot_eq, if_neg (by rintro ⟨-, h⟩; revert h; decide)]
    simp only [writeTargetMut, onLast, htmp]
    rfl

/-- An instruction that writes its result last. -/
theorem refused_write (hne : e.callStack ≠ [])
    (ht : instr.operands[n]? = some (.slot (.derefLocal i)))
    (h : WritesLast fun op => executeInstruction host p (instr.withOperand n op)) :
    instr.Refused host p n i e ↔ (∃ f, instr.StopsBefore host p n e (.fault f)) ∨
      (∀ s, ¬ instr.StopsBefore host p n e s) ∧ ReadOnly ((Place.local_ i.toNat).get e) := by
  rcases h.stops_or_acts e with ⟨s, hs⟩ | ⟨x, -, hx⟩
  · have hstops : instr.StopsBefore host p n e s := hs
    exact (refused_of_stops ht hstops).trans
      (or_iff_left fun hro => hro.1 s hstops).symm
  have hgoes : ∀ s, ¬ instr.StopsBefore host p n e s := by
    intro s
    obtain ⟨e', hw⟩ := writeVal_ret hne x
    refine not_stopsBefore (.slot (.builtIn .ret)) ?_
    rw [hx, bind_run_ok hw]
    exact nofun
  have hrun : executeInstruction host p instr e =
      (writeVal (.slot (.derefLocal i)) x >>= fun _ => pure .continue_) e := by
    rw [← hx, withOperand_self ht]
  rw [or_iff_right fun ⟨f, hf⟩ => hgoes _ hf, and_iff_right hgoes, ← writeVal_deref_iff hne]
  unfold Instruction.Refused
  rw [hrun]
  constructor
  · rintro ⟨f, e', herr, -, hf⟩
    cases hw : writeVal (.slot (.derefLocal i)) x e with
    | ok u e₁ =>
      rw [bind_run_ok hw] at herr
      cases herr
    | error s e₁ =>
      rw [bind_run_error hw] at herr
      cases herr
      obtain rfl := Unharmed.writeVal _ _ _ _ _ hw
      exact ⟨f, rfl, hf.imp_right fun hf => hf.resolve_left (hgoes _)⟩
  · rintro ⟨f, hw, hf⟩
    exact ⟨f, e, bind_run_error hw, rfl, hf.imp_right .inr⟩

/-- What raises `TypeMismatch` for the dereference, and fares otherwise with another operand, is
not refused. -/
theorem refused_of_mismatch (ht : instr.operands[n]? = some (.slot (.derefLocal i)))
    (hrun : executeInstruction host p instr e = .error (.fault .typeMismatch) e)
    (hgoes : ¬ instr.StopsBefore host p n e (.fault .typeMismatch)) :
    instr.Refused host p n i e ↔ ∃ f, instr.StopsBefore host p n e (.fault f) := by
  refine iff_of_false ?_ ?_
  · rintro ⟨f, e', herr, -, hf⟩
    cases hrun.symm.trans herr
    rcases hf with hf | hf | ⟨-, hf⟩
    · cases hf
    · exact hgoes hf
    · cases hf
  · rintro ⟨f, hf⟩
    have herr := hf (.slot (.derefLocal i))
    rw [withOperand_self ht] at herr
    cases hrun.symm.trans herr
    exact hgoes hf

/-- An instruction that updates the operand last: no dereference can be updated. -/
theorem refused_update (hne : e.callStack ≠ [])
    (ht : instr.operands[n]? = some (.slot (.derefLocal i)))
    (h : UpdatesLast fun op => executeInstruction host p (instr.withOperand n op)) :
    instr.Refused host p n i e ↔ ∃ f, instr.StopsBefore host p n e (.fault f) := by
  rcases h.stops_or_acts e with ⟨s, hs⟩ | ⟨x, -, hx⟩
  · exact refused_of_stops ht hs
  refine refused_of_mismatch ht ?_ (not_stopsBefore (.slot (.tmp 255)) ?_)
  · rw [← withOperand_self ht, hx]
    rfl
  · rw [hx, bind_run_error (writeTargetMut_tmp hne x)]
    exact nofun

/-- `RELEASE` of a dereference does nothing. -/
theorem refused_release (hop : instr.opcode = .release)
    (ht : instr.operands[0]? = some (.slot (.derefLocal i))) :
    instr.Refused host p 0 i e ↔ ∃ f, instr.StopsBefore host p 0 e (.fault f) := by
  have hrun : executeInstruction host p instr e = .ok .continue_ e := by
    obtain ⟨op, operands⟩ := instr
    obtain rfl : op = .release := hop
    exact reads_bind_ok (f := fun _ => Instruction.getOp _ 0) (getOp_of_some ht)
  refine iff_of_false ?_ ?_
  · rintro ⟨f, e', herr, -⟩
    cases hrun.symm.trans herr
  · rintro ⟨f, hf⟩
    have herr := hf (.slot (.derefLocal i))
    rw [withOperand_self ht] at herr
    cases hrun.symm.trans herr

/-- What takes an element out and is to write it through the local. -/
theorem refused_take (htake : instr.opcode.takesOut = true)
    (ht : instr.operands[1]? = some (.slot (.derefLocal i))) :
    instr.Refused host p 1 i e ↔ ∃ f, instr.StopsBefore host p 1 e (.fault f) := by
  obtain ⟨o, operands⟩ := instr
  obtain ⟨f, hf, -, hpop⟩ := executeInstruction_takes htake
  rcases popOp_cases ⟨o, operands⟩ Nat.one_ne_zero f e with ⟨s, hs⟩ | ⟨_, x, e₁, -, htaken, hx⟩
  · exact refused_of_stops ht fun op => (congrFun (hpop host p _) e).trans (hs op)
  have hmem : e₁.memory ≠ e.memory := hf.memory_ne htaken
  have hrun (op : Operand) :
      executeInstruction host p (Instruction.withOperand ⟨o, operands⟩ 1 op) e =
        putSecond (Instruction.withOperand ⟨o, operands⟩ 1 op) x e₁ :=
    (congrFun (hpop host p _) e).trans (hx op)
  refine iff_of_false ?_ ?_
  · rintro ⟨f', e', herr, hsame, -⟩
    rw [← withOperand_self ht, hrun] at herr
    exact hmem (putSecond_unharmed x e₁ _ e' herr ▸ hsame)
  · rintro ⟨f', hf'⟩
    have herr := hf' (.slot (.derefLocal i))
    rw [hrun] at herr
    exact hmem (putSecond_unharmed x e₁ _ e herr ▸ rfl)

/-- What takes an element out of a dereference. -/
theorem refused_takeFrom (hne : e.callStack ≠ []) (htake : instr.opcode.takesOut = true)
    (ht : instr.operands[0]? = some (.slot (.derefLocal i))) :
    instr.Refused host p 0 i e ↔ ∃ f, instr.StopsBefore host p 0 e (.fault f) := by
  have hlen : 0 < instr.operands.length := (List.getElem?_eq_some_iff.mp ht).1
  obtain ⟨o, operands⟩ := instr
  obtain ⟨f, -, -, hpop⟩ := executeInstruction_takes htake
  have hrun {op : Operand} {s : Stop} (h : writeTargetMut op f e = .error s e) :
      executeInstruction host p (Instruction.withOperand ⟨o, operands⟩ 0 op) e = .error s e := by
    refine (congrFun (hpop host p _) e).trans ?_
    refine (reads_bind_ok (f := fun _ => Instruction.getOp _ 0) ?_).trans (bind_run_error h)
    exact getOp_withOperand_self hlen
  refine refused_of_mismatch ht ?_ (not_stopsBefore (.slot (.tmp 255)) ?_)
  · rw [← withOperand_self ht]
    exact hrun rfl
  · rw [hrun (writeTargetMut_tmp hne f)]
    exact nofun

/-- **When the target is refused.**  An instruction whose target is the dereference of a local is
refused exactly when it faults before it gets there, or comes to write its result there, without
having taken an element out for it, and the local holds nothing but an immutable reference. -/
theorem refused_iff (host : Host ω) (p : Program) (hne : e.callStack ≠ []) (h : instr.Aims n i) :
    instr.Refused host p n i e ↔ (∃ f, instr.StopsBefore host p n e (.fault f)) ∨
      instr.opcode.resultIndex = some n ∧ instr.opcode.takesOut = false ∧
        (∀ s, ¬ instr.StopsBefore host p n e s) ∧ ReadOnly ((Place.local_ i.toNat).get e) := by
  obtain ⟨ht, hn⟩ := h
  have hlen : n < instr.operands.length := (List.getElem?_eq_some_iff.mp ht).1
  by_cases htake : instr.opcode.takesOut = true
  · have hno : ¬ (instr.opcode.resultIndex = some n ∧ instr.opcode.takesOut = false ∧
        (∀ s, ¬ instr.StopsBefore host p n e s) ∧ ReadOnly ((Place.local_ i.toNat).get e)) := by
      rintro ⟨-, hfalse, -⟩
      rw [htake] at hfalse
      cases hfalse
    rw [or_iff_left hno]
    obtain rfl | rfl : n = 1 ∨ n = 0 := by
      obtain ⟨o, operands⟩ := instr
      cases o with
      | pop | dequeue | popBack => exact hn.imp (fun h => by cases h; rfl) fun h => by cases h; rfl
      | _ => cases htake
    · exact refused_take htake ht
    · exact refused_takeFrom hne htake ht
  have htake : instr.opcode.takesOut = false := Bool.not_eq_true _ ▸ htake
  rcases hn with hn | hn
  · rw [refused_write hne ht (executeInstruction_writesLast host p hn htake hlen)]
    simp only [hn, htake, true_and]
  have hres : instr.opcode.resultIndex = none := by
    obtain ⟨o, operands⟩ := instr
    cases o with
    | pop | dequeue | popBack => cases htake
    | _ => first | rfl | cases hn
  rw [or_iff_left fun h => by rw [hres] at h; cases h.1]
  by_cases hrel : instr.opcode = .release
  · obtain rfl : n = 0 := by rw [hrel] at hn; cases hn; rfl
    exact refused_release hrel ht
  · exact refused_update hne ht (executeInstruction_updatesLast host p hn htake hrel hlen)

end Refused

end Fasm
