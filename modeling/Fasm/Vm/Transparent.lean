import Fasm.Vm.Dereference

/-!
# When a dereference stands for its slot

In each use of an operand, instructions that tell `&r` and `x` apart show that the
condition under which they are the same is the exact one.
-/

namespace Fasm

open ExecM

variable {ω : Type} {α : Type}

section Law

variable {host : Host ω} {p : Program} {e : Executor ω} {x r : SlotRef} {instr : Instruction}
  {n : Nat}

/-! ## Where it fails -/

/-- The faults of a read of a slot. -/
theorem readSlot_faults (hx : x.isPlain = true) (hne : e.callStack ≠ []) {s : Stop}
    (h : e.readSlot x = .error s) :
    s = .fault .undeclaredSlot ∨ s = .fault .indexOutOfBounds := by
  have hcell {o : Option Value} (h : orFault o .undeclaredSlot = .error s) :
      s = .fault .undeclaredSlot := by
    cases o with
    | none => cases h; rfl
    | some v => cases h
  obtain ⟨g, stack, w⟩ := e
  cases stack with
  | nil => exact absurd rfl hne
  | cons cf below =>
    cases x with
    | local_ i => exact .inl (hcell ((readSlot_local rfl i).symm.trans h))
    | tmp i =>
      rw [readSlot_tmp rfl, tmpSlot_eq] at h
      split at h
      · exact .inl (hcell h)
      · cases h
        exact .inr rfl
    | global i => exact .inl (hcell h)
    | _ => cases hx

/-- A `MOV` into local 0 shows what an operand reads as. -/
theorem mov_run {s : SlotRef} {cf : CallFrame} {below : List CallFrame}
    (hstack : e.callStack = cf :: below) :
    executeInstruction host p ⟨.mov, [.slot s, .slot (.local_ 0)]⟩ e =
      match e.readSlot s with
      | .ok v =>
        .ok .continue_ { e with callStack := { cf with frame := cf.frame.set 0 v } :: below }
      | .error st => .error st e := by
  obtain ⟨g, stack, w⟩ := e
  obtain rfl : stack = cf :: below := hstack
  cases hs : Executor.readSlot ⟨g, cf :: below, w⟩ s with
  | ok v => exact reads_bind_ok (f := fun e => e.readSlot s) hs
  | error st => exact reads_bind_error (f := fun e => e.readSlot s) hs

/-- Local 0 after two writes to it. -/
theorem eq_of_slots {g : GlobalRegister} {cf : CallFrame} {below : List CallFrame} {w : ω}
    {v v' : Value}
    (h : Executor.slots ⟨g, { cf with frame := cf.frame.set 0 v } :: below, w⟩ =
      Executor.slots ⟨g, { cf with frame := cf.frame.set 0 v' } :: below, w⟩) : v = v' := by
  have hread := readSlot_of_slots h (s := .local_ 0) rfl
  rw [readSlot_local rfl, readSlot_local rfl] at hread
  have hget (u : Value) : (cf.frame.set 0 u).get (0 : U8).toNat = some u :=
    Slots.get_set_self _ _ _
  simp only [hget] at hread
  exact Except.ok.inj hread

theorem when_of_transparent_read (h : JustReferred host p e x r)
    (ht : Transparent host p e x r .read) : TransparentWhen e x .read := by
  obtain ⟨cf, below, hstack⟩ := List.exists_cons_of_ne_nil h.frame
  have hsame := ht ⟨.mov, [.slot x, .slot (.local_ 0)]⟩ 0 rfl
  have hrun (s : SlotRef) := @mov_run _ host p e s cf below hstack
  simp only [Instruction.withOperand, List.set_cons_zero, hrun] at hsame
  have hbind : (e.readSlot r >>= fun c => e.derefValue c) = e.derefValue x.reference := by
    rw [h.readSlot]
    rfl
  rw [readSlot_deref h.plainRef, hbind] at hsame
  obtain ⟨g, stack, w⟩ := e
  obtain rfl : stack = cf :: below := hstack
  rcases derefValue_reference h.plain h.frame with ⟨v', hv', hderef⟩ | ⟨-, hderef⟩
  · rw [hderef] at hsame
    cases hx : Executor.readSlot ⟨g, cf :: below, w⟩ x with
    | ok v =>
      rw [hx] at hsame
      obtain rfl : v' = v := eq_of_slots hsame
      exact ⟨v', hx, hv'⟩
    | error st =>
      rw [hx] at hsame
      exact hsame.elim
  · rw [hderef] at hsame
    cases hx : Executor.readSlot ⟨g, cf :: below, w⟩ x with
    | ok v =>
      rw [hx] at hsame
      exact hsame.elim
    | error st =>
      rw [hx] at hsame
      obtain rfl : Stop.fault .nullDeref = st := hsame
      rcases readSlot_faults h.plain h.frame hx with hst | hst <;> cases hst

theorem when_of_transparent_result (h : JustReferred host p e x r)
    (ht : Transparent host p e x r .result) : TransparentWhen e x .result := by
  obtain ⟨cf, below, hstack⟩ := List.exists_cons_of_ne_nil h.frame
  cases x with
  | local_ | global => rfl
  | tmp i =>
    -- the write to `&r` goes to local 0, and leaves what is to be written in the register
    have hholds (b : Bool) : cf.tmpSlot i = .ok (some (.bool b)) := by
      have hsame := ht ⟨.mov, [.imm (.bool b), .slot (.tmp i)]⟩ 1 rfl
      have hrun (op : Operand) :
          executeInstruction host p
            (Instruction.withOperand ⟨.mov, [.imm (.bool b), .slot (.tmp i)]⟩ 1 op) e =
          (writeVal op (.bool b) >>= fun _ => pure .continue_) e := rfl
      have hderef : writeVal (.slot r.deref) (.bool b) e =
          writeVal (.slot (.local_ 0)) (.bool b) e := by
        show writeSlot r.deref _ e = writeSlot (.local_ 0) _ e
        rw [writeSlot_deref h.plainRef, reads_bind_ok h.readSlot, derefWrite_reference h.plain]
        rfl
      obtain ⟨g, stack, w⟩ := e
      obtain rfl : stack = cf :: below := hstack
      rw [hrun, hrun, bind_run_ok (hderef.trans rfl)] at hsame
      rcases setTmpSlot_cases cf i (some (.bool b)) with ⟨cf', o, hset, ho⟩ | ⟨hset, -⟩
      · have hx : writeVal (.slot (.tmp i)) (.bool b) ⟨g, cf :: below, w⟩ =
            .ok () ⟨g, cf' :: below, w⟩ := by
          simp only [writeVal, writeOperand, writeSlot, onLast, hset]
          rfl
        rw [bind_run_ok hx] at hsame
        have hread := readSlot_of_slots hsame (s := .tmp i) rfl
        rw [readSlot_tmp rfl, readSlot_tmp rfl, (tmpSlot_setTmpSlot hset).1] at hread
        obtain ⟨o', ho', hread⟩ := bind_eq_ok hread
        rw [orFault_eq_ok.mp hread] at ho'
        exact ho'
      · have hx : writeVal (.slot (.tmp i)) (.bool b) ⟨g, cf :: below, w⟩ =
            .error (.fault .indexOutOfBounds) ⟨g, cf :: below, w⟩ := by
          simp only [writeVal, writeOperand, writeSlot, onLast, hset]
          rfl
        rw [bind_run_error hx] at hsame
        exact hsame.elim
    cases (hholds true).symm.trans (hholds false)
  | _ => cases h.plain

/-- An update that is the same with `&r` is declined. -/
theorem update_declined (h : JustReferred host p e x r) {f : Value → Except Stop (Unit × Value)}
    (hn : instr.opcode.use 0 = .updated) (ht : Transparent host p e x r .updated)
    (hrun : ∀ op, executeInstruction host p (instr.withOperand 0 op) e =
      (writeTargetMut op f >>= fun _ => pure .continue_) e) :
    writeTargetMut (.slot x) f e = .error (.fault .typeMismatch) e := by
  have hsame := ht instr 0 hn
  have hderef : writeTargetMut (.slot r.deref) f e = .error (.fault .typeMismatch) e := by
    rw [writeTargetMut_deref h.plainRef]
    rfl
  rw [hrun, hrun, bind_run_error hderef] at hsame
  cases hx : writeTargetMut (.slot x) f e with
  | ok u e₁ =>
    rw [bind_run_ok hx] at hsame
    exact hsame.elim
  | error s e₁ =>
    rw [bind_run_error hx] at hsame
    obtain rfl : Stop.fault .typeMismatch = s := hsame
    obtain rfl := Unharmed.writeTargetMut _ _ _ _ _ hx
    rfl

theorem when_of_transparent_updated (h : JustReferred host p e x r)
    (ht : Transparent host p e x r .updated) : TransparentWhen e x .updated := by
  cases hx : e.readSlot x with
  | error s =>
    have hpush := @update_declined _ host p e x r ⟨.push, [.slot x, .imm (.bool true)]⟩ h _ rfl ht
      fun _ => rfl
    cases (writeTargetMut_unread h.plain h.frame hx).symm.trans hpush
    rcases readSlot_faults h.plain h.frame hx with hs | hs <;> cases hs
  | ok v =>
    refine ⟨v, hx, ?_⟩
    -- some instruction updates such a value
    have hno (instr : Instruction) {f : Value → Except Stop (Unit × Value)} {v' : Value}
        (hn : instr.opcode.use 0 = .updated)
        (hrun : ∀ op, executeInstruction host p (instr.withOperand 0 op) e =
          (writeTargetMut op f >>= fun _ => pure .continue_) e) (hf : f v = .ok ((), v')) :
        False := by
      obtain ⟨e₁, hok⟩ := writeTargetMut_of_read h.plain hx hf
      cases hok.symm.trans (update_declined h hn ht hrun)
    cases v with
    | vec | stack | deque =>
      exact (hno ⟨.push, [.slot x, .imm (.bool true)]⟩ rfl (fun _ => rfl) rfl).elim
    | queue =>
      exact (hno ⟨.enqueue, [.slot x, .imm (.bool true)]⟩ rfl (fun _ => rfl) rfl).elim
    | struct =>
      exact (hno ⟨.delField, [.slot x, .key 0]⟩ rfl (fun _ => rfl) rfl).elim
    | sparse =>
      exact (hno ⟨.sparseDel, [.slot x, .imm (.int .uint32 0)]⟩ rfl (fun _ => rfl)
        rfl).elim
    | btree =>
      exact (hno ⟨.btreeDel, [.slot x, .imm (.int .uint32 0)]⟩ rfl (fun _ => rfl)
        rfl).elim
    | bitset =>
      exact (hno ⟨.bitClr, [.slot x, .imm (.int .uint32 0)]⟩ rfl (fun _ => rfl)
        rfl).elim
    | bitvec =>
      exact (hno ⟨.bitvecPush, [.slot x, .imm (.int .uint64 0), .imm (.int .uint32 0)]⟩
        rfl (fun _ => rfl) rfl).elim
    | _ => rfl

/-- A release of a slot leaves nothing in it. -/
theorem releaseOperand_plain (hx : x.isPlain = true) (hne : e.callStack ≠ []) :
    ∃ e', releaseOperand (.slot x) e = .ok () e' ∧ ∀ v, e'.readSlot x ≠ .ok v := by
  obtain ⟨g, stack, w⟩ := e
  cases stack with
  | nil => exact absurd rfl hne
  | cons cf below =>
    cases x with
    | local_ i =>
      refine ⟨_, rfl, fun v hv => ?_⟩
      rw [readSlot_local rfl] at hv
      simp only [Slots.get_remove_self] at hv
      cases hv
    | tmp i =>
      rcases setTmpSlot_cases cf i none with ⟨cf', o, hset, -⟩ | ⟨hset, hget⟩
      · refine ⟨⟨g, cf' :: below, w⟩, releaseOperand_tmp hset, fun v hv => ?_⟩
        rw [readSlot_tmp rfl, (tmpSlot_setTmpSlot hset).1] at hv
        cases hv
      · refine ⟨⟨g, cf :: below, w⟩, releaseOperand_tmp_error hset, fun v hv => ?_⟩
        rw [readSlot_tmp rfl, hget] at hv
        cases hv
    | global i =>
      refine ⟨_, rfl, fun v hv => ?_⟩
      simp only [Executor.readSlot, Slots.get_remove_self] at hv
      cases hv
    | _ => cases hx

theorem when_of_transparent_released (h : JustReferred host p e x r)
    (ht : Transparent host p e x r .released) : TransparentWhen e x .released := by
  have hsame := ht ⟨.release, [.slot x]⟩ 0 rfl
  have hrun (op : Operand) :
      executeInstruction host p (Instruction.withOperand ⟨.release, [.slot x]⟩ 0 op) e =
        (releaseOperand op >>= fun _ => pure .continue_) e := rfl
  obtain ⟨e', hok, hno⟩ := releaseOperand_plain h.plain h.frame
  rw [hrun, hrun, releaseOperand_deref h.plainRef, bind_run_ok hok] at hsame
  intro v hv
  exact hno v ((readSlot_of_slots (Eq.symm hsame) h.plain).trans hv)

theorem when_of_transparent_address (h : JustReferred host p e x r)
    (ht : Transparent host p e x r .address) : TransparentWhen e x .address := by
  obtain ⟨cf, below, hstack⟩ := List.exists_cons_of_ne_nil h.frame
  have hsame := ht ⟨.addr, [.slot x, .slot (.local_ 0)]⟩ 0 rfl
  have hrun (op : Operand) : executeInstruction host p
      (Instruction.withOperand ⟨.addr, [.slot x, .slot (.local_ 0)]⟩ 0 op) e =
        (writeVal (.slot (.local_ 0)) (.refMut (slotAddress op).1 (slotAddress op).2) >>=
          fun _ => pure .continue_) e := rfl
  obtain ⟨g, stack, w⟩ := e
  obtain rfl : stack = cf :: below := hstack
  have hwrite (v : Value) : writeVal (.slot (.local_ 0)) v ⟨g, cf :: below, w⟩ =
      .ok () ⟨g, { cf with frame := cf.frame.set 0 v } :: below, w⟩ := rfl
  rw [hrun, hrun, bind_run_ok (hwrite _), bind_run_ok (hwrite _),
    slotAddress_deref h.plainRef] at hsame
  obtain ⟨hg, hi⟩ := Value.refMut.inj (eq_of_slots hsame)
  exact (slotAddress_of_named h.plain).mpr (Prod.ext hg.symm hi.symm)

/-- **Dereference.**  After `ADDR x, r`, all instructions have the same outcome with `&r` as with
`x` in the positions of a use exactly under the condition of the use; and then they do the very
same. -/
theorem dereference_transparent (host : Host ω) (p : Program)
    (h : JustReferred host p e x r) (u : OperandUse) :
    (Transparent host p e x r u ↔ TransparentWhen e x u) ∧
    (TransparentWhen e x u → ∀ (instr : Instruction) n, instr.opcode.use n = u →
      executeInstruction host p (instr.withOperand n (.slot r.deref)) e =
        executeInstruction host p (instr.withOperand n (.slot x)) e) := by
  have hsame (hw : TransparentWhen e x u) (instr : Instruction) (n : Nat)
      (hn : instr.opcode.use n = u) : SameThrough host p e x r instr n :=
    sameThrough_of_when h (hn ▸ hw)
  refine ⟨⟨fun ht => ?_, fun hw instr n hn => ?_⟩, hsame⟩
  · cases u with
    | read => exact when_of_transparent_read h ht
    | result => exact when_of_transparent_result h ht
    | updated => exact when_of_transparent_updated h ht
    | released => exact when_of_transparent_released h ht
    | address => exact when_of_transparent_address h ht
  · rw [hsame hw instr n hn]
    exact .refl _

end Law

section Example

/-- The local 0 holds 7, and `ADDR` has just put a reference to it into the local 1. -/
def sevenReferred : Executor Unit :=
  ⟨.new, [{ CallFrame.new 0 .null with
    frame := ⟨[some (.int .int32 7), some (.refMut false 0)]⟩ }], ()⟩

theorem sevenReferred_justReferred :
    JustReferred Host.bare noFunctions sevenReferred (.local_ 0) (.local_ 1) where
  plain := rfl
  plainRef := rfl
  ne := by decide
  frame := List.cons_ne_nil _ _
  run := ⟨⟨.new, [{ CallFrame.new 0 .null with frame := ⟨[some (.int .int32 7)]⟩ }], ()⟩, _, rfl⟩

/-- Reads of a local, for one. -/
theorem dereference_transparent_sevenReferred :
    (Transparent Host.bare noFunctions sevenReferred (.local_ 0) (.local_ 1) .read ↔
      TransparentWhen sevenReferred (.local_ 0) .read) ∧
    (TransparentWhen sevenReferred (.local_ 0) .read → ∀ (instr : Instruction) n,
      instr.opcode.use n = .read →
      executeInstruction Host.bare noFunctions
          (instr.withOperand n (.slot (SlotRef.local_ 1).deref)) sevenReferred =
        executeInstruction Host.bare noFunctions (instr.withOperand n (.slot (.local_ 0)))
          sevenReferred) :=
  dereference_transparent Host.bare noFunctions sevenReferred_justReferred .read

/-- The local 0 holds an empty vector, and `ADDR` has just put a reference to it into the
local 1. -/
def vectorReferred : Executor Unit :=
  ⟨.new, [{ CallFrame.new 0 .null with
    frame := ⟨[some (.vec []), some (.refMut false 0)]⟩ }], ()⟩

/-- `PUSH` onto the vector completes, and through the reference it faults. -/
theorem push_not_transparent :
    JustReferred Host.bare noFunctions vectorReferred (.local_ 0) (.local_ 1) ∧
    (∃ e', executeInstruction Host.bare noFunctions
      ⟨.push, [.slot (.local_ 0), .imm (.int .int32 7)]⟩ vectorReferred = .ok .continue_ e') ∧
    executeInstruction Host.bare noFunctions
      ⟨.push, [.slot (SlotRef.local_ 1).deref, .imm (.int .int32 7)]⟩ vectorReferred =
        .error (.fault .typeMismatch) vectorReferred := by
  refine ⟨⟨rfl, rfl, by decide, List.cons_ne_nil _ _, ?_⟩, ⟨_, rfl⟩, rfl⟩
  exact ⟨⟨.new, [{ CallFrame.new 0 .null with frame := ⟨[some (.vec [])]⟩ }], ()⟩, _, rfl⟩

end Example

end Fasm
