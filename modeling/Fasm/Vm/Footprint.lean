import Fasm.Vm.FaultEffect
import Fasm.Vm.Operands

/-!
# What an instruction changes

The storage an instruction can write is a set of places: the locals of the top frame,
the registers of its `TMP` frames, the globals and `$ret`.  An operand that can be
written names one place, a dereference the place its reference names.  Each change to
the executor is confined to the place that is named, so an instruction that completes
changes only the places of its target operands.
-/

namespace Fasm

open ExecM

variable {ω : Type} {α : Type}

/-! ## Places -/

/-- A place that holds a value; the `TMP` frame at `depth` 0 is the innermost. -/
inductive Place where
  | local_ (idx : Nat)
  | tmp (depth idx : Nat)
  | global (idx : Nat)
  | ret
deriving DecidableEq

/-- The register `idx` of the `TMP` frame at a depth. -/
def CallFrame.register (cf : CallFrame) (depth idx : Nat) : Option Value :=
  cf.tmpFrames[depth]?.bind fun f => f[idx]?.join

/-- What a place holds. -/
def Place.get (e : Executor ω) : Place → Option Value
  | .local_ idx => e.callStack.head?.bind fun cf => cf.frame.get idx
  | .tmp depth idx => e.callStack.head?.bind fun cf => cf.register depth idx
  | .global idx => e.globals.get idx
  | .ret => e.callStack.head?.map fun cf => cf.retVal

/-- The place that a write through a reference goes to. -/
def Value.place : Value → Option Place
  | .refMut isGlobal idx =>
    if isGlobal then some (.global idx.toNat) else some (.local_ (idx.setWidth 8).toNat)
  | _ => none

/-- The place that a write to a slot goes to. -/
def SlotRef.place (e : Executor ω) : SlotRef → Option Place
  | .local_ idx => some (.local_ idx.toNat)
  | .tmp idx => some (.tmp 0 idx.toNat)
  | .global idx => some (.global idx.toNat)
  | .derefLocal idx => ((Place.local_ idx.toNat).get e).bind Value.place
  | .derefTmp idx => ((Place.tmp 0 idx.toNat).get e).bind Value.place
  | .derefGlobal idx => ((Place.global idx.toNat).get e).bind Value.place
  | .builtIn .ret => some .ret
  | .builtIn _ => none

/-- The place that a write to an operand goes to. -/
def Operand.place (e : Executor ω) : Operand → Option Place
  | .slot s => s.place e
  | _ => none

/-- Local, global and `TMP` slots do not alias. -/
theorem place_inj {e : Executor ω} {s t : SlotRef} (hs : s.isPlain = true)
    (ht : t.isPlain = true) (h : s.place e = t.place e) : s = t := by
  cases s with
  | local_ i =>
    cases t with
    | local_ j => rw [BitVec.eq_of_toNat_eq (Place.local_.inj (Option.some.inj h))]
    | tmp | global => cases h
    | _ => cases ht
  | tmp i =>
    cases t with
    | tmp j => rw [BitVec.eq_of_toNat_eq (Place.tmp.inj (Option.some.inj h)).2]
    | local_ | global => cases h
    | _ => cases ht
  | global i =>
    cases t with
    | global j => rw [BitVec.eq_of_toNat_eq (Place.global.inj (Option.some.inj h))]
    | local_ | tmp => cases h
    | _ => cases ht
  | _ => cases hs

/-! ## Executors that differ in some places -/

/-- What no place is part of: the function, `ip`, `$args`, the guard and the number of `TMP`
frames. -/
def CallFrame.steady (cf : CallFrame) : (Nat × Nat × Value) × Option TryGuard × Nat :=
  ((cf.funcIdx, cf.ip, cf.args), cf.tryGuard, cf.tmpFrames.length)

/-- `e'` is `e` but for what the places of `T` hold. -/
structure ChangesOnly (T : Place → Prop) (e e' : Executor ω) : Prop where
  get_eq : ∀ q, ¬ T q → q.get e' = q.get e
  top_eq : e'.callStack.head?.map CallFrame.steady = e.callStack.head?.map CallFrame.steady
  below_eq : e'.callStack.tail = e.callStack.tail
  world_eq : e'.world = e.world

namespace ChangesOnly

variable {T T' : Place → Prop} {e e₁ e' : Executor ω}

theorem refl (e : Executor ω) : ChangesOnly T e e := ⟨fun _ _ => rfl, rfl, rfl, rfl⟩

theorem mono (h : ChangesOnly T e e') (hT : ∀ q, T q → T' q) : ChangesOnly T' e e' :=
  ⟨fun q hq => h.get_eq q fun hq' => hq (hT q hq'), h.top_eq, h.below_eq, h.world_eq⟩

theorem trans (h : ChangesOnly T e e₁) (h' : ChangesOnly T e₁ e') : ChangesOnly T e e' where
  get_eq q hq := (h'.get_eq q hq).trans (h.get_eq q hq)
  top_eq := h'.top_eq.trans h.top_eq
  below_eq := h'.below_eq.trans h.below_eq
  world_eq := h'.world_eq.trans h.world_eq

variable {g : GlobalRegister} {cf cf' : CallFrame} {below : List CallFrame} {w : ω} {i : Nat}

/-- A change of one local. -/
theorem ofLocal {f : Frame} (h : ∀ j, i ≠ j → f.get j = cf.frame.get j) :
    ChangesOnly (· = .local_ i) ⟨g, cf :: below, w⟩ ⟨g, { cf with frame := f } :: below, w⟩ where
  get_eq q hq := by
    cases q with
    | local_ j => exact h j fun hj => hq (hj ▸ rfl)
    | _ => rfl
  top_eq := rfl
  below_eq := rfl
  world_eq := rfl

/-- A change of one global. -/
theorem ofGlobal {stack : List CallFrame} {g' : GlobalRegister}
    (h : ∀ j, i ≠ j → g'.get j = g.get j) :
    ChangesOnly (· = .global i) ⟨g, stack, w⟩ ⟨g', stack, w⟩ where
  get_eq q hq := by
    cases q with
    | global j => exact h j fun hj => hq (hj ▸ rfl)
    | _ => rfl
  top_eq := rfl
  below_eq := rfl
  world_eq := rfl

/-- A change of `$ret`. -/
theorem ofRet (v : Value) :
    ChangesOnly (· = .ret) ⟨g, cf :: below, w⟩ ⟨g, { cf with retVal := v } :: below, w⟩ where
  get_eq q hq := by
    cases q with
    | ret => exact absurd rfl hq
    | _ => rfl
  top_eq := rfl
  below_eq := rfl
  world_eq := rfl

end ChangesOnly

/-- Assigning a `TMP` register changes no other register of the frame. -/
theorem register_setTmpSlot {cf cf' : CallFrame} {idx : U8} {o : Option Value}
    (h : cf.setTmpSlot idx o = .ok cf') :
    cf'.register 0 idx.toNat = o ∧
      ∀ d j, ¬ (d = 0 ∧ j = idx.toNat) → cf'.register d j = cf.register d j := by
  unfold CallFrame.setTmpSlot at h
  split at h
  · cases h
  · rename_i f fs hfs
    split at h
    case isFalse => cases h
    case isTrue hlt =>
      cases h
      constructor
      · simp [CallFrame.register, hlt]
      · intro d j hne
        cases d with
        | zero =>
          have hj : idx.toNat ≠ j := fun hj => hne ⟨rfl, hj.symm⟩
          simp [CallFrame.register, hfs, hj]
        | succ d => simp only [CallFrame.register, hfs, List.getElem?_cons_succ]

theorem ChangesOnly.ofTmp {g : GlobalRegister} {cf cf' : CallFrame} {below : List CallFrame}
    {w : ω} {idx : U8} {o : Option Value} (h : cf.setTmpSlot idx o = .ok cf') :
    ChangesOnly (· = .tmp 0 idx.toNat) ⟨g, cf :: below, w⟩ ⟨g, cf' :: below, w⟩ := by
  have hreg := (register_setTmpSlot h).2
  obtain ⟨fs, hlen, rfl⟩ := setTmpSlot_eq h
  refine ⟨fun q hq => ?_, ?_, rfl, rfl⟩
  · cases q with
    | tmp d j => exact hreg d j fun ⟨hd, hj⟩ => hq (by rw [hd, hj])
    | _ => rfl
  · simp only [List.head?_cons, Option.map_some, CallFrame.steady, hlen]

/-- What a read of a `TMP` register finds. -/
theorem tmpSlot_eq (cf : CallFrame) (idx : U8) :
    cf.tmpSlot idx = if 0 < cf.tmpFrames.length ∧ idx.toNat < 16
      then .ok (cf.register 0 idx.toNat) else .error (.fault .indexOutOfBounds) := by
  unfold CallFrame.tmpSlot
  split
  · rename_i hfs
    rw [hfs, if_neg (by simp)]
  · rename_i f fs hfs
    split
    case isTrue hlt =>
      rw [hfs, if_pos ⟨by simp, hlt⟩]
      simp [CallFrame.register, hfs, hlt]
    case isFalse hlt => rw [if_neg fun h => hlt h.2]

theorem register_of_tmpSlot {cf : CallFrame} {idx : U8} {o : Option Value}
    (h : cf.tmpSlot idx = .ok o) : cf.register 0 idx.toNat = o := by
  rw [tmpSlot_eq] at h
  split at h <;> cases h
  rfl

/-- Both stacks are empty, or both have a top frame and these agree on what no place is part
of. -/
theorem ChangesOnly.stacks {T : Place → Prop} {e e' : Executor ω} (h : ChangesOnly T e e') :
    (e.callStack = [] ∧ e'.callStack = []) ∨
      ∃ cf cf' below, e.callStack = cf :: below ∧ e'.callStack = cf' :: below ∧
        cf'.steady = cf.steady := by
  obtain ⟨-, htop, hbelow, -⟩ := h
  cases hs : e.callStack with
  | nil =>
    cases hs' : e'.callStack with
    | nil => exact .inl ⟨rfl, rfl⟩
    | cons cf' below' => rw [hs, hs'] at htop; cases htop
  | cons cf below =>
    cases hs' : e'.callStack with
    | nil => rw [hs, hs'] at htop; cases htop
    | cons cf' below' =>
      rw [hs, hs'] at htop hbelow
      cases hbelow
      exact .inr ⟨cf, cf', below, rfl, rfl, Option.some.inj htop⟩

/-- Reads of a slot, `$args` or `$ret` see no change of other places. -/
theorem ChangesOnly.readSlot {T : Place → Prop} {e e' : Executor ω} (h : ChangesOnly T e e')
    {s : SlotRef} (hs : s.isPlain = true ∨ s ∈ [.builtIn .args, .builtIn .ret])
    (hT : ∀ q, s.place e = some q → ¬ T q) : e'.readSlot s = e.readSlot s := by
  have hget : ∀ q, s.place e = some q → q.get e' = q.get e := fun q hq => h.get_eq q (hT q hq)
  have hstacks := h.stacks
  obtain ⟨g, stack, w⟩ := e
  obtain ⟨g', stack', w'⟩ := e'
  cases s with
  | global idx =>
    have hslot : g'.get idx.toNat = g.get idx.toNat := hget _ rfl
    simp only [Executor.readSlot, hslot]
  | derefLocal | derefTmp | derefGlobal => simp [SlotRef.isPlain] at hs
  | local_ idx =>
    rcases hstacks with ⟨rfl, rfl⟩ | ⟨cf, cf', below, rfl, rfl, -⟩
    · rfl
    · have hslot : cf'.frame.get idx.toNat = cf.frame.get idx.toNat := hget _ rfl
      rw [readSlot_local rfl, readSlot_local rfl, hslot]
  | tmp idx =>
    rcases hstacks with ⟨rfl, rfl⟩ | ⟨cf, cf', below, rfl, rfl, htop⟩
    · rfl
    · have hslot : cf'.register 0 idx.toNat = cf.register 0 idx.toNat := hget _ rfl
      have hlen : cf'.tmpFrames.length = cf.tmpFrames.length := congrArg (·.2.2) htop
      rw [readSlot_tmp rfl, readSlot_tmp rfl, tmpSlot_eq, tmpSlot_eq, hslot, hlen]
  | builtIn b =>
    rcases hstacks with ⟨rfl, rfl⟩ | ⟨cf, cf', below, rfl, rfl, htop⟩
    · rfl
    · cases b with
      | args => exact congrArg (fun k => Except.ok k.1.2.2) htop
      | ret =>
        have hret : cf'.retVal = cf.retVal := Option.some.inj (hget _ rfl)
        exact congrArg Except.ok hret
      | _ => simp [SlotRef.isPlain] at hs

/-! ## Writes -/

/-- A write through a reference. -/
theorem derefWrite_ok {r v : Value} {e e' : Executor ω} (h : derefWrite r v e = .ok () e') :
    ∃ q, r.place = some q ∧ q.get e' = some v ∧ ChangesOnly (· = q) e e' := by
  unfold derefWrite at h
  split at h
  · rename_i isGlobal idx
    cases isGlobal with
    | true =>
      rw [if_pos rfl] at h
      obtain ⟨g, hg, rfl⟩ := onGlobals_eq_ok h
      cases hg
      exact ⟨.global idx.toNat, rfl, Slots.get_set_self _ _ _,
        .ofGlobal fun j hj => Slots.get_set_of_ne _ hj v⟩
    | false =>
      rw [if_neg Bool.false_ne_true] at h
      unfold assignLast at h
      obtain ⟨cf, below, cf', hstack, hf, rfl⟩ := onLast_eq_ok h
      cases hf
      obtain ⟨g, stack, w⟩ := e
      obtain rfl : stack = cf :: below := hstack
      exact ⟨.local_ (idx.setWidth 8).toNat, rfl, Slots.get_set_self _ _ _,
        .ofLocal fun j hj => Slots.get_set_of_ne _ hj v⟩
  · cases h
  · cases h
  · cases h

/-- The frame whose slots a reader looks at. -/
theorem last_eq_ok {e : Executor ω} {cf : CallFrame} (h : e.last = .ok cf) :
    e.callStack.head? = some cf := by
  unfold Executor.last at h
  split at h
  · cases h
  · rename_i hstack
    cases h
    rw [hstack, List.head?_cons]

/-- A write that completes puts the value into the place of its slot and changes no other. -/
theorem writeSlot_ok {s : SlotRef} {v : Value} {e e' : Executor ω}
    (h : writeSlot s v e = .ok () e') :
    ∃ q, s.place e = some q ∧ q.get e' = some v ∧ ChangesOnly (· = q) e e' := by
  obtain ⟨g, stack, w⟩ := e
  unfold writeSlot at h
  cases s with
  | local_ idx =>
    obtain ⟨cf, below, cf', rfl, hf, rfl⟩ := onLast_eq_ok h
    cases hf
    exact ⟨.local_ idx.toNat, rfl, Slots.get_set_self _ _ _,
      .ofLocal fun j hj => Slots.get_set_of_ne _ hj v⟩
  | tmp idx =>
    obtain ⟨cf, below, cf', rfl, hf, rfl⟩ := onLast_eq_ok h
    obtain ⟨cf₁, hset, hf⟩ := bind_eq_ok hf
    cases hf
    exact ⟨.tmp 0 idx.toNat, rfl, (register_setTmpSlot hset).1, .ofTmp hset⟩
  | global idx =>
    obtain ⟨g', hg, rfl⟩ := onGlobals_eq_ok h
    cases hg
    exact ⟨.global idx.toNat, rfl, Slots.get_set_self _ _ _,
      .ofGlobal fun j hj => Slots.get_set_of_ne _ hj v⟩
  | derefLocal idx =>
    obtain ⟨r, hr, hw⟩ := reads_bind_eq_ok h
    obtain ⟨cf, hcf, hr⟩ := bind_eq_ok hr
    obtain ⟨q, hq, hget, hch⟩ := derefWrite_ok hw
    refine ⟨q, ?_, hget, hch⟩
    simp only [SlotRef.place, Place.get, last_eq_ok hcf, orFault_eq_ok.mp hr, Option.bind_some, hq]
  | derefTmp idx =>
    obtain ⟨r, hr, hw⟩ := reads_bind_eq_ok h
    obtain ⟨cf, hcf, hr⟩ := bind_eq_ok hr
    obtain ⟨o, ho, hr⟩ := bind_eq_ok hr
    obtain ⟨q, hq, hget, hch⟩ := derefWrite_ok hw
    refine ⟨q, ?_, hget, hch⟩
    simp only [SlotRef.place, Place.get, last_eq_ok hcf, register_of_tmpSlot ho,
      orFault_eq_ok.mp hr, Option.bind_some, hq]
  | derefGlobal idx =>
    obtain ⟨r, hr, hw⟩ := reads_bind_eq_ok h
    obtain ⟨q, hq, hget, hch⟩ := derefWrite_ok hw
    refine ⟨q, ?_, hget, hch⟩
    simp only [SlotRef.place, Place.get, orFault_eq_ok.mp hr, Option.bind_some, hq]
  | builtIn b =>
    cases b with
    | ret =>
      obtain ⟨cf, below, cf', rfl, hf, rfl⟩ := onLast_eq_ok h
      cases hf
      exact ⟨.ret, rfl, rfl, .ofRet v⟩
    | _ => cases h

/-- A write that completes puts the value into the place of its operand and changes no
other. -/
theorem writeOperand_ok {op : Operand} {v : Value} {e e' : Executor ω}
    (h : writeOperand op v e = .ok () e') :
    ∃ q, op.place e = some q ∧ q.get e' = some v ∧ ChangesOnly (· = q) e e' := by
  cases op with
  | slot s => exact writeSlot_ok h
  | _ => cases h

/-- An update in place replaces the value at the place of its operand and changes no other. -/
theorem writeTargetMut_changes {op : Operand} {f : Value → Except Stop (α × Value)}
    {e e' : Executor ω} {a : α} (h : writeTargetMut op f e = .ok a e') :
    ∃ q v v', op.place e = some q ∧ e.readOperand op = .ok v ∧ q.get e = some v ∧
      f v = .ok (a, v') ∧ q.get e' = some v' ∧ ChangesOnly (· = q) e e' := by
  obtain ⟨g, stack, w⟩ := e
  unfold writeTargetMut at h
  split at h
  · rename_i idx
    obtain ⟨cf, below, cf', rfl, hf, rfl⟩ := onLast_eq_ok h
    obtain ⟨v, hv, hf⟩ := bind_eq_ok hf
    obtain ⟨⟨a', v'⟩, hfv, hf⟩ := bind_eq_ok hf
    cases hf
    exact ⟨.local_ idx.toNat, v, v', rfl, hv, orFault_eq_ok.mp hv, hfv, Slots.get_set_self _ _ _,
      .ofLocal fun j hj => Slots.get_set_of_ne _ hj v'⟩
  · rename_i idx
    obtain ⟨cf, below, cf', rfl, hf, rfl⟩ := onLast_eq_ok h
    obtain ⟨o, ho, hf⟩ := bind_eq_ok hf
    obtain ⟨v, hv, hf⟩ := bind_eq_ok hf
    obtain ⟨⟨a', v'⟩, hfv, hf⟩ := bind_eq_ok hf
    obtain ⟨cf₁, hset, hf⟩ := bind_eq_ok hf
    cases hf
    have hread : Executor.readSlot ⟨g, cf :: below, w⟩ (.tmp idx) = .ok v := by
      rw [readSlot_tmp rfl, ho]
      exact hv
    exact ⟨.tmp 0 idx.toNat, v, v', rfl, hread,
      (register_of_tmpSlot ho).trans (orFault_eq_ok.mp hv), hfv, (register_setTmpSlot hset).1,
      .ofTmp hset⟩
  · rename_i idx
    obtain ⟨g', hg, rfl⟩ := onGlobals_eq_ok h
    obtain ⟨v, hv, hg⟩ := bind_eq_ok hg
    obtain ⟨⟨a', v'⟩, hfv, hg⟩ := bind_eq_ok hg
    cases hg
    exact ⟨.global idx.toNat, v, v', rfl, hv, orFault_eq_ok.mp hv, hfv, Slots.get_set_self _ _ _,
      .ofGlobal fun j hj => Slots.get_set_of_ne _ hj v'⟩
  · cases h

/-- A release changes at most the place of its operand, and nothing behind a reference. -/
theorem releaseOperand_changes {op : Operand} {e e' : Executor ω}
    (h : releaseOperand op e = .ok () e') :
    ChangesOnly (fun q => ∃ s, op = .slot s ∧ s.isPlain = true ∧ s.place e = some q) e e' := by
  obtain ⟨g, stack, w⟩ := e
  unfold releaseOperand at h
  split at h
  · rename_i idx
    cases h
    cases stack with
    | nil => exact .refl _
    | cons cf below =>
      refine (ChangesOnly.ofLocal fun j hj => Slots.get_remove_of_ne _ hj).mono fun q hq => ?_
      exact ⟨.local_ idx, rfl, rfl, hq ▸ rfl⟩
  · rename_i idx
    cases h
    cases stack with
    | nil => exact .refl _
    | cons cf below =>
      simp only
      split
      case h_1 cf' hset =>
        exact (ChangesOnly.ofTmp hset).mono fun q hq => ⟨.tmp idx, rfl, rfl, hq ▸ rfl⟩
      case h_2 => exact .refl _
  · rename_i idx
    cases h
    refine (ChangesOnly.ofGlobal fun j hj => Slots.get_remove_of_ne _ hj).mono fun q hq => ?_
    exact ⟨.global idx, rfl, rfl, hq ▸ rfl⟩
  · cases h
    exact .refl _

/-! ## Instructions -/

/-- The places that an instruction may change: that of the operand that receives its result and
that of the operand it updates in place or releases. -/
def Instruction.Targets (instr : Instruction) (e : Executor ω) (q : Place) : Prop :=
  ∃ op, (instr.destination = some op ∨ instr.updated = some op) ∧ op.place e = some q

/-- `e'` is `e` but for the guard of the top frame. -/
def ChangesGuard (e e' : Executor ω) : Prop :=
  ∃ cf below guard, e.callStack = cf :: below ∧
    e' = { e with callStack := { cf with tryGuard := guard } :: below }

/-- `e'` is `e` but for one `TMP` frame more or less on the top frame. -/
def ChangesTmpFrames (e e' : Executor ω) : Prop :=
  ∃ cf below fs, e.callStack = cf :: below ∧
    (fs = .new :: cf.tmpFrames ∨ ∃ f, cf.tmpFrames = f :: fs) ∧
    e' = { e with callStack := { cf with tmpFrames := fs } :: below }

/-- A simple instruction changes at most a place of an operand it writes or updates. -/
theorem Simple.changesOnly {E : Stop → Prop} {Q : Action → Prop} {dst upd : Operand → Prop}
    {m : ExecM ω Action} (h : Simple E Q dst upd m) {e e' : Executor ω} {a : Action}
    (hrun : m e = .ok a e') :
    ChangesOnly (fun q => ∃ op, (dst op ∨ upd op) ∧ op.place e = some q) e e' := by
  induction h with
  | done ha =>
    cases hrun
    exact .refl e
  | stop hs => cases hrun
  | look hf _ ih =>
    obtain ⟨b, hb, hrun⟩ := reads_bind_eq_ok hrun
    exact ih e b hb hrun
  | @write op v hop hc =>
    obtain ⟨u, e₁, hw, hpure⟩ := bind_run_eq_ok hrun
    cases hpure
    obtain ⟨q, hq, -, hch⟩ := writeOperand_ok hw
    exact hch.mono fun q' hq' => ⟨op, .inl hop, hq' ▸ hq⟩
  | @update op f hop hf hc =>
    obtain ⟨u, e₁, hw, hpure⟩ := bind_run_eq_ok hrun
    cases hpure
    obtain ⟨q, v, v', hq, -, -, -, -, hch⟩ := writeTargetMut_changes hw
    exact hch.mono fun q' hq' => ⟨op, .inr hop, hq' ▸ hq⟩
  | @release op hop hc =>
    obtain ⟨u, e₁, hw, hpure⟩ := bind_run_eq_ok hrun
    cases hpure
    exact (releaseOperand_changes hw).mono fun q ⟨s, hs, _, hq⟩ => ⟨op, .inr hop, hs ▸ hq⟩

/-- An operand names the same place after a change to a slot that holds no reference. -/
theorem place_of_changesOnly {op : Operand} {e e₁ : Executor ω} {q q₁ : Place} {c : Value}
    (h : ChangesOnly (· = q) e e₁) (hc : q.get e₁ = some c) (href : c.place = none)
    (hop : op.place e₁ = some q₁) : op.place e = some q₁ := by
  -- a slot that still holds a reference is not the changed one
  have hbehind (r : Place) (hr : (r.get e₁).bind Value.place = some q₁) :
      (r.get e).bind Value.place = some q₁ := by
    by_cases hrq : r = q
    · rw [hrq, hc, Option.bind_some, href] at hr
      cases hr
    · rw [← h.get_eq r hrq]
      exact hr
  cases op with
  | slot s =>
    cases s with
    | derefLocal idx => exact hbehind (.local_ idx.toNat) hop
    | derefTmp idx => exact hbehind (.tmp 0 idx.toNat) hop
    | derefGlobal idx => exact hbehind (.global idx.toNat) hop
    | builtIn b => cases b <;> exact hop
    | local_ | tmp | global => exact hop
  | _ => cases hop

/-- Taking an element out changes the collection and the operand that receives the element. -/
theorem popOp_changesOnly {instr : Instruction} {f : Value → Except Stop (Value × Value)}
    (hf : ∀ c v c', f c = .ok (v, c') → c'.place = none) {e e' : Executor ω} {a : Action}
    (h : popOp instr f e = .ok a e') :
    ChangesOnly (fun q => ∃ op, (instr.operands[1]? = some op ∨ instr.operands[0]? = some op) ∧
      op.place e = some q) e e' := by
  obtain ⟨coll, hcoll, h⟩ := getOp_bind_eq_ok h
  obtain ⟨v, e₁, hmut, h⟩ := bind_run_eq_ok h
  obtain ⟨dst, hdst, h⟩ := getOp_bind_eq_ok h
  obtain ⟨u, e₂, hw, hpure⟩ := bind_run_eq_ok h
  cases hpure
  obtain ⟨q, c, c', hq, -, -, hfc, hget, hch⟩ := writeTargetMut_changes hmut
  obtain ⟨q₁, hq₁, -, hch₁⟩ := writeOperand_ok hw
  have hplace : dst.place e = some q₁ := place_of_changesOnly hch hget (hf c v c' hfc) hq₁
  exact (hch.mono fun q' hq' => ⟨coll, .inr hcoll, hq' ▸ hq⟩).trans
    (hch₁.mono fun q' hq' => ⟨dst, .inl hdst, hq' ▸ hplace⟩)

/-- What is left of a collection is no reference. -/
theorem place_of_popped {x : Except Stop (Value × List Value)} {wrap : List Value → Value}
    (hwrap : ∀ l, (wrap l).place = none) {v c : Value}
    (h : (x.map fun (v, l) => (v, wrap l)) = .ok (v, c)) : c.place = none := by
  cases x with
  | ok r =>
    cases h
    exact hwrap _
  | error s => cases h

section Guard

variable {e e' : Executor ω} {a : Action}

theorem execTry_changesGuard {instr : Instruction} (h : execTry instr e = .ok a e') :
    ChangesGuard e e' := by
  obtain ⟨t, -, h⟩ := lift_bind_eq_ok h
  obtain ⟨fs, -, h⟩ := reads_bind_eq_ok h
  obtain ⟨gs, -, h⟩ := reads_bind_eq_ok h
  obtain ⟨u, e₁, hset, hpure⟩ := bind_run_eq_ok h
  cases hpure
  obtain ⟨cf, below, cf', hstack, hcf, rfl⟩ := onLast_eq_ok hset
  cases hcf
  exact ⟨cf, below, _, hstack, rfl⟩

theorem execCatch_changesGuard (h : execCatch e = .ok a e') : ChangesGuard e e' := by
  obtain ⟨t, -, h⟩ := reads_bind_eq_ok h
  obtain ⟨u, e₁, hset, hpure⟩ := bind_run_eq_ok h
  cases hpure
  obtain ⟨cf, below, cf', hstack, hcf, rfl⟩ := onLast_eq_ok hset
  cases hcf
  exact ⟨cf, below, none, hstack, rfl⟩

variable {host : Host ω} {p : Program} {instr : Instruction}
  (h : executeInstruction host p instr e = .ok a e')
include h

/-- `TRY`, `CATCH` and `ENDTRY` change the guard only. -/
theorem changesGuard_of_setsGuard (hop : instr.opcode.setsGuard = true) : ChangesGuard e e' := by
  obtain ⟨op, operands⟩ := instr
  cases op with
  | try_ => exact execTry_changesGuard h
  | catch_ => exact execCatch_changesGuard h
  | endTry =>
    obtain ⟨u, e₁, hset, hpure⟩ := bind_run_eq_ok h
    cases hpure
    obtain ⟨cf, below, cf', hstack, hcf, rfl⟩ := onLast_eq_ok hset
    cases hcf
    exact ⟨cf, below, none, hstack, rfl⟩
  | _ => cases hop

/-- `TMP_BLOCK` and `END_TMP` change the stack of `TMP` frames only. -/
theorem changesTmpFrames_of_setsTmp (hop : instr.opcode.setsTmp = true) :
    ChangesTmpFrames e e' := by
  obtain ⟨op, operands⟩ := instr
  cases op with
  | tmpBlock =>
    obtain ⟨u, e₁, hset, hpure⟩ := bind_run_eq_ok h
    cases hpure
    obtain ⟨cf, below, cf', hstack, hcf, rfl⟩ := onLast_eq_ok hset
    cases hcf
    exact ⟨cf, below, _, hstack, .inl rfl, rfl⟩
  | endTmp =>
    obtain ⟨u, e₁, hset, hpure⟩ := bind_run_eq_ok h
    cases hpure
    obtain ⟨cf, below, cf', hstack, hcf, rfl⟩ := onLast_eq_ok hset
    split at hcf
    · cases hcf
    · rename_i f fs hfs
      cases hcf
      exact ⟨cf, below, fs, hstack, .inr ⟨f, hfs⟩, rfl⟩
  | _ => cases hop

/-- All other instructions but syscalls change the places of their target operands only. -/
theorem changesOnly_targets (hcall : instr.opcode.callsHandler = false)
    (hguard : instr.opcode.setsGuard = false) (htmp : instr.opcode.setsTmp = false) :
    ChangesOnly (instr.Targets e) e e' := by
  by_cases hsimple : instr.opcode.isSimple = true
  · exact (executeInstruction_simple host p hsimple).changesOnly h
  obtain ⟨op, operands⟩ := instr
  cases op with
  | pop =>
    refine popOp_changesOnly (fun c v c' hc => ?_) h
    cases c with
    | stack s => exact place_of_popped (fun _ => rfl) hc
    | _ => cases hc
  | dequeue =>
    refine popOp_changesOnly (fun c v c' hc => ?_) h
    cases c with
    | queue q => exact place_of_popped (fun _ => rfl) hc
    | deque d => exact place_of_popped (fun _ => rfl) hc
    | _ => cases hc
  | popBack =>
    refine popOp_changesOnly (fun c v c' hc => ?_) h
    cases c with
    | deque d => exact place_of_popped (fun _ => rfl) hc
    | _ => cases hc
  | tmpBlock | endTmp => cases htmp
  | syscall | asyncSyscall => cases hcall
  | try_ | catch_ | endTry => cases hguard
  | _ => exact absurd rfl hsimple

end Guard

/-- **Instruction footprint.**  An instruction that completes, other than a syscall, changes
what its target operands name and nothing else: reads of any other slot, of `$args` and of
`$ret` see what they saw before, the frames below are the same, and no two slots are the same
place.  `TRY`, `CATCH` and `ENDTRY` change the guard only, `TMP_BLOCK` and `END_TMP` the stack
of `TMP` frames only. -/
theorem instruction_footprint (host : Host ω) (p : Program) {instr : Instruction}
    {e e' : Executor ω} {a : Action} (hcall : instr.opcode.callsHandler = false)
    (h : executeInstruction host p instr e = .ok a e') :
    (if instr.opcode.setsGuard then ChangesGuard e e'
      else if instr.opcode.setsTmp then ChangesTmpFrames e e'
      else ChangesOnly (instr.Targets e) e e' ∧
        ∀ s : SlotRef, (s.isPlain = true ∨ s ∈ [.builtIn .args, .builtIn .ret]) →
          (∀ q, s.place e = some q → ¬ instr.Targets e q) → e'.readSlot s = e.readSlot s) ∧
    ∀ s t : SlotRef, s.isPlain = true → t.isPlain = true → s.place e = t.place e → s = t := by
  refine ⟨?_, fun s t => place_inj⟩
  split
  case isTrue hguard => exact changesGuard_of_setsGuard h hguard
  case isFalse hguard =>
    split
    case isTrue htmp => exact changesTmpFrames_of_setsTmp h htmp
    case isFalse htmp =>
      have hch : ChangesOnly (instr.Targets e) e e' := changesOnly_targets h hcall
        (Bool.not_eq_true _ ▸ hguard) (Bool.not_eq_true _ ▸ htmp)
      exact ⟨hch, fun s hs hT => hch.readSlot hs hT⟩

section Example

/-- `MOV 7, &0` where the local 0 holds a reference to the global 3. -/
private def throughReference : Executor Unit where
  globals := .new
  callStack := [{ CallFrame.new 0 .null with frame := Slots.new.set 0 (.refMut true 3) }]
  world := ()

theorem instruction_footprint_throughReference :
    let instr : Instruction := ⟨.mov, [.imm (.int .int32 7), .slot (.derefLocal 0)]⟩
    let e' := { throughReference with globals := Slots.new.set 3 (.int .int32 7) }
    (if instr.opcode.setsGuard then ChangesGuard throughReference e'
      else if instr.opcode.setsTmp then ChangesTmpFrames throughReference e'
      else ChangesOnly (instr.Targets throughReference) throughReference e' ∧
        ∀ s : SlotRef, (s.isPlain = true ∨ s ∈ [.builtIn .args, .builtIn .ret]) →
          (∀ q, s.place throughReference = some q → ¬ instr.Targets throughReference q) →
            e'.readSlot s = throughReference.readSlot s) ∧
    ∀ s t : SlotRef, s.isPlain = true → t.isPlain = true →
      s.place throughReference = t.place throughReference → s = t :=
  instruction_footprint Host.bare ⟨1, [], []⟩ (a := .continue_) rfl rfl

end Example

end Fasm
