import Fasm.Vm.AsyncCall
import Fasm.Vm.ResultTypes

/-!
# Local slots with declared types

For each function some slots are declared with a type.  A run is followed together with
the slots that its frames have reserved; they keep their declared types as long as
no instruction makes a value of another type for one of them and no rollback takes one of
them back to before its reservation.
-/

namespace Fasm

open Pushdown (Move Config Machine)

variable {ω : Type}

/-! ## Reservations -/

/-- The slot and the type of an instruction that a `LOCAL` compiles to. -/
def Instruction.reserves (instr : Instruction) : Option (U8 × FasmType) :=
  if instr.opcode = .reserve then
    match instr.operands with
    | [.slot (.local_ i), .type t, .imm .null] => some (i, t)
    | _ => none
  else none

/-- The local slot that an instruction releases. -/
def Instruction.releases (instr : Instruction) : Option U8 :=
  if instr.opcode = .release then
    match instr.operands with
    | .slot (.local_ i) :: _ => some i
    | _ => none
  else none

/-- The slots of a frame that are reserved, and those that were at its last `TRY`. -/
structure Reserved where
  now : List (U8 × FasmType)
  atTry : List (U8 × FasmType)

/-- Those of a new frame. -/
def Reserved.none : Reserved := ⟨[], []⟩

/-- What is reserved after an instruction that does not leave the function. -/
def Reserved.nowAfter (r : Reserved) (instr : Instruction) : List (U8 × FasmType) :=
  match instr.reserves, instr.releases with
  | some x, _ => x :: r.now
  | _, some i => r.now.filter fun x => x.1 ≠ i
  | _, _ => r.now

/-- What is reserved after an instruction that has asked for an action. -/
def Reserved.after (r : Reserved) (instr : Instruction) : Action → Reserved
  | .tailCall _ _ => .none
  | _ => ⟨r.nowAfter instr, if instr.opcode = .try_ then r.now else r.atTry⟩

/-- What is reserved in the top frame after a turn in which it stays. -/
def Reserved.next (host : Host ω) (p : Program) (r : Reserved) (v : View ω) : Reserved :=
  match p.functions[v.frame.funcIdx]?.bind fun func => func.instructions[v.frame.ip]? with
  | some instr =>
    match v.advance.exec host p instr with
    | .ok a _ => r.after instr a
    | .error _ _ => r
  | .none => r

/-- What is reserved in the frames of the stack after a turn. -/
def reservedAfter (host : Host ω) (p : Program) (e : Executor ω) (rs : List Reserved) :
    List Reserved :=
  match e.callStack, rs with
  | cf :: _, r :: rest =>
    match View.move host p ⟨cf, e.globals, e.world⟩ with
    | .stay _ _ => r.next host p ⟨cf, e.globals, e.world⟩ :: rest
    | .enter _ _ _ => .none :: r :: rest
    | .leave _ _ => rest
    | .stop _ _ _ => r :: rest
  | _, _ => rs

/-- A run of the loop, with what its frames have reserved, each step of which is taken from a
state with the property `C`. -/
inductive ReservedRun (host : Host ω) (p : Program) (C : Executor ω → List Reserved → Prop) :
    Executor ω → List Reserved → Prop
  | start {func args e₀ e} (h : start p func args e₀ = .next e) :
    ReservedRun host p C e (List.replicate e.callStack.length .none)
  | step {e rs e'} (h : ReservedRun host p C e rs) (hc : C e rs) (hs : Step host p e e') :
    ReservedRun host p C e' (reservedAfter host p e rs)

/-! ## Types of slots -/

/-- A slot holds a value of the type, or `Null`. -/
def HoldsType (o : Option Value) (t : FasmType) : Prop :=
  ∃ v, o = some v ∧ (v.fasmType = t ∨ v = .null)

/-- The types that the functions of the program declare for local slots. -/
abbrev LocalTypes := Nat → U8 → FasmType → Prop

variable (decl : LocalTypes)

/-- The reserved slots of the frame have their declared types. -/
def SlotsTyped (cf : CallFrame) (r : Reserved) : Prop :=
  ∀ i t, (i, t) ∈ r.now → decl cf.funcIdx i t → HoldsType (cf.frame.get i.toNat) t

/-- So had the slots that were reserved when the guard was set. -/
def GuardTyped (cf : CallFrame) (r : Reserved) : Prop :=
  ∀ g, cf.tryGuard = some g → ∀ i t, (i, t) ∈ r.atTry → decl cf.funcIdx i t →
    HoldsType ((Slots.mk g.frameSnap).get i.toNat) t

/-- The reserved slots of all frames have their declared types. -/
def StackTyped (e : Executor ω) (rs : List Reserved) : Prop :=
  List.Forall₂ (SlotsTyped decl) e.callStack rs

/-- The next instruction respects the declared types. -/
structure StepFits (host : Host ω) (p : Program) (v : View ω) (r : Reserved)
    (instr : Instruction) : Prop where
  /-- it makes no value of another type for a reserved slot, unless it is the code of a `LOCAL` -/
  writes : (∀ i t, instr.reserves = some (i, t) → ¬ decl v.frame.funcIdx i t) →
    ∀ a w, v.advance.exec host p instr = .ok a w →
    ∀ op i t t', instr.destination = some op →
      op.place (v.advance.plug []) = some (.local_ i.toNat) → (i, t) ∈ r.now →
      decl v.frame.funcIdx i t → instr.Makes v.advance t' → t' = t ∨ t' = .null
  /-- a fault that is caught rolls back no reservation, unless to a value of the type -/
  faults : ∀ f w g, v.advance.exec host p instr = .error (.fault f) w →
    v.frame.tryGuard = some g →
    ∀ i t, (i, t) ∈ r.now → decl v.frame.funcIdx i t →
    (i, t) ∈ r.atTry ∨ HoldsType ((Slots.mk g.frameSnap).get i.toNat) t

/-- The next turn respects the declared types. -/
def TurnFits (host : Host ω) (p : Program) (e : Executor ω) (rs : List Reserved) : Prop :=
  ∀ cf below r rest func instr, e.callStack = cf :: below → rs = r :: rest →
    Fetch p cf func instr → StepFits decl host p ⟨cf, e.globals, e.world⟩ r instr

variable {decl} {host : Host ω} {p : Program}

/-! ## Instructions -/

theorem Instruction.reserves_eq_some {instr : Instruction} {i : U8} {t : FasmType}
    (h : instr.reserves = some (i, t)) :
    instr = ⟨.reserve, [.slot (.local_ i), .type t, .imm .null]⟩ := by
  obtain ⟨op, operands⟩ := instr
  unfold reserves at h
  split at h
  case isTrue hop =>
    obtain rfl : op = .reserve := hop
    split at h
    case h_1 hops =>
      obtain rfl := hops
      cases h
      rfl
    case h_2 => cases h
  case isFalse => cases h

theorem Instruction.releases_of_release {instr : Instruction} {i : U8}
    (hop : instr.opcode = .release) (h : instr.operands[0]? = some (.slot (.local_ i))) :
    instr.reserves = none ∧ instr.releases = some i := by
  obtain ⟨op, operands⟩ := instr
  obtain rfl : op = .release := hop
  cases operands with
  | nil => cases h
  | cons o os =>
    obtain rfl : o = .slot (.local_ i) := Option.some.inj h
    exact ⟨rfl, rfl⟩

/-- The code of a `LOCAL` puts the default of its type into the slot. -/
theorem get_of_reserves {instr : Instruction} {v w : View ω} {i : U8} {t : FasmType} {a : Action}
    (hr : instr.reserves = some (i, t)) (h : v.exec host p instr = .ok a w) :
    w.frame.frame.get i.toNat = some (defaultForType t) := by
  obtain rfl := Instruction.reserves_eq_some hr
  obtain ⟨t', init, h₁, h₂, op, hop, hw⟩ := View.exec_reserve h
  cases h₁
  cases h₂
  cases hop
  obtain rfl := View.writes_local hw
  exact Slots.get_set_self _ _ _

/-- A slot that is reserved after an instruction was reserved before or is now. -/
theorem Reserved.mem_nowAfter {r : Reserved} {instr : Instruction} {x : U8 × FasmType}
    (h : x ∈ r.nowAfter instr) :
    instr.reserves = some x ∨ x ∈ r.now ∧ instr.releases ≠ some x.1 := by
  unfold nowAfter at h
  split at h
  case h_1 y hy =>
    rcases List.mem_cons.mp h with rfl | h
    · exact .inl hy
    · refine .inr ⟨h, fun hrel => ?_⟩
      rw [Instruction.reserves_eq_some hy] at hrel
      cases hrel
  case h_2 i hrel _ =>
    obtain ⟨hmem, hne⟩ := List.mem_filter.mp h
    refine .inr ⟨hmem, fun hx => ?_⟩
    rw [hrel] at hx
    exact of_decide_eq_true hne (Option.some.inj hx).symm
  case h_3 hno => exact .inr ⟨h, hno _⟩

/-- A `TRY` block and the other instructions that write no slot. -/
theorem slots_of_guard {instr : Instruction} {v w : View ω} {a : Action}
    (h : v.exec host p instr = .ok a w) (hop : instr.opcode.setsGuard = true) :
    w.frame.frame = v.frame.frame := by
  obtain ⟨cf, below, guard, hstack, he⟩ := changesGuard_of_setsGuard (View.exec_run h) hop
  cases hstack
  exact congrArg (fun e : Executor ω => (e.callStack.head?.map (·.frame)).getD .new) he

theorem slots_of_tmp {instr : Instruction} {v w : View ω} {a : Action}
    (h : v.exec host p instr = .ok a w) (hop : instr.opcode.setsTmp = true) :
    w.frame.frame = v.frame.frame := by
  obtain ⟨cf, below, fs, hstack, -, he⟩ := changesTmpFrames_of_setsTmp (View.exec_run h) hop
  cases hstack
  exact congrArg (fun e : Executor ω => (e.callStack.head?.map (·.frame)).getD .new) he

theorem slots_of_syscall {instr : Instruction} {v w : View ω} {a : Action}
    (h : v.exec host p instr = .ok a w) (hop : instr.opcode.callsHandler = true) :
    w.frame.frame = v.frame.frame := by
  have hrun := View.exec_run h
  have hwrap (wrap : Value → Value)
      (hs : syscallOp instr host wrap (v.plug []) = .ok .continue_ (w.plug [])) :
      w.frame.frame = v.frame.frame := by
    obtain ⟨x, g, world, -, he⟩ := syscallOp_eq_ok_iff.mp hs
    exact congrArg (fun e : Executor ω => (e.callStack.head?.map (·.frame)).getD .new) he
  have hy := View.exec_yields host p instr v h
  obtain ⟨op, operands⟩ := instr
  cases op with
  | syscall | asyncSyscall =>
    cases a with
    | continue_ => exact hwrap _ hrun
    | _ => simp [Instruction.Yields] at hy
  | _ => cases hop

theorem fasmType_eq_null {v : Value} (h : v.fasmType = .null) : v = .null := by
  cases v <;> first | rfl | cases h

/-- No function declares two types for a slot. -/
def LocalTypes.Unique (decl : LocalTypes) : Prop :=
  ∀ k i t t', decl k i t → decl k i t' → t = t'

/-- An instruction that respects the declared types leaves the reserved slots with them. -/
theorem slotsTyped_exec {v w : View ω} {a : Action} {r : Reserved} {instr : Instruction}
    (huniq : decl.Unique) (hfit : StepFits decl host p v r instr)
    (ht : SlotsTyped decl v.frame r) (h : v.advance.exec host p instr = .ok a w) {i : U8}
    {t : FasmType} (hmem : (i, t) ∈ r.nowAfter instr) (hdecl : decl v.frame.funcIdx i t) :
    HoldsType (w.frame.frame.get i.toNat) t := by
  rcases Reserved.mem_nowAfter hmem with hres | ⟨hmem, hnot⟩
  · exact ⟨_, get_of_reserves hres h, .inl (fasmType_defaultForType t)⟩
  have hold := ht i t hmem hdecl
  by_cases hguard : instr.opcode.setsGuard = true
  · rwa [slots_of_guard h hguard]
  by_cases htmp : instr.opcode.setsTmp = true
  · rwa [slots_of_tmp h htmp]
  by_cases hcall : instr.opcode.callsHandler = true
  · rwa [slots_of_syscall h hcall]
  obtain ⟨x, hx, htype⟩ := hold
  cases exec_places h (Bool.not_eq_true _ ▸ hcall) (Bool.not_eq_true _ ▸ hguard)
    (Bool.not_eq_true _ ▸ htmp) (.local_ i.toNat) with
  | same hget => exact ⟨x, hget.trans hx, htype⟩
  | @kept c c' hget hget' hkept =>
    cases hget.symm.trans hx
    refine ⟨c', hget', htype.imp hkept.trans fun hnull => fasmType_eq_null ?_⟩
    rw [hkept, hnull]
    rfl
  | @made op y hdst hop hget' hmakes =>
    by_cases hres : ∃ i' t', instr.reserves = some (i', t') ∧ decl v.frame.funcIdx i' t'
    · obtain ⟨i', t', hres, hdecl'⟩ := hres
      obtain rfl := Instruction.reserves_eq_some hres
      cases hdst
      obtain rfl : i' = i := BitVec.eq_of_toNat_eq (Place.local_.inj (Option.some.inj hop))
      obtain rfl := huniq _ _ _ _ hdecl hdecl'
      exact ⟨_, get_of_reserves hres h, .inl (fasmType_defaultForType t)⟩
    · have hno : ∀ i' t', instr.reserves = some (i', t') → ¬ decl v.frame.funcIdx i' t' :=
        fun i' t' hr hd => hres ⟨i', t', hr, hd⟩
      exact ⟨y, hget', (hfit.writes hno a w h op i t _ hdst hop hmem hdecl hmakes).imp_right
        fasmType_eq_null⟩
  | @released s hrel hs hplain hq =>
    -- the slot would not be reserved any more
    obtain rfl : s = .local_ i := place_inj hplain rfl hq
    exact absurd (Instruction.releases_of_release hrel hs).2 hnot

/-- Only a `TRY` takes a snapshot, and it takes it of the slots as they are. -/
theorem guardTyped_exec {v w : View ω} {a : Action} {r : Reserved} {instr : Instruction}
    (ht : SlotsTyped decl v.frame r) (hg : GuardTyped decl v.frame r)
    (h : v.advance.exec host p instr = .ok a w) {g : TryGuard} (hw : w.frame.tryGuard = some g)
    {i : U8} {t : FasmType}
    (hmem : (i, t) ∈ if instr.opcode = .try_ then r.now else r.atTry)
    (hdecl : decl v.frame.funcIdx i t) : HoldsType ((Slots.mk g.frameSnap).get i.toNat) t := by
  by_cases hop : instr.opcode.setsGuard = true
  · obtain ⟨op, operands⟩ := instr
    cases op with
    | try_ =>
      rw [View.exec_try] at h
      split at h
      · cases h
        cases hw
        exact ht i t hmem hdecl
      · cases h
    | catch_ =>
      rw [View.exec_catch] at h
      cases h
      cases hw
    | endTry =>
      rw [View.exec_endTry] at h
      cases h
      cases hw
    | _ => cases hop
  · have hno : instr.opcode.setsGuard = false := Bool.not_eq_true _ ▸ hop
    have hkept := exec_guard h hno
    have htry : instr.opcode ≠ .try_ := fun htry => by rw [htry] at hno; cases hno
    rw [if_neg htry] at hmem
    exact hg g (hkept.symm.trans hw) i t hmem hdecl

/-! ## Runs -/

variable (decl) in
/-- The reserved slots of a frame have their declared types, now and in the snapshot. -/
structure FrameTyped (cf : CallFrame) (r : Reserved) : Prop where
  slots : SlotsTyped decl cf r
  guard : GuardTyped decl cf r

theorem frameTyped_none (cf : CallFrame) : FrameTyped decl cf .none := ⟨nofun, nofun⟩

theorem Reserved.next_ok {v w : View ω} {r : Reserved} {func : FunctionDef}
    {instr : Instruction} {a : Action} (hfetch : Fetch p v.frame func instr)
    (h : v.advance.exec host p instr = .ok a w) : r.next host p v = r.after instr a := by
  simp only [next, hfetch.func_eq, Option.bind_some, hfetch.instr_eq, h]

theorem Reserved.next_error {v w : View ω} {r : Reserved} {func : FunctionDef}
    {instr : Instruction} {s : Stop} (hfetch : Fetch p v.frame func instr)
    (h : v.advance.exec host p instr = .error s w) : r.next host p v = r := by
  simp only [next, hfetch.func_eq, Option.bind_some, hfetch.instr_eq, h]

/-- The frame after an instruction that goes on in it, wherever and with whatever `$ret`. -/
theorem frameTyped_exec {v w : View ω} {a : Action} {r : Reserved} {func : FunctionDef}
    {instr : Instruction} (huniq : decl.Unique) (hfetch : Fetch p v.frame func instr)
    (hfit : StepFits decl host p v r instr) (ht : FrameTyped decl v.frame r)
    (h : v.advance.exec host p instr = .ok a w) (ha : ∀ i args, a ≠ .tailCall i args)
    (ip : Nat) (ret : Value) :
    FrameTyped decl { w.frame with ip := ip, retVal := ret } (r.next host p v) := by
  have hafter : r.next host p v =
      ⟨r.nowAfter instr, if instr.opcode = .try_ then r.now else r.atTry⟩ := by
    rw [Reserved.next_ok hfetch h]
    cases a with
    | tailCall i args => exact absurd rfl (ha i args)
    | _ => rfl
  have hidx : w.frame.funcIdx = v.frame.funcIdx := exec_funcIdx h
  rw [hafter]
  refine ⟨fun i t hmem hdecl => ?_, fun g hg i t hmem hdecl => ?_⟩
  · exact slotsTyped_exec huniq hfit ht.slots h hmem (hidx ▸ hdecl)
  · exact guardTyped_exec ht.slots ht.guard h hg hmem (hidx ▸ hdecl)

/-- A frame that stays on top keeps its reserved slots typed. -/
theorem frameTyped_stay {v : View ω} {r : Reserved} {cf : CallFrame} {g : GlobalRegister × ω}
    (huniq : decl.Unique)
    (hfits : ∀ func instr, Fetch p v.frame func instr → StepFits decl host p v r instr)
    (ht : FrameTyped decl v.frame r) (h : v.move host p = .stay cf g) :
    FrameTyped decl cf (r.next host p v) := by
  cases moves_of_eq h with
  | @goOn func instr w hfetch hexec =>
    exact frameTyped_exec huniq hfetch (hfits _ _ hfetch) ht hexec nofun w.frame.ip w.frame.retVal
  | @jump func instr w target hfetch hexec =>
    exact frameTyped_exec huniq hfetch (hfits _ _ hfetch) ht hexec nofun target w.frame.retVal
  | @callJit func instr w i args ret world hfetch hexec =>
    exact frameTyped_exec huniq hfetch (hfits _ _ hfetch) ht hexec nofun w.frame.ip ret
  | tail hfetch hexec =>
    rw [Reserved.next_ok hfetch hexec]
    exact frameTyped_none _
  | @caught func instr w f guard hfetch hexec hguard =>
    have hidx : w.frame.funcIdx = v.frame.funcIdx := exec_funcIdx hexec
    have hguard' : v.frame.tryGuard = some guard := (exec_stop_guard hexec).symm.trans hguard
    rw [Reserved.next_error hfetch hexec]
    refine ⟨fun i t hmem hdecl => ?_, nofun⟩
    have hdecl' : decl v.frame.funcIdx i t := hidx ▸ hdecl
    rcases (hfits _ _ hfetch).faults f w guard hexec hguard' i t hmem hdecl' with hmem' | hsnap
    · exact ht.guard guard hguard' i t hmem' hdecl'
    · exact hsnap

theorem frameTyped_ret {cf : CallFrame} {r : Reserved} (h : FrameTyped decl cf r) (ret : Value) :
    FrameTyped decl { cf with retVal := ret } r := ⟨h.slots, h.guard⟩

/-- A turn that respects the declared types keeps them in every frame. -/
theorem typed_step {e e' : Executor ω} {rs : List Reserved} (huniq : decl.Unique)
    (hfits : TurnFits decl host p e rs) (ht : List.Forall₂ (FrameTyped decl) e.callStack rs)
    (hs : Step host p e e') :
    List.Forall₂ (FrameTyped decl) e'.callStack (reservedAfter host p e rs) := by
  obtain ⟨gl, stack, world⟩ := e
  obtain ⟨gl', stack', world'⟩ := e'
  cases ht with
  | nil => cases step_iff.mp hs
  | @cons cf r below rest hcf hrest =>
    have htop (func : FunctionDef) (instr : Instruction) (h : Fetch p cf func instr) :=
      hfits cf below r rest func instr rfl rfl h
    cases step_iff.mp hs with
    | stay hmove =>
      have hmove : View.move host p ⟨cf, gl, world⟩ = _ := hmove
      simp only [reservedAfter, hmove]
      exact .cons (frameTyped_stay huniq htop hcf hmove) hrest
    | enter hmove =>
      have hmove : View.move host p ⟨cf, gl, world⟩ = _ := hmove
      simp only [reservedAfter, hmove]
      refine .cons (frameTyped_none _) (.cons ?_ hrest)
      cases moves_of_eq hmove with
      | call hfetch hexec =>
        rw [exec_call_eq hexec]
        exact ⟨hcf.slots, hcf.guard⟩
    | leave hmove =>
      have hmove : View.move host p ⟨cf, gl, world⟩ = _ := hmove
      simp only [reservedAfter, hmove]
      cases hrest with
      | cons hcaller hrest => exact .cons (frameTyped_ret hcaller _) hrest

/-- Runs whose turns respect the declared types keep them. -/
theorem typed_run {e : Executor ω} {rs : List Reserved} (huniq : decl.Unique)
    (h : ReservedRun host p (TurnFits decl host p) e rs) : StackTyped decl e rs := by
  suffices h : List.Forall₂ (FrameTyped decl) e.callStack rs from h.imp fun _ _ hcf => hcf.slots
  induction h with
  | start h =>
    exact List.forall₂_iff_get.mpr ⟨by simp, fun i h₁ h₂ => by
      simpa using frameTyped_none _⟩
  | step _ hfits hs ih => exact typed_step huniq hfits ih hs

end Fasm
