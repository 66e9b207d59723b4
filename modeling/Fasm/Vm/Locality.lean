import Fasm.Lib.Focus
import Fasm.Vm.Instr

/-!
# Instructions run on the top frame

Every instruction reads and writes the top frame, the globals and what the syscall
handlers see, and nothing below the top of the call stack.  It leaves the frame's
function, `ip` and `$args` as they are; only `TRY`, `CATCH` and `ENDTRY` change its
guard; and only five opcodes can panic.

The facts are proved once for the helpers and composed along the definition of each
instruction.
-/

namespace Fasm

open ExecM

variable {ω : Type} {α : Type}

/-- What an instruction works on: the top frame and what all frames share. -/
structure View (ω : Type) where
  frame : CallFrame
  globals : GlobalRegister
  world : ω

/-- The view on top of the frames below. -/
def View.plug (v : View ω) (below : List CallFrame) : Executor ω where
  globals := v.globals
  callStack := v.frame :: below
  world := v.world

/-- What every instruction keeps of the top frame. -/
def View.position (v : View ω) : Nat × Nat × Value := (v.frame.funcIdx, v.frame.ip, v.frame.args)

/-- What instructions other than `TRY`, `CATCH` and `ENDTRY` keep of the top frame. -/
def View.guarded (v : View ω) : (Nat × Nat × Value) × Option TryGuard :=
  (v.position, v.frame.tryGuard)

/-- Not a panic. -/
def NoPanic (s : Stop) : Prop := ∀ x, s ≠ .panic x

@[simp] theorem noPanic_fault (f : Fault) : NoPanic (.fault f) := nofun

@[simp] theorem noPanic_exit (c : U32) : NoPanic (.exit c) := nofun

/-- A computation on the top frame that does not touch its guard. -/
abbrev OnTop (E : Stop → Prop) (m : ExecM ω α) : Prop := Focused View.plug View.guarded E m

/-! ## Helpers -/

@[simp] theorem raises_orFault (o : Option α) (f : Fault) : Raises NoPanic (orFault o f) := by
  cases o with
  | none => exact Raises.error.mpr (noPanic_fault f)
  | some a => exact Raises.ok a

theorem raises_getOp (instr : Instruction) (n : Nat) : Raises NoPanic (instr.getOp n) :=
  raises_orFault _ _

@[simp] theorem raises_asU32 (v : Value) : Raises NoPanic (asU32 v) := by
  unfold asU32
  split <;> simp

@[simp] theorem raises_asU64 (v : Value) : Raises NoPanic (asU64 v) := raises_orFault _ _

theorem raises_labelTarget (op : Operand) : Raises NoPanic (labelTarget op) := by
  unfold labelTarget
  split <;> simp

theorem raises_syscallId (op : Operand) : Raises NoPanic (syscallId op) := by
  unfold syscallId
  split
  · exact Raises.ok _
  · exact Raises.ok _
  · exact Raises.error.mpr (noPanic_fault _)

theorem raises_castValue (v : Value) (t : FasmType) : Raises NoPanic (castValue v t) := by
  unfold castValue
  cases t with
  | bool | int | float32 | float64 => exact raises_orFault _ _
  | _ => exact Raises.error.mpr (noPanic_fault _)

theorem raises_tmpSlot (cf : CallFrame) (idx : U8) : Raises NoPanic (cf.tmpSlot idx) := by
  unfold CallFrame.tmpSlot
  split
  · simp
  · split <;> simp

theorem raises_setTmpSlot (cf : CallFrame) (idx : U8) (v : Option Value) :
    Raises NoPanic (cf.setTmpSlot idx v) := by
  unfold CallFrame.setTmpSlot
  split
  · simp
  · split <;> simp

/-- Writing a `TMP` register leaves the rest of the frame. -/
theorem setTmpSlot_eq {cf cf' : CallFrame} {idx : U8} {v : Option Value}
    (h : cf.setTmpSlot idx v = .ok cf') :
    ∃ fs, fs.length = cf.tmpFrames.length ∧ cf' = { cf with tmpFrames := fs } := by
  unfold CallFrame.setTmpSlot at h
  split at h
  · cases h
  · rename_i hfs
    split at h
    · cases h
      exact ⟨_, by rw [hfs]; rfl, rfl⟩
    · cases h

/-- A `&self` helper that reads the top of the stack only. -/
structure Readable (E : Stop → Prop) (f : Executor ω → Except Stop α) : Prop where
  local_ : ∀ (v : View ω) below, f (v.plug below) = f (v.plug [])
  raises : ∀ v : View ω, Raises E (f (v.plug []))

theorem Readable.const {E : Stop → Prop} {x : Except Stop α} (hx : Raises E x) :
    Readable E fun _ : Executor ω => x := ⟨fun _ _ => rfl, fun _ => hx⟩

theorem raises_derefValue (v : View ω) (x : Value) :
    Raises NoPanic ((v.plug []).derefValue x) := by
  unfold Executor.derefValue
  split
  · split
    · exact raises_orFault _ _
    · exact raises_orFault _ _
  · split
    · exact raises_orFault _ _
    · exact raises_orFault _ _
  · simp
  · simp

theorem readable_readSlot (s : SlotRef) : Readable NoPanic fun e : Executor ω => e.readSlot s where
  local_ v below := by cases s <;> rfl
  raises v := by
    cases s with
    | local_ idx => exact raises_orFault _ _
    | tmp idx => exact (raises_tmpSlot _ _).bind fun _ => raises_orFault _ _
    | global idx => exact raises_orFault _ _
    | derefLocal idx => exact (raises_orFault _ _).bind fun x => raises_derefValue v x
    | derefTmp idx =>
      exact (raises_tmpSlot _ _).bind fun _ =>
        (raises_orFault _ _).bind fun x => raises_derefValue v x
    | derefGlobal idx => exact (raises_orFault _ _).bind fun x => raises_derefValue v x
    | builtIn b => cases b <;> exact Raises.pure _

theorem readable_readOperand (op : Operand) :
    Readable NoPanic fun e : Executor ω => e.readOperand op := by
  cases op with
  | slot s => exact readable_readSlot s
  | imm i => exact ⟨fun _ _ => rfl, fun _ => Raises.ok _⟩
  | _ => exact ⟨fun _ _ => rfl, fun _ => Raises.error.mpr (noPanic_fault _)⟩

theorem readable_immOperand (op : Operand) :
    Readable NoPanic fun e : Executor ω => e.immOperand op := by
  cases op with
  | slot s => exact readable_readSlot s
  | imm i => exact ⟨fun _ _ => rfl, fun _ => Raises.ok _⟩
  | _ => exact ⟨fun _ _ => rfl, fun _ => Raises.error.mpr (noPanic_fault _)⟩

theorem readable_readKeyOperand (op : Operand) :
    Readable NoPanic fun e : Executor ω => e.readKeyOperand op := by
  unfold Executor.readKeyOperand
  split
  · exact ⟨fun _ _ => rfl, fun _ => Raises.ok _⟩
  · exact ⟨fun _ _ => rfl, fun _ => Raises.ok _⟩
  · rename_i s
    have h := readable_readOperand (ω := ω) (.slot s)
    refine ⟨fun v below => ?_, fun v => (h.raises v).bind raises_asU32⟩
    simp only [h.local_ v below]
  · exact ⟨fun _ _ => rfl, fun _ => Raises.error.mpr (noPanic_fault _)⟩

/-! ## Primitives -/

/-- Writing slots and `TMP` registers does not change what `keep` sees. -/
structure Unwritten {τ : Type} (keep : View ω → τ) : Prop where
  locals : ∀ (v : View ω) f, keep { v with frame := { v.frame with frame := f } } = keep v
  shared : ∀ (v : View ω) g w, keep ⟨v.frame, g, w⟩ = keep v
  tmp : ∀ (v : View ω) fs, fs.length = v.frame.tmpFrames.length →
    keep { v with frame := { v.frame with tmpFrames := fs } } = keep v

/-- Assigning `$ret` does not change what `keep` sees. -/
def RetUnwritten {τ : Type} (keep : View ω → τ) : Prop :=
  ∀ (v : View ω) x, keep { v with frame := { v.frame with retVal := x } } = keep v

/-- What slots, `TMP` registers and `$ret` are no part of: the position, the guard and the
number of `TMP` frames. -/
def View.steady (v : View ω) : ((Nat × Nat × Value) × Option TryGuard) × Nat :=
  (v.guarded, v.frame.tmpFrames.length)

theorem unwritten_steady : Unwritten (View.steady (ω := ω)) where
  locals _ _ := rfl
  shared _ _ _ := rfl
  tmp _ _ h := congrArg (Prod.mk _) h

theorem unwritten_guarded : Unwritten (View.guarded (ω := ω)) where
  locals _ _ := rfl
  shared _ _ _ := rfl
  tmp _ _ _ := rfl

namespace OnTop

section Keep

variable {τ : Type} {keep : View ω → τ}

theorem reads {E : Stop → Prop} {f : Executor ω → Except Stop α}
    (hf : Readable E f) : Focused View.plug keep E (reads f) := fun v => by
  cases h : f (v.plug []) with
  | ok a =>
    refine ⟨.ok a v, rfl, trivial, fun below => ?_⟩
    simp only [ExecM.reads, hf.local_ v below, h]
    rfl
  | error s =>
    refine ⟨.error s v, rfl, hf.raises v s h, fun below => ?_⟩
    simp only [ExecM.reads, hf.local_ v below, h]
    rfl

theorem onLast {E : Stop → Prop} {f : CallFrame → Except Stop (α × CallFrame)}
    (hf : ∀ cf, Raises E (f cf))
    (hk : ∀ cf a cf', f cf = .ok (a, cf') → ∀ g w, keep ⟨cf', g, w⟩ = keep ⟨cf, g, w⟩) :
    Focused View.plug keep E (onLast f : ExecM ω α) := fun v => by
  cases h : f v.frame with
  | ok r =>
    refine ⟨.ok r.1 { v with frame := r.2 }, hk _ _ _ h _ _, trivial, fun below => ?_⟩
    simp only [ExecM.onLast, View.plug, h, mapState]
  | error s =>
    refine ⟨.error s v, rfl, hf _ s h, fun below => ?_⟩
    simp only [ExecM.onLast, View.plug, h, mapState]

theorem assignLast {E : Stop → Prop} {f : CallFrame → CallFrame}
    (hk : ∀ cf g w, keep ⟨f cf, g, w⟩ = keep ⟨cf, g, w⟩) :
    Focused View.plug keep E (assignLast f : ExecM ω Unit) :=
  onLast (fun _ => Raises.ok _) fun cf _ _ h g w => by
    cases h
    exact hk cf g w

variable (hk : Unwritten keep)
include hk

theorem onGlobals {E : Stop → Prop} {f : GlobalRegister → Except Stop (α × GlobalRegister)}
    (hf : ∀ g, Raises E (f g)) : Focused View.plug keep E (onGlobals f : ExecM ω α) :=
  fun v => by
  cases h : f v.globals with
  | ok r =>
    refine ⟨.ok r.1 { v with globals := r.2 }, hk.shared v r.2 v.world, trivial, fun below => ?_⟩
    simp only [ExecM.onGlobals, View.plug, h, mapState]
  | error s =>
    refine ⟨.error s v, rfl, hf _ s h, fun below => ?_⟩
    simp only [ExecM.onGlobals, View.plug, h, mapState]

/-! ## Slot helpers -/

variable {E : Stop → Prop} (hE : ∀ s, NoPanic s → E s)
include hE

theorem derefWrite (refVal val : Value) :
    Focused View.plug keep E (derefWrite refVal val : ExecM ω Unit) := by
  have hfault : ∀ f, E (.fault f) := fun f => hE _ (noPanic_fault f)
  unfold ExecM.derefWrite
  split
  · split
    · exact onGlobals hk fun _ => Raises.ok _
    · exact assignLast fun cf g w => hk.locals ⟨cf, g, w⟩ _
  · exact .throw (hfault _)
  · exact .throw (hfault _)
  · exact .throw (hfault _)

theorem setTmp (idx : U8) (o : Option Value) :
    Focused View.plug keep E (ExecM.onLast fun cf => do return ((), ← cf.setTmpSlot idx o) :
      ExecM ω Unit) := by
  refine onLast (fun cf => ((raises_setTmpSlot _ _ _).mono hE).bind fun _ => Raises.pure _) ?_
  intro cf _ cf' h g w
  obtain ⟨cf₁, h₁, h⟩ := bind_eq_ok h
  obtain ⟨fs, hlen, rfl⟩ := setTmpSlot_eq h₁
  cases h
  exact hk.tmp ⟨cf, g, w⟩ fs hlen

theorem writeSlot {s : SlotRef} (hret : s = .builtIn .ret → RetUnwritten keep) (val : Value) :
    Focused View.plug keep E (writeSlot s val : ExecM ω Unit) := by
  have hread {f} (hf : Readable NoPanic f) :
      Focused View.plug keep E (ExecM.reads f : ExecM ω Value) := (reads hf).mono hE
  cases s with
  | local_ idx => exact assignLast fun cf g w => hk.locals ⟨cf, g, w⟩ _
  | tmp idx => exact setTmp hk hE idx (some val)
  | global idx =>
    unfold ExecM.writeSlot
    exact onGlobals hk fun _ => Raises.ok _
  | derefLocal idx =>
    refine .bind (hread ⟨fun _ _ => rfl, fun v => ?_⟩) fun r => derefWrite hk hE r val
    exact raises_orFault _ _
  | derefTmp idx =>
    refine .bind (hread ⟨fun _ _ => rfl, fun v => ?_⟩) fun r => derefWrite hk hE r val
    exact (raises_tmpSlot _ _).bind fun _ => raises_orFault _ _
  | derefGlobal idx =>
    refine .bind (hread ⟨fun _ _ => rfl, fun v => ?_⟩) fun r => derefWrite hk hE r val
    exact raises_orFault _ _
  | builtIn b =>
    cases b with
    | ret => exact assignLast fun cf g w => hret rfl ⟨cf, g, w⟩ val
    | _ => exact .throw (hE _ (noPanic_fault _))

theorem writeVal {op : Operand} (hret : op = .slot (.builtIn .ret) → RetUnwritten keep)
    (val : Value) : Focused View.plug keep E (writeVal op val : ExecM ω Unit) := by
  cases op with
  | slot s => exact writeSlot hk hE (fun h => hret (congrArg _ h)) val
  | _ => exact .throw (hE _ (noPanic_fault _))

omit hE in
theorem releaseOperand (op : Operand) :
    Focused View.plug keep E (releaseOperand op : ExecM ω Unit) := by
  cases op with
  | slot s =>
    cases s with
    | local_ idx =>
      exact fun v => ⟨.ok () { v with frame := { v.frame with
        frame := v.frame.frame.remove idx.toNat } }, hk.locals v _, trivial, fun _ => rfl⟩
    | tmp idx =>
      intro v
      cases h : v.frame.setTmpSlot idx none with
      | ok cf =>
        obtain ⟨fs, hlen, rfl⟩ := setTmpSlot_eq h
        refine ⟨.ok () { v with frame := { v.frame with tmpFrames := fs } }, hk.tmp v fs hlen,
          trivial, fun below => ?_⟩
        show EStateM.Result.ok () _ = _
        simp only [View.plug, h, mapState]
      | error s =>
        refine ⟨.ok () v, rfl, trivial, fun below => ?_⟩
        show EStateM.Result.ok () _ = _
        simp only [View.plug, h, mapState]
    | global idx =>
      exact fun v => ⟨.ok () { v with globals := v.globals.remove idx.toNat }, hk.shared v _ v.world,
        trivial, fun _ => rfl⟩
    | _ => exact .pure ()
  | _ => exact .pure ()

theorem writeTargetMut (op : Operand) {f : Value → Except Stop (α × Value)}
    (hf : ∀ v, Raises E (f v)) :
    Focused View.plug keep E (writeTargetMut op f : ExecM ω α) := by
  have hfault : ∀ f, E (.fault f) := fun f => hE _ (noPanic_fault f)
  cases op with
  | slot s =>
    cases s with
    | local_ idx =>
      unfold ExecM.writeTargetMut
      refine onLast (fun cf => ?_) ?_
      · exact ((raises_orFault _ _).mono hE).bind fun v => (hf v).bind fun _ => Raises.pure _
      · intro cf a cf' h g w
        obtain ⟨v, hv, h⟩ := bind_eq_ok h
        obtain ⟨r, hr, h⟩ := bind_eq_ok h
        cases h
        exact hk.locals ⟨cf, g, w⟩ _
    | tmp idx =>
      unfold ExecM.writeTargetMut
      refine onLast (fun cf => ?_) ?_
      · exact ((raises_tmpSlot _ _).mono hE).bind fun o =>
          ((raises_orFault _ _).mono hE).bind fun v => (hf v).bind fun _ =>
            ((raises_setTmpSlot _ _ _).mono hE).bind fun _ => Raises.pure _
      · intro cf a cf' h g w
        obtain ⟨o, ho, h⟩ := bind_eq_ok h
        obtain ⟨v, hv, h⟩ := bind_eq_ok h
        obtain ⟨r, hr, h⟩ := bind_eq_ok h
        obtain ⟨cf₁, h₁, h⟩ := bind_eq_ok h
        obtain ⟨fs, hlen, rfl⟩ := setTmpSlot_eq h₁
        cases h
        exact hk.tmp ⟨cf, g, w⟩ fs hlen
    | global idx =>
      unfold ExecM.writeTargetMut
      refine onGlobals hk fun g => ?_
      exact ((raises_orFault _ _).mono hE).bind fun v => (hf v).bind fun _ => Raises.pure _
    | _ => exact .throw (hfault _)
  | _ => exact .throw (hfault _)

theorem callSyscall (handler : SyscallFn ω) (args : Value) :
    Focused View.plug keep E (callSyscall handler args) := fun v => by
  rcases h : handler args v.globals v.world with ⟨o, g, w⟩
  cases o with
  | value x =>
    refine ⟨.ok x { v with globals := g, world := w }, hk.shared v g w, trivial, fun below => ?_⟩
    simp only [Fasm.callSyscall, View.plug, h, mapState]
  | fault f =>
    refine ⟨.error (.fault f) { v with globals := g, world := w }, hk.shared v g w,
      hE _ (noPanic_fault f), fun below => ?_⟩
    simp only [Fasm.callSyscall, View.plug, h, mapState]
  | exit c =>
    refine ⟨.error (.exit c) { v with globals := g, world := w }, hk.shared v g w,
      hE _ (noPanic_exit c), fun below => ?_⟩
    simp only [Fasm.callSyscall, View.plug, h, mapState]

end Keep

end OnTop

end Fasm
