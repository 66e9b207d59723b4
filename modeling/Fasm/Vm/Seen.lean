import Fasm.Vm.Control
import Mathlib.Logic.Function.Basic

/-!
# What a run can see of the globals

`GlobalRegister` is a vector that grows; a program sees what its slots hold, not how
long it is.  Two executors that differ only in the length of the global vector, and
of the copies of it that guards hold, are indistinguishable for every instruction.
-/

namespace Fasm

open ExecM

variable {ω : Type} {α : Type}

/-- What can be seen of a guard: its snapshot of the globals by the slots. -/
def TryGuard.seen (g : TryGuard) : Nat × Nat × List (Option Value) × (Nat → Option Value) :=
  (g.catchIp, g.endIp, g.frameSnap, (Slots.mk g.globalSnap).get)

/-- What can be seen of a frame. -/
def CallFrame.seen (cf : CallFrame) :
    CallFrame × Option (Nat × Nat × List (Option Value) × (Nat → Option Value)) :=
  ({ cf with tryGuard := none }, cf.tryGuard.map TryGuard.seen)

/-- What can be seen of an executor. -/
structure Seen (ω : Type) where
  globals : Nat → Option Value
  callStack : List (CallFrame × Option (Nat × Nat × List (Option Value) × (Nat → Option Value)))
  world : ω

/-- What can be seen of an executor. -/
def Executor.seen (e : Executor ω) : Seen ω where
  globals := e.globals.get
  callStack := e.callStack.map CallFrame.seen
  world := e.world

theorem Slots.get_set (s : Slots) (i : Nat) (v : Value) :
    (s.set i v).get = Function.update s.get i (some v) := by
  funext j
  by_cases h : j = i
  · subst h
    rw [get_set_self, Function.update_self]
  · rw [get_set_of_ne s (Ne.symm h), Function.update_of_ne h]

theorem Slots.get_remove (s : Slots) (i : Nat) :
    (s.remove i).get = Function.update s.get i none := by
  funext j
  by_cases h : j = i
  · subst h
    rw [get_remove_self, Function.update_self]
  · rw [get_remove_of_ne s (Ne.symm h), Function.update_of_ne h]

/-- Executors that look alike have alike frames on top, or no frame. -/
theorem seen_cases {e e' : Executor ω} (h : e.seen = e'.seen) :
    (e.callStack = [] ∧ e'.callStack = []) ∨
      ∃ cf below cf' below', e.callStack = cf :: below ∧ e'.callStack = cf' :: below' ∧
        cf.seen = cf'.seen ∧ below.map CallFrame.seen = below'.map CallFrame.seen := by
  have hstack : e.callStack.map CallFrame.seen = e'.callStack.map CallFrame.seen :=
    congrArg Seen.callStack h
  cases hs : e.callStack with
  | nil =>
    rw [hs] at hstack
    exact .inl ⟨rfl, List.map_eq_nil_iff.mp hstack.symm⟩
  | cons cf below =>
    rw [hs] at hstack
    obtain ⟨cf', below', hs', hcf, hbelow⟩ := List.map_eq_cons_iff.mp hstack.symm
    exact .inr ⟨cf, below, cf', below', rfl, hs', hcf.symm, hbelow.symm⟩

/-- Frames that look alike differ in their guards only. -/
theorem frame_of_seen {cf cf' : CallFrame} (h : cf.seen = cf'.seen) :
    cf' = { cf with tryGuard := cf'.tryGuard } ∧
      cf.tryGuard.map TryGuard.seen = cf'.tryGuard.map TryGuard.seen := by
  obtain ⟨hbare, hguard⟩ := Prod.mk.inj h
  refine ⟨?_, hguard⟩
  obtain ⟨funcIdx, ip, frame, args, retVal, g, tmpFrames⟩ := cf
  obtain ⟨funcIdx', ip', frame', args', retVal', g', tmpFrames'⟩ := cf'
  cases hbare
  rfl

/-- Frames with guards that look alike, and the same otherwise. -/
theorem seen_of_guards (cf : CallFrame) {g g' : Option TryGuard}
    (h : g.map TryGuard.seen = g'.map TryGuard.seen) :
    ({ cf with tryGuard := g } : CallFrame).seen = ({ cf with tryGuard := g' } : CallFrame).seen :=
  congrArg (Prod.mk { cf with tryGuard := none }) h

theorem Executor.seen_eq {e e' : Executor ω} (hg : e.globals.get = e'.globals.get)
    (hs : e.callStack.map CallFrame.seen = e'.callStack.map CallFrame.seen)
    (hw : e.world = e'.world) : e.seen = e'.seen := by
  unfold Executor.seen
  rw [hg, hs, hw]

/-- The same change of alike frames on top. -/
theorem seen_onTop {e e' : Executor ω} (h : e.seen = e'.seen) {cf cf' : CallFrame}
    {below below' : List CallFrame} (hcf : cf.seen = cf'.seen)
    (hbelow : below.map CallFrame.seen = below'.map CallFrame.seen) {f : CallFrame → CallFrame}
    (hf : ∀ cf g, f { cf with tryGuard := g } = { f cf with tryGuard := g }) :
    Executor.seen { e with callStack := f cf :: below } =
      Executor.seen { e' with callStack := f cf' :: below' } := by
  obtain ⟨hcf', hguard⟩ := frame_of_seen hcf
  have hself : f cf = { f cf with tryGuard := cf.tryGuard } := hf cf cf.tryGuard
  refine Executor.seen_eq (congrArg Seen.globals h) ?_ (congrArg Seen.world h)
  refine congrArg₂ List.cons ?_ hbelow
  have hother : f cf' = { f cf with tryGuard := cf'.tryGuard } := by rw [hcf', hf]
  rw [hother]
  exact (congrArg CallFrame.seen hself).trans (seen_of_guards (f cf) hguard)

/-! ## Reading -/

section Read

variable {e e' : Executor ω}

theorem derefValue_seen (h : e.seen = e'.seen) (v : Value) :
    e.derefValue v = e'.derefValue v := by
  have hg : e.globals.get = e'.globals.get := congrArg Seen.globals h
  unfold Executor.derefValue Executor.last
  rw [hg]
  rcases seen_cases h with ⟨hs, hs'⟩ | ⟨cf, below, cf', below', hs, hs', hcf, -⟩
  · rw [hs, hs']
  · rw [hs, hs', (frame_of_seen hcf).1]
    rfl

theorem readSlot_seen (h : e.seen = e'.seen) (s : SlotRef) : e.readSlot s = e'.readSlot s := by
  have hg : e.globals.get = e'.globals.get := congrArg Seen.globals h
  unfold Executor.readSlot Executor.last
  simp only [derefValue_seen h, hg]
  rcases seen_cases h with ⟨hs, hs'⟩ | ⟨cf, below, cf', below', hs, hs', hcf, -⟩
  · rw [hs, hs']
  · rw [hs, hs', (frame_of_seen hcf).1]
    cases s <;> rfl

theorem readOperand_seen (h : e.seen = e'.seen) (op : Operand) :
    e.readOperand op = e'.readOperand op := by
  cases op with
  | slot s => exact readSlot_seen h s
  | _ => rfl

/-- What an instruction reads is what it sees. -/
theorem Reader.seen {E : Stop → Prop} {f : Executor ω → Except Stop α} (hf : Reader E f)
    (h : e.seen = e'.seen) : f e = f e' := by
  cases hf with
  | const => rfl
  | operand op => exact readOperand_seen h op
  | immediate op =>
    cases op with
    | slot s => exact readSlot_seen h s
    | _ => rfl
  | key op =>
    unfold Executor.readKeyOperand
    simp only [readOperand_seen h]
  | callTarget instr p =>
    change Fasm.callTarget instr p e = Fasm.callTarget instr p e'
    simp only [Fasm.callTarget, readOperand_seen h]

end Read

/-! ## Writing -/

/-- The frame function does not look at the guard, and keeps it. -/
def GuardBlind (f : CallFrame → Except Stop (α × CallFrame)) : Prop :=
  ∀ cf g, f { cf with tryGuard := g } =
    (f cf).map fun r => (r.1, { r.2 with tryGuard := g })

/-- Assigning a `TMP` register does not look at the guard. -/
theorem setTmpSlot_guard (cf : CallFrame) (g : Option TryGuard) (i : U8) (v : Option Value) :
    ({ cf with tryGuard := g } : CallFrame).setTmpSlot i v =
      (cf.setTmpSlot i v).map fun cf' => { cf' with tryGuard := g } := by
  obtain ⟨_, _, _, _, _, _, tmpFrames⟩ := cf
  cases tmpFrames with
  | nil => rfl
  | cons f fs =>
    by_cases hi : i.toNat < 16
    · simp only [CallFrame.setTmpSlot, dif_pos hi, Except.map]
    · simp only [CallFrame.setTmpSlot, dif_neg hi, Except.map]

/-- The frame after a release of a `TMP` register. -/
def CallFrame.clearTmp (cf : CallFrame) (i : U8) : CallFrame :=
  match cf.setTmpSlot i none with
  | .ok cf' => cf'
  | .error _ => cf

namespace GuardBlind

/-- Reading the frame first, apart from its guard. -/
theorem read {β : Type} {x : CallFrame → Except Stop β}
    {k : β → CallFrame → Except Stop (α × CallFrame)}
    (hx : ∀ cf g, x { cf with tryGuard := g } = x cf) (hk : ∀ b, GuardBlind (k b)) :
    GuardBlind fun cf => x cf >>= fun b => k b cf := by
  intro cf g
  simp only [hx cf g]
  cases x cf with
  | error s => rfl
  | ok b => exact hk b cf g

theorem setTmp (i : U8) (v : Option Value) (a : α) :
    GuardBlind fun cf => do return (a, ← cf.setTmpSlot i v) := by
  intro cf g
  simp only [setTmpSlot_guard]
  cases cf.setTmpSlot i v <;> rfl

end GuardBlind

namespace Respects

theorem reads {E : Stop → Prop} {f : Executor ω → Except Stop α} (hf : Reader E f) :
    Respects Executor.seen (reads f : ExecM ω α) := by
  intro e e' h
  unfold ExecM.reads
  rw [hf.seen h]
  cases f e' with
  | ok a => exact congrArg (EStateM.Result.ok a) h
  | error s => exact congrArg (EStateM.Result.error s) h

theorem onLast {f : CallFrame → Except Stop (α × CallFrame)} (hf : GuardBlind f) :
    Respects Executor.seen (onLast f : ExecM ω α) := by
  intro e e' h
  have hg : e.globals.get = e'.globals.get := congrArg Seen.globals h
  have hw : e.world = e'.world := congrArg Seen.world h
  unfold ExecM.onLast
  rcases seen_cases h with ⟨hs, hs'⟩ | ⟨cf, below, cf', below', hs, hs', hcf, hbelow⟩
  · rw [hs, hs']
    exact congrArg (EStateM.Result.error _) h
  · obtain ⟨hcf', hguard⟩ := frame_of_seen hcf
    have hself := hf cf cf.tryGuard
    have hother := hf cf cf'.tryGuard
    rw [← hcf'] at hother
    rw [hs, hs']
    cases hrun : f cf with
    | ok r =>
      rw [hrun] at hself hother
      simp only [hrun, hother, Except.map, mapState]
      have hr : r.2.tryGuard = cf.tryGuard :=
        congrArg (fun r => r.2.tryGuard) (Except.ok.inj hself)
      have hseen : r.2.seen = ({ r.2 with tryGuard := cf'.tryGuard } : CallFrame).seen :=
        seen_of_guards r.2 (hr ▸ hguard)
      refine congrArg (EStateM.Result.ok r.1) (Executor.seen_eq hg ?_ hw)
      exact congrArg₂ List.cons hseen hbelow
    | error s =>
      rw [hrun] at hother
      simp only [hrun, hother, Except.map, mapState]
      rw [h]

theorem assignLast {f : CallFrame → CallFrame}
    (hf : ∀ cf g, f { cf with tryGuard := g } = { f cf with tryGuard := g }) :
    Respects Executor.seen (assignLast f : ExecM ω Unit) :=
  onLast fun cf g => by rw [hf cf g]; rfl

/-- An update of the globals that does what the slots tell it. -/
theorem onGlobals {f : GlobalRegister → Except Stop (α × GlobalRegister)}
    (hf : ∀ g g', g.get = g'.get →
      (f g).map (fun r => (r.1, r.2.get)) = (f g').map (fun r => (r.1, r.2.get))) :
    Respects Executor.seen (onGlobals f : ExecM ω α) := by
  intro e e' h
  have hs : e.callStack.map CallFrame.seen = e'.callStack.map CallFrame.seen :=
    congrArg Seen.callStack h
  have hw : e.world = e'.world := congrArg Seen.world h
  have hrun := hf _ _ (congrArg Seen.globals h : e.globals.get = e'.globals.get)
  unfold ExecM.onGlobals
  cases h₁ : f e.globals with
  | ok r =>
    cases h₂ : f e'.globals with
    | ok r' =>
      rw [h₁, h₂] at hrun
      obtain ⟨ha, hg⟩ := Prod.mk.inj (Except.ok.inj hrun)
      exact congrArg₂ EStateM.Result.ok ha (Executor.seen_eq hg hs hw)
    | error s => rw [h₁, h₂] at hrun; cases hrun
  | error s =>
    cases h₂ : f e'.globals with
    | ok r' => rw [h₁, h₂] at hrun; cases hrun
    | error s' =>
      rw [h₁, h₂] at hrun
      cases hrun
      exact congrArg (EStateM.Result.error s) h

theorem setGlobal (i : Nat) (v : Value) :
    Respects Executor.seen (ExecM.onGlobals fun g => .ok ((), g.set i v) : ExecM ω Unit) := by
  refine onGlobals fun g g' h => ?_
  simp only [Except.map, Slots.get_set, h]

theorem derefWrite (r v : Value) : Respects Executor.seen (derefWrite r v : ExecM ω Unit) := by
  unfold ExecM.derefWrite
  split
  · split
    · exact setGlobal _ _
    · exact assignLast fun _ _ => rfl
  · exact throw _
  · exact throw _
  · exact throw _

/-- A dereference reads its reference as a plain slot does. -/
theorem deref {f : Executor ω → Except Stop Value} (s : SlotRef) (v : Value)
    (hf : ∀ e, f e = e.readSlot s) :
    Respects Executor.seen (ExecM.reads f >>= fun r => ExecM.derefWrite r v : ExecM ω Unit) := by
  have hread : ExecM.reads f = ExecM.reads fun e => e.readOperand (.slot s) :=
    congrArg ExecM.reads (funext hf)
  rw [hread]
  exact (reads (.operand (.slot s) : Reader NoPanic _)).bind fun r => derefWrite r v

theorem writeSlot (s : SlotRef) (v : Value) :
    Respects Executor.seen (writeSlot s v : ExecM ω Unit) := by
  unfold ExecM.writeSlot
  cases s with
  | local_ i => exact assignLast fun _ _ => rfl
  | tmp i => exact onLast (.setTmp i (some v) ())
  | global i => exact setGlobal _ _
  | derefLocal i =>
    refine deref (.local_ i) v ?_
    exact fun _ => rfl
  | derefTmp i =>
    refine deref (.tmp i) v ?_
    exact fun _ => rfl
  | derefGlobal i =>
    refine deref (.global i) v ?_
    exact fun _ => rfl
  | builtIn b =>
    cases b with
    | ret => exact assignLast fun _ _ => rfl
    | _ => exact throw _

theorem writeVal (op : Operand) (v : Value) :
    Respects Executor.seen (writeVal op v : ExecM ω Unit) := by
  cases op with
  | slot s => exact writeSlot s v
  | _ => exact throw _

theorem writeTargetMut (op : Operand) (f : Value → Except Stop (α × Value)) :
    Respects Executor.seen (writeTargetMut op f : ExecM ω α) := by
  unfold ExecM.writeTargetMut
  split
  · rename_i i
    exact onLast (.read (fun _ _ => rfl) fun v => .read (fun _ _ => rfl) fun r => fun _ _ => rfl)
  · rename_i i
    exact onLast (.read (fun _ _ => rfl) fun o => .read (fun _ _ => rfl) fun v =>
      .read (fun _ _ => rfl) fun r => .setTmp i (some r.2) r.1)
  · rename_i i
    refine onGlobals fun g g' h => ?_
    rw [h]
    cases orFault (g'.get i.toNat) .undeclaredSlot with
    | error s => rfl
    | ok v =>
      change Except.map _ (f v >>= fun r => Pure.pure (r.1, g.set i.toNat r.2)) =
        Except.map _ (f v >>= fun r => Pure.pure (r.1, g'.set i.toNat r.2))
      cases f v with
      | error s => rfl
      | ok r =>
        have hset : (g.set i.toNat r.2).get = (g'.set i.toNat r.2).get := by
          rw [Slots.get_set, Slots.get_set, h]
        exact congrArg (fun t => Except.ok (r.1, t)) hset
  · exact throw _

/-- A change of the state that always succeeds. -/
theorem modify {f : Executor ω → Executor ω}
    (hf : ∀ e e', e.seen = e'.seen → (f e).seen = (f e').seen) :
    Respects Executor.seen (modify f : ExecM ω Unit) := by
  intro e e' h
  exact congrArg (EStateM.Result.ok ()) (hf e e' h)

theorem releaseOperand (op : Operand) :
    Respects Executor.seen (releaseOperand op : ExecM ω Unit) := by
  unfold ExecM.releaseOperand
  split
  · rename_i i
    refine modify fun e e' h => ?_
    rcases seen_cases h with ⟨hs, hs'⟩ | ⟨cf, below, cf', below', hs, hs', hcf, hbelow⟩
    · rw [hs, hs']
      exact h
    · rw [hs, hs']
      exact seen_onTop h hcf hbelow (f := fun cf => { cf with frame := cf.frame.remove i.toNat })
        fun _ _ => rfl
  · rename_i i
    have clear_eq (e : Executor ω) (cf : CallFrame) (below : List CallFrame)
        (hs : e.callStack = cf :: below) :
        (match cf.setTmpSlot i none with
          | .ok cf' => { e with callStack := cf' :: below }
          | .error _ => e : Executor ω).seen =
          Executor.seen { e with callStack := cf.clearTmp i :: below } := by
      unfold CallFrame.clearTmp
      cases cf.setTmpSlot i none with
      | ok cf' => rfl
      | error s => rw [← hs]
    refine modify fun e e' h => ?_
    rcases seen_cases h with ⟨hs, hs'⟩ | ⟨cf, below, cf', below', hs, hs', hcf, hbelow⟩
    · rw [hs, hs']
      exact h
    · rw [hs, hs']
      refine Eq.trans (clear_eq e cf below hs) (Eq.trans ?_ (clear_eq e' cf' below' hs').symm)
      exact seen_onTop h hcf hbelow (f := fun cf => cf.clearTmp i) fun cf g => by
        unfold CallFrame.clearTmp
        rw [setTmpSlot_guard]
        cases cf.setTmpSlot i none <;> rfl
  · rename_i i
    refine modify fun e e' h =>
      Executor.seen_eq ?_ (congrArg Seen.callStack h) (congrArg Seen.world h)
    have hg : e.globals.get = e'.globals.get := congrArg Seen.globals h
    rw [Slots.get_remove, Slots.get_remove, hg]
  · exact pure ()

/-- Simple instructions cannot tell executors apart. -/
theorem of_simple {E : Stop → Prop} {Q : Action → Prop} {dst upd : Operand → Prop}
    {m : ExecM ω Action} (h : Simple E Q dst upd m) : Respects Executor.seen m := by
  induction h with
  | done => exact pure _
  | stop => exact throw _
  | @look α f k hf _ ih =>
    refine (reads hf).bind_of fun e a e' hrun => ?_
    cases hfe : f e with
    | ok b =>
      simp only [ExecM.reads, hfe, ExecM.lift] at hrun
      cases hrun
      exact ih e a hfe
    | error s =>
      simp only [ExecM.reads, hfe, ExecM.lift] at hrun
      cases hrun
  | write => exact (writeVal _ _).bind fun _ => pure _
  | update => exact (writeTargetMut _ _).bind fun _ => pure _
  | release => exact (releaseOperand _).bind fun _ => pure _

theorem lift (x : Except Stop α) : Respects Executor.seen (liftM x : ExecM ω α) :=
  reads (.const (E := fun _ => True) fun _ _ => trivial)

theorem popOp (instr : Instruction) (f : Value → Except Stop (Value × Value)) :
    Respects Executor.seen (popOp instr f : ExecM ω Action) :=
  (lift _).bind fun op => (writeTargetMut op f).bind fun v =>
    (lift _).bind fun op => (writeVal op v).bind fun _ => pure _

/-- Setting guards that look alike. -/
theorem withGuard_seen (v v' : View ω) {below below' : List CallFrame}
    (h : (v.plug below).seen = (v'.plug below').seen) (g g' : Option TryGuard)
    (hg : g.map TryGuard.seen = g'.map TryGuard.seen) :
    ((v.withGuard g).plug below).seen = ((v'.withGuard g').plug below').seen := by
  obtain ⟨hcf, hbelow⟩ := List.cons.inj (congrArg Seen.callStack h)
  obtain ⟨hcf', -⟩ := frame_of_seen hcf
  have hframe : { v'.frame with tryGuard := g' } = { v.frame with tryGuard := g' } := by
    rw [hcf']
  refine Executor.seen_eq (congrArg Seen.globals h) ?_ (congrArg Seen.world h)
  refine congrArg₂ List.cons ?_ hbelow
  exact (seen_of_guards v.frame hg).trans (congrArg CallFrame.seen hframe.symm)

theorem execTry (instr : Instruction) :
    Respects Executor.seen (execTry instr : ExecM ω Action) := by
  intro e e' h
  obtain ⟨g, stack, w⟩ := e
  obtain ⟨g', stack', w'⟩ := e'
  rcases seen_cases h with ⟨hs, hs'⟩ | ⟨cf, below, cf', below', hs, hs', hcf, -⟩
  · obtain rfl : stack = [] := hs
    obtain rfl : stack' = [] := hs'
    cases ht : instr.tryTargets with
    | ok ct =>
      simp only [Fasm.execTry, ht]
      exact congrArg (EStateM.Result.error _) h
    | error s =>
      simp only [Fasm.execTry, ht]
      exact congrArg (EStateM.Result.error _) h
  · obtain rfl : stack = cf :: below := hs
    obtain rfl : stack' = cf' :: below' := hs'
    have hrun := execTry_plug instr (⟨cf, g, w⟩ : View ω) below
    have hrun' := execTry_plug instr (⟨cf', g', w'⟩ : View ω) below'
    cases ht : instr.tryTargets with
    | error s =>
      rw [ht] at hrun hrun'
      exact (congrArg (mapState Executor.seen) hrun).trans
        ((congrArg (EStateM.Result.error s) h).trans
          (congrArg (mapState Executor.seen) hrun').symm)
    | ok ct =>
      rw [ht] at hrun hrun'
      refine (congrArg (mapState Executor.seen) hrun).trans
        (Eq.trans ?_ (congrArg (mapState Executor.seen) hrun').symm)
      refine congrArg (EStateM.Result.ok Action.continue_) ?_
      refine withGuard_seen ⟨cf, g, w⟩ ⟨cf', g', w'⟩ h _ _ ?_
      have hframe : cf'.frame = cf.frame := by rw [(frame_of_seen hcf).1]
      have hglobals : (Slots.mk g.slots).get = (Slots.mk g'.slots).get := congrArg Seen.globals h
      simp only [Option.map_some, TryGuard.seen, View.guard, Slots.snapshot, hframe, hglobals]

theorem execCatch : Respects Executor.seen (execCatch : ExecM ω Action) := by
  intro e e' h
  obtain ⟨g, stack, w⟩ := e
  obtain ⟨g', stack', w'⟩ := e'
  rcases seen_cases h with ⟨hs, hs'⟩ | ⟨cf, below, cf', below', hs, hs', hcf, -⟩
  · obtain rfl : stack = [] := hs
    obtain rfl : stack' = [] := hs'
    exact congrArg (EStateM.Result.error _) h
  · obtain rfl : stack = cf :: below := hs
    obtain rfl : stack' = cf' :: below' := hs'
    obtain ⟨hcf', hguard⟩ := frame_of_seen hcf
    have htarget : (⟨cf, g, w⟩ : View ω).catchTarget = (⟨cf', g', w'⟩ : View ω).catchTarget := by
      have hip : cf'.ip = cf.ip := by rw [hcf']
      unfold View.catchTarget
      simp only [hip]
      cases h₁ : cf.tryGuard with
      | none =>
        cases h₂ : cf'.tryGuard with
        | none => rfl
        | some t' => rw [h₁, h₂] at hguard; cases hguard
      | some t =>
        cases h₂ : cf'.tryGuard with
        | none => rw [h₁, h₂] at hguard; cases hguard
        | some t' =>
          rw [h₁, h₂] at hguard
          exact congrArg (fun t => t.2.1) (Option.some.inj hguard)
    exact congrArg₂ EStateM.Result.ok (congrArg Action.jump htarget)
      (withGuard_seen ⟨cf, g, w⟩ ⟨cf', g', w'⟩ h none none rfl)

theorem endTry : Respects Executor.seen
    (ExecM.assignLast fun cf => { cf with tryGuard := none } : ExecM ω Unit) := by
  intro e e' h
  obtain ⟨g, stack, w⟩ := e
  obtain ⟨g', stack', w'⟩ := e'
  rcases seen_cases h with ⟨hs, hs'⟩ | ⟨cf, below, cf', below', hs, hs', -, -⟩
  · obtain rfl : stack = [] := hs
    obtain rfl : stack' = [] := hs'
    exact congrArg (EStateM.Result.error _) h
  · obtain rfl : stack = cf :: below := hs
    obtain rfl : stack' = cf' :: below' := hs'
    exact congrArg (EStateM.Result.ok ())
      (withGuard_seen ⟨cf, g, w⟩ ⟨cf', g', w'⟩ h none none rfl)

end Respects

/-! ## Instructions -/

/-- The handler neither reads nor writes the globals. -/
def SyscallFn.IgnoresGlobals (handler : SyscallFn ω) : Prop :=
  ∃ f : Value → ω → SyscallOutcome × ω, ∀ args g w,
    handler args g w = ((f args w).1, g, (f args w).2)

/-- No mounted handler reads or writes the globals. -/
def Host.IgnoresGlobals (host : Host ω) : Prop :=
  ∀ id handler, host.syscalls id = some handler → handler.IgnoresGlobals

theorem Respects.callSyscall {handler : SyscallFn ω} (h : handler.IgnoresGlobals) (args : Value) :
    Respects Executor.seen (callSyscall handler args) := by
  intro e e' he
  obtain ⟨f, hf⟩ := h
  have hw : e.world = e'.world := congrArg Seen.world he
  have hseen (w : ω) : Executor.seen { e with world := w } = Executor.seen { e' with world := w } :=
    Executor.seen_eq (congrArg Seen.globals he) (congrArg Seen.callStack he) rfl
  unfold Fasm.callSyscall
  rw [hf, hf, hw]
  rcases f args e'.world with ⟨o, w⟩
  cases o with
  | value v => exact congrArg (EStateM.Result.ok v) (hseen w)
  | fault f => exact congrArg (EStateM.Result.error _) (hseen w)
  | exit c => exact congrArg (EStateM.Result.error _) (hseen w)

variable {host : Host ω}

theorem Respects.syscallOp (hhost : host.IgnoresGlobals) (instr : Instruction)
    (wrap : Value → Value) : Respects Executor.seen (syscallOp instr host wrap) := by
  refine (Respects.lift _).bind fun op => (Respects.lift _).bind fun id =>
    (Respects.lift _).bind fun op₁ => (Respects.reads (.operand op₁ : Reader NoPanic _)).bind
    fun args => (Respects.lift _).bind_of fun e handler e' hrun =>
    (Respects.callSyscall ?_ args).bind fun r =>
    (Respects.assignLast fun _ _ => rfl).bind fun _ => .pure _
  refine hhost id handler ?_
  cases ho : host.syscalls id with
  | none => rw [ho] at hrun; cases hrun
  | some handler' => rw [ho] at hrun; cases hrun; rfl

/-- No instruction can tell executors apart that look alike, unless a handler can. -/
theorem executeInstruction_respects (hhost : host.IgnoresGlobals) (p : Program)
    (instr : Instruction) : Respects Executor.seen (executeInstruction host p instr) := by
  by_cases h : instr.opcode.isSimple = true
  · exact .of_simple (executeInstruction_simple host p h)
  obtain ⟨op, operands⟩ := instr
  cases op with
  | tmpBlock => exact (Respects.assignLast fun _ _ => rfl).bind fun _ => .pure _
  | endTmp =>
    refine (Respects.onLast fun cf g => ?_).bind fun _ => .pure _
    obtain ⟨_, _, _, _, _, _, tmpFrames⟩ := cf
    cases tmpFrames <;> rfl
  | endTry => exact Respects.endTry.bind fun _ => .pure _
  | try_ => exact .execTry _
  | catch_ => exact .execCatch
  | pop | dequeue | popBack => exact .popOp _ _
  | syscall | asyncSyscall => exact .syscallOp hhost _ _
  | _ => exact absurd rfl h

end Fasm
