import Fasm.Vm.Run
import Fasm.Vm.Seen

/-!
# Runs of executors that look alike

What no instruction can tell apart the run loop cannot tell apart either: from
executors that look alike it makes the same turns, to the same end.
-/

namespace Fasm

variable {ω : Type} {host : Host ω}

/-- Turns that do the same to executors that look alike. -/
inductive Iteration.Alike : Iteration ω → Iteration ω → Prop
  | next {e e' : Executor ω} (h : e.seen = e'.seen) : Alike (.next e) (.next e')
  | done {r : Except String Value} {e e' : Executor ω} (h : e.seen = e'.seen) :
    Alike (.done r e) (.done r e')
  | panic {x : Panic} {e e' : Executor ω} (h : e.seen = e'.seen) :
    Alike (.panic x e) (.panic x e')
  | exit {c : U32} {e e' : Executor ω} (h : e.seen = e'.seen) : Alike (.exit c e) (.exit c e')

section Run

variable {e e' : Executor ω} (h : e.seen = e'.seen)
include h

/-- Another world for both. -/
theorem seen_withWorld (w : ω) :
    Executor.seen { e with world := w } = Executor.seen { e' with world := w } :=
  Executor.seen_eq (congrArg Seen.globals h) (congrArg Seen.callStack h) rfl

theorem onTopFrame_alike {f : CallFrame → CallFrame}
    (hf : ∀ cf g, f { cf with tryGuard := g } = { f cf with tryGuard := g }) :
    (onTopFrame f e).Alike (onTopFrame f e') := by
  unfold onTopFrame
  rcases seen_cases h with ⟨hs, hs'⟩ | ⟨cf, below, cf', below', hs, hs', hcf, hbelow⟩
  · rw [hs, hs']
    exact .panic h
  · rw [hs, hs']
    exact .next (seen_onTop h hcf hbelow hf)

theorem popFrame_alike (ret : Value) : (popFrame ret e).Alike (popFrame ret e') := by
  have hempty : Executor.seen { e with callStack := [] } =
      Executor.seen { e' with callStack := [] } :=
    Executor.seen_eq (congrArg Seen.globals h) rfl (congrArg Seen.world h)
  unfold popFrame
  rcases seen_cases h with ⟨hs, hs'⟩ | ⟨cf, below, cf', below', hs, hs', -, hbelow⟩
  · rw [hs, hs']
    exact .done hempty
  · rw [hs, hs', List.tail_cons, List.tail_cons]
    cases below with
    | nil =>
      obtain rfl : below' = [] := List.map_eq_nil_iff.mp hbelow.symm
      exact .done hempty
    | cons caller rest =>
      obtain ⟨caller', rest', rfl, hcaller, hrest⟩ := List.map_eq_cons_iff.mp hbelow.symm
      exact .next (seen_onTop h hcaller.symm hrest.symm
        (f := fun cf => { cf with retVal := ret }) fun _ _ => rfl)

theorem callFunc_alike (i : Nat) (args : Value) :
    (callFunc host i args e).Alike (callFunc host i args e') := by
  have hw : e.world = e'.world := congrArg Seen.world h
  have hlen : e.callStack.length = e'.callStack.length := by
    have hs := congrArg (fun s => s.callStack.length) h
    simpa only [Executor.seen, List.length_map] using hs
  unfold callFunc
  rw [hw]
  rcases jitDispatch host i args e'.world with ⟨_ | ret, w⟩
  · simp only [hlen]
    split
    · exact .done (seen_withWorld h w)
    · refine .next (Executor.seen_eq (congrArg Seen.globals h) ?_ rfl)
      exact congrArg (List.cons _) (congrArg Seen.callStack h)
  · exact onTopFrame_alike (seen_withWorld h w) fun _ _ => rfl

theorem tailCall_alike (i : Nat) (args : Value) :
    (tailCall host i args e).Alike (tailCall host i args e') := by
  have hw : e.world = e'.world := congrArg Seen.world h
  unfold tailCall
  rw [hw]
  rcases jitDispatch host i args e'.world with ⟨_ | ret, w⟩
  · exact onTopFrame_alike (seen_withWorld h w) fun _ _ => rfl
  · exact popFrame_alike (seen_withWorld h w) ret

theorem perform_alike (a : Action) : (perform host a e).Alike (perform host a e') := by
  cases a with
  | continue_ => exact .next h
  | jump t => exact onTopFrame_alike h fun _ _ => rfl
  | callFunc i args => exact callFunc_alike h i args
  | tailCall i args => exact tailCall_alike h i args
  | return_ v => exact popFrame_alike h v
  | halt => exact .done h

theorem deliver_alike (func : FunctionDef) (ip : Nat) (f : Fault) :
    (deliver func ip f e).Alike (deliver func ip f e') := by
  unfold deliver
  rcases seen_cases h with ⟨hs, hs'⟩ | ⟨cf, below, cf', below', hs, hs', hcf, hbelow⟩
  · rw [hs, hs']
    exact .panic h
  · obtain ⟨hcf', hguard⟩ := frame_of_seen hcf
    rw [hs, hs']
    cases h₁ : cf.tryGuard with
    | none =>
      cases h₂ : cf'.tryGuard with
      | none => simp only [h₁, h₂]; exact .done h
      | some g' => rw [h₁, h₂] at hguard; cases hguard
    | some g =>
      cases h₂ : cf'.tryGuard with
      | none => rw [h₁, h₂] at hguard; cases hguard
      | some g' =>
        rw [h₁, h₂] at hguard
        simp only [h₁, h₂]
        have hg := Option.some.inj hguard
        simp only [TryGuard.seen, Prod.mk.injEq] at hg
        obtain ⟨hcatch, -, hframe, hglobals⟩ := hg
        refine .next (Executor.seen_eq hglobals ?_ (congrArg Seen.world h))
        refine congrArg₂ List.cons ?_ hbelow
        rw [hcf']
        simp only [CallFrame.rollback, hcatch, hframe]

end Run

theorem settle_alike {r r' : EStateM.Result Stop (Executor ω) Action}
    (h : mapState Executor.seen r = mapState Executor.seen r') (func : FunctionDef) (ip : Nat) :
    (settle host func ip r).Alike (settle host func ip r') := by
  cases r with
  | ok a e =>
    obtain ⟨e', rfl, he⟩ := mapState_eq_ok h.symm
    exact perform_alike he.symm a
  | error s e =>
    obtain ⟨e', rfl, he⟩ := mapState_eq_error h.symm
    cases s with
    | fault f => exact deliver_alike he.symm func ip f
    | panic x => exact .panic he.symm
    | exit c => exact .exit he.symm

/-- One turn does the same to executors that look alike. -/
theorem iterate_alike (hhost : host.IgnoresGlobals) (p : Program) {e e' : Executor ω}
    (h : e.seen = e'.seen) : (iterate host p e).Alike (iterate host p e') := by
  unfold iterate
  rcases seen_cases h with ⟨hs, hs'⟩ | ⟨cf, below, cf', below', hs, hs', hcf, hbelow⟩
  · rw [hs, hs']
    exact .panic h
  · have hcf' := (frame_of_seen hcf).1
    have hidx : cf'.funcIdx = cf.funcIdx := by rw [hcf']
    have hip : cf'.ip = cf.ip := by rw [hcf']
    have hret : cf'.retVal = cf.retVal := by rw [hcf']
    rw [hs, hs']
    simp only [hidx, hip, hret]
    cases p.functions[cf.funcIdx]? with
    | none => exact .done h
    | some func =>
      simp only
      cases func.instructions[cf.ip]? with
      | none => exact popFrame_alike h _
      | some instr =>
        refine settle_alike (executeInstruction_respects hhost p instr _ _ ?_) func cf.ip
        have hadvance := seen_onTop h hcf hbelow (f := fun cf => { cf with ip := cf.ip + 1 })
          fun _ _ => rfl
        simpa only [hidx, hip, hret] using hadvance

/-- So does the loop. -/
theorem runLoop_alike (hhost : host.IgnoresGlobals) (p : Program) (n : Nat) {e e' : Executor ω}
    (h : e.seen = e'.seen) : (runLoop host p n e).Alike (runLoop host p n e') := by
  induction n generalizing e e' with
  | zero => exact .next h
  | succ n ih =>
    have hturn := iterate_alike hhost p h
    unfold runLoop
    cases h₁ : iterate host p e <;> cases h₂ : iterate host p e' <;> rw [h₁, h₂] at hturn <;>
      cases hturn
    case next he => exact ih he
    case done he => exact .done he
    case panic he => exact .panic he
    case exit he => exact .exit he

end Fasm
