import Fasm.Jit.Outcome
import Fasm.Lib.Shortcut
import Fasm.Vm.TailCall

/-!
# Runs with a JIT attached

Attached to an executor, a JIT answers some of the calls of a run and leaves the others to the
interpreter.  As long as each call that it answers is one on which it agrees with the
interpreter, the whole run is the run of the interpreter with these calls cut out: nested
calls, loops, faults and guards around them included.  It may get by with less stack.
-/

namespace Fasm

open Pushdown (Machine Config)

variable {ω : Type} {host : Host ω} {p : Program} {i : Nat} {func : FunctionDef} {abi : Abi}
  {entries : List (Nat × JitEntry)} {entry : JitEntry}
  {dispatch : Nat → Value → ω → Option Value × ω}

/-! ## The dispatcher -/

/-- `Executor::set_jit`. -/
def Host.withJit (host : Host ω) (dispatch : Nat → Value → ω → Option Value × ω) : Host ω :=
  { host with jit := some dispatch }

/-- `FasmJit::dispatch` on the functions in the cache.  It comes back if native code does. -/
structure Dispatches (abi : Abi) (entries : List (Nat × JitEntry))
    (dispatch : Nat → Value → ω → Option Value × ω) : Prop where
  interpreted : ∀ i args w, entries.lookup i = none → dispatch i args w = (none, w)
  fallBack : ∀ i entry args w k, entries.lookup i = some entry →
    entry.callJit abi args k = .fallBack → dispatch i args w = (none, w)
  returned : ∀ i entry args w k r, entries.lookup i = some entry →
    entry.callJit abi args k = .returned r → dispatch i args w = (some r, w)

theorem jitDispatch_withJit (i : Nat) (args : Value) (w : ω) :
    jitDispatch (host.withJit dispatch) i args w = dispatch i args w := rfl

/-- Instructions do not look at the JIT. -/
theorem exec_withJit (instr : Instruction) (v : View ω) :
    v.exec (host.withJit dispatch) p instr = v.exec host p instr := by
  have hrun : executeInstruction (host.withJit dispatch) p instr = executeInstruction host p instr := by
    obtain ⟨op, operands⟩ := instr
    cases op <;> rfl
  rw [View.exec, View.exec, hrun]

/-- `RET` only reads. -/
theorem exec_ret_keeps (host : Host ω) (p : Program) (operands : List Operand) (v : View ω) :
    stateOf (v.exec host p ⟨.ret, operands⟩) = v := by
  have hf : Focused View.plug id NoPanic (executeInstruction host p ⟨.ret, operands⟩) := by
    show Focused View.plug id NoPanic (execRet ⟨.ret, operands⟩)
    unfold execRet
    split
    case isTrue => exact .pure _
    case isFalse =>
      refine .bind (OnTop.reads (.const (raises_getOp _ _))) fun op => ?_
      exact .bind (OnTop.reads (readable_readOperand op)) fun _ => .pure _
  exact (View.exec_of_focused hf v).1

/-! ## Calls on which native code agrees -/

/-- Interpreted from a fresh frame, the function comes in `n` steps, with each of which the JIT
agrees, to a `RET` with the integer `a`, and leaves the rest as it was. -/
structure AgreesAlong (host : Host ω) (p : Program) (i : Nat) (entry : JitEntry)
    (s : List (U32 × Value)) (g : GlobalRegister × ω) (func : FunctionDef) (σ : Nat → View ω)
    (n : Nat) (a : Value) : Prop where
  fits : ArgsFit entry.info (.struct s)
  arity : entry.info.params.length ≤ 8
  interprets : Interprets host p i (.struct s) σ n
  before : (σ 0).shared = g
  agrees : RunAgrees entry func (.struct s) σ (n + 1)
  ret : ∃ operands, func.instructions[(σ n).frame.ip]? = some ⟨.ret, operands⟩
  finishes : Finishes host p (σ n) a
  isInt : entry.info.retType.isInt
  variant : a.variant = entry.info.retType.variant
  /-- a `RELEASE` of a global compiles to nothing, but the interpreter removes the global -/
  after : (σ n).shared = g

/-- Native code does for a call what the interpreter would. -/
def AgreesOn (host : Host ω) (p : Program) (i : Nat) (entry : JitEntry) (args : Value)
    (g : GlobalRegister × ω) : Prop :=
  ∃ s func σ n a, args = .struct s ∧ p.functions[i]? = some func ∧
    AgreesAlong host p i entry s g func σ n a

/-- Two integers of one variant that denote the same number are the same. -/
theorem eq_of_integer {a r : Value} {m : Int} (ha : a.integer = some m) (hr : r.integer = some m)
    (hv : a.variant = r.variant) : a = r := by
  cases a with
  | bool b =>
    cases r with
    | bool b' =>
      cases ha
      cases b <;> cases b' <;> first | rfl | cases hr
    | int t n => cases hv
    | _ => cases hr
  | int t n =>
    cases r with
    | bool b => cases hv
    | int t' n' =>
      cases hv
      cases hsigned : t.signed with
      | true =>
        simp only [Value.integer, hsigned, if_true, Option.some.injEq] at ha hr
        rw [BitVec.toInt_inj.mp (ha.trans hr.symm)]
      | false =>
        simp only [Value.integer, hsigned, Bool.false_eq_true, if_false, Option.some.injEq] at ha hr
        rw [BitVec.toNat_inj.mp (Int.ofNat.inj (ha.trans hr.symm))]
    | _ => cases hr
  | _ => cases ha

/-- A value of an integer variant of the JIT is an integer of its type. -/
theorem exists_integer {t : JitType} {a : Value} (ht : t.isInt) (hv : a.variant = t.variant) :
    ∃ m, a.integer = some m ∧ t.InRange m := by
  cases t with
  | i32 =>
    cases a with
    | int t n =>
      cases hv
      exact ⟨n.toInt, rfl, rfl, BitVec.le_toInt n, BitVec.toInt_lt⟩
    | _ => cases hv
  | i64 =>
    cases a with
    | int t n =>
      cases hv
      exact ⟨n.toInt, rfl, rfl, BitVec.le_toInt n, BitVec.toInt_lt⟩
    | _ => cases hv
  | f32 | f64 => cases ht

section Agrees

variable {s : List (U32 × Value)} {g : GlobalRegister × ω} {σ : Nat → View ω} {n : Nat} {a : Value}
  (h : AgreesAlong host p i entry s g func σ n a) (hcompiles : Compiles p i func entry)
  (hjit : host.jit = none)
include h hcompiles hjit

/-- Interpreted, the call ends at its `RET`. -/
theorem AgreesAlong.exec_ret : ∃ operands w,
    Fetch p (σ n).frame func ⟨.ret, operands⟩ ∧
      (σ n).advance.exec host p ⟨.ret, operands⟩ = .ok (.return_ a) w := by
  obtain ⟨packed, hpacked⟩ := h.fits.packed
  obtain ⟨-, -, -, hof⟩ := run_simulates Abi.bare hcompiles hjit h.interprets h.fits hpacked
    fun j hj => h.agrees j (Nat.lt_succ_of_lt hj)
  have hfunc : p.functions[(σ n).frame.funcIdx]? = some func := hof.funcIdx_eq ▸ hcompiles.func_eq
  obtain ⟨operands, hret⟩ := h.ret
  rcases h.finishes.cases hfunc hjit with hnone | ⟨_, hhalt⟩ | ⟨_, w, hinstr, hexec⟩
  · cases hret.symm.trans hnone
  · cases hret.symm.trans hhalt
  · exact ⟨_, w, ⟨hfunc, hinstr⟩, hexec⟩

/-- Native code returns what the interpreter does. -/
theorem AgreesAlong.callJit (abi : Abi) {k : Nat} (hk : n < k) :
    entry.callJit abi (.struct s) k = .returned a := by
  obtain ⟨packed, hpacked⟩ := h.fits.packed
  have hlen : packed.length ≤ 8 := packArgs_length hpacked ▸ h.arity
  obtain ⟨s₁, hs₁, hsim, -⟩ := run_simulates abi hcompiles hjit h.interprets h.fits hpacked
    fun j hj => h.agrees j (Nat.lt_succ_of_lt hj)
  obtain ⟨operands, w, hfetch, hexec⟩ := h.exec_ret hcompiles hjit
  obtain ⟨m, hint, hrange⟩ := exists_integer h.isInt h.variant
  have hne : a ≠ .null := by
    rintro rfl
    cases hint
  have hsrc := h.agrees n n.lt_succ_self _ hfetch.instr_eq
  obtain ⟨bits, hturn, hden⟩ := ret_denotes abi hcompiles hsim hfetch.instr_eq hsrc hexec hne
    (hrange.holds hint)
  have hinteger : (unpackRet (abiRet abi entry.info.retType bits) entry.info.retType).integer =
      some m := by
    rw [unpackRet_integer, if_pos h.isInt, hden.toInt hint hrange]
  rw [callJit_eq hpacked hlen hs₁ hturn hk]
  exact congrArg _ (eq_of_integer hinteger hint ((unpackRet_variant _ _).trans h.variant.symm))

/-- The interpreter comes back from the call with the same value, and with nothing else changed. -/
theorem AgreesAlong.answers : (machine host p).Answers (.new i (.struct s)) g a g := by
  obtain ⟨operands, w, hfetch, hexec⟩ := h.exec_ret hcompiles hjit
  have hsteps : ∀ j ≤ n, (machine host p).Steps ⟨[.new i (.struct s)], g⟩
      ⟨[(σ j).frame], (σ j).shared⟩ := by
    intro j hj
    induction j with
    | zero => rw [h.interprets.init, h.before]
    | succ j ih =>
      have hstep := h.interprets.step j hj
      exact (ih (Nat.le_of_succ_le hj)).tail (step_iff.mp hstep)
  have hw : w = (σ n).advance := by
    have hkeeps := exec_ret_keeps host p operands (σ n).advance
    rwa [hexec] at hkeeps
  refine ⟨_, _, hsteps n (Nat.le_refl n), ?_⟩
  have hmove := View.move_of_fetch host hfetch
  rw [hexec, hw] at hmove
  rw [← h.after]
  exact hmove

end Agrees

/-! ## One turn -/

/-- Native code agrees on the call that comes next, unless it leaves that to the interpreter.  A
frame that is about to be replaced has neither a guard nor an open `TMP` block. -/
structure CallAgrees (host : Host ω) (p : Program) (abi : Abi) (entries : List (Nat × JitEntry))
    (v : View ω) : Prop where
  call : ∀ {func instr i args w entry}, Fetch p v.frame func instr →
    v.advance.exec host p instr = .ok (.callFunc i args) w → entries.lookup i = some entry →
    (∀ k, entry.callJit abi args k = .fallBack) ∨ AgreesOn host p i entry args v.shared
  tailCall : ∀ {func instr i args w entry}, Fetch p v.frame func instr →
    v.advance.exec host p instr = .ok (.tailCall i args) w → entries.lookup i = some entry →
    (∀ k, entry.callJit abi args k = .fallBack) ∨
      v.frame.tryGuard = none ∧ v.frame.tmpFrames = [] ∧ AgreesOn host p i entry args v.shared

section Turn

variable (hjit : host.jit = none) (hcache : compileProgram p (analyzeProgram p) = some entries)
  (hdispatch : Dispatches abi entries dispatch)
include hjit hcache hdispatch

/-- What the JIT says to a call: nothing, or the value with which the interpreter comes back. -/
theorem dispatch_cases {args : Value} {g : GlobalRegister × ω} {P : Prop}
    (hag : ∀ entry, entries.lookup i = some entry →
      (∀ k, entry.callJit abi args k = .fallBack) ∨ P ∧ AgreesOn host p i entry args g) :
    dispatch i args g.2 = (none, g.2) ∨
      P ∧ ∃ a, dispatch i args g.2 = (some a, g.2) ∧
        (machine host p).Answers (.new i args) g a g := by
  cases hlookup : entries.lookup i with
  | none => exact .inl (hdispatch.interpreted i args g.2 hlookup)
  | some entry =>
    rcases hag entry hlookup with hfall | ⟨hP, s, func, σ, n, a, rfl, hfunc, halong⟩
    · exact .inl (hdispatch.fallBack i entry args g.2 0 hlookup (hfall 0))
    · obtain ⟨l₁, l₂, hentries, -⟩ := List.lookup_eq_some_iff.mp hlookup
      have hmem : (i, entry) ∈ entries := by
        rw [hentries]
        exact List.mem_append_right _ List.mem_cons_self
      obtain ⟨func', hcompiles⟩ := compileProgram_compiles hcache hmem
      cases hfunc.symm.trans hcompiles.func_eq
      refine .inr ⟨hP, a, ?_, halong.answers hcompiles hjit⟩
      exact hdispatch.returned i entry _ g.2 (n + 1) a hlookup
        (halong.callJit hcompiles hjit abi n.lt_succ_self)

/-- With the JIT, the run loop spares calls and does nothing else. -/
theorem spares_withJit {v : View ω} (h : CallAgrees host p abi entries v) :
    (machine host p).Spares v.frame v.shared (v.move (host.withJit dispatch) p) := by
  have hsame : v.move (host.withJit dispatch) p = v.move host p →
      (machine host p).Spares v.frame v.shared (v.move (host.withJit dispatch) p) := by
    intro heq
    rw [heq]
    exact .same
  cases hf : p.functions[v.frame.funcIdx]? with
  | none =>
    refine hsame ?_
    simp only [View.move, hf]
  | some func =>
    cases hi : func.instructions[v.frame.ip]? with
    | none =>
      refine hsame ?_
      simp only [View.move, hf, hi]
    | some instr =>
      have hfetch : Fetch p v.frame func instr := ⟨hf, hi⟩
      have hmove := View.move_of_fetch host hfetch
      have hmove' := View.move_of_fetch (host.withJit dispatch) hfetch
      rw [exec_withJit] at hmove'
      cases hexec : v.advance.exec host p instr with
      | error x w =>
        refine hsame ?_
        rw [hmove, hmove', hexec]
        cases x <;> rfl
      | ok act w =>
        rw [hexec] at hmove hmove'
        cases act with
        | callFunc i args =>
          obtain rfl := exec_call_eq hexec
          simp only [View.settle, View.act, jitDispatch, hjit] at hmove
          simp only [View.settle, View.act, jitDispatch_withJit] at hmove'
          rcases dispatch_cases (P := True) (g := v.shared) hjit hcache hdispatch
              fun entry hlookup => (h.call hfetch hexec hlookup).imp_right fun ha => ⟨trivial, ha⟩
            with hnone | ⟨-, a, hsome, hanswers⟩
          · have hnone' : dispatch i args v.advance.world = (none, v.advance.world) := hnone
            rw [hnone'] at hmove'
            exact hsame (hmove'.trans hmove.symm)
          · have hsome' : dispatch i args v.advance.world = (some a, v.advance.world) := hsome
            rw [hsome'] at hmove'
            rw [hmove']
            exact .call hmove hanswers
        | tailCall i args =>
          obtain rfl := exec_tail_eq hexec
          simp only [View.settle, View.act, jitDispatch, hjit] at hmove
          simp only [View.settle, View.act, jitDispatch_withJit] at hmove'
          rcases dispatch_cases (P := v.frame.tryGuard = none ∧ v.frame.tmpFrames = [])
              (g := v.shared) hjit hcache hdispatch
              fun entry hlookup => (h.tailCall hfetch hexec hlookup).imp_right
                and_assoc.mpr
            with hnone | ⟨⟨hguard, htmp⟩, a, hsome, hanswers⟩
          · have hnone' : dispatch i args v.advance.world = (none, v.advance.world) := hnone
            rw [hnone'] at hmove'
            exact hsame (hmove'.trans hmove.symm)
          · have hsome' : dispatch i args v.advance.world = (some a, v.advance.world) := hsome
            rw [hsome'] at hmove'
            rw [hmove']
            refine .tailCall ?_ hanswers
            rw [← reset_eq_new hguard htmp]
            exact hmove
        | _ =>
          refine hsame ?_
          rw [hmove, hmove']
          rfl

end Turn

/-! ## Whole runs -/

/-- The run of `func` started on `e₀` ends with `t` and leaves `e`. -/
def RunEnds (host : Host ω) (p : Program) (func : String) (args : Value) (e₀ : Executor ω)
    (t : Ending) (e : Executor ω) : Prop :=
  ∃ d, RunReaches host p func args e₀ d ∧ Ends host p d t e

/-- The run exceeds `MAX_CALL_DEPTH`. -/
def RunOverflows (host : Host ω) (p : Program) (func : String) (args : Value) (e₀ : Executor ω) :
    Prop :=
  ∃ e, RunEnds host p func args e₀ (.result (.error Fault.stackOverflow.display)) e

/-- The ends of a run are those of the machine from its first state. -/
theorem runEnds_iff {func : String} {args : Value} {e₀ e₁ e : Executor ω} {t : Ending}
    (hstart : start p func args e₀ = .next e₁) :
    RunEnds host p func args e₀ t e ↔ (machine host p).EndsIn e₁.config t e.config := by
  have hne : e₁.config.stack ≠ [] := by
    obtain ⟨j, -, hstack, -⟩ := start_eq hstart
    rw [Executor.config, hstack]
    exact List.cons_ne_nil _ _
  have hreached : ∀ {c}, (machine host p).Steps e₁.config c → c.stack ≠ [] := fun hsteps => by
    rcases Relation.ReflTransGen.cases_tail hsteps with rfl | ⟨_, _, hstep⟩
    · exact hne
    · exact hstep.stack_ne_nil
  constructor
  · rintro ⟨d, ⟨e₁', hstart', hsteps⟩, hend⟩
    cases hstart.symm.trans hstart'
    have hsteps' := steps_config hsteps
    exact ⟨d.config, hsteps', (ends_iff (hreached hsteps')).mp hend⟩
  · rintro ⟨c, hsteps, hend⟩
    exact ⟨ofConfig c, ⟨e₁, hstart, steps_ofConfig hsteps⟩,
      (ends_iff (e := ofConfig c) (hreached hsteps)).mpr hend⟩

/-- **Attaching a JIT.**  If native code agrees with the interpreter on every call of the run that
it answers, the run with the JIT ends as the one without it does, in the same state, and is
endless where that is; the one without it may run out of stack first.  Every state it goes
through is one of the run without the JIT. -/
theorem jit_transparent {func : String} {args : Value} {e₀ : Executor ω} (hjit : host.jit = none)
    (hcache : compileProgram p (analyzeProgram p) = some entries)
    (hdispatch : Dispatches abi entries dispatch)
    (hagrees : ∀ v below, RunReaches host p func args e₀ (v.plug below) →
      CallAgrees host p abi entries v) :
    (∀ t e, RunEnds host p func args e₀ t e →
      t ≠ .result (.error Fault.stackOverflow.display) →
      RunEnds (host.withJit dispatch) p func args e₀ t e) ∧
    (∀ t e, RunEnds (host.withJit dispatch) p func args e₀ t e →
      RunEnds host p func args e₀ t e ∨ RunOverflows host p func args e₀) ∧
    ∀ e, RunReaches (host.withJit dispatch) p func args e₀ e →
      RunReaches host p func args e₀ e ∨ RunOverflows host p func args e₀ := by
  by_cases hstarts : ∃ e₁, start p func args e₀ = .next e₁
  · obtain ⟨e₁, hstart⟩ := hstarts
    have hspares : (machine host p).SparesFrom (machine (host.withJit dispatch) p).move e₁.config := by
      intro cf below g hsteps
      exact spares_withJit (v := ⟨cf, g.1, g.2⟩) hjit hcache hdispatch
        (hagrees ⟨cf, g.1, g.2⟩ below ⟨e₁, hstart, steps_ofConfig hsteps⟩)
    have hover : (machine host p).Overflows e₁.config → RunOverflows host p func args e₀ := by
      rintro ⟨c, hend⟩
      exact ⟨ofConfig c, (runEnds_iff hstart).mpr hend⟩
    refine ⟨fun t e hend ht => ?_, fun t e hend => ?_, fun e hreach => ?_⟩
    · have hend' := (runEnds_iff hstart).mp hend
      exact (runEnds_iff hstart).mpr (hspares.endsIn_cut hend' ht)
    · have hend' := (runEnds_iff hstart).mp hend
      exact (hspares.endsIn hend').imp (runEnds_iff hstart).mpr hover
    · obtain ⟨e₁', hstart', hsteps⟩ := hreach
      cases hstart.symm.trans hstart'
      refine (hspares.steps (steps_config hsteps)).imp (fun hsteps' => ?_) hover
      exact ⟨e₁, hstart, steps_ofConfig hsteps'⟩
  · have hno : ∀ {host' : Host ω} {e}, ¬ RunReaches host' p func args e₀ e :=
      fun hreach => hstarts (hreach.imp fun _ h => h.1)
    refine ⟨fun t e hend => ?_, fun t e hend => ?_, fun e hreach => absurd hreach hno⟩
    · exact absurd hend.choose_spec.1 hno
    · exact absurd hend.choose_spec.1 hno

section Example

/-- `Main` calls `Successor` on its own arguments. -/
def successorMain : Program :=
  ⟨1, [], [successor, ⟨"Main", [], [⟨.call, [.funcRef 0, .slot (.builtIn .args)]⟩,
    ⟨.ret, [.slot (.builtIn .ret)]⟩]⟩]⟩

/-- The JIT for this program. -/
def successorDispatch (i : Nat) (args : Value) (w : Unit) : Option Value × Unit :=
  if i = 0 then
    match successorEntry.callJit .bare args 3 with
    | .returned r => (some r, w)
    | _ => (none, w)
  else (none, w)

theorem successor_cache :
    compileProgram successorMain (analyzeProgram successorMain) = some [(0, successorEntry)] := rfl

/-- `Successor` takes three segments, whatever its argument. -/
theorem successor_callJit {args : Value} {k : Nat} {r : Value}
    (h : successorEntry.callJit .bare args k = .returned r) :
    successorEntry.callJit .bare args 3 = .returned r := by
  unfold JitEntry.callJit at h ⊢
  cases hpacked : packArgs args successorEntry.info.params with
  | none => simp only [hpacked] at h; cases h
  | some packed =>
    simp only [hpacked] at h ⊢
    split at h
    case isTrue => cases h
    case isFalse hlen =>
      rw [if_neg hlen]
      rcases k with _ | _ | _ | k
      · cases h
      · cases h
      · cases h
      · exact h

theorem eq_of_cached {i : Nat} {entry : JitEntry}
    (h : List.lookup i [(0, successorEntry)] = some entry) : i = 0 ∧ entry = successorEntry := by
  obtain ⟨l₁, l₂, heq, -⟩ := List.lookup_eq_some_iff.mp h
  have hmem : (i, entry) ∈ [(0, successorEntry)] :=
    heq ▸ List.mem_append_right _ List.mem_cons_self
  cases List.mem_singleton.mp hmem
  exact ⟨rfl, rfl⟩

theorem successorDispatch_dispatches : Dispatches .bare [(0, successorEntry)] successorDispatch where
  interpreted i args w h := by
    have hi : i ≠ 0 := by
      rintro rfl
      cases h
    exact if_neg hi
  fallBack i entry args w k h hcall := by
    obtain ⟨rfl, rfl⟩ := eq_of_cached h
    have hcall' : successorEntry.callJit .bare args 3 = .fallBack := by
      unfold JitEntry.callJit at hcall ⊢
      cases hpacked : packArgs args successorEntry.info.params with
      | none => rfl
      | some packed =>
        simp only [hpacked] at hcall ⊢
        split at hcall
        case isTrue hlen => rw [if_pos hlen]
        case isFalse => split at hcall <;> cases hcall
    simp only [successorDispatch, hcall', if_true]
  returned i entry args w k r h hcall := by
    obtain ⟨rfl, rfl⟩ := eq_of_cached h
    simp only [successorDispatch, successor_callJit hcall, if_true]

def successorArgs : Value := .struct [(7, .int .int64 41)]

theorem successor_agrees :
    AgreesOn Host.bare successorMain 0 successorEntry successorArgs (.new, ()) := by
  refine ⟨_, successor, successorRun, 2, .int .int64 42, rfl, rfl, ?_⟩
  exact {
    fits := successor_args
    arity := by decide
    interprets := ⟨rfl, by
      intro i hi
      rcases i with _ | _ | i
      · exact rfl
      · exact rfl
      · omega⟩
    before := rfl
    agrees := successorRun_agrees
    ret := ⟨_, rfl⟩
    finishes := ⟨_, rfl⟩
    isInt := rfl
    variant := rfl
    after := rfl }

/-- The states of the run of `Main` on 41. -/
def successorMainRun : Nat → Executor Unit
  | 0 => ⟨.new, [.new 1 successorArgs], ()⟩
  | k + 1 =>
    match iterate Host.bare successorMain (successorMainRun k) with
    | .next e => e
    | _ => successorMainRun k

theorem successorMain_reaches {e : Executor Unit}
    (h : RunReaches Host.bare successorMain "Main" successorArgs (.new ()) e) :
    ∃ k ∈ [0, 1, 2, 3, 4], e = successorMainRun k := by
  obtain ⟨e₁, hstart, hsteps⟩ := h
  induction hsteps with
  | refl => exact ⟨0, .head _, (Iteration.next.inj hstart).symm⟩
  | tail _ hstep ih =>
    obtain ⟨k, hk, rfl⟩ := ih
    simp only [List.mem_cons, List.not_mem_nil, or_false] at hk
    rcases hk with rfl | rfl | rfl | rfl | rfl
    · exact ⟨1, by decide, (Iteration.next.inj hstep).symm⟩
    · exact ⟨2, by decide, (Iteration.next.inj hstep).symm⟩
    · exact ⟨3, by decide, (Iteration.next.inj hstep).symm⟩
    · exact ⟨4, by decide, (Iteration.next.inj hstep).symm⟩
    · cases hstep

/-- Its only call is its first instruction. -/
theorem successorMain_callAgrees (v : View Unit) (below : List CallFrame)
    (h : RunReaches Host.bare successorMain "Main" successorArgs (.new ()) (v.plug below)) :
    CallAgrees Host.bare successorMain .bare [(0, successorEntry)] v := by
  have hcalls : ∀ {func instr i args w}, Fetch successorMain v.frame func instr →
      v.advance.exec Host.bare successorMain instr = .ok (.callFunc i args) w ∨
        v.advance.exec Host.bare successorMain instr = .ok (.tailCall i args) w →
      i = 0 ∧ args = successorArgs ∧ v.shared = (.new, ()) ∧ v.frame.tryGuard = none ∧
        v.frame.tmpFrames = [] := by
    rintro func instr i args w ⟨hfunc, hinstr⟩ hexec
    obtain ⟨k, hk, heq⟩ := successorMain_reaches h
    obtain ⟨cf, g, u⟩ := v
    simp only [List.mem_cons, List.not_mem_nil, or_false] at hk
    rcases hk with rfl | rfl | rfl | rfl | rfl
    all_goals
      cases heq
      cases hfunc
      cases hinstr
      rcases hexec with hexec | hexec
      all_goals cases hexec
    exact ⟨rfl, rfl, rfl, rfl, rfl⟩
  exact {
    call := fun hfetch hexec hlookup => by
      obtain ⟨rfl, rfl, hshared, -, -⟩ := hcalls hfetch (.inl hexec)
      cases hlookup
      exact .inr (hshared ▸ successor_agrees)
    tailCall := fun hfetch hexec hlookup => by
      obtain ⟨rfl, rfl, hshared, hguard, htmp⟩ := hcalls hfetch (.inr hexec)
      cases hlookup
      exact .inr ⟨hguard, htmp, hshared ▸ successor_agrees⟩ }

/-- With the JIT, `Main` returns 42 as well. -/
theorem jit_transparent_successorMain :
    (∀ t e, RunEnds Host.bare successorMain "Main" successorArgs (.new ()) t e →
      t ≠ .result (.error Fault.stackOverflow.display) →
      RunEnds (Host.bare.withJit successorDispatch) successorMain "Main" successorArgs (.new ()) t e) ∧
    (∀ t e, RunEnds (Host.bare.withJit successorDispatch) successorMain "Main" successorArgs
        (.new ()) t e →
      RunEnds Host.bare successorMain "Main" successorArgs (.new ()) t e ∨
        RunOverflows Host.bare successorMain "Main" successorArgs (.new ())) ∧
    ∀ e, RunReaches (Host.bare.withJit successorDispatch) successorMain "Main" successorArgs
        (.new ()) e →
      RunReaches Host.bare successorMain "Main" successorArgs (.new ()) e ∨
        RunOverflows Host.bare successorMain "Main" successorArgs (.new ()) :=
  jit_transparent rfl successor_cache successorDispatch_dispatches successorMain_callAgrees

end Example

end Fasm
