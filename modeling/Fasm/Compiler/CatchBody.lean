import Fasm.Compiler.GuardScope

/-!
# When the body of a `CATCH` runs

A frame has one guard, however many `TRY` blocks it is in.  In runs that execute no
`TRY` and no `ENDTRY` inside the body of a `TRY` block, enter no such body but through
its `TRY` or with its guard, make no tail call away from a guard, and in which the
labels of the blocks are their own, the guard of a frame in the body of a block is the
one of that block.  So the body of its `CATCH` is reached by a fault under that guard
only.
-/

namespace Fasm

open Pushdown (Machine Config frameAt)

variable {ω : Type} {host : Host ω} {p : Program} {ast : ProgramAst}

/-! ## Steps that lose track of the blocks -/

/-- The next turn executes the `TRY` of a block one of whose labels is declared again, later in
the function and elsewhere, or is at a position from `2 ^ 32` on. -/
def View.TriesWithLostLabel (ast : ProgramAst) (v : View ω) : Prop :=
  ∃ f b, ast.functions[v.frame.funcIdx]? = some f ∧ b ∈ f.tryBlocks ∧ b.tryIp = v.frame.ip ∧
    ¬ (f.Owns b.catchLabel b.catchIp ∧ f.Owns b.endLabel b.endIp)

/-- The next instruction is a `TRY` or an `ENDTRY` in the body of a `TRY` block. -/
def View.NestsGuard (ast : ProgramAst) (p : Program) (v : View ω) : Prop :=
  ∃ func instr f b, Fetch p v.frame func instr ∧ instr.opcode ∈ [.try_, .endTry] ∧
    ast.functions[v.frame.funcIdx]? = some f ∧ b ∈ f.tryBlocks ∧ b.InBody v.frame.ip

/-- The next instruction jumps into the body of a `TRY` block whose guard the frame has not. -/
def View.JumpsIntoBody (ast : ProgramAst) (host : Host ω) (p : Program) (v : View ω) : Prop :=
  ∃ func instr target w f b, Fetch p v.frame func instr ∧ instr.opcode ≠ .catch_ ∧
    v.advance.exec host p instr = .ok (.jump target) w ∧
    ast.functions[v.frame.funcIdx]? = some f ∧ b ∈ f.tryBlocks ∧ b.InBody target ∧
    ∀ g, v.frame.tryGuard = some g → g.catchIp ≠ b.catchIp

/-- The next turn does none of the four things that lose track of the blocks. -/
structure KeepsBlocks (ast : ProgramAst) (host : Host ω) (p : Program) (e : Executor ω) :
    Prop where
  tailCall : ¬ e.Top (View.TailCallsAway host p)
  label : ¬ e.Top (View.TriesWithLostLabel ast)
  nested : ¬ e.Top (View.NestsGuard ast p)
  jump : ¬ e.Top (View.JumpsIntoBody ast host p)

/-! ## Placed frames -/

/-- A guard is the one of a block that is in no body, and in the body of a block the guard is the
one of that block. -/
structure Placed (ast : ProgramAst) (funcIdx ip : Nat) (tryGuard : Option TryGuard) : Prop where
  ofGuard : ∀ f g, ast.functions[funcIdx]? = some f → tryGuard = some g →
    ∃ b ∈ f.tryBlocks, g.catchIp = b.catchIp ∧ g.endIp = b.endIp ∧
      ∀ b' ∈ f.tryBlocks, ¬ b'.InBody b.tryIp
  ofBody : ∀ f b, ast.functions[funcIdx]? = some f → b ∈ f.tryBlocks → b.InBody ip →
    ∃ g, tryGuard = some g ∧ g.catchIp = b.catchIp

/-- The frame is placed. -/
def CallFrame.Placed (ast : ProgramAst) (cf : CallFrame) : Prop :=
  Fasm.Placed ast cf.funcIdx cf.ip cf.tryGuard

/-- A fault has just been delivered to the frame: it is at the `CATCH` of a block that is in no
body, without a guard. -/
def CallFrame.JustCaught (ast : ProgramAst) (cf : CallFrame) : Prop :=
  cf.tryGuard = none ∧ ∃ f b, ast.functions[cf.funcIdx]? = some f ∧ b ∈ f.tryBlocks ∧
    cf.ip = b.catchIp ∧ ∀ b' ∈ f.tryBlocks, ¬ b'.InBody b.tryIp

theorem TryBlock.InBody.pred {b : TryBlock} {ip : Nat} (h : b.InBody (ip + 1)) :
    b.tryIp = ip ∨ b.InBody ip := by
  obtain ⟨hlo, hhi⟩ := h
  rcases Nat.lt_or_eq_of_le (Nat.le_of_lt_succ hlo) with hlt | heq
  · exact .inr ⟨hlt, Nat.le_of_succ_le hhi⟩
  · exact .inl heq

namespace Placed

variable {funcIdx ip : Nat} {tryGuard : Option TryGuard}

/-- A frame at the start of a function is in no body. -/
theorem start (h : ∀ f g, ast.functions[funcIdx]? = some f → tryGuard = some g →
    ∃ b ∈ f.tryBlocks, g.catchIp = b.catchIp ∧ g.endIp = b.endIp ∧
      ∀ b' ∈ f.tryBlocks, ¬ b'.InBody b.tryIp) : Placed ast funcIdx 0 tryGuard :=
  ⟨h, fun _ _ _ _ hin => absurd hin.1 (Nat.not_lt_zero _)⟩

/-- A frame without a guard that is in no body. -/
theorem outside (h : ∀ f b, ast.functions[funcIdx]? = some f → b ∈ f.tryBlocks → ¬ b.InBody ip) :
    Placed ast funcIdx ip none :=
  ⟨fun _ _ _ hg => (nomatch hg), fun f b hf hb hin => absurd hin (h f b hf hb)⟩

/-- Past an instruction that is not a `TRY` a frame is in the same bodies. -/
theorem next (h : Placed ast funcIdx ip tryGuard)
    (hne : ∀ f b, ast.functions[funcIdx]? = some f → b ∈ f.tryBlocks → b.tryIp ≠ ip) :
    Placed ast funcIdx (ip + 1) tryGuard := by
  refine ⟨h.ofGuard, fun f b hf hb hin => ?_⟩
  rcases hin.pred with heq | hin
  · exact absurd heq (hne f b hf hb)
  · exact h.ofBody f b hf hb hin

end Placed

/-! ## Steps of placed frames -/

section Step

variable {v w : View ω} {func : FunctionDef} {instr : Instruction}

/-- Where the instruction is not a `TRY`, no block starts. -/
theorem tryIp_ne (hp : emit ast = .ok p) (hfetch : Fetch p v.frame func instr)
    (hop : instr.opcode ≠ .try_) {f : Function} {b : TryBlock}
    (hf : ast.functions[v.frame.funcIdx]? = some f) (hb : b ∈ f.tryBlocks) :
    b.tryIp ≠ v.frame.ip := by
  intro heq
  obtain ⟨f', hf', hcomp⟩ := emit_function hp hfetch.func_eq
  cases hf.symm.trans hf'
  obtain ⟨⟨ops, htry⟩, -⟩ := hcomp.opcode_at hb
  rw [heq] at htry
  cases hfetch.instr_eq.symm.trans htry
  exact hop rfl

/-- A frame to which a fault has just been delivered executes a `CATCH` next. -/
theorem CallFrame.JustCaught.opcode (hp : emit ast = .ok p) (h : v.frame.JustCaught ast)
    (hfetch : Fetch p v.frame func instr) : instr.opcode = .catch_ := by
  obtain ⟨-, f, b, hf, hb, hip, -⟩ := h
  obtain ⟨f', hf', hcomp⟩ := emit_function hp hfetch.func_eq
  cases hf.symm.trans hf'
  obtain ⟨-, ops, hcatch⟩ := hcomp.opcode_at hb
  rw [← hip] at hcatch
  cases hfetch.instr_eq.symm.trans hcatch
  rfl

/-- Instructions that leave the guard alone and go on to the next one. -/
theorem placed_goOn (hp : emit ast = .ok p) (hok : v.frame.Placed ast)
    (hfetch : Fetch p v.frame func instr) {r : EStateM.Result Stop (View ω) Action}
    (hexec : v.advance.exec host p instr = r) (hop : instr.opcode.setsGuard = false) :
    (stateOf r).frame.Placed ast := by
  rw [CallFrame.Placed, exec_funcIdx hexec, exec_ip hexec, exec_guard hexec hop]
  refine Placed.next hok fun f b hf hb => tryIp_ne hp hfetch (fun htry => ?_) hf hb
  rw [htry] at hop
  cases hop

/-- A `TRY` outside all bodies, whose block owns its labels. -/
theorem placed_try (hp : emit ast = .ok p) {ops : List Operand}
    (hfetch : Fetch p v.frame func ⟨.try_, ops⟩)
    (hexec : v.advance.exec host p ⟨.try_, ops⟩ = .ok .continue_ w)
    (hlabel : ¬ View.TriesWithLostLabel ast v) (hnested : ¬ View.NestsGuard ast p v) :
    w.frame.Placed ast := by
  obtain ⟨f, hf, hcomp⟩ := emit_function hp hfetch.func_eq
  obtain ⟨b, hb, hip, htargets⟩ := hcomp.try_at hfetch.instr_eq rfl
  rw [View.exec_try] at hexec
  cases ht : Instruction.tryTargets ⟨.try_, ops⟩ with
  | error s => rw [ht] at hexec; cases hexec
  | ok ct =>
    rw [ht] at hexec
    cases hexec
    obtain ⟨hc, he⟩ := htargets ct.1 ct.2 ht
    have hown : f.Owns b.catchLabel b.catchIp ∧ f.Owns b.endLabel b.endIp :=
      Classical.byContradiction fun hlost => hlabel ⟨f, b, hf, hb, hip, hlost⟩
    have hout : ∀ b' ∈ f.tryBlocks, ¬ b'.InBody v.frame.ip := fun b' hb' hin =>
      hnested ⟨func, _, f, b', hfetch, by simp, hf, hb', hin⟩
    constructor
    · intro f' g hf' hg
      cases hf.symm.trans hf'
      cases hg
      refine ⟨b, hb, hc hown.1, he hown.2, ?_⟩
      rw [hip]
      exact hout
    · intro f' b' hf' hb' hin
      cases hf.symm.trans hf'
      refine ⟨_, rfl, ?_⟩
      rcases hin.pred with heq | hin
      · rw [f.eq_of_tryIp hb' hb (heq.trans hip.symm)]
        exact hc hown.1
      · exact absurd hin (hout b' hb')

/-- An `ENDTRY` outside all bodies. -/
theorem placed_endTry (hp : emit ast = .ok p) {ops : List Operand}
    (hfetch : Fetch p v.frame func ⟨.endTry, ops⟩)
    (hnested : ¬ View.NestsGuard ast p v) :
    (v.advance.withGuard none).frame.Placed ast := by
  refine Placed.outside fun f b hf hb hin => ?_
  rcases hin.pred with heq | hin
  · exact tryIp_ne hp hfetch (by simp) hf hb heq
  · exact hnested ⟨func, _, f, b, hfetch, by simp, hf, hb, hin⟩

/-- A frame that is placed, at the `CATCH` of a block, has the guard of the block. -/
theorem CallFrame.Placed.guard_at {cf : CallFrame} {f : Function} {b : TryBlock}
    (h : cf.Placed ast) (hf : ast.functions[cf.funcIdx]? = some f) (hb : b ∈ f.tryBlocks)
    (hip : cf.ip = b.catchIp) :
    ∃ g, cf.tryGuard = some g ∧ g.endIp = b.endIp ∧ ∀ b' ∈ f.tryBlocks, ¬ b'.InBody b.tryIp := by
  have hin : b.InBody cf.ip := by
    rw [hip]
    exact ⟨(f.within hb).1, Nat.le_refl _⟩
  obtain ⟨g, hg, hcatch⟩ := h.ofBody f b hf hb hin
  obtain ⟨b', hb', hcatch', hend, hout⟩ := h.ofGuard f g hf hg
  cases f.eq_of_catchIp hb hb' (hcatch.symm.trans hcatch')
  exact ⟨g, hg, hend, hout⟩

/-- A `CATCH` takes a frame out of all bodies. -/
theorem placed_catch (hp : emit ast = .ok p) (hok : v.frame.Placed ast ∨ v.frame.JustCaught ast)
    {ops : List Operand} (hfetch : Fetch p v.frame func ⟨.catch_, ops⟩) :
    Fasm.Placed ast v.frame.funcIdx v.advance.catchTarget none := by
  rcases hok with hok | ⟨hnone, f, b, hf, hb, hip, hout⟩
  · obtain ⟨f, hf, hcomp⟩ := emit_function hp hfetch.func_eq
    obtain ⟨b, hb, hip⟩ := hcomp.catch_at hfetch.instr_eq rfl
    obtain ⟨g, hg, hend, hout⟩ := hok.guard_at hf hb hip.symm
    have htarget : v.advance.catchTarget = b.endIp := by
      simp only [View.catchTarget, View.advance, hg, hend]
    rw [htarget]
    refine Placed.outside fun f' b' hf' hb' hin => ?_
    cases hf.symm.trans hf'
    exact hout b' hb' (f.inBody_of_endIp hb hb' hin)
  · have htarget : v.advance.catchTarget = v.frame.ip + 1 := by
      simp only [View.catchTarget, View.advance, hnone]
    rw [htarget]
    refine Placed.outside fun f' b' hf' hb' hin => ?_
    cases hf.symm.trans hf'
    have hne : b ≠ b' := by
      rintro rfl
      exact absurd hin.2 (by rw [hip]; omega)
    rcases hin.pred with heq | hin
    · exact tryIp_ne hp hfetch (by simp) hf hb' heq
    · rw [hip] at hin
      exact hout b' hb' (f.inBody_of_catchIp hb hb' hne hin)

/-- What a turn of the top frame makes of it where it does not leave: a placed frame, or one at
its `CATCH` to which a fault has been delivered. -/
theorem placed_stay (hp : emit ast = .ok p) {f' : CallFrame} {s' : GlobalRegister × ω}
    (hmove : v.move host p = .stay f' s') (hok : v.frame.Placed ast ∨ v.frame.JustCaught ast)
    (haway : ¬ View.TailCallsAway host p v) (hlabel : ¬ View.TriesWithLostLabel ast v)
    (hnested : ¬ View.NestsGuard ast p v) (hjump : ¬ View.JumpsIntoBody ast host p v) :
    f'.Placed ast ∨ f'.JustCaught ast ∧ ∃ func instr w fault g, Fetch p v.frame func instr ∧
      v.advance.exec host p instr = .error (.fault fault) w ∧ v.frame.tryGuard = some g := by
  -- a frame that is not placed executes a `CATCH`
  have hplaced : ∀ {func instr}, Fetch p v.frame func instr → instr.opcode ≠ .catch_ →
      v.frame.Placed ast := fun hfetch hop =>
    hok.resolve_right fun hcaught => hop (hcaught.opcode hp hfetch)
  cases moves_of_eq hmove with
  | @goOn func instr w hfetch hexec =>
    refine .inl ?_
    obtain ⟨op, operands⟩ := instr
    by_cases hset : op.setsGuard = false
    · have hop : op ≠ .catch_ := fun hop => by rw [hop] at hset; cases hset
      exact placed_goOn hp (hplaced hfetch hop) hfetch hexec hset
    cases op with
    | try_ => exact placed_try hp hfetch hexec hlabel hnested
    | catch_ => cases hexec
    | endTry =>
      cases hexec
      exact placed_endTry hp hfetch hnested
    | _ => exact absurd rfl hset
  | @jump func instr w target hfetch hexec =>
    refine .inl ?_
    obtain ⟨op, operands⟩ := instr
    by_cases hset : op.setsGuard = false
    · have hop : op ≠ .catch_ := fun hop => by rw [hop] at hset; cases hset
      have hguard : w.frame.tryGuard = v.frame.tryGuard := exec_guard hexec hset
      have hidx : w.frame.funcIdx = v.frame.funcIdx := exec_funcIdx hexec
      rw [CallFrame.Placed, hidx, hguard]
      refine ⟨(hplaced hfetch hop).ofGuard, fun f b hf hb hin => ?_⟩
      refine Classical.byContradiction fun hno => hjump ?_
      exact ⟨func, _, target, w, f, b, hfetch, hop, hexec, hf, hb, hin, fun g hg hc =>
        hno ⟨g, hg, hc⟩⟩
    cases op with
    | catch_ =>
      cases hexec
      exact placed_catch hp hok hfetch
    | try_ =>
      rw [View.exec_try] at hexec
      split at hexec <;> cases hexec
    | endTry => cases hexec
    | _ => exact absurd rfl hset
  | @callJit func instr w i args ret world hfetch hexec hjit =>
    have hset : instr.opcode.setsGuard = false := by
      rcases List.mem_cons.mp (View.exec_yields host p instr _ hexec).1 with hop | hop
      · rw [hop]; rfl
      · rw [List.mem_singleton.mp hop]; rfl
    have hop : instr.opcode ≠ .catch_ := fun hop => by rw [hop] at hset; cases hset
    exact .inl (placed_goOn hp (hplaced hfetch hop) hfetch hexec hset)
  | @tail func instr w i args world hfetch hexec hjit =>
    have hop : instr.opcode ≠ .catch_ := by
      rw [(View.exec_yields host p instr _ hexec).1]
      exact Opcode.noConfusion
    obtain rfl := exec_tail_eq hexec
    refine .inl (Placed.start fun f g hf hg => ?_)
    have hi : i = v.frame.funcIdx := by
      refine Classical.byContradiction fun hne => haway ⟨fun hnone => ?_, ?_⟩
      · exact nomatch hnone.symm.trans hg
      · exact ⟨func, instr, i, args, _, world, hfetch, hexec, hjit, hne⟩
    rw [hi] at hf
    exact (hplaced hfetch hop).ofGuard f g hf hg
  | @caught func instr w fault g hfetch hexec hguard =>
    have hop : instr.opcode ≠ .catch_ := fun hop => by
      obtain ⟨op, operands⟩ := instr
      cases hop
      cases hexec
    have hg : v.frame.tryGuard = some g := (exec_stop_guard hexec).symm.trans hguard
    obtain ⟨f, hf, -⟩ := emit_function hp hfetch.func_eq
    obtain ⟨b, hb, hcatch, -, hout⟩ := (hplaced hfetch hop).ofGuard f g hf hg
    have hidx : w.frame.funcIdx = v.frame.funcIdx := exec_funcIdx hexec
    refine .inr ⟨⟨rfl, f, b, ?_, hb, hcatch, hout⟩, func, instr, w, fault, g, hfetch, hexec, hg⟩
    exact (congrArg _ hidx).trans hf

end Step

/-! ## Runs -/

/-- The frames of the executor are placed. -/
def Executor.Placed (ast : ProgramAst) (e : Executor ω) : Prop := ∀ cf ∈ e.callStack, cf.Placed ast

/-- The step from `e` has delivered a fault to the top frame of `e'`, which is at the `CATCH` of
its guard; all other frames are placed. -/
def Delivered (ast : ProgramAst) (host : Host ω) (p : Program) (e e' : Executor ω) : Prop :=
  ∃ cf below f g, e'.callStack = cf :: below ∧ cf.JustCaught ast ∧
    (∀ cf' ∈ below, cf'.Placed ast) ∧ e.Delivers host p below.length f g

theorem CallFrame.Placed.new (i : Nat) (args : Value) : (CallFrame.new i args).Placed ast :=
  Placed.start fun _ _ _ hg => nomatch hg

/-- One step. -/
theorem placed_step (hp : emit ast = .ok p) {e e' : Executor ω} (hstep : Step host p e e')
    (hkeeps : KeepsBlocks ast host p e) {cf : CallFrame} {below : List CallFrame}
    (hstack : e.callStack = cf :: below) (hok : cf.Placed ast ∨ cf.JustCaught ast)
    (hbelow : ∀ cf' ∈ below, cf'.Placed ast) :
    e'.Placed ast ∨ Delivered ast host p e e' := by
  obtain ⟨globals, stack, world⟩ := e
  obtain ⟨globals', stack', world'⟩ := e'
  obtain rfl : stack = cf :: below := hstack
  let v : View ω := ⟨cf, globals, world⟩
  have haway : ¬ View.TailCallsAway host p v := fun h => hkeeps.tailCall ⟨cf, below, rfl, h⟩
  have hlabel : ¬ View.TriesWithLostLabel ast v := fun h => hkeeps.label ⟨cf, below, rfl, h⟩
  have hnested : ¬ View.NestsGuard ast p v := fun h => hkeeps.nested ⟨cf, below, rfl, h⟩
  have hjump : ¬ View.JumpsIntoBody ast host p v := fun h => hkeeps.jump ⟨cf, below, rfl, h⟩
  cases step_iff.mp hstep with
  | stay hmove =>
    rcases placed_stay hp (v := v) hmove hok haway hlabel hnested hjump with hf' | ⟨hf', hfault⟩
    · exact .inl (List.forall_mem_cons.mpr ⟨hf', hbelow⟩)
    · obtain ⟨func, instr, w, fault, g, hfetch, hexec, hg⟩ := hfault
      refine .inr ⟨_, below, fault, g, rfl, hf', hbelow, ?_, cf, below, rfl, rfl, hg⟩
      refine ⟨cf, below, func, instr, w.plug below, rfl, hfetch, ?_⟩
      exact (View.exec_plug host p instr v.advance below).trans (by rw [hexec]; rfl)
  | enter hmove _ =>
    cases moves_of_eq (v := v) hmove with
    | @call func instr w i args world hfetch hexec hjit =>
      have hset : instr.opcode.setsGuard = false := by
        rcases List.mem_cons.mp (View.exec_yields host p instr _ hexec).1 with hop | hop
        · rw [hop]; rfl
        · rw [List.mem_singleton.mp hop]; rfl
      have hplaced : v.frame.Placed ast := hok.resolve_right fun hcaught => by
        rw [CallFrame.JustCaught.opcode (v := v) hp hcaught hfetch] at hset
        cases hset
      have hcaller : w.frame.Placed ast := placed_goOn hp hplaced hfetch hexec hset
      exact .inl (List.forall_mem_cons.mpr
        ⟨.new i args, List.forall_mem_cons.mpr ⟨hcaller, hbelow⟩⟩)
  | leave hmove =>
    obtain ⟨hcaller, hrest⟩ := List.forall_mem_cons.mp hbelow
    -- the value that the caller receives does not move it
    exact .inl (List.forall_mem_cons.mpr ⟨hcaller, hrest⟩)

variable {func : String} {args : Value} {e₀ : Executor ω} {σ : Nat → Executor ω} {n : Nat}

/-- In every state of such a run the frames are placed, or the last step has delivered a fault. -/
theorem placed_run (hp : emit ast = .ok p) (hempty : e₀.callStack = [])
    (hrun : IsRunOf host p func args e₀ (KeepsBlocks ast host p) σ n) :
    (σ n).Placed ast ∨ ∃ m, n = m + 1 ∧ Delivered ast host p (σ m) (σ n) := by
  induction n with
  | zero =>
    obtain ⟨i, -, hstack, -⟩ := start_eq hrun.init
    rw [hempty] at hstack
    rw [Executor.Placed, hstack]
    exact .inl (List.forall_mem_cons.mpr ⟨.new i args, nofun⟩)
  | succ m ih =>
    obtain ⟨hstep, hkeeps⟩ := hrun.step m (Nat.lt_succ_self m)
    have hnext : (σ (m + 1)).Placed ast ∨ Delivered ast host p (σ m) (σ (m + 1)) := by
      rcases ih (hrun.le (Nat.le_succ m)) with hok | ⟨_, -, cf, below, _, _, hstack, hcf, hbelow, -⟩
      · have hne : (σ m).callStack ≠ [] := (step_iff.mp hstep).source_ne_nil
        obtain ⟨cf, below, hstack⟩ := List.exists_cons_of_ne_nil hne
        rw [Executor.Placed, hstack, List.forall_mem_cons] at hok
        exact placed_step hp hstep hkeeps hstack (.inl hok.1) hok.2
      · exact placed_step hp hstep hkeeps hstack (.inr hcf) hbelow
    exact hnext.imp_right fun h => ⟨m, rfl, h⟩

/-- A `CATCH` takes the guard away and goes on at the end of the guard, or at the next
instruction where there is none. -/
theorem step_catch (hp : emit ast = .ok p) {e : Executor ω} {cf : CallFrame}
    {below : List CallFrame} {f : Function} {b : TryBlock} (hstack : e.callStack = cf :: below)
    (hf : ast.functions[cf.funcIdx]? = some f) (hb : b ∈ f.tryBlocks) (hip : cf.ip = b.catchIp) :
    Step host p e { e with callStack :=
      { cf with
        ip := View.catchTarget ⟨{ cf with ip := cf.ip + 1 }, e.globals, e.world⟩
        tryGuard := none } :: below } := by
  obtain ⟨globals, stack, world⟩ := e
  obtain rfl : stack = cf :: below := hstack
  obtain ⟨fd, hfd, hcomp⟩ := function_emit hp hf
  obtain ⟨-, ops, hcatch⟩ := hcomp.opcode_at hb
  rw [← hip] at hcatch
  have hfetch : Fetch p cf fd ⟨.catch_, ops⟩ := ⟨hfd, hcatch⟩
  refine step_iff.mpr (.stay ?_)
  exact View.move_of_fetch host (v := ⟨cf, globals, world⟩) hfetch

/-- **The body of a `CATCH` runs only after a fault.**  In every run whose steps keep track of the
blocks, a frame at the `CATCH` of a block either has a guard, and goes on at the `ENDTRY` of the
same block; or it has none, and goes on in the body of the `CATCH`, and the last step has
delivered to it a fault of an instruction under the guard of the same block. -/
theorem catch_body_after_fault {u : Unicode} {src : String} (hast : frontend u src = .ok ast)
    (hp : compileSource u src = .ok p) (hempty : e₀.callStack = [])
    (hrun : IsRunOf host p func args e₀ (KeepsBlocks ast host p) σ n) {cf : CallFrame}
    {below : List CallFrame} (hstack : (σ n).callStack = cf :: below) {f : Function} {b : TryBlock}
    (hf : ast.functions[cf.funcIdx]? = some f) (hb : b ∈ f.tryBlocks) (hip : cf.ip = b.catchIp) :
    (cf.tryGuard ≠ none ∧ Step host p (σ n)
      { σ n with callStack := { cf with ip := b.endIp, tryGuard := none } :: below }) ∨
    cf.tryGuard = none ∧
      Step host p (σ n) { σ n with callStack := { cf with ip := b.catchIp + 1 } :: below } ∧
      ∃ m fault g, n = m + 1 ∧ (σ m).Delivers host p below.length fault g ∧
        Since
          (fun e => e.config.TopAt below.length fun cf₀ s =>
            cf₀.funcIdx = cf.funcIdx ∧ cf₀.ip = b.tryIp ∧ TriesWith p g cf₀ s.1)
          (fun e => e.GuardAt below.length g) σ m := by
  have hemit := emit_of_compileSource hast hp
  have hcatch : Step host p (σ n) _ := step_catch hemit hstack hf hb hip
  rcases placed_run hemit hempty hrun with
    hok | ⟨m, rfl, cf', below', fault, g, hstack', hcf, -, hd⟩
  · rw [Executor.Placed, hstack, List.forall_mem_cons] at hok
    obtain ⟨g, hg, hend, -⟩ := hok.1.guard_at hf hb hip
    have htarget : View.catchTarget ⟨{ cf with ip := cf.ip + 1 }, (σ n).globals, (σ n).world⟩ =
        b.endIp := by
      simp only [View.catchTarget, hg, hend]
    rw [htarget] at hcatch
    exact .inl ⟨fun hnone => (nomatch hnone.symm.trans hg), hcatch⟩
  · cases hstack.symm.trans hstack'
    refine .inr ⟨hcf.1, ?_, m, fault, g, rfl, hd, ?_⟩
    · have htarget : View.catchTarget
          ⟨{ cf with ip := cf.ip + 1 }, (σ (m + 1)).globals, (σ (m + 1)).world⟩ =
          b.catchIp + 1 := by
        simp only [View.catchTarget, hcf.1, hip]
      rw [htarget, ← hcf.1] at hcatch
      exact hcatch
    · obtain ⟨hstep, -⟩ := hrun.step m (Nat.lt_succ_self m)
      obtain ⟨cf₁, cf₂, below₁, w, hstack₁, hlen, hg, hidx, hnext⟩ := hd.next
      -- the frame that the fault is delivered to executes the same function
      have hcf₂ := hstack.symm.trans
        (congrArg Executor.callStack (Iteration.next.inj (hstep.symm.trans hnext)))
      cases hcf₂
      have hat : frameAt (σ m).callStack below.length = some cf₁ := by
        rw [hstack₁, ← hlen, Pushdown.frameAt_length]
      obtain ⟨i, hi, ⟨cf₀, below₀, hstack₀, hd₀, hidx₀, htry⟩, hsince⟩ :=
        guardIn_since hempty (hrun.le (Nat.le_succ m)) (fun _ hc => hc.tailCall) hat hg
      obtain ⟨f₀, -, b₀, hf₀, -, -, hb₀, hip₀, hcatch₀, -⟩ := htry.block hemit
      have hown : f₀.Owns b₀.catchLabel b₀.catchIp := by
        refine Classical.byContradiction fun hlost => ?_
        refine (hrun.step i (Nat.lt_succ_of_lt hi)).2.label ⟨cf₀, below₀, hstack₀, f₀, b₀, hf₀, ?_⟩
        exact ⟨hb₀, hip₀, fun hboth => hlost hboth.1⟩
      have hfunc : cf₀.funcIdx = (cf₂.rollback g fault).funcIdx := hidx₀.trans hidx.symm
      rw [hfunc] at hf₀
      cases hf.symm.trans hf₀
      have hb₀b : b₀ = b := f.eq_of_catchIp hb₀ hb ((hcatch₀ hown).symm.trans hip)
      rw [hb₀b] at hip₀
      exact ⟨i, hi, ⟨cf₀, below₀, hstack₀, hd₀, hfunc, hip₀.symm, htry⟩, hsince⟩

section Example

/-- The run of `guardedDivProgram` up to its `CATCH`. -/
def guardedDivCaught : Nat → Executor Unit
  | 0 => ⟨.new, [.new 0 (.struct [])], ()⟩
  | 1 => ⟨.new, [guardedDivFrame], ()⟩
  | _ + 2 => ⟨.new, [{ CallFrame.new 0 (.struct []) with ip := 2, retVal := .uint32 4 }], ()⟩

theorem guardedDivCaught_isRun :
    IsRunOf Host.bare guardedDivProgram "Main" (.struct []) (.new ())
      (KeepsBlocks guardedDivAst Host.bare guardedDivProgram) guardedDivCaught 2 where
  init := rfl
  step := by
    intro i hi
    obtain rfl | rfl : i = 0 ∨ i = 1 := by omega
    · refine ⟨rfl, ?_, ?_, ?_, ?_⟩
      · rintro ⟨cf, below, hstack, hg, -⟩
        cases hstack
        exact hg rfl
      · rintro ⟨cf, below, hstack, f, b, hf, hb, -, hlost⟩
        cases hstack
        cases hf
        obtain rfl := List.mem_singleton.mp hb
        exact hlost ⟨⟨rfl, by decide⟩, rfl, by decide⟩
      · rintro ⟨cf, below, hstack, func, instr, f, b, -, -, -, -, hin⟩
        cases hstack
        exact absurd hin.1 (Nat.not_lt_zero _)
      · rintro ⟨cf, below, hstack, func, instr, target, w, f, b, hfetch, -, hexec, -⟩
        cases hstack
        cases hfetch.func_eq
        cases hfetch.instr_eq
        cases hexec
    · refine ⟨rfl, ?_, ?_, ?_, ?_⟩
      · rintro ⟨cf, below, hstack, -, func, instr, i, args, w, world, hfetch, hexec, -⟩
        cases hstack
        cases hfetch.func_eq
        cases hfetch.instr_eq
        cases hexec
      · rintro ⟨cf, below, hstack, f, b, hf, hb, htry, -⟩
        cases hstack
        cases hf
        obtain rfl := List.mem_singleton.mp hb
        cases htry
      · rintro ⟨cf, below, hstack, func, instr, f, b, hfetch, hop, -⟩
        cases hstack
        cases hfetch.func_eq
        cases hfetch.instr_eq
        simp [divCode] at hop
      · rintro ⟨cf, below, hstack, func, instr, target, w, f, b, hfetch, -, hexec, -⟩
        cases hstack
        cases hfetch.func_eq
        cases hfetch.instr_eq
        cases hexec

theorem catch_body_after_fault_guardedDiv :
    ∃ m fault g, 2 = m + 1 ∧
      (guardedDivCaught m).Delivers Host.bare guardedDivProgram 0 fault g := by
  have h := catch_body_after_fault guardedDiv_frontend guardedDiv_compiles rfl
    guardedDivCaught_isRun (rfl : (guardedDivCaught 2).callStack = [_]) rfl (.head _) rfl
  rcases h with ⟨hguard, -⟩ | ⟨-, -, m, fault, g, hm, hd, -⟩
  · exact absurd rfl hguard
  · exact ⟨m, fault, g, hm, hd⟩

/-- A `TRY` block in the body of another one. -/
def nestedTrySource : String :=
  "FUNC Main\nTRY\nTRY\nCATCH\nENDTRY\nCATCH\nRET 1\nENDTRY\nRET 0\nENDF"

private def nestedTryTokens : List Token :=
  [⟨.ident "FUNC", 1⟩, ⟨.ident "Main", 1⟩, ⟨.ident "TRY", 2⟩, ⟨.ident "TRY", 3⟩,
    ⟨.ident "CATCH", 4⟩, ⟨.ident "ENDTRY", 5⟩, ⟨.ident "CATCH", 6⟩, ⟨.ident "RET", 7⟩,
    ⟨.integer 1, 7⟩, ⟨.ident "ENDTRY", 8⟩, ⟨.ident "RET", 9⟩, ⟨.integer 0, 9⟩,
    ⟨.ident "ENDF", 10⟩, ⟨.eof, 10⟩]

/-- The function `Main` of `nestedTrySource`. -/
def nestedTryMain : Function :=
  ⟨"Main", [], [.tryBlock "__catch_2" "__endtry_2" [.tryBlock "__catch_3" "__endtry_3" [] [] 3]
    [.instr ⟨"RET", [.integer 1], 7⟩] 2, .instr ⟨"RET", [.integer 0], 9⟩], 1⟩

/-- The program of `nestedTrySource`. -/
def nestedTryProgram : Program :=
  ⟨1, [], [⟨"Main", [], [⟨.try_, [.labelTarget 4, .labelTarget 6]⟩,
    ⟨.try_, [.labelTarget 2, .labelTarget 3]⟩, ⟨.catch_, [.labelTarget 3]⟩, ⟨.endTry, []⟩,
    ⟨.catch_, [.labelTarget 6]⟩, ⟨.ret, [.imm (.int .int32 1)]⟩, ⟨.endTry, []⟩,
    ⟨.ret, [.imm (.int .int32 0)]⟩]⟩]⟩

private theorem nestedTry_tokens : tokenize .ascii nestedTrySource = .ok nestedTryTokens := (rfl)

theorem nestedTry_frontend :
    frontend .ascii nestedTrySource = .ok ⟨[], [], [], [nestedTryMain]⟩ :=
  frontend_eq nestedTry_tokens rfl rfl

/-- A frame of `Main`. -/
def nestedTryFrame (ip : Nat) (tryGuard : Option TryGuard) : CallFrame :=
  { CallFrame.new 0 (.struct []) with ip, tryGuard }

/-- The run of `nestedTryProgram` up to its first `RET`. -/
def nestedTryRun : Nat → Executor Unit
  | 0 => ⟨.new, [nestedTryFrame 0 none], ()⟩
  | 1 => ⟨.new, [nestedTryFrame 1 (some ⟨4, 6, [], []⟩)], ()⟩
  | 2 => ⟨.new, [nestedTryFrame 2 (some ⟨2, 3, [], []⟩)], ()⟩
  | 3 => ⟨.new, [nestedTryFrame 3 none], ()⟩
  | 4 => ⟨.new, [nestedTryFrame 4 none], ()⟩
  | _ + 5 => ⟨.new, [nestedTryFrame 5 none], ()⟩

/-- The body of the outer `CATCH` runs, and returns `1`, without any fault: the inner block has
taken the guard of the outer one. -/
theorem nestedTry_runs_catch :
    compileSource .ascii nestedTrySource = .ok nestedTryProgram ∧
      (∃ b ∈ nestedTryMain.tryBlocks, b.tryIp = 0 ∧ b.catchIp = 4) ∧
      IsRunOf Host.bare nestedTryProgram "Main" (.struct []) (.new ())
        (fun e => ∀ f, ¬ InstrFaults Host.bare nestedTryProgram e f) nestedTryRun 5 ∧
      (nestedTryRun 4).callStack = [nestedTryFrame 4 none] ∧
      (nestedTryRun 5).callStack = [nestedTryFrame 5 none] ∧
      Ends Host.bare nestedTryProgram (nestedTryRun 5) (.result (.ok (.int .int32 1)))
        ⟨.new, [], ()⟩ := by
  refine ⟨?_, ⟨_, .head _, rfl, rfl⟩, ⟨rfl, ?_⟩, rfl, rfl, rfl⟩
  · exact (compileSource_eq nestedTry_frontend).trans rfl
  · intro i hi
    obtain rfl | rfl | rfl | rfl | rfl : i = 0 ∨ i = 1 ∨ i = 2 ∨ i = 3 ∨ i = 4 := by omega
    all_goals
      refine ⟨rfl, ?_⟩
      rintro f ⟨cf, below, func, instr, e', hstack, hfetch, hexec⟩
      cases hstack
      cases hfetch.func_eq
      cases hfetch.instr_eq
      cases hexec

end Example

end Fasm
