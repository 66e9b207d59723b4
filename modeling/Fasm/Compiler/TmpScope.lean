import Fasm.Compiler.GuardScope
import Fasm.Compiler.TmpBlocks

/-!
# `TMP` registers and the blocks of the text

The validator forbids jumps that start in a `TMP_BLOCK`, and nothing more.  The blocks
of a frame at run time are those that are open in the text around its `ip` in all runs
in which no jump, no fault that is caught and no tail call goes to a position with other
open blocks.  Then the registers are those of the innermost block, which the same
activation of the function has opened.
-/

namespace Fasm

open Pushdown (Machine Config frameAt)

variable {ω : Type} {host : Host ω} {p : Program}

/-! ## Steps that leave the text's order -/

/-- The next instruction jumps to a position with other open blocks. -/
def View.JumpsAcrossTmp (host : Host ω) (p : Program) (v : View ω) : Prop :=
  ∃ func instr target w, Fetch p v.frame func instr ∧
    v.advance.exec host p instr = .ok (.jump target) w ∧
    func.tmpBlocks target ≠ func.tmpBlocks v.frame.ip

/-- The next instruction faults under a guard whose `CATCH` has other open blocks. -/
def View.FaultsAcrossTmp (host : Host ω) (p : Program) (v : View ω) : Prop :=
  ∃ func instr f w g, Fetch p v.frame func instr ∧
    v.advance.exec host p instr = .error (.fault f) w ∧ v.frame.tryGuard = some g ∧
    func.tmpBlocks g.catchIp ≠ func.tmpBlocks v.frame.ip

/-- The next instruction is a tail call in a block, which the JIT does not answer. -/
def View.TailCallsInTmp (host : Host ω) (p : Program) (v : View ω) : Prop :=
  ∃ func instr i args w world, Fetch p v.frame func instr ∧
    v.advance.exec host p instr = .ok (.tailCall i args) w ∧
    jitDispatch host i args w.world = (none, world) ∧ func.tmpBlocks v.frame.ip ≠ []

/-- The next turn does none of the three. -/
structure KeepsTmp (host : Host ω) (p : Program) (e : Executor ω) : Prop where
  jump : ¬ e.Top (View.JumpsAcrossTmp host p)
  fault : ¬ e.Top (View.FaultsAcrossTmp host p)
  tailCall : ¬ e.Top (View.TailCallsInTmp host p)

/-! ## `TMP` frames of instructions -/

section Exec

variable {v : View ω} {instr : Instruction} {r : EStateM.Result Stop (View ω) Action}

/-- Only `TMP_BLOCK` and `END_TMP` change the number of `TMP` frames. -/
theorem exec_tmpFrames (h : v.advance.exec host p instr = r)
    (hop : instr.opcode.setsTmp = false) :
    (stateOf r).frame.tmpFrames.length = v.frame.tmpFrames.length := by
  by_cases hset : instr.opcode.setsGuard = false
  · have hkeeps := executeInstruction_keeps unwritten_steady host p hset hop fun _ _ _ => rfl
    have hlen := (View.exec_of_focused hkeeps v.advance).1
    rw [h] at hlen
    exact congrArg Prod.snd hlen
  obtain ⟨op, ops⟩ := instr
  subst h
  cases op with
  | try_ =>
    rw [View.exec_try]
    split <;> rfl
  | catch_ => rfl
  | endTry => rfl
  | _ => exact absurd rfl hset

end Exec

/-! ## Balanced frames -/

/-- The frame is at a function of the program, and has as many `TMP` frames as there are blocks
open around its `ip`. -/
def CallFrame.Balanced (p : Program) (cf : CallFrame) : Prop :=
  ∃ func, p.functions[cf.funcIdx]? = some func ∧
    cf.tmpFrames.length = (func.tmpBlocks cf.ip).length

theorem CallFrame.Balanced.length_eq {cf : CallFrame} {func : FunctionDef} (h : cf.Balanced p)
    (hfunc : p.functions[cf.funcIdx]? = some func) :
    cf.tmpFrames.length = (func.tmpBlocks cf.ip).length := by
  obtain ⟨func', hfunc', hlen⟩ := h
  cases hfunc.symm.trans hfunc'
  exact hlen

/-- At the start of a function no block is open. -/
theorem CallFrame.Balanced.start {cf : CallFrame} (hlt : cf.funcIdx < p.functions.length)
    (hip : cf.ip = 0) (hfs : cf.tmpFrames.length = 0) : cf.Balanced p := by
  refine ⟨_, List.getElem?_eq_getElem hlt, ?_⟩
  rw [hip, hfs]
  rfl

section Step

variable {v w : View ω} {func : FunctionDef} {instr : Instruction}
  {r : EStateM.Result Stop (View ω) Action}

/-- The function of the frame after an instruction is the one that was fetched from. -/
theorem Fetch.func_after (hfetch : Fetch p v.frame func instr)
    (hexec : v.advance.exec host p instr = r) :
    p.functions[(stateOf r).frame.funcIdx]? = some func := by
  rw [exec_funcIdx hexec]
  exact hfetch.func_eq

/-- Instructions that neither open nor close a block, and go on to the next one. -/
theorem balanced_next (hbal : v.frame.Balanced p) (hfetch : Fetch p v.frame func instr)
    (hexec : v.advance.exec host p instr = r) (hop : instr.opcode.setsTmp = false) :
    (stateOf r).frame.Balanced p := by
  refine ⟨func, hfetch.func_after hexec, ?_⟩
  rw [exec_tmpFrames hexec hop, exec_ip hexec, func.tmpBlocks_succ hfetch.instr_eq,
    Opcode.openTmp_of_not hop]
  exact hbal.length_eq hfetch.func_eq

/-- Instructions that neither open nor close a block, and go on where the same blocks are open. -/
theorem balanced_goto (hbal : v.frame.Balanced p) (hfetch : Fetch p v.frame func instr)
    (hexec : v.advance.exec host p instr = r) (hop : instr.opcode.setsTmp = false) {cf : CallFrame}
    (hidx : cf.funcIdx = (stateOf r).frame.funcIdx)
    (hfs : cf.tmpFrames = (stateOf r).frame.tmpFrames)
    (hsame : func.tmpBlocks cf.ip = func.tmpBlocks v.frame.ip) : cf.Balanced p := by
  refine ⟨func, hidx ▸ hfetch.func_after hexec, ?_⟩
  rw [hfs, exec_tmpFrames hexec hop, hsame]
  exact hbal.length_eq hfetch.func_eq

/-- An action other than to continue is not one of `TMP_BLOCK` or `END_TMP`. -/
theorem setsTmp_of_action {a : Action} (h : v.exec host p instr = .ok a w)
    (ha : a ≠ .continue_) : instr.opcode.setsTmp = false := by
  obtain ⟨op, ops⟩ := instr
  cases op with
  | tmpBlock => cases h; exact absurd rfl ha
  | endTmp =>
    have hy := View.exec_yields host p _ v h
    cases a with
    | continue_ => exact absurd rfl ha
    | _ => simp [Instruction.Yields] at hy
  | _ => rfl

variable (hcount : p.TmpClosed)
include hcount

/-- In a balanced frame no `END_TMP` faults. -/
theorem tmpFrames_ne_nil (hbal : v.frame.Balanced p) {ops : List Operand}
    (hfetch : Fetch p v.frame func ⟨.endTmp, ops⟩) : v.advance.frame.tmpFrames ≠ [] := by
  show v.frame.tmpFrames ≠ []
  have hne := func.tmpBlocks_ne_nil (hcount _ _ hfetch.func_eq) hfetch.instr_eq
  have hlen := hbal.length_eq hfetch.func_eq
  intro hnil
  rw [hnil] at hlen
  exact hne (List.length_eq_zero_iff.mp hlen.symm)

/-- A turn that keeps to the text leaves a balanced frame balanced. -/
theorem balanced_stay {f' : CallFrame} {s' : GlobalRegister × ω}
    (hmove : v.move host p = .stay f' s') (hbal : v.frame.Balanced p)
    (hjump : ¬ View.JumpsAcrossTmp host p v) (hfault : ¬ View.FaultsAcrossTmp host p v)
    (htail : ¬ View.TailCallsInTmp host p v) : f'.Balanced p := by
  cases moves_of_eq hmove with
  | @goOn func instr w hfetch hexec =>
    by_cases hop : instr.opcode.setsTmp = false
    · exact balanced_next hbal hfetch hexec hop
    have hlen := hbal.length_eq hfetch.func_eq
    refine ⟨func, hfetch.func_after hexec, ?_⟩
    rw [show w.frame.ip = _ from exec_ip hexec, func.tmpBlocks_succ hfetch.instr_eq]
    obtain ⟨op, ops⟩ := instr
    cases op with
    | tmpBlock =>
      cases hexec
      exact congrArg (· + 1) hlen
    | endTmp =>
      rw [View.exec_endTmp (tmpFrames_ne_nil hcount hbal hfetch)] at hexec
      cases hexec
      simp only [View.advance, List.length_tail, Opcode.openTmp, hlen]
    | _ => exact absurd rfl hop
  | @jump func instr w target hfetch hexec =>
    refine balanced_goto hbal hfetch hexec (setsTmp_of_action hexec (by rintro ⟨⟩)) rfl rfl ?_
    exact Classical.byContradiction fun hne => hjump ⟨func, instr, target, w, hfetch, hexec, hne⟩
  | @callJit func instr w i args ret world hfetch hexec hjit =>
    exact balanced_next (r := .ok (.callFunc i args) w) hbal hfetch hexec
      (setsTmp_of_action hexec (by rintro ⟨⟩))
  | @tail func instr w i args world hfetch hexec hjit =>
    have hnil : func.tmpBlocks v.frame.ip = [] := Classical.byContradiction fun hne =>
      htail ⟨func, instr, i, args, w, world, hfetch, hexec, hjit, hne⟩
    have hlen := hbal.length_eq hfetch.func_eq
    have hlt := exec_tail_lt hexec
    obtain rfl := exec_tail_eq hexec
    rw [hnil] at hlen
    exact .start hlt rfl hlen
  | @caught func instr w f g hfetch hexec hguard =>
    have hg : v.frame.tryGuard = some g := (exec_stop_guard hexec).symm.trans hguard
    have hop : instr.opcode.setsTmp = false := by
      obtain ⟨op, ops⟩ := instr
      cases op with
      | tmpBlock => cases hexec
      | endTmp =>
        rw [View.exec_endTmp (tmpFrames_ne_nil hcount hbal hfetch)] at hexec
        cases hexec
      | _ => rfl
    refine balanced_goto hbal hfetch hexec hop rfl rfl ?_
    exact Classical.byContradiction fun hne => hfault ⟨func, instr, f, w, g, hfetch, hexec, hg, hne⟩

/-- One step. -/
theorem balanced_step {e e' : Executor ω} (hstep : Step host p e e') (hkeeps : KeepsTmp host p e)
    (hbal : ∀ cf ∈ e.callStack, cf.Balanced p) : ∀ cf ∈ e'.callStack, cf.Balanced p := by
  obtain ⟨globals, stack, world⟩ := e
  obtain ⟨globals', stack', world'⟩ := e'
  cases step_iff.mp hstep with
  | @stay cf _ _ _ below hmove =>
    obtain ⟨hcf, hbelow⟩ := List.forall_mem_cons.mp hbal
    refine List.forall_mem_cons.mpr ⟨?_, hbelow⟩
    exact balanced_stay hcount (v := ⟨cf, globals, world⟩) hmove hcf
      (fun h => hkeeps.jump ⟨cf, below, rfl, h⟩) (fun h => hkeeps.fault ⟨cf, below, rfl, h⟩)
      fun h => hkeeps.tailCall ⟨cf, below, rfl, h⟩
  | @enter cf _ _ _ _ below hmove _ =>
    obtain ⟨hcf, hbelow⟩ := List.forall_mem_cons.mp hbal
    cases moves_of_eq (v := ⟨cf, globals, world⟩) hmove with
    | @call func instr w i args _ hfetch hexec _ =>
      have hcaller : w.frame.Balanced p :=
        balanced_next (r := .ok (.callFunc i args) w) hcf hfetch hexec
          (setsTmp_of_action hexec (by rintro ⟨⟩))
      exact List.forall_mem_cons.mpr
        ⟨.start (exec_call_lt hexec) rfl rfl, List.forall_mem_cons.mpr ⟨hcaller, hbelow⟩⟩
  | leave hmove =>
    obtain ⟨hcaller, hrest⟩ := List.forall_mem_cons.mp (List.forall_mem_cons.mp hbal).2
    -- the value that the caller receives changes neither
    exact List.forall_mem_cons.mpr ⟨hcaller, hrest⟩

end Step

/-! ## Open blocks -/

/-- The frame is at the `TMP_BLOCK` at `q` of its function, where the blocks `opened` are open. -/
structure CallFrame.OpensTmp (func : FunctionDef) (funcIdx q : Nat) (opened : List Nat)
    (cf : CallFrame) : Prop where
  funcIdx_eq : cf.funcIdx = funcIdx
  ip_eq : cf.ip = q
  opened_eq : func.tmpBlocks q = opened
  opcode_eq : ∃ ops, func.instructions[q]? = some ⟨.tmpBlock, ops⟩

/-- The frame is in the block at `q` of its function, which is in the blocks `opened`. -/
def CallFrame.InTmp (func : FunctionDef) (funcIdx q : Nat) (opened : List Nat)
    (cf : CallFrame) : Prop :=
  cf.funcIdx = funcIdx ∧ (q :: opened) <:+ func.tmpBlocks cf.ip

/-- The next turn goes to a position with other open blocks. -/
def View.LeavesText (host : Host ω) (p : Program) (v : View ω) : Prop :=
  View.JumpsAcrossTmp host p v ∨ View.FaultsAcrossTmp host p v ∨ View.TailCallsInTmp host p v

section Origin

variable {funcIdx q : Nat} {opened : List Nat} {func func' : FunctionDef} {v : View ω}
  {instr : Instruction} {r : EStateM.Result Stop (View ω) Action}
  (hfunc : p.functions[funcIdx]? = some func)
include hfunc

/-- A frame that is in a block after an instruction was in it before, or the instruction opens
it. -/
theorem inTmp_origin (hfetch : Fetch p v.frame func' instr)
    (hexec : v.advance.exec host p instr = r) (hin : (stateOf r).frame.InTmp func funcIdx q opened) :
    v.frame.OpensTmp func funcIdx q opened ∨ v.frame.InTmp func funcIdx q opened := by
  obtain ⟨hidx, hin⟩ := hin
  rw [exec_funcIdx hexec] at hidx
  rw [exec_ip hexec] at hin
  have hat := hfetch.func_eq
  rw [hidx] at hat
  cases hfunc.symm.trans hat
  rcases func.tmpBlocks_succ_cases hfetch.instr_eq hin with ⟨hop, rfl, ho⟩ | hin
  · refine .inl ⟨hidx, rfl, ho, instr.operands, ?_⟩
    rw [hfetch.instr_eq, ← hop]
  · exact .inr ⟨hidx, hin⟩

/-- The same where the turn goes to a position with the same open blocks. -/
theorem inTmp_goto (hfetch : Fetch p v.frame func' instr) (hexec : v.advance.exec host p instr = r)
    (cf : CallFrame) (hidx : cf.funcIdx = (stateOf r).frame.funcIdx)
    (hsame : func'.tmpBlocks cf.ip = func'.tmpBlocks v.frame.ip)
    (hin : cf.InTmp func funcIdx q opened) : v.frame.InTmp func funcIdx q opened := by
  obtain ⟨hidx', hin⟩ := hin
  rw [hidx, exec_funcIdx hexec] at hidx'
  have hat := hfetch.func_eq
  rw [hidx'] at hat
  cases hfunc.symm.trans hat
  exact ⟨hidx', hsame ▸ hin⟩

/-- A frame comes to be in a block by its `TMP_BLOCK`, or by leaving the order of the text. -/
theorem origin_inTmp (host : Host ω) :
    (machine host p).Origin
      (fun cf s => cf.OpensTmp func funcIdx q opened ∨ View.LeavesText host p ⟨cf, s.1, s.2⟩)
      (fun cf => cf.InTmp func funcIdx q opened) where
  stay := by
    intro f s f' s' h hin
    let v : View ω := ⟨f, s.1, s.2⟩
    cases moves_of_eq (v := v) h with
    | goOn hfetch hexec => exact (inTmp_origin hfunc hfetch hexec hin).imp_left .inl
    | @jump func' instr w target hfetch hexec =>
      by_cases hsame : func'.tmpBlocks target = func'.tmpBlocks v.frame.ip
      · exact .inr (inTmp_goto (r := .ok (.jump target) w) hfunc hfetch hexec
          { w.frame with ip := target } rfl hsame hin)
      · exact .inl (.inr (.inl ⟨func', instr, target, w, hfetch, hexec, hsame⟩))
    | callJit hfetch hexec _ => exact (inTmp_origin hfunc hfetch hexec hin).imp_left .inl
    | tail => exact absurd (List.suffix_nil.mp hin.2) (List.cons_ne_nil _ _)
    | @caught func' instr w fault g hfetch hexec hguard =>
      have hg : v.frame.tryGuard = some g := (exec_stop_guard hexec).symm.trans hguard
      by_cases hsame : func'.tmpBlocks g.catchIp = func'.tmpBlocks v.frame.ip
      · exact .inr (inTmp_goto (r := .error (.fault fault) w) hfunc hfetch hexec
          (w.frame.rollback g fault) rfl hsame hin)
      · exact .inl (.inr (.inr (.inl ⟨func', instr, fault, w, g, hfetch, hexec, hg, hsame⟩)))
  enter := by
    intro f s f' callee s' h
    let v : View ω := ⟨f, s.1, s.2⟩
    cases moves_of_eq (v := v) h with
    | @call func' instr w i args world hfetch hexec _ =>
      refine ⟨fun hin => ?_, fun hin => absurd (List.suffix_nil.mp hin.2) (List.cons_ne_nil _ _)⟩
      rcases inTmp_origin (r := .ok (.callFunc i args) w) hfunc hfetch hexec hin with hopens | hin
      · -- a call opens no block
        have hat := hfetch.func_eq
        rw [hopens.funcIdx_eq] at hat
        cases hfunc.symm.trans hat
        obtain ⟨ops, hinstr⟩ := hopens.opcode_eq
        rw [← hopens.ip_eq] at hinstr
        cases hfetch.instr_eq.symm.trans hinstr
        cases setsTmp_of_action hexec nofun
      · exact hin
  resume := id
  stop := by
    intro f s t f' s' h hin
    cases moves_of_eq (v := ⟨f, s.1, s.2⟩) h with
    | badIndex => exact .inr hin
    | halt hfetch hexec => exact (inTmp_origin hfunc hfetch hexec hin).imp_left .inl
    | unhandled hfetch hexec _ => exact (inTmp_origin hfunc hfetch hexec hin).imp_left .inl
    | panic hfetch hexec => exact (inTmp_origin hfunc hfetch hexec hin).imp_left .inl
    | exit hfetch hexec => exact (inTmp_origin hfunc hfetch hexec hin).imp_left .inl

end Origin

/-! ## Runs -/

section Run

variable {func : String} {args : Value} {e₀ : Executor ω} {σ : Nat → Executor ω} {n : Nat}

/-- In such runs all frames are balanced. -/
theorem balanced_run (hcount : p.TmpClosed) (hempty : e₀.callStack = [])
    (hrun : IsRunOf host p func args e₀ (KeepsTmp host p) σ n) :
    ∀ cf ∈ (σ n).callStack, cf.Balanced p := by
  refine hrun.invariant (P := fun e => ∀ cf ∈ e.callStack, cf.Balanced p) ?_ ?_
  · intro e hstart
    obtain ⟨i, hi, hstack, -⟩ := start_eq hstart
    rw [hstack, hempty]
    exact List.forall_mem_cons.mpr ⟨.start hi rfl rfl, nofun⟩
  · rintro e e' ⟨hstep, hkeeps⟩ hbal
    exact balanced_step hcount hstep hkeeps hbal

/-- The frame at a height of the stack is on the stack. -/
theorem mem_of_frameAt {s : List CallFrame} {d : Nat} {cf : CallFrame}
    (h : frameAt s d = some cf) : cf ∈ s :=
  List.mem_reverse.mp (List.mem_of_getElem? h)

/-- In such runs a frame that is in a block has been in it since its `TMP_BLOCK`. -/
theorem inTmp_since (hempty : e₀.callStack = [])
    (hrun : IsRunOf host p func args e₀ (KeepsTmp host p) σ n) {d : Nat} {cf : CallFrame}
    (hat : frameAt (σ n).callStack d = some cf) {fd : FunctionDef}
    (hfd : p.functions[cf.funcIdx]? = some fd) {q : Nat} {opened : List Nat}
    (hin : (q :: opened) <:+ fd.tmpBlocks cf.ip) :
    Since (fun e => e.config.TopAt d fun cf' _ => cf'.OpensTmp fd cf.funcIdx q opened)
      (fun e => e.config.At d fun cf' => cf'.InTmp fd cf.funcIdx q opened) σ n := by
  have hsince := hrun.since
    (A := fun e => e.config.TopAt d fun cf' _ => cf'.OpensTmp fd cf.funcIdx q opened)
    (P := fun e => e.config.At d fun cf' => cf'.InTmp fd cf.funcIdx q opened)
    ?_ ?_ ⟨cf, hat, rfl, hin⟩
  · exact hsince.mono (fun _ h => h) fun _ h => h.1
  · rintro e hstart ⟨cf', hat', -, hin'⟩
    obtain ⟨i, -, hstack, -⟩ := start_eq hstart
    rw [hempty] at hstack
    rw [Executor.config, hstack, Pushdown.frameAt_cons] at hat'
    split at hat'
    case isTrue =>
      cases hat'
      exact absurd (List.suffix_nil.mp hin') (List.cons_ne_nil _ _)
    case isFalse => cases hat'
  · rintro e e' ⟨hstep, hkeeps⟩ hP
    rcases (origin_inTmp hfd host).step (step_iff.mp hstep) hP with htop | hin'
    · obtain ⟨f, below, hstack, hd, hopens | hjump | hfault | htail⟩ := htop
      · exact .inl ⟨f, below, hstack, hd, hopens⟩
      · exact absurd ⟨f, below, hstack, hjump⟩ hkeeps.jump
      · exact absurd ⟨f, below, hstack, hfault⟩ hkeeps.fault
      · exact absurd ⟨f, below, hstack, htail⟩ hkeeps.tailCall
    · exact .inr hin'

/-- **`TMP` registers follow the text.**  In every state of a run whose steps keep to the text,
a frame has as many `TMP` frames as there are blocks open around its `ip`; so no `END_TMP`
faults, and in a block the registers `t0` … `t15` are there.  The `TMP` frame of every open block
is the one that the `TMP_BLOCK` of that block has pushed in the same activation of the function,
and has been there since. -/
theorem tmp_registers_scoped {u : Unicode} {src : String} (hp : compileSource u src = .ok p)
    (hempty : e₀.callStack = []) (hrun : IsRunOf host p func args e₀ (KeepsTmp host p) σ n)
    {d : Nat} {cf : CallFrame} (hat : frameAt (σ n).callStack d = some cf) :
    ∃ fd, p.functions[cf.funcIdx]? = some fd ∧
      cf.tmpFrames.length = (fd.tmpBlocks cf.ip).length ∧
      (∀ below ops, (σ n).callStack = cf :: below → fd.instructions[cf.ip]? = some ⟨.endTmp, ops⟩ →
        ∀ f, ¬ InstrFaults host p (σ n) f) ∧
      (fd.tmpBlocks cf.ip ≠ [] → ∀ idx : U8, idx.toNat < 16 → ∃ x, cf.tmpSlot idx = .ok x) ∧
      ∀ q opened, (q :: opened) <:+ fd.tmpBlocks cf.ip →
        Since
          (fun e => e.config.TopAt d fun cf' _ =>
            cf'.OpensTmp fd cf.funcIdx q opened ∧ cf'.tmpFrames.length = opened.length)
          (fun e => e.config.At d fun cf' =>
            cf'.funcIdx = cf.funcIdx ∧ opened.length < cf'.tmpFrames.length) σ n := by
  have hcount := compileSource_tmpClosed hp
  have hbal : ∀ j ≤ n, ∀ cf' ∈ (σ j).callStack, cf'.Balanced p := fun j hj =>
    balanced_run hcount hempty (hrun.le hj)
  have hcf := hbal n (Nat.le_refl n) cf (mem_of_frameAt hat)
  obtain ⟨fd, hfd, hlen⟩ := hcf
  refine ⟨fd, hfd, hlen, ?_, ?_, ?_⟩
  · rintro below ops hstack hend f ⟨cf', below', func', instr, e', hstack', hfetch, hexec⟩
    cases hstack.symm.trans hstack'
    cases hfd.symm.trans hfetch.func_eq
    cases hend.symm.trans hfetch.instr_eq
    let v : View ω := ⟨cf, (σ n).globals, (σ n).world⟩
    have hne := tmpFrames_ne_nil (v := v) hcount ⟨fd, hfd, hlen⟩ hfetch
    have hplug := View.exec_plug host p ⟨.endTmp, ops⟩ v.advance below
    rw [View.exec_endTmp hne] at hplug
    cases hexec.symm.trans hplug
  · intro hne idx hidx
    have hpos : 0 < cf.tmpFrames.length := hlen ▸ List.length_pos_iff.mpr hne
    obtain ⟨tmp, fs, hfs⟩ := List.exists_cons_of_ne_nil (List.ne_nil_of_length_pos hpos)
    simp only [CallFrame.tmpSlot, hfs, dif_pos hidx]
    exact ⟨_, rfl⟩
  · intro q opened hin
    obtain ⟨i, hi, ⟨cf₀, below, hstack, hd, hopens⟩, hsince⟩ := inTmp_since hempty hrun hat hfd hin
    refine ⟨i, hi, ⟨cf₀, below, hstack, hd, hopens, ?_⟩, fun j hij hj => ?_⟩
    · have hmem : cf₀ ∈ (σ i).config.stack := by
        rw [hstack]
        exact List.mem_cons_self
      have hcf₀ := hbal i (Nat.le_of_lt hi) cf₀ hmem
      have hfd₀ := hfd
      rw [← hopens.funcIdx_eq] at hfd₀
      rw [hcf₀.length_eq hfd₀, hopens.ip_eq, hopens.opened_eq]
    · obtain ⟨cf₁, hat₁, hidx, hin₁⟩ := hsince j hij hj
      have hcf₁ := hbal j (Nat.le_of_lt hj) cf₁ (mem_of_frameAt hat₁)
      have hfd₁ := hfd
      rw [← hidx] at hfd₁
      refine ⟨cf₁, hat₁, hidx, ?_⟩
      rw [hcf₁.length_eq hfd₁]
      exact hin₁.length_le

end Run

section Example

/-- `Main` moves a number to a `TMP` register. -/
def tmpBlockSource : String := "FUNC Main\nTMP_BLOCK\nMOV 5, t0\nEND_TMP\nENDF"

private def tmpBlockTokens : List Token :=
  [⟨.ident "FUNC", 1⟩, ⟨.ident "Main", 1⟩, ⟨.ident "TMP_BLOCK", 2⟩, ⟨.ident "MOV", 3⟩,
    ⟨.integer 5, 3⟩, ⟨.comma, 3⟩, ⟨.ident "t0", 3⟩, ⟨.ident "END_TMP", 4⟩, ⟨.ident "ENDF", 5⟩,
    ⟨.eof, 5⟩]

/-- The code of `tmpBlockSource`. -/
def tmpBlockMain : FunctionDef :=
  ⟨"Main", [], [⟨.tmpBlock, []⟩, ⟨.mov, [.imm (.int .int32 5), .slot (.tmp 0)]⟩, ⟨.endTmp, []⟩]⟩

private theorem tmpBlock_tokens : tokenize .ascii tmpBlockSource = .ok tmpBlockTokens := (rfl)

private theorem tmpBlock_frontend :
    frontend .ascii tmpBlockSource = .ok ⟨[], [], [], [⟨"Main", [], [.instr ⟨"TMP_BLOCK", [], 2⟩,
      .instr ⟨"MOV", [.integer 5, .ident "t0"], 3⟩, .instr ⟨"END_TMP", [], 4⟩], 1⟩]⟩ :=
  frontend_eq tmpBlock_tokens rfl rfl

theorem tmpBlock_compiles :
    compileSource .ascii tmpBlockSource = .ok ⟨1, [], [tmpBlockMain]⟩ :=
  (compileSource_eq tmpBlock_frontend).trans rfl

/-- The run of `tmpBlockSource` up to its `MOV`. -/
def tmpBlockRun : Nat → Executor Unit
  | 0 => ⟨.new, [.new 0 (.struct [])], ()⟩
  | _ + 1 => ⟨.new, [{ CallFrame.new 0 (.struct []) with ip := 1, tmpFrames := [.new] }], ()⟩

theorem tmpBlockRun_isRun :
    IsRunOf Host.bare ⟨1, [], [tmpBlockMain]⟩ "Main" (.struct []) (.new ())
      (KeepsTmp Host.bare ⟨1, [], [tmpBlockMain]⟩) tmpBlockRun 1 where
  init := rfl
  step := by
    intro i hi
    obtain rfl : i = 0 := by omega
    refine ⟨rfl, ?_, ?_, ?_⟩
    · rintro ⟨cf, below, hstack, func, instr, target, w, hfetch, hexec, -⟩
      cases hstack
      cases hfetch.func_eq
      cases hfetch.instr_eq
      cases hexec
    · rintro ⟨cf, below, hstack, func, instr, f, w, g, hfetch, hexec, -⟩
      cases hstack
      cases hfetch.func_eq
      cases hfetch.instr_eq
      cases hexec
    · rintro ⟨cf, below, hstack, func, instr, j, args, w, world, hfetch, hexec, -⟩
      cases hstack
      cases hfetch.func_eq
      cases hfetch.instr_eq
      cases hexec

theorem tmp_registers_scoped_tmpBlock :
    ∃ fd, [tmpBlockMain][0]? = some fd ∧ 1 = (fd.tmpBlocks 1).length := by
  obtain ⟨fd, hfd, hlen, -⟩ := tmp_registers_scoped tmpBlock_compiles rfl tmpBlockRun_isRun
    (rfl : frameAt (tmpBlockRun 1).callStack 0 = some _)
  exact ⟨fd, hfd, hlen⟩

/-- `Main` jumps into a `TMP_BLOCK`. -/
def jumpIntoTmpSource : String := "FUNC Main\nJMP L\nTMP_BLOCK\nLABEL L\nEND_TMP\nENDF"

private def jumpIntoTmpTokens : List Token :=
  [⟨.ident "FUNC", 1⟩, ⟨.ident "Main", 1⟩, ⟨.ident "JMP", 2⟩, ⟨.ident "L", 2⟩,
    ⟨.ident "TMP_BLOCK", 3⟩, ⟨.ident "LABEL", 4⟩, ⟨.ident "L", 4⟩, ⟨.ident "END_TMP", 5⟩,
    ⟨.ident "ENDF", 6⟩, ⟨.eof, 6⟩]

/-- The code of `jumpIntoTmpSource`. -/
def jumpIntoTmpMain : FunctionDef :=
  ⟨"Main", [], [⟨.jmp, [.labelTarget 2]⟩, ⟨.tmpBlock, []⟩, ⟨.endTmp, []⟩]⟩

private theorem jumpIntoTmp_tokens :
    tokenize .ascii jumpIntoTmpSource = .ok jumpIntoTmpTokens := (rfl)

private theorem jumpIntoTmp_frontend :
    frontend .ascii jumpIntoTmpSource = .ok ⟨[], [], [], [⟨"Main", [],
      [.instr ⟨"JMP", [.ident "L"], 2⟩, .instr ⟨"TMP_BLOCK", [], 3⟩, .label "L" 4,
        .instr ⟨"END_TMP", [], 5⟩], 1⟩]⟩ :=
  frontend_eq jumpIntoTmp_tokens rfl rfl

/-- The source is accepted, and its run reaches the `END_TMP`, around which one block is open,
without a `TMP` frame: the `END_TMP` faults. -/
theorem jumpIntoTmp_faults :
    compileSource .ascii jumpIntoTmpSource = .ok ⟨1, [], [jumpIntoTmpMain]⟩ ∧
      jumpIntoTmpMain.tmpBlocks 2 = [1] ∧
      RunReaches Host.bare ⟨1, [], [jumpIntoTmpMain]⟩ "Main" (.struct []) (.new ())
        ⟨.new, [{ CallFrame.new 0 (.struct []) with ip := 2 }], ()⟩ ∧
      Ends Host.bare ⟨1, [], [jumpIntoTmpMain]⟩
        ⟨.new, [{ CallFrame.new 0 (.struct []) with ip := 2 }], ()⟩
        (.result (.error (unhandled jumpIntoTmpMain 2 .indexOutOfBounds)))
        ⟨.new, [{ CallFrame.new 0 (.struct []) with ip := 3 }], ()⟩ := by
  refine ⟨?_, rfl, ⟨_, rfl, .tail .refl rfl⟩, rfl⟩
  exact (compileSource_eq jumpIntoTmp_frontend).trans rfl

end Example

end Fasm
