import Fasm.Lib.Ranking
import Fasm.Vm.Guard
import Fasm.Vm.WellFormed
import Mathlib.Algebra.Order.Ring.Nat

/-!
# Programs that only go forward

A program in which every label lies behind the instruction that names it, and every call goes
to a function of lower rank, has no loop but one: a fault goes back to a `CATCH` that the run
may long have passed.  It does so once for every `TRY`, and a `TRY` is further ahead each time.
So every run ends, whatever faults are raised and on every host whose handlers return, within a
number of turns that is known beforehand, and in a stack no deeper than the rank of its first
function.
-/

namespace Fasm

open Pushdown (Machine Config)

variable {ω : Type} {host : Host ω} {p : Program} {rank : Nat → Nat}

/-! ## The condition -/

/-- The operand is no label at or before `ip`, and no function that does not rank below
`funcIdx`. -/
def Operand.descends (rank : Nat → Nat) (funcIdx ip : Nat) : Operand → Bool
  | .labelTarget l => ip < l.toNat
  | .funcRef idx => rank idx.toNat < rank funcIdx
  | _ => true

/-- Labels lead forward, and calls to functions of lower rank. -/
def Program.descends (rank : Nat → Nat) (p : Program) : Bool :=
  p.functions.zipIdx.all fun (func, i) =>
    func.instructions.zipIdx.all fun (instr, ip) =>
      instr.operands.all (·.descends rank i ip)

/-- The length of the longest function. -/
def Program.longest (p : Program) : Nat :=
  (p.functions.map fun func => func.instructions.length).foldr max 0

theorem le_longest {i : Nat} {func : FunctionDef} (h : p.functions[i]? = some func) :
    func.instructions.length ≤ p.longest := by
  have hmem : func.instructions.length ∈ p.functions.map fun func => func.instructions.length :=
    List.mem_map.mpr ⟨func, List.mem_of_getElem? h, rfl⟩
  rw [Program.longest]
  generalize (p.functions.map fun func => func.instructions.length) = ls at hmem
  induction ls with
  | nil => cases hmem
  | cons l ls ih =>
    rcases List.mem_cons.mp hmem with rfl | hmem
    · exact Nat.le_max_left _ _
    · exact Nat.le_trans (ih hmem) (Nat.le_max_right _ _)

section Fetched

variable {cf : CallFrame} {func : FunctionDef} {instr : Instruction}

theorem Fetch.operand_descends (hp : p.descends rank = true) (h : Fetch p cf func instr)
    {op : Operand} (hop : op ∈ instr.operands) : op.descends rank cf.funcIdx cf.ip = true := by
  have hfunc := List.all_eq_true.mp hp _ (List.mk_mem_zipIdx_iff_getElem?.mpr h.func_eq)
  have hinstr := List.all_eq_true.mp hfunc _ (List.mk_mem_zipIdx_iff_getElem?.mpr h.instr_eq)
  exact List.all_eq_true.mp hinstr op hop

theorem Fetch.label_lt (hp : p.descends rank = true) (h : Fetch p cf func instr) {l : U32}
    (hl : .labelTarget l ∈ instr.operands) : cf.ip < l.toNat :=
  of_decide_eq_true (h.operand_descends hp hl)

theorem Fetch.rank_lt (hp : p.descends rank = true) (h : Fetch p cf func instr) {idx : U16}
    (hidx : .funcRef idx ∈ instr.operands) : rank idx.toNat < rank cf.funcIdx :=
  of_decide_eq_true (h.operand_descends hp hidx)

theorem Fetch.ip_lt (h : Fetch p cf func instr) : cf.ip < p.longest :=
  Nat.lt_of_lt_of_le (List.getElem?_eq_some_iff.mp h.instr_eq).1 (le_longest h.func_eq)

end Fetched

/-! ## Potentials -/

/-- What may still happen from the index `ip` on, in a function of length `L`. -/
def potential (L ip : Nat) : Nat := 4 ^ (L - ip)

theorem potential_pos (L ip : Nat) : 0 < potential L ip := Nat.pow_pos (by decide)

theorem potential_le (L ip : Nat) : potential L ip ≤ 4 ^ L :=
  Nat.pow_le_pow_right (by decide) (Nat.sub_le L ip)

/-- An instruction has the potential of four places behind it. -/
theorem potential_drop {L ip t : Nat} (hip : ip < L) (ht : ip < t) :
    4 * potential L t ≤ potential L ip := by
  rw [potential, potential, ← Nat.pow_succ']
  exact Nat.pow_le_pow_right (by decide) (by omega)

/-- A guard may send the frame to its `CATCH` or to its `ENDTRY`. -/
def guardPotential (L : Nat) : Option TryGuard → Nat
  | none => 0
  | some g => potential L g.catchIp + potential L g.endIp

theorem guardPotential_le (L : Nat) (g : Option TryGuard) : guardPotential L g ≤ 2 * 4 ^ L := by
  cases g with
  | none => exact Nat.zero_le _
  | some g =>
    have hcatch := potential_le L g.catchIp
    have hend := potential_le L g.endIp
    rw [guardPotential]
    omega

def CallFrame.potential (L : Nat) (cf : CallFrame) : Nat :=
  Fasm.potential L cf.ip + guardPotential L cf.tryGuard

/-! ## What an instruction does to the potential -/

theorem labelTarget_eq_ok {op : Operand} {t : Nat} (h : labelTarget op = .ok t) :
    ∃ l, op = .labelTarget l ∧ t = l.toNat := by
  cases op with
  | labelTarget l =>
    cases h
    exact ⟨l, rfl, rfl⟩
  | _ => cases h

section Exec

variable {v w : View ω} {func : FunctionDef} {instr : Instruction}
  (hp : p.descends rank = true) (hfetch : Fetch p v.frame func instr)
include hp

/-- The targets of a `TRY` lie ahead. -/
theorem TriesWith.ahead {g : TryGuard} {cf : CallFrame} {globals : GlobalRegister}
    (h : TriesWith p g cf globals) : cf.ip < g.catchIp ∧ cf.ip < g.endIp := by
  obtain ⟨func, instr, c, t, hfetch, -, htargets, rfl⟩ := h
  obtain ⟨op₀, h₀, htargets⟩ := bind_eq_ok htargets
  obtain ⟨catchIp, hcatch, htargets⟩ := bind_eq_ok htargets
  obtain ⟨op₁, h₁, htargets⟩ := bind_eq_ok htargets
  obtain ⟨endIp, hend, htargets⟩ := bind_eq_ok htargets
  cases htargets
  obtain ⟨l, rfl, rfl⟩ := labelTarget_eq_ok hcatch
  obtain ⟨l', rfl, rfl⟩ := labelTarget_eq_ok hend
  exact ⟨hfetch.label_lt hp (List.mem_of_getElem? (getOp_eq_ok h₀)),
    hfetch.label_lt hp (List.mem_of_getElem? (getOp_eq_ok h₁))⟩

include hfetch

/-- The guard after an instruction is the one before, or leads ahead. -/
theorem exec_guardPotential {r : EStateM.Result Stop (View ω) Action}
    (h : v.advance.exec host p instr = r) :
    guardPotential p.longest (stateOf r).frame.tryGuard ≤
      2 * potential p.longest (v.frame.ip + 1) + guardPotential p.longest v.frame.tryGuard := by
  cases hg : (stateOf r).frame.tryGuard with
  | none => exact Nat.zero_le _
  | some g =>
    rcases exec_guard_origin hfetch h hg with htries | hv
    · obtain ⟨hcatch, hend⟩ := htries.ahead hp
      have hcatch' : potential p.longest g.catchIp ≤ potential p.longest (v.frame.ip + 1) :=
        Nat.pow_le_pow_right (by decide) (by omega)
      have hend' : potential p.longest g.endIp ≤ potential p.longest (v.frame.ip + 1) :=
        Nat.pow_le_pow_right (by decide) (by omega)
      rw [guardPotential]
      omega
    · rw [hv]
      omega

/-- Wherever an instruction goes on, behind itself, there is less potential. -/
theorem exec_potential {r : EStateM.Result Stop (View ω) Action}
    (h : v.advance.exec host p instr = r) {t : Nat} (ht : v.frame.ip < t) {cf : CallFrame}
    (hip : cf.ip = t) (hguard : cf.tryGuard = (stateOf r).frame.tryGuard) :
    cf.potential p.longest < v.frame.potential p.longest := by
  have hpos := potential_pos p.longest (v.frame.ip + 1)
  have hdrop := potential_drop hfetch.ip_lt (Nat.lt_add_one v.frame.ip)
  have hle : potential p.longest t ≤ potential p.longest (v.frame.ip + 1) :=
    Nat.pow_le_pow_right (by decide) (by omega)
  have hg := exec_guardPotential hp hfetch h
  rw [CallFrame.potential, CallFrame.potential, hip, hguard]
  omega

theorem exec_jump_potential {t : Nat} (h : v.advance.exec host p instr = .ok (.jump t) w) :
    CallFrame.potential p.longest { w.frame with ip := t } < v.frame.potential p.longest := by
  have hmem : ∀ {n : Nat} {l : U32}, instr.operands[n]? = some (.labelTarget l) →
      v.frame.ip < l.toNat := fun hl => hfetch.label_lt hp (List.mem_of_getElem? hl)
  rcases View.exec_yields host p instr _ h with ⟨-, l, hl, rfl⟩ | ⟨-, l, hl, rfl⟩ | hcatch
  · exact exec_potential hp hfetch h (hmem hl) rfl rfl
  · exact exec_potential hp hfetch h (hmem hl) rfl rfl
  · obtain ⟨op, operands⟩ := instr
    obtain rfl : op = .catch_ := hcatch
    have hexec := View.exec_catch host p v.advance operands
    cases hexec.symm.trans h
    cases hg : v.frame.tryGuard with
    | none =>
      refine exec_potential hp hfetch hexec (Nat.lt_add_one v.frame.ip) ?_ rfl
      simp only [View.catchTarget, View.advance, hg]
    | some g =>
      have htarget : v.advance.catchTarget = g.endIp := by
        simp only [View.catchTarget, View.advance, hg]
      have hpos := potential_pos p.longest v.frame.ip
      simp only [CallFrame.potential, View.withGuard, guardPotential, htarget, hg]
      omega

omit hp hfetch in
theorem exec_fault_potential {f : Fault} {g : TryGuard}
    (h : v.advance.exec host p instr = .error (.fault f) w) (hg : w.frame.tryGuard = some g) :
    (w.frame.rollback g f).potential p.longest < v.frame.potential p.longest := by
  have hg' : v.frame.tryGuard = some g := (exec_stop_guard h).symm.trans hg
  have hpos := potential_pos p.longest v.frame.ip
  simp only [CallFrame.potential, CallFrame.rollback, guardPotential, hg']
  omega

end Exec

/-! ## The weight of a frame -/

/-- A call counts for more than all that can happen in a function. -/
def callWeight (L : Nat) : Nat := 3 * 4 ^ L + 1

/-- The weight of a frame: its potential, at the price of calls from its function. -/
def CallFrame.weight (p : Program) (rank : Nat → Nat) (cf : CallFrame) : Nat :=
  callWeight p.longest ^ rank cf.funcIdx * cf.potential p.longest

theorem callWeight_pos (L n : Nat) : 0 < callWeight L ^ n := Nat.pow_pos (Nat.succ_pos _)

theorem CallFrame.potential_pos (L : Nat) (cf : CallFrame) : 0 < cf.potential L :=
  Nat.lt_of_lt_of_le (Fasm.potential_pos L cf.ip) (Nat.le_add_right _ _)

/-- A frame at the start of a function of lower rank weighs less than one call. -/
theorem weight_lt_call {cf : CallFrame} {n : Nat} (h : rank cf.funcIdx < n) (hip : cf.ip = 0) :
    cf.weight p rank < callWeight p.longest ^ n := by
  have hguard := guardPotential_le p.longest cf.tryGuard
  have hlt : cf.potential p.longest < callWeight p.longest := by
    rw [CallFrame.potential, callWeight, hip, potential, Nat.sub_zero]
    omega
  calc cf.weight p rank
      < callWeight p.longest ^ rank cf.funcIdx * callWeight p.longest :=
        Nat.mul_lt_mul_of_pos_left hlt (callWeight_pos _ _)
    _ = callWeight p.longest ^ (rank cf.funcIdx + 1) := (Nat.pow_succ ..).symm
    _ ≤ callWeight p.longest ^ n := Nat.pow_le_pow_right (Nat.succ_pos _) h

theorem weight_lt {cf cf' : CallFrame} (hidx : cf.funcIdx = cf'.funcIdx)
    (h : cf.potential p.longest < cf'.potential p.longest) : cf.weight p rank < cf'.weight p rank := by
  rw [CallFrame.weight, CallFrame.weight, hidx]
  exact Nat.mul_lt_mul_of_pos_left h (callWeight_pos _ _)

/-- Moves make frames lighter. -/
theorem weighs (host : Host ω) (hp : p.descends rank = true) :
    (machine host p).Weighs (fun _ => True) (CallFrame.weight p rank) where
  keeps := ⟨fun _ _ => trivial, fun _ _ => ⟨trivial, trivial⟩, fun _ _ => trivial⟩
  pos := fun _ => Nat.mul_pos (callWeight_pos _ _) (CallFrame.potential_pos _ _)
  stay := by
    intro f g f' g' _ h
    cases moves_of_eq h with
    | goOn hfetch hexec =>
      refine weight_lt (exec_funcIdx hexec) ?_
      exact exec_potential hp hfetch hexec (Nat.lt_add_one _) (exec_ip hexec) rfl
    | jump hfetch hexec => exact weight_lt (exec_funcIdx hexec) (exec_jump_potential hp hfetch hexec)
    | @callJit func instr w i args ret world hfetch hexec hjit =>
      refine weight_lt (exec_funcIdx hexec) ?_
      exact exec_potential hp hfetch hexec (Nat.lt_add_one _) (exec_ip hexec) rfl
    | @tail func instr w i args world hfetch hexec hjit =>
      obtain ⟨-, -, idx, hidx, rfl⟩ := View.exec_yields host p instr _ hexec
      have hrank := hfetch.rank_lt hp (List.mem_of_getElem? hidx)
      have hlt : CallFrame.weight p rank
          { w.frame with funcIdx := idx.toNat, ip := 0, frame := .new, args, retVal := .null } <
          callWeight p.longest ^ rank f.funcIdx := weight_lt_call hrank rfl
      exact Nat.lt_of_lt_of_le hlt (Nat.le_mul_of_pos_right _ (CallFrame.potential_pos _ _))
    | caught hfetch hexec hguard =>
      exact weight_lt (exec_funcIdx hexec) (exec_fault_potential hexec hguard)
  enter := by
    intro f g f' callee g' _ h
    cases moves_of_eq h with
    | @call func instr w i args world hfetch hexec hjit =>
      obtain ⟨-, -, idx, hidx, rfl⟩ := View.exec_yields host p instr _ hexec
      have hrank := hfetch.rank_lt hp (List.mem_of_getElem? hidx)
      have hcallee : (CallFrame.new idx.toNat args).weight p rank <
          callWeight p.longest ^ rank f.funcIdx := weight_lt_call hrank rfl
      have hlt := exec_potential hp hfetch hexec (Nat.lt_add_one _) (exec_ip hexec) rfl
      have hidx' : w.frame.funcIdx = f.funcIdx := exec_funcIdx hexec
      calc w.frame.weight p rank + (CallFrame.new idx.toNat args).weight p rank
          < w.frame.weight p rank + callWeight p.longest ^ rank f.funcIdx :=
            Nat.add_lt_add_left hcallee _
        _ = callWeight p.longest ^ rank f.funcIdx * (w.frame.potential p.longest + 1) := by
            rw [CallFrame.weight, hidx', Nat.mul_succ]
        _ ≤ f.weight p rank := Nat.mul_le_mul_left _ hlt
  resume := fun _ _ => rfl

/-- The rank of a frame's function is its level. -/
theorem levels (host : Host ω) (hp : p.descends rank = true) :
    (machine host p).Levels fun cf => rank cf.funcIdx where
  stay := by
    intro f g f' g' h
    have hidx {instr r} (hx : (View.advance ⟨f, g.1, g.2⟩).exec host p instr = r) :
        rank (stateOf r).frame.funcIdx ≤ rank f.funcIdx := Nat.le_of_eq (congrArg rank (exec_funcIdx hx))
    cases moves_of_eq h with
    | goOn _ hexec => exact hidx hexec
    | jump _ hexec => exact hidx hexec
    | callJit _ hexec _ => exact hidx hexec
    | @tail func instr w i args world hfetch hexec hjit =>
      obtain ⟨-, -, idx, hidx, rfl⟩ := View.exec_yields host p instr _ hexec
      exact Nat.le_of_lt (hfetch.rank_lt hp (List.mem_of_getElem? hidx))
    | caught _ hexec _ => exact hidx hexec
  enter := by
    intro f g f' callee g' h
    cases moves_of_eq h with
    | @call func instr w i args world hfetch hexec hjit =>
      obtain ⟨-, -, idx, hidx, rfl⟩ := View.exec_yields host p instr _ hexec
      refine ⟨Nat.le_of_eq (congrArg rank (exec_funcIdx hexec)), ?_⟩
      exact hfetch.rank_lt hp (List.mem_of_getElem? hidx)
  resume := fun _ _ => rfl

/-! ## Whole runs -/

/-- The loop is done when the machine is. -/
theorem runLoop_of_endsWithin {n : Nat} {e : Executor ω} {t : Ending}
    {c : Config CallFrame (GlobalRegister × ω)}
    (h : (machine host p).EndsWithin n e.config t c) :
    runLoop host p n e = t.iteration (ofConfig c) := by
  generalize hc : e.config = c₀ at h
  induction h generalizing e with
  | @ends n c₀ t c hend =>
    subst hc
    have hiter : Ends host p e t (ofConfig c) := (ends_iff hend.stack_ne_nil).mpr hend
    rw [Ends] at hiter
    rw [runLoop, hiter]
    cases t <;> rfl
  | @step n c₀ c' t c hstep _ ih =>
    subst hc
    have hiter : iterate host p e = .next (ofConfig c') := step_iff.mpr hstep
    rw [runLoop, hiter]
    exact ih rfl

/-- **Programs that only go forward end.**  If every label of a program lies behind the instruction
that names it, and every call goes to a function of lower rank, then every run ends, with a
result, a panic or an exit, within a number of turns that depends on the program only, whatever
is caught on the way; and its stack is at most one deeper than the rank of its first
function. -/
theorem descending_run_ends (host : Host ω) (hp : p.descends rank = true) {func : String} {i : Nat}
    (hi : p.getFunctionIndex func = some i) (args : Value) {e₀ : Executor ω}
    (hempty : e₀.callStack = []) :
    (∃ (t : Ending) (e : Executor ω), runNamed host p func args (callWeight p.longest ^ rank i * 4 ^ p.longest) e₀ =
      t.iteration e) ∧
    ∀ e, RunReaches host p func args e₀ e → e.callStack.length ≤ rank i + 1 := by
  have hstart : ∃ g, start p func args e₀ = .next ⟨g, [.new i args], e₀.world⟩ := by
    simp only [start, hi, hempty]
    exact ⟨_, rfl⟩
  obtain ⟨g, hstart⟩ := hstart
  constructor
  · have hne : Config.stack ⟨[CallFrame.new i args], (g, e₀.world)⟩ ≠ [] := List.cons_ne_nil _ _
    obtain ⟨t, c, hend⟩ := (weighs host hp).endsWithin hne fun _ _ => trivial
    have hweight : Config.weight (CallFrame.weight p rank) ⟨[.new i args], (g, e₀.world)⟩ =
        callWeight p.longest ^ rank i * 4 ^ p.longest := rfl
    rw [hweight] at hend
    refine ⟨t, ofConfig c, ?_⟩
    have hloop := runLoop_of_endsWithin (e := ⟨g, [.new i args], e₀.world⟩) hend
    rw [runNamed, hstart]
    exact hloop
  · rintro e ⟨e₁, hstart', hsteps⟩
    cases hstart.symm.trans hstart'
    exact (levels host hp).length_le (steps_config hsteps)

section Example

/-- `Main` calls `f` and divides by zero under a guard. -/
def forwardMain : Program :=
  ⟨1, [], [⟨"Main", [], [⟨.try_, [.labelTarget 3, .labelTarget 5]⟩,
      ⟨.call, [.funcRef 1, .slot (.builtIn .args)]⟩,
      ⟨.div, [.imm (.int .int32 1), .imm (.int .int32 0), .slot (.builtIn .ret)]⟩,
      ⟨.catch_, []⟩,
      ⟨.jmp, [.labelTarget 5]⟩,
      ⟨.endTry, []⟩,
      ⟨.ret, [.slot (.builtIn .ret)]⟩]⟩,
    ⟨"f", [], [⟨.ret, [.imm (.int .int32 7)]⟩]⟩]⟩

def forwardRank (i : Nat) : Nat := 1 - i

theorem descending_run_ends_forwardMain :
    (∃ (t : Ending) (e : Executor Unit), runNamed Host.bare forwardMain "Main" (.struct [])
      (callWeight forwardMain.longest ^ forwardRank 0 * 4 ^ forwardMain.longest) (.new ()) =
        t.iteration e) ∧
    ∀ e, RunReaches Host.bare forwardMain "Main" (.struct []) (.new ()) e →
      e.callStack.length ≤ forwardRank 0 + 1 :=
  descending_run_ends Host.bare (by decide) rfl (.struct []) rfl

end Example

end Fasm
