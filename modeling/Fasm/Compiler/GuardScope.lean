import Fasm.Compiler.Layout
import Fasm.Vm.Guard

/-!
# Guards and the functions that set them

A `TAIL_CALL` puts another function in the frame and leaves the guard, whose `CATCH` is a
position in the function that set it.  In runs without such tail calls, and in which the
labels of the `TRY` blocks are their own, a guard stays with its function.
-/

namespace Fasm

open Pushdown (Machine Config frameAt)

variable {ω : Type} {host : Host ω} {p : Program}

/-- The states of a run of `func` on the executor `e₀`, with a condition on each state that is
left by a step. -/
abbrev IsRunOf (host : Host ω) (p : Program) (func : String) (args : Value) (e₀ : Executor ω)
    (Cond : Executor ω → Prop) (σ : Nat → Executor ω) (n : Nat) : Prop :=
  IsRun (fun e => start p func args e₀ = .next e) (fun e e' => Step host p e e' ∧ Cond e) σ n

/-! ## Tail calls under a guard -/

/-- The next turn replaces the function of a frame with a guard: its instruction is a tail call
of another function, which the JIT does not answer. -/
def View.TailCallsAway (host : Host ω) (p : Program) (v : View ω) : Prop :=
  v.frame.tryGuard ≠ none ∧ ∃ func instr i args w world, Fetch p v.frame func instr ∧
    v.advance.exec host p instr = .ok (.tailCall i args) w ∧
    jitDispatch host i args w.world = (none, world) ∧ i ≠ v.frame.funcIdx

/-- The view of the top frame satisfies `C`. -/
def Executor.Top (C : View ω → Prop) (e : Executor ω) : Prop :=
  ∃ cf below, e.callStack = cf :: below ∧ C ⟨cf, e.globals, e.world⟩

section Origin

variable {func : FunctionDef} {instr : Instruction} {r : EStateM.Result Stop (View ω) Action}

/-- An instruction that leaves a guard in a function is the `TRY` that sets it there, or found it
there. -/
theorem exec_guardIn_origin {v : View ω} {g : TryGuard} {funcIdx : Nat}
    (hfetch : Fetch p v.frame func instr) (hexec : v.advance.exec host p instr = r)
    (hg : (stateOf r).frame.tryGuard = some g ∧ (stateOf r).frame.funcIdx = funcIdx) :
    ((v.frame.funcIdx = funcIdx ∧ TriesWith p g v.frame v.globals) ∨
      View.TailCallsAway host p v) ∨ v.frame.tryGuard = some g ∧ v.frame.funcIdx = funcIdx := by
  have hidx : v.frame.funcIdx = funcIdx := (exec_funcIdx hexec).symm.trans hg.2
  rcases exec_guard_origin hfetch hexec hg.1 with htry | hset
  · exact .inl (.inl ⟨hidx, htry⟩)
  · exact .inr ⟨hset, hidx⟩

/-- Frames get a guard, in a function, from a `TRY` of that function or by such a tail call. -/
theorem origin_guardIn (host : Host ω) (p : Program) (g : TryGuard) (funcIdx : Nat) :
    (machine host p).Origin
      (fun cf s => (cf.funcIdx = funcIdx ∧ TriesWith p g cf s.1) ∨
        View.TailCallsAway host p ⟨cf, s.1, s.2⟩)
      (fun cf => cf.tryGuard = some g ∧ cf.funcIdx = funcIdx) where
  stay := by
    intro f s f' s' h hg
    cases moves_of_eq h with
    | goOn hfetch hexec => exact exec_guardIn_origin hfetch hexec hg
    | jump hfetch hexec => exact exec_guardIn_origin hfetch hexec hg
    | callJit hfetch hexec _ => exact exec_guardIn_origin hfetch hexec hg
    | tail hfetch hexec hjit =>
      rw [exec_tail_eq hexec] at hg
      by_cases heq : f.funcIdx = funcIdx
      · exact .inr ⟨hg.1, heq⟩
      · refine .inl (.inr ⟨?_, _, _, _, _, _, _, hfetch, hexec, hjit, ?_⟩)
        · exact fun hnone => nomatch hnone.symm.trans hg.1
        · exact fun hi => heq (hi.symm.trans hg.2)
    | caught => cases hg.1
  enter := by
    intro f s f' callee s' h
    cases moves_of_eq h with
    | call _ hexec _ =>
      rw [exec_call_eq hexec]
      exact ⟨id, fun hg => nomatch hg.1⟩
  resume := id
  stop := by
    intro f s t f' s' h hg
    cases moves_of_eq h with
    | badIndex => exact .inr hg
    | halt hfetch hexec => exact exec_guardIn_origin hfetch hexec hg
    | unhandled hfetch hexec _ => exact exec_guardIn_origin hfetch hexec hg
    | panic hfetch hexec => exact exec_guardIn_origin hfetch hexec hg
    | exit hfetch hexec => exact exec_guardIn_origin hfetch hexec hg

end Origin

/-- The frame at height `d` is on top, at a `TRY` of its function `funcIdx` that sets `g`. -/
def Executor.TriesIn (e : Executor ω) (p : Program) (d funcIdx : Nat) (g : TryGuard) : Prop :=
  e.config.TopAt d fun cf s => cf.funcIdx = funcIdx ∧ TriesWith p g cf s.1

section Run

variable {func : String} {args : Value} {e₀ : Executor ω} {Cond : Executor ω → Prop}
  {σ : Nat → Executor ω} {n : Nat}

/-- In a run without tail calls away from a guard, the guard of a frame was set by a `TRY` of the
function that the frame executes, and has been there since then. -/
theorem guardIn_since (hempty : e₀.callStack = []) (hrun : IsRunOf host p func args e₀ Cond σ n)
    (hcond : ∀ e, Cond e → ¬ e.Top (View.TailCallsAway host p)) {d : Nat} {cf : CallFrame}
    {g : TryGuard} (hat : frameAt (σ n).callStack d = some cf) (hg : cf.tryGuard = some g) :
    Since (fun e => e.TriesIn p d cf.funcIdx g) (fun e => e.GuardAt d g) σ n := by
  have hsince := hrun.since (A := fun e => e.TriesIn p d cf.funcIdx g)
    (P := fun e => e.config.At d fun cf' => cf'.tryGuard = some g ∧ cf'.funcIdx = cf.funcIdx)
    ?_ ?_ ⟨cf, hat, hg, rfl⟩
  · exact hsince.mono (fun _ h => h) fun e h => by
      obtain ⟨⟨cf', hat', hg', -⟩, -⟩ := h
      exact ⟨cf', hat', hg'⟩
  · rintro e hstart ⟨cf', hat', hg', -⟩
    obtain ⟨i, -, hstack, -⟩ := start_eq hstart
    rw [hempty] at hstack
    rw [Executor.config, hstack, Pushdown.frameAt_cons] at hat'
    split at hat'
    case isTrue => cases hat'; cases hg'
    case isFalse => cases hat'
  · rintro e e' ⟨hstep, hc⟩ hP
    rcases (origin_guardIn host p g cf.funcIdx).step (step_iff.mp hstep) hP with htop | hkept
    · obtain ⟨f, below, hstack, hd, htry | haway⟩ := htop
      · exact .inl ⟨f, below, hstack, hd, htry⟩
      · exact absurd ⟨f, below, hstack, haway⟩ (hcond e hc)
    · exact .inr hkept

end Run

/-! ## Guards and blocks -/

section Blocks

variable {ast : ProgramAst}

/-- A `TRY` that is executed is the one of a `TRY` block of the source, and its guard names the
`CATCH` and the `ENDTRY` of the block as far as the block owns its labels. -/
theorem TriesWith.block (hp : emit ast = .ok p) {g : TryGuard} {cf : CallFrame}
    {globals : GlobalRegister} (h : TriesWith p g cf globals) :
    ∃ f fd b, ast.functions[cf.funcIdx]? = some f ∧ p.functions[cf.funcIdx]? = some fd ∧
      f.CompilesTo ast fd ∧ b ∈ f.tryBlocks ∧ b.tryIp = cf.ip ∧
      (f.Owns b.catchLabel b.catchIp → g.catchIp = b.catchIp) ∧
      (f.Owns b.endLabel b.endIp → g.endIp = b.endIp) := by
  obtain ⟨fd, instr, c, t, hfetch, hop, ht, rfl⟩ := h
  obtain ⟨f, hf, hcomp⟩ := emit_function hp hfetch.func_eq
  obtain ⟨b, hb, hip, htargets⟩ := hcomp.try_at hfetch.instr_eq hop
  obtain ⟨hc, he⟩ := htargets c t ht
  exact ⟨f, fd, b, hf, hfetch.func_eq, hcomp, hb, hip, hc, he⟩

/-- The program is the code of the syntax tree. -/
theorem emit_of_compileSource {u : Unicode} {src : String} (hast : frontend u src = .ok ast)
    (hp : compileSource u src = .ok p) : emit ast = .ok p := by
  rw [← compileSource_eq hast]
  exact hp

/-- The next turn executes the `TRY` of a block whose `CATCH` label is declared again, later in
the function and elsewhere, or is at a position from `2 ^ 32` on. -/
def View.TriesWithLostCatch (ast : ProgramAst) (v : View ω) : Prop :=
  ∃ f b, ast.functions[v.frame.funcIdx]? = some f ∧ b ∈ f.tryBlocks ∧ b.tryIp = v.frame.ip ∧
    ¬ f.Owns b.catchLabel b.catchIp

/-- The next turn does neither of the two things that take a guard out of its scope. -/
structure KeepsScope (ast : ProgramAst) (host : Host ω) (p : Program) (e : Executor ω) : Prop where
  tailCall : ¬ e.Top (View.TailCallsAway host p)
  label : ¬ e.Top (View.TriesWithLostCatch ast)

end Blocks

/-- **A guard stays with its function.**  In every run whose steps keep the scope of guards, a
frame with a guard executes the function whose `TRY` set the guard, and the guard's `catch_ip` is
the index of the `CATCH` of the same `TRY` block in the code of that function. -/
theorem guard_scope {u : Unicode} {src : String} {ast : ProgramAst} {func : String} {args : Value}
    {e₀ : Executor ω} {σ : Nat → Executor ω} {n : Nat} (hast : frontend u src = .ok ast)
    (hp : compileSource u src = .ok p) (hempty : e₀.callStack = [])
    (hrun : IsRunOf host p func args e₀ (KeepsScope ast host p) σ n) {d : Nat} {cf : CallFrame}
    {g : TryGuard} (hat : frameAt (σ n).callStack d = some cf) (hg : cf.tryGuard = some g) :
    ∃ f fd b, ast.functions[cf.funcIdx]? = some f ∧ p.functions[cf.funcIdx]? = some fd ∧
      b ∈ f.tryBlocks ∧ g.catchIp = b.catchIp ∧
      (∃ ops, fd.instructions[g.catchIp]? = some ⟨.catch_, ops⟩) ∧
      Since
        (fun e => e.config.TopAt d fun cf₀ s =>
          cf₀.funcIdx = cf.funcIdx ∧ cf₀.ip = b.tryIp ∧ TriesWith p g cf₀ s.1)
        (fun e => e.GuardAt d g) σ n := by
  obtain ⟨i, hi, ⟨cf₀, below, hstack, hd, hidx, htry⟩, hsince⟩ :=
    guardIn_since hempty hrun (fun _ hc => hc.tailCall) hat hg
  obtain ⟨f, fd, b, hf, hfd, hcomp, hb, hip, hcatch, -⟩ :=
    htry.block (emit_of_compileSource hast hp)
  have hown : f.Owns b.catchLabel b.catchIp := by
    refine Classical.byContradiction fun hlost => (hrun.step i hi).2.label ?_
    exact ⟨cf₀, below, hstack, f, b, hf, hb, hip, hlost⟩
  have hcatchIp := hcatch hown
  rw [hidx] at hf hfd
  refine ⟨f, fd, b, hf, hfd, hb, hcatchIp, ?_, i, hi,
    ⟨cf₀, below, hstack, hd, hidx, hip.symm, htry⟩, hsince⟩
  rw [hcatchIp]
  exact (hcomp.opcode_at hb).2

section Example

/-- `Main` divides by zero in a `TRY`. -/
def guardedDivSource : String :=
  "FUNC Main\nTRY\nDIV 1, 0, 0\nCATCH\nENDTRY\nENDF"

private def guardedDivTokens : List Token :=
  [⟨.ident "FUNC", 1⟩, ⟨.ident "Main", 1⟩, ⟨.ident "TRY", 2⟩, ⟨.ident "DIV", 3⟩, ⟨.integer 1, 3⟩,
    ⟨.comma, 3⟩, ⟨.integer 0, 3⟩, ⟨.comma, 3⟩, ⟨.integer 0, 3⟩, ⟨.ident "CATCH", 4⟩,
    ⟨.ident "ENDTRY", 5⟩, ⟨.ident "ENDF", 6⟩, ⟨.eof, 6⟩]

/-- A division by zero in the source. -/
def divInstr (line : Nat) : Statement :=
  .instr ⟨"DIV", [.integer 1, .integer 0, .integer 0], line⟩

/-- A division by zero. -/
def divCode : Instruction :=
  ⟨.div, [.imm (.int .int32 1), .imm (.int .int32 0), .slot (.local_ 0)]⟩

/-- The syntax tree of `guardedDivSource`. -/
def guardedDivAst : ProgramAst :=
  ⟨[], [], [], [⟨"Main", [], [.tryBlock "__catch_2" "__endtry_2" [divInstr 3] [] 2], 1⟩]⟩

/-- The program of `guardedDivSource`. -/
def guardedDivProgram : Program :=
  ⟨1, [], [⟨"Main", [], [⟨.try_, [.labelTarget 2, .labelTarget 3]⟩, divCode,
    ⟨.catch_, [.labelTarget 3]⟩, ⟨.endTry, []⟩]⟩]⟩

private theorem guardedDiv_tokens : tokenize .ascii guardedDivSource = .ok guardedDivTokens := (rfl)

theorem guardedDiv_frontend : frontend .ascii guardedDivSource = .ok guardedDivAst :=
  frontend_eq guardedDiv_tokens rfl rfl

theorem guardedDiv_compiles : compileSource .ascii guardedDivSource = .ok guardedDivProgram :=
  (compileSource_eq guardedDiv_frontend).trans rfl

/-- The frame of `Main` after its `TRY`. -/
def guardedDivFrame : CallFrame :=
  { CallFrame.new 0 (.struct []) with ip := 1, tryGuard := some ⟨2, 3, [], []⟩ }

/-- The run of `guardedDivProgram` up to its division. -/
def guardedDivRun : Nat → Executor Unit
  | 0 => ⟨.new, [.new 0 (.struct [])], ()⟩
  | _ + 1 => ⟨.new, [guardedDivFrame], ()⟩

theorem guardedDivRun_isRun :
    IsRunOf Host.bare guardedDivProgram "Main" (.struct []) (.new ())
      (KeepsScope guardedDivAst Host.bare guardedDivProgram) guardedDivRun 1 where
  init := rfl
  step := by
    intro i hi
    obtain rfl : i = 0 := by omega
    refine ⟨rfl, ?_, ?_⟩
    · rintro ⟨cf, below, hstack, hg, -⟩
      cases hstack
      exact hg rfl
    · rintro ⟨cf, below, hstack, f, b, hf, hb, -, hlost⟩
      cases hstack
      cases hf
      obtain rfl := List.mem_singleton.mp hb
      exact hlost ⟨rfl, by decide⟩

theorem guard_scope_guardedDiv :
    ∃ f fd b, guardedDivAst.functions[0]? = some f ∧ guardedDivProgram.functions[0]? = some fd ∧
      b ∈ f.tryBlocks ∧ 2 = b.catchIp ∧ (∃ ops, fd.instructions[2]? = some ⟨.catch_, ops⟩) ∧
      Since
        (fun e => e.config.TopAt 0 fun cf₀ s =>
          cf₀.funcIdx = 0 ∧ cf₀.ip = b.tryIp ∧
            TriesWith guardedDivProgram ⟨2, 3, [], []⟩ cf₀ s.1)
        (fun e => e.GuardAt 0 ⟨2, 3, [], []⟩) guardedDivRun 1 :=
  guard_scope guardedDiv_frontend guardedDiv_compiles rfl guardedDivRun_isRun
    (rfl : frameAt (guardedDivRun 1).callStack 0 = some guardedDivFrame) rfl

/-- `Main` calls `F` by a tail call in a `TRY`, and `F` divides by zero. -/
def tailCallAwaySource : String :=
  "FUNC Main\nTRY\nTAIL_CALL F, NULL\nCATCH\nENDTRY\nENDF\nFUNC F\nDIV 1, 0, 0\nRET 0\nRET 7\nENDF"

private def tailCallAwayTokens : List Token :=
  [⟨.ident "FUNC", 1⟩, ⟨.ident "Main", 1⟩, ⟨.ident "TRY", 2⟩, ⟨.ident "TAIL_CALL", 3⟩,
    ⟨.ident "F", 3⟩, ⟨.comma, 3⟩, ⟨.ident "NULL", 3⟩, ⟨.ident "CATCH", 4⟩, ⟨.ident "ENDTRY", 5⟩,
    ⟨.ident "ENDF", 6⟩, ⟨.ident "FUNC", 7⟩, ⟨.ident "F", 7⟩, ⟨.ident "DIV", 8⟩, ⟨.integer 1, 8⟩,
    ⟨.comma, 8⟩, ⟨.integer 0, 8⟩, ⟨.comma, 8⟩, ⟨.integer 0, 8⟩, ⟨.ident "RET", 9⟩, ⟨.integer 0, 9⟩,
    ⟨.ident "RET", 10⟩, ⟨.integer 7, 10⟩, ⟨.ident "ENDF", 11⟩, ⟨.eof, 11⟩]

/-- The syntax tree of `tailCallAwaySource`. -/
def tailCallAwayAst : ProgramAst :=
  ⟨[], [], [],
    [⟨"Main", [], [.tryBlock "__catch_2" "__endtry_2"
      [.instr ⟨"TAIL_CALL", [.ident "F", .null], 3⟩] [] 2], 1⟩,
    ⟨"F", [], [divInstr 8, .instr ⟨"RET", [.integer 0], 9⟩, .instr ⟨"RET", [.integer 7], 10⟩], 7⟩]⟩

/-- The program of `tailCallAwaySource`. -/
def tailCallAwayProgram : Program :=
  ⟨1, [], [⟨"Main", [], [⟨.try_, [.labelTarget 2, .labelTarget 3]⟩,
      ⟨.tailCall, [.funcRef 1, .imm .null]⟩, ⟨.catch_, [.labelTarget 3]⟩, ⟨.endTry, []⟩]⟩,
    ⟨"F", [], [divCode, ⟨.ret, [.imm (.int .int32 0)]⟩, ⟨.ret, [.imm (.int .int32 7)]⟩]⟩]⟩

private theorem tailCallAway_tokens :
    tokenize .ascii tailCallAwaySource = .ok tailCallAwayTokens := (rfl)

theorem tailCallAway_frontend : frontend .ascii tailCallAwaySource = .ok tailCallAwayAst :=
  frontend_eq tailCallAway_tokens rfl rfl

/-- The frame of the run at the entry of `F`. -/
def tailCallAwayFrame : CallFrame :=
  { CallFrame.new 1 .null with tryGuard := some ⟨2, 3, [], []⟩ }

/-- The compiled program reaches a state in which a frame with a guard executes `F`, which has no
`TRY` at all; the fault in `F` then goes on at the second `RET` of `F`. -/
theorem tailCallAway_escapes :
    compileSource .ascii tailCallAwaySource = .ok tailCallAwayProgram ∧
      RunReaches Host.bare tailCallAwayProgram "Main" (.struct []) (.new ())
        ⟨.new, [tailCallAwayFrame], ()⟩ ∧
      (∃ f, tailCallAwayAst.functions[tailCallAwayFrame.funcIdx]? = some f ∧ f.tryBlocks = []) ∧
      Step Host.bare tailCallAwayProgram ⟨.new, [tailCallAwayFrame], ()⟩
        ⟨.new, [{ CallFrame.new 1 .null with ip := 2, retVal := .uint32 4 }], ()⟩ ∧
      Ends Host.bare tailCallAwayProgram
        ⟨.new, [{ CallFrame.new 1 .null with ip := 2, retVal := .uint32 4 }], ()⟩
        (.result (.ok (.int .int32 7))) ⟨.new, [], ()⟩ := by
  refine ⟨?_, ⟨_, rfl, .tail (.tail .refl rfl) rfl⟩, ⟨_, rfl, rfl⟩, rfl, rfl⟩
  exact (compileSource_eq tailCallAway_frontend).trans rfl

end Example

end Fasm
