import Fasm.Engine.Dispatcher
import Fasm.Vm.SeenRun

/-!
# What a pooled sandbox carries from request to request

`reset` clears the call stack only.  The globals stay, and a run starts by setting the
slots that its own program initialises; every other slot still holds what an earlier
request has put there.  A request that finds no such slot runs as on a fresh sandbox.
-/

namespace Fasm

variable {ω : Type}

/-! ## Global initialisers -/

/-- The global slot that an initialiser sets, and the value it gets. -/
def Instruction.globalInit? (instr : Instruction) : Option (U32 × Value) :=
  if instr.opcode = .reserve then
    match instr.operands with
    | .key idx :: .type t :: init :: _ => some (idx, immToValueForType t init)
    | _ => none
  else none

theorem globalInit_eq (g : GlobalRegister) (instr : Instruction) :
    globalInit g instr =
      match instr.globalInit? with
      | some (idx, v) => g.set idx.toNat v
      | none => g := by
  unfold globalInit Instruction.globalInit?
  by_cases hop : instr.opcode = .reserve
  · rw [if_pos hop, if_pos hop]
    rcases instr.operands with _ | ⟨a, _ | ⟨b, _ | ⟨c, ops⟩⟩⟩
    · rfl
    · cases a <;> rfl
    · cases a <;> cases b <;> rfl
    · cases a <;> cases b <;> rfl
  · rw [if_neg hop, if_neg hop]

/-- The program initialises the global slot `i`. -/
def Program.Initialises (p : Program) (i : Nat) : Prop :=
  ∃ instr ∈ p.globalInits, ∃ idx v, instr.globalInit? = some (idx, v) ∧ idx.toNat = i

/-- Whatever the slots held that the initialisers set: afterwards they hold the same. -/
theorem globalInits_get (inits : List Instruction) {g g' : GlobalRegister}
    (h : ∀ i, (∃ instr ∈ inits, ∃ idx v, instr.globalInit? = some (idx, v) ∧ idx.toNat = i) ∨
      g.get i = g'.get i) :
    (inits.foldl globalInit g).get = (inits.foldl globalInit g').get := by
  induction inits generalizing g g' with
  | nil =>
    funext i
    rcases h i with ⟨_, hmem, -⟩ | hi
    · cases hmem
    · exact hi
  | cons instr inits ih =>
    refine ih fun i => ?_
    rw [globalInit_eq, globalInit_eq]
    cases hinit : instr.globalInit? with
    | none =>
      rcases h i with ⟨instr', hmem, idx, v, hi, hidx⟩ | hi
      · rcases List.mem_cons.mp hmem with rfl | hmem
        · rw [hinit] at hi
          cases hi
        · exact .inl ⟨instr', hmem, idx, v, hi, hidx⟩
      · exact .inr hi
    | some r =>
      obtain ⟨idx, v⟩ := r
      by_cases hidx : idx.toNat = i
      · refine .inr ?_
        subst hidx
        simp only [Slots.get_set_self]
      · rcases h i with ⟨instr', hmem, idx', v', hi, hidx'⟩ | hi
        · rcases List.mem_cons.mp hmem with rfl | hmem
          · rw [hinit] at hi
            cases hi
            exact absurd hidx' hidx
          · exact .inl ⟨instr', hmem, idx', v', hi, hidx'⟩
        · refine .inr ?_
          simp only [Slots.get_set_of_ne _ hidx, hi]

/-! ## Requests -/

/-- Every global slot that the thread's sandbox holds a value in is initialised by the
program. -/
def Worker.InitialisedBy (k : Worker ω) (p : Program) : Prop :=
  ∀ sb, k.threadSandbox = some sb → ∀ i, sb.globals.get i ≠ none → p.Initialises i

/-- The thread with its sandbox exchanged for a fresh one. -/
def Worker.fresh (k : Worker ω) : Worker ω := ⟨none, k.world⟩

/-- Requests without a JIT leave a sandbox without one. -/
theorem Pooled.jit_none {mounted : Host ω} {reqs : List (ExecRequest ω)} {k : Worker ω}
    (h : Pooled mounted reqs k) (hreqs : ∀ q ∈ reqs, q.jit = none) {sb : Sandbox ω}
    (hsb : k.threadSandbox = some sb) : sb.jit = none := by
  cases hjit : sb.jit with
  | none => rfl
  | some jit =>
    obtain ⟨q, hq, hqjit⟩ := h.jit_brought hsb hjit
    rw [hreqs q hq] at hqjit
    cases hqjit

section Request

variable {mounted : Host ω} {k : Worker ω} {req : ExecRequest ω}

/-- Without a JIT a request runs in the sandbox that it acquires. -/
theorem sandbox_eq (hjit : req.jit = none) (k : Worker ω) : req.sandbox k = acquireSandbox k := by
  unfold ExecRequest.sandbox
  rw [hjit]

/-- The executors with which a request enters its loop, on the pooled and on a fresh sandbox,
look alike. -/
theorem start_alike (hinit : k.InitialisedBy req.program) (hjit : req.jit = none) :
    (start req.program req.func req.args ((req.sandbox k).executor k.world)).Alike
      (start req.program req.func req.args ((req.sandbox k.fresh).executor k.world)) := by
  have hstack : ((req.sandbox k).executor k.world).callStack = [] := by
    rw [sandbox_eq hjit]
    unfold acquireSandbox
    cases k.threadSandbox <;> rfl
  have hfresh : (req.sandbox k.fresh).executor k.world = ⟨.new, [], k.world⟩ := by
    rw [sandbox_eq hjit]
    rfl
  have hslots (i : Nat) : req.program.Initialises i ∨
      (req.sandbox k).globals.get i = Slots.new.get i := by
    rw [sandbox_eq hjit]
    unfold acquireSandbox
    cases hsb : k.threadSandbox with
    | none => exact .inr rfl
    | some sb =>
      by_cases hi : sb.globals.get i = none
      · exact .inr hi
      · exact .inl (hinit sb hsb i hi)
  have hget := globalInits_get req.program.globalInits hslots
  rw [hfresh]
  unfold start
  cases req.program.getFunctionIndex req.func with
  | none =>
    refine .done (Executor.seen_eq hget ?_ rfl)
    exact congrArg (List.map CallFrame.seen) hstack
  | some idx =>
    refine .next (Executor.seen_eq hget ?_ rfl)
    exact congrArg (fun s => List.map CallFrame.seen (CallFrame.new idx req.args :: s)) hstack

/-- So the request runs alike on both. -/
theorem runNamed_alike (hm : mounted.IgnoresGlobals) (hinit : k.InitialisedBy req.program)
    (hjit : req.jit = none) (n : Nat) :
    (runNamed mounted req.program req.func req.args n
        ((req.sandbox k).executor k.world)).Alike
      (runNamed mounted req.program req.func req.args n
        ((req.sandbox k.fresh).executor k.world)) := by
  have hstart := start_alike hinit hjit
  unfold runNamed
  cases h₁ : start req.program req.func req.args ((req.sandbox k).executor k.world) <;>
    cases h₂ : start req.program req.func req.args ((req.sandbox k.fresh).executor k.world) <;>
    rw [h₁, h₂] at hstart <;> cases hstart
  case next h => exact runLoop_alike hm req.program n h
  case done h => exact .done h
  case panic h => exact .panic h
  case exit h => exact .exit h

end Request

/-- The reply of a run that came to an end, for the thread that awaits it. -/
def Iteration.reply : Iteration ω → Option (Except EngineError Value)
  | .done r _ => some (r.mapError .fasmFault)
  | .panic _ _ => some (.error .joinError)
  | _ => none

theorem Iteration.Alike.reply_eq {it it' : Iteration ω} (h : it.Alike it') :
    it.reply = it'.reply := by
  cases h <;> rfl

/-- A request gets a reply when its run comes to an end with it. -/
theorem serves_iff {mounted : Host ω} {k : Worker ω} {req : ExecRequest ω}
    {r : Except EngineError Value} :
    (∃ k', Serves mounted k req r k') ↔
      ∃ n, (runNamed ((req.sandbox k).host mounted) req.program req.func req.args n
        ((req.sandbox k).executor k.world)).reply = some r := by
  constructor
  · rintro ⟨k', hserve⟩
    cases hserve with
    | @finished n r e h => exact ⟨n, by rw [h]; rfl⟩
    | @panicked n x e h => exact ⟨n, by rw [h]; rfl⟩
  · rintro ⟨n, hreply⟩
    cases hrun : runNamed ((req.sandbox k).host mounted) req.program req.func req.args n
        ((req.sandbox k).executor k.world) with
    | next e => rw [hrun] at hreply; cases hreply
    | exit c e => rw [hrun] at hreply; cases hreply
    | done r' e =>
      rw [hrun] at hreply
      cases hreply
      exact ⟨_, .finished hrun⟩
    | panic x e =>
      rw [hrun] at hreply
      cases hreply
      exact ⟨_, .panicked hrun⟩

/-- **Isolation of pooled sandboxes.**  After any requests without a JIT, and with handlers
that ignore the globals: a request without a JIT whose program initialises every global slot
that is still set gets the replies that it gets on a freshly built sandbox. -/
theorem pooled_isolated {mounted : Host ω} (hm : mounted.IgnoresGlobals)
    {reqs : List (ExecRequest ω)} {k : Worker ω} (h : Pooled mounted reqs k)
    (hreqs : ∀ q ∈ reqs, q.jit = none) {req : ExecRequest ω} (hjit : req.jit = none)
    (hinit : k.InitialisedBy req.program) (r : Except EngineError Value) :
    (∃ k', Serves mounted k req r k') ↔ ∃ k', Serves mounted k.fresh req r k' := by
  have hhost (sb : Sandbox ω) (hsb : sb.jit = none) :
      sb.host mounted = { mounted with jit := none } := by
    unfold Sandbox.host
    rw [hsb]
    rfl
  have hpooled : (req.sandbox k).jit = none := by
    rw [sandbox_eq hjit]
    unfold acquireSandbox
    cases hsb : k.threadSandbox with
    | none => rfl
    | some sb =>
      have hnone : sb.jit = none := h.jit_none hreqs hsb
      exact hnone
  have hfresh : (req.sandbox k.fresh).jit = none := by
    rw [sandbox_eq hjit]
    rfl
  rw [serves_iff, serves_iff, hhost _ hpooled, hhost _ hfresh]
  have hm' : ({ mounted with jit := none } : Host ω).IgnoresGlobals := hm
  have hreply (n : Nat) := (runNamed_alike hm' hinit hjit n).reply_eq
  constructor
  · rintro ⟨n, hn⟩
    exact ⟨n, (hreply n).symm.trans hn⟩
  · rintro ⟨n, hn⟩
    exact ⟨n, (hreply n).trans hn⟩

/-! ## Requests that do and do not initialise what they find -/

/-- A program that sets global 0 to 7 and returns. -/
def setterProgram : Program :=
  ⟨1, [⟨.reserve, [.key 0, .type (.int .int32), .imm (.int .int32 7)]⟩],
    [⟨"Main", [], [⟨.ret, []⟩]⟩]⟩

/-- A program that returns global 0 and initialises no global. -/
def getterProgram : Program :=
  ⟨1, [], [⟨"Main", [], [⟨.ret, [.slot (.global 0)]⟩]⟩]⟩

/-- A request for `Main` of a program, without a JIT. -/
def mainRequest (p : Program) : ExecRequest Unit := ⟨"Main", p, .struct [], none⟩

/-- The thread after a request for `setterProgram`. -/
def setterServed : Worker Unit := ⟨some ⟨⟨[some (.int .int32 7)]⟩, [], none⟩, ()⟩

theorem setterServed_pooled : Pooled Host.bare [mainRequest setterProgram] setterServed :=
  have hrun : Serves Host.bare ⟨none, ()⟩ (mainRequest setterProgram) (.ok .null) setterServed :=
    .finished (n := 1) (r := .ok .null) (e := ⟨⟨[some (.int .int32 7)]⟩, [], ()⟩) rfl
  .served (.start ()) hrun nofun

theorem bare_ignoresGlobals : Host.bare.IgnoresGlobals := nofun

theorem setterServed_initialised : setterServed.InitialisedBy setterProgram := by
  intro sb hsb i hi
  cases hsb
  cases i with
  | zero => exact ⟨_, List.mem_singleton_self _, 0, .int .int32 7, rfl, rfl⟩
  | succ i => exact absurd rfl hi

theorem pooled_isolated_setter :
    (∃ k', Serves Host.bare setterServed (mainRequest setterProgram) (.ok .null) k') ↔
      ∃ k', Serves Host.bare setterServed.fresh (mainRequest setterProgram) (.ok .null) k' :=
  pooled_isolated bare_ignoresGlobals setterServed_pooled (by simp [mainRequest]) rfl
    setterServed_initialised _

/-- After a request for `setterProgram`, `getterProgram` returns the global of the other
program; on a fresh sandbox it faults. -/
theorem getter_reads_setter : Pooled Host.bare [mainRequest setterProgram] setterServed ∧
    (∃ k', Serves Host.bare setterServed (mainRequest getterProgram) (.ok (.int .int32 7)) k') ∧
    ¬ ∃ k', Serves Host.bare setterServed.fresh (mainRequest getterProgram)
      (.ok (.int .int32 7)) k' := by
  refine ⟨setterServed_pooled, ⟨_, .finished (n := 1) (r := .ok (.int .int32 7))
    (e := ⟨⟨[some (.int .int32 7)]⟩, [], ()⟩) rfl⟩, fun h => ?_⟩
  obtain ⟨n, hn⟩ := serves_iff.mp h
  cases n with
  | zero => cases hn
  | succ n => cases hn

end Fasm
