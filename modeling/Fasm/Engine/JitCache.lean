import Fasm.Engine.Dispatcher

/-!
# Whose native code a request runs

`set_jit` is only called for a request that brings a JIT, and nothing takes the JIT of
a sandbox away again.  So a request without a JIT runs with the one that the last
request with a JIT has left in the pooled sandbox, looked up by function index.
-/

namespace Fasm

variable {ω : Type}

/-- A request that brings a JIT runs with that one. -/
theorem sandbox_jit_of_some {req : ExecRequest ω} {jit : FasmJit ω} (h : req.jit = some jit)
    (k : Worker ω) : (req.sandbox k).jit = some jit := by
  unfold ExecRequest.sandbox
  rw [h]
  rfl

/-- A request that brings none runs with the one that it finds. -/
theorem sandbox_jit_of_none {req : ExecRequest ω} (h : req.jit = none) (k : Worker ω) :
    (req.sandbox k).jit = k.threadSandbox.bind Sandbox.jit := by
  unfold ExecRequest.sandbox acquireSandbox
  rw [h]
  cases k.threadSandbox <;> rfl

/-- Without a JIT no call is answered by native code. -/
theorem not_runsNative {host : Host ω} (h : host.jit = none) (p : Program) (e : Executor ω) :
    ¬ RunsNative host p e := by
  rintro ⟨cf, below, func, instr, i, args, w, ret, w', -, -, -, hjit⟩
  rw [jitDispatch, h] at hjit
  cases hjit

/-- **JIT cache and program.**  Whatever the sandbox of a thread has handled since it was
built: a request that brings a JIT compiled from its program runs no other native code, and
a request that brings none runs no native code, provided that no request has brought one
before it. -/
theorem jit_matched {mounted : Host ω} {reqs : List (ExecRequest ω)} {k : Worker ω}
    (h : Pooled mounted reqs k) {req : ExecRequest ω}
    (hown : ∀ jit, req.jit = some jit → jit.program = req.program)
    (hfirst : req.jit = none → ∀ q ∈ reqs, q.jit = none) : JitMatched mounted k req := by
  intro e _ hnative
  cases hreq : req.jit with
  | some jit => exact ⟨nofun, jit, sandbox_jit_of_some hreq k, hown jit hreq⟩
  | none =>
    have hnone : (req.sandbox k).jit = none := by
      rw [sandbox_jit_of_none hreq]
      cases hsb : k.threadSandbox with
      | none => rfl
      | some sb =>
        cases hjit : sb.jit with
        | none => exact hjit
        | some jit =>
          obtain ⟨q, hq, hqjit⟩ := h.jit_brought hsb hjit
          rw [hfirst hreq q hq] at hqjit
          cases hqjit
    refine absurd hnative (not_runsNative ?_ req.program e)
    exact congrArg (Option.map FasmJit.dispatch) hnone

/-! ## Requests without and with a JIT -/

/-- A program whose function 1 returns its argument. -/
def identityProgram : Program :=
  ⟨1, [], [⟨"Main", [], [⟨.ret, []⟩]⟩,
    ⟨"Identity", [⟨0, .int .int32, "n", true⟩],
      [⟨.reserve, [.slot (.local_ 0), .type (.int .int32), .imm .null]⟩,
        ⟨.getField, [.slot (.builtIn .args), .key 0, .slot (.local_ 0)]⟩,
        ⟨.ret, [.slot (.local_ 0)]⟩]⟩]⟩

/-- What `identityProgram` compiles to: `Identity` returns its argument as an `INT32`, the bare
`RET` of `Main` returns 0. -/
def identityJit : FasmJit Unit where
  program := identityProgram
  dispatch i args w :=
    match i, args with
    | 0, .struct _ => (some (.int .int64 0), w)
    | 1, .struct s =>
      match FasmStruct.get s 0 with
      | some (.int t n) => (some (.int .int32 ((asI64 t n).setWidth 32)), w)
      | _ => (none, w)
    | _, _ => (none, w)

/-- A request for `Main` of that program, with its JIT. -/
def identityRequest : ExecRequest Unit := ⟨"Main", identityProgram, .struct [], some identityJit⟩

/-- The thread after this request. -/
def identityServed : Worker Unit := ⟨some ⟨.new, [], some identityJit⟩, ()⟩

theorem identityServed_pooled : Pooled Host.bare [identityRequest] identityServed :=
  have hrun : Serves Host.bare ⟨none, ()⟩ identityRequest (.ok .null) identityServed :=
    .finished (n := 1) (r := .ok .null) (e := ⟨.new, [], ()⟩) rfl
  .served (.start ()) hrun nofun

theorem jit_matched_identity : JitMatched Host.bare identityServed identityRequest :=
  jit_matched identityServed_pooled (by rintro _ ⟨⟩; rfl) nofun

/-- A program whose `Main` calls function 1, which returns 7, on a struct of 5. -/
def sevenProgram : Program :=
  ⟨1, [], [⟨"Main", [], [⟨.reserve, [.slot (.local_ 0), .type .struct, .imm .null]⟩,
      ⟨.setField, [.slot (.local_ 0), .key 0, .imm (.int .int32 5)]⟩,
      ⟨.call, [.funcRef 1, .slot (.local_ 0)]⟩,
      ⟨.ret, [.slot (.builtIn .ret)]⟩]⟩,
    ⟨"Seven", [], [⟨.ret, [.imm (.int .int32 7)]⟩]⟩]⟩

/-- A request for its `Main`, without a JIT. -/
def sevenRequest : ExecRequest Unit := ⟨"Main", sevenProgram, .struct [], none⟩

/-- The executor of this request before its call. -/
def sevenCalling : Executor Unit :=
  ⟨.new, [{ CallFrame.new 0 (.struct []) with
    ip := 2, frame := ⟨[some (.struct [(0, .int .int32 5)])]⟩ }], ()⟩

/-- After `identityRequest`, the call of `sevenRequest` is answered by the code compiled from
the other program, with 5 for 7. -/
theorem sevenRequest_runs_identity : Pooled Host.bare [identityRequest] identityServed ∧
    ¬ JitMatched Host.bare identityServed sevenRequest ∧
    (∃ k, Serves Host.bare identityServed sevenRequest (.ok (.int .int32 5)) k) ∧
    ∃ k, Serves Host.bare ⟨none, ()⟩ sevenRequest (.ok (.int .int32 7)) k := by
  refine ⟨identityServed_pooled, fun h => ?_, ?_, ?_⟩
  · have hreaches : RunReaches ((sevenRequest.sandbox identityServed).host Host.bare) sevenProgram
        "Main" (.struct []) ((sevenRequest.sandbox identityServed).executor ()) sevenCalling :=
      ⟨_, rfl, .tail (.tail .refl rfl) rfl⟩
    refine (h sevenCalling hreaches ?_).1 rfl
    exact ⟨_, _, _, _, _, _, _, .int .int32 5, (), rfl, ⟨rfl, rfl⟩, .inl rfl, rfl⟩
  · exact ⟨_, .finished (n := 5) (r := .ok (.int .int32 5)) (e := ⟨.new, [], ()⟩) rfl⟩
  · exact ⟨_, .finished (n := 5) (r := .ok (.int .int32 7)) (e := ⟨.new, [], ()⟩) rfl⟩

end Fasm
