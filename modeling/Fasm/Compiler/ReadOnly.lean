import Fasm.Compiler.DeclaredTypes
import Fasm.Vm.ReferenceFlow
import Fasm.Vm.Refusal

/-!
# Immutable references

A local of type `REF_IMM` starts out as an immutable reference, and a write through it is
refused.  But `ADDR` makes mutable references only, so the first `ADDR` into the local
replaces it by one that can be written through.
-/

namespace Fasm

open Pushdown (Move Config Machine)

variable {ω : Type}

/-- The instructions of the function at `k` that write, update or release the local `i` are
`ADDR`, the `RESERVE` of its declaration and `RELEASE`. -/
def Program.AddrOnly (p : Program) (k : Nat) (i : U8) : Prop :=
  ∀ (fd : FunctionDef) (instr : Instruction), p.functions[k]? = some fd →
    instr ∈ fd.instructions →
    (instr.destination = some (.slot (.local_ i)) ∨ instr.updated = some (.slot (.local_ i))) →
    instr.opcode = .addr ∨ instr = reserveInstr i .refImm ∨ instr.opcode = .release

/-- The next instruction of a frame replaces an immutable reference in the local `i` by nothing
else. -/
structure Spares (host : Host ω) (p : Program) (i : U8) (v : View ω) (instr : Instruction) :
    Prop where
  /-- it is no `ADDR` into the local -/
  addr : ¬ (instr.opcode = .addr ∧ instr.operands[1]? = some (.slot (.local_ i)))
  /-- it does not write the local through another reference -/
  write : ∀ a w op, v.advance.exec host p instr = .ok a w → instr.destination = some op →
    op ≠ .slot (.local_ i) → op.place (v.advance.plug []) ≠ some (.local_ i.toNat)
  /-- a fault that is caught does not roll the local back to something else -/
  back : ∀ f w g, v.advance.exec host p instr = .error (.fault f) w → v.frame.tryGuard = some g →
    ReadOnly ((Slots.mk g.frameSnap).get i.toNat)

/-- So for the next turn, if the top frame is one of the function at `k`. -/
def TurnSpares (host : Host ω) (p : Program) (k : Nat) (i : U8) (e : Executor ω) : Prop :=
  ∀ cf below func instr, e.callStack = cf :: below → cf.funcIdx = k → Fetch p cf func instr →
    Spares host p i ⟨cf, e.globals, e.world⟩ instr

/-- In the frames of the function at `k`, the local `i` holds nothing but an immutable
reference. -/
def LocalReadOnly (k : Nat) (i : U8) (e : Executor ω) : Prop :=
  ∀ cf ∈ e.callStack, cf.funcIdx = k → ReadOnly (cf.frame.get i.toNat)

theorem ReadOnly.of_fasmType {v : Value} (h : v.fasmType = .refImm) : ReadOnly (some v) := by
  cases v with
  | refImm g j => exact readOnly_refImm g j
  | _ => cases h

section Runs

variable {host : Host ω} {p : Program} {k : Nat} {i : U8}

/-- An instruction that spares the local leaves nothing but an immutable reference in it. -/
theorem readOnly_exec {v w : View ω} {instr : Instruction} {a : Action}
    (honly : instr.destination = some (.slot (.local_ i)) ∨
      instr.updated = some (.slot (.local_ i)) →
        instr.opcode = .addr ∨ instr = reserveInstr i .refImm ∨ instr.opcode = .release)
    (hsp : Spares host p i v instr) (hro : ReadOnly (v.frame.frame.get i.toNat))
    (h : v.advance.exec host p instr = .ok a w) : ReadOnly (w.frame.frame.get i.toNat) := by
  by_cases hguard : instr.opcode.setsGuard = true
  · rwa [slots_of_guard h hguard]
  by_cases htmp : instr.opcode.setsTmp = true
  · rwa [slots_of_tmp h htmp]
  by_cases hcall : instr.opcode.callsHandler = true
  · rwa [slots_of_syscall h hcall]
  cases exec_places h (Bool.not_eq_true _ ▸ hcall) (Bool.not_eq_true _ ▸ hguard)
    (Bool.not_eq_true _ ▸ htmp) (.local_ i.toNat) with
  | same hget =>
    have hsame : w.frame.frame.get i.toNat = v.frame.frame.get i.toNat := hget
    rwa [hsame]
  | @kept c c' hget hget' htype =>
    obtain ⟨g, j, rfl⟩ := hro c hget
    have hnew : w.frame.frame.get i.toNat = some c' := hget'
    rw [hnew]
    exact .of_fasmType htype
  | @made op x hdst hop hget' hmakes =>
    by_cases hself : op = .slot (.local_ i)
    · subst hself
      rcases honly (.inl hdst) with haddr | rfl | hrel
      · rw [Instruction.destination, haddr] at hdst
        exact absurd ⟨haddr, hdst⟩ hsp.addr
      · rw [get_of_reserves rfl h]
        exact readOnly_refImm false 0
      · rw [Instruction.destination, hrel] at hdst
        cases hdst
    · exact absurd hop (hsp.write a w op h hdst hself)
  | @released s hrel hs hplain hq =>
    obtain ⟨op, operands⟩ := instr
    obtain rfl : op = .release := hrel
    obtain ⟨op₀, h₀, hrun⟩ := getOp_bind_eq_ok (View.exec_run h)
    obtain ⟨u, e₁, hr, hpure⟩ := bind_run_eq_ok hrun
    cases hpure
    rcases releaseOperand_empties hr (.local_ i.toNat) with hsame | ⟨-, hnone⟩
    · have hsame : w.frame.frame.get i.toNat = v.frame.frame.get i.toNat := hsame
      rwa [hsame]
    · have hnone : w.frame.frame.get i.toNat = none := hnone
      rw [hnone]
      exact readOnly_none

/-- A frame that stays on top keeps nothing but an immutable reference there. -/
theorem readOnly_stay (honly : p.AddrOnly k i) {v : View ω} {cf : CallFrame}
    {g : GlobalRegister × ω}
    (hsp : v.frame.funcIdx = k → ∀ func instr, Fetch p v.frame func instr →
      Spares host p i v instr)
    (hro : v.frame.funcIdx = k → ReadOnly (v.frame.frame.get i.toNat))
    (h : v.move host p = .stay cf g) (hk : cf.funcIdx = k) :
    ReadOnly (cf.frame.get i.toNat) := by
  have hexec {func : FunctionDef} {instr : Instruction} {a : Action} {w : View ω}
      (hfetch : Fetch p v.frame func instr) (hrun : v.advance.exec host p instr = .ok a w)
      (hk : w.frame.funcIdx = k) : ReadOnly (w.frame.frame.get i.toNat) := by
    have hv : v.frame.funcIdx = k := (exec_funcIdx hrun).symm.trans hk
    refine readOnly_exec (honly func instr ?_ ?_) (hsp hv func instr hfetch) (hro hv) hrun
    · rw [← hv]
      exact hfetch.func_eq
    · exact List.mem_of_getElem? hfetch.instr_eq
  cases moves_of_eq h with
  | goOn hfetch hrun => exact hexec hfetch hrun hk
  | jump hfetch hrun => exact hexec hfetch hrun hk
  | callJit hfetch hrun => exact hexec hfetch hrun hk
  | tail => exact readOnly_none
  | @caught func instr w f guard hfetch hrun hguard =>
    have hv : v.frame.funcIdx = k := (exec_funcIdx hrun).symm.trans hk
    exact (hsp hv func instr hfetch).back f w guard hrun ((exec_stop_guard hrun).symm.trans hguard)

/-- A turn that spares the local keeps it in all frames of its function. -/
theorem localReadOnly_step (honly : p.AddrOnly k i) {e e' : Executor ω}
    (hsp : TurnSpares host p k i e) (hro : LocalReadOnly k i e) (hs : Step host p e e') :
    LocalReadOnly k i e' := by
  obtain ⟨gl, stack, world⟩ := e
  obtain ⟨gl', stack', world'⟩ := e'
  cases stack with
  | nil => cases step_iff.mp hs
  | cons cf below =>
    have htop (hk : cf.funcIdx = k) (func : FunctionDef) (instr : Instruction)
        (hf : Fetch p cf func instr) := hsp cf below func instr rfl hk hf
    obtain ⟨hcf, hbelow⟩ := List.forall_mem_cons.mp hro
    cases step_iff.mp hs with
    | stay hmove => exact List.forall_mem_cons.mpr ⟨readOnly_stay honly htop hcf hmove, hbelow⟩
    | enter hmove =>
      cases moves_of_eq hmove with
      | call hfetch hexec =>
        rw [exec_call_eq hexec]
        exact List.forall_mem_cons.mpr ⟨fun _ => readOnly_none,
          List.forall_mem_cons.mpr ⟨hcf, hbelow⟩⟩
    | leave hmove =>
      obtain ⟨hcaller, hrest⟩ := List.forall_mem_cons.mp hbelow
      exact List.forall_mem_cons.mpr ⟨hcaller, hrest⟩

/-- Runs whose turns spare the local keep it. -/
theorem localReadOnly_run (honly : p.AddrOnly k i) {func : String} {args : Value}
    {e₀ e : Executor ω} (h₀ : LocalReadOnly k i e₀)
    (h : RunReachesBy host p (TurnSpares host p k i) func args e₀ e) : LocalReadOnly k i e := by
  refine h.invariant (fun e he => ?_) fun e e' hsp hro hs => localReadOnly_step honly hsp hro hs
  unfold start at he
  simp only at he
  split at he
  · cases he
  · cases he
    exact List.forall_mem_cons.mpr ⟨fun _ => readOnly_none, h₀⟩

end Runs

/-- The executor on which the run loop executes an instruction of its top frame. -/
def Executor.stepped (e : Executor ω) (cf : CallFrame) (below : List CallFrame) : Executor ω :=
  { e with callStack := { cf with ip := cf.ip + 1 } :: below }

/-- **Immutable references.**  In an accepted source, the `LOCAL` of a `REF_IMM` reserves its slot
with an immutable reference.  In every state of a run, an instruction whose target is the
dereference of the local is refused exactly when it faults before it gets there, or comes to
write its result there and the slot holds nothing but an immutable reference.  That is what it
holds in every state of a run whose turns neither execute an `ADDR` into the local, nor write it
through another reference, nor roll it back to something else. -/
theorem refImm_read_only {u : Unicode} {src : String} {ast : ProgramAst} {p : Program}
    (hast : frontend u src = .ok ast) (hp : compileSource u src = .ok p) {k : Nat} {i : U8}
    (hdecl : ast.Declares k i .refImm) (honly : p.AddrOnly k i) :
    (∃ (fd : FunctionDef) (ip : Nat), p.functions[k]? = some fd ∧
      fd.instructions[ip]? = some (reserveInstr i .refImm)) ∧
    ∀ {ω : Type} (host : Host ω) (func : String) (args : Value) (e₀ e : Executor ω),
      (RunReaches host p func args e₀ e →
        ∀ cf below fd instr n, e.callStack = cf :: below → cf.funcIdx = k →
          Fetch p cf fd instr → instr.Aims n i →
          (instr.Refused host p n i (e.stepped cf below) ↔
            (∃ f, instr.StopsBefore host p n (e.stepped cf below) (.fault f)) ∨
            instr.opcode.resultIndex = some n ∧ instr.opcode.takesOut = false ∧
              (∀ s, ¬ instr.StopsBefore host p n (e.stepped cf below) s) ∧
              ReadOnly (cf.frame.get i.toNat))) ∧
      (LocalReadOnly k i e₀ → RunReachesBy host p (TurnSpares host p k i) func args e₀ e →
        LocalReadOnly k i e ∧
        ∀ cf below fd instr n, e.callStack = cf :: below → cf.funcIdx = k →
          Fetch p cf fd instr → instr.Aims n i →
          (instr.Refused host p n i (e.stepped cf below) ↔
            (∃ f, instr.StopsBefore host p n (e.stepped cf below) (.fault f)) ∨
            instr.opcode.resultIndex = some n ∧ instr.opcode.takesOut = false ∧
              ∀ s, ¬ instr.StopsBefore host p n (e.stepped cf below) s)) := by
  rw [compileSource_eq hast] at hp
  refine ⟨declares_reserved hp hdecl, fun host func args e₀ e => ⟨?_, ?_⟩⟩
  · intro _ cf below fd instr n _ _ _ haims
    exact refused_iff host p (List.cons_ne_nil _ _) haims
  · intro h₀ hrun
    have hro : LocalReadOnly k i e := localReadOnly_run honly h₀ hrun
    refine ⟨hro, fun cf below fd instr n hstack hk _ haims => ?_⟩
    have hcf : ReadOnly (cf.frame.get i.toNat) :=
      hro cf (by rw [hstack]; exact List.mem_cons_self) hk
    have hiff := refused_iff host p (e := e.stepped cf below) (List.cons_ne_nil _ _) haims
    rw [hiff]
    refine or_congr_right ?_
    constructor
    · rintro ⟨hn, htake, hgoes, -⟩
      exact ⟨hn, htake, hgoes⟩
    · rintro ⟨hn, htake, hgoes⟩
      exact ⟨hn, htake, hgoes, hcf⟩

section Example

/-- A `MOV` through a local of type `REF_IMM` that an `ADDR` has set. -/
def throughRefImmSource : String :=
  "FUNC Main\nLOCAL 0, REF_IMM, r\nLOCAL 1, INT32, x\nADDR x, r\nMOV 7, &r\nENDF"

/-- Its syntax. -/
def throughRefImmFunction : Function :=
  ⟨"Main", [], [.local_ ⟨0, .refImm, "r", 2⟩, .local_ ⟨1, .int .int32, "x", 3⟩,
    .instr ⟨"ADDR", [.ident "x", .ident "r"], 4⟩,
    .instr ⟨"MOV", [.integer 7, .deref "r"], 5⟩], 1⟩

/-- Its code. -/
def throughRefImmProgram : Program :=
  ⟨1, [], [⟨"Main", [], [reserveInstr 0 .refImm, reserveInstr 1 (.int .int32),
    ⟨.addr, [.slot (.local_ 1), .slot (.local_ 0)]⟩,
    ⟨.mov, [.imm (.int .int32 7), .slot (.derefLocal 0)]⟩]⟩]⟩

/-- Its tokens. -/
private def throughRefImmTokens : List Token :=
  [⟨.ident "FUNC", 1⟩, ⟨.ident "Main", 1⟩, ⟨.ident "LOCAL", 2⟩, ⟨.integer 0, 2⟩, ⟨.comma, 2⟩,
    ⟨.ident "REF_IMM", 2⟩, ⟨.comma, 2⟩, ⟨.ident "r", 2⟩, ⟨.ident "LOCAL", 3⟩, ⟨.integer 1, 3⟩,
    ⟨.comma, 3⟩, ⟨.ident "INT32", 3⟩, ⟨.comma, 3⟩, ⟨.ident "x", 3⟩, ⟨.ident "ADDR", 4⟩,
    ⟨.ident "x", 4⟩, ⟨.comma, 4⟩, ⟨.ident "r", 4⟩, ⟨.ident "MOV", 5⟩, ⟨.integer 7, 5⟩,
    ⟨.comma, 5⟩, ⟨.ampersand, 5⟩, ⟨.ident "r", 5⟩, ⟨.ident "ENDF", 6⟩, ⟨.eof, 6⟩]

private theorem throughRefImm_tokens :
    tokenize .ascii throughRefImmSource = .ok throughRefImmTokens := (rfl)

theorem throughRefImm_frontend :
    frontend .ascii throughRefImmSource = .ok ⟨[], [], [], [throughRefImmFunction]⟩ :=
  frontend_eq throughRefImm_tokens rfl rfl

theorem throughRefImm_compiles :
    compileSource .ascii throughRefImmSource = .ok throughRefImmProgram :=
  (compileSource_eq throughRefImm_frontend).trans rfl

theorem throughRefImm_declares :
    ProgramAst.Declares ⟨[], [], [], [throughRefImmFunction]⟩ 0 0 .refImm :=
  ⟨throughRefImmFunction, ⟨0, .refImm, "r", 2⟩, rfl, .head _, rfl, rfl⟩

theorem throughRefImm_addrOnly : throughRefImmProgram.AddrOnly 0 0 := by
  intro fd instr hfd hmem htarget
  cases hfd
  simp only [List.mem_cons, List.not_mem_nil, or_false] at hmem
  rcases hmem with rfl | rfl | rfl | rfl
  · exact .inr (.inl rfl)
  · rcases htarget with h | h <;> cases h
  · exact .inl rfl
  · rcases htarget with h | h <;> cases h

theorem refImm_read_only_throughRefImm :
    (∃ (fd : FunctionDef) (ip : Nat), throughRefImmProgram.functions[0]? = some fd ∧
      fd.instructions[ip]? = some (reserveInstr 0 .refImm)) ∧
    ∀ {ω : Type} (host : Host ω) (func : String) (args : Value) (e₀ e : Executor ω),
      (RunReaches host throughRefImmProgram func args e₀ e →
        ∀ cf below fd instr n, e.callStack = cf :: below → cf.funcIdx = 0 →
          Fetch throughRefImmProgram cf fd instr → instr.Aims n 0 →
          (instr.Refused host throughRefImmProgram n 0 (e.stepped cf below) ↔
            (∃ f, instr.StopsBefore host throughRefImmProgram n (e.stepped cf below) (.fault f)) ∨
            instr.opcode.resultIndex = some n ∧ instr.opcode.takesOut = false ∧
              (∀ s, ¬ instr.StopsBefore host throughRefImmProgram n (e.stepped cf below) s) ∧
              ReadOnly (cf.frame.get 0))) ∧
      (LocalReadOnly 0 0 e₀ →
        RunReachesBy host throughRefImmProgram (TurnSpares host throughRefImmProgram 0 0)
          func args e₀ e →
        LocalReadOnly 0 0 e ∧
        ∀ cf below fd instr n, e.callStack = cf :: below → cf.funcIdx = 0 →
          Fetch throughRefImmProgram cf fd instr → instr.Aims n 0 →
          (instr.Refused host throughRefImmProgram n 0 (e.stepped cf below) ↔
            (∃ f, instr.StopsBefore host throughRefImmProgram n (e.stepped cf below) (.fault f)) ∨
            instr.opcode.resultIndex = some n ∧ instr.opcode.takesOut = false ∧
              ∀ s, ¬ instr.StopsBefore host throughRefImmProgram n (e.stepped cf below) s)) :=
  refImm_read_only throughRefImm_frontend throughRefImm_compiles throughRefImm_declares
    throughRefImm_addrOnly

/-- The `MOV` writes 7 to `x`. -/
theorem throughRefImm_writes :
    compileSource .ascii throughRefImmSource = .ok throughRefImmProgram ∧
    ProgramAst.Declares ⟨[], [], [], [throughRefImmFunction]⟩ 0 0 .refImm ∧
    throughRefImmProgram.AddrOnly 0 0 ∧
    ∃ (e : Executor Unit) (cf : CallFrame) (fd : FunctionDef) (instr : Instruction),
      RunReaches Host.bare throughRefImmProgram "Main" (.struct []) (.new ()) e ∧
      e.callStack = [cf] ∧ Fetch throughRefImmProgram cf fd instr ∧ instr.Aims 1 0 ∧
      cf.frame.get 1 = some (.int .int32 0) ∧
      ∃ e' cf', executeInstruction Host.bare throughRefImmProgram instr (e.stepped cf []) =
          .ok .continue_ e' ∧
        e'.callStack = [cf'] ∧ cf'.frame.get 1 = some (.int .int32 7) := by
  refine ⟨throughRefImm_compiles, throughRefImm_declares, throughRefImm_addrOnly, ?_⟩
  let cf : CallFrame := { CallFrame.new 0 (.struct []) with
    ip := 3, frame := ⟨[some (.refMut false 1), some (.int .int32 0)]⟩ }
  have hrun : RunReaches Host.bare throughRefImmProgram "Main" (.struct []) (.new ())
      ⟨.new, [cf], ()⟩ := by
    refine ⟨⟨.new, [.new 0 (.struct [])], ()⟩, rfl, ?_⟩
    refine .head (show Step Host.bare throughRefImmProgram _ _ from rfl) ?_
    refine .head (show Step Host.bare throughRefImmProgram _ _ from rfl) ?_
    exact .single (show Step Host.bare throughRefImmProgram _ _ from rfl)
  exact ⟨⟨.new, [cf], ()⟩, cf, _, _, hrun, rfl, ⟨rfl, rfl⟩, ⟨rfl, .inl rfl⟩, rfl, _, _, rfl, rfl,
    rfl⟩

end Example

end Fasm
