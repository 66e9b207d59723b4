import Fasm.Jit.Steps

/-!
# Runs of native code

A call of a compiled function enters native code in a state that stands for the fresh
frame of the interpreter, and native code stays in step with the run of the interpreter
for as long as the JIT agrees with its steps.
-/

namespace Fasm

open Pushdown (Machine)

variable {ω : Type} {host : Host ω} {p : Program} {idx : Nat} {func : FunctionDef}
  {entry : JitEntry} {abi : Abi} {args : Value}

/-! ## The interpreter -/

/-- The first `n` steps of the interpreter on a function, from a fresh frame. -/
abbrev Interprets (host : Host ω) (p : Program) (idx : Nat) (args : Value) (σ : Nat → View ω)
    (n : Nat) : Prop :=
  IsRun (fun v => v.frame = .new idx args) (fun v v' => Step host p (v.plug []) (v'.plug [])) σ n

/-- A call from the only frame is below the depth limit. -/
theorem apply_enter_nil (cf callee : CallFrame) (g : GlobalRegister × ω) :
    (machine host p).apply [] (.enter cf callee g) = .next ⟨[callee, cf], g⟩ := by
  refine Machine.apply_enter (machine host p) ?_ cf callee g
  show 1 < maxCallDepth
  decide

/-- A step that leaves one frame is a move that stays in it. -/
theorem move_of_step {v v' : View ω} (h : Step host p (v.plug []) (v'.plug [])) :
    v.move host p = .stay v'.frame v'.shared := by
  have hturn : (machine host p).apply [] (v.move host p) = .next ⟨[v'.frame], v'.shared⟩ :=
    Option.some.inj (Machine.step_iff.mp (step_iff.mp h))
  cases hmove : v.move host p with
  | stay cf g =>
    rw [hmove] at hturn
    cases hturn
    rfl
  | enter cf callee g =>
    rw [hmove, apply_enter_nil] at hturn
    cases hturn
  | _ =>
    rw [hmove] at hturn
    cases hturn

/-- The views of a run from `v`, for as long as it stays in one frame. -/
def View.iterate (host : Host ω) (p : Program) (v : View ω) : Nat → View ω
  | 0 => v
  | n + 1 =>
    match (v.iterate host p n).move host p with
    | .stay cf g => ⟨cf, g.1, g.2⟩
    | _ => v.iterate host p n

/-- The interpreter ends the call with the value `a`. -/
def Finishes (host : Host ω) (p : Program) (v : View ω) (a : Value) : Prop :=
  ∃ e, iterate host p (v.plug []) = .done (.ok a) e

/-- Without a guard, an instruction after which the run stays in the frame has succeeded. -/
theorem exec_of_step {v v' : View ω} {instr : Instruction} (hguard : v.frame.tryGuard = none)
    (hset : instr.opcode.setsGuard = false) (hfetch : Fetch p v.frame func instr)
    (hstep : Step host p (v.plug []) (v'.plug [])) :
    ∃ act w, v.advance.exec host p instr = .ok act w ∧
      w.act host act = .stay v'.frame v'.shared := by
  have hmove := move_of_step hstep
  rw [View.move_of_fetch host hfetch] at hmove
  match hexec : v.advance.exec host p instr with
  | .ok act w =>
    rw [hexec] at hmove
    exact ⟨act, w, rfl, hmove⟩
  | .error (.fault f) w =>
    have hg : w.frame.tryGuard = none := (exec_guard hexec hset).trans hguard
    simp only [hexec, View.settle, View.fault, hg] at hmove
    cases hmove
  | .error (.panic x) w =>
    rw [hexec] at hmove
    cases hmove
  | .error (.exit c) w =>
    rw [hexec] at hmove
    cases hmove

/-! ## Compiled functions -/

/-- The function at `idx` is eligible, and compiles to `entry`. -/
structure Compiles (p : Program) (idx : Nat) (func : FunctionDef) (entry : JitEntry) : Prop where
  eligible : (idx, entry.info) ∈ analyzeProgram p
  func_eq : p.functions[idx]? = some func
  code_eq : compileFn entry.info func idx = some entry.code

/-- What the cache holds is compiled from eligible functions. -/
theorem compileProgram_compiles {entries : List (Nat × JitEntry)}
    (h : compileProgram p (analyzeProgram p) = some entries) (hmem : (idx, entry) ∈ entries) :
    ∃ func, Compiles p idx func entry := by
  unfold compileProgram at h
  split at h
  case isTrue => cases h
  case isFalse =>
    obtain ⟨⟨i, info⟩, helig, hentry⟩ := exists_of_mem_mapM h hmem
    simp only [Option.bind_eq_bind, Option.bind_eq_some_iff, Option.pure_def, Option.some.injEq,
      Prod.mk.injEq] at hentry
    obtain ⟨func, hfunc, code, hcode, rfl, rfl⟩ := hentry
    exact ⟨func, helig, hfunc, hcode⟩

/-- Every parameter is of an integer type, and its argument is a number that fits into it. -/
def ArgsFit (info : JitFnInfo) (args : Value) : Prop :=
  ∀ x ∈ info.params, x.2.isInt ∧
    ∃ n, numericAsI64 (fieldOf args x.1) = some n ∧ x.2.Fits n

theorem zero_denotes (t : JitType) : Denotes t 0 t.zero := by
  cases t <;> rfl

/-- The check of `compile_fn` on the types of the parameters. -/
theorem Compiles.param_type (h : Compiles p idx func entry) {key : U32} {t : JitType}
    (hmem : (key, t) ∈ entry.info.params) : entry.info.typeOf (.param key) = t := by
  have hcode := h.code_eq
  unfold compileFn at hcode
  split at hcode
  case isTrue hall => exact beq_iff_eq.mp (List.all_eq_true.mp hall _ hmem)
  case isFalse => cases hcode

section Compiled

variable {info : JitFnInfo} {instrs : List Instruction} {ip : Nat} {instr : Instruction}
  {seg : Segment info.typeOf} (h : compileInstr info idx instrs ip instr = some seg)
include h

/-- Functions with a guard are not compiled. -/
theorem compileInstr_setsGuard : instr.opcode.setsGuard = false := by
  obtain ⟨op, operands⟩ := instr
  cases op with
  | try_ | catch_ | endTry => cases h
  | _ => rfl

/-- A tail call is one of the function itself. -/
theorem compileInstr_tailCall {i : U16} (hop : instr.opcode = .tailCall)
    (h₀ : instr.operands[0]? = some (.funcRef i)) : i.toNat = idx := by
  simp only [compileInstr, hop, h₀, Option.bind_eq_bind, Option.bind_some,
    Option.bind_eq_some_iff] at h
  obtain ⟨op₁, -, h⟩ := h
  split at h
  case h_1 hfunc =>
    cases hfunc
    split at h
    case isTrue hi => exact hi
    case isFalse => cases h
  case h_2 => cases h

end Compiled

/-! ## Entry -/

theorem exists_mapM {α β : Type} {f : α → Option β} {l : List α}
    (h : ∀ a ∈ l, ∃ b, f a = some b) : ∃ l', l.mapM f = some l' := by
  induction l with
  | nil => exact ⟨[], rfl⟩
  | cons a l ih =>
    obtain ⟨b, hb⟩ := h a List.mem_cons_self
    obtain ⟨bs, hbs⟩ := ih fun a' ha' => h a' (List.mem_cons_of_mem a ha')
    refine ⟨b :: bs, ?_⟩
    rw [List.mapM_cons, hb, hbs]
    rfl

theorem valueToI64_of_numeric {v : Value} {n : U64} (h : numericAsI64 v = some n) :
    valueToI64 v = some n := by
  cases v with
  | bool b => exact h
  | int t m => exact h
  | _ => cases h

/-- A number among the arguments is passed as it is. -/
theorem bind_valueToI64 {s : List (U32 × Value)} {key : U32} {n : U64}
    (h : numericAsI64 (fieldOf (.struct s) key) = some n) :
    (FasmStruct.get s key).bind valueToI64 = some n := by
  rw [fieldOf] at h
  cases hget : FasmStruct.get s key with
  | none => rw [hget] at h; cases h
  | some v => rw [hget] at h; exact valueToI64_of_numeric h

/-- Arguments that fit are passed. -/
theorem ArgsFit.packed {info : JitFnInfo} {s : List (U32 × Value)}
    (h : ArgsFit info (.struct s)) : ∃ packed, packArgs (.struct s) info.params = some packed := by
  refine exists_mapM fun x hx => ?_
  obtain ⟨-, n, hn, -⟩ := h x hx
  exact ⟨n, bind_valueToI64 hn⟩

theorem packArgs_length {params : List (U32 × JitType)} {packed : List U64}
    (h : packArgs args params = some packed) : params.length = packed.length := by
  cases args with
  | struct s => exact (forall₂_of_mapM h).length_eq
  | _ => cases h

/-- A parameter finds its argument. -/
theorem Compiles.enter_param (hcompiles : Compiles p idx func entry)
    (hfit : ArgsFit entry.info args) {packed : List U64}
    (hpacked : packArgs args entry.info.params = some packed) {key : U32}
    (hkey : (entry.info.paramType key).isSome) :
    Denotes (entry.info.typeOf (.param key)) ((entry.enter abi packed).vars (.param key))
      (fieldOf args key) := by
  cases args with
  | struct s =>
    have hall := List.forall₂_iff_zip.mp (forall₂_of_mapM hpacked)
    have hints : abiArgs abi (entry.info.params.map Prod.snd) packed = packed := by
      refine if_pos (List.all_eq_true.mpr ?_)
      rintro t ht
      obtain ⟨x, hx, rfl⟩ := List.mem_map.mp ht
      exact (hfit x hx).1
    have hkeys : key ∈ (entry.info.params.zip packed).map fun a => a.1.1 := by
      rw [show (fun a : (U32 × JitType) × U64 => a.1.1) = Prod.fst ∘ Prod.fst from rfl,
        ← List.map_map, List.map_fst_zip (Nat.le_of_eq hall.1)]
      exact mem_params hkey
    obtain ⟨⟨⟨k, t⟩, n⟩, ha, rfl, hbits⟩ :=
      assignParams_param (fun a : (U32 × JitType) × U64 => a.1.1) Prod.snd
        (fun _ => 0 : Registers entry.info.typeOf) hkeys
    obtain ⟨hint, m, hm, hfits⟩ := hfit (k, t) (List.of_mem_zip ha).1
    obtain rfl : n = m := Option.some.inj ((hall.2 ha).symm.trans (bind_valueToI64 hm))
    obtain rfl : entry.info.typeOf (.param k) = t := hcompiles.param_type (List.of_mem_zip ha).1
    have hvars : (entry.enter abi packed).vars (.param k) = n.setWidth _ := by
      rw [JitEntry.enter, hints]
      exact hbits
    rw [hvars, denotes_int hint, number_of_numeric hm, hfits]
  | _ => cases hpacked

theorem Compiles.enter_simulates (hcompiles : Compiles p idx func entry)
    (hfit : ArgsFit entry.info args) {packed : List U64}
    (hpacked : packArgs args entry.info.params = some packed) {v : View ω}
    (hv : v.frame = .new idx args) :
    Simulates entry.info entry.code (.start entry.info args) v (entry.enter abi packed) where
  ip_eq := by rw [hv]; rfl
  vars x hx := by
    have hzero : ∀ x, (∀ k, x ≠ .param k) → (entry.enter abi packed).vars x = 0 :=
      fun x hx => assignParams_of_ne (fun a : (U32 × JitType) × U64 => a.1.1) Prod.snd hx
        (fun _ => 0 : Registers entry.info.typeOf) _
    cases x with
    | param key => exact hcompiles.enter_param hfit hpacked hx
    | slot i =>
      rw [hzero (.slot i) nofun]
      exact zero_denotes _
    | ret =>
      rw [hzero .ret nofun]
      exact zero_denotes _
  fields _ hval := by cases hval
  args key := by rw [hv]; rfl

/-! ## Runs -/

section Runs

variable {σ : Nat → View ω} {n : Nat}

/-- The JIT agrees with the steps of a run before the `n`-th. -/
def RunAgrees (entry : JitEntry) (func : FunctionDef) (args : Value) (σ : Nat → View ω) (n : Nat) :
    Prop :=
  ∀ i < n, ∀ instr, func.instructions[(σ i).frame.ip]? = some instr →
    StepAgrees entry.info (Shadow.along entry.info func args σ i) (σ i) instr entry.code
      func.instructions

/-- The frame is one of the function, without a guard. -/
structure OfFunction (idx : Nat) (v : View ω) : Prop where
  funcIdx_eq : v.frame.funcIdx = idx
  guard_eq : v.frame.tryGuard = none

/-- A step that leaves one frame has fetched an instruction. -/
theorem fetch_of_step (hcompiles : Compiles p idx func entry) {v v' : View ω}
    (hof : OfFunction idx v) (hstep : Step host p (v.plug []) (v'.plug [])) :
    ∃ instr, func.instructions[v.frame.ip]? = some instr := by
  have hfunc : p.functions[v.frame.funcIdx]? = some func := hof.funcIdx_eq ▸ hcompiles.func_eq
  have hmove := move_of_step hstep
  cases hinstr : func.instructions[v.frame.ip]? with
  | some instr => exact ⟨instr, rfl⟩
  | none =>
    simp only [View.move, hfunc, hinstr] at hmove
    cases hmove

variable (hcompiles : Compiles p idx func entry) (hjit : host.jit = none)
include hcompiles hjit

theorem step_follows {v v' : View ω} {sh : Shadow} {s : Native entry.info.typeOf}
    (hof : OfFunction idx v) (hsim : Simulates entry.info entry.code sh v s) {instr : Instruction}
    (hinstr : func.instructions[v.frame.ip]? = some instr)
    (hag : StepAgrees entry.info sh v instr entry.code func.instructions)
    (hstep : Step host p (v.plug []) (v'.plug [])) :
    Follows abi entry.code (sh.after instr v v') s v' ∧ OfFunction idx v' := by
  have hfetch : Fetch p v.frame func instr := ⟨hof.funcIdx_eq ▸ hcompiles.func_eq, hinstr⟩
  obtain ⟨seg, -, hseg⟩ := code_at hcompiles.code_eq hinstr
  have hset := compileInstr_setsGuard hseg
  obtain ⟨act, w, hexec, hact⟩ := exec_of_step hof.guard_eq hset hfetch hstep
  refine ⟨exec_follows hcompiles.code_eq hsim hinstr hag hexec hjit hact, ?_⟩
  have hguard : w.frame.tryGuard = v.frame.tryGuard := exec_guard hexec hset
  have hidx : w.frame.funcIdx = v.frame.funcIdx := exec_funcIdx hexec
  obtain ⟨frame, globals, world⟩ := v'
  cases act with
  | continue_ | jump t =>
    cases hact
    exact ⟨hidx.trans hof.funcIdx_eq, hguard.trans hof.guard_eq⟩
  | tailCall i args' =>
    simp only [View.act, jitDispatch, hjit] at hact
    cases hact
    obtain ⟨hop, -, i', h₀, rfl⟩ := View.exec_yields host p instr _ hexec
    exact ⟨compileInstr_tailCall hseg hop h₀, hguard.trans hof.guard_eq⟩
  | callFunc i args' =>
    simp only [View.act, jitDispatch, hjit] at hact
    cases hact
  | _ => cases hact

variable (abi) in
/-- Native code is in step with a run on which the JIT agrees. -/
theorem run_simulates (hrun : Interprets host p idx args σ n) (hfit : ArgsFit entry.info args)
    {packed : List U64} (hpacked : packArgs args entry.info.params = some packed)
    (hag : RunAgrees entry func args σ n) :
    ∃ s, (∀ k, Native.run abi entry.code (n + k) (entry.enter abi packed) =
        Native.run abi entry.code k s) ∧
      Simulates entry.info entry.code (Shadow.along entry.info func args σ n) (σ n) s ∧
      OfFunction idx (σ n) := by
  induction n with
  | zero =>
    refine ⟨_, fun k => by rw [Nat.zero_add], hcompiles.enter_simulates hfit hpacked hrun.init, ?_⟩
    exact ⟨by rw [hrun.init]; rfl, by rw [hrun.init]; rfl⟩
  | succ n ih =>
    obtain ⟨s, hs, hsim, hof⟩ := ih (hrun.le n.le_succ) fun i hi => hag i (Nat.lt_succ_of_lt hi)
    have hstep := hrun.step n n.lt_succ_self
    obtain ⟨instr, hinstr⟩ := fetch_of_step hcompiles hof hstep
    obtain ⟨⟨s', hturn, hsim'⟩, hof'⟩ :=
      step_follows hcompiles hjit hof hsim hinstr (hag n n.lt_succ_self instr hinstr) hstep
    refine ⟨s', fun k => ?_, ?_, hof'⟩
    · rw [Nat.add_right_comm, Nat.add_assoc, hs, Native.run, hturn]
    · rw [Shadow.along, hinstr]
      exact hsim'

end Runs

/-! ## Returns -/

section Ends

variable {v : View ω} {a : Value}

/-- The interpreter returns by `RET`, by `HALT`, or at the end of the function. -/
theorem Finishes.cases (hfunc : p.functions[v.frame.funcIdx]? = some func) (hjit : host.jit = none)
    (h : Finishes host p v a) :
    func.instructions[v.frame.ip]? = none ∨
      (∃ operands, func.instructions[v.frame.ip]? = some ⟨.halt, operands⟩) ∨
      ∃ operands w, func.instructions[v.frame.ip]? = some ⟨.ret, operands⟩ ∧
        v.advance.exec host p ⟨.ret, operands⟩ = .ok (.return_ a) w := by
  obtain ⟨e, h⟩ := h
  rw [iterate_plug] at h
  have hmoves : Moves host p v (v.move host p) := moves v
  generalize v.move host p = m at h hmoves
  cases hmoves with
  | fallOff hf hi =>
    cases hf.symm.trans hfunc
    exact .inl hi
  | @ret _ instr _ _ hfetch hexec =>
    cases hfetch.func_eq.symm.trans hfunc
    have hop := View.exec_yields host p _ _ hexec
    obtain ⟨op, operands⟩ := instr
    cases hop
    cases h
    exact .inr (.inr ⟨operands, _, hfetch.instr_eq, hexec⟩)
  | @halt _ instr _ hfetch hexec =>
    cases hfetch.func_eq.symm.trans hfunc
    have hop := View.exec_yields host p _ _ hexec
    obtain ⟨op, operands⟩ := instr
    cases hop
    exact .inr (.inl ⟨operands, hfetch.instr_eq⟩)
  | tailJit hfetch hexec hj =>
    rw [jitDispatch, hjit] at hj
    cases hj
  | call hfetch hexec hj =>
    rw [ofMove, apply_enter_nil] at h
    cases h
  | _ => cases h

variable (abi) in
/-- Native code returns where the interpreter does. -/
theorem Finishes.turn (hcompiles : Compiles p idx func entry) (hjit : host.jit = none)
    (hof : OfFunction idx v) {s : Native entry.info.typeOf} (hip : s.ip = v.frame.ip)
    (h : Finishes host p v a) :
    ∃ bits : BitVec entry.info.retType.width, s.turn abi entry.code = .returned bits := by
  have hturn : ∀ {x : CVal entry.info.typeOf (entry.info.typeOf .ret)} {b},
      entry.code[v.frame.ip]? = some (.return_ x) → x.eval abi s.vars = some b →
        s.turn abi entry.code = .returned b := by
    rintro x b hcode hb
    simp only [Native.turn, hip, hcode, hb]
  rcases h.cases (hof.funcIdx_eq ▸ hcompiles.func_eq) hjit with
    hnone | ⟨operands, hinstr⟩ | ⟨operands, w, hinstr, -⟩
  · have hcode : entry.code[v.frame.ip]? = none := by
      rw [List.getElem?_eq_none_iff, code_length hcompiles.code_eq]
      exact List.getElem?_eq_none_iff.mp hnone
    exact ⟨0, by simp only [Native.turn, hip, hcode]; rfl⟩
  · obtain ⟨seg, hcode, hseg⟩ := code_at hcompiles.code_eq hinstr
    cases hseg
    exact ⟨0, hturn hcode rfl⟩
  · obtain ⟨seg, hcode, hseg⟩ := code_at hcompiles.code_eq hinstr
    simp only [compileInstr] at hseg
    split at hseg
    case h_1 =>
      cases hseg
      exact ⟨0, hturn hcode rfl⟩
    case h_2 op h₀ =>
      obtain ⟨val, hval, rfl⟩ := Option.map_eq_some_iff.mp hseg
      obtain ⟨b, hb⟩ : ∃ b, val.2.eval abi s.vars = some b := readOp_eval hval s.vars
      exact ⟨_, hturn hcode (eval_coerceTo hb _)⟩

/-- The value of a call whose native code returns. -/
theorem callJit_eq {packed : List U64} (hpacked : packArgs args entry.info.params = some packed)
    (hlen : packed.length ≤ 8) {n : Nat} {s : Native entry.info.typeOf}
    (hrun : ∀ k, Native.run abi entry.code (n + k) (entry.enter abi packed) =
      Native.run abi entry.code k s) {bits : BitVec entry.info.retType.width}
    (hturn : s.turn abi entry.code = .returned bits) {k : Nat} (hk : n < k) :
    entry.callJit abi args k =
      .returned (unpackRet (abiRet abi entry.info.retType bits) entry.info.retType) := by
  obtain ⟨m, rfl⟩ := Nat.exists_eq_add_of_lt hk
  have hret : Native.run abi entry.code (n + m + 1) (entry.enter abi packed) = .returned bits := by
    rw [Nat.add_assoc, hrun, Native.run, hturn]
  simp only [JitEntry.callJit, hpacked, if_neg (Nat.not_lt.mpr hlen), hret]

end Ends

end Fasm
