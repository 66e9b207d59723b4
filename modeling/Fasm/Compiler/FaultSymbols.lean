import Fasm.Compiler.GuardScope

/-!
# The fault symbols in the body of a `CATCH`

`$fault_code` and `$fault_index` are not stored: the first is the frame's `$ret`, in
which the fault path has left the code of the fault, and the second is the frame's
`ip`.  So the code is there until the frame gets another `$ret`, and the index is never
that of the instruction that has faulted, except where a function is so long that the
two agree modulo `2 ^ 32`.
-/

namespace Fasm

open Pushdown (Machine Config frameAt)

variable {ω : Type} {host : Host ω} {p : Program}

/-! ## Reading the symbols -/

section Read

variable (e : Executor ω) (cf : CallFrame) (below : List CallFrame)

/-- `$fault_code` reads the frame's `$ret`. -/
theorem readSlot_faultCode :
    (e.advance cf below).readSlot (.builtIn .faultCode) = .ok cf.retVal := rfl

/-- `$fault_index` reads the index of the instruction after the one that is executed. -/
theorem readSlot_faultIndex :
    (e.advance cf below).readSlot (.builtIn .faultIndex) =
      .ok (.uint32 (.ofNat 32 (cf.ip + 1))) := rfl

/-- It reads as `position` where the two agree modulo `2 ^ 32`. -/
theorem faultIndex_eq_iff (position : Nat) :
    (e.advance cf below).readSlot (.builtIn .faultIndex) = .ok (.uint32 (.ofNat 32 position)) ↔
      (cf.ip + 1) % 2 ^ 32 = position % 2 ^ 32 := by
  rw [readSlot_faultIndex]
  constructor
  · intro h
    have hbits : BitVec.ofNat 32 (cf.ip + 1) = BitVec.ofNat 32 position := by
      injection h with h
      injection h with h₁ h₂
    have hnat := congrArg BitVec.toNat hbits
    rwa [BitVec.toNat_ofNat, BitVec.toNat_ofNat] at hnat
  · intro h
    have hbits : BitVec.ofNat 32 (cf.ip + 1) = BitVec.ofNat 32 position := by
      apply BitVec.eq_of_toNat_eq
      rw [BitVec.toNat_ofNat, BitVec.toNat_ofNat]
      exact h
    rw [hbits]

end Read

/-! ## What keeps `$ret` -/

/-- The next instruction of the frame does not assign its `$ret`: it has no such destination, it
calls no function and no syscall, and it does not fault. -/
def View.KeepsRet (host : Host ω) (p : Program) (v : View ω) : Prop :=
  ∀ func instr, Fetch p v.frame func instr →
    ¬ instr.assignsRet ∧ instr.opcode ∉ [.call, .asyncCall, .tailCall] ∧
      ∀ f w, v.advance.exec host p instr ≠ .error (.fault f) w

/-- The frame at height `d` is on top and its next instruction does not assign its `$ret`. -/
def Executor.KeepsRetAt (host : Host ω) (p : Program) (d : Nat) (e : Executor ω) : Prop :=
  e.config.TopAt d fun cf s => View.KeepsRet host p ⟨cf, s.1, s.2⟩

theorem unwritten_retVal : Unwritten fun v : View ω => v.frame.retVal where
  locals _ _ := rfl
  shared _ _ _ := rfl
  tmp _ _ _ := rfl

/-- An instruction that does not assign `$ret` leaves it. -/
theorem exec_retVal {v : View ω} {instr : Instruction} {r : EStateM.Result Stop (View ω) Action}
    (h : v.advance.exec host p instr = r) (hno : ¬ instr.assignsRet) :
    (stateOf r).frame.retVal = v.frame.retVal := by
  by_cases hset : instr.opcode.setsGuard = false
  · by_cases htmp : instr.opcode.setsTmp = false
    · have hkeeps := executeInstruction_keeps unwritten_retVal host p hset htmp
        fun hret => absurd hret hno
      have hret := (View.exec_of_focused hkeeps v.advance).1
      rw [h] at hret
      exact hret
    obtain ⟨op, ops⟩ := instr
    subst h
    cases op with
    | tmpBlock => rfl
    | endTmp =>
      by_cases hfs : v.advance.frame.tmpFrames = []
      · rw [View.exec_endTmp_nil hfs]
        rfl
      · rw [View.exec_endTmp hfs]
        rfl
    | _ => exact absurd rfl htmp
  obtain ⟨op, ops⟩ := instr
  subst h
  cases op with
  | try_ =>
    rw [View.exec_try]
    split <;> rfl
  | catch_ => rfl
  | endTry => rfl
  | _ => exact absurd rfl hset

/-- Such an instruction is no call. -/
theorem View.KeepsRet.not_call {v w : View ω} {func : FunctionDef} {instr : Instruction} {i : Nat}
    {args : Value} (h : View.KeepsRet host p v) (hfetch : Fetch p v.frame func instr) :
    v.advance.exec host p instr ≠ .ok (.callFunc i args) w := by
  intro hexec
  obtain ⟨-, hop, -⟩ := h func instr hfetch
  apply hop
  rcases List.mem_cons.mp (View.exec_yields host p instr _ hexec).1 with hcall | hcall
  · rw [hcall]
    exact .head _
  · rw [List.mem_singleton.mp hcall]
    exact .tail _ (.head _)

/-- A turn at such an instruction leaves `$ret`, where the frame stays on top. -/
theorem retVal_stay {v : View ω} {f' : CallFrame} {s' : GlobalRegister × ω}
    (hmove : v.move host p = .stay f' s') (hkeeps : View.KeepsRet host p v) :
    f'.retVal = v.frame.retVal := by
  cases moves_of_eq hmove with
  | goOn hfetch hexec => exact exec_retVal hexec (hkeeps _ _ hfetch).1
  | @jump func instr w target hfetch hexec =>
    exact exec_retVal (r := .ok (.jump target) w) hexec (hkeeps _ _ hfetch).1
  | callJit hfetch hexec _ => exact absurd hexec (hkeeps.not_call hfetch)
  | tail hfetch hexec _ =>
    obtain ⟨-, hop, -⟩ := hkeeps _ _ hfetch
    refine absurd ?_ hop
    rw [(View.exec_yields host p _ _ hexec).1]
    exact .tail _ (.tail _ (.head _))
  | caught hfetch hexec _ => exact absurd hexec ((hkeeps _ _ hfetch).2.2 _ _)

/-- One step of a frame, after which a frame at the same height is on top. -/
theorem retVal_step {e e' : Executor ω} (hstep : Step host p e e') {cf cf' : CallFrame}
    {below below' : List CallFrame} (hstack : e.callStack = cf :: below)
    (hkeeps : View.KeepsRet host p ⟨cf, e.globals, e.world⟩)
    (hstack' : e'.callStack = cf' :: below') (hlen : below'.length = below.length) :
    cf'.retVal = cf.retVal := by
  obtain ⟨globals, stack, world⟩ := e
  obtain ⟨globals', stack', world'⟩ := e'
  obtain rfl : stack = cf :: below := hstack
  obtain rfl : stack' = cf' :: below' := hstack'
  cases step_iff.mp hstep with
  | stay hmove => exact retVal_stay hmove hkeeps
  | enter hmove _ =>
    cases moves_of_eq (v := ⟨cf, globals, world⟩) hmove with
    | call hfetch hexec _ => exact absurd hexec (hkeeps.not_call hfetch)
  | leave hmove =>
    -- the frame has returned, and its caller is on top
    exact absurd hlen (Nat.ne_of_lt (Nat.lt_succ_self _))

/-! ## From the fault to an instruction of the body -/

section Run

variable {func : String} {args : Value} {e₀ : Executor ω} {σ : Nat → Executor ω} {n m d : Nat}
  {fault : Fault} {g : TryGuard}

/-- Where the frame has not assigned its `$ret` since the fault, it holds the code of the fault. -/
theorem retVal_since (hrun : IsRun (fun e => start p func args e₀ = .next e) (Step host p) σ n)
    (hm : m < n) (hd : (σ m).Delivers host p d fault g)
    (hkeeps : ∀ j, m < j → j < n → (σ j).KeepsRetAt host p d) {cf : CallFrame}
    {below : List CallFrame} (hstack : (σ n).callStack = cf :: below) (hlen : below.length = d) :
    cf.retVal = .uint32 fault.code := by
  induction n generalizing cf below with
  | zero => exact absurd hm (Nat.not_lt_zero m)
  | succ n ih =>
    have hstep := hrun.step n (Nat.lt_succ_self n)
    rcases Nat.lt_succ_iff_lt_or_eq.mp hm with hlt | rfl
    · obtain ⟨cf₁, below₁, hstack₁, hlen₁, hret⟩ := hkeeps n hlt (Nat.lt_succ_self n)
      have hcode := ih (hrun.le (Nat.le_succ n)) hlt
        (fun j hj hjn => hkeeps j hj (Nat.lt_succ_of_lt hjn)) hstack₁ hlen₁
      rw [← hcode]
      exact retVal_step hstep hstack₁ hret hstack (hlen.trans hlen₁.symm)
    · obtain ⟨cf₁, cf', below₁, w, hstack₁, hlen₁, -, -, hnext⟩ := hd.next
      have hcf := Iteration.next.inj (hstep.symm.trans hnext)
      rw [hcf] at hstack
      cases hstack
      rfl

/-- **The fault symbols.**  At an instruction of the body of a `CATCH`, of a frame to which a
fault has been delivered, `$fault_code` reads the code of the fault as long as the frame has not
assigned its `$ret` since.  `$fault_index` reads the position, in the body of the `TRY`, of the
instruction that has faulted only where this agrees modulo `2 ^ 32` with the index of the
instruction that comes next in the code; in a function of at most `2 ^ 32` instructions that is
nowhere. -/
theorem fault_symbols {u : Unicode} {src : String} {ast : ProgramAst}
    (hast : frontend u src = .ok ast) (hp : compileSource u src = .ok p)
    (hrun : IsRun (fun e => start p func args e₀ = .next e) (Step host p) σ n) (hm : m < n)
    (hd : (σ m).Delivers host p d fault g) {cf₀ cf : CallFrame} {below₀ below : List CallFrame}
    (_ : (σ m).callStack = cf₀ :: below₀) (hstack : (σ n).callStack = cf :: below)
    (hlen : below.length = d) {f : Function} {b : TryBlock}
    (hf : ast.functions[cf.funcIdx]? = some f) (hb : b ∈ f.tryBlocks)
    (hbody : b.tryIp < cf₀.ip ∧ cf₀.ip < b.catchIp)
    (hcatch : b.catchIp < cf.ip ∧ cf.ip < b.endIp) :
    ((∀ j, m < j → j < n → (σ j).KeepsRetAt host p d) →
      ((σ n).advance cf below).readSlot (.builtIn .faultCode) = .ok (.uint32 fault.code)) ∧
    (((σ n).advance cf below).readSlot (.builtIn .faultIndex) =
        .ok (.uint32 (.ofNat 32 (cf₀.ip - (b.tryIp + 1)))) ↔
      (cf.ip + 1) % 2 ^ 32 = (cf₀.ip - (b.tryIp + 1)) % 2 ^ 32) ∧
    ∀ fd, p.functions[cf.funcIdx]? = some fd → fd.instructions.length ≤ 2 ^ 32 →
      ((σ n).advance cf below).readSlot (.builtIn .faultIndex) ≠
        .ok (.uint32 (.ofNat 32 (cf₀.ip - (b.tryIp + 1)))) := by
  refine ⟨fun hkeeps => ?_, faultIndex_eq_iff _ _ _ _, fun fd hfd hsize hread => ?_⟩
  · rw [readSlot_faultCode, retVal_since hrun hm hd hkeeps hstack hlen]
  · have heq := (faultIndex_eq_iff _ _ _ _).mp hread
    obtain ⟨f', hf', hcomp⟩ := emit_function (emit_of_compileSource hast hp) hfd
    cases hf.symm.trans hf'
    have hend : b.endIp < fd.instructions.length := by
      have hat := (hcomp.guard_iff rfl).mpr ⟨b, hb, .tail _ (.tail _ (.head _))⟩
      exact (List.getElem?_eq_some_iff.mp hat).1
    rw [Nat.mod_eq_of_lt (by omega), Nat.mod_eq_of_lt (by omega)] at heq
    omega

end Run

section Example

/-- `Main` reads the symbols of a division by zero, `$fault_code` after an assignment to `$ret`. -/
def readSymbolsSource : String :=
  "FUNC Main\nTRY\nDIV 1, 0, 0\nCATCH\nMOV $fault_index, 0\nMOV 9, $ret\nRET $fault_code\nENDTRY
ENDF"

private def readSymbolsTokens : List Token :=
  [⟨.ident "FUNC", 1⟩, ⟨.ident "Main", 1⟩, ⟨.ident "TRY", 2⟩, ⟨.ident "DIV", 3⟩, ⟨.integer 1, 3⟩,
    ⟨.comma, 3⟩, ⟨.integer 0, 3⟩, ⟨.comma, 3⟩, ⟨.integer 0, 3⟩, ⟨.ident "CATCH", 4⟩,
    ⟨.ident "MOV", 5⟩, ⟨.ident "$fault_index", 5⟩, ⟨.comma, 5⟩, ⟨.integer 0, 5⟩,
    ⟨.ident "MOV", 6⟩, ⟨.integer 9, 6⟩, ⟨.comma, 6⟩, ⟨.ident "$ret", 6⟩, ⟨.ident "RET", 7⟩,
    ⟨.ident "$fault_code", 7⟩, ⟨.ident "ENDTRY", 8⟩, ⟨.ident "ENDF", 9⟩, ⟨.eof, 9⟩]

/-- The syntax tree of `readSymbolsSource`. -/
def readSymbolsAst : ProgramAst :=
  ⟨[], [], [], [⟨"Main", [], [.tryBlock "__catch_2" "__endtry_2" [divInstr 3]
    [.instr ⟨"MOV", [.ident "$fault_index", .integer 0], 5⟩,
      .instr ⟨"MOV", [.integer 9, .ident "$ret"], 6⟩,
      .instr ⟨"RET", [.ident "$fault_code"], 7⟩] 2], 1⟩]⟩

/-- The program of `readSymbolsSource`. -/
def readSymbolsProgram : Program :=
  ⟨1, [], [⟨"Main", [], [⟨.try_, [.labelTarget 2, .labelTarget 6]⟩, divCode,
    ⟨.catch_, [.labelTarget 6]⟩, ⟨.mov, [.slot (.builtIn .faultIndex), .slot (.local_ 0)]⟩,
    ⟨.mov, [.imm (.int .int32 9), .slot (.builtIn .ret)]⟩,
    ⟨.ret, [.slot (.builtIn .faultCode)]⟩, ⟨.endTry, []⟩]⟩]⟩

private theorem readSymbols_tokens :
    tokenize .ascii readSymbolsSource = .ok readSymbolsTokens := (rfl)

theorem readSymbols_frontend : frontend .ascii readSymbolsSource = .ok readSymbolsAst :=
  frontend_eq readSymbols_tokens rfl rfl

theorem readSymbols_compiles : compileSource .ascii readSymbolsSource = .ok readSymbolsProgram :=
  (compileSource_eq readSymbols_frontend).trans rfl

/-- The frame of `Main` in the body of its `TRY`. -/
def readSymbolsGuarded : CallFrame :=
  { CallFrame.new 0 (.struct []) with ip := 1, tryGuard := some ⟨2, 6, [], []⟩ }

/-- The frame of `Main` from its `CATCH` on. -/
def readSymbolsCaught (ip : Nat) (frame : Frame) (retVal : Value) : CallFrame :=
  { CallFrame.new 0 (.struct []) with ip, frame, retVal }

/-- The run of `readSymbolsProgram`. -/
def readSymbolsRun : Nat → Executor Unit
  | 0 => ⟨.new, [.new 0 (.struct [])], ()⟩
  | 1 => ⟨.new, [readSymbolsGuarded], ()⟩
  | 2 => ⟨.new, [readSymbolsCaught 2 .new (.uint32 4)], ()⟩
  | 3 => ⟨.new, [readSymbolsCaught 3 .new (.uint32 4)], ()⟩
  | 4 => ⟨.new, [readSymbolsCaught 4 ⟨[some (.uint32 4)]⟩ (.uint32 4)], ()⟩
  | _ + 5 => ⟨.new, [readSymbolsCaught 5 ⟨[some (.uint32 4)]⟩ (.int .int32 9)], ()⟩

theorem readSymbolsRun_isRun :
    IsRun (fun e => start readSymbolsProgram "Main" (.struct []) (.new ()) = .next e)
      (Step Host.bare readSymbolsProgram) readSymbolsRun 5 where
  init := rfl
  step := by
    intro i hi
    obtain rfl | rfl | rfl | rfl | rfl : i = 0 ∨ i = 1 ∨ i = 2 ∨ i = 3 ∨ i = 4 := by omega
    all_goals rfl

/-- The division, the first instruction of the body of the `TRY`, faults. -/
theorem readSymbolsRun_delivers :
    (readSymbolsRun 1).Delivers Host.bare readSymbolsProgram 0 .divisionByZero ⟨2, 6, [], []⟩ :=
  ⟨⟨readSymbolsGuarded, [], _, divCode, _, rfl, ⟨rfl, rfl⟩, rfl⟩, readSymbolsGuarded, [], rfl, rfl,
    rfl⟩

theorem fault_symbols_readSymbols :
    ((readSymbolsRun 3).advance (readSymbolsCaught 3 .new (.uint32 4)) []).readSlot
      (.builtIn .faultCode) = .ok (.uint32 4) := by
  have hrun := readSymbolsRun_isRun.le (by decide : 3 ≤ 5)
  refine (fault_symbols readSymbols_frontend readSymbols_compiles hrun (by decide : 1 < 3)
    readSymbolsRun_delivers rfl rfl rfl rfl (.head _) ⟨by decide, by decide⟩
    ⟨by decide, by decide⟩).1 fun j hj hjn => ?_
  obtain rfl : j = 2 := by omega
  refine ⟨_, [], rfl, rfl, fun func instr hfetch => ?_⟩
  cases hfetch.func_eq
  cases hfetch.instr_eq
  refine ⟨?_, by decide, nofun⟩
  rintro (h | h)
  · cases h
  · simp at h

/-- In the run of the compiled program the division, at position `0` of the body of the `TRY`,
faults with code `4`.  In the body of the `CATCH`, `$fault_index` reads `4`, and after an
assignment to `$ret`, `$fault_code` reads what has been assigned. -/
theorem readSymbols_wrong :
    compileSource .ascii readSymbolsSource = .ok readSymbolsProgram ∧
      IsRun (fun e => start readSymbolsProgram "Main" (.struct []) (.new ()) = .next e)
        (Step Host.bare readSymbolsProgram) readSymbolsRun 5 ∧
      (readSymbolsRun 1).Delivers Host.bare readSymbolsProgram 0 .divisionByZero ⟨2, 6, [], []⟩ ∧
      (readSymbolsRun 4).callStack = [readSymbolsCaught 4 ⟨[some (.uint32 4)]⟩ (.uint32 4)] ∧
      Ends Host.bare readSymbolsProgram (readSymbolsRun 5) (.result (.ok (.int .int32 9)))
        ⟨.new, [], ()⟩ :=
  ⟨readSymbols_compiles, readSymbolsRun_isRun, readSymbolsRun_delivers, rfl, rfl⟩

end Example

end Fasm
