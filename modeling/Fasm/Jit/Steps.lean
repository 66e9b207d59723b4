import Fasm.Jit.Simulation
import Mathlib.Data.List.Induction

/-!
# One step of native code for one of the interpreter

For every instruction that the JIT compiles: where the JIT agrees with the step of the
interpreter, the segment of the instruction takes native code to a state that stands for
the interpreter's next one.
-/

namespace Fasm

variable {ω : Type} {host : Host ω} {p : Program} {info : JitFnInfo} {abi : Abi}
  {code : NativeCode info.typeOf} {sh : Shadow} {v w : View ω} {s : Native info.typeOf}
  {instr : Instruction} {seg : Segment info.typeOf} {act : Action}

/-- Native code goes on to a state that stands for `w`. -/
def Follows (abi : Abi) (code : NativeCode info.typeOf) (sh : Shadow) (s : Native info.typeOf)
    (w : View ω) : Prop :=
  ∃ s', s.turn abi code = .next s' ∧ Simulates info code sh w s'

/-! ## Instructions that write a result -/

theorem Shadow.after_dest {n : Nat} {dst : Operand} (hn : instr.opcode.dest = some n)
    (hdst : instr.operands[n]? = some dst) : sh.after instr v w = sh.assign dst w := by
  unfold Shadow.after
  split
  case h_1 hop => rw [hop] at hn; cases hn
  case h_2 hop => rw [hop] at hn; cases hn
  case h_3 => rw [hn, Option.bind_some, hdst]

section Result

variable (abi) (hsim : Simulates info code sh v s) (hcode : code[v.frame.ip]? = some seg)
include hsim

/-- An operand that the instruction reads, and the JIT knows. -/
theorem operand_denotes {n : Nat} {op : Operand} {val : Typed info.typeOf}
    (hn : instr.operands[n]? = some op) (hval : readOp info op = some val)
    (hsrc : Sourced sh v.advance instr n) {a : Value} (ha : v.advance.Reads instr n a) :
    operandType info instr n = some val.1 ∧
      ∃ b, val.2.eval abi s.vars = some b ∧ Denotes val.1 b a := by
  obtain ⟨op', hop, ha⟩ := ha
  cases hn.symm.trans hop
  refine ⟨?_, readOp_denotes hsim hval ha (hsrc op a hn ha)⟩
  rw [operandType, hn, Option.bind_some, hval, Option.map_some]

variable {abi}
include hcode

theorem result_follows {n : Nat} {dst : Operand} {val : Typed info.typeOf}
    (hn : instr.opcode.dest = some n) (hdst : instr.operands[n]? = some dst)
    (hseg : writeOp info dst val = some seg) {b : BitVec val.1.width} {r : Value}
    (hb : val.2.eval abi s.vars = some b) (hr : Denotes val.1 b r) (hfit : Fitting info instr n r)
    (hw : v.advance.Writes instr n r w) : Follows abi code (sh.after instr v w) s w := by
  obtain ⟨op, hop, hw⟩ := hw
  cases hdst.symm.trans hop
  rw [Shadow.after_dest hn hdst]
  refine writeOp_simulates hsim hseg hcode hb hr (fun idx hidx => hfit idx ?_) hw
  rw [hdst, hidx]

/-- Arithmetic, bitwise operations and shifts. -/
theorem binop_follows {op : BinOp} (hseg : emitBinop info instr op = some seg)
    (hn : instr.opcode.dest = some 2)
    (hop : executeInstruction host p instr = binaryOp instr op.interp)
    (hag : BinopAgrees info sh v.advance instr op)
    (hexec : v.advance.exec host p instr = .ok act w) :
    act = .continue_ ∧ Follows abi code (sh.after instr v w) s w := by
  simp only [emitBinop, Option.bind_eq_bind, Option.bind_eq_some_iff] at hseg
  obtain ⟨op₀, h₀, x, hx, op₁, h₁, y, hy, inst, hinst, hseg⟩ := hseg
  split at hseg
  case isFalse => cases hseg
  case isTrue =>
    obtain ⟨dst, h₂, hseg⟩ := Option.bind_eq_some_iff.mp hseg
    obtain ⟨hact, a, b, r, ha, hb, hr, hw⟩ := View.exec_binaryOp hexec hop
    obtain ⟨hsrc₀, hsrc₁, hagree⟩ := hag
    obtain ⟨htype, xb, hxb, hxa⟩ := operand_denotes abi hsim h₀ hx hsrc₀ ha
    obtain ⟨-, yb, hyb, hya⟩ := operand_denotes abi hsim h₁ hy hsrc₁ hb
    obtain ⟨hops, hfit⟩ := hagree _ _ _ _ htype ha hb hr
    obtain ⟨res, hres, hden⟩ := BinOp.eval_denotes abi hinst hxa hya hr hops
    have heval := CVal.eval_binary inst hxb (eval_coerceTo hyb x.1)
    exact ⟨hact, result_follows hsim hcode hn h₂ hseg (heval.trans hres) hden hfit hw⟩

/-- Comparisons. -/
theorem cmp_follows {cc : IntCC} (hseg : emitCmp info instr cc = some seg)
    (hn : instr.opcode.dest = some 2)
    (hop : executeInstruction host p instr = binaryOp instr cc.interp)
    (hag : CompareAgrees info sh v.advance instr)
    (hexec : v.advance.exec host p instr = .ok act w) :
    act = .continue_ ∧ Follows abi code (sh.after instr v w) s w := by
  simp only [emitCmp, Option.bind_eq_bind, Option.bind_eq_some_iff] at hseg
  obtain ⟨op₀, h₀, x, hx, op₁, h₁, y, hy, hseg⟩ := hseg
  split at hseg
  case isFalse => cases hseg
  case isTrue =>
    obtain ⟨dst, h₂, hseg⟩ := Option.bind_eq_some_iff.mp hseg
    obtain ⟨hact, a, b, r, ha, hb, hr, hw⟩ := View.exec_binaryOp hexec hop
    obtain ⟨hsrc₀, hsrc₁, hagree⟩ := hag
    obtain ⟨htype, xb, hxb, hxa⟩ := operand_denotes abi hsim h₀ hx hsrc₀ ha
    obtain ⟨-, yb, hyb, hya⟩ := operand_denotes abi hsim h₁ hy hsrc₁ hb
    obtain ⟨hops, hfit⟩ := hagree _ _ _ htype ha hb
    obtain ⟨c, rfl⟩ := IntCC.interp_bool hr
    have heval := CVal.eval_icmp cc hxb (eval_coerceTo hyb x.1)
    exact ⟨hact, result_follows hsim hcode hn h₂ hseg heval (cmp_denotes hxa hya hr hops)
      (hfit c) hw⟩

end Result

/-! ## Instructions by opcode -/

/-- A jump goes where its label says. -/
theorem jumpTarget_eq {instrs : List Instruction} {t : U32} {target : Nat}
    (h : jumpTarget instrs (.labelTarget t) = some target) : target = t.toNat := by
  simp only [jumpTarget, labelTargetIp, Option.bind_eq_bind, Option.bind_some] at h
  split at h
  case isTrue => cases h; rfl
  case isFalse => cases h

theorem signExtend_eq_zero {n : Nat} (hn : n ≤ 64) {b : BitVec n} :
    b.signExtend 64 = 0 ↔ b = 0 := by
  have hint : (b.signExtend 64).toInt = b.toInt := BitVec.toInt_signExtend_of_le hn
  rw [← BitVec.toInt_inj, ← BitVec.toInt_inj, hint]
  simp

/-- A value is truthy if its register is not zero. -/
theorem isTruthy_denotes {t : JitType} (ht : t.isInt) {b : BitVec t.width} {a : Value}
    (h : Denotes t b a) : a.isTruthy = (b != 0) := by
  rw [denotes_int ht] at h
  rw [Bool.eq_iff_iff, bne_iff_ne, Ne, ← signExtend_eq_zero t.width_le]
  cases a with
  | null =>
    rw [← Option.some.inj h]
    decide
  | bool c =>
    rw [← Option.some.inj h]
    cases c <;> decide
  | int it n =>
    rw [← Option.some.inj h]
    exact isTruthy_int
  | _ => cases h

section Opcode

variable {operands : List Operand} {selfIdx : Nat} {instrs : List Instruction}
  (hsim : Simulates info code sh v s) (hcode : code[v.frame.ip]? = some seg)
include hsim hcode

theorem mov_follows
    (hseg : compileInstr info selfIdx instrs v.frame.ip ⟨.mov, operands⟩ = some seg)
    (hag : StepAgrees info sh v ⟨.mov, operands⟩ code instrs)
    (hexec : v.advance.exec host p ⟨.mov, operands⟩ = .ok act w) :
    act = .continue_ ∧ Follows abi code (sh.after ⟨.mov, operands⟩ v w) s w := by
  simp only [compileInstr, Option.bind_eq_bind, Option.bind_eq_some_iff] at hseg
  obtain ⟨op₀, h₀, x, hx, dst, h₁, hseg⟩ := hseg
  obtain ⟨hact, a, ha, hw⟩ := View.exec_mov hexec
  obtain ⟨hsrc, hfit⟩ := hag
  obtain ⟨-, b, hb, hden⟩ := operand_denotes abi hsim h₀ hx hsrc ha
  exact ⟨hact, result_follows hsim hcode rfl h₁ hseg hb hden (hfit a ha) hw⟩

theorem store_follows
    (hseg : compileInstr info selfIdx instrs v.frame.ip ⟨.store, operands⟩ = some seg)
    (hag : StepAgrees info sh v ⟨.store, operands⟩ code instrs)
    (hexec : v.advance.exec host p ⟨.store, operands⟩ = .ok act w) :
    act = .continue_ ∧ Follows abi code (sh.after ⟨.store, operands⟩ v w) s w := by
  simp only [compileInstr, Option.bind_eq_bind, Option.bind_eq_some_iff] at hseg
  obtain ⟨op₀, h₀, hseg⟩ := hseg
  cases op₀ with
  | imm i =>
    obtain ⟨dst, h₁, x, hx, hseg⟩ := by
      simpa only [Option.bind_eq_bind, Option.bind_eq_some_iff] using hseg
    obtain ⟨hact, hw⟩ := View.exec_store hexec h₀
    obtain ⟨hsrc, hfit⟩ := hag
    have ha : v.advance.Reads ⟨.store, operands⟩ 0 (immToValue i) := ⟨_, h₀, rfl⟩
    have hval : readOp info (.imm i) = some x := hx
    obtain ⟨-, b, hb, hden⟩ := operand_denotes abi hsim h₀ hval hsrc ha
    exact ⟨hact, result_follows hsim hcode rfl h₁ hseg hb hden (hfit _ ha) hw⟩
  | _ => cases hseg

theorem neg_follows
    (hseg : compileInstr info selfIdx instrs v.frame.ip ⟨.neg, operands⟩ = some seg)
    (hag : StepAgrees info sh v ⟨.neg, operands⟩ code instrs)
    (hexec : v.advance.exec host p ⟨.neg, operands⟩ = .ok act w) :
    act = .continue_ ∧ Follows abi code (sh.after ⟨.neg, operands⟩ v w) s w := by
  simp only [compileInstr, Option.bind_eq_bind, Option.bind_eq_some_iff] at hseg
  obtain ⟨op₀, h₀, x, hx, dst, h₁, hseg⟩ := hseg
  obtain ⟨hact, a, r, ha, hr, hw⟩ := View.exec_unaryOp hexec rfl
  obtain ⟨hsrc, hagree⟩ := hag
  obtain ⟨htype, b, hb, hden⟩ := operand_denotes abi hsim h₀ hx hsrc ha
  obtain ⟨hneg, hfit⟩ := hagree _ _ _ htype ha (orFault_eq_ok.mp hr)
  have hres := neg_denotes hden (orFault_eq_ok.mp hr) hneg
  refine ⟨hact, result_follows hsim hcode rfl h₁ hseg ?_ hres hfit hw⟩
  by_cases hint : x.1.isInt = true
  · simp only [hint, if_true]
    have hzero : (zeroVal x.1).eval abi s.vars = some 0 := rfl
    exact CVal.eval_binary .isub hzero hb
  · simp only [if_neg hint]
    exact CVal.eval_fneg hb

theorem not_follows
    (hseg : compileInstr info selfIdx instrs v.frame.ip ⟨.not, operands⟩ = some seg)
    (hag : StepAgrees info sh v ⟨.not, operands⟩ code instrs)
    (hexec : v.advance.exec host p ⟨.not, operands⟩ = .ok act w) :
    act = .continue_ ∧ Follows abi code (sh.after ⟨.not, operands⟩ v w) s w := by
  simp only [compileInstr, Option.bind_eq_bind, Option.bind_eq_some_iff] at hseg
  obtain ⟨op₀, h₀, x, hx, ones, hones, dst, h₁, hseg⟩ := hseg
  obtain ⟨hact, a, r, ha, hr, hw⟩ := View.exec_unaryOp hexec rfl
  obtain ⟨hsrc, hagree⟩ := hag
  obtain ⟨htype, b, hb, hden⟩ := operand_denotes abi hsim h₀ hx hsrc ha
  obtain ⟨hnot, hfit⟩ := hagree _ _ _ htype ha (orFault_eq_ok.mp hr)
  have hres := not_denotes hden (orFault_eq_ok.mp hr) hnot
  obtain ⟨-, rfl⟩ := iconst_eq_some hones
  exact ⟨hact, result_follows hsim hcode rfl h₁ hseg (CVal.eval_binary .bxor hb rfl) hres hfit hw⟩

theorem cast_follows
    (hseg : compileInstr info selfIdx instrs v.frame.ip ⟨.cast, operands⟩ = some seg)
    (hag : StepAgrees info sh v ⟨.cast, operands⟩ code instrs)
    (hexec : v.advance.exec host p ⟨.cast, operands⟩ = .ok act w) :
    act = .continue_ ∧ Follows abi code (sh.after ⟨.cast, operands⟩ v w) s w := by
  simp only [compileInstr, Option.bind_eq_bind, Option.bind_eq_some_iff] at hseg
  obtain ⟨op₀, h₀, x, hx, op₁, h₁, hseg⟩ := hseg
  obtain ⟨hact, a, t, r, ha, ht, hr, hw⟩ := View.exec_cast hexec
  cases h₁.symm.trans ht
  obtain ⟨tm, htm, dst, h₂, hseg⟩ := by
    simpa only [Option.bind_eq_bind, Option.bind_eq_some_iff] using hseg
  obtain ⟨hsrc, hagree⟩ := hag
  obtain ⟨-, b, hb, hden⟩ := operand_denotes abi hsim h₀ hx hsrc ha
  obtain ⟨hcast, hfit⟩ := hagree _ _ _ _ ht htm ha hr
  exact ⟨hact, result_follows hsim hcode rfl h₂ hseg (eval_coerceTo hb tm)
    (cast_denotes htm hden hr hcast) hfit hw⟩

theorem getField_follows
    (hseg : compileInstr info selfIdx instrs v.frame.ip ⟨.getField, operands⟩ = some seg)
    (hag : StepAgrees info sh v ⟨.getField, operands⟩ code instrs)
    (hexec : v.advance.exec host p ⟨.getField, operands⟩ = .ok act w) :
    act = .continue_ ∧ Follows abi code (sh.after ⟨.getField, operands⟩ v w) s w := by
  simp only [compileInstr, Option.bind_eq_bind, Option.bind_eq_some_iff] at hseg
  obtain ⟨op₀, h₀, op₁, h₁, hseg⟩ := hseg
  split at hseg
  case h_1 key =>
    split at hseg
    case isTrue hdecl =>
      obtain ⟨dst, h₂, hseg⟩ := Option.bind_eq_some_iff.mp hseg
      obtain ⟨hact, fields, r, ⟨op, hop, hread⟩, hget, hw⟩ := View.exec_getField hexec h₁
      cases h₀.symm.trans hop
      have hargs : v.frame.args = .struct fields := Except.ok.inj hread
      have hr : fieldOf v.frame.args key = r := by rw [hargs, fieldOf, hget, Option.getD_some]
      have hden := hsim.vars (.param key) hdecl
      have hfit := hag key h₁
      rw [hsim.args key, hr] at hden
      rw [hr] at hfit
      exact ⟨hact, result_follows hsim hcode rfl h₂ hseg rfl hden hfit hw⟩
    case isFalse => cases hseg
  case h_2 => cases hseg

theorem setField_follows
    (hseg : compileInstr info selfIdx instrs v.frame.ip ⟨.setField, operands⟩ = some seg)
    (hag : StepAgrees info sh v ⟨.setField, operands⟩ code instrs)
    (hexec : v.advance.exec host p ⟨.setField, operands⟩ = .ok act w)
    (hip : w.frame.ip = v.frame.ip + 1) (hargs : w.frame.args = v.frame.args) :
    act = .continue_ ∧ Follows abi code (sh.after ⟨.setField, operands⟩ v w) s w := by
  simp only [compileInstr, Option.bind_eq_bind, Option.bind_eq_some_iff] at hseg
  obtain ⟨op₀, h₀, op₁, h₁, hseg⟩ := hseg
  split at hseg
  case h_1 slot key =>
    simp only [Option.bind_eq_some_iff, Option.pure_def, Option.some.injEq] at hseg
    obtain ⟨op₂, h₂, x, hx, rfl⟩ := hseg
    obtain ⟨hact, a, hread⟩ := View.exec_setField hexec
    obtain ⟨-, b, hb, hden⟩ := operand_denotes abi hsim h₂ hx hag hread
    have hat : code[s.ip]? = some (.value x.2) := hsim.ip_eq.symm ▸ hcode
    refine ⟨hact, _, by simp only [Native.turn, hat, hb]; rfl, ?_⟩
    have hstored : (Shadow.after sh ⟨.setField, operands⟩ v w).fields =
        Function.update sh.fields v.frame.ip (some a) := by
      obtain ⟨op, hop, hread⟩ := hread
      simp only [Shadow.after, hop, Option.bind_some, hread, Except.toOption]
    refine ⟨by rw [hip, ← hsim.ip_eq], hsim.vars, fun {q t a' val} hq hval => ?_, ?_⟩
    · rw [hstored] at hval
      by_cases hqip : q = v.frame.ip
      · subst hqip
        rw [Function.update_self] at hval
        cases hcode.symm.trans hq
        cases hval
        simp only [hsim.ip_eq, Function.update_self]
        rw [BitVec.setWidth_setWidth_of_le b x.1.width_le, BitVec.setWidth_eq]
        exact hden
      · rw [Function.update_of_ne hqip] at hval
        simp only [hsim.ip_eq, Function.update_of_ne hqip]
        exact hsim.fields hq hval
    · intro k
      rw [hargs]
      exact hsim.args k
  case h_2 => cases hseg

theorem jmp_follows
    (hseg : compileInstr info selfIdx instrs v.frame.ip ⟨.jmp, operands⟩ = some seg)
    (hag : StepAgrees info sh v ⟨.jmp, operands⟩ code instrs)
    (hexec : v.advance.exec host p ⟨.jmp, operands⟩ = .ok act w) :
    ∃ t, act = .jump t ∧ ∀ w' : View ω, w'.frame.ip = t → w'.frame.args = v.frame.args →
      Follows abi code sh s w' := by
  simp only [compileInstr, Option.bind_eq_bind, Option.bind_eq_some_iff, Option.pure_def,
    Option.some.injEq] at hseg
  obtain ⟨op, hlast, target, htarget, rfl⟩ := hseg
  obtain ⟨t, h₀, hact⟩ := View.exec_jmp hexec
  have hop : op = .labelTarget t := by
    have hagree : operands.head? = operands.getLast? := hag
    rw [List.head?_eq_getElem?, h₀, hlast] at hagree
    exact (Option.some.inj hagree).symm
  subst hop
  have ht : target = t.toNat := jumpTarget_eq htarget
  subst ht
  refine ⟨_, hact, fun w' hip hargs => ⟨_, ?_, hsim.skip hip hargs⟩⟩
  rw [← hsim.ip_eq] at hcode
  simp only [Native.turn, hcode]

/-- Branches take the same way. -/
theorem branch_follows {cc : IntCC} {taken : Bool}
    (hseg : emitBranch info instrs instr cc = some seg)
    (hop : executeInstruction host p instr = condJump instr taken)
    (hcc : ∀ {n : Nat} (b : BitVec n), cc.eval b 0 = true ↔ (b != 0) = taken)
    (hsrc : Sourced sh v.advance instr 0) (hexec : v.advance.exec host p instr = .ok act w) :
    ∃ t, (act = .jump t ∨ act = .continue_ ∧ t = v.frame.ip + 1) ∧
      ∀ w' : View ω, w'.frame.ip = t → w'.frame.args = v.frame.args →
        Follows abi code sh s w' := by
  simp only [emitBranch, Option.bind_eq_bind, Option.bind_eq_some_iff] at hseg
  obtain ⟨op₀, h₀, x, hx, op₁, h₁, target, htarget, hseg⟩ := hseg
  split at hseg
  case isFalse => cases hseg
  case isTrue hint =>
    cases hseg
    obtain ⟨a, t, ha, ht, hact⟩ := View.exec_condJump hexec hop
    cases h₁.symm.trans ht
    obtain rfl := jumpTarget_eq htarget
    obtain ⟨-, b, hb, hden⟩ := operand_denotes abi hsim h₀ hx hsrc ha
    rw [← hsim.ip_eq] at hcode
    rw [isTruthy_denotes hint hden] at hact
    have hturn : s.turn abi code =
        .next { s with ip := if cc.eval b 0 then t.toNat else s.ip + 1 } := by
      simp only [Native.turn, hcode, hb]
    by_cases hb₀ : (b != 0) = taken
    · rw [if_pos ((hcc b).mpr hb₀)] at hturn
      rw [if_pos hb₀] at hact
      exact ⟨_, .inl hact, fun w' hip hargs => ⟨_, hturn, hsim.skip hip hargs⟩⟩
    · rw [if_neg (mt (hcc b).mp hb₀), hsim.ip_eq] at hturn
      rw [if_neg hb₀] at hact
      exact ⟨_, .inr ⟨hact, rfl⟩, fun w' hip hargs => ⟨_, hturn, hsim.skip hip hargs⟩⟩

end Opcode

/-! ## Tail calls -/

section Assign

variable {Γ : Variable → JitType} {α : Type} (key : α → U32) (bits : α → U64)

/-- Assign to several parameters, one after the other. -/
def assignParams (vars : Registers Γ) (l : List α) : Registers Γ :=
  l.foldl (fun vars a => Native.setVar vars (.param (key a)) ((bits a).setWidth _)) vars

/-- Only the parameters change. -/
theorem assignParams_of_ne {x : Variable} (hx : ∀ k, x ≠ .param k) (vars : Registers Γ)
    (l : List α) : assignParams key bits vars l x = vars x := by
  induction l generalizing vars with
  | nil => rfl
  | cons a l ih =>
    exact (ih _).trans (Native.setVar_of_ne (hx _) vars _)

/-- A parameter holds the last of its values. -/
theorem assignParams_param {k : U32} (vars : Registers Γ) {l : List α} (hk : k ∈ l.map key) :
    ∃ a ∈ l, key a = k ∧
      assignParams key bits vars l (.param k) = (bits a).setWidth (Γ (.param k)).width := by
  induction l using List.reverseRecOn with
  | nil => cases hk
  | append_singleton l a ih =>
    have hlast : assignParams key bits vars (l ++ [a]) =
        Native.setVar (assignParams key bits vars l) (.param (key a)) ((bits a).setWidth _) := by
      simp only [assignParams, List.foldl_append, List.foldl_cons, List.foldl_nil]
    rw [hlast]
    by_cases hka : key a = k
    · subst hka
      refine ⟨a, by simp, rfl, ?_⟩
      rw [Native.setVar_self]
    · have hne : Variable.param k ≠ .param (key a) := fun h => hka (Variable.param.inj h).symm
      obtain ⟨a', ha', hkey, hbits⟩ := ih (by
        rw [List.map_append, List.mem_append] at hk
        exact hk.resolve_right fun h => hka (List.mem_singleton.mp h).symm)
      refine ⟨a', List.mem_append_left _ ha', hkey, ?_⟩
      rw [Native.setVar_of_ne hne, hbits]

end Assign

/-- The last `SET_FIELD` in the text is one of the slot under the key. -/
theorem setfieldVal_spec {instrs : List Instruction} {slot : U8} {key : U32} {ip q : Nat}
    (h : setfieldVal instrs slot key ip = some q) :
    ∃ instr, instrs[q]? = some instr ∧ setsField slot key instr = true := by
  induction ip with
  | zero => cases h
  | succ n ih =>
    rw [setfieldVal] at h
    split at h
    case isTrue hset =>
      cases h
      cases hinstr : instrs[q]? with
      | none => rw [hinstr] at hset; cases hset
      | some instr =>
        rw [hinstr] at hset
        exact ⟨instr, rfl, hset⟩
    case isFalse => exact ih h

/-- A declared parameter is one of the parameters. -/
theorem mem_params {key : U32} (h : (info.paramType key).isSome) :
    key ∈ info.params.map Prod.fst := by
  obtain ⟨t, ht⟩ := Option.isSome_iff_exists.mp h
  obtain ⟨l₁, l₂, hl, -⟩ := List.lookup_eq_some_iff.mp ht
  rw [← List.mem_reverse, ← List.map_reverse, hl]
  simp

theorem tailArg_key {instrs : List Instruction} {slot : U8} {ip : Nat} {key : U32}
    {arg : U32 × Nat} (h : tailArg info instrs slot ip key = some arg) : arg.1 = key := by
  simp only [tailArg, Option.bind_eq_bind, Option.bind_eq_some_iff] at h
  obtain ⟨q, -, instr, -, op, -, x, -, h⟩ := h
  split at h
  case isTrue => cases h; rfl
  case isFalse => cases h

/-- The arguments of a tail call, one for each parameter. -/
theorem tailArgs_spec {instrs : List Instruction} {slot : U8} {ip : Nat}
    {params : List (U32 × JitType)} {args : List (U32 × Nat)}
    (h : params.mapM (fun x => tailArg info instrs slot ip x.1) = some args) :
    args.map Prod.fst = params.map Prod.fst ∧
      ∀ a ∈ args, tailArg info instrs slot ip a.1 = some a := by
  constructor
  · symm
    rw [← List.forall₂_eq_eq_eq, List.forall₂_map_left_iff, List.forall₂_map_right_iff]
    exact (forall₂_of_mapM h).imp fun x a hx => (tailArg_key hx).symm
  · intro a ha
    obtain ⟨x, -, hx⟩ := exists_of_mem_mapM h ha
    rw [tailArg_key hx]
    exact hx

section TailCall

variable {func : FunctionDef} {operands : List Operand} {selfIdx : Nat}
  (hsim : Simulates info code sh v s) (hcompiled : compileFn info func selfIdx = some code)
include hsim hcompiled

variable (abi) in
/-- What a tail call passes for one parameter is what the `SET_FIELD` has stored. -/
theorem taken_denotes {slot : U8} {key : U32} {q : Nat} {arg : U32 × Nat} {val : Value}
    (harg : tailArg info func.instructions slot v.frame.ip key = some arg)
    (hq : setfieldVal func.instructions slot key v.frame.ip = some q)
    (hdom : code.dominates q v.frame.ip) (hval : sh.fields q = some val) :
    arg = (key, q) ∧ Denotes (info.typeOf (.param key))
      ((s.taken abi code q).setWidth (info.typeOf (.param key)).width) val := by
  simp only [tailArg, hq, Option.bind_eq_bind, Option.bind_some, Option.bind_eq_some_iff] at harg
  obtain ⟨instr, hinstr, op, hop, x, hx, harg⟩ := harg
  split at harg
  case isFalse => cases harg
  case isTrue htype =>
    cases harg
    obtain ⟨instr', hinstr', hset⟩ := setfieldVal_spec hq
    cases hinstr.symm.trans hinstr'
    obtain ⟨seg, hseg, hcompile⟩ := code_at hcompiled hinstr
    simp only [setsField, Bool.and_eq_true, beq_iff_eq] at hset
    obtain ⟨⟨hopcode, h₀⟩, h₁⟩ := hset
    simp only [compileInstr, hopcode, h₀, h₁, hop, hx, Option.bind_eq_bind, Option.bind_some,
      Option.pure_def, Option.some.injEq] at hcompile
    subst hcompile
    refine ⟨rfl, ?_⟩
    rw [Native.taken, hsim.ip_eq, if_pos hdom]
    have hden := hsim.fields hseg hval
    rw [htype] at hden
    exact hden

variable (abi) in
/-- The turn of a tail call assigns to the parameters and to nothing else. -/
theorem tailCall_turn
    (hinstr : func.instructions[v.frame.ip]? = some ⟨.tailCall, operands⟩) :
    ∃ i slot s', operands[0]? = some (.funcRef i) ∧ i.toNat = selfIdx ∧
      operands[1]? = some (.slot (.local_ slot)) ∧ s.turn abi code = .next s' ∧ s'.ip = 0 ∧
      s'.vals = s.vals ∧ (∀ x, (∀ k, x ≠ .param k) → s'.vars x = s.vars x) ∧
      ∀ key q val, (info.paramType key).isSome →
        setfieldVal func.instructions slot key v.frame.ip = some q →
        code.dominates q v.frame.ip → sh.fields q = some val →
        Denotes (info.typeOf (.param key)) (s'.vars (.param key)) val := by
  obtain ⟨seg, hcode, hseg⟩ := code_at hcompiled hinstr
  simp only [compileInstr, Option.bind_eq_bind, Option.bind_eq_some_iff] at hseg
  obtain ⟨op₀, h₀, op₁, h₁, hseg⟩ := hseg
  split at hseg
  case h_2 => cases hseg
  case h_1 i slot =>
    split at hseg
    case isFalse => cases hseg
    case isTrue hself =>
      simp only [Option.bind_eq_some_iff, Option.pure_def, Option.some.injEq] at hseg
      obtain ⟨largs, hlargs, rfl⟩ := hseg
      obtain ⟨hkeys, hmem⟩ := tailArgs_spec hlargs
      have hturn : s.turn abi code =
          .next { s with ip := 0, vars := Native.passArgs (s.taken abi code) s.vars largs } := by
        rw [← hsim.ip_eq] at hcode
        simp only [Native.turn, hcode]
      refine ⟨i, slot, _, h₀, hself, h₁, hturn, rfl, rfl, ?_, ?_⟩
      · rintro x hx
        exact assignParams_of_ne Prod.fst (s.taken abi code ∘ Prod.snd) hx s.vars largs
      · rintro key q val hkey hq hdom hval
        obtain ⟨a, ha, rfl, hbits⟩ := assignParams_param Prod.fst (s.taken abi code ∘ Prod.snd)
          s.vars (hkeys ▸ mem_params hkey)
        obtain ⟨hpair, hden⟩ := taken_denotes abi hsim hcompiled (hmem a ha) hq hdom hval
        have hpass : Native.passArgs (s.taken abi code) s.vars largs (.param a.1) =
            (s.taken abi code q).setWidth _ := hbits.trans (by rw [hpair]; rfl)
        show Denotes _ (Native.passArgs _ _ _ _) val
        rw [hpass]
        exact hden

theorem tailCall_follows
    (hinstr : func.instructions[v.frame.ip]? = some ⟨.tailCall, operands⟩)
    (hag : StepAgrees info sh v ⟨.tailCall, operands⟩ code func.instructions)
    (hexec : v.advance.exec host p ⟨.tailCall, operands⟩ = .ok act w) :
    ∃ args, act = .tailCall selfIdx args ∧ ∀ w' : View ω, w'.frame.ip = 0 → w'.frame.args = args →
      Follows abi code (sh.after ⟨.tailCall, operands⟩ v w') s w' := by
  obtain ⟨i, args, h₀, hargs, rfl⟩ := View.exec_tailCall hexec
  obtain ⟨i', slot, s', h₀', hself, h₁, hturn, hs', hvals, hkeep, hparams⟩ :=
    tailCall_turn abi hsim hcompiled hinstr
  cases h₀.symm.trans h₀'
  refine ⟨args, by rw [hself], fun w' hip hargs' => ⟨s', hturn, hs'.trans hip.symm, ?_, ?_, ?_⟩⟩
  · intro x hx
    cases x with
    | param key =>
      obtain ⟨q, val, hq, hdom, hval, halike⟩ := hag slot args h₁ hargs key hx
      show Denotes _ _ (fieldOf w'.frame.args key)
      rw [hargs']
      exact (hparams key q val hx hq hdom hval).alike halike
    | slot idx =>
      rw [hkeep (.slot idx) nofun]
      exact hsim.vars (.slot idx) hx
    | ret =>
      rw [hkeep .ret nofun]
      exact hsim.vars .ret hx
  · intro q t x val hq hval
    rw [hvals]
    exact hsim.fields hq hval
  · intro key
    rfl

end TailCall

/-! ## Every instruction -/

section Step

variable {func : FunctionDef} {idx : Nat} {v' : View ω}

/-- An instruction that is no control flow goes on. -/
theorem act_of_goesOn (hexec : v.exec host p instr = .ok act w)
    (hop : instr.opcode.isControl = false) : act = .continue_ := by
  have hyields := View.exec_yields host p instr v hexec
  cases act with
  | continue_ => rfl
  | _ => grind [Instruction.Yields, Opcode.isControl]

/-- Going on leads to the view after the instruction. -/
theorem Follows.goOn (h : act = .continue_ ∧ Follows abi code (sh.after instr v w) s w)
    (hact : w.act host act = .stay v'.frame v'.shared) :
    Follows abi code (sh.after instr v v') s v' := by
  obtain ⟨rfl, h⟩ := h
  obtain ⟨frame, globals, world⟩ := v'
  cases hact
  exact h

theorem Follows.goTo (h : ∃ t, (act = .jump t ∨ act = .continue_ ∧ t = v.frame.ip + 1) ∧
      ∀ w' : View ω, w'.frame.ip = t → w'.frame.args = v.frame.args → Follows abi code sh s w')
    (hip : w.frame.ip = v.frame.ip + 1) (hargs : w.frame.args = v.frame.args)
    (hact : w.act host act = .stay v'.frame v'.shared) : Follows abi code sh s v' := by
  obtain ⟨t, (rfl | ⟨rfl, rfl⟩), h⟩ := h
  · obtain ⟨frame, globals, world⟩ := v'
    cases hact
    exact h _ rfl hargs
  · obtain ⟨frame, globals, world⟩ := v'
    cases hact
    exact h _ hip hargs

variable (hcompiled : compileFn info func idx = some code)
include hcompiled

/-- What native code does for one instruction of the interpreter. -/
theorem exec_follows (hsim : Simulates info code sh v s)
    (hinstr : func.instructions[v.frame.ip]? = some instr)
    (hag : StepAgrees info sh v instr code func.instructions)
    (hexec : v.advance.exec host p instr = .ok act w) (hjit : host.jit = none)
    (hact : w.act host act = .stay v'.frame v'.shared) :
    Follows abi code (sh.after instr v v') s v' := by
  obtain ⟨op, operands⟩ := instr
  obtain ⟨seg, hcode, hseg⟩ := code_at hcompiled hinstr
  have hip : w.frame.ip = v.frame.ip + 1 := exec_ip hexec
  have hargs : w.frame.args = v.frame.args := exec_args hexec
  cases op with
  | nop | tmpBlock | endTmp | release | reserve =>
    obtain rfl := act_of_goesOn hexec rfl
    cases hseg
    have hturn : s.turn abi code = .next { s with ip := s.ip + 1 } := by
      rw [← hsim.ip_eq] at hcode
      simp only [Native.turn, hcode]
    exact Follows.goOn ⟨rfl, _, hturn, hsim.skip (hsim.ip_eq ▸ hip) hargs⟩ hact
  | mov => exact Follows.goOn (mov_follows hsim hcode hseg hag hexec) hact
  | store => exact Follows.goOn (store_follows hsim hcode hseg hag hexec) hact
  | add | sub | mul | div | mod | and | or | xor | shl | shr =>
    exact Follows.goOn (binop_follows hsim hcode hseg rfl rfl hag hexec) hact
  | neg => exact Follows.goOn (neg_follows hsim hcode hseg hag hexec) hact
  | not => exact Follows.goOn (not_follows hsim hcode hseg hag hexec) hact
  | eq | neq | lt | lte | gt | gte =>
    exact Follows.goOn (cmp_follows hsim hcode hseg rfl rfl hag hexec) hact
  | cast => exact Follows.goOn (cast_follows hsim hcode hseg hag hexec) hact
  | getField => exact Follows.goOn (getField_follows hsim hcode hseg hag hexec) hact
  | setField => exact Follows.goOn (setField_follows hsim hcode hseg hag hexec hip hargs) hact
  | jmp =>
    obtain ⟨t, rfl, h⟩ := jmp_follows hsim hcode hseg hag hexec
    exact Follows.goTo ⟨t, .inl rfl, h⟩ hip hargs hact
  | jz =>
    have hcc : ∀ {n : Nat} (b : BitVec n), IntCC.equal.eval b 0 = true ↔ (b != 0) = false := by
      intro n b
      simp [IntCC.eval]
    exact Follows.goTo (branch_follows hsim hcode hseg rfl hcc hag hexec) hip hargs hact
  | jnz =>
    have hcc : ∀ {n : Nat} (b : BitVec n), IntCC.notEqual.eval b 0 = true ↔ (b != 0) = true := by
      intro n b
      simp [IntCC.eval]
    exact Follows.goTo (branch_follows hsim hcode hseg rfl hcc hag hexec) hip hargs hact
  | tailCall =>
    obtain ⟨args, rfl, h⟩ := tailCall_follows hsim hcompiled hinstr hag hexec
    simp only [View.act, jitDispatch, hjit] at hact
    obtain ⟨frame, globals, world⟩ := v'
    cases hact
    exact h _ rfl rfl
  | ret =>
    obtain ⟨-, rfl⟩ | ⟨a, -, rfl⟩ := View.exec_ret hexec
    · cases hact
    · cases hact
  | halt =>
    obtain rfl := pure_eq_ok (View.exec_run hexec)
    cases hact
  | _ => cases hseg

end Step

end Fasm
