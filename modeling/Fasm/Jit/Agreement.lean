import Fasm.Jit.Runs

/-!
# The JIT and the interpreter agree on results

Where the interpreter returns an integer and the JIT agrees with its steps, native code
returns the same integer.  Both are taken as mathematical integers, since the JIT returns
`INT32` or `INT64` whatever the type of the interpreter's value.
-/

namespace Fasm

variable {ω : Type} {host : Host ω} {p : Program} {idx : Nat} {func : FunctionDef}
  {entry : JitEntry} {abi : Abi} {args : Value}

/-! ## Integers -/

/-- The integers of a machine type, which is signed. -/
def JitType.InRange (t : JitType) (n : Int) : Prop :=
  t.isInt ∧ -(2 ^ (t.width - 1)) ≤ n ∧ n < 2 ^ (t.width - 1)

section Integer

variable {t : JitType} {a : Value} {n : Int}

theorem number_of_integer (h : a.integer = some n) : a.number = some (.ofInt 64 n) := by
  cases a with
  | bool b =>
    cases h
    cases b <;> rfl
  | int it m =>
    cases h
    refine congrArg some ?_
    rw [asI64]
    split
    case isTrue => rfl
    case isFalse => exact BitVec.eq_of_toNat_eq (by simp)
  | _ => cases h

/-- A number in range survives wrapping. -/
theorem JitType.InRange.toInt_ofInt (h : t.InRange n) {w : Nat} (hw : t.width ≤ w) :
    (BitVec.ofInt w n).toInt = n := by
  have hpos := t.width_pos
  have hpow : (2 : Int) ^ (t.width - 1) ≤ 2 ^ (w - 1) := by
    exact_mod_cast Nat.pow_le_pow_right Nat.two_pos (Nat.sub_le_sub_right hw 1)
  obtain ⟨-, hlo, hhi⟩ := h
  exact BitVec.toInt_ofInt_eq_self (by omega) (by omega) (by omega)

theorem JitType.InRange.holds (h : t.InRange n) (ha : a.integer = some n) : t.Holds a := by
  refine ⟨.ofInt t.width n, (denotes_int h.1).mpr ?_⟩
  rw [number_of_integer ha]
  refine congrArg some (BitVec.eq_of_toInt_eq ?_)
  rw [BitVec.toInt_signExtend_of_le t.width_le, h.toInt_ofInt t.width_le,
    h.toInt_ofInt (Nat.le_refl _)]

/-- The register of an integer. -/
theorem Denotes.toInt {b : BitVec t.width} (hden : Denotes t b a) (ha : a.integer = some n)
    (h : t.InRange n) : b.toInt = n := by
  have hb := congrArg BitVec.toInt (hden.number_eq (number_of_integer ha))
  rwa [BitVec.toInt_signExtend_of_le t.width_le, h.toInt_ofInt t.width_le] at hb

/-- What a call gives back for a register. -/
theorem unpackRet_integer (b : BitVec t.width) :
    (unpackRet (abiRet abi t b) t).integer = if t.isInt then some b.toInt else none := by
  cases t with
  | i32 =>
    have hb : BitVec.setWidth 32 (BitVec.setWidth 64 b) = b :=
      (BitVec.setWidth_setWidth_of_le b (by decide)).trans (BitVec.setWidth_eq b)
    exact congrArg (fun x => some (BitVec.toInt x)) hb
  | i64 => exact congrArg (fun x => some (BitVec.toInt x)) (BitVec.setWidth_eq b)
  | f32 | f64 => rfl

theorem inRange_toInt (ht : t.isInt) (b : BitVec t.width) : t.InRange b.toInt :=
  ⟨ht, BitVec.le_toInt b, BitVec.toInt_lt⟩

end Integer

/-! ## Agreement -/

section Agreement

variable {σ : Nat → View ω} {n : Nat} {a : Value} {m : Int}

variable (abi) in
/-- The value that native code returns is the one of the interpreter. -/
theorem ret_denotes (hcompiles : Compiles p idx func entry) {v w : View ω} {sh : Shadow}
    {s : Native entry.info.typeOf} (hsim : Simulates entry.info entry.code sh v s)
    {operands : List Operand} (hinstr : func.instructions[v.frame.ip]? = some ⟨.ret, operands⟩)
    (hsrc : Sourced sh v.advance ⟨.ret, operands⟩ 0)
    (hexec : v.advance.exec host p ⟨.ret, operands⟩ = .ok (.return_ a) w) (hne : a ≠ .null)
    (hholds : entry.info.retType.Holds a) :
    ∃ bits : BitVec entry.info.retType.width, s.turn abi entry.code = .returned bits ∧
      Denotes entry.info.retType bits a := by
  obtain ⟨-, hact⟩ | ⟨a', hread, hact⟩ := View.exec_ret hexec
  · cases hact
    exact absurd rfl hne
  · cases hact
    obtain ⟨seg, hcode, hseg⟩ := code_at hcompiles.code_eq hinstr
    obtain ⟨op, h₀, hread'⟩ := id hread
    have h₀' : operands[0]? = some op := h₀
    simp only [compileInstr, h₀'] at hseg
    obtain ⟨val, hval, rfl⟩ := Option.map_eq_some_iff.mp hseg
    obtain ⟨b, hb, hden⟩ : ∃ b, val.2.eval abi s.vars = some b ∧ Denotes val.1 b _ :=
      readOp_denotes hsim hval hread' (hsrc op _ h₀ hread')
    refine ⟨_, ?_, hden.convert hholds⟩
    rw [← hsim.ip_eq] at hcode
    simp only [Native.turn, hcode, eval_coerceTo hb]
    rfl

/-- The JIT returns the integer of the interpreter, if the JIT agrees with the steps before and
the integer is one of the return type. -/
theorem callJit_agrees (abi : Abi) (hjit : host.jit = none) (hcompiles : Compiles p idx func entry)
    {s : List (U32 × Value)} (hfit : ArgsFit entry.info (.struct s))
    (hlen : entry.info.params.length ≤ 8) (hrun : Interprets host p idx (.struct s) σ n)
    (hag : RunAgrees entry func (.struct s) σ (n + 1)) {operands : List Operand}
    (hret : func.instructions[(σ n).frame.ip]? = some ⟨.ret, operands⟩)
    (hend : Finishes host p (σ n) a) (hint : a.integer = some m) :
    (∃ r, (∀ k > n, entry.callJit abi (.struct s) k = .returned r) ∧ r.integer = some m) ↔
      entry.info.retType.InRange m := by
  obtain ⟨packed, hpacked⟩ := hfit.packed
  have hlen' : packed.length ≤ 8 := by rwa [← packArgs_length hpacked]
  obtain ⟨s₁, hs₁, hsim, hof⟩ := run_simulates abi hcompiles hjit hrun hfit hpacked
    fun i hi => hag i (Nat.lt_succ_of_lt hi)
  constructor
  · rintro ⟨r, hr, hm⟩
    obtain ⟨bits, hturn⟩ := hend.turn abi hcompiles hjit hof hsim.ip_eq
    have hcall := callJit_eq hpacked hlen' hs₁ hturn n.lt_succ_self
    cases (hr (n + 1) n.lt_succ_self).symm.trans hcall
    rw [unpackRet_integer] at hm
    split at hm
    case isTrue ht =>
      cases hm
      exact inRange_toInt ht bits
    case isFalse => cases hm
  · intro hrange
    have hne : a ≠ .null := by
      rintro rfl
      cases hint
    have hfunc : p.functions[(σ n).frame.funcIdx]? = some func :=
      hof.funcIdx_eq ▸ hcompiles.func_eq
    rcases hend.cases hfunc hjit with hnone | ⟨_, hhalt⟩ | ⟨_, w, hinstr, hexec⟩
    · cases hret.symm.trans hnone
    · cases hret.symm.trans hhalt
    have hsrc := hag n n.lt_succ_self _ hinstr
    obtain ⟨bits, hturn, hden⟩ := ret_denotes abi hcompiles hsim hinstr hsrc hexec hne
      (hrange.holds hint)
    refine ⟨_, fun k hk => callJit_eq hpacked hlen' hs₁ hturn hk, ?_⟩
    rw [unpackRet_integer, if_pos hrange.1, hden.toInt hint hrange]

end Agreement

section Example

/-- A calling convention for examples; it matters only to functions with floats. -/
def Abi.bare : Abi := ⟨fun _ packed => packed, 0, fun _ => 0, false⟩

/-- Returns the successor of its parameter. -/
def successor : FunctionDef :=
  ⟨"Successor", [⟨7, .int .int64, "n", true⟩], [
    ⟨.getField, [.slot (.builtIn .args), .key 7, .slot (.builtIn .ret)]⟩,
    ⟨.add, [.slot (.builtIn .ret), .imm (.int .int64 1), .slot (.builtIn .ret)]⟩,
    ⟨.ret, [.slot (.builtIn .ret)]⟩]⟩

def successorEntry : JitEntry where
  info := ⟨[], [], [(7, .i64)], .i64⟩
  code := [.defVar .ret (.useVar (.param 7)),
    .defVar .ret (.binary .iadd (.useVar .ret) (.const .i64 1)), .return_ (.useVar .ret)]

theorem successor_compiles : Compiles ⟨1, [], [successor]⟩ 0 successor successorEntry where
  eligible := by decide
  func_eq := rfl
  code_eq := rfl

/-- The run of `Successor` on 41. -/
def successorRun : Nat → View Unit :=
  View.iterate Host.bare ⟨1, [], [successor]⟩
    ⟨.new 0 (.struct [(7, .int .int64 41)]), .new, ()⟩

theorem successorRun_interprets :
    Interprets Host.bare ⟨1, [], [successor]⟩ 0 (.struct [(7, .int .int64 41)]) successorRun 2 where
  init := rfl
  step := by
    intro i hi
    match i, hi with
    | 0, _ | 1, _ => exact rfl

theorem successorRun_agrees :
    RunAgrees successorEntry successor (.struct [(7, .int .int64 41)]) successorRun 3 := by
  intro i hi instr hinstr
  match i, hi with
  | 0, _ =>
    cases hinstr
    rintro key - idx ⟨⟩
  | 1, _ =>
    cases hinstr
    refine ⟨?_, ?_, ?_⟩
    · rintro op a ⟨⟩ ⟨⟩
      exact ⟨rfl, nofun⟩
    · rintro op a ⟨⟩ ⟨⟩
      trivial
    · rintro m a b r ⟨⟩ ⟨_, ⟨⟩, ⟨⟩⟩ ⟨_, ⟨⟩, ⟨⟩⟩ ⟨⟩
      exact ⟨rfl, nofun⟩
  | 2, _ =>
    cases hinstr
    rintro op a ⟨⟩ ⟨⟩
    exact ⟨rfl, nofun⟩

theorem successor_args : ArgsFit successorEntry.info (.struct [(7, .int .int64 41)]) := by
  rintro x hx
  obtain rfl := List.mem_singleton.mp hx
  exact ⟨rfl, 41, rfl, rfl⟩

theorem callJit_agrees_successor :
    (∃ r, (∀ k > 2, successorEntry.callJit .bare (.struct [(7, .int .int64 41)]) k = .returned r) ∧
        r.integer = some 42) ↔
      successorEntry.info.retType.InRange 42 :=
  callJit_agrees .bare rfl successor_compiles successor_args (by decide) successorRun_interprets
    successorRun_agrees rfl ⟨_, rfl⟩ rfl

/-- Returns the value with which its slot is reserved. -/
def reserved : FunctionDef :=
  ⟨"Reserved", [], [
    ⟨.reserve, [.slot (.local_ 0), .type (.int .int32), .imm (.int .int32 42)]⟩,
    ⟨.ret, [.slot (.local_ 0)]⟩]⟩

def reservedEntry : JitEntry := ⟨⟨[(0, .i32)], [], [], .i32⟩, [.nop, .return_ (.useVar (.slot 0))]⟩

/-- The JIT starts every slot at zero. -/
theorem callJit_reserved :
    Compiles ⟨1, [], [reserved]⟩ 0 reserved reservedEntry ∧
      (∃ e, runLoop Host.bare ⟨1, [], [reserved]⟩ 2 ⟨.new, [.new 0 (.struct [])], ()⟩ =
        .done (.ok (.int .int32 42)) e) ∧
      reservedEntry.callJit .bare (.struct []) 2 = .returned (.int .int32 0) :=
  ⟨⟨by decide, rfl, rfl⟩, ⟨_, rfl⟩, rfl⟩

end Example

end Fasm
