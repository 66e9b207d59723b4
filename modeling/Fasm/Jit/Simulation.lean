import Fasm.Jit.Shadow
import Mathlib.Data.List.Forall2

/-!
# Native code in lock step with the interpreter

Native code and the interpreter take one step each per instruction.  As long as the JIT
agrees with the steps of the interpreter, every variable denotes what the shadow of the
run has for it.
-/

namespace Fasm

variable {ω : Type} {host : Host ω} {p : Program} {info : JitFnInfo} {abi : Abi}

/-! ## Compiled code -/

theorem forall₂_of_mapM {α β : Type} {f : α → Option β} {l : List α} {l' : List β}
    (h : l.mapM f = some l') : List.Forall₂ (fun a b => f a = some b) l l' := by
  induction l generalizing l' with
  | nil => cases h; exact .nil
  | cons a l ih =>
    rw [List.mapM_cons] at h
    obtain ⟨b, hb, h⟩ := Option.bind_eq_some_iff.mp h
    obtain ⟨bs, hbs, h⟩ := Option.bind_eq_some_iff.mp h
    cases h
    exact .cons hb (ih hbs)

theorem exists_of_mem_mapM {α β : Type} {f : α → Option β} {l : List α} {l' : List β}
    (h : l.mapM f = some l') {b : β} (hb : b ∈ l') : ∃ a ∈ l, f a = some b := by
  have hall := forall₂_of_mapM h
  clear h
  induction hall with
  | nil => cases hb
  | cons ha _ ih =>
    rcases List.mem_cons.mp hb with rfl | hb
    · exact ⟨_, List.mem_cons_self, ha⟩
    · obtain ⟨a, hmem, ha⟩ := ih hb
      exact ⟨a, List.mem_cons_of_mem _ hmem, ha⟩

section Code

variable {func : FunctionDef} {idx ip : Nat} {code : NativeCode info.typeOf} {instr : Instruction}
  (hcode : compileFn info func idx = some code)
include hcode

theorem code_forall₂ : List.Forall₂
    (fun x seg => compileInstr info idx func.instructions x.2 x.1 = some seg)
    func.instructions.zipIdx code := by
  unfold compileFn at hcode
  split at hcode
  · exact forall₂_of_mapM hcode
  · cases hcode

theorem code_length : code.length = func.instructions.length := by
  rw [← (code_forall₂ hcode).length_eq, List.length_zipIdx]

/-- The segment of an instruction. -/
theorem code_at (hinstr : func.instructions[ip]? = some instr) :
    ∃ seg, code[ip]? = some seg ∧ compileInstr info idx func.instructions ip instr = some seg := by
  have hlt : ip < func.instructions.length := (List.getElem?_eq_some_iff.mp hinstr).1
  have hlt' : ip < code.length := by rw [code_length hcode]; exact hlt
  have hall := List.forall₂_iff_get.mp (code_forall₂ hcode)
  have hget := hall.2 ip (by rw [List.length_zipIdx]; exact hlt) hlt'
  refine ⟨code[ip], List.getElem?_eq_getElem hlt', ?_⟩
  obtain ⟨_, hx⟩ := List.getElem?_eq_some_iff.mp hinstr
  simpa [hx] using hget

end Code

/-! ## The relation -/

/-- The variables that a function has. -/
def JitFnInfo.Declared (info : JitFnInfo) : Variable → Prop
  | .slot idx => (info.slotTypes.lookup idx).isSome
  | .param key => (info.paramType key).isSome
  | .ret => True

/-- Native code is where the interpreter is, and its variables denote what was last assigned. -/
structure Simulates (info : JitFnInfo) (code : NativeCode info.typeOf) (sh : Shadow) (v : View ω)
    (s : Native info.typeOf) : Prop where
  ip_eq : s.ip = v.frame.ip
  vars : ∀ x, info.Declared x → Denotes (info.typeOf x) (s.vars x) (sh.vars x)
  fields : ∀ {q t} {a : CVal info.typeOf t} {val}, code[q]? = some (.value a) →
    sh.fields q = some val → Denotes t ((s.vals q).setWidth t.width) val
  args : ∀ key, sh.vars (.param key) = fieldOf v.frame.args key

/-! ## Operands -/

theorem Denotes.alike {t : JitType} {b : BitVec t.width} {a a' : Value} (h : Denotes t b a')
    (ha : Alike a a') : Denotes t b a := by
  cases hn : a.number with
  | none => rw [ha.2 hn]; exact h
  | some n => exact h.of_number (ha.1.symm.trans hn) hn

theorem iconst_eq_some {Γ : Variable → JitType} {t : JitType} {n : U64} {x : CVal Γ t}
    (h : iconst t n = some x) : t.isInt ∧ x = .const t (n.setWidth t.width) := by
  unfold iconst at h
  split at h
  case isTrue ht =>
    cases h
    exact ⟨ht, rfl⟩
  case isFalse => cases h

theorem iconst_denotes {t : JitType} {n : U64} {a : CVal info.typeOf t} {v : Value}
    {vars : Registers info.typeOf} (h : iconst t n = some a) (hfits : t.Fits n)
    (hn : v.number = some n) : ∃ b, a.eval abi vars = some b ∧ Denotes t b v := by
  obtain ⟨ht, rfl⟩ := iconst_eq_some h
  refine ⟨_, rfl, (denotes_int ht).mpr ?_⟩
  rw [hn, hfits]

/-- Every integer immediate but a large `UINT32` fits into its register. -/
theorem imm_fits {t : IntTy} {n : BitVec t.width}
    (h : ∀ m, Immediate.int t n = .int .uint32 m → m.msb = false) :
    JitType.Fits (if t.width = 64 then .i64 else .i32) (asI64 t n) := by
  have hsigned (hs : t.signed) (hw : t.width ≤ JitType.i32.width) :
      JitType.Fits .i32 (asI64 t n) := by
    refine (JitType.Fits.of_toInt (m := .i32) (b := n.signExtend JitType.i32.width) ?_).2
    rw [asI64, if_pos hs, BitVec.toInt_signExtend_of_le hw,
      BitVec.toInt_signExtend_of_le t.width_le]
  have hunsigned (hs : t.signed = false) (hlt : n.toNat < 2 ^ 31) :
      JitType.Fits .i32 (asI64 t n) := by
    refine (JitType.Fits.of_toInt (m := .i32) (b := n.setWidth JitType.i32.width) ?_).2
    rw [asI64, if_neg (by simp [hs]), BitVec.toInt_setWidth, BitVec.toInt_setWidth]
    change (n.toNat : Int).bmod (2 ^ 32) = _
    rw [Int.bmod_eq_of_le (by omega) (by omega), Int.bmod_eq_of_le (by omega) (by omega)]
  cases t with
  | int64 | uint64 => exact BitVec.signExtend_eq _
  | int8 | int16 | int32 => exact hsigned rfl (by decide)
  | uint8 => exact hunsigned rfl (Nat.lt_trans n.isLt (by decide))
  | uint16 => exact hunsigned rfl (Nat.lt_trans n.isLt (by decide))
  | uint32 =>
    have hmsb := h n rfl
    refine hunsigned rfl ?_
    rw [BitVec.msb_eq_false_iff_two_mul_lt] at hmsb
    have : 2 * n.toNat < 2 ^ 32 := hmsb
    omega

/-- An immediate in its register. -/
theorem immToCv_denotes {hint : JitType} {i : Immediate} {val : Typed info.typeOf}
    {vars : Registers info.typeOf} (h : immToCv hint i = some val)
    (hi : ∀ n, i = .int .uint32 n → n.msb = false) :
    ∃ b, val.2.eval abi vars = some b ∧ Denotes val.1 b (immToValue i) := by
  cases i with
  | bool b =>
    rw [immToCv, Option.map_eq_some_iff] at h
    obtain ⟨a, ha, rfl⟩ := h
    have hfits : JitType.i32.Fits (if b then 1 else 0) := by cases b <;> decide
    exact iconst_denotes ha hfits rfl
  | int t n =>
    obtain ⟨a, ha, rfl⟩ := Option.map_eq_some_iff.mp h
    exact iconst_denotes ha (imm_fits hi) rfl
  | float32 f => cases h; exact ⟨f, rfl, rfl⟩
  | float64 f => cases h; exact ⟨f, rfl, rfl⟩
  | null =>
    obtain ⟨a, ha, rfl⟩ := Option.map_eq_some_iff.mp h
    have hzero : hint.Fits 0 := by cases hint <;> decide
    exact iconst_denotes ha hzero rfl
  | str s => cases h

theorem convertBits_self (t : JitType) (b : BitVec t.width) : convertBits t t b = b := by
  cases t <;> rfl

theorem eval_coerceTo {val : Typed info.typeOf} {vars : Registers info.typeOf}
    {b : BitVec val.1.width} (h : val.2.eval abi vars = some b) (t : JitType) :
    (coerceTo val t).eval abi vars = some (convertBits val.1 t b) := by
  obtain ⟨s, a⟩ := val
  unfold coerceTo
  split
  case isTrue hst =>
    cases hst
    rw [convertBits_self]
    exact h
  case isFalse => exact CVal.eval_convert t h

theorem iconst_eval {Γ : Variable → JitType} {t : JitType} {n : U64} {x : CVal Γ t}
    (h : iconst t n = some x) (vars : Registers Γ) : ∃ b, x.eval abi vars = some b := by
  obtain ⟨-, rfl⟩ := iconst_eq_some h
  exact ⟨_, rfl⟩

theorem immToCv_eval {Γ : Variable → JitType} {hint : JitType} {i : Immediate} {val : Typed Γ}
    (h : immToCv hint i = some val) (vars : Registers Γ) : ∃ b, val.2.eval abi vars = some b := by
  cases i with
  | bool b =>
    rw [immToCv, Option.map_eq_some_iff] at h
    obtain ⟨x, hx, rfl⟩ := h
    exact iconst_eval hx vars
  | int t n =>
    obtain ⟨x, hx, rfl⟩ := Option.map_eq_some_iff.mp h
    exact iconst_eval hx vars
  | null =>
    obtain ⟨x, hx, rfl⟩ := Option.map_eq_some_iff.mp h
    exact iconst_eval hx vars
  | float32 f => cases h; exact ⟨_, rfl⟩
  | float64 f => cases h; exact ⟨_, rfl⟩
  | str s => cases h

/-- Reading an operand does not trap. -/
theorem readOp_eval {info : JitFnInfo} {op : Operand} {val : Typed info.typeOf}
    (h : readOp info op = some val) (vars : Registers info.typeOf) :
    ∃ b, val.2.eval abi vars = some b := by
  unfold readOp at h
  split at h
  case h_1 =>
    split at h
    case isTrue => cases h; exact ⟨_, rfl⟩
    case isFalse => cases h
  case h_2 => cases h; exact ⟨_, rfl⟩
  case h_3 => exact immToCv_eval h vars
  case h_4 => cases h

section Operands

variable {code : NativeCode info.typeOf} {sh : Shadow} {v w : View ω} {s : Native info.typeOf}

/-- An operand that the JIT knows. -/
theorem readOp_denotes (hsim : Simulates info code sh v s) {op : Operand} {val : Typed info.typeOf}
    (hop : readOp info op = some val) {u : View ω} {a : Value}
    (ha : (u.plug []).readOperand op = .ok a) (hknow : sh.Knows op a) :
    ∃ b, val.2.eval abi s.vars = some b ∧ Denotes val.1 b a := by
  unfold readOp at hop
  split at hop
  case h_1 idx =>
    split at hop
    case isTrue hdecl =>
      cases hop
      exact ⟨_, rfl, (hsim.vars (.slot idx) hdecl).alike hknow⟩
    case isFalse => cases hop
  case h_2 =>
    cases hop
    exact ⟨_, rfl, (hsim.vars .ret trivial).alike hknow⟩
  case h_3 i =>
    cases ha
    refine immToCv_denotes hop ?_
    rintro n rfl
    exact hknow
  case h_4 => cases hop

/-- An assignment to a variable. -/
theorem setVar_denotes {x : Variable} {bits : BitVec (info.typeOf x).width} {r : Value}
    (h : ∀ y, info.Declared y → Denotes (info.typeOf y) (s.vars y) (sh.vars y))
    (hr : Denotes (info.typeOf x) bits r) :
    ∀ y, info.Declared y → Denotes (info.typeOf y) (Native.setVar s.vars x bits y)
      (Function.update sh.vars x r y) := by
  intro y hy
  by_cases hyx : y = x
  · subst hyx
    rw [Function.update_self, Native.setVar_self]
    exact hr
  · rw [Function.update_of_ne hyx, Native.setVar_of_ne hyx]
    exact h y hy

/-- What an instruction leaves, apart from `ip`, where it changes no variable. -/
theorem Simulates.skip (hsim : Simulates info code sh v s) {n : Nat} (hip : w.frame.ip = n)
    (hargs : w.frame.args = v.frame.args) :
    Simulates info code sh w { s with ip := n } where
  ip_eq := hip.symm
  vars := hsim.vars
  fields := hsim.fields
  args key := by rw [hargs]; exact hsim.args key

theorem Typed.as_eq_some {Γ : Variable → JitType} {val : Typed Γ} {t : JitType} {a : CVal Γ t}
    (h : val.as t = some a) : val = ⟨t, a⟩ := by
  obtain ⟨t', a'⟩ := val
  unfold Typed.as at h
  split at h
  case isTrue ht =>
    cases ht
    cases h
    rfl
  case isFalse => cases h

/-- A segment that defines a variable. -/
theorem defVar_simulates (hsim : Simulates info code sh v s) {x : Variable}
    {a : CVal info.typeOf (info.typeOf x)} (hcode : code[v.frame.ip]? = some (.defVar x a))
    {b : BitVec (info.typeOf x).width} {r : Value} (hb : a.eval abi s.vars = some b)
    (hr : Denotes (info.typeOf x) b r) (hip : w.frame.ip = v.frame.ip + 1)
    (hargs : w.frame.args = v.frame.args) (hparam : ∀ key, x ≠ .param key) :
    ∃ s', s.turn abi code = .next s' ∧
      Simulates info code { sh with vars := Function.update sh.vars x r } w s' := by
  refine ⟨{ s with ip := s.ip + 1, vars := Native.setVar s.vars x b }, ?_, ?_⟩
  · rw [← hsim.ip_eq] at hcode
    simp only [Native.turn, hcode, hb]
  · refine ⟨?_, setVar_denotes hsim.vars hr, hsim.fields, fun key => ?_⟩
    · rw [hip, ← hsim.ip_eq]
    · rw [hargs, ← hsim.args key]
      exact Function.update_of_ne (hparam key).symm r sh.vars

/-- A segment that writes a result which the register denotes. -/
theorem writeOp_simulates (hsim : Simulates info code sh v s) {op : Operand}
    {val : Typed info.typeOf} {seg : Segment info.typeOf} (hseg : writeOp info op val = some seg)
    (hcode : code[v.frame.ip]? = some seg) {b : BitVec val.1.width} {r : Value}
    (hb : val.2.eval abi s.vars = some b) (hr : Denotes val.1 b r)
    (hfit : ∀ idx, op = .slot (.local_ idx) → (info.typeOf (.slot idx)).Holds r)
    (hw : ExecM.writeOperand op r (v.advance.plug []) = .ok () (w.plug [])) :
    ∃ s', s.turn abi code = .next s' ∧ Simulates info code (sh.assign op w) w s' := by
  unfold writeOp at hseg
  split at hseg
  case h_1 idx =>
    split at hseg
    case isTrue hdecl =>
      cases hseg
      obtain rfl := View.writes_local hw
      simp only [Shadow.assign, Slots.get_set_self, Option.getD_some]
      exact defVar_simulates hsim hcode (eval_coerceTo hb _) (hr.convert (hfit idx rfl)) rfl rfl
        (by rintro _ ⟨⟩)
    case isFalse => cases hseg
  case h_2 =>
    obtain ⟨a, ha, rfl⟩ := Option.map_eq_some_iff.mp hseg
    obtain rfl := Typed.as_eq_some ha
    obtain rfl := View.writes_ret hw
    exact defVar_simulates hsim hcode hb hr rfl rfl (by rintro _ ⟨⟩)
  case h_3 => cases hseg

end Operands

end Fasm
