import Fasm.Compiler.Uses
import Fasm.Lib.Chain

/-!
# Names and `DEFINE`s

`ast_value_to_operand`, `resolve_u32` and `resolve_syscall_id` follow a name to its `DEFINE`,
and on as long as the value of that is a name again.  They differ in the names that they look
up and in what they make of the value at the end.
-/

namespace Fasm

/-- The value that a name stands for in a key or a syscall id. -/
def defineStep (defines : List (String × AstValue)) : AstValue → Option AstValue
  | .ident name => defines.lookup name
  | _ => none

/-- The number of the last value. -/
def u32End : AstValue → U32
  | .integer n => n.setWidth 32
  | .hexInt n => n.setWidth 32
  | _ => 0

/-- The syscall id of the last value. -/
def syscallEnd (ln : Nat) : AstValue → Except CompileFail U32
  | .integer n => .ok (n.setWidth 32)
  | .hexInt n => .ok (n.setWidth 32)
  | .ident name => lineError ln ("undefined DEFINE for syscall id '" ++ name ++ "'")
  | _ => lineError ln "expected syscall id"

/-- The value that a name stands for in a value operand: special symbols, names with a `t` in
front and locals are not looked up. -/
def valueStep (defines : List (String × AstValue)) (locals : List (String × U8)) :
    AstValue → Option AstValue
  | .ident name =>
    match builtInNames.lookup name with
    | some _ => none
    | none =>
      if name.toList.head? = some 't' then none
      else
        match locals.lookup name with
        | some _ => none
        | none => defines.lookup name
  | _ => none

/-- The operand of the last value. -/
def valueEnd (locals : List (String × U8)) : AstValue → Operand
  | .null => .imm .null
  | .true_ => .imm (.bool true)
  | .false_ => .imm (.bool false)
  | .integer n => .imm (.int .int32 (n.setWidth 32))
  | .hexInt n => .imm (.int .uint32 (n.setWidth 32))
  | .float f => .imm (.float64 f)
  | .str s => .imm (.str s)
  | .deref name =>
    match tmpIndex name with
    | some n => .slot (.derefTmp n)
    | none => .slot (.derefLocal ((locals.lookup name).getD 0))
  | .ident name =>
    match builtInNames.lookup name with
    | some b => .slot (.builtIn b)
    | none =>
      if name.toList.head? = some 't' then
        match tmpIndex name with
        | some n => .slot (.tmp n)
        | none => .slot (.local_ ((locals.lookup name).getD 0))
      else
        match locals.lookup name with
        | some idx => .slot (.local_ idx)
        | none =>
          match parseI64Str name.toList with
          | some n => .imm (.int .int32 (n.setWidth 32))
          | none => .slot (.local_ 0)

section Resolution

variable (defines : List (String × AstValue)) (locals : List (String × U8)) (ln : Nat)

theorem resolveU32_eq (fuel : Nat) (v : AstValue) :
    resolveU32 defines fuel v =
      match follow (defineStep defines) fuel v with
      | some w => .ok (u32End w)
      | none => .error .diverges := by
  induction fuel generalizing v with
  | zero => rfl
  | succ fuel ih =>
    cases v with
    | ident name =>
      rw [resolveU32, follow, defineStep]
      cases hname : defines.lookup name with
      | none => rfl
      | some value => exact ih value
    | _ => rfl

theorem resolveSyscallId_eq (fuel : Nat) (v : AstValue) :
    resolveSyscallId defines ln fuel v =
      match follow (defineStep defines) fuel v with
      | some w => syscallEnd ln w
      | none => .error .diverges := by
  induction fuel generalizing v with
  | zero => rfl
  | succ fuel ih =>
    cases v with
    | ident name =>
      rw [resolveSyscallId, follow, defineStep]
      cases hname : defines.lookup name with
      | none => rfl
      | some value => exact ih value
    | _ => rfl

theorem astValueToOperand_eq (fuel : Nat) (v : AstValue) :
    astValueToOperand defines locals fuel v =
      match follow (valueStep defines locals) fuel v with
      | some w => .ok (valueEnd locals w)
      | none => .error .diverges := by
  induction fuel generalizing v with
  | zero => rfl
  | succ fuel ih =>
    cases v with
    | ident name =>
      rw [astValueToOperand, follow, valueStep]
      cases hb : builtInNames.lookup name with
      | some b => simp only [valueEnd, hb]
      | none =>
        by_cases ht : name.toList.head? = some 't'
        · simp only [if_pos ht, valueEnd, hb]
          cases tmpIndex name <;> rfl
        · simp only [if_neg ht]
          cases hl : locals.lookup name with
          | some idx => simp only [valueEnd, hb, if_neg ht, hl]
          | none =>
            cases hd : defines.lookup name with
            | some value => exact ih value
            | none =>
              simp only [valueEnd, hb, if_neg ht, hl]
              cases parseI64Str name.toList <;> rfl
    | deref name =>
      simp only [astValueToOperand, follow, valueStep, valueEnd]
      cases tmpIndex name <;> rfl
    | _ => rfl

/-- The names that have a `DEFINE`. -/
def definePoints : List AstValue := defines.map fun d => .ident d.1

theorem length_definePoints : (definePoints defines).length = defines.length := List.length_map _

variable {defines locals}

theorem defineStep_mem (x y : AstValue) (h : defineStep defines x = some y) :
    x ∈ definePoints defines := by
  cases x with
  | ident name =>
    exact List.mem_map.mpr ⟨(name, y), mem_of_lookup h, rfl⟩
  | _ => cases h

/-- In a value fewer names are looked up. -/
theorem defineStep_of_valueStep {x y : AstValue} (h : valueStep defines locals x = some y) :
    defineStep defines x = some y := by
  cases x with
  | ident name =>
    rw [valueStep] at h
    split at h
    · cases h
    split at h
    · cases h
    split at h
    · cases h
    · exact h
  | _ => cases h

theorem valueStep_mem (x y : AstValue) (h : valueStep defines locals x = some y) :
    x ∈ definePoints defines := defineStep_mem x y (defineStep_of_valueStep h)

/-- A name in a key is as good as its `DEFINE`. -/
theorem resolveU32_define {name : String} {value : AstValue}
    (h : defines.lookup name = some value) :
    resolveU32 defines (defines.length + 1) (.ident name) =
      resolveU32 defines (defines.length + 1) value := by
  have hstep : defineStep defines (.ident name) = some value := h
  have hnext := follow_next defineStep_mem hstep
  rw [length_definePoints] at hnext
  rw [resolveU32_eq, resolveU32_eq, hnext]

/-- A name without a `DEFINE` is the key 0. -/
theorem resolveU32_undefined {name : String} (h : defines.lookup name = none) :
    resolveU32 defines (defines.length + 1) (.ident name) = .ok 0 := by
  rw [resolveU32, h]

/-- A name that a value operand looks up is as good as its `DEFINE`. -/
theorem astValueToOperand_define {name : String} {value : AstValue}
    (h : valueStep defines locals (.ident name) = some value) :
    astValueToOperand defines locals (defines.length + 1) (.ident name) =
      astValueToOperand defines locals (defines.length + 1) value := by
  have hnext := follow_next valueStep_mem h
  rw [length_definePoints] at hnext
  rw [astValueToOperand_eq, astValueToOperand_eq, hnext]

end Resolution

end Fasm
