import Fasm.Compiler.Names
import Fasm.Compiler.Syntax

/-!
# What becomes of numbers

A number of a source is narrowed where it is emitted, by the position that it stands in, and the
lexer has stripped a hexadecimal number of its sign.  So it is emitted as it is written where it
is in the range of its position, and where the `DEFINE`s that lead to it are looked up.
-/

namespace Fasm

/-! ## Narrowing -/

namespace Literal

variable {l : Literal}

theorem value_of_negative (h : l.negative = true) : l.value = -l.magnitude := if_pos h

theorem value_of_not_negative (h : ¬ l.negative = true) : l.value = l.magnitude := if_neg h

/-- The low bits of a number are the number if it is in their range. -/
theorem toNat_setWidth_iff (k : Nat) :
    ((l.bits.setWidth k).toNat : Int) = l.value ↔ 0 ≤ l.value ∧ l.value < (2 ^ k : Nat) := by
  have hpos : 0 < 2 ^ k := Nat.two_pow_pos k
  have hlt := Nat.mod_lt l.bits.toNat hpos
  rw [BitVec.toNat_setWidth]
  -- the bits are those of the value, or of its magnitude
  have hbits : 0 ≤ l.value → l.value = l.bits.toNat := by
    intro hnonneg
    cases hhex : l.isHex with
    | true =>
      rw [l.toNat_bits hhex]
      by_cases hneg : l.negative = true
      · rw [value_of_negative hneg] at hnonneg ⊢
        omega
      · exact value_of_not_negative hneg
    | false =>
      have hint := l.toInt_bits hhex
      rw [← hint] at hnonneg ⊢
      have htoInt := BitVec.toInt_eq_toNat_cond l.bits
      split at htoInt <;> omega
  constructor
  · intro h
    exact ⟨by omega, by omega⟩
  · rintro ⟨hnonneg, hlt'⟩
    have heq := hbits hnonneg
    rw [Nat.mod_eq_of_lt (by omega), heq]

/-- The low 32 bits, as a signed number. -/
theorem toInt_setWidth_iff :
    (l.bits.setWidth 32).toInt = l.value ↔ (-2 ^ 31 ≤ l.value ∧ l.value < 2 ^ 31) ∧
      (l.isHex = true → l.negative = true → l.value = 0 ∨ l.value = -2 ^ 31) := by
  rw [BitVec.toInt_setWidth, Int.bmod_def]
  cases hhex : l.isHex with
  | true =>
    rw [l.toNat_bits hhex]
    by_cases hneg : l.negative = true
    · simp only [value_of_negative hneg, hneg, true_implies]
      omega
    · rw [value_of_not_negative hneg]
      refine Iff.trans ?_ (and_iff_left fun _ h => absurd h hneg).symm
      omega
  | false =>
    have hint := l.toInt_bits hhex
    have htoInt := BitVec.toInt_eq_toNat_cond l.bits
    rw [← hint]
    simp only [Bool.false_eq_true, false_implies, and_true]
    split at htoInt <;> omega

end Literal

/-! ## Positions -/

/-- Where a number can stand: as an immediate, as the slot of a local, as the key of a field, a
`PARAM` or a global, or as the id of a syscall. -/
inductive Position where
  | value | slot | key | syscall
deriving DecidableEq

def Shape.position : Shape → Option Position
  | .val => some .value
  | .slot => some .slot
  | .key => some .key
  | .syscall => some .syscall
  | _ => none

/-- The number that an immediate is. -/
def Immediate.number : Immediate → Option Int
  | .int t n => some (if t.signed then n.toInt else n.toNat)
  | _ => none

namespace Position

/-- The number in an operand that is one of the position. -/
def number : Position → Operand → Option Int
  | .value, .imm i => i.number
  | .slot, .slot (.local_ i) => some i.toNat
  | .key, .key k => some k.toNat
  | .syscall, .syscallId id => some id.toInt
  | _, _ => none

/-- The number is in the range of the position. -/
def Fits (l : Literal) : Position → Prop
  | .value =>
    if l.isHex then 0 ≤ l.value ∧ l.value < 2 ^ 32 else -2 ^ 31 ≤ l.value ∧ l.value < 2 ^ 31
  | .slot => 0 ≤ l.value ∧ l.value < 2 ^ 8
  | .key => 0 ≤ l.value ∧ l.value < 2 ^ 32
  | .syscall => (-2 ^ 31 ≤ l.value ∧ l.value < 2 ^ 31) ∧
      (l.isHex = true → l.negative = true → l.value = 0 ∨ l.value = -2 ^ 31)

/-- A name is looked up among the `DEFINE`s: in a value or a target not a special symbol, nor one
with a `t` in front. -/
def LooksUp (name : String) : Position → Prop
  | .value | .slot => builtInNames.lookup name = none ∧ name.toList.head? ≠ some 't'
  | .key | .syscall => True

/-- The operand that is emitted for a number. -/
def operandOf (l : Literal) : Position → Operand
  | .value =>
    if l.isHex then .imm (.int .uint32 (l.bits.setWidth 32))
    else .imm (.int .int32 (l.bits.setWidth 32))
  | .slot => .slot (.local_ (l.bits.setWidth 8))
  | .key => .key (l.bits.setWidth 32)
  | .syscall => .syscallId (l.bits.setWidth 32)

theorem number_operandOf_iff (pos : Position) (l : Literal) :
    pos.number (pos.operandOf l) = some l.value ↔ pos.Fits l := by
  cases pos with
  | value =>
    have hint := l.toInt_setWidth_iff
    have hnat := l.toNat_setWidth_iff 32
    rw [operandOf, Fits]
    cases hhex : l.isHex with
    | true => exact (Option.some_inj.trans hnat)
    | false =>
      simp only [hhex, Bool.false_eq_true, false_implies, and_true] at hint
      exact Option.some_inj.trans hint
  | slot => exact Option.some_inj.trans (l.toNat_setWidth_iff 8)
  | key => exact Option.some_inj.trans (l.toNat_setWidth_iff 32)
  | syscall => exact Option.some_inj.trans l.toInt_setWidth_iff

end Position

/-! ## `DEFINE`s -/

namespace Source

variable (src : Source)

def defines : List (String × SourceValue) := src.items.filterMap fun
  | .define name value _ => some (name, value)
  | _ => none

def globals : List SourceGlobal := src.items.filterMap fun
  | .reserve g => some g
  | _ => none

def functions : List SourceFunction := src.items.filterMap fun
  | .func f => some f
  | _ => none

/-- The map of the `DEFINE`s: of two with one name the later counts. -/
def defineMap : List (String × SourceValue) := src.defines.reverse

/-- The expression stands for the number, by itself or by `DEFINE`s of these names. -/
inductive Stands : SourceValue → List String → Literal → Prop
  | number (l : Literal) : Stands (.number l) [] l
  | define {name v names l} (hname : (SourceValue.word name).ast = .ident name)
    (hdef : src.defineMap.lookup name = some v) (h : Stands v names l) :
    Stands (.word name) (name :: names) l

/-- The tree of the source has its items. -/
theorem ast_eq : src.ast.defines.map (fun d => (d.name, d.value)) =
      src.defines.map (fun d => (d.1, d.2.ast)) ∧
    src.ast.globalReserves = src.globals.map SourceGlobal.ast ∧
    src.ast.functions = src.functions.map SourceFunction.ast := by
  obtain ⟨items⟩ := src
  induction items with
  | nil => exact ⟨rfl, rfl, rfl⟩
  | cons item items ih =>
    obtain ⟨hdefs, hglobals, hfuncs⟩ := ih
    cases item with
    | define name value line => exact ⟨congrArg _ hdefs, hglobals, hfuncs⟩
    | import_ path word alias_ line => exact ⟨hdefs, hglobals, hfuncs⟩
    | reserve g => exact ⟨hdefs, congrArg _ hglobals, hfuncs⟩
    | func f => exact ⟨hdefs, hglobals, congrArg _ hfuncs⟩

theorem lookup_map {α β : Type} (g : α → β) (name : String) : ∀ l : List (String × α),
    (l.map fun d => (d.1, g d.2)).lookup name = (l.lookup name).map g
  | [] => rfl
  | (key, a) :: l => by
    rw [List.map_cons, List.lookup_cons, List.lookup_cons, lookup_map g name l]
    cases name == key <;> rfl

theorem lookup_defineMap (name : String) :
    src.ast.defineMap.lookup name = (src.defineMap.lookup name).map SourceValue.ast := by
  rw [ProgramAst.defineMap, src.ast_eq.1, ← List.map_reverse]
  exact lookup_map _ name _

end Source

/-! ## Resolution -/

section Resolution

variable {src : Source} {defines : List (String × AstValue)} {v : SourceValue}
  {names : List String} {l : Literal} {op : Operand}

/-- A name that is not looked up in a value gives a slot. -/
theorem slot_of_not_looksUp {locals : List (String × U8)} {fuel : Nat} {name : String}
    (hno : ¬ Position.value.LooksUp name)
    (h : astValueToOperand defines locals fuel (.ident name) = .ok op) : ∃ s, op = .slot s := by
  cases fuel with
  | zero => cases h
  | succ fuel =>
    rw [astValueToOperand] at h
    split at h
    case h_1 => cases h; exact ⟨_, rfl⟩
    case h_2 hb =>
      have ht : name.toList.head? = some 't' := of_not_not fun ht => hno ⟨hb, ht⟩
      rw [if_pos ht] at h
      split at h <;> cases h <;> exact ⟨_, rfl⟩

/-- The operand of a value that stands for a number. -/
theorem astValueToOperand_number {locals : List (String × U8)}
    (hdefs : ∀ name, defines.lookup name = (src.defineMap.lookup name).map SourceValue.ast)
    (hst : src.Stands v names l) (hlocals : ∀ name ∈ names, locals.lookup name = none)
    (h : astValueToOperand defines locals (defines.length + 1) v.ast = .ok op) :
    ((∀ name ∈ names, Position.value.LooksUp name) → op = Position.value.operandOf l) ∧
      (¬ (∀ name ∈ names, Position.value.LooksUp name) → ∃ s, op = .slot s) := by
  induction hst with
  | number l =>
    refine ⟨fun _ => ?_, fun hno => absurd nofun hno⟩
    rw [SourceValue.ast, Literal.ast] at h
    rw [Position.operandOf]
    split at h
    case isTrue hhex => cases h; rw [if_pos hhex]
    case isFalse hhex => cases h; rw [if_neg hhex]
  | @define name v names l hname hdef hst ih =>
    rw [hname] at h
    by_cases hlook : Position.value.LooksUp name
    · have hstep : valueStep defines locals (.ident name) = some v.ast := by
        rw [valueStep, hlook.1]
        simp only [if_neg hlook.2, hlocals name (.head _), hdefs, hdef, Option.map_some]
      rw [astValueToOperand_define hstep] at h
      obtain ⟨hyes, hno⟩ := ih (fun name hn => hlocals name (.tail _ hn)) h
      refine ⟨fun hall => hyes fun name hn => hall name (.tail _ hn), fun hnot => hno ?_⟩
      intro hall
      exact hnot (List.forall_mem_cons.mpr ⟨hlook, hall⟩)
    · exact ⟨fun hall => absurd (hall name (.head _)) hlook, fun _ => slot_of_not_looksUp hlook h⟩

/-- The key that stands for a number. -/
theorem resolveU32_number {k : U32}
    (hdefs : ∀ name, defines.lookup name = (src.defineMap.lookup name).map SourceValue.ast)
    (hst : src.Stands v names l)
    (h : resolveU32 defines (defines.length + 1) v.ast = .ok k) : k = l.bits.setWidth 32 := by
  induction hst with
  | number l =>
    rw [SourceValue.ast, Literal.ast] at h
    split at h <;> cases h <;> rfl
  | define hname hdef _ ih =>
    rw [hname, resolveU32_define ((hdefs _).trans (congrArg _ hdef))] at h
    exact ih h

/-- The syscall id that stands for a number. -/
theorem resolveSyscallId_number {k : U32} {ln : Nat}
    (hdefs : ∀ name, defines.lookup name = (src.defineMap.lookup name).map SourceValue.ast)
    (hst : src.Stands v names l)
    (h : resolveSyscallId defines ln (defines.length + 1) v.ast = .ok k) :
    k = l.bits.setWidth 32 := by
  induction hst with
  | number l =>
    rw [SourceValue.ast, Literal.ast] at h
    split at h <;> cases h <;> rfl
  | @define name v _ _ hname hdef _ ih =>
    have hstep : defineStep defines (.ident name) = some v.ast :=
      (hdefs _).trans (congrArg _ hdef)
    have hnext := follow_next defineStep_mem hstep
    rw [length_definePoints] at hnext
    rw [hname, resolveSyscallId_eq, hnext, ← resolveSyscallId_eq] at h
    exact ih h

/-- The target that stands for a number: a name has to be that of a decimal number. -/
theorem astValToSlot_number {ctx : FuncCtx} {s : SlotRef}
    (hdefs : ∀ name, ctx.defines.lookup name = (src.defineMap.lookup name).map SourceValue.ast)
    (hst : src.Stands v names l) (hlocals : ∀ name ∈ names, ctx.locals.lookup name = none)
    (h : astValToSlot ctx v.ast = some s) :
    ((∀ name ∈ names, Position.slot.LooksUp name) → s = .local_ (l.bits.setWidth 8)) ∧
      (¬ (∀ name ∈ names, Position.slot.LooksUp name) → ∀ i, s ≠ .local_ i) := by
  cases hst with
  | number l =>
    refine ⟨fun _ => ?_, fun hno => absurd (List.forall_mem_nil _) hno⟩
    rw [SourceValue.ast, Literal.ast] at h
    split at h <;> cases h <;> rfl
  | @define name v names _ hname hdef hst =>
    rw [hname, astValToSlot] at h
    by_cases hlook : Position.slot.LooksUp name
    · rw [hlook.1] at h
      simp only [if_neg hlook.2, hlocals name (.head _), hdefs, hdef, Option.map_some] at h
      cases hst with
      | number l =>
        rw [SourceValue.ast, Literal.ast] at h
        split at h
        case h_1 n hn =>
          split at hn
          · cases hn
          · cases hn
            cases h
            refine ⟨fun _ => rfl, fun hno => absurd ?_ hno⟩
            exact List.forall_mem_singleton.mpr hlook
        case h_2 => cases h
      | define hname' _ _ =>
        rw [hname'] at h
        cases h
    · refine ⟨fun hall => absurd (hall name (.head _)) hlook, fun _ => ?_⟩
      split at h
      case h_1 =>
        cases h
        rintro _ ⟨⟩
      case h_2 hb =>
        have ht : name.toList.head? = some 't' := of_not_not fun ht => hlook ⟨hb, ht⟩
        rw [if_pos ht, hlocals name (.head _)] at h
        split at h
        · cases h
          rintro _ ⟨⟩
        · cases h

end Resolution

/-! ## Emission -/

mutual

/-- The statements that the instructions of the code come from.  A `TRY`, a `CATCH` and an `ENDTRY`
have no operands that are written. -/
def SourceStatement.origins : SourceStatement → List (Option SourceStatement)
  | .param _ _ _ _ _ => []
  | .local_ index type name line => [some (.local_ index type name line)]
  | .label _ _ => []
  | .instr i => [some (.instr i)]
  | .catch_ => []
  | .tryBlock body _ catchBody _ =>
    none :: originsOfAll body ++ none :: originsOfAll catchBody ++ [none]

def originsOfAll : List SourceStatement → List (Option SourceStatement)
  | [] => []
  | stmt :: stmts => stmt.origins ++ originsOfAll stmts

end

namespace FuncCtx

variable (ctx : FuncCtx)

/-- The instruction is emitted for the statement. -/
def Emits : Option SourceStatement → Instruction → Prop
  | some (.local_ index type _ _), c =>
    c = ⟨.reserve, [.slot (.local_ index.slot), .type type.type, .imm .null]⟩
  | some (.instr i), c => ctx.emitInstr i.ast = .ok c
  | _, _ => True

theorem emitStatements_append {stmts stmts' : List Statement} {code : List Instruction}
    (h : ctx.emitStatements (stmts ++ stmts') = .ok code) :
    ∃ c c', ctx.emitStatements stmts = .ok c ∧ ctx.emitStatements stmts' = .ok c' ∧
      code = c ++ c' := by
  induction stmts generalizing code with
  | nil => exact ⟨[], code, rfl, h, rfl⟩
  | cons stmt stmts ih =>
    obtain ⟨c₁, h₁, h⟩ := bind_eq_ok h
    obtain ⟨c₂, h₂, h⟩ := bind_eq_ok h
    cases h
    obtain ⟨c, c', hc, hc', rfl⟩ := ih h₂
    refine ⟨c₁ ++ c, c', ?_, hc', by rw [List.append_assoc]⟩
    rw [emitStatements, h₁]
    show (do return c₁ ++ (← ctx.emitStatements stmts) : Except CompileFail _) = _
    rw [hc]
    rfl

mutual

/-- The code of a statement comes from its origins. -/
theorem emits_origins : ∀ (stmt : SourceStatement) {code : List Instruction},
    ctx.emitStatements stmt.asts = .ok code → List.Forall₂ ctx.Emits stmt.origins code
  | .param _ _ _ _ _, _, h => by cases h; exact .nil
  | .label _ _, _, h => by cases h; exact .nil
  | .catch_, _, h => by cases h; exact .nil
  | .local_ _ _ _ _, _, h => by cases h; exact .cons rfl .nil
  | .instr i, _, h => by
    obtain ⟨c, hc, h⟩ := bind_eq_ok h
    obtain ⟨rest, hrest, h⟩ := bind_eq_ok h
    obtain ⟨instr, hinstr, hc⟩ := bind_eq_ok hc
    cases hrest
    cases hc
    cases h
    exact .cons hinstr .nil
  | .tryBlock body _ catchBody line, _, h => by
    obtain ⟨c, hc, h⟩ := bind_eq_ok h
    obtain ⟨rest, hrest, h⟩ := bind_eq_ok h
    obtain ⟨bodyCode, hbody, hc⟩ := bind_eq_ok hc
    obtain ⟨catchCode, hcatch, hc⟩ := bind_eq_ok hc
    cases hrest
    cases hc
    cases h
    rw [List.append_nil]
    refine .cons trivial ?_
    refine List.rel_append (List.rel_append ?_ (.cons trivial ?_)) (.cons trivial .nil)
    · exact emits_originsOfAll body hbody
    · exact emits_originsOfAll catchBody hcatch

/-- The code of statements comes from all of their origins. -/
theorem emits_originsOfAll : ∀ (stmts : List SourceStatement) {code : List Instruction},
    ctx.emitStatements (astsOfAll stmts) = .ok code →
      List.Forall₂ ctx.Emits (originsOfAll stmts) code
  | [], _, h => by cases h; exact .nil
  | stmt :: stmts, _, h => by
    obtain ⟨c, c', hc, hc', rfl⟩ := ctx.emitStatements_append h
    exact List.rel_append (emits_origins stmt hc) (emits_originsOfAll stmts hc')

end

end FuncCtx

/-! ## Uses -/

namespace Source

/-- The operand expression of an instruction of the function is emitted as the operand. -/
inductive Site (src : Source) (p : Program) (f : SourceFunction) :
    Shape → SourceValue → Operand → Prop
  | mk {k : Nat} {fd : FunctionDef} {ip : Nat} {i : SourceInstr} {c : Instruction} {n : Nat}
    {shape v op} (hf : src.functions[k]? = some f) (hfd : p.functions[k]? = some fd)
    (horigin : (originsOfAll f.items)[ip]? = some (some (.instr i)))
    (hcode : fd.instructions[ip]? = some c) (hshape : i.ast.shapes[n]? = some shape)
    (hv : (i.operands.map Prod.fst)[n]? = some v) (hop : c.operands[n]? = some op) :
    Site src p f shape v op

/-- The number, which is used in the position by itself or by `DEFINE`s of these names, is emitted
as the operand.  The name of a local is no use of a `DEFINE` in a value or a target. -/
inductive Uses (src : Source) (p : Program) :
    Position → List String → Literal → Operand → Prop
  | operand {f : SourceFunction} {shape : Shape} {pos v op names l} (hsite : src.Site p f shape v op)
    (hpos : shape.position = some pos) (hst : src.Stands v names l)
    (hlocal : pos = .value ∨ pos = .slot → ∀ name ∈ names, ¬ f.ast.DeclaresName name) :
    Uses src p pos names l op
  | local_ {k : Nat} {f : SourceFunction} {fd : FunctionDef} {ip : Nat} {index type name line}
    {c : Instruction} {op} (hf : src.functions[k]? = some f) (hfd : p.functions[k]? = some fd)
    (horigin : (originsOfAll f.items)[ip]? = some (some (.local_ index type name line)))
    (hcode : fd.instructions[ip]? = some c) (hop : c.operands[0]? = some op) :
    Uses src p .slot [] index op
  | param {k : Nat} {f : SourceFunction} {fd : FunctionDef} {j : Nat} {key decl}
    {desc : ParamDescriptor} {names l} (hf : src.functions[k]? = some f)
    (hfd : p.functions[k]? = some fd) (hparam : f.params[j]? = some (key, decl))
    (hdesc : fd.params[j]? = some desc) (hst : src.Stands key names l) :
    Uses src p .key names l (.key desc.key)
  | globalIndex {j : Nat} {g : SourceGlobal} {c : Instruction} {op}
    (hg : src.globals[j]? = some g) (hc : p.globalInits[j]? = some c)
    (hop : c.operands[0]? = some op) : Uses src p .key [] g.index op
  | globalInit {j : Nat} {g : SourceGlobal} {c : Instruction} {op names l}
    (hg : src.globals[j]? = some g) (hc : p.globalInits[j]? = some c)
    (hop : c.operands[2]? = some op) (hst : src.Stands g.init names l) : Uses src p .value names l op

end Source

section Uses

variable {src : Source} {p : Program} {pos : Position} {names : List String} {l : Literal}
  {op : Operand} {f : SourceFunction}

theorem forall₂_getElem? {α β : Type} {R : α → β → Prop} {xs : List α} {ys : List β} {i : Nat}
    {x : α} {y : β} (h : List.Forall₂ R xs ys) (hx : xs[i]? = some x) (hy : ys[i]? = some y) :
    R x y := by
  obtain ⟨hi, rfl⟩ := List.getElem?_eq_some_iff.mp hx
  obtain ⟨hi', rfl⟩ := List.getElem?_eq_some_iff.mp hy
  exact h.get hi hi'

/-- A function as it is written and its code. -/
theorem compilesTo_of_source {k : Nat} {fd : FunctionDef} (hp : emit src.ast = .ok p)
    (hf : src.functions[k]? = some f) (hfd : p.functions[k]? = some fd) :
    f.ast.CompilesTo src.ast fd := by
  obtain ⟨f', hf', hcomp⟩ := emit_function hp hfd
  rw [src.ast_eq.2.2, List.getElem?_map, hf] at hf'
  cases hf'
  exact hcomp

/-- What an operand expression is resolved to. -/
theorem Source.Site.resolves {shape : Shape} {v : SourceValue} (hp : emit src.ast = .ok p)
    (h : src.Site p f shape v op) :
    ∃ ln n, (f.ast.emitCtx src.ast).resolve ln n v.ast shape = .ok op := by
  obtain ⟨hf, hfd, horigin, hcode, hshape, hv, hop⟩ := h
  have hcomp := compilesTo_of_source hp hf hfd
  have hemit := forall₂_getElem? (FuncCtx.emits_originsOfAll _ _ hcomp.code_eq) horigin hcode
  obtain ⟨v', op', hv', hop', hres⟩ := (FuncCtx.emitInstr_eq _ hemit).2 hshape
  cases hop.symm.trans hop'
  rw [List.getElem?_map] at hv
  obtain ⟨x, hx, rfl⟩ := Option.map_eq_some_iff.mp hv
  have hast : (x.1.ast : AstValue) = v' := by
    have hmap : (_ : List AstValue)[_]? = some v' := hv'
    rw [SourceInstr.ast, List.getElem?_map, hx] at hmap
    exact Option.some.inj hmap
  exact ⟨_, _, hast ▸ hres⟩

/-- An operand that is the number if its names are looked up, and else none of the position. -/
theorem number_iff_of_emitted
    (hyes : (∀ name ∈ names, pos.LooksUp name) → op = pos.operandOf l)
    (hno : ¬ (∀ name ∈ names, pos.LooksUp name) → pos.number op = none) :
    pos.number op = some l.value ↔ (∀ name ∈ names, pos.LooksUp name) ∧ pos.Fits l := by
  by_cases hlook : ∀ name ∈ names, pos.LooksUp name
  · rw [hyes hlook, pos.number_operandOf_iff]
    exact (and_iff_right hlook).symm
  · rw [hno hlook]
    exact iff_of_false nofun fun h => hlook h.1

/-- The number in a value. -/
theorem number_value_iff {locals : List (String × U8)} {v : SourceValue} (hst : src.Stands v names l)
    (hlocals : ∀ name ∈ names, locals.lookup name = none)
    (h : astValueToOperand src.ast.defineMap locals (src.ast.defineMap.length + 1) v.ast = .ok op) :
    Position.value.number op = some l.value ↔
      (∀ name ∈ names, Position.value.LooksUp name) ∧ Position.value.Fits l := by
  obtain ⟨hyes, hno⟩ := astValueToOperand_number src.lookup_defineMap hst hlocals h
  refine number_iff_of_emitted hyes fun hlook => ?_
  obtain ⟨s, rfl⟩ := hno hlook
  rfl

/-- The number in a key. -/
theorem number_key_iff {k : U32} {v : SourceValue} (hst : src.Stands v names l)
    (h : resolveU32 src.ast.defineMap (src.ast.defineMap.length + 1) v.ast = .ok k) :
    Position.key.number (.key k) = some l.value ↔
      (∀ name ∈ names, Position.key.LooksUp name) ∧ Position.key.Fits l := by
  have hk := resolveU32_number src.lookup_defineMap hst h
  exact number_iff_of_emitted (fun _ => congrArg _ hk) fun hlook => absurd (fun _ _ => trivial) hlook

/-- A global as it is written and its code. -/
theorem Source.global_emitted {j : Nat} {g : SourceGlobal} {c : Instruction}
    (hp : emit src.ast = .ok p) (hg : src.globals[j]? = some g) (hc : p.globalInits[j]? = some c) :
    ∃ init, astValueToOperand src.ast.defineMap [] (src.ast.defineMap.length + 1) g.init.ast =
        .ok init ∧
      c = ⟨.reserve, [.key (g.index.bits.setWidth 32), .type g.type.type, init]⟩ := by
  obtain ⟨inits, hinits, hp⟩ := bind_eq_ok hp
  obtain ⟨funcs, -, hp⟩ := bind_eq_ok hp
  cases hp
  obtain ⟨gr, hgr, hemit⟩ := getElem?_of_mapM hinits hc
  rw [src.ast_eq.2.1, List.getElem?_map, hg] at hgr
  cases hgr
  obtain ⟨init, hinit, hemit⟩ := bind_eq_ok hemit
  cases hemit
  exact ⟨init, hinit, rfl⟩

/-- The number in an operand of an instruction. -/
theorem number_operand_iff {shape : Shape} {v : SourceValue} (hp : emit src.ast = .ok p)
    (hsite : src.Site p f shape v op) (hpos : shape.position = some pos)
    (hst : src.Stands v names l)
    (hlocal : pos = .value ∨ pos = .slot → ∀ name ∈ names, ¬ f.ast.DeclaresName name) :
    pos.number op = some l.value ↔ (∀ name ∈ names, pos.LooksUp name) ∧ pos.Fits l := by
  obtain ⟨ln, n, hres⟩ := hsite.resolves hp
  have hlocals (h : pos = .value ∨ pos = .slot) (name : String) (hname : name ∈ names) :
      (f.ast.emitCtx src.ast).locals.lookup name = none :=
    (f.ast.lookup_local_eq_none src.ast).mpr (hlocal h name hname)
  cases shape with
  | val =>
    cases hpos
    exact number_value_iff hst (hlocals (.inl rfl)) hres
  | slot =>
    cases hpos
    rw [FuncCtx.resolve, FuncCtx.slotOp] at hres
    split at hres
    case h_1 s hs =>
      cases hres
      obtain ⟨hyes, hno⟩ := astValToSlot_number src.lookup_defineMap hst (hlocals (.inr rfl)) hs
      refine number_iff_of_emitted (fun h => congrArg _ (hyes h)) fun h => ?_
      cases s with
      | local_ i => exact absurd rfl (hno h i)
      | _ => rfl
    case h_2 => cases hres
  | key =>
    cases hpos
    rw [FuncCtx.resolve, FuncCtx.keyOp] at hres
    obtain ⟨k, hk, rfl⟩ := map_eq_ok hres
    exact number_key_iff hst hk
  | syscall =>
    cases hpos
    obtain ⟨k, hk, rfl⟩ := map_eq_ok hres
    exact number_iff_of_emitted
      (fun _ => congrArg _ (resolveSyscallId_number src.lookup_defineMap hst hk))
      fun h => absurd (fun _ _ => trivial) h
  | _ => cases hpos

theorem Literal.slot_eq (l : Literal) : l.slot = l.bits.setWidth 8 :=
  BitVec.setWidth_setWidth_of_le _ (by omega)

/-- The number in an operand that a number is used for. -/
theorem number_use_iff (hp : emit src.ast = .ok p) (h : src.Uses p pos names l op) :
    pos.number op = some l.value ↔ (∀ name ∈ names, pos.LooksUp name) ∧ pos.Fits l := by
  cases h with
  | operand hsite hpos hst hlocal => exact number_operand_iff hp hsite hpos hst hlocal
  | local_ hf hfd horigin hcode hop =>
    have hcomp := compilesTo_of_source hp hf hfd
    have hemit := forall₂_getElem? (FuncCtx.emits_originsOfAll _ _ hcomp.code_eq) horigin hcode
    cases hemit
    cases hop
    rw [l.slot_eq]
    exact number_iff_of_emitted (fun _ => rfl) fun h => absurd nofun h
  | @param k f fd j key decl desc _ _ hf hfd hparam hdesc hst =>
    have hcomp := compilesTo_of_source hp hf hfd
    obtain ⟨params, hparams, hcomp⟩ := bind_eq_ok hcomp
    obtain ⟨code, -, hcomp⟩ := bind_eq_ok hcomp
    cases hcomp
    obtain ⟨decl', hdecl', hkey⟩ := getElem?_of_mapM hparams hdesc
    have hast : f.ast.params[j]? = some decl := by
      rw [SourceFunction.ast, List.getElem?_map, hparam]
      rfl
    cases hast.symm.trans hdecl'
    obtain ⟨k, hk, hkey⟩ := bind_eq_ok hkey
    cases hkey
    have hdeclKey : decl.key = key.ast := by
      obtain ⟨s, -, hs⟩ := List.mem_filterMap.mp (List.mem_of_getElem? hparam)
      cases s <;> cases hs
      rfl
    rw [hdeclKey] at hk
    exact number_key_iff hst hk
  | globalIndex hg hc hop =>
    obtain ⟨init, -, rfl⟩ := Source.global_emitted hp hg hc
    cases hop
    exact number_iff_of_emitted (fun _ => rfl) fun h => absurd nofun h
  | globalInit hg hc hop hst =>
    obtain ⟨init, hinit, rfl⟩ := Source.global_emitted hp hg hc
    cases hop
    exact number_value_iff hst (fun _ _ => rfl) hinit

end Uses

/-! ## Functions -/

/-- The names of the functions of a validated program are different. -/
theorem collectFunctions_nodup : ∀ {fs : List Function} {names names' : List String},
    collectFunctions fs names = .ok names' →
    (fs.map Function.name).Nodup ∧ ∀ f ∈ fs, f.name ∉ names
  | [], _, _, _ => ⟨.nil, nofun⟩
  | f :: fs, names, names', h => by
    rw [collectFunctions] at h
    split at h
    case isTrue => cases h
    case isFalse hno =>
      obtain ⟨hnodup, hnew⟩ := collectFunctions_nodup h
      refine ⟨List.nodup_cons.mpr ⟨fun hmem => ?_, hnodup⟩, ?_⟩
      · obtain ⟨g, hg, hname⟩ := List.mem_map.mp hmem
        exact hnew g hg (hname ▸ .head _)
      · rintro g (_ | ⟨_, hg⟩)
        · exact fun hmem => hno (List.contains_iff_mem.mpr hmem)
        · exact fun hmem => hnew g hg (.tail _ hmem)

theorem frontend_nodup {u : Unicode} {text : String} {ast : ProgramAst}
    (h : frontend u text = .ok ast) : (ast.functions.map Function.name).Nodup := by
  obtain ⟨tokens, -, -, hval⟩ := frontend_stages h
  obtain ⟨names, hnames, -⟩ := bind_eq_ok hval
  exact (collectFunctions_nodup hnames).1

/-- Where no name is twice, a name has the value that it is listed with. -/
theorem lookup_of_mem {β : Type} {k : String} {b : β} : ∀ {l : List (String × β)},
    (l.map Prod.fst).Nodup → (k, b) ∈ l → l.lookup k = some b
  | (k', b') :: l, hnodup, hmem => by
    obtain ⟨hnew, hnodup⟩ := List.nodup_cons.mp hnodup
    rw [List.lookup_cons]
    cases hmem with
    | head => rw [beq_self_eq_true]
    | tail _ hmem =>
      have hne : (k == k') = false := beq_eq_false_iff_ne.mpr fun heq =>
        hnew (List.mem_map.mpr ⟨(k, b), hmem, heq⟩)
      rw [hne]
      exact lookup_of_mem hnodup hmem

/-- A function is called by its position. -/
theorem lookup_funcIndexMap {ast : ProgramAst} (h : (ast.functions.map Function.name).Nodup)
    {i : Nat} {f : Function} (hf : ast.functions[i]? = some f) :
    ast.funcIndexMap.lookup f.name = some (.ofNat 16 i) := by
  refine lookup_of_mem ?_ (List.mem_reverse.mpr (List.mem_map.mpr ⟨(f, i), ?_, rfl⟩))
  · have hnames : ast.funcIndexMap.map Prod.fst =
        ((ast.functions.zipIdx.map Prod.fst).map Function.name).reverse := by
      rw [ProgramAst.funcIndexMap, List.map_reverse, List.map_map, List.map_map]
      rfl
    rw [hnames, List.zipIdx_map_fst, List.nodup_reverse]
    exact h
  · exact List.mk_mem_zipIdx_iff_getElem?.mpr hf

/-- The function that a call is emitted for. -/
theorem call_iff {u : Unicode} {text : String} {src : Source} {p : Program}
    {f g : SourceFunction} {name : String} {op : Operand} {i : Nat}
    (hast : frontend u text = .ok src.ast) (hp : emit src.ast = .ok p)
    (hsite : src.Site p f .func (.word name) op) (hg : src.functions[i]? = some g)
    (hname : g.name = name) : (∃ idx : U16, op = .funcRef idx ∧ idx.toNat = i) ↔ i < 2 ^ 16 := by
  obtain ⟨ln, n, hres⟩ := hsite.resolves hp
  obtain ⟨name', hident, hres⟩ := bind_eq_ok hres
  have hname' : name' = name := by
    rw [SourceValue.ast] at hident
    split at hident
    · cases hident
    split at hident
    · cases hident
    split at hident <;> cases hident
    rfl
  have hfunc : src.ast.functions[i]? = some g.ast := by
    rw [src.ast_eq.2.2, List.getElem?_map, hg]
    rfl
  have hlookup := lookup_funcIndexMap (frontend_nodup hast) hfunc
  have hctx : (f.ast.emitCtx src.ast).funcIndexMap = src.ast.funcIndexMap := rfl
  rw [hname', ← hname, hctx, show g.name = g.ast.name from rfl, hlookup] at hres
  cases hres
  constructor
  · rintro ⟨idx, hidx, rfl⟩
    exact idx.isLt
  · exact fun hlt => ⟨_, rfl, Nat.mod_eq_of_lt hlt⟩

/-- **Numbers survive compilation** exactly where they are in the range of their position and the
`DEFINE`s that lead to them are looked up, and functions exactly where their position is less than
`2 ^ 16`: in an accepted text, which is that of a source, for every use in every such source. -/
theorem numbers_survive_iff {u : Unicode} {text : String} {ast : ProgramAst} {p : Program}
    (hast : frontend u text = .ok ast) (hp : compileSource u text = .ok p) :
    (∃ src : Source, src.Of u text ∧ src.ast = ast) ∧
    ∀ src : Source, src.Of u text → src.ast = ast →
      (∀ pos names l op, src.Uses p pos names l op →
        (pos.number op = some l.value ↔ (∀ name ∈ names, pos.LooksUp name) ∧ pos.Fits l)) ∧
      ∀ f name op i g, src.Site p f .func (.word name) op → src.functions[i]? = some g →
        g.name = name → ((∃ idx : U16, op = .funcRef idx ∧ idx.toNat = i) ↔ i < 2 ^ 16) := by
  rw [compileSource_eq hast] at hp
  refine ⟨frontend_source hast, ?_⟩
  rintro src - rfl
  exact ⟨fun pos names l op => number_use_iff hp,
    fun f name op i g hsite hg hname => call_iff hast hp hsite hg hname⟩

section Example

/-- A hexadecimal number with a minus sign. -/
def signSource : String := "FUNC Main\nLOCAL 0, INT32, x\nMOV -0x10, x\nENDF"

private def signTokens : List Token :=
  [⟨.ident "FUNC", 1⟩, ⟨.ident "Main", 1⟩, ⟨.ident "LOCAL", 2⟩, ⟨.integer 0, 2⟩, ⟨.comma, 2⟩,
    ⟨.ident "INT32", 2⟩, ⟨.comma, 2⟩, ⟨.ident "x", 2⟩, ⟨.ident "MOV", 3⟩, ⟨.hexInteger 16, 3⟩,
    ⟨.comma, 3⟩, ⟨.ident "x", 3⟩, ⟨.ident "ENDF", 4⟩, ⟨.eof, 4⟩]

/-- The number. -/
def signLiteral : Literal :=
  ⟨true, some 'x', ['1', '0'], 16, Literal.mark_x, nofun, List.all_eq_true.mp rfl, rfl⟩

/-- The zero of the `LOCAL`. -/
def zeroLiteral : Literal :=
  ⟨false, none, ['0'], 0, Literal.mark_none, nofun, List.all_eq_true.mp rfl, rfl⟩

/-- The source as it is written. -/
def signWritten : Source :=
  ⟨[.func ⟨"Main", [.local_ zeroLiteral ⟨"INT32", .int .int32, rfl⟩ "x" 2,
    .instr ⟨false, "MOV", [(.number signLiteral, true), (.word "x", false)], 3⟩], 1⟩]⟩

/-- Its code. -/
def signProgram : Program :=
  ⟨1, [], [⟨"Main", [], [⟨.reserve, [.slot (.local_ 0), .type (.int .int32), .imm .null]⟩,
    ⟨.mov, [.imm (.int .uint32 16), .slot (.local_ 0)]⟩]⟩]⟩

private theorem sign_tokens : tokenize .ascii signSource = .ok signTokens := (rfl)

theorem sign_frontend : frontend .ascii signSource = .ok signWritten.ast :=
  frontend_eq sign_tokens rfl rfl

theorem sign_compiles : compileSource .ascii signSource = .ok signProgram :=
  (compileSource_eq sign_frontend).trans rfl

theorem sign_written : signWritten.Of .ascii signSource := by
  show Scans .ascii ['F', 'U', 'N', 'C', ' ', 'M', 'a', 'i', 'n', '\n', 'L', 'O', 'C', 'A', 'L',
    ' ', '0', ',', ' ', 'I', 'N', 'T', '3', '2', ',', ' ', 'x', '\n', 'M', 'O', 'V', ' ', '-', '0',
    'x', '1', '0', ',', ' ', 'x', '\n', 'E', 'N', 'D', 'F'] _
  refine .word_cons rfl (.blank (by decide) ?_)
  refine .word_cons rfl (.blank (by decide) ?_)
  refine .word_cons rfl (.blank (by decide) ?_)
  refine .number zeroLiteral ⟨?_, by decide, by decide⟩ (.mark (by decide) rfl ?_)
  · rintro c ⟨⟩
    rfl
  refine .blank (by decide) (.word_cons rfl (.mark (by decide) rfl ?_))
  refine .blank (by decide) (.word_cons rfl (.blank (by decide) ?_))
  refine .word_cons rfl (.blank (by decide) ?_)
  refine .number signLiteral ⟨?_, by decide, by decide⟩ (.mark (by decide) rfl ?_)
  · rintro c ⟨⟩
    rfl
  refine .blank (by decide) (.word_cons rfl (.blank (by decide) ?_))
  exact .word_cons rfl .done

/-- The number is an immediate. -/
theorem sign_uses :
    signWritten.Uses signProgram .value [] signLiteral (.imm (.int .uint32 16)) := by
  have hcode : (signProgram.functions.flatMap FunctionDef.instructions)[1]? =
      some ⟨.mov, [.imm (.int .uint32 16), .slot (.local_ 0)]⟩ := rfl
  exact .operand (.mk (k := 0) (n := 0) rfl rfl rfl hcode rfl rfl rfl) rfl (.number signLiteral)
    nofun

theorem numbers_survive_iff_sign :
    (∃ src : Source, src.Of .ascii signSource ∧ src.ast = signWritten.ast) ∧
    ∀ src : Source, src.Of .ascii signSource → src.ast = signWritten.ast →
      (∀ pos names l op, src.Uses signProgram pos names l op →
        (pos.number op = some l.value ↔ (∀ name ∈ names, pos.LooksUp name) ∧ pos.Fits l)) ∧
      ∀ f name op i g, src.Site signProgram f .func (.word name) op →
        src.functions[i]? = some g → g.name = name →
          ((∃ idx : U16, op = .funcRef idx ∧ idx.toNat = i) ↔ i < 2 ^ 16) :=
  numbers_survive_iff sign_frontend sign_compiles

/-- The immediate of the `MOV` is 16 and not -16. -/
theorem sign_stripped :
    compileSource .ascii signSource = .ok signProgram ∧ signWritten.Of .ascii signSource ∧
      frontend .ascii signSource = .ok signWritten.ast ∧
      signWritten.Uses signProgram .value [] signLiteral (.imm (.int .uint32 16)) ∧
      signLiteral.value = -16 ∧ Position.value.number (.imm (.int .uint32 16)) = some 16 :=
  ⟨sign_compiles, sign_written, sign_frontend, sign_uses, rfl, rfl⟩

end Example

end Fasm
