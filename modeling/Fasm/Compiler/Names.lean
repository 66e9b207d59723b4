import Fasm.Compiler.Defines
import Fasm.Compiler.TmpBlocks
import Fasm.Compiler.TryTargets

/-!
# What identifiers denote

`ast_val_to_slot` and `ast_value_to_operand` look an identifier up among the special symbols,
the `TMP` registers, the locals and the `DEFINE`s, in this order, and the second takes what it
does not find for local 0.  The validator lets all identifiers through.
-/

namespace Fasm

/-! ## Locals -/

/-- The declaration is in the body of the function. -/
def Function.Declares (f : Function) (decl : LocalDecl) : Prop := .local_ decl ∈ partsOfAll f.body

/-- A local of the function has the name. -/
def Function.DeclaresName (f : Function) (name : String) : Prop :=
  ∃ decl, f.Declares decl ∧ decl.name = name

/-- The entry of a declaration in the map of the locals. -/
def Statement.localEntry : Statement → Option (String × U8)
  | .local_ decl => some (decl.name, decl.index)
  | _ => none

theorem Statement.localEntry_eq_some {stmt : Statement} {entry : String × U8} :
    stmt.localEntry = some entry ↔
      ∃ decl, stmt = .local_ decl ∧ (decl.name, decl.index) = entry := by
  cases stmt with
  | local_ decl =>
    constructor
    · intro h
      cases h
      exact ⟨decl, rfl, rfl⟩
    · rintro ⟨_, ⟨⟩, rfl⟩
      rfl
  | _ => exact iff_of_false nofun (fun ⟨_, h, _⟩ => nomatch h)

mutual

/-- The first pass collects the declarations of a statement, the last first. -/
theorem collectStatement_locals : ∀ (stmt : Statement) (st : FirstPass),
    (collectStatement stmt st).locals =
      (stmt.parts.filterMap Statement.localEntry).reverse ++ st.locals
  | .local_ _, _ => rfl
  | .label _ _, _ => rfl
  | .instr _, _ => rfl
  | .tryBlock catchLabel endLabel body catchBody _, st => by
    have hbody := collectStatements_locals body st.next
    have hcatch := collectStatements_locals catchBody
      ((collectStatements body st.next).insertLabel catchLabel).next
    rw [Statement.parts, List.filterMap_cons_none rfl, List.filterMap_append, List.reverse_append,
      List.append_assoc]
    exact hcatch.trans (congrArg _ hbody)

/-- It collects those of a body in the same order. -/
theorem collectStatements_locals : ∀ (stmts : List Statement) (st : FirstPass),
    (collectStatements stmts st).locals =
      ((partsOfAll stmts).filterMap Statement.localEntry).reverse ++ st.locals
  | [], _ => rfl
  | stmt :: stmts, st => by
    rw [collectStatements, collectStatements_locals stmts, collectStatement_locals stmt, partsOfAll,
      List.filterMap_append, List.reverse_append, List.append_assoc]

end

section Locals

variable (ast : ProgramAst) (f : Function) {name : String} {idx : U8}

theorem Function.locals_eq : (f.emitCtx ast).locals =
    ((partsOfAll f.body).filterMap Statement.localEntry).reverse :=
  (collectStatements_locals f.body ⟨[], [], 0⟩).trans (List.append_nil _)

theorem Function.mem_locals_iff : (name, idx) ∈ (f.emitCtx ast).locals ↔
    ∃ decl, f.Declares decl ∧ decl.name = name ∧ decl.index = idx := by
  rw [f.locals_eq, List.mem_reverse, List.mem_filterMap]
  constructor
  · rintro ⟨stmt, hstmt, hentry⟩
    obtain ⟨decl, rfl, heq⟩ := Statement.localEntry_eq_some.mp hentry
    cases heq
    exact ⟨decl, hstmt, rfl, rfl⟩
  · rintro ⟨decl, hdecl, rfl, rfl⟩
    exact ⟨_, hdecl, rfl⟩

/-- A name that is found in the map is that of a local with the index. -/
theorem Function.declares_of_lookup (h : (f.emitCtx ast).locals.lookup name = some idx) :
    ∃ decl, f.Declares decl ∧ decl.name = name ∧ decl.index = idx := by
  exact (f.mem_locals_iff ast).mp (mem_of_lookup h)

/-- A name that is not found is that of no local. -/
theorem Function.lookup_local_eq_none :
    (f.emitCtx ast).locals.lookup name = none ↔ ¬ f.DeclaresName name := by
  rw [List.lookup_eq_none_iff]
  constructor
  · rintro h ⟨decl, hdecl, rfl⟩
    exact bne_iff_ne.mp (h _ ((f.mem_locals_iff ast).mpr ⟨decl, hdecl, rfl, rfl⟩)) rfl
  · rintro h ⟨name', idx⟩ hmem
    obtain ⟨decl, hdecl, rfl, -⟩ := (f.mem_locals_iff ast).mp hmem
    exact bne_iff_ne.mpr fun heq => h ⟨decl, hdecl, heq.symm⟩

end Locals

/-! ## Identifiers -/

/-- The name of an identifier, with or without a `&`. -/
def AstValue.identifier : AstValue → Option String
  | .ident name => some name
  | .deref name => some name
  | _ => none

/-- The slot that the name of an identifier denotes by itself: that of a special symbol or of a
register. -/
def AstValue.slotByName : AstValue → Option SlotRef
  | .ident name =>
    match builtInNames.lookup name with
    | some b => some (.builtIn b)
    | none => (tmpIndex name).map .tmp
  | .deref name => (tmpIndex name).map .derefTmp
  | _ => none

/-- The slot of a local, for an identifier with or without a `&`. -/
def AstValue.atLocal : AstValue → U8 → SlotRef
  | .deref _, idx => .derefLocal idx
  | _, idx => .local_ idx

/-- The name is looked up among the `DEFINE`s: not one with a `t` in front, nor one after a `&`. -/
def AstValue.looksUp : AstValue → Bool
  | .ident name => name.toList.head? != some 't'
  | _ => false

/-- The slot that the emitter takes an identifier for that is no local and that it does not look
up. -/
def AstValue.slotUnlooked (v : AstValue) : Option SlotRef :=
  v.slotByName.or (if v.looksUp then none else some (v.atLocal 0))

/-- The slot behind the reference in a slot. -/
def SlotRef.behind : SlotRef → Option SlotRef
  | .local_ n => some (.derefLocal n)
  | .tmp n => some (.derefTmp n)
  | _ => none

theorem tmpIndex_head {name : String} {idx : U8} (h : tmpIndex name = some idx) :
    name.toList.head? = some 't' := by
  rw [tmpIndex] at h
  split at h
  · next rest heq => rw [heq]; rfl
  · cases h

theorem tmpIndex_eq_none {name : String} (h : name.toList.head? ≠ some 't') :
    tmpIndex name = none :=
  Option.eq_none_iff_forall_ne_some.mpr fun _ hidx => h (tmpIndex_head hidx)

namespace FuncCtx

variable (ctx : FuncCtx)

/-- The operand that a value gives in the place of an identifier. -/
def inPlace (ln n : Nat) (shape : Shape) (value : AstValue) : AstValue → Option Operand
  | .deref _ => ((astValToSlot ctx value).bind SlotRef.behind).map .slot
  | _ => (ctx.resolve ln n value shape).toOption

/-- The slot of a target: that of its name, that of the local, or that of the `DEFINE`. -/
theorem astValToSlot_eq {v : AstValue} {name : String} (hname : v.identifier = some name) :
    astValToSlot ctx v = v.slotByName.or (((ctx.locals.lookup name).map v.atLocal).or
      (if v.looksUp then
        match ctx.defines.lookup name with
        | some (.integer n) => some (.local_ (n.setWidth 8))
        | _ => none
      else none)) := by
  cases v with
  | ident _ =>
    cases hname
    rw [astValToSlot, AstValue.slotByName]
    cases hb : builtInNames.lookup name with
    | some b => rfl
    | none =>
      by_cases ht : name.toList.head? = some 't'
      · have hlook : AstValue.looksUp (.ident name) = false := by
          rw [AstValue.looksUp, ht]
          rfl
        rw [if_pos ht, hlook]
        cases tmpIndex name with
        | some k => rfl
        | none => cases ctx.locals.lookup name <;> rfl
      · have hlook : AstValue.looksUp (.ident name) = true := bne_iff_ne.mpr ht
        rw [if_neg ht, hlook, tmpIndex_eq_none ht]
        cases ctx.locals.lookup name <;> rfl
  | deref _ =>
    cases hname
    rw [astValToSlot, AstValue.slotByName]
    cases tmpIndex name with
    | some k => rfl
    | none => cases ctx.locals.lookup name <;> rfl
  | _ => cases hname

/-- The operand of a value: that of its name, that of the local, or that of the `DEFINE`, if it is
looked up. -/
theorem valOp_eq {v : AstValue} {name : String} (hname : v.identifier = some name) :
    (∀ s, v.slotByName.or ((ctx.locals.lookup name).map v.atLocal) = some s →
      ctx.valOp v = .ok (.slot s)) ∧
    (v.slotByName.or ((ctx.locals.lookup name).map v.atLocal) = none →
      (v.looksUp = false → ctx.valOp v = .ok (.slot (v.atLocal 0))) ∧
      ∀ value, v.looksUp = true → ctx.defines.lookup name = some value →
        ctx.valOp v = ctx.valOp value) := by
  cases v with
  | ident _ =>
    cases hname
    rw [AstValue.slotByName]
    simp only [valOp]
    cases hb : builtInNames.lookup name with
    | some b =>
      refine ⟨?_, by rintro ⟨⟩⟩
      rintro s ⟨⟩
      rw [astValueToOperand, hb]
    | none =>
      by_cases ht : name.toList.head? = some 't'
      · have hlook : AstValue.looksUp (.ident name) = false := by
          rw [AstValue.looksUp, ht]
          rfl
        rw [hlook]
        simp only [astValueToOperand, hb, if_pos ht]
        cases tmpIndex name with
        | some k =>
          refine ⟨?_, by rintro ⟨⟩⟩
          rintro s ⟨⟩
          rfl
        | none =>
          cases ctx.locals.lookup name with
          | some idx =>
            refine ⟨?_, by rintro ⟨⟩⟩
            rintro s ⟨⟩
            rfl
          | none => exact ⟨by rintro _ ⟨⟩, fun _ => ⟨fun _ => rfl, by rintro _ ⟨⟩⟩⟩
      · have hlook : AstValue.looksUp (.ident name) = true := bne_iff_ne.mpr ht
        rw [hlook, tmpIndex_eq_none ht]
        cases hl : ctx.locals.lookup name with
        | some idx =>
          refine ⟨?_, by rintro ⟨⟩⟩
          rintro s ⟨⟩
          simp only [astValueToOperand, hb, if_neg ht, hl]
          rfl
        | none =>
          refine ⟨by rintro _ ⟨⟩, fun _ => ⟨by rintro ⟨⟩, fun value _ hvalue => ?_⟩⟩
          refine astValueToOperand_define ?_
          rw [valueStep, hb]
          simp only [if_neg ht, hl]
          exact hvalue
  | deref _ =>
    cases hname
    rw [AstValue.slotByName]
    simp only [valOp, astValueToOperand]
    cases tmpIndex name with
    | some k =>
      refine ⟨?_, by rintro ⟨⟩⟩
      rintro s ⟨⟩
      rfl
    | none =>
      cases ctx.locals.lookup name with
      | some idx =>
        refine ⟨?_, by rintro ⟨⟩⟩
        rintro s ⟨⟩
        rfl
      | none => exact ⟨by rintro _ ⟨⟩, fun _ => ⟨fun _ => rfl, by rintro _ ⟨⟩⟩⟩
  | _ => cases hname

variable {ctx} {ln n : Nat} {shape : Shape} {v : AstValue} {name : String} {op : Operand}

/-- The operand that an identifier resolves to as a value or a target. -/
theorem resolve_identifier (hshape : shape = .val ∨ shape = .slot)
    (hname : v.identifier = some name) (h : ctx.resolve ln n v shape = .ok op) :
    (∀ s, v.slotByName.or ((ctx.locals.lookup name).map v.atLocal) = some s → op = .slot s) ∧
    (v.slotByName.or ((ctx.locals.lookup name).map v.atLocal) = none →
      (v.looksUp = false → op = .slot (v.atLocal 0)) ∧
      ∀ value, v.looksUp = true → ctx.defines.lookup name = some value →
        ctx.resolve ln n value shape = .ok op) := by
  rcases hshape with rfl | rfl
  · obtain ⟨hsome, hnone⟩ := ctx.valOp_eq hname
    have hval : ctx.valOp v = .ok op := h
    refine ⟨fun s hs => ?_, fun hn => ⟨fun hlook => ?_, fun value hlook hvalue => ?_⟩⟩
    · cases (hsome s hs).symm.trans hval
      rfl
    · cases ((hnone hn).1 hlook).symm.trans hval
      rfl
    · exact ((hnone hn).2 value hlook hvalue).symm.trans hval
  · have hslot := ctx.astValToSlot_eq hname
    rw [← Option.or_assoc] at hslot
    rw [resolve, slotOp] at h
    refine ⟨fun s hs => ?_, fun hn => ⟨fun hlook => ?_, fun value hlook hvalue => ?_⟩⟩
    · rw [hs, Option.some_or] at hslot
      rw [hslot] at h
      cases h
      rfl
    · rw [hn, hlook] at hslot
      rw [hslot] at h
      cases h
    · rw [hn, hlook, hvalue] at hslot
      rw [hslot] at h
      cases value with
      | integer n => exact h
      | _ => cases h

/-- Of a local. -/
theorem resolve_local {idx : U8} (hshape : shape = .val ∨ shape = .slot)
    (hname : v.identifier = some name) (hlocal : ctx.locals.lookup name = some idx)
    (h : ctx.resolve ln n v shape = .ok op) : op = .slot (v.slotByName.getD (v.atLocal idx)) := by
  refine (resolve_identifier hshape hname h).1 _ ?_
  rw [hlocal]
  cases v.slotByName <;> rfl

/-- Of a `DEFINE`. -/
theorem resolve_define {value : AstValue} (hshape : shape = .val ∨ shape = .slot)
    (hname : v.identifier = some name) (hlocal : ctx.locals.lookup name = none)
    (hdefine : ctx.defines.lookup name = some value) (h : ctx.resolve ln n v shape = .ok op) :
    (∀ s, v.slotUnlooked = some s → op = .slot s) ∧
      (v.slotUnlooked = none → ctx.inPlace ln n shape value v = some op) := by
  have hres := resolve_identifier hshape hname h
  rw [hlocal, Option.map_none, Option.or_none] at hres
  rw [AstValue.slotUnlooked]
  cases hs : v.slotByName with
  | some s =>
    refine ⟨?_, nofun⟩
    rintro s' ⟨⟩
    exact hres.1 s hs
  | none =>
    obtain ⟨hzero, hvalue⟩ := hres.2 hs
    cases hlook : v.looksUp with
    | false =>
      refine ⟨?_, nofun⟩
      rintro s' ⟨⟩
      exact hzero hlook
    | true =>
      refine ⟨nofun, fun _ => ?_⟩
      have hval := hvalue value hlook hdefine
      cases v with
      | ident _ =>
        rw [inPlace, hval]
        · rfl
        · exact nofun
      | _ => cases hlook

/-- Elsewhere a dereference is the key 0, if it is accepted. -/
theorem resolve_deref (hshape : shape ≠ .val) (hshape' : shape ≠ .slot)
    (h : ctx.resolve ln n (.deref name) shape = .ok op) : op = .key 0 := by
  cases shape with
  | val => exact absurd rfl hshape
  | slot => exact absurd rfl hshape'
  | key =>
    cases h
    rfl
  | _ => cases h

end FuncCtx

/-! ## Soundness -/

/-- The operand expression at position `n` of the instruction is an identifier, as a value, as a
target or after a `&`. -/
structure Instr.UsesName (instr : Instr) (n : Nat) (shape : Shape) (v : AstValue)
    (name : String) : Prop where
  shape_eq : instr.shapes[n]? = some shape
  operand_eq : instr.operands[n]? = some v
  name_eq : v.identifier = some name
  kind : shape = .val ∨ shape = .slot ∨ v = .deref name

/-- The name is that of a special symbol, or of a register in a `TMP_BLOCK`. -/
def FunctionDef.Knows (fd : FunctionDef) (ip : Nat) (name : String) : Prop :=
  (∃ b, builtInNames.lookup name = some b) ∨
    (∃ k ≤ 15, name = "t" ++ toString k) ∧ fd.tmpBlocks ip ≠ []

/-- The operand of the instruction at `ip` is what its identifier denotes. -/
structure NameSound (ast : ProgramAst) (f : Function) (fd : FunctionDef) (ip ln n : Nat)
    (shape : Shape) (v : AstValue) (name : String) (op : Operand) : Prop where
  local_ : ∀ decl, f.Declares decl → decl.name = name → op = .slot (v.atLocal decl.index)
  define : ¬ f.DeclaresName name → ∀ value, ast.defineMap.lookup name = some value →
    (f.emitCtx ast).inPlace ln n shape value v = some op
  other : ¬ f.DeclaresName name → ast.defineMap.lookup name = none → fd.Knows ip name

/-- The name of the identifier is used for one thing only. -/
structure NameClear (ast : ProgramAst) (f : Function) (fd : FunctionDef) (ip ln n : Nat)
    (shape : Shape) (v : AstValue) (name : String) : Prop where
  /-- that of a local is no special symbol and no register, and all its declarations agree -/
  local_ : f.DeclaresName name → (shape = .val ∨ shape = .slot) ∧ v.slotByName = none ∧
    ∀ decl decl', f.Declares decl → f.Declares decl' → decl.name = name → decl'.name = name →
      decl.index = decl'.index
  /-- that of a `DEFINE` is looked up, or its value is the slot that the name is taken for -/
  define : ¬ f.DeclaresName name → ∀ value, ast.defineMap.lookup name = some value →
    (shape = .val ∨ shape = .slot) ∧ ∀ s, v.slotUnlooked = some s →
      (f.emitCtx ast).inPlace ln n shape value v = some (.slot s)
  other : ¬ f.DeclaresName name → ast.defineMap.lookup name = none → fd.Knows ip name

section Soundness

variable {ast : ProgramAst} {f : Function} {fd : FunctionDef} {ip ln n : Nat} {shape : Shape}
  {v : AstValue} {name : String} {op : Operand}

theorem AstValue.atLocal_inj {idx idx' : U8} (h : v.atLocal idx = v.atLocal idx') : idx = idx' := by
  cases v <;> cases h <;> rfl

/-- A special symbol or a register is no local. -/
theorem AstValue.slotByName_ne_atLocal {s : SlotRef} (h : v.slotByName = some s) (idx : U8) :
    s ≠ v.atLocal idx := by
  cases v with
  | ident name =>
    rw [slotByName] at h
    split at h
    · cases h
      exact nofun
    · obtain ⟨k, -, rfl⟩ := Option.map_eq_some_iff.mp h
      exact nofun
  | deref name =>
    obtain ⟨k, -, rfl⟩ := Option.map_eq_some_iff.mp h
    exact nofun
  | _ => cases h

theorem FuncCtx.inPlace_ne_key {value : AstValue} {k : U32} :
    (f.emitCtx ast).inPlace ln n shape value (.deref name) ≠ some (.key k) := by
  intro h
  obtain ⟨s, -, hs⟩ := Option.map_eq_some_iff.mp h
  cases hs

/-- A `&` where neither a value nor a target stands is taken for a key. -/
theorem nameSound_iff_deref (hshape : ¬ (shape = .val ∨ shape = .slot))
    (h : (f.emitCtx ast).resolve ln n (.deref name) shape = .ok op) :
    NameSound ast f fd ip ln n shape (.deref name) name op ↔
      NameClear ast f fd ip ln n shape (.deref name) name := by
  obtain ⟨hval, hslot⟩ := not_or.mp hshape
  cases FuncCtx.resolve_deref hval hslot h
  constructor
  · intro hs
    refine ⟨?_, ?_, hs.other⟩
    · rintro ⟨decl, hdecl, hdname⟩
      cases hs.local_ decl hdecl hdname
    · intro hno value hvalue
      exact absurd (hs.define hno value hvalue) FuncCtx.inPlace_ne_key
  · intro hc
    refine ⟨?_, ?_, hc.other⟩
    · intro decl hdecl hdname
      exact absurd (hc.local_ ⟨decl, hdecl, hdname⟩).1 hshape
    · intro hno value hvalue
      exact absurd (hc.define hno value hvalue).1 hshape

section InPlace

variable (hshape : shape = .val ∨ shape = .slot) (hname : v.identifier = some name)
  (h : (f.emitCtx ast).resolve ln n v shape = .ok op)
include hshape hname h

theorem nameSound_iff_local {idx : U8} (hlocal : (f.emitCtx ast).locals.lookup name = some idx) :
    NameSound ast f fd ip ln n shape v name op ↔ NameClear ast f fd ip ln n shape v name := by
  have hop := FuncCtx.resolve_local hshape hname hlocal h
  obtain ⟨decl, hdecl, hdname, hidx⟩ := f.declares_of_lookup ast hlocal
  have hdeclared : f.DeclaresName name := ⟨decl, hdecl, hdname⟩
  constructor
  · intro hs
    have hone := hs.local_ decl hdecl hdname
    refine ⟨fun _ => ⟨hshape, ?_, ?_⟩, fun hno => absurd hdeclared hno,
      fun hno => absurd hdeclared hno⟩
    · cases hsbn : v.slotByName with
      | none => rfl
      | some s =>
        rw [hop, hsbn] at hone
        injection hone with hone
        exact absurd hone (AstValue.slotByName_ne_atLocal hsbn _)
    · intro decl₁ decl₂ h₁ h₂ hname₁ hname₂
      have heq := (hs.local_ decl₁ h₁ hname₁).symm.trans (hs.local_ decl₂ h₂ hname₂)
      injection heq with heq
      exact AstValue.atLocal_inj heq
  · intro hc
    obtain ⟨-, hnone, hagree⟩ := hc.local_ hdeclared
    refine ⟨?_, fun hno => absurd hdeclared hno, fun hno => absurd hdeclared hno⟩
    intro decl' hdecl' hdname'
    rw [hop, hnone, ← hidx, hagree decl decl' hdecl hdecl' hdname hdname']
    rfl

theorem nameSound_iff_undeclared (hlocal : (f.emitCtx ast).locals.lookup name = none) :
    NameSound ast f fd ip ln n shape v name op ↔ NameClear ast f fd ip ln n shape v name := by
  have hno : ¬ f.DeclaresName name := (f.lookup_local_eq_none ast).mp hlocal
  constructor
  · intro hs
    refine ⟨fun hdeclared => absurd hdeclared hno, fun _ value hvalue => ⟨hshape, ?_⟩, hs.other⟩
    intro s hslot
    rw [← (FuncCtx.resolve_define hshape hname hlocal hvalue h).1 s hslot]
    exact hs.define hno value hvalue
  · intro hc
    refine ⟨fun decl hdecl hdname => absurd ⟨decl, hdecl, hdname⟩ hno, ?_, hc.other⟩
    intro _ value hvalue
    obtain ⟨hsome, hnone⟩ := FuncCtx.resolve_define hshape hname hlocal hvalue h
    cases hslot : v.slotUnlooked with
    | none => exact hnone hslot
    | some s =>
      rw [hsome s hslot]
      exact (hc.define hno value hvalue).2 s hslot

end InPlace

/-- An operand denotes what its identifier does exactly if the name is used for one thing. -/
theorem nameSound_iff (hname : v.identifier = some name)
    (hkind : shape = .val ∨ shape = .slot ∨ v = .deref name)
    (h : (f.emitCtx ast).resolve ln n v shape = .ok op) :
    NameSound ast f fd ip ln n shape v name op ↔ NameClear ast f fd ip ln n shape v name := by
  by_cases hshape : shape = .val ∨ shape = .slot
  · cases hlocal : (f.emitCtx ast).locals.lookup name with
    | some idx => exact nameSound_iff_local hshape hname h hlocal
    | none => exact nameSound_iff_undeclared hshape hname h hlocal
  · rcases hkind with hval | hslot | rfl
    · exact absurd (.inl hval) hshape
    · exact absurd (.inr hslot) hshape
    · exact nameSound_iff_deref hshape h

end Soundness

/-- **Identifiers denote what they name** exactly where the name is used for one thing only: in
an accepted source, the operand that is emitted for a value, a target or a dereference. -/
theorem names_resolve_iff {u : Unicode} {src : String} {ast : ProgramAst} {p : Program} {i : Nat}
    {f : Function} {fd : FunctionDef} {instr : Instr} {next : List Statement} {s : Progress}
    {n : Nat} {shape : Shape} {v : AstValue} {name : String} (hast : frontend u src = .ok ast)
    (hp : compileSource u src = .ok p) (hf : ast.functions[i]? = some f)
    (hfd : p.functions[i]? = some fd)
    (hv : Visits (f.emitCtx ast) f.body .start (.instr instr) next s)
    (huse : instr.UsesName n shape v name) :
    (∃ c op, fd.instructions[s.out.length]? = some c ∧ c.operands[n]? = some op ∧
      NameSound ast f fd s.out.length instr.line n shape v name op) ↔
      NameClear ast f fd s.out.length instr.line n shape v name := by
  rw [compileSource_eq hast] at hp
  obtain ⟨f', hf', hcomp⟩ := emit_function hp hfd
  cases hf.symm.trans hf'
  obtain ⟨c, hc, hat⟩ := hv.instr_at hcomp.code_eq
  obtain ⟨v', op, hv', hop, hres⟩ := (FuncCtx.emitInstr_eq _ hc).2 huse.shape_eq
  cases huse.operand_eq.symm.trans hv'
  rw [← nameSound_iff huse.name_eq huse.kind hres]
  constructor
  · rintro ⟨c', op', hat', hop', hsound⟩
    cases hat.symm.trans hat'
    cases hop.symm.trans hop'
    exact hsound
  · exact fun hsound => ⟨c, op, hat, hop, hsound⟩

section Example

/-- A function with a local `y`, and a name `x` that is declared nowhere. -/
def undeclaredSource : String := "FUNC Main\nLOCAL 1, INT32, y\nMOV x, y\nENDF"

private def undeclaredTokens : List Token :=
  [⟨.ident "FUNC", 1⟩, ⟨.ident "Main", 1⟩, ⟨.ident "LOCAL", 2⟩, ⟨.integer 1, 2⟩, ⟨.comma, 2⟩,
    ⟨.ident "INT32", 2⟩, ⟨.comma, 2⟩, ⟨.ident "y", 2⟩, ⟨.ident "MOV", 3⟩, ⟨.ident "x", 3⟩,
    ⟨.comma, 3⟩, ⟨.ident "y", 3⟩, ⟨.ident "ENDF", 4⟩, ⟨.eof, 4⟩]

/-- Its `MOV`. -/
def undeclaredMov : Instr := ⟨"MOV", [.ident "x", .ident "y"], 3⟩

/-- Its function. -/
def undeclaredFunction : Function :=
  ⟨"Main", [], [.local_ ⟨1, .int .int32, "y", 2⟩, .instr undeclaredMov], 1⟩

/-- Its code. -/
def undeclaredCode : FunctionDef :=
  ⟨"Main", [], [⟨.reserve, [.slot (.local_ 1), .type (.int .int32), .imm .null]⟩,
    ⟨.mov, [.slot (.local_ 0), .slot (.local_ 1)]⟩]⟩

private theorem undeclared_tokens : tokenize .ascii undeclaredSource = .ok undeclaredTokens := (rfl)

theorem undeclared_frontend :
    frontend .ascii undeclaredSource = .ok ⟨[], [], [], [undeclaredFunction]⟩ :=
  frontend_eq undeclared_tokens rfl rfl

theorem undeclared_compiles :
    compileSource .ascii undeclaredSource = .ok ⟨1, [], [undeclaredCode]⟩ :=
  (compileSource_eq undeclared_frontend).trans rfl

/-- The passes at the `MOV`. -/
def undeclaredProgress : Progress :=
  ⟨⟨[("y", 1)], [], 1⟩, [⟨.reserve, [.slot (.local_ 1), .type (.int .int32), .imm .null]⟩]⟩

theorem undeclared_visits :
    Visits (undeclaredFunction.emitCtx ⟨[], [], [], [undeclaredFunction]⟩) undeclaredFunction.body
      .start (.instr undeclaredMov) [] undeclaredProgress :=
  .later rfl .here

/-- The target of the `MOV`. -/
theorem names_resolve_iff_target :
    (∃ c op, undeclaredCode.instructions[undeclaredProgress.out.length]? = some c ∧
      c.operands[1]? = some op ∧ NameSound ⟨[], [], [], [undeclaredFunction]⟩ undeclaredFunction
        undeclaredCode undeclaredProgress.out.length 3 1 .slot (.ident "y") "y" op) ↔
      NameClear ⟨[], [], [], [undeclaredFunction]⟩ undeclaredFunction undeclaredCode
        undeclaredProgress.out.length 3 1 .slot (.ident "y") "y" :=
  names_resolve_iff undeclared_frontend undeclared_compiles (i := 0) rfl rfl undeclared_visits
    ⟨rfl, rfl, rfl, .inr (.inl rfl)⟩

/-- The name that is declared nowhere is accepted, and is taken for local 0. -/
theorem undeclared_reads_local :
    compileSource .ascii undeclaredSource = .ok ⟨1, [], [undeclaredCode]⟩ ∧
      undeclaredMov.UsesName 0 .val (.ident "x") "x" ∧
      undeclaredCode.instructions[1]? = some ⟨.mov, [.slot (.local_ 0), .slot (.local_ 1)]⟩ ∧
      ¬ NameSound ⟨[], [], [], [undeclaredFunction]⟩ undeclaredFunction undeclaredCode
        undeclaredProgress.out.length 3 0 .val (.ident "x") "x" (.slot (.local_ 0)) := by
  refine ⟨undeclared_compiles, ⟨rfl, rfl, rfl, .inl rfl⟩, rfl, fun h => ?_⟩
  have hno : ¬ undeclaredFunction.DeclaresName "x" :=
    (undeclaredFunction.lookup_local_eq_none ⟨[], [], [], [undeclaredFunction]⟩).mp rfl
  rcases h.other hno rfl with ⟨b, hb⟩ | ⟨-, htmp⟩
  · exact absurd hb nofun
  · exact htmp rfl

end Example

end Fasm
