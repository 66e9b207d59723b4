import Fasm.Compiler.Emitter
import Fasm.Vm.Dispatch

/-!
# Where the code of a statement is

The two passes of the emitter agree on the positions of statements.  In the code of a
function the `TRY`, `CATCH` and `ENDTRY` instructions are exactly those of its `TRY`
blocks, and the blocks are nested in one another or apart.
-/

namespace Fasm

/-! ## Sizes, blocks and labels -/

mutual

/-- The number of instructions of a statement. -/
def Statement.size : Statement → Nat
  | .local_ _ => 1
  | .label _ _ => 0
  | .instr _ => 1
  | .tryBlock _ _ body catchBody _ => sizeOfAll body + sizeOfAll catchBody + 3

/-- The number of instructions of a list of statements. -/
def sizeOfAll : List Statement → Nat
  | [] => 0
  | stmt :: stmts => stmt.size + sizeOfAll stmts

end

/-- A `TRY` block in the code of a function: its three instructions and its labels. -/
structure TryBlock where
  tryIp : Nat
  catchIp : Nat
  endIp : Nat
  catchLabel : String
  endLabel : String

mutual

/-- The `TRY` blocks of a statement whose code starts at `ip`. -/
def Statement.tryBlocks : Statement → (ip : Nat) → List TryBlock
  | .local_ _, _ => []
  | .label _ _, _ => []
  | .instr _, _ => []
  | .tryBlock catchLabel endLabel body catchBody _, ip =>
    let catchIp := ip + 1 + sizeOfAll body
    let endIp := catchIp + 1 + sizeOfAll catchBody
    ⟨ip, catchIp, endIp, catchLabel, endLabel⟩ ::
      (tryBlocksOfAll body (ip + 1) ++ tryBlocksOfAll catchBody (catchIp + 1))

/-- The `TRY` blocks of statements whose code starts at `ip`. -/
def tryBlocksOfAll : List Statement → (ip : Nat) → List TryBlock
  | [], _ => []
  | stmt :: stmts, ip => stmt.tryBlocks ip ++ tryBlocksOfAll stmts (ip + stmt.size)

end

mutual

/-- The labels of a statement and what they denote, in order of their declarations. -/
def Statement.labelSites : Statement → (ip : Nat) → List (String × Nat)
  | .local_ _, _ => []
  | .label name _, ip => [(name, ip)]
  | .instr _, _ => []
  | .tryBlock catchLabel endLabel body catchBody _, ip =>
    let catchIp := ip + 1 + sizeOfAll body
    let endIp := catchIp + 1 + sizeOfAll catchBody
    labelSitesOfAll body (ip + 1) ++ (catchLabel, catchIp) ::
      labelSitesOfAll catchBody (catchIp + 1) ++ [(endLabel, endIp)]

/-- The labels of statements. -/
def labelSitesOfAll : List Statement → (ip : Nat) → List (String × Nat)
  | [], _ => []
  | stmt :: stmts, ip => stmt.labelSites ip ++ labelSitesOfAll stmts (ip + stmt.size)

end

/-- The `TRY` blocks of a function. -/
def Function.tryBlocks (f : Function) : List TryBlock := tryBlocksOfAll f.body 0

/-- What the last declaration of a label denotes. -/
def Function.lastSite (f : Function) (name : String) : Option Nat :=
  (labelSitesOfAll f.body 0).reverse.lookup name

/-! ## The first pass -/

/-- A label with its position as the emitter keeps it. -/
def toIp (site : String × Nat) : String × U32 := (site.1, .ofNat 32 site.2)

theorem lookup_map_toIp (sites : List (String × Nat)) (name : String) :
    (sites.map toIp).lookup name = (sites.lookup name).map (BitVec.ofNat 32) := by
  induction sites with
  | nil => rfl
  | cons site sites ih =>
    obtain ⟨name', i⟩ := site
    simp only [List.map_cons, toIp, List.lookup_cons]
    cases name == name'
    · exact ih
    · rfl

theorem FirstPass.next_ip {st : FirstPass} {k : Nat} (h : st.ip = .ofNat 32 k) :
    st.next.ip = .ofNat 32 (k + 1) := by
  show st.ip + 1 = _
  rw [h, BitVec.ofNat_add]
  rfl

theorem FirstPass.insertLabel_labels {st : FirstPass} {k : Nat} (h : st.ip = .ofNat 32 k)
    (name : String) : (st.insertLabel name).labels = toIp (name, k) :: st.labels := by
  rw [FirstPass.insertLabel, toIp, h]

mutual

/-- The first pass is at the `ip` where the code of the statement ends, and has inserted its
labels. -/
theorem collectStatement_eq : ∀ (stmt : Statement) {st : FirstPass} {k : Nat},
    st.ip = .ofNat 32 k →
    (collectStatement stmt st).ip = .ofNat 32 (k + stmt.size) ∧
      (collectStatement stmt st).labels = ((stmt.labelSites k).reverse.map toIp) ++ st.labels
  | .local_ decl, st, k, h =>
    ⟨@FirstPass.next_ip { st with locals := (decl.name, decl.index) :: st.locals } k h, rfl⟩
  | .label name _, st, k, h => ⟨h, FirstPass.insertLabel_labels h name⟩
  | .instr _, st, k, h => ⟨FirstPass.next_ip h, rfl⟩
  | .tryBlock catchLabel endLabel body catchBody _, st, k, h => by
    obtain ⟨hip, hlabels⟩ := collectStatements_eq body (FirstPass.next_ip h)
    let st₁ := (collectStatements body st.next).insertLabel catchLabel
    have hip₁ : st₁.next.ip = .ofNat 32 (k + 1 + sizeOfAll body + 1) := FirstPass.next_ip hip
    have hlabels₁ : st₁.next.labels = _ := FirstPass.insertLabel_labels hip catchLabel
    obtain ⟨hip₂, hlabels₂⟩ := collectStatements_eq catchBody hip₁
    constructor
    · refine Eq.trans (FirstPass.next_ip hip₂) (congrArg _ ?_)
      simp only [Statement.size]
      omega
    · refine Eq.trans (FirstPass.insertLabel_labels hip₂ endLabel) ?_
      rw [hlabels₂, hlabels₁, hlabels]
      simp [Statement.labelSites, FirstPass.next]

/-- The same for statements. -/
theorem collectStatements_eq : ∀ (stmts : List Statement) {st : FirstPass} {k : Nat},
    st.ip = .ofNat 32 k →
    (collectStatements stmts st).ip = .ofNat 32 (k + sizeOfAll stmts) ∧
      (collectStatements stmts st).labels =
        ((labelSitesOfAll stmts k).reverse.map toIp) ++ st.labels
  | [], st, k, h => ⟨h, rfl⟩
  | stmt :: stmts, st, k, h => by
    obtain ⟨hip, hlabels⟩ := collectStatement_eq stmt h
    obtain ⟨hip', hlabels'⟩ := collectStatements_eq stmts hip
    simp only [collectStatements, sizeOfAll, labelSitesOfAll]
    refine ⟨by rw [hip', Nat.add_assoc], ?_⟩
    rw [hlabels', hlabels, List.reverse_append, List.map_append, List.append_assoc]

end

/-- A label resolves to the position of its last declaration, modulo `2 ^ 32`. -/
theorem Function.lookup_label (f : Function) (defines : List (String × AstValue))
    (funcIndexMap : List (String × U16)) (name : String) :
    (f.ctx defines funcIndexMap).labelPositions.lookup name =
      (f.lastSite name).map (BitVec.ofNat 32) := by
  let st : FirstPass := ⟨[], [], 0⟩
  have h := (collectStatements_eq f.body (rfl : st.ip = .ofNat 32 0)).2
  rw [Function.ctx, Function.lastSite, ← lookup_map_toIp, h, List.append_nil]

/-! ## The second pass -/

/-- The opcodes of the instruction table set no guard. -/
theorem setsGuard_of_mem_instrTable {name : String} {opcode : Opcode} {shapes : List Shape}
    (h : (name, opcode, shapes) ∈ instrTable) : opcode.setsGuard = false := by
  have hall : instrTable.all (fun entry => !entry.2.1.setsGuard) = true := by decide
  have hentry := List.all_eq_true.mp hall _ h
  simpa using hentry

namespace FuncCtx

variable (ctx : FuncCtx)

/-- The ways in which `emit_instr` comes to an instruction. -/
inductive InstrEmits (instr : Instr) : Instruction → Prop
  | tmpBlock (hm : instr.mnemonic = "TMP_BLOCK") : InstrEmits instr (.noArgs .tmpBlock)
  | endTmp (hm : instr.mnemonic = "END_TMP") : InstrEmits instr (.noArgs .endTmp)
  | ret (hm : instr.mnemonic = "RET") (hnil : instr.operands = []) : InstrEmits instr (.noArgs .ret)
  | retVal {v : AstValue} {vs : List AstValue} {op : Operand} (hm : instr.mnemonic = "RET")
    (hcons : instr.operands = v :: vs) (hop : ctx.valOp v = .ok op) : InstrEmits instr ⟨.ret, [op]⟩
  | table {opcode : Opcode} {shapes : List Shape} {ops : List Operand}
    (htmp : instr.mnemonic ≠ "TMP_BLOCK") (hend : instr.mnemonic ≠ "END_TMP")
    (hret : instr.mnemonic ≠ "RET")
    (hlookup : instrTable.lookup instr.mnemonic = some (opcode, shapes))
    (hops : ctx.resolveAll instr 0 shapes = .ok ops) : InstrEmits instr ⟨opcode, ops⟩

theorem instrEmits_of_emitInstr {instr : Instr} {code : Instruction}
    (h : ctx.emitInstr instr = .ok code) : ctx.InstrEmits instr code := by
  rw [emitInstr] at h
  split at h
  case isTrue hm => cases h; exact .tmpBlock hm
  case isFalse htmp =>
    split at h
    case isTrue hm => cases h; exact .endTmp hm
    case isFalse hend =>
      split at h
      case isTrue hm =>
        split at h
        case h_1 hnil => cases h; exact .ret hm hnil
        case h_2 v vs hcons =>
          obtain ⟨op, hop, h⟩ := bind_eq_ok h
          cases h
          exact .retVal hm hcons hop
      case isFalse hret =>
        split at h
        case h_1 opcode shapes hlookup =>
          obtain ⟨ops, hops, h⟩ := bind_eq_ok h
          cases h
          exact .table htmp hend hret hlookup hops
        case h_2 => cases h

/-- A mnemonic does not become a `TRY`, `CATCH` or `ENDTRY`. -/
theorem emitInstr_setsGuard {instr : Instr} {code : Instruction}
    (h : ctx.emitInstr instr = .ok code) : code.opcode.setsGuard = false := by
  cases ctx.instrEmits_of_emitInstr h with
  | tmpBlock | endTmp | ret | retVal => rfl
  | table _ _ _ hlookup _ => exact setsGuard_of_mem_instrTable (mem_of_lookup hlookup)

/-! ### Sizes -/

mutual

/-- The code of a statement has as many instructions as the first pass counts. -/
theorem length_emitStatement : ∀ (stmt : Statement) {code : List Instruction},
    ctx.emitStatement stmt = .ok code → code.length = stmt.size
  | .local_ _, code, h => by cases h; rfl
  | .label _ _, code, h => by cases h; rfl
  | .instr _, code, h => by
    obtain ⟨c, -, h⟩ := bind_eq_ok h
    cases h
    rfl
  | .tryBlock _ _ body catchBody _, code, h => by
    obtain ⟨bodyCode, hbody, h⟩ := bind_eq_ok h
    obtain ⟨catchCode, hcatch, h⟩ := bind_eq_ok h
    cases h
    have h₁ := length_emitStatements body hbody
    have h₂ := length_emitStatements catchBody hcatch
    simp only [List.length_append, List.length_cons, List.length_nil, Statement.size]
    omega

/-- The same for statements. -/
theorem length_emitStatements : ∀ (stmts : List Statement) {code : List Instruction},
    ctx.emitStatements stmts = .ok code → code.length = sizeOfAll stmts
  | [], code, h => by cases h; rfl
  | stmt :: stmts, code, h => by
    obtain ⟨c₁, h₁, h⟩ := bind_eq_ok h
    obtain ⟨c₂, h₂, h⟩ := bind_eq_ok h
    cases h
    rw [List.length_append, length_emitStatement stmt h₁, length_emitStatements stmts h₂,
      sizeOfAll]

end

/-! ### Guard instructions -/

/-- The three instructions of a `TRY` block with their positions. -/
def marks (b : TryBlock) : List (Instruction × Nat) :=
  let catchIp := ctx.labelIp b.catchLabel
  let endIp := ctx.labelIp b.endLabel
  [(⟨.try_, [.labelTarget catchIp, .labelTarget endIp]⟩, b.tryIp),
    (⟨.catch_, [.labelTarget endIp]⟩, b.catchIp), (.noArgs .endTry, b.endIp)]

mutual

/-- In the code of a statement at `ip`, the instructions that set or clear a guard are those of
its `TRY` blocks. -/
theorem mem_emitStatement_iff : ∀ (stmt : Statement) {code : List Instruction} {ip : Nat},
    ctx.emitStatement stmt = .ok code → ∀ x : Instruction × Nat, x.1.opcode.setsGuard = true →
    (x ∈ code.zipIdx ip ↔ ∃ b ∈ stmt.tryBlocks ip, x ∈ ctx.marks b)
  | .local_ _, code, ip, h, x, hx => by
    cases h
    refine iff_of_false (fun hmem => ?_) (by simp [Statement.tryBlocks])
    rw [List.zipIdx_singleton, List.mem_singleton] at hmem
    rw [hmem] at hx
    cases hx
  | .label _ _, code, ip, h, x, hx => by
    cases h
    simp [Statement.tryBlocks]
  | .instr i, code, ip, h, x, hx => by
    obtain ⟨c, hc, h⟩ := bind_eq_ok h
    cases h
    refine iff_of_false (fun hmem => ?_) (by simp [Statement.tryBlocks])
    rw [List.zipIdx_singleton, List.mem_singleton] at hmem
    rw [hmem, ctx.emitInstr_setsGuard hc] at hx
    cases hx
  | .tryBlock catchLabel endLabel body catchBody line, code, ip, h, x, hx => by
    obtain ⟨bodyCode, hbody, h⟩ := bind_eq_ok h
    obtain ⟨catchCode, hcatch, h⟩ := bind_eq_ok h
    cases h
    have hlen := ctx.length_emitStatements body hbody
    have hlen' := ctx.length_emitStatements catchBody hcatch
    let catchIp := ip + 1 + sizeOfAll body
    let endIp := catchIp + 1 + sizeOfAll catchBody
    let b : TryBlock := ⟨ip, catchIp, endIp, catchLabel, endLabel⟩
    have h₁ : x ∈ bodyCode.zipIdx (ip + 1) ↔ _ := mem_emitStatements_iff body hbody x hx
    have h₂ : x ∈ catchCode.zipIdx (catchIp + 1) ↔ _ :=
      mem_emitStatements_iff catchBody hcatch x hx
    have hblocks : (∃ b ∈ Statement.tryBlocks (.tryBlock catchLabel endLabel body catchBody line) ip,
        x ∈ ctx.marks b) ↔ x ∈ ctx.marks b ∨ x ∈ bodyCode.zipIdx (ip + 1) ∨
          x ∈ catchCode.zipIdx (catchIp + 1) := by
      rw [h₁, h₂]
      simp only [Statement.tryBlocks, List.mem_cons, List.mem_append, or_and_right, exists_or,
        exists_eq_left]
      rfl
    rw [hblocks]
    simp only [List.zipIdx_append, List.zipIdx_cons, List.cons_append, List.mem_cons,
      List.mem_append, List.zipIdx_nil, List.not_mem_nil, or_false, marks, List.length_cons,
      List.length_append, hlen, hlen']
    have he : ip + 1 + (sizeOfAll body + (sizeOfAll catchBody + 1)) = endIp := by omega
    rw [he]
    constructor
    · rintro (h | (h | h | h) | h)
      · exact .inl (.inl h)
      · exact .inr (.inl h)
      · exact .inl (.inr (.inl h))
      · exact .inr (.inr h)
      · exact .inl (.inr (.inr h))
    · rintro ((h | h | h) | h | h)
      · exact .inl h
      · exact .inr (.inl (.inr (.inl h)))
      · exact .inr (.inr h)
      · exact .inr (.inl (.inl h))
      · exact .inr (.inl (.inr (.inr h)))

/-- The same for statements. -/
theorem mem_emitStatements_iff : ∀ (stmts : List Statement) {code : List Instruction} {ip : Nat},
    ctx.emitStatements stmts = .ok code → ∀ x : Instruction × Nat,
    x.1.opcode.setsGuard = true →
    (x ∈ code.zipIdx ip ↔ ∃ b ∈ tryBlocksOfAll stmts ip, x ∈ ctx.marks b)
  | [], code, ip, h, x, hx => by
    cases h
    simp [tryBlocksOfAll]
  | stmt :: stmts, code, ip, h, x, hx => by
    obtain ⟨c₁, h₁, h⟩ := bind_eq_ok h
    obtain ⟨c₂, h₂, h⟩ := bind_eq_ok h
    cases h
    rw [List.zipIdx_append, List.mem_append, ctx.length_emitStatement stmt h₁,
      mem_emitStatement_iff stmt h₁ x hx, mem_emitStatements_iff stmts h₂ x hx]
    simp only [tryBlocksOfAll, List.mem_append, or_and_right, exists_or]

end

end FuncCtx

/-! ## Nesting -/

/-- `b'` comes after `b`, or it is nested in the body or in the `CATCH` body of `b`. -/
def TryBlock.Before (b b' : TryBlock) : Prop :=
  b.endIp < b'.tryIp ∨ (b.tryIp < b'.tryIp ∧ b'.endIp < b.catchIp) ∨
    (b.catchIp < b'.tryIp ∧ b'.endIp < b.endIp)

/-- The instructions of the block are in order between `lo` and `hi`. -/
def TryBlock.Within (lo hi : Nat) (b : TryBlock) : Prop :=
  lo ≤ b.tryIp ∧ b.tryIp < b.catchIp ∧ b.catchIp < b.endIp ∧ b.endIp < hi

/-- Blocks within a range are nested or apart, outer and earlier ones first. -/
structure Nested (lo hi : Nat) (blocks : List TryBlock) : Prop where
  within : ∀ b ∈ blocks, b.Within lo hi
  pairwise : blocks.Pairwise TryBlock.Before

namespace Nested

theorem nil {lo hi : Nat} : Nested lo hi [] := ⟨nofun, .nil⟩

theorem append {lo mid mid' hi : Nat} {bs bs' : List TryBlock} (h : Nested lo mid bs)
    (h' : Nested mid' hi bs') (hmid : mid ≤ mid') (hlo : lo ≤ mid') (hhi : mid' ≤ hi) :
    Nested lo hi (bs ++ bs') := by
  constructor
  · intro b hb
    rcases List.mem_append.mp hb with hb | hb
    · obtain ⟨h₁, h₂, h₃, h₄⟩ := h.within b hb
      exact ⟨h₁, h₂, h₃, by omega⟩
    · obtain ⟨h₁, h₂, h₃, h₄⟩ := h'.within b hb
      exact ⟨by omega, h₂, h₃, h₄⟩
  · refine List.pairwise_append.mpr ⟨h.pairwise, h'.pairwise, fun b hb b' hb' => .inl ?_⟩
    obtain ⟨-, -, -, h₄⟩ := h.within b hb
    obtain ⟨h₁, -, -, -⟩ := h'.within b' hb'
    omega

end Nested

mutual

/-- The blocks of a statement are nested or apart. -/
theorem Statement.nested : ∀ (stmt : Statement) (ip : Nat),
    Nested ip (ip + stmt.size) (stmt.tryBlocks ip)
  | .local_ _, _ => .nil
  | .label _ _, _ => .nil
  | .instr _, _ => .nil
  | .tryBlock catchLabel endLabel body catchBody line, ip => by
    have h₁ := nestedOfAll body (ip + 1)
    have h₂ := nestedOfAll catchBody (ip + 1 + sizeOfAll body + 1)
    have hall := h₁.append h₂ (by omega) (by omega) (by omega)
    simp only [Statement.tryBlocks, Statement.size]
    constructor
    · rintro b (_ | ⟨_, hb⟩)
      · refine ⟨Nat.le_refl _, ?_, ?_, ?_⟩ <;> simp only <;> omega
      · obtain ⟨h₁, h₂, h₃, h₄⟩ := hall.within b hb
        exact ⟨by omega, h₂, h₃, by omega⟩
    · refine List.pairwise_cons.mpr ⟨fun b hb => .inr ?_, hall.pairwise⟩
      rcases List.mem_append.mp hb with hb | hb
      · obtain ⟨h₁, h₂, h₃, h₄⟩ := h₁.within b hb
        refine .inl ⟨?_, ?_⟩ <;> simp only <;> omega
      · obtain ⟨h₁, h₂, h₃, h₄⟩ := h₂.within b hb
        refine .inr ⟨?_, ?_⟩ <;> simp only <;> omega

/-- The same for statements. -/
theorem nestedOfAll : ∀ (stmts : List Statement) (ip : Nat),
    Nested ip (ip + sizeOfAll stmts) (tryBlocksOfAll stmts ip)
  | [], _ => .nil
  | stmt :: stmts, ip => by
    have h := (stmt.nested ip).append (nestedOfAll stmts (ip + stmt.size)) (Nat.le_refl _)
      (by omega) (by omega)
    rw [Nat.add_assoc] at h
    exact h

end

/-- Two blocks of a function are nested or apart, in one order or the other. -/
theorem Function.before_or_before (f : Function) {b b' : TryBlock} (hb : b ∈ f.tryBlocks)
    (hb' : b' ∈ f.tryBlocks) : b = b' ∨ b.Before b' ∨ b'.Before b := by
  have hp := (nestedOfAll f.body 0).pairwise
  exact List.Pairwise.forall_of_forall_of_flip
    (R := fun b b' => b = b' ∨ b.Before b' ∨ b'.Before b) (fun _ _ => .inl rfl)
    (hp.imp fun h => .inr (.inl h)) (hp.imp fun h => .inr (.inr h)) hb hb'

/-- The three instructions of a block are in order. -/
theorem Function.within (f : Function) {b : TryBlock} (hb : b ∈ f.tryBlocks) :
    b.tryIp < b.catchIp ∧ b.catchIp < b.endIp := by
  obtain ⟨-, h₁, h₂, -⟩ := (nestedOfAll f.body 0).within b hb
  exact ⟨h₁, h₂⟩

/-- The position is in the body of the block, or at its `CATCH`. -/
def TryBlock.InBody (b : TryBlock) (ip : Nat) : Prop := b.tryIp < ip ∧ ip ≤ b.catchIp

section Blocks

variable {f : Function} {b b' : TryBlock}

theorem Function.eq_of_tryIp (hb : b ∈ f.tryBlocks) (hb' : b' ∈ f.tryBlocks)
    (h : b.tryIp = b'.tryIp) : b = b' := by
  obtain ⟨h₁, h₂⟩ := f.within hb
  obtain ⟨h₁', h₂'⟩ := f.within hb'
  rcases f.before_or_before hb hb' with heq | hlt | hlt
  · exact heq
  · rcases hlt with h | h | h <;> omega
  · rcases hlt with h | h | h <;> omega

theorem Function.eq_of_catchIp (hb : b ∈ f.tryBlocks) (hb' : b' ∈ f.tryBlocks)
    (h : b.catchIp = b'.catchIp) : b = b' := by
  obtain ⟨h₁, h₂⟩ := f.within hb
  obtain ⟨h₁', h₂'⟩ := f.within hb'
  rcases f.before_or_before hb hb' with heq | hlt | hlt
  · exact heq
  · rcases hlt with h | h | h <;> omega
  · rcases hlt with h | h | h <;> omega

/-- A body around the `CATCH` of another block is around its `TRY`. -/
theorem Function.inBody_of_catchIp (hb : b ∈ f.tryBlocks) (hb' : b' ∈ f.tryBlocks) (hne : b ≠ b')
    (h : b'.InBody b.catchIp) : b'.InBody b.tryIp := by
  obtain ⟨h₁, h₂⟩ := f.within hb
  obtain ⟨h₁', h₂'⟩ := f.within hb'
  obtain ⟨hlo, hhi⟩ := h
  rcases f.before_or_before hb hb' with heq | hlt | hlt
  · exact absurd heq hne
  · rcases hlt with h | h | h <;> omega
  · rcases hlt with h | h | h
    · omega
    · exact ⟨h.1, by omega⟩
    · omega

/-- A body around the `ENDTRY` of a block is around its `TRY`. -/
theorem Function.inBody_of_endIp (hb : b ∈ f.tryBlocks) (hb' : b' ∈ f.tryBlocks)
    (h : b'.InBody b.endIp) : b'.InBody b.tryIp := by
  obtain ⟨h₁, h₂⟩ := f.within hb
  obtain ⟨h₁', h₂'⟩ := f.within hb'
  obtain ⟨hlo, hhi⟩ := h
  rcases f.before_or_before hb hb' with rfl | hlt | hlt
  · omega
  · rcases hlt with h | h | h <;> omega
  · rcases hlt with h | h | h
    · omega
    · exact ⟨h.1, by omega⟩
    · omega

end Blocks

/-! ## Compiled functions -/

/-- The elements of a mapped list are the images of the elements. -/
theorem getElem?_of_mapM {ε α β : Type} {g : α → Except ε β} {l : List α} {l' : List β}
    (h : l.mapM g = .ok l') {i : Nat} {y : β} (hy : l'[i]? = some y) :
    ∃ x, l[i]? = some x ∧ g x = .ok y := by
  induction l generalizing l' i with
  | nil => cases h; cases hy
  | cons x l ih =>
    rw [List.mapM_cons] at h
    obtain ⟨y₀, hy₀, h⟩ := bind_eq_ok h
    obtain ⟨l₁, hl₁, h⟩ := bind_eq_ok h
    cases h
    cases i with
    | zero => cases hy; exact ⟨x, rfl, hy₀⟩
    | succ i => exact ih hl₁ hy

theorem length_of_mapM {ε α β : Type} {g : α → Except ε β} {l : List α} {l' : List β}
    (h : l.mapM g = .ok l') : l'.length = l.length := by
  induction l generalizing l' with
  | nil => cases h; rfl
  | cons x l ih =>
    rw [List.mapM_cons] at h
    obtain ⟨y₀, -, h⟩ := bind_eq_ok h
    obtain ⟨l₁, hl₁, h⟩ := bind_eq_ok h
    cases h
    exact congrArg (· + 1) (ih hl₁)

/-- The function is the source of the code. -/
def Function.CompilesTo (ast : ProgramAst) (f : Function) (fd : FunctionDef) : Prop :=
  emitFunction ast.defineMap ast.funcIndexMap f = .ok fd

/-- Every function of a compiled program has its source at the same index. -/
theorem emit_function {ast : ProgramAst} {p : Program} (hp : emit ast = .ok p) {i : Nat}
    {fd : FunctionDef} (hfd : p.functions[i]? = some fd) :
    ∃ f, ast.functions[i]? = some f ∧ f.CompilesTo ast fd := by
  obtain ⟨inits, -, hp⟩ := bind_eq_ok hp
  obtain ⟨funcs, hfuncs, hp⟩ := bind_eq_ok hp
  cases hp
  exact getElem?_of_mapM hfuncs hfd

/-- Every function of the source has its code at the same index. -/
theorem function_emit {ast : ProgramAst} {p : Program} (hp : emit ast = .ok p) {i : Nat}
    {f : Function} (hf : ast.functions[i]? = some f) :
    ∃ fd, p.functions[i]? = some fd ∧ f.CompilesTo ast fd := by
  have hlen : p.functions.length = ast.functions.length := by
    obtain ⟨inits, -, hp⟩ := bind_eq_ok hp
    obtain ⟨funcs, hfuncs, hp⟩ := bind_eq_ok hp
    cases hp
    exact length_of_mapM hfuncs
  obtain ⟨hi, -⟩ := List.getElem?_eq_some_iff.mp hf
  have hfd := List.getElem?_eq_getElem (hlen.symm ▸ hi : i < p.functions.length)
  obtain ⟨f', hf', hcomp⟩ := emit_function hp hfd
  cases hf.symm.trans hf'
  exact ⟨_, hfd, hcomp⟩

section Compiled

variable {ast : ProgramAst} {f : Function} {fd : FunctionDef}

/-- The context in which the body of a function is emitted. -/
abbrev Function.emitCtx (ast : ProgramAst) (f : Function) : FuncCtx :=
  f.ctx ast.defineMap ast.funcIndexMap

/-- The instructions of a function that set or clear a guard are those of its `TRY` blocks. -/
theorem Function.CompilesTo.guard_iff (h : f.CompilesTo ast fd) {instr : Instruction} {ip : Nat}
    (hop : instr.opcode.setsGuard = true) :
    fd.instructions[ip]? = some instr ↔
      ∃ b ∈ f.tryBlocks, (instr, ip) ∈ (f.emitCtx ast).marks b := by
  obtain ⟨params, -, h⟩ := bind_eq_ok h
  obtain ⟨code, hcode, h⟩ := bind_eq_ok h
  cases h
  rw [← List.mk_mem_zipIdx_iff_getElem?]
  exact FuncCtx.mem_emitStatements_iff _ f.body hcode (instr, ip) hop

/-- The last declaration of the label is the one at `ip`, a position that a label operand can
hold. -/
def Function.Owns (f : Function) (label : String) (ip : Nat) : Prop :=
  f.lastSite label = some ip ∧ ip < 2 ^ 32

theorem Function.Owns.labelIp_eq {label : String} {ip : Nat} (h : f.Owns label ip) :
    ((f.emitCtx ast).labelIp label).toNat = ip := by
  rw [FuncCtx.labelIp, Function.emitCtx, f.lookup_label, h.1]
  exact Nat.mod_eq_of_lt h.2

/-- Every `TRY` is the one of a block, and names the `CATCH` and the `ENDTRY` of the block as far
as the block owns its labels. -/
theorem Function.CompilesTo.try_at (h : f.CompilesTo ast fd) {instr : Instruction} {ip : Nat}
    (hat : fd.instructions[ip]? = some instr) (hop : instr.opcode = .try_) :
    ∃ b ∈ f.tryBlocks, b.tryIp = ip ∧ ∀ c t, instr.tryTargets = .ok (c, t) →
      (f.Owns b.catchLabel b.catchIp → c = b.catchIp) ∧
        (f.Owns b.endLabel b.endIp → t = b.endIp) := by
  obtain ⟨b, hb, hmem⟩ := (h.guard_iff (by rw [hop]; rfl)).mp hat
  simp only [FuncCtx.marks, List.mem_cons, Prod.mk.injEq, List.not_mem_nil, or_false] at hmem
  rcases hmem with ⟨rfl, rfl⟩ | ⟨rfl, rfl⟩ | ⟨rfl, rfl⟩
  · refine ⟨b, hb, rfl, fun c t ht => ?_⟩
    cases ht
    exact ⟨fun hown => hown.labelIp_eq, fun hown => hown.labelIp_eq⟩
  · cases hop
  · cases hop

/-- Every `CATCH` is the one of a block. -/
theorem Function.CompilesTo.catch_at (h : f.CompilesTo ast fd) {instr : Instruction} {ip : Nat}
    (hat : fd.instructions[ip]? = some instr) (hop : instr.opcode = .catch_) :
    ∃ b ∈ f.tryBlocks, b.catchIp = ip := by
  obtain ⟨b, hb, hmem⟩ := (h.guard_iff (by rw [hop]; rfl)).mp hat
  simp only [FuncCtx.marks, List.mem_cons, Prod.mk.injEq, List.not_mem_nil, or_false] at hmem
  rcases hmem with ⟨rfl, rfl⟩ | ⟨rfl, rfl⟩ | ⟨rfl, rfl⟩
  · cases hop
  · exact ⟨b, hb, rfl⟩
  · cases hop

/-- The first instruction of a block is a `TRY` and the second a `CATCH`. -/
theorem Function.CompilesTo.opcode_at (h : f.CompilesTo ast fd) {b : TryBlock}
    (hb : b ∈ f.tryBlocks) :
    (∃ ops, fd.instructions[b.tryIp]? = some ⟨.try_, ops⟩) ∧
      ∃ ops, fd.instructions[b.catchIp]? = some ⟨.catch_, ops⟩ := by
  constructor
  · exact ⟨_, (h.guard_iff rfl).mpr ⟨b, hb, .head _⟩⟩
  · exact ⟨_, (h.guard_iff rfl).mpr ⟨b, hb, .tail _ (.head _)⟩⟩

end Compiled

end Fasm
