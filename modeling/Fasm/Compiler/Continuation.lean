import Fasm.Compiler.TryTargets

/-!
# What is left to execute

A position in the body of a function is given by what is left to execute there: statements,
and of each block that has been entered its `CATCH` with the body behind it, or its `ENDTRY`.
Each such position has an index in the code, and the code from that index on is the code of
what is left.
-/

namespace Fasm

/-- A part of what is left to execute. -/
inductive Item where
  | stmt (s : Statement)
  /-- the `CATCH` between the two bodies of a block -/
  | catch_
  /-- the `ENDTRY` of a block -/
  | endTry

/-- What is left to execute. -/
abbrev Rest := List Item

/-- Statements, and then `k`. -/
def andThen (stmts : List Statement) (k : Rest) : Rest := stmts.map .stmt ++ k

/-- What is left at the `CATCH` of a block. -/
def atCatch (catchBody : List Statement) (k : Rest) : Rest :=
  .catch_ :: andThen catchBody (.endTry :: k)

/-- What is left behind the `TRY` of a block. -/
def inBlock (body catchBody : List Statement) (k : Rest) : Rest :=
  andThen body (atCatch catchBody k)

@[simp] theorem andThen_nil (k : Rest) : andThen [] k = k := rfl

@[simp] theorem andThen_cons (s : Statement) (stmts : List Statement) (k : Rest) :
    andThen (s :: stmts) k = .stmt s :: andThen stmts k := rfl

/-! ## Sizes -/

/-- The number of instructions of an item. -/
def Item.size : Item → Nat
  | .stmt s => s.size
  | .catch_ => 1
  | .endTry => 1

/-- The number of instructions that are left. -/
def restSize : Rest → Nat
  | [] => 0
  | item :: k => item.size + restSize k

@[simp] theorem restSize_andThen (stmts : List Statement) (k : Rest) :
    restSize (andThen stmts k) = sizeOfAll stmts + restSize k := by
  induction stmts with
  | nil => simp only [andThen_nil, sizeOfAll, Nat.zero_add]
  | cons s stmts ih => simp only [andThen_cons, restSize, Item.size, sizeOfAll, ih, Nat.add_assoc]

@[simp] theorem restSize_atCatch (catchBody : List Statement) (k : Rest) :
    restSize (atCatch catchBody k) = sizeOfAll catchBody + restSize k + 2 := by
  simp only [atCatch, restSize, Item.size, restSize_andThen]
  omega

@[simp] theorem restSize_inBlock (body catchBody : List Statement) (k : Rest) :
    restSize (inBlock body catchBody k) =
      sizeOfAll body + (sizeOfAll catchBody + restSize k + 2) := by
  rw [inBlock, restSize_andThen, restSize_atCatch]

/-! ## Positions -/

/-- With `k` left, execution of the function is at index `ip` of its code. -/
inductive Function.At (f : Function) : Rest → Nat → Prop
  | start : At f (andThen f.body []) 0
  | skip {item k ip} (h : At f (item :: k) ip) : At f k (ip + item.size)
  | enter {catchLabel endLabel body catchBody line k ip}
    (h : At f (.stmt (.tryBlock catchLabel endLabel body catchBody line) :: k) ip) :
    At f (inBlock body catchBody k) (ip + 1)

namespace Function.At

variable {f : Function} {k : Rest} {ip : Nat}

theorem andThen_right : ∀ (stmts : List Statement) {k : Rest} {ip : Nat},
    f.At (andThen stmts k) ip → f.At k (ip + sizeOfAll stmts)
  | [], _, _, h => h
  | s :: stmts, k, ip, h => by
    have hrest := andThen_right stmts (skip h)
    rw [Nat.add_assoc] at hrest
    exact hrest

/-- The `CATCH` of a block. -/
theorem block_catch {catchLabel endLabel : String} {body catchBody : List Statement} {line : Nat}
    (h : f.At (.stmt (.tryBlock catchLabel endLabel body catchBody line) :: k) ip) :
    f.At (atCatch catchBody k) (ip + 1 + sizeOfAll body) := andThen_right body h.enter

/-- The `ENDTRY` of a block. -/
theorem block_end {catchLabel endLabel : String} {body catchBody : List Statement} {line : Nat}
    (h : f.At (.stmt (.tryBlock catchLabel endLabel body catchBody line) :: k) ip) :
    f.At (.endTry :: k) (ip + 1 + sizeOfAll body + 1 + sizeOfAll catchBody) :=
  andThen_right catchBody h.block_catch.skip

/-- The index is the number of instructions that are not left. -/
theorem size_eq (h : f.At k ip) : ip + restSize k = sizeOfAll f.body := by
  induction h with
  | start => simp only [restSize_andThen, restSize, Nat.zero_add, Nat.add_zero]
  | skip _ ih =>
    rw [restSize] at ih
    omega
  | enter _ ih =>
    simp only [restSize, Item.size, Statement.size] at ih
    rw [restSize_inBlock]
    omega

end Function.At

/-! ## What stands in a body -/

/-- Something that the statements of a body have, each statement at its index. -/
structure Sites (β : Type) where
  of : Statement → Nat → List β
  all : List Statement → Nat → List β
  all_nil : ∀ ip, all [] ip = []
  all_cons : ∀ s stmts ip, all (s :: stmts) ip = of s ip ++ all stmts (ip + s.size)
  /-- a block has what its bodies have -/
  block : ∀ catchLabel endLabel body catchBody line ip x,
    x ∈ all body (ip + 1) ++ all catchBody (ip + 1 + sizeOfAll body + 1) →
    x ∈ of (.tryBlock catchLabel endLabel body catchBody line) ip

namespace Sites

/-- The `TRY` blocks. -/
def tryBlocks : Sites TryBlock where
  of := Statement.tryBlocks
  all := tryBlocksOfAll
  all_nil _ := rfl
  all_cons _ _ _ := rfl
  block _ _ _ _ _ _ _ h := List.mem_cons_of_mem _ h

/-- The `LABEL`s. -/
def userLabels : Sites (String × Nat) where
  of := Statement.userLabels
  all := userLabelsOfAll
  all_nil _ := rfl
  all_cons _ _ _ := rfl
  block _ _ _ _ _ _ _ h := h

/-- The statements. -/
def parts : Sites Statement where
  of s _ := s.parts
  all stmts _ := partsOfAll stmts
  all_nil _ := rfl
  all_cons _ _ _ := rfl
  block _ _ _ _ _ _ _ h := List.mem_cons_of_mem _ h

variable {β : Type} (S : Sites β)

/-- What is left has. -/
def rest : Rest → Nat → List β
  | [], _ => []
  | .stmt s :: k, ip => S.of s ip ++ rest k (ip + s.size)
  | .catch_ :: k, ip => rest k (ip + 1)
  | .endTry :: k, ip => rest k (ip + 1)

theorem rest_andThen : ∀ (stmts : List Statement) (k : Rest) (ip : Nat),
    S.rest (andThen stmts k) ip = S.all stmts ip ++ S.rest k (ip + sizeOfAll stmts)
  | [], k, ip => by rw [S.all_nil]; rfl
  | s :: stmts, k, ip => by
    rw [andThen_cons, rest, rest_andThen stmts, S.all_cons, sizeOfAll, List.append_assoc,
      Nat.add_assoc]

/-- The rest of an item and what is behind it has what is behind it. -/
theorem mem_rest_skip {item : Item} {k : Rest} {ip : Nat} {x : β}
    (h : x ∈ S.rest k (ip + item.size)) : x ∈ S.rest (item :: k) ip := by
  cases item with
  | stmt s => exact List.mem_append_right _ h
  | catch_ => exact h
  | endTry => exact h

/-- A function has what is left anywhere in it has. -/
theorem mem_of_at {f : Function} {k : Rest} {ip : Nat} (h : f.At k ip) {x : β}
    (hx : x ∈ S.rest k ip) : x ∈ S.all f.body 0 := by
  induction h with
  | start =>
    rw [rest_andThen] at hx
    simpa only [rest, List.append_nil] using hx
  | skip _ ih => exact ih (S.mem_rest_skip hx)
  | @enter catchLabel endLabel body catchBody line k ip _ ih =>
    apply ih
    rw [inBlock, rest_andThen, atCatch, rest, rest_andThen, rest, ← List.append_assoc] at hx
    rcases List.mem_append.mp hx with hx | hx
    · exact List.mem_append_left _ (S.block _ _ _ _ _ _ _ hx)
    · refine List.mem_append_right _ ?_
      have hip : ip + 1 + sizeOfAll body + 1 + sizeOfAll catchBody + 1 =
          ip + Statement.size (.tryBlock catchLabel endLabel body catchBody line) := by
        simp only [Statement.size]
        omega
      rwa [hip] at hx

end Sites

namespace Function.At

variable {f : Function} {k : Rest} {ip : Nat}

/-- A block that is left is one of the function's. -/
theorem mem_tryBlocks {catchLabel endLabel : String} {body catchBody : List Statement} {line : Nat}
    (h : f.At (.stmt (.tryBlock catchLabel endLabel body catchBody line) :: k) ip) :
    ⟨ip, ip + 1 + sizeOfAll body, ip + 1 + sizeOfAll body + 1 + sizeOfAll catchBody, catchLabel,
      endLabel⟩ ∈ f.tryBlocks :=
  Sites.tryBlocks.mem_of_at h (.head _)

theorem mem_userLabels {name : String} {line : Nat} (h : f.At (.stmt (.label name line) :: k) ip) :
    (name, ip) ∈ f.userLabels :=
  Sites.userLabels.mem_of_at h (.head _)

theorem mem_parts {i : Instr} (h : f.At (.stmt (.instr i) :: k) ip) :
    .instr i ∈ partsOfAll f.body :=
  Sites.parts.mem_of_at h (.head _)

end Function.At

/-! ## Labels -/

mutual

/-- What is left behind the `LABEL` with the name, in a statement that `k` follows. -/
def Statement.afterLabel (name : String) : Statement → Rest → Option Rest
  | .local_ _, _ => none
  | .label name' _, k => if name' = name then some k else none
  | .instr _, _ => none
  | .tryBlock _ _ body catchBody _, k =>
    (afterLabelIn name body (atCatch catchBody k)).or
      (afterLabelIn name catchBody (.endTry :: k))

/-- The same in statements. -/
def afterLabelIn (name : String) : List Statement → Rest → Option Rest
  | [], _ => none
  | s :: stmts, k => (s.afterLabel name (andThen stmts k)).or (afterLabelIn name stmts k)

end

/-- What is left behind a `LABEL` of the function. -/
def Function.afterLabel (f : Function) (name : String) : Option Rest :=
  afterLabelIn name f.body []

mutual

theorem Statement.afterLabel_at {f : Function} {name : String} : ∀ (s : Statement) {k k' : Rest}
    {ip : Nat}, s.afterLabel name k = some k' → f.At (.stmt s :: k) ip →
    ∃ line ip', f.At (.stmt (.label name line) :: k') ip'
  | .local_ _, _, _, _, h, _ => by cases h
  | .label name' line, k, k', ip, h, hat => by
    rw [Statement.afterLabel] at h
    split at h
    case isTrue hname =>
      cases h
      exact ⟨line, ip, hname ▸ hat⟩
    case isFalse => cases h
  | .instr _, _, _, _, h, _ => by cases h
  | .tryBlock _ _ body catchBody _, k, k', ip, h, hat => by
    rw [Statement.afterLabel, Option.or_eq_some_iff] at h
    rcases h with h | ⟨-, h⟩
    · exact afterLabelIn_at body h hat.enter
    · exact afterLabelIn_at catchBody h hat.block_catch.skip

theorem afterLabelIn_at {f : Function} {name : String} : ∀ (stmts : List Statement) {k k' : Rest}
    {ip : Nat}, afterLabelIn name stmts k = some k' → f.At (andThen stmts k) ip →
    ∃ line ip', f.At (.stmt (.label name line) :: k') ip'
  | [], _, _, _, h, _ => by cases h
  | s :: stmts, k, k', ip, h, hat => by
    rw [afterLabelIn, Option.or_eq_some_iff] at h
    rcases h with h | ⟨-, h⟩
    · exact s.afterLabel_at h hat
    · exact afterLabelIn_at stmts h hat.skip

end

/-- The place behind a `LABEL` is a position of the function, with the index of the label. -/
theorem Function.at_afterLabel {f : Function} {name : String} {k : Rest}
    (h : f.afterLabel name = some k) : ∃ ip, f.At k ip ∧ (name, ip) ∈ f.userLabels := by
  obtain ⟨line, ip, hat⟩ := afterLabelIn_at f.body h .start
  exact ⟨ip, hat.skip, hat.mem_userLabels⟩

/-! ## Code -/

/-- The code is that of what is left. -/
inductive Emits (ctx : FuncCtx) : Rest → List Instruction → Prop
  | nil : Emits ctx [] []
  | stmt {s k code rest} (h : ctx.emitStatement s = .ok code) (hk : Emits ctx k rest) :
    Emits ctx (.stmt s :: k) (code ++ rest)
  | catch_ {k rest} (operands : List Operand) (hk : Emits ctx k rest) :
    Emits ctx (.catch_ :: k) (⟨.catch_, operands⟩ :: rest)
  | endTry {k rest} (hk : Emits ctx k rest) : Emits ctx (.endTry :: k) (.noArgs .endTry :: rest)

namespace Emits

variable {ctx : FuncCtx} {k : Rest} {code rest : List Instruction}

theorem andThen : ∀ {stmts : List Statement} {code : List Instruction},
    ctx.emitStatements stmts = .ok code → Emits ctx k rest →
    Emits ctx (andThen stmts k) (code ++ rest)
  | [], _, h, hk => by
    cases h
    exact hk
  | s :: stmts, _, h, hk => by
    obtain ⟨c₁, h₁, h⟩ := bind_eq_ok h
    obtain ⟨c₂, h₂, h⟩ := bind_eq_ok h
    cases h
    rw [List.append_assoc]
    exact .stmt h₁ (andThen h₂ hk)

/-- Behind an item the rest of the code is left. -/
theorem skip {item : Item} (h : Emits ctx (item :: k) code) :
    Emits ctx k (code.drop item.size) := by
  cases h with
  | @stmt s _ code rest h hk =>
    rw [Item.size, ← ctx.length_emitStatement s h, List.drop_left]
    exact hk
  | catch_ _ hk => exact hk
  | endTry hk => exact hk

/-- A block starts with its `TRY`. -/
theorem block {catchLabel endLabel : String} {body catchBody : List Statement} {line : Nat}
    (h : Emits ctx (.stmt (.tryBlock catchLabel endLabel body catchBody line) :: k) code) :
    ∃ rest, code = ⟨.try_, [.labelTarget (ctx.labelIp catchLabel),
        .labelTarget (ctx.labelIp endLabel)]⟩ :: rest ∧ Emits ctx (inBlock body catchBody k) rest := by
  cases h with
  | @stmt _ _ _ rest h hk =>
    obtain ⟨bodyCode, hbody, h⟩ := bind_eq_ok h
    obtain ⟨catchCode, hcatch, h⟩ := bind_eq_ok h
    cases h
    refine ⟨bodyCode ++ (⟨.catch_, [.labelTarget (ctx.labelIp endLabel)]⟩ ::
      (catchCode ++ .noArgs .endTry :: rest)), ?_, ?_⟩
    · simp only [List.cons_append, List.append_assoc, List.nil_append]
    · exact andThen hbody (.catch_ _ (andThen hcatch (.endTry hk)))

end Emits

/-- At every position the code from its index on is that of what is left. -/
theorem Function.At.emits {f : Function} {ctx : FuncCtx} {code : List Instruction}
    (hcode : ctx.emitStatements f.body = .ok code) {k : Rest} {ip : Nat} (h : f.At k ip) :
    Emits ctx k (code.drop ip) := by
  induction h with
  | start =>
    have hall := Emits.andThen hcode .nil
    rwa [List.append_nil] at hall
  | skip _ ih =>
    rw [← List.drop_drop]
    exact ih.skip
  | enter _ ih =>
    obtain ⟨rest, hrest, hblock⟩ := ih.block
    rw [← List.drop_drop, hrest]
    exact hblock

end Fasm
