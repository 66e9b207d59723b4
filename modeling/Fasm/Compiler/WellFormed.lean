import Fasm.Compiler.Grammar
import Fasm.Lib.Checker

/-!
# The sources that the front end accepts

What the validator checks with a set of declared names and a count of open `TMP` blocks, both of
which it threads through the bodies of nested `TRY` blocks, is a condition on the statements of a
function in their order and on those in front of each.  The validator accepts a tree if and only if
that condition holds, and the front end a source if and only if, further, the grammar derives the
tree from its tokens.
-/

namespace Fasm

/-! ## Well-formed trees -/

mutual

/-- The statements of a statement in their order: those of a `TRY` block in its place. -/
def Statement.leaves : Statement → List Statement
  | .tryBlock _ _ body catchBody _ => leavesOfAll body ++ leavesOfAll catchBody
  | .local_ decl => [.local_ decl]
  | .label name line => [.label name line]
  | .instr i => [.instr i]

/-- The same for statements. -/
def leavesOfAll : List Statement → List Statement
  | [] => []
  | stmt :: stmts => stmt.leaves ++ leavesOfAll stmts

end

/-- The name of a label. -/
def Statement.labelName : Statement → Option String
  | .label name _ => some name
  | _ => none

/-- The name of a local. -/
def Statement.localName : Statement → Option String
  | .local_ decl => some decl.name
  | _ => none

/-- The statement is an instruction with the mnemonic. -/
def Statement.isInstr (mnemonic : String) : Statement → Bool
  | .instr i => i.mnemonic = mnemonic
  | _ => false

/-- The number of `TMP` blocks that are opened. -/
def tmpOpened (stmts : List Statement) : Nat := stmts.countP (·.isInstr "TMP_BLOCK")

/-- The number of `TMP` blocks that are closed. -/
def tmpClosed (stmts : List Statement) : Nat := stmts.countP (·.isInstr "END_TMP")

/-- The labels of a function. -/
def Function.labelNames (f : Function) : List String :=
  (leavesOfAll f.body).filterMap Statement.labelName

/-- The names that are declared everywhere in a function. -/
def Function.names (prog : ProgramAst) (f : Function) : List String :=
  prog.defines.map Define.name ++
    ["$args", "$ret", "$fault_code", "$fault_index", "NULL", "TRUE", "FALSE"] ++
    f.params.map ParamDecl.name

/-- What is asked of an instruction behind the statements `pre`.  Of the operand of a jump or a
call only a name is looked up: `JMP 5` is allowed. -/
structure Instr.Allowed (funcs labels names : List String) (pre : List Statement) (instr : Instr) :
    Prop where
  jump : instr.mnemonic ∈ ["JMP", "JZ", "JNZ"] → tmpOpened pre = tmpClosed pre ∧
    ∀ label, instr.operands.getLast? = some (.ident label) → label ∈ labels
  call : instr.mnemonic ∈ ["CALL", "ASYNC_CALL"] →
    ∀ name, instr.operands.head? = some (.ident name) → name ∈ funcs
  deref : ∀ name, .deref name ∈ instr.operands → name ∈ names ∨
    name ∈ pre.filterMap Statement.localName
  endTmp : instr.mnemonic = "END_TMP" → tmpClosed pre < tmpOpened pre

/-- What is asked of a statement behind the statements `pre`. -/
def Statement.Allowed (funcs labels names : List String) (pre : List Statement) :
    Statement → Prop
  | .instr i => i.Allowed funcs labels names pre
  | _ => True

/-- A well-formed function of a program. -/
structure Function.WellFormed (prog : ProgramAst) (f : Function) : Prop where
  labels : f.labelNames.Nodup
  statements : Throughout
    (Statement.Allowed (prog.functions.map Function.name) f.labelNames (f.names prog))
    (leavesOfAll f.body)
  closed : tmpOpened (leavesOfAll f.body) = tmpClosed (leavesOfAll f.body)

/-- A well-formed program. -/
structure ProgramAst.WellFormed (prog : ProgramAst) : Prop where
  distinct : (prog.functions.map Function.name).Nodup
  main : "Main" ∈ prog.functions.map Function.name
  functions : ∀ f ∈ prog.functions, f.WellFormed prog

/-! ## Names -/

theorem accepts_lineError {α : Type} {P : Prop} {Q : α → Prop} {ln : Nat} {msg : String}
    (h : ¬ P) : Accepts (lineError ln msg : Except CompileFail α) P Q := h

theorem accepts_lineError_bind {α β : Type} {P : Prop} {Q : β → Prop} {ln : Nat} {msg : String}
    {f : α → Except CompileFail β} (h : ¬ P) :
    Accepts ((lineError ln msg : Except CompileFail α) >>= f) P Q := h

/-- The names `l` are inserted into `names`, if none of them is there already or twice. -/
def Collects (x : Except CompileFail (List String)) (l names : List String) : Prop :=
  Accepts x (l.Nodup ∧ ∀ n ∈ l, n ∉ names) fun names' => ∀ n, n ∈ names' ↔ n ∈ l ∨ n ∈ names

namespace Collects

variable {l l' names : List String}

theorem nil : Collects (.ok names) [] names :=
  .pure ⟨List.nodup_nil, List.forall_mem_nil _⟩ fun _ => (or_iff_right List.not_mem_nil).symm

theorem insert (name : String) {ln : Nat} {msg : String} :
    Collects (if names.contains name then lineError ln msg else .ok (name :: names)) [name]
      names := by
  refine .ite (fun h => accepts_lineError fun hn => ?_) fun h => .pure ?_ fun n => ?_
  · exact hn.2 name List.mem_cons_self (List.contains_iff_mem.mp h)
  · rw [List.contains_iff_mem] at h
    exact ⟨List.pairwise_singleton _ name, List.forall_mem_singleton.mpr h⟩
  · rw [List.mem_cons, List.mem_singleton]

theorem append {x : Except CompileFail (List String)}
    {f : List String → Except CompileFail (List String)} (hx : Collects x l names)
    (hf : ∀ names', Collects (f names') l' names') : Collects (x >>= f) (l ++ l') names := by
  refine (Accepts.bind hx fun names' _ hnames' => ((hf names').mono fun names'' h n => ?_).congr
    (S := l'.Nodup ∧ ∀ n ∈ l', n ∉ l ∧ n ∉ names) ?_).congr ?_
  · rw [h, hnames', List.mem_append, ← or_assoc, or_comm (a := n ∈ l')]
  · refine and_congr_right fun _ => forall₂_congr fun n _ => ?_
    rw [hnames', not_or]
  · rw [List.nodup_append, List.forall_mem_append]
    constructor
    · rintro ⟨⟨hl, hl', hapart⟩, hn, hn'⟩
      exact ⟨⟨hl, hn⟩, hl', fun n hmem => ⟨fun h => hapart n h n hmem rfl, hn' n hmem⟩⟩
    · rintro ⟨⟨hl, hn⟩, hl', h⟩
      refine ⟨⟨hl, hl', ?_⟩, hn, fun n hmem => (h n hmem).2⟩
      rintro n hmem _ hmem' rfl
      exact (h n hmem').1 hmem

end Collects

theorem collects_functions : ∀ (fs : List Function) (names : List String),
    Collects (collectFunctions fs names) (fs.map Function.name) names
  | [], _ => .nil
  | f :: fs, names => by
    have hstep : collectFunctions (f :: fs) names =
        (if names.contains f.name then
          lineError f.line ("duplicate function name '" ++ f.name ++ "'")
        else .ok (f.name :: names)) >>= collectFunctions fs := by
      rw [collectFunctions]
      split <;> rfl
    rw [hstep]
    exact (Collects.insert f.name).append (collects_functions fs)

/-- The names of the labels among the statements. -/
def labelsOf (stmts : List Statement) : List String := stmts.filterMap Statement.labelName

mutual

theorem collects_labelsOf : ∀ (stmt : Statement) (names : List String),
    Collects (collectLabelsOf stmt names) (labelsOf stmt.leaves) names
  | .local_ _, _ => .nil
  | .instr _, _ => .nil
  | .label name _, _ => .insert name
  | .tryBlock _ _ body catchBody _, names => by
    rw [Statement.leaves, labelsOf, List.filterMap_append]
    exact (collects_labels body names).append (collects_labels catchBody)

theorem collects_labels : ∀ (stmts : List Statement) (names : List String),
    Collects (collectLabels stmts names) (labelsOf (leavesOfAll stmts)) names
  | [], _ => .nil
  | stmt :: stmts, names => by
    rw [leavesOfAll, labelsOf, List.filterMap_append]
    exact (collects_labelsOf stmt names).append (collects_labels stmts)

end

/-! ## Statements -/

theorem bind_asIdent {v : Option AstValue} {name : String} :
    v.bind AstValue.asIdent = some name ↔ v = some (.ident name) := by
  rcases v with - | (_ | _ | _ | _ | _ | _ | _ | _ | _) <;> simp [AstValue.asIdent]

/-- A name that stands as an operand is looked up before the checks go on. -/
theorem accepts_named {v : Option AstValue} {known : List String} {ln : Nat}
    {msg : String → String} {k : Unit → Except CompileFail Unit} {P : Prop}
    (hk : Accepts (k ()) P fun _ => True) :
    Accepts (match v.bind AstValue.asIdent with
      | some name => if !known.contains name then lineError ln (msg name) >>= k else k ()
      | none => k ()) ((∀ name, v = some (.ident name) → name ∈ known) ∧ P) fun _ => True := by
  split
  · rename_i name hname
    rw [bind_asIdent] at hname
    subst hname
    refine .ite (fun h => accepts_lineError_bind fun hn => ?_) fun h => hk.congr ?_
    · simp [hn.1 name rfl] at h
    · refine and_iff_right ?_
      rintro _ ⟨⟩
      simpa using h
  · rename_i hnone
    refine hk.congr (and_iff_right fun name hname => ?_)
    exact absurd (bind_asIdent.mpr hname) (by rw [hnone]; rintro ⟨⟩)

/-- An instruction is checked, where the `TMP` depth is what it is behind a `TMP_BLOCK`. -/
theorem accepts_validateInstr (scope : Scope) (declared : List String) (depth : Nat)
    (instr : Instr) :
    Accepts (validateInstr scope declared depth instr)
      ((instr.mnemonic ∈ ["JMP", "JZ", "JNZ"] → depth = 0 ∧
          ∀ label, instr.operands.getLast? = some (.ident label) → label ∈ scope.labels) ∧
        (instr.mnemonic ∈ ["CALL", "ASYNC_CALL"] →
          ∀ name, instr.operands.head? = some (.ident name) → name ∈ scope.funcs) ∧
        ∀ name, .deref name ∈ instr.operands → name ∈ declared) fun _ => True := by
  unfold validateInstr
  extract_lets derefs
  have hderefs : ∀ r, Accepts (derefs r) (∀ name, .deref name ∈ instr.operands → name ∈ declared)
      fun _ => True := by
    intro r
    refine ((Accepts.forIn (p := fun op => ∀ name, op = .deref name → name ∈ declared)
      (fun op _ => ?_) instr.operands).bind (S := True) fun _ _ _ => .pure trivial trivial).congr ?_
    · cases op with
      | deref name =>
        simp only
        split
        case isTrue h => exact accepts_lineError fun hn => by simp [hn name rfl] at h
        case isFalse h =>
          refine .pure ?_ rfl
          rintro _ ⟨⟩
          simpa using h
      | _ => exact .pure (by rintro _ ⟨⟩) rfl
    · rw [and_true]
      exact ⟨fun h op hop name hname => h name (hname ▸ hop), fun h name hname => h _ hname name rfl⟩
  split
  · rename_i target hjump
    have hcall : instr.mnemonic ∉ ["CALL", "ASYNC_CALL"] := by
      have hapart : ∀ m ∈ ["JMP", "JZ", "JNZ"], m ∉ ["CALL", "ASYNC_CALL"] := by decide
      exact hapart _ hjump
    refine Accepts.congr (P := depth = 0 ∧
      (∀ label, instr.operands.getLast? = some (.ident label) → label ∈ scope.labels) ∧
      ∀ name, .deref name ∈ instr.operands → name ∈ declared) ?_ ?_
    · refine .ite (fun hopen => accepts_lineError_bind fun h => ?_) fun hclosed => ?_
      · rw [h.1] at hopen
        exact Nat.lt_irrefl 0 hopen
      · refine Accepts.congr (accepts_named (hderefs ())) (and_iff_right ?_)
        exact Nat.le_zero.mp (Nat.not_lt.mp hclosed)
    · simp only [hjump, hcall, true_implies, false_implies, true_and, and_assoc]
  · rename_i hjump
    split
    · rename_i hcall
      refine Accepts.congr (accepts_named (hderefs ())) ?_
      simp only [hjump, hcall, true_implies, false_implies, true_and]
    · rename_i hcall
      refine (hderefs ()).congr ?_
      simp only [hjump, hcall, false_implies, true_and]

/-- What the validator remembers of the statements that it has passed. -/
structure Remembers (names : List String) (pre : List Statement) (st : List String × Nat) :
    Prop where
  declared : ∀ name, name ∈ st.1 ↔ name ∈ names ∨ name ∈ pre.filterMap Statement.localName
  depth : st.2 + tmpClosed pre = tmpOpened pre

section Statements

variable {scope : Scope} {names : List String}

theorem tmpOpened_instr (pre : List Statement) (i : Instr) :
    tmpOpened (pre ++ [.instr i]) =
      tmpOpened pre + if i.mnemonic = "TMP_BLOCK" then 1 else 0 := by
  rw [tmpOpened, List.countP_append, List.countP_singleton]
  simp [tmpOpened, Statement.isInstr]

theorem tmpClosed_instr (pre : List Statement) (i : Instr) :
    tmpClosed (pre ++ [.instr i]) = tmpClosed pre + if i.mnemonic = "END_TMP" then 1 else 0 := by
  rw [tmpClosed, List.countP_append, List.countP_singleton]
  simp [tmpClosed, Statement.isInstr]

/-- An instruction is accepted if it is allowed behind the statements that are remembered. -/
theorem accepts_instr {pre : List Statement} {st : List String × Nat}
    (h : Remembers names pre st) (i : Instr) :
    Accepts (validateStatement scope (.instr i) st) (i.Allowed scope.funcs scope.labels names pre)
      (Remembers names (pre ++ [.instr i])) := by
  obtain ⟨declared, tmpDepth⟩ := st
  have hdepth : tmpDepth + tmpClosed pre = tmpOpened pre := h.depth
  have hopened := tmpOpened_instr pre i
  have hclosed := tmpClosed_instr pre i
  have hnames : ∀ name, name ∈ declared ↔
      name ∈ names ∨ name ∈ (pre ++ [Statement.instr i]).filterMap Statement.localName := fun name => by
    have hnone : (Statement.instr i).localName = none := rfl
    rw [List.filterMap_append, List.filterMap_cons_none hnone, List.filterMap_nil, List.append_nil]
    exact h.declared name
  rw [validateStatement]
  generalize hstep : (if i.mnemonic = "TMP_BLOCK" then tmpDepth + 1 else tmpDepth) = depth
  have hdepth' : depth + tmpClosed pre = tmpOpened (pre ++ [.instr i]) := by
    rw [hopened, ← hdepth, ← hstep]
    split <;> omega
  refine Accepts.congr ((accepts_validateInstr scope declared depth i).bind
    (S := i.mnemonic = "END_TMP" → tmpClosed pre < tmpOpened pre) fun _ _ _ => ?_) ?_
  · refine .ite (fun hend => ?_) fun hend => .pure (fun h => absurd h hend) ⟨hnames, ?_⟩
    · have hne : ¬ i.mnemonic = "TMP_BLOCK" := by
        rw [hend]
        decide
      rw [if_neg hne] at hopened
      rw [if_pos hend] at hclosed
      refine .ite (fun hzero => accepts_lineError fun h => ?_) fun hzero =>
        .pure (fun _ => by omega) ⟨hnames, ?_⟩
      · have hlt := h hend
        omega
      · show depth - 1 + _ = _
        omega
    · rw [if_neg hend] at hclosed
      rw [hclosed]
      exact hdepth'
  · have hjump : i.mnemonic ∈ ["JMP", "JZ", "JNZ"] →
        (depth = 0 ↔ tmpOpened pre = tmpClosed pre) := fun hm => by
      have hapart : ∀ m ∈ ["JMP", "JZ", "JNZ"], ¬ m = "TMP_BLOCK" := by decide
      rw [if_neg (hapart _ hm)] at hopened
      omega
    constructor
    · rintro ⟨hj, hcall, hderef, hend⟩
      exact ⟨⟨fun hm => ⟨(hjump hm).mpr (hj hm).1, (hj hm).2⟩, hcall,
        fun name hname => (h.declared name).mpr (hderef name hname)⟩, hend⟩
    · rintro ⟨⟨hj, hcall, hderef⟩, hend⟩
      exact ⟨fun hm => ⟨(hjump hm).mp (hj hm).1, (hj hm).2⟩, hcall,
        fun name hname => (h.declared name).mp (hderef name hname), hend⟩

mutual

theorem accepts_validateStatement : ∀ (stmt : Statement) {pre : List Statement}
    {st : List String × Nat}, Remembers names pre st →
    Accepts (validateStatement scope stmt st)
      (Throughout (fun l => Statement.Allowed scope.funcs scope.labels names (pre ++ l)) stmt.leaves)
      (Remembers names (pre ++ stmt.leaves))
  | .local_ decl, pre, st, h => by
    refine .pure (throughout_singleton.mpr trivial) ⟨fun name => ?_, ?_⟩
    · rw [Statement.leaves, List.filterMap_append, List.mem_append, ← or_assoc, ← h.declared name,
        List.mem_cons, or_comm]
      simp [Statement.localName]
    · have hopened : tmpOpened (pre ++ [.local_ decl]) = tmpOpened pre := by
        simp [tmpOpened, Statement.isInstr]
      have hclosed : tmpClosed (pre ++ [.local_ decl]) = tmpClosed pre := by
        simp [tmpClosed, Statement.isInstr]
      rw [Statement.leaves, hopened, hclosed]
      exact h.depth
  | .label name line, pre, st, h =>
    .pure (throughout_singleton.mpr trivial) ⟨fun name' => by
      simp [Statement.leaves, Statement.localName, h.declared name'], by
      simpa [Statement.leaves, tmpOpened, tmpClosed, Statement.isInstr] using h.depth⟩
  | .instr i, pre, st, h => by
    refine (accepts_instr h i).congr ?_
    rw [Statement.leaves, throughout_singleton, List.append_nil]
    rfl
  | .tryBlock _ _ body catchBody _, pre, st, h => by
    rw [Statement.leaves, ← List.append_assoc]
    refine ((accepts_validateStatements body h).bind fun st' _ h' =>
      (accepts_validateStatements catchBody h')).congr ?_
    rw [throughout_append]
    simp only [List.append_assoc]

theorem accepts_validateStatements : ∀ (stmts : List Statement) {pre : List Statement}
    {st : List String × Nat}, Remembers names pre st →
    Accepts (validateStatements scope stmts st)
      (Throughout (fun l => Statement.Allowed scope.funcs scope.labels names (pre ++ l))
        (leavesOfAll stmts))
      (Remembers names (pre ++ leavesOfAll stmts))
  | [], pre, st, h => .pure throughout_nil (by rwa [leavesOfAll, List.append_nil])
  | stmt :: stmts, pre, st, h => by
    rw [leavesOfAll, ← List.append_assoc]
    refine ((accepts_validateStatement stmt h).bind fun st' _ h' =>
      (accepts_validateStatements stmts h')).congr ?_
    rw [throughout_append]
    simp only [List.append_assoc]

end

end Statements

/-! ## Programs -/

/-- Only which names are known counts. -/
theorem allowed_congr {funcs funcs' labels labels' names : List String}
    (hfuncs : ∀ n, n ∈ funcs ↔ n ∈ funcs') (hlabels : ∀ n, n ∈ labels ↔ n ∈ labels') :
    Statement.Allowed funcs labels names = Statement.Allowed funcs' labels' names := by
  have hinstr : ∀ pre i, Instr.Allowed funcs labels names pre i ↔
      Instr.Allowed funcs' labels' names pre i := fun pre i =>
    ⟨fun h => ⟨fun hm => ⟨(h.jump hm).1, fun n hn => (hlabels n).mp ((h.jump hm).2 n hn)⟩,
        fun hm n hn => (hfuncs n).mp (h.call hm n hn), h.deref, h.endTmp⟩,
      fun h => ⟨fun hm => ⟨(h.jump hm).1, fun n hn => (hlabels n).mpr ((h.jump hm).2 n hn)⟩,
        fun hm n hn => (hfuncs n).mpr (h.call hm n hn), h.deref, h.endTmp⟩⟩
  funext pre stmt
  cases stmt with
  | instr i => exact propext (hinstr pre i)
  | _ => rfl

section Validate

variable {prog : ProgramAst}

theorem accepts_validateFunction {funcs : List String}
    (hfuncs : ∀ n, n ∈ funcs ↔ n ∈ prog.functions.map Function.name) (f : Function) :
    Accepts (validateFunction prog funcs f) (f.WellFormed prog) fun _ => True := by
  have hstart : Remembers (f.names prog) [] (f.names prog, 0) :=
    ⟨fun n => (or_iff_left List.not_mem_nil).symm, rfl⟩
  rw [validateFunction]
  refine Accepts.congr ((collects_labels f.body []).bind (S := Throughout (Statement.Allowed
    (prog.functions.map Function.name) f.labelNames (f.names prog)) (leavesOfAll f.body) ∧
    tmpOpened (leavesOfAll f.body) = tmpClosed (leavesOfAll f.body)) fun labels _ hlabels => ?_) ?_
  · have hmem : ∀ n, n ∈ labels ↔ n ∈ f.labelNames := fun n => by
      rw [hlabels, or_iff_left List.not_mem_nil]
      rfl
    rw [← allowed_congr hfuncs hmem]
    have hbody := @accepts_validateStatements ⟨funcs, labels, f.name⟩ (f.names prog) f.body _ _ hstart
    refine hbody.bind fun st _ hst => ?_
    obtain ⟨declared, tmpDepth⟩ := st
    have hdepth : tmpDepth + tmpClosed (leavesOfAll f.body) = tmpOpened (leavesOfAll f.body) :=
      hst.depth
    refine .ite (fun hopen => .throw ?_) fun hclosed => .pure ?_ trivial
    · omega
    · omega
  · constructor
    · exact fun h => ⟨⟨h.labels, fun _ _ => List.not_mem_nil⟩, h.statements, h.closed⟩
    · exact fun h => ⟨h.1.1, h.2.1, h.2.2⟩

/-- The validator accepts the well-formed trees. -/
theorem accepts_validate (prog : ProgramAst) :
    Accepts (validate prog) prog.WellFormed fun _ => True := by
  rw [validate]
  refine Accepts.congr ((collects_functions prog.functions []).bind (S :=
    "Main" ∈ prog.functions.map Function.name ∧ ∀ f ∈ prog.functions, f.WellFormed prog)
    fun funcs _ hfuncs => ?_) ?_
  · have hmem : ∀ n, n ∈ funcs ↔ n ∈ prog.functions.map Function.name := fun n => by
      rw [hfuncs, or_iff_left List.not_mem_nil]
    have hloop := Accepts.forIn (fun f _ => ((accepts_validateFunction hmem f).bind (S := True)
      (R := (· = ForInStep.yield PUnit.unit)) fun _ _ _ => .pure trivial rfl).congr
      (iff_of_eq (and_true _)).symm) prog.functions
    have hall := hloop.bind (S := True) (R := fun _ : PUnit => True) fun _ _ _ =>
      .pure (a := PUnit.unit) trivial trivial
    split
    · rename_i hmain
      refine .throw_bind fun h => ?_
      simp [(hmem "Main").mpr h.1] at hmain
    · rename_i hmain
      refine Accepts.congr hall ?_
      rw [and_true]
      refine and_iff_right ((hmem "Main").mp ?_)
      simpa using hmain
  · constructor
    · exact fun h => ⟨⟨h.distinct, fun _ _ => List.not_mem_nil⟩, h.main, h.functions⟩
    · exact fun h => ⟨h.1.1, h.2.1, h.2.2⟩

end Validate

/-- The front end accepts a source exactly if it is a sequence of tokens from which the grammar
derives a well-formed tree, and returns that tree. -/
theorem frontend_ok_iff (u : Unicode) (source : String) (ast : ProgramAst) :
    frontend u source = .ok ast ↔ ∃ tokens rest, tokenize u source = .ok tokens ∧
      DerivesProgram tokens ast rest ∧ ast.WellFormed := by
  constructor
  · intro h
    obtain ⟨tokens, htokens, hparse, hval⟩ := frontend_stages h
    obtain ⟨init, line, rfl⟩ := (tokenize_lexes u source).ends tokens htokens
    obtain ⟨rest, hderives⟩ := (parse_ok_iff u init line ast).mp hparse
    exact ⟨_, rest, htokens, hderives, (accepts_validate ast).ok_iff.mp hval⟩
  · rintro ⟨tokens, rest, htokens, hderives, hwf⟩
    obtain ⟨init, line, rfl⟩ := (tokenize_lexes u source).ends tokens htokens
    exact frontend_eq htokens ((parse_ok_iff u init line ast).mpr ⟨rest, hderives⟩)
      ((accepts_validate ast).ok_iff.mpr hwf)

end Fasm
