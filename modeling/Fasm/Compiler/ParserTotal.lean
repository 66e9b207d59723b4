import Fasm.Compiler.Frontend

/-!
# The parser on every list of tokens

The parser of the source keeps an index into its tokens, and would panic if it looked behind the
last one.  All that the parser does with its state is to look at the current token and to advance:
it is a script of these two, which can be run on an index as well.  From an index into a list that
ends with the end of the file a script never leaves the list, and each turn of a loop of the parser
that does not end the loop moves the index on.
-/

namespace Fasm

variable {α β : Type}

/-! ## Scripts -/

/-- What a parser does: it returns, fails, looks at the current token, or advances. -/
inductive Script (α : Type) : Type
  | pure (a : α)
  | throw (e : CompileFail)
  | peek (k : Token → Script α)
  | advance (k : Token → Script α)

namespace Script

/-- On a cursor. -/
def parse : Script α → ParseM α
  | pure a => Pure.pure a
  | throw e => MonadExcept.throw e
  | peek k => ParseM.peek >>= fun t => (k t).parse
  | advance k => ParseM.advance >>= fun t => (k t).parse

/-- On an index: `self.tokens[self.pos]` panics behind the last token, and `advance` moves on if
there is a further one. -/
def runAt (tokens : List Token) : Script α → Nat → Except CompileFail (α × Nat)
  | pure a, pos => .ok (a, pos)
  | throw e, _ => .error e
  | peek k, pos =>
    match tokens[pos]? with
    | some t => (k t).runAt tokens pos
    | none => .error .panics
  | advance k, pos =>
    match tokens[pos]? with
    | some t => (k t).runAt tokens (if pos + 1 < tokens.length then pos + 1 else pos)
    | none => .error .panics

def bind : Script α → (α → Script β) → Script β
  | pure a, f => f a
  | throw e, _ => throw e
  | peek k, f => peek fun t => (k t).bind f
  | advance k, f => advance fun t => (k t).bind f

theorem parse_bind (s : Script α) (f : α → Script β) :
    (s.bind f).parse = s.parse >>= fun a => (f a).parse := by
  induction s with
  | pure a => rfl
  | throw e => rfl
  | peek k ih =>
    rw [bind, parse, parse, bind_assoc]
    exact bind_congr ih
  | advance k ih =>
    rw [bind, parse, parse, bind_assoc]
    exact bind_congr ih

end Script

/-- The cursor stands at an index into the tokens. -/
structure Cursor.Indexes (tokens : List Token) (pos : Nat) (c : Cursor) : Prop where
  cur : tokens[pos]? = some c.cur
  rest : c.rest = tokens.drop (pos + 1)

namespace Cursor.Indexes

variable {tokens : List Token} {pos : Nat} {c : Cursor}

theorem lt (h : c.Indexes tokens pos) : pos < tokens.length :=
  (List.getElem?_eq_some_iff.mp h.cur).1

theorem left_eq (h : c.Indexes tokens pos) : c.left = tokens.length - (pos + 1) := by
  rw [Cursor.left, h.rest, List.length_drop]

/-- Advancing on the cursor is advancing on the index. -/
theorem advance (h : c.Indexes tokens pos) : ∃ c', ParseM.advance c = .ok (c.cur, c') ∧
    c'.Indexes tokens (if pos + 1 < tokens.length then pos + 1 else pos) := by
  obtain ⟨cur, rest⟩ := c
  obtain ⟨hcur, hrest⟩ := h
  obtain rfl : rest = tokens.drop (pos + 1) := hrest
  split
  case isTrue hlt =>
    rw [List.drop_eq_getElem_cons hlt]
    exact ⟨⟨_, _⟩, rfl, List.getElem?_eq_getElem hlt, rfl⟩
  case isFalse hge =>
    rw [List.drop_eq_nil_of_le (Nat.le_of_not_lt hge)]
    exact ⟨⟨cur, []⟩, rfl, hcur, (List.drop_eq_nil_of_le (Nat.le_of_not_lt hge)).symm⟩

end Cursor.Indexes

/-- A script does the same on a cursor and on the index at which it stands. -/
theorem Script.meets_runAt {tokens : List Token} (s : Script α) {pos : Nat} {c : Cursor}
    (h : c.Indexes tokens pos) : Meets (fun e => s.runAt tokens pos = .error e) s.parse c
      fun a c' => ∃ pos', s.runAt tokens pos = .ok (a, pos') ∧ c'.Indexes tokens pos' := by
  induction s generalizing pos c with
  | pure a => exact ⟨pos, rfl, h⟩
  | throw e => exact rfl
  | peek k ih =>
    rw [runAt, h.cur]
    exact ih c.cur h
  | advance k ih =>
    obtain ⟨c', hadv, hc'⟩ := h.advance
    rw [runAt, h.cur]
    have hrun : (parse (.advance k)) c = (k c.cur).parse c' := by
      show (ParseM.advance c >>= fun p => (k p.1).parse p.2) = _
      rw [hadv]
      rfl
    rw [Meets, hrun]
    exact ih c.cur hc'

/-! ## The parser is made of scripts -/

/-- A script does what `x` does. -/
def Scripted (x : ParseM α) : Prop := ∃ script : Script α, script.parse = x

namespace Scripted

theorem pure (a : α) : Scripted (Pure.pure a : ParseM α) := ⟨.pure a, rfl⟩

theorem throw (e : CompileFail) : Scripted (MonadExcept.throw e : ParseM α) := ⟨.throw e, rfl⟩

theorem fail (ln : Nat) (msg : String) : Scripted (ParseM.fail ln msg : ParseM α) := throw _

theorem peek : Scripted ParseM.peek := ⟨.peek .pure, bind_pure _⟩

theorem advance : Scripted ParseM.advance := ⟨.advance .pure, bind_pure _⟩

theorem bind {x : ParseM α} {f : α → ParseM β} (hx : Scripted x) (hf : ∀ a, Scripted (f a)) :
    Scripted (x >>= f) := by
  obtain ⟨script, rfl⟩ := hx
  obtain ⟨scripts, hscripts⟩ := Classical.skolem.mp hf
  exact ⟨script.bind scripts, (script.parse_bind scripts).trans (bind_congr hscripts)⟩

theorem ite {c : Prop} [Decidable c] {x y : ParseM α} (hx : Scripted x) (hy : Scripted y) :
    Scripted (if c then x else y) := by
  split
  · exact hx
  · exact hy

theorem line : Scripted ParseM.line := peek.bind fun _ => .pure _

end Scripted

namespace ParseM

variable (u : Unicode)

theorem scripted_unexpected (t : Token) (expected : String) :
    Scripted (unexpected u t expected : ParseM α) := .fail _ _

theorem scripted_expectIdent : Scripted (expectIdent u) := by
  refine Scripted.advance.bind fun t => ?_
  split
  · exact .pure _
  · exact scripted_unexpected u _ _

theorem scripted_expectComma : Scripted (expectComma u) :=
  Scripted.advance.bind fun _ => .ite (.pure _) (scripted_unexpected u _ _)

theorem scripted_expectString : Scripted (expectString u) := by
  refine Scripted.advance.bind fun t => ?_
  split
  · exact .pure _
  · exact scripted_unexpected u _ _

theorem scripted_parseType : Scripted (parseType u) := by
  refine Scripted.advance.bind fun t => ?_
  split
  · split
    · exact .pure _
    · exact .fail _ _
  · exact scripted_unexpected u _ _

theorem scripted_parseU32 : Scripted (parseU32 u) := by
  refine Scripted.advance.bind fun t => ?_
  split
  · exact .ite (.pure _) (scripted_unexpected u _ _)
  · exact .pure _
  · exact scripted_unexpected u _ _

theorem scripted_parseU8 : Scripted (parseU8 u) :=
  (scripted_parseU32 u).bind fun _ => .ite (.throw _) (.pure _)

theorem scripted_parseValue : Scripted (parseValue u) := by
  refine Scripted.advance.bind fun t => ?_
  cases t.kind with
  | ident s => exact .ite (.pure _) (.ite (.pure _) (.ite (.pure _) (.pure _)))
  | ampersand => exact (scripted_expectIdent u).bind fun _ => .pure _
  | comma | dot | eof => exact scripted_unexpected u _ _
  | _ => exact .pure _

theorem scripted_operandTurn : Scripted (operandTurn u) := by
  refine Scripted.peek.bind fun t => ?_
  refine .ite (.pure _) ?_
  refine (scripted_parseValue u).bind fun op => ?_
  exact Scripted.peek.bind fun t' => .ite (Scripted.advance.bind fun _ => .pure _) (.pure _)

theorem scripted_parseOperandList : ∀ fuel : Nat, Scripted (parseOperandList u fuel)
  | 0 => .throw _
  | fuel + 1 => by
    rw [parseOperandList_succ]
    refine (scripted_operandTurn u).bind ?_
    rintro (op | ops)
    · exact (scripted_parseOperandList fuel).bind fun _ => .pure _
    · exact .pure _

theorem scripted_tryTurn {fuel : Nat} (hstmt : Scripted (parseStatement u fuel)) (ln : Nat) :
    Scripted (tryTurn u ln fuel) := by
  refine Scripted.peek.bind fun t => ?_
  refine .ite (.fail _ _) ?_
  refine .ite (Scripted.advance.bind fun _ => .pure _) ?_
  exact .ite (Scripted.advance.bind fun _ => .pure _) (hstmt.bind fun _ => .pure _)

mutual

theorem scripted_parseStatement : ∀ fuel : Nat, Scripted (parseStatement u fuel)
  | 0 => .throw _
  | fuel + 1 => by
    rw [parseStatement]
    refine Scripted.line.bind fun ln => ?_
    refine Scripted.peek.bind fun t => ?_
    split
    case h_2 => exact scripted_unexpected u _ _
    case h_1 kw hkind =>
      refine .ite (scripted_parseTryBlock fuel) ?_
      refine .ite ?_ ?_
      · refine Scripted.advance.bind fun _ => ?_
        refine (scripted_parseU8 u).bind fun index => ?_
        refine (scripted_expectComma u).bind fun _ => ?_
        refine (scripted_parseType u).bind fun fasmType => ?_
        refine (scripted_expectComma u).bind fun _ => ?_
        exact (scripted_expectIdent u).bind fun name => .pure _
      refine .ite ?_ ?_
      · exact Scripted.advance.bind fun _ => (scripted_expectIdent u).bind fun name => .pure _
      refine Scripted.advance.bind fun _ => .ite ?_ ?_
      · refine (scripted_expectIdent u).bind fun next => ?_
        exact (scripted_parseOperandList u fuel).bind fun ops => .pure _
      · exact (scripted_parseOperandList u fuel).bind fun ops => .pure _

theorem scripted_parseTryBlock : ∀ fuel : Nat, Scripted (parseTryBlock u fuel)
  | 0 => .throw _
  | fuel + 1 => by
    rw [parseTryBlock]
    refine Scripted.line.bind fun ln => ?_
    refine Scripted.advance.bind fun _ => ?_
    exact (scripted_parseTryBody ln false fuel).bind fun bodies => .pure _

theorem scripted_parseTryBody (ln : Nat) (inCatch : Bool) : ∀ fuel : Nat,
    Scripted (parseTryBody u ln inCatch fuel)
  | 0 => .throw _
  | fuel + 1 => by
    rw [parseTryBody_succ]
    refine (scripted_tryTurn u (scripted_parseStatement fuel) ln).bind ?_
    rintro ((_ | stmt) | _)
    · exact scripted_parseTryBody ln true fuel
    · exact (scripted_parseTryBody ln inCatch fuel).bind fun bodies => .pure _
    · exact .pure _

end

theorem scripted_parseParam : Scripted (parseParam u) := by
  refine Scripted.line.bind fun ln => ?_
  refine Scripted.advance.bind fun _ => ?_
  refine (scripted_parseValue u).bind fun key => ?_
  refine (scripted_expectComma u).bind fun _ => ?_
  refine (scripted_parseType u).bind fun fasmType => ?_
  refine (scripted_expectComma u).bind fun _ => ?_
  refine (scripted_expectIdent u).bind fun name => ?_
  refine (scripted_expectComma u).bind fun _ => ?_
  refine (scripted_expectIdent u).bind fun reqStr => ?_
  exact .ite (.pure _) (.ite (.pure _) (.fail _ _))

theorem scripted_functionTurn (ln : Nat) (name : String) (fuel : Nat) :
    Scripted (functionTurn u ln name fuel) := by
  refine Scripted.peek.bind fun t => ?_
  refine .ite (.fail _ _) ?_
  refine .ite (Scripted.advance.bind fun _ => .pure _) ?_
  refine .ite ((scripted_parseParam u).bind fun _ => .pure _) ?_
  exact (scripted_parseStatement u fuel).bind fun _ => .pure _

theorem scripted_parseFunctionBody (ln : Nat) (name : String) : ∀ fuel : Nat,
    Scripted (parseFunctionBody u ln name fuel)
  | 0 => .throw _
  | fuel + 1 => by
    rw [parseFunctionBody_succ]
    refine (scripted_functionTurn u ln name fuel).bind ?_
    rintro ((param | stmt) | _)
    · exact (scripted_parseFunctionBody ln name fuel).bind fun _ => .pure _
    · exact (scripted_parseFunctionBody ln name fuel).bind fun _ => .pure _
    · exact .pure _

theorem scripted_parseFunction (fuel : Nat) : Scripted (parseFunction u fuel) := by
  refine Scripted.line.bind fun ln => ?_
  refine Scripted.advance.bind fun _ => ?_
  refine (scripted_expectIdent u).bind fun name => ?_
  exact (scripted_parseFunctionBody u ln name fuel).bind fun _ => .pure _

theorem scripted_programTurn (fuel : Nat) : Scripted (programTurn u fuel) := by
  refine Scripted.line.bind fun ln => ?_
  refine Scripted.peek.bind fun t => ?_
  cases t.kind with
  | eof => exact .pure _
  | ident kw =>
    refine .ite ?_ ?_
    · refine Scripted.advance.bind fun _ => ?_
      refine (scripted_expectIdent u).bind fun name => ?_
      refine (scripted_expectComma u).bind fun _ => ?_
      exact (scripted_parseValue u).bind fun value => .pure _
    refine .ite ?_ ?_
    · refine Scripted.advance.bind fun _ => ?_
      refine (scripted_expectString u).bind fun path => ?_
      refine (scripted_expectIdent u).bind fun _ => ?_
      exact (scripted_expectIdent u).bind fun alias_ => .pure _
    refine .ite ?_ ?_
    · refine Scripted.advance.bind fun _ => ?_
      refine (scripted_parseU32 u).bind fun index => ?_
      refine (scripted_expectComma u).bind fun _ => ?_
      refine (scripted_parseType u).bind fun fasmType => ?_
      refine (scripted_expectComma u).bind fun _ => ?_
      exact (scripted_parseValue u).bind fun init => .pure _
    exact .ite ((scripted_parseFunction u fuel).bind fun _ => .pure _) (.fail _ _)
  | _ => exact .fail _ _

theorem scripted_parseProgram : ∀ fuel : Nat, Scripted (parseProgram u fuel)
  | 0 => .throw _
  | fuel + 1 => by
    rw [parseProgram_succ]
    refine (scripted_programTurn u fuel).bind ?_
    rintro (add | _)
    · exact (scripted_parseProgram fuel).bind fun _ => .pure _
    · exact .pure _

end ParseM

/-! ## Progress -/

section Progress

open ParseM

variable {σ ρ γ : Type} {tokens : List Token}

/-- At every index of tokens that end with the end of the file stands a cursor that has it
before it. -/
theorem exists_indexes {init : List Token} {line pos : Nat}
    (hpos : pos < (init ++ [(⟨.eof, line⟩ : Token)]).length) :
    ∃ c : Cursor, c.Indexes (init ++ [⟨.eof, line⟩]) pos ∧ c.Ends := by
  generalize htokens : init ++ [⟨.eof, line⟩] = tokens at hpos
  refine ⟨⟨tokens[pos], tokens.drop (pos + 1)⟩, ⟨List.getElem?_eq_getElem hpos, rfl⟩, ?_⟩
  have hlast : (tokens.drop pos).getLast? = some ⟨.eof, line⟩ := by
    rw [List.getLast?_drop, if_neg (Nat.not_le_of_lt hpos), ← htokens, List.getLast?_concat]
  rw [List.drop_eq_getElem_cons hpos, List.getLast?_cons, ← List.getLastD_eq_getLast?] at hlast
  rw [Cursor.Ends, Option.some.inj hlast]

/-- What a turn does from an index: it returns or fails with an `Err`, it looks at no index behind
the last token, and if the loop goes on then the index has moved on. -/
def TurnConsumes (tokens : List Token) (pos : Nat) (turn : ParseM (Turn α ρ)) : Prop :=
  ∃ script : Script (Turn α ρ), script.parse = turn ∧
    match script.runAt tokens pos with
    | .ok (.again _, pos') => pos < pos' ∧ pos' < tokens.length
    | .ok (.done _, pos') => pos' < tokens.length
    | .error e => e.IsErr

theorem turnConsumes {turn : ParseM (Turn α ρ)} {pos : Nat} {c : Cursor} {P : α → Prop}
    (hscript : Scripted turn) (hc : c.Indexes tokens pos)
    (hturn : Parses turn c (Turn.Advances P c)) : TurnConsumes tokens pos turn := by
  obtain ⟨script, rfl⟩ := hscript
  refine ⟨script, rfl, ?_⟩
  have hrun := script.meets_runAt hc
  rw [Meets] at hrun
  rw [Parses, Meets] at hturn
  cases hparse : script.parse c with
  | error e =>
    rw [hparse] at hrun hturn
    rw [hrun]
    exact hturn
  | ok r =>
    obtain ⟨a, c'⟩ := r
    rw [hparse] at hrun hturn
    obtain ⟨pos', hrunAt, hc'⟩ := hrun
    rw [hrunAt]
    cases a with
    | done r => exact hc'.lt
    | again a =>
      have hlt : c'.left < c.left := hturn.2.2
      rw [hc.left_eq, hc'.left_eq] at hlt
      exact ⟨by omega, hc'.lt⟩

/-- A loop takes turns, with its variables as the turns before have left them. -/
def TakesTurns (turn : Nat → ParseM (Turn α ρ)) (loop : σ → Nat → ParseM γ) : Prop :=
  ∃ (next : σ → α → σ) (add : σ → α → γ → γ) (last : ρ → γ), ∀ s fuel,
    loop s (fuel + 1) = turn fuel >>= fun
      | .again a => do return add s a (← loop (next s a) fuel)
      | .done r => return last r

theorem takesTurns_parseOperandList (u : Unicode) :
    TakesTurns (fun _ => operandTurn u) fun _ : Unit => parseOperandList u := by
  refine ⟨fun _ _ => ⟨⟩, fun _ op ops => op :: ops, id, fun s fuel => ?_⟩
  refine (parseOperandList_succ u fuel).trans (bind_congr ?_)
  rintro (op | ops) <;> rfl

theorem takesTurns_parseTryBody (u : Unicode) (ln : Nat) :
    TakesTurns (tryTurn u ln) (parseTryBody u ln) := by
  refine ⟨fun inCatch a => a.elim true fun _ => inCatch, fun inCatch a bodies =>
    a.elim bodies fun stmt => if inCatch then (bodies.1, stmt :: bodies.2)
      else (stmt :: bodies.1, bodies.2), fun _ => ([], []), fun inCatch fuel => ?_⟩
  refine (parseTryBody_succ u ln inCatch fuel).trans (bind_congr ?_)
  rintro ((_ | stmt) | _)
  · exact (bind_pure _).symm
  · rfl
  · rfl

theorem takesTurns_parseFunctionBody (u : Unicode) (ln : Nat) (name : String) :
    TakesTurns (functionTurn u ln name) fun _ : Unit => parseFunctionBody u ln name := by
  refine ⟨fun _ _ => ⟨⟩, fun _ a r => a.elim (fun param => (param :: r.1, r.2)) fun stmt =>
    (r.1, stmt :: r.2), fun _ => ([], []), fun s fuel => ?_⟩
  refine (parseFunctionBody_succ u ln name fuel).trans (bind_congr ?_)
  rintro ((param | stmt) | _) <;> rfl

theorem takesTurns_parseProgram (u : Unicode) :
    TakesTurns (programTurn u) fun _ : Unit => parseProgram u := by
  refine ⟨fun _ _ => ⟨⟩, fun _ add prog => add prog, fun _ => ⟨[], [], [], []⟩, fun s fuel => ?_⟩
  refine (parseProgram_succ u fuel).trans (bind_congr ?_)
  rintro (add | _) <;> rfl

/-- A loop takes turns, and each that does not end it consumes a token.  For the statements that it
reads it needs three units of fuel for each token that is left. -/
structure LoopConsumes (tokens : List Token) (turn : Nat → ParseM (Turn α ρ))
    (loop : σ → Nat → ParseM γ) : Prop where
  turns : TakesTurns turn loop
  consumes : ∀ pos < tokens.length, ∀ fuel, 3 * (tokens.length - pos) ≤ fuel →
    TurnConsumes tokens pos (turn fuel)

/-- Parsing the tokens ends, within the tokens, and its loops consume them. -/
structure ParsesTotally (u : Unicode) (tokens : List Token) : Prop where
  raises : Raises CompileFail.IsErr (parse u tokens)
  indexes : ∃ script : Script ProgramAst, script.parse = parseProgram u (3 * tokens.length + 3) ∧
    (script.runAt tokens 0).map Prod.fst = parse u tokens
  program : LoopConsumes tokens (programTurn u) fun _ : Unit => parseProgram u
  function : ∀ ln name,
    LoopConsumes tokens (functionTurn u ln name) fun _ : Unit => parseFunctionBody u ln name
  tryBlock : ∀ ln, LoopConsumes tokens (tryTurn u ln) (parseTryBody u ln)
  operandList : LoopConsumes tokens (fun _ => operandTurn u) fun _ : Unit => parseOperandList u

theorem Cursor.indexes_zero (t : Token) (rest : List Token) :
    Cursor.Indexes (t :: rest) 0 ⟨t, rest⟩ := ⟨rfl, rfl⟩

/-- Running the script of a parser on the first index is parsing. -/
theorem runAt_zero {t : Token} {rest : List Token} (script : Script α) :
    (script.runAt (t :: rest) 0).map Prod.fst = (script.parse ⟨t, rest⟩).map Prod.fst := by
  have hrun := script.meets_runAt (Cursor.indexes_zero t rest)
  rw [Meets] at hrun
  cases hparse : script.parse ⟨t, rest⟩ with
  | error e =>
    rw [hparse] at hrun
    rw [hrun]
    rfl
  | ok r =>
    rw [hparse] at hrun
    obtain ⟨pos', hrunAt, -⟩ := hrun
    rw [hrunAt]
    rfl

theorem exists_runAt_parse (u : Unicode) (t : Token) (rest : List Token) :
    ∃ script : Script ProgramAst,
      script.parse = parseProgram u (3 * (t :: rest).length + 3) ∧
        (script.runAt (t :: rest) 0).map Prod.fst = parse u (t :: rest) := by
  obtain ⟨script, hscript⟩ := scripted_parseProgram u (3 * (t :: rest).length + 3)
  refine ⟨script, hscript, (runAt_zero script).trans ?_⟩
  rw [hscript, parse, List.length_cons, StateT.run]
  cases parseProgram u (3 * (rest.length + 1) + 3) ⟨t, rest⟩ <;> rfl

/-- Tokens that end with the end of the file are parsed totally. -/
theorem parse_total (u : Unicode) (init : List Token) (line : Nat) :
    ParsesTotally u (init ++ [⟨.eof, line⟩]) where
  raises := (parse_meets_eof u init line).1
  indexes := by
    cases htokens : init ++ [(⟨.eof, line⟩ : Token)] with
    | nil => exact absurd htokens (List.concat_ne_nil _ _)
    | cons t rest => exact exists_runAt_parse u t rest
  program := by
    refine ⟨takesTurns_parseProgram u, fun pos hpos fuel hfuel => ?_⟩
    obtain ⟨c, hc, hends⟩ := exists_indexes hpos
    have hleft := hc.left_eq
    exact turnConsumes (scripted_programTurn u fuel) hc (parses_programTurn hends (by omega))
  function ln name := by
    refine ⟨takesTurns_parseFunctionBody u ln name, fun pos hpos fuel hfuel => ?_⟩
    obtain ⟨c, hc, hends⟩ := exists_indexes hpos
    have hleft := hc.left_eq
    exact turnConsumes (scripted_functionTurn u ln name fuel) hc
      (parses_functionTurn hends (by omega))
  tryBlock ln := by
    refine ⟨takesTurns_parseTryBody u ln, fun pos hpos fuel hfuel => ?_⟩
    obtain ⟨c, hc, hends⟩ := exists_indexes hpos
    have hleft := hc.left_eq
    exact turnConsumes (scripted_tryTurn u (scripted_parseStatement u fuel) ln) hc
      (parses_tryTurn hends (parses_parseStatement fuel hends (by omega)))
  operandList := by
    refine ⟨takesTurns_parseOperandList u, fun pos hpos fuel hfuel => ?_⟩
    obtain ⟨c, hc, hends⟩ := exists_indexes hpos
    exact turnConsumes (scripted_operandTurn u) hc (parses_operandTurn hends)

end Progress

end Fasm
