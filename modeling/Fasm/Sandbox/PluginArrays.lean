import Fasm.Sandbox.PluginManifest

/-!
# Arrays of strings in a manifest

An array of strings as it is written, on one line or with one element a line, and what the manifest
reader makes of its lines.  Across lines it ends at the first element with a closing bracket.
-/

namespace Fasm

/-! ## Layouts -/

/-- A string that is written between double quotes as it is. -/
structure PlainText where
  chars : List Char
  plain : ∀ c ∈ chars, c ≠ dquote ∧ c ≠ backslash ∧ c ≠ '\n'

namespace PlainText

def quoted (s : PlainText) : List Char := dquote :: s.chars ++ [dquote]

def string (s : PlainText) : String := String.ofList s.chars

theorem mem_quoted (s : PlainText) {c : Char} (hc : c ≠ dquote) : c ∈ s.quoted ↔ c ∈ s.chars := by
  simp only [quoted, List.mem_append, List.mem_cons, List.not_mem_nil, or_false, hc, false_or]

end PlainText

/-- How an array is written. -/
inductive ArgsLayout where
  | oneLine
  /-- with blanks in front of each element, and a comma behind the last one or not -/
  | perLine (indent : List Char) (blank : ∀ c ∈ indent, c = ' ' ∨ c = '\t') (trailing : Bool)

/-- The lines of the elements, with commas behind all of them but the last one. -/
def elementLines (indent : List Char) (trailing : Bool) : List PlainText → List (List Char)
  | [] => []
  | s :: ss =>
    (indent ++ s.quoted ++ if trailing || !ss.isEmpty then [','] else []) ::
      elementLines indent trailing ss

/-- The lines of an array of arguments. -/
def ArgsLayout.lines (args : List PlainText) : ArgsLayout → List (List Char)
  | oneLine => ["args = [".toList ++ [',', ' '].intercalate (args.map PlainText.quoted) ++ [']']]
  | perLine indent _ trailing =>
    "args = [".toList :: (elementLines indent trailing args ++ [[']']])

theorem argsOpen_eq : "args = [".toList = ['a', 'r', 'g', 's', ' ', '=', ' ', '['] := rfl

theorem cmdOpen_eq : "cmd = ".toList = ['c', 'm', 'd', ' ', '=', ' '] := rfl

theorem header_eq : "[plugin]".toList = ['[', 'p', 'l', 'u', 'g', 'i', 'n', ']'] := rfl

/-! ## Arrays -/

/-- Blanks. -/
def Blank (cs : List Char) : Prop := ∀ c ∈ cs, isWhitespace c = true

theorem blank_nil : Blank [] := nofun

theorem blank_space : Blank [' '] := by
  rintro c (_ | ⟨_, ⟨⟩⟩)
  rfl

theorem Blank.comma {cs : List Char} (h : Blank cs) : ',' ∉ cs := fun hmem => by
  cases h ',' hmem

/-- A text without blanks at its end. -/
def EndTrimmed (cs : List Char) : Prop := ∀ c ∈ cs.getLast?, isWhitespace c = false

theorem EndTrimmed.of_getLast? {cs : List Char} {c : Char} (h : cs.getLast? = some c)
    (hc : isWhitespace c = false) : EndTrimmed cs := by
  intro d hd
  rw [h] at hd
  cases hd
  exact hc

theorem EndTrimmed.concat (cs : List Char) {c : Char} (hc : isWhitespace c = false) :
    EndTrimmed (cs ++ [c]) := .of_getLast? List.getLast?_concat hc

theorem trimChars_eq_self {cs : List Char} {c : Char} (hhead : cs.head? = some c)
    (hc : isWhitespace c = false) (h : EndTrimmed cs) : trimChars cs = cs := by
  refine trimBy_eq_self (fun d hd => ?_) h
  rw [hhead] at hd
  cases hd
  exact hc

theorem endTrimmed_quoted (s : PlainText) : EndTrimmed s.quoted := .concat _ rfl

/-- A text in double quotes has no blanks around. -/
theorem trimChars_quoted (s : PlainText) {pre post : List Char} (hpre : Blank pre)
    (hpost : Blank post) : trimChars (pre ++ s.quoted ++ post) = s.quoted := by
  refine (trimBy_append s.quoted hpre hpost).trans ?_
  exact trimChars_eq_self (c := dquote) rfl rfl (endTrimmed_quoted s)

theorem stripQuotes_quoted {s : PlainText} (h : IsArgument s.chars) :
    stripQuotes s.quoted = s.chars := by
  have hquote : ∀ c ∈ s.chars, (c == dquote) = false := fun c hc =>
    beq_eq_false_iff_ne.mpr (s.plain c hc).1
  have htrim : trimChars s.quoted = s.quoted := by
    have htrim := trimChars_quoted s blank_nil blank_nil
    rwa [List.nil_append, List.append_nil] at htrim
  have hmarks : trimMatches dquote s.quoted = s.chars := by
    have hone : ∀ c ∈ [dquote], (c == dquote) = true := by
      rintro c (_ | ⟨_, ⟨⟩⟩)
      rfl
    refine (trimBy_append s.chars hone hone).trans (trimBy_eq_self ?_ ?_)
    · exact fun c hc => hquote c (List.mem_of_mem_head? hc)
    · exact fun c hc => hquote c (List.mem_of_mem_getLast? hc)
  rw [stripQuotes, htrim, hmarks]
  refine trimBy_eq_self (fun c hc => beq_eq_false_iff_ne.mpr ?_) fun c hc =>
    beq_eq_false_iff_ne.mpr ?_
  · rintro rfl
    exact h.head hc
  · rintro rfl
    exact h.last hc

/-- The elements of an array without its brackets. -/
def arrayItems (inner : List Char) : List (List Char) :=
  ((inner.splitOn ',').map fun t => stripQuotes (trimChars t)).filter fun t => !t.isEmpty

section Items

variable {s : PlainText} {pre post : List Char}

theorem comma_notMem_quoted (h : IsArgument s.chars) (hpre : Blank pre) :
    ',' ∉ pre ++ s.quoted := by
  rw [List.mem_append, s.mem_quoted (by decide), not_or]
  exact ⟨hpre.comma, h.comma⟩

/-- An argument in double quotes is an element. -/
theorem item_quoted (h : IsArgument s.chars) (hpre : Blank pre) (hpost : Blank post) :
    ([pre ++ s.quoted ++ post].map fun t => stripQuotes (trimChars t)).filter
      (fun t => !t.isEmpty) = [s.chars] := by
  rw [List.map_singleton, trimChars_quoted s hpre hpost, stripQuotes_quoted h]
  refine List.filter_cons_of_pos ?_
  rw [Bool.not_eq_true', List.isEmpty_eq_false_iff]
  exact h.ne_nil

theorem arrayItems_cons (h : IsArgument s.chars) (hpre : Blank pre) (more : List Char) :
    arrayItems (pre ++ s.quoted ++ ',' :: more) = s.chars :: arrayItems more := by
  rw [arrayItems, List.splitOn_append_cons_self_of_not_mem (comma_notMem_quoted h hpre),
    ← List.singleton_append, List.map_append, List.filter_append]
  have hitem := item_quoted h hpre blank_nil
  rw [List.append_nil] at hitem
  rw [hitem]
  rfl

theorem arrayItems_last (h : IsArgument s.chars) (hpre : Blank pre) (hpost : Blank post) :
    arrayItems (pre ++ s.quoted ++ post) = [s.chars] := by
  have hcomma : ',' ∉ pre ++ s.quoted ++ post := by
    rw [List.mem_append, not_or]
    exact ⟨comma_notMem_quoted h hpre, hpost.comma⟩
  rw [arrayItems, List.splitOn_eq_singleton hcomma]
  exact item_quoted h hpre hpost

/-- Blanks are no element. -/
theorem arrayItems_blank (hpre : Blank pre) : arrayItems pre = [] := by
  have htrim : trimChars pre = [] := by
    rw [trimChars, trimBy, List.dropWhile_eq_nil_iff.mpr hpre]
    rfl
  rw [arrayItems, List.splitOn_eq_singleton hpre.comma, List.map_singleton, htrim]
  rfl

end Items

/-- The elements of an array on one line. -/
theorem arrayItems_intercalate {args : List PlainText} (h : ∀ s ∈ args, IsArgument s.chars)
    {pre : List Char} (hpre : Blank pre) :
    arrayItems (pre ++ [',', ' '].intercalate (args.map PlainText.quoted)) =
      args.map PlainText.chars := by
  induction args generalizing pre with
  | nil => exact arrayItems_blank (by rwa [List.map_nil, List.intercalate_nil, List.append_nil])
  | cons s args ih =>
    obtain ⟨hs, hargs⟩ := List.forall_mem_cons.mp h
    cases args with
    | nil =>
      have hlast := arrayItems_last hs hpre blank_nil
      rw [List.append_nil] at hlast
      rwa [List.map_singleton, List.intercalate_singleton]
    | cons t args =>
      have hinner : pre ++ [',', ' '].intercalate ((s :: t :: args).map PlainText.quoted) =
          pre ++ s.quoted ++ ',' ::
            ([' '] ++ [',', ' '].intercalate ((t :: args).map PlainText.quoted)) := by
        rw [List.map_cons, List.map_cons, List.intercalate_cons_cons]
        simp only [List.append_assoc, List.cons_append, List.nil_append]
      rw [hinner, arrayItems_cons hs hpre, ih hargs blank_space]
      rfl

/-- The elements of an array across lines, when the lines are joined. -/
def joinedElements (trailing : Bool) : List PlainText → List Char
  | [] => []
  | s :: ss =>
    ' ' :: (s.quoted ++ if trailing || !ss.isEmpty then [','] else []) ++
      joinedElements trailing ss

theorem arrayItems_joined {args : List PlainText} (h : ∀ s ∈ args, IsArgument s.chars)
    (trailing : Bool) {post : List Char} (hpost : Blank post) :
    arrayItems (joinedElements trailing args ++ post) = args.map PlainText.chars := by
  induction args with
  | nil => exact arrayItems_blank hpost
  | cons s args ih =>
    obtain ⟨hs, hargs⟩ := List.forall_mem_cons.mp h
    cases hcomma : trailing || !args.isEmpty with
    | true =>
      have hjoined : joinedElements trailing (s :: args) ++ post =
          [' '] ++ s.quoted ++ ',' :: (joinedElements trailing args ++ post) := by
        simp only [joinedElements, hcomma, if_true, List.append_assoc, List.cons_append,
          List.nil_append]
      rw [hjoined, arrayItems_cons hs blank_space, ih hargs]
      rfl
    | false =>
      obtain rfl : args = [] := by
        rw [Bool.or_eq_false_iff, Bool.not_eq_false', List.isEmpty_iff] at hcomma
        exact hcomma.2
      have hjoined : joinedElements trailing [s] ++ post = [' '] ++ s.quoted ++ post := by
        simp only [joinedElements, hcomma, Bool.false_eq_true, if_false, List.append_nil,
          List.cons_append, List.nil_append]
      rw [hjoined]
      exact arrayItems_last hs blank_space hpost

/-! ## Logical lines -/

section Lines

variable {s : PlainText} {indent buf : List Char} {trailing : Bool} {args pre post : List PlainText}
  {rest : List (List Char)}

/-- A line that starts and ends with no blank is read as it is. -/
theorem isLine_self {line : List Char} {c : Char} (hhead : line.head? = some c)
    (hblank : isWhitespace c = false) (hc : c ≠ '#')
    (hlast : EndTrimmed line) : IsLine line line where
  trim_eq := trimChars_eq_self hhead hblank hlast
  ne_nil := by
    rintro rfl
    cases hhead
  not_comment := by
    rw [hhead]
    exact fun h => hc (Option.some.inj h)

/-- The line of an element. -/
theorem isLine_element (hindent : ∀ c ∈ indent, c = ' ' ∨ c = '\t') (comma : Bool) :
    IsLine (indent ++ s.quoted ++ if comma then [','] else [])
      (s.quoted ++ if comma then [','] else []) := by
  have hblank : Blank indent := by
    intro c hc
    rcases hindent c hc with rfl | rfl <;> rfl
  have hlast : EndTrimmed (s.quoted ++ if comma then [','] else []) := by
    cases comma with
    | false =>
      rw [if_neg Bool.false_ne_true, List.append_nil]
      exact endTrimmed_quoted s
    | true => exact .concat s.quoted rfl
  have hself : IsLine (s.quoted ++ if comma then [','] else [])
      (s.quoted ++ if comma then [','] else []) :=
    isLine_self (c := dquote) rfl rfl (by decide) hlast
  refine ⟨?_, hself.ne_nil, hself.not_comment⟩
  have htrim := trimBy_append (s.quoted ++ if comma then [','] else []) hblank blank_nil
  rw [List.append_nil, ← List.append_assoc] at htrim
  exact htrim.trans hself.trim_eq

/-- A closing bracket in the line of an element is in the element. -/
theorem bracket_mem_element (comma : Bool) :
    ']' ∈ (s.quoted ++ if comma then [','] else []) ↔ ']' ∈ s.chars := by
  have hcomma : ']' ∉ (if comma then [','] else [] : List Char) := by
    cases comma <;> decide
  rw [List.mem_append, s.mem_quoted (by decide)]
  exact or_iff_left hcomma

/-- Elements without closing brackets are joined. -/
theorem logicalLines_elements (hindent : ∀ c ∈ indent, c = ' ' ∨ c = '\t')
    (h : ∀ s ∈ args, ']' ∉ s.chars) :
    logicalLines (some buf) (elementLines indent trailing args ++ rest) =
      logicalLines (some (buf ++ joinedElements trailing args)) rest := by
  induction args generalizing buf with
  | nil =>
    rw [joinedElements, List.append_nil]
    rfl
  | cons s args ih =>
    obtain ⟨hs, hargs⟩ := List.forall_mem_cons.mp h
    have hline := isLine_element (s := s) hindent (trailing || !args.isEmpty)
    rw [elementLines, List.cons_append, hline.joins (mt (bracket_mem_element _).mp hs), ih hargs,
      joinedElements, List.append_assoc]

/-- The first one with a closing bracket ends the logical line. -/
theorem logicalLines_closed (hindent : ∀ c ∈ indent, c = ' ' ∨ c = '\t')
    (hpre : ∀ s ∈ pre, ']' ∉ s.chars) (hs : ']' ∈ s.chars) :
    logicalLines (some buf) (elementLines indent trailing (pre ++ s :: post) ++ rest) =
      trimChars (buf ++ joinedElements (trailing || !post.isEmpty) (pre ++ [s])) ::
        logicalLines none (elementLines indent trailing post ++ rest) := by
  induction pre generalizing buf with
  | nil =>
    have hline := isLine_element (s := s) hindent (trailing || !post.isEmpty)
    rw [List.nil_append, elementLines, List.cons_append,
      hline.closes ((bracket_mem_element _).mpr hs)]
    simp only [List.nil_append, joinedElements, List.isEmpty_nil, Bool.not_true, Bool.or_false,
      List.append_nil]
  | cons t pre ih =>
    obtain ⟨ht, hpre⟩ := List.forall_mem_cons.mp hpre
    have hline := isLine_element (s := t) hindent true
    have hcomma (b : Bool) (l : List PlainText) : (b || !(pre ++ s :: l).isEmpty) = true := by
      have hne : pre ++ s :: l ≠ [] :=
        List.append_ne_nil_of_right_ne_nil pre (List.cons_ne_nil s l)
      rw [List.isEmpty_eq_false_iff.mpr hne, Bool.not_false, Bool.or_true]
    rw [List.cons_append, elementLines, hcomma, List.cons_append,
      hline.joins (mt (bracket_mem_element true).mp ht), ih hpre, List.cons_append, joinedElements,
      hcomma, List.append_assoc]

end Lines

/-! ## Reading -/

section Reading

variable {m : ManifestFields} {v inner close : List Char}

/-- The key and the value of a line. -/
theorem splitKv_line (key : List Char) (heq : '=' ∉ key) (hkey : trimChars key = key)
    (hv : trimChars v = v) : splitKv (key ++ [' ', '=', ' '] ++ v) = some (key, v) := by
  have hpre : ∀ c ∈ key ++ [' '], (c != '=') = true := by
    intro c hc
    rw [List.mem_append, List.mem_singleton] at hc
    rcases hc with hc | rfl
    · exact bne_iff_ne.mpr fun h => heq (h ▸ hc)
    · rfl
  have hrest : ∀ c ∈ ('=' :: ' ' :: v).head?, (c != '=') = false := by
    rintro _ ⟨⟩
    rfl
  have hline : key ++ [' ', '=', ' '] ++ v = (key ++ [' ']) ++ '=' :: ' ' :: v := by
    simp only [List.append_assoc, List.cons_append, List.nil_append]
  have hleft : trimChars (key ++ [' ']) = key :=
    (trimBy_append key blank_nil blank_space).trans hkey
  have hright : trimChars (' ' :: v) = v := by
    have htrim := trimBy_append v blank_space blank_nil
    rw [List.append_nil] at htrim
    exact htrim.trans hv
  rw [splitKv, hline, dropWhile_append_of_head? hpre hrest, takeWhile_append_of_head? hpre hrest]
  simp only [hleft, hright]

/-- An array without its brackets. -/
theorem arrayInner_eq (hhead : (inner ++ close).head? ≠ some '[')
    (hlast : inner.getLast? ≠ some ']') (hclose : ∀ c ∈ close, c = ']')
    (hblank : EndTrimmed ('[' :: (inner ++ close))) :
    arrayInner ('[' :: (inner ++ close)) = inner := by
  have htrim : trimChars ('[' :: (inner ++ close)) = '[' :: (inner ++ close) :=
    trimChars_eq_self (c := '[') rfl rfl hblank
  have hdrop : ('[' :: (inner ++ close)).dropWhile (· == '[') = inner ++ close := by
    refine (List.dropWhile_cons_of_pos (p := (· == '[')) (beq_self_eq_true '[')).trans ?_
    refine dropWhile_eq_self_of_head? fun c hc => beq_eq_false_iff_ne.mpr ?_
    rintro rfl
    exact hhead hc
  rw [arrayInner, htrim, hdrop,
    rdropWhile_append_of_pos fun c hc => beq_iff_eq.mpr (hclose c hc)]
  refine rdropWhile_eq_self fun c hc => beq_eq_false_iff_ne.mpr ?_
  rintro rfl
  exact hlast hc

theorem ne_header {line : List Char} (h : line.head? ≠ some '[') : line ≠ "[plugin]".toList := by
  rintro rfl
  exact h rfl

/-- The line of an array sets the arguments. -/
theorem readLine_args (hin : m.inPlugin = true)
    (hlast : EndTrimmed ('[' :: v)) :
    m.readLine ("args = [".toList ++ v) = .ok { m with args := parseStrArray ('[' :: v) } := by
  have hv : trimChars ('[' :: v) = '[' :: v := trimChars_eq_self (c := '[') rfl rfl hlast
  have hkv : splitKv ("args = [".toList ++ v) = some ("args".toList, '[' :: v) :=
    splitKv_line "args".toList (by decide) (by decide) hv
  have hhead : ("args = [".toList ++ v).head? ≠ some '[' := by
    rw [argsOpen_eq]
    rintro ⟨⟩
  rw [ManifestFields.readLine, if_neg (ne_header hhead), if_neg hhead,
    if_neg (by rw [hin]; rintro ⟨⟩), hkv]
  simp only
  rw [if_neg (by decide), if_neg (by decide), if_neg (by decide), if_pos trivial]

/-- The line of a command sets the command. -/
theorem readLine_cmd (hin : m.inPlugin = true) (s : PlainText) (more : List Char)
    (hlast : EndTrimmed (s.quoted ++ more)) :
    m.readLine ("cmd = ".toList ++ (s.quoted ++ more)) =
      .ok { m with cmd := some (stripQuotes (s.quoted ++ more)) } := by
  have hv : trimChars (s.quoted ++ more) = s.quoted ++ more :=
    trimChars_eq_self (c := dquote) rfl rfl hlast
  have hkv : splitKv ("cmd = ".toList ++ (s.quoted ++ more)) =
      some ("cmd".toList, s.quoted ++ more) :=
    splitKv_line "cmd".toList (by decide) (by decide) hv
  have hhead : ("cmd = ".toList ++ (s.quoted ++ more)).head? ≠ some '[' := by
    rw [cmdOpen_eq]
    rintro ⟨⟩
  rw [ManifestFields.readLine, if_neg (ne_header hhead), if_neg hhead,
    if_neg (by rw [hin]; rintro ⟨⟩), hkv]
  simp only
  rw [if_neg (by decide), if_pos trivial]

/-- A line with nothing but a closing bracket sets nothing. -/
theorem readLine_bracket (m : ManifestFields) : m.readLine [']'] = .ok m := by
  rw [ManifestFields.readLine, if_neg (by decide), if_neg (by decide)]
  split
  case isTrue => rfl
  case isFalse => rfl

end Reading

/-! ## Texts of arrays -/

section Texts

variable {args : List PlainText} {trailing : Bool}

theorem getLast?_quoted (s : PlainText) : s.quoted.getLast? = some dquote := List.getLast?_concat

theorem getLast?_inline (hne : args ≠ []) :
    ([',', ' '].intercalate (args.map PlainText.quoted)).getLast? = some dquote := by
  induction args with
  | nil => exact absurd rfl hne
  | cons s args ih =>
    cases args with
    | nil =>
      rw [List.map_singleton, List.intercalate_singleton]
      exact getLast?_quoted s
    | cons t args =>
      rw [List.map_cons, List.map_cons, List.intercalate_cons_cons, List.getLast?_append,
        ← List.map_cons, ih (List.cons_ne_nil t args)]
      rfl

theorem getLast?_joined (trailing : Bool) (hne : args ≠ []) :
    ∃ c, (joinedElements trailing args).getLast? = some c ∧ (c = dquote ∨ c = ',') := by
  induction args with
  | nil => exact absurd rfl hne
  | cons s args ih =>
    rw [joinedElements, List.getLast?_append]
    cases args with
    | nil =>
      cases trailing with
      | false =>
        have hlast : (' ' :: (s.quoted ++ [])).getLast? = some dquote := by
          rw [List.append_nil]
          exact List.getLast?_concat (l := ' ' :: dquote :: s.chars)
        exact ⟨dquote, hlast, .inl rfl⟩
      | true => exact ⟨',', List.getLast?_concat (l := ' ' :: s.quoted), .inr rfl⟩
    | cons t args =>
      obtain ⟨c, hlast, hc⟩ := ih (List.cons_ne_nil t args)
      exact ⟨c, by rw [hlast]; rfl, hc⟩

/-- The array on one line. -/
theorem parseStrArray_inline (h : ∀ s ∈ args, IsArgument s.chars) :
    parseStrArray ('[' :: ([',', ' '].intercalate (args.map PlainText.quoted) ++ [']'])) =
      args.map PlainText.chars := by
  have hinner : arrayInner ('[' :: ([',', ' '].intercalate (args.map PlainText.quoted) ++ [']'])) =
      [',', ' '].intercalate (args.map PlainText.quoted) := by
    refine arrayInner_eq ?_ ?_ ?_ ?_
    · cases args with
      | nil => exact nofun
      | cons s args =>
        cases args with
        | nil => exact nofun
        | cons t args => exact nofun
    · by_cases hne : args = []
      · rw [hne]
        exact nofun
      · rw [getLast?_inline hne]
        exact nofun
    · rintro c (_ | ⟨_, ⟨⟩⟩)
      rfl
    · exact .concat ('[' :: _) rfl
  have hitems := arrayItems_intercalate h blank_nil
  rw [List.nil_append] at hitems
  exact (congrArg arrayItems hinner).trans hitems

/-- The array across lines is read up to its closing bracket. -/
theorem parseStrArray_joined (h : ∀ s ∈ args, IsArgument s.chars) :
    parseStrArray ('[' :: (joinedElements trailing args ++ [' ', ']'])) =
      args.map PlainText.chars := by
  have hsplit : joinedElements trailing args ++ [' ', ']'] =
      (joinedElements trailing args ++ [' ']) ++ [']'] := by
    rw [List.append_assoc]
    rfl
  have hinner : arrayInner ('[' :: (joinedElements trailing args ++ [' ', ']'])) =
      joinedElements trailing args ++ [' '] := by
    rw [hsplit]
    refine arrayInner_eq ?_ ?_ ?_ ?_
    · cases args with
      | nil => exact nofun
      | cons s args => exact nofun
    · rw [List.getLast?_concat]
      exact nofun
    · rintro c (_ | ⟨_, ⟨⟩⟩)
      rfl
    · exact .concat ('[' :: _) rfl
  exact (congrArg arrayItems hinner).trans (arrayItems_joined h trailing blank_space)

/-- The array across lines is read as well when the closing bracket is not there. -/
theorem parseStrArray_unclosed (h : ∀ s ∈ args, IsArgument s.chars) (hne : args ≠ []) :
    parseStrArray ('[' :: joinedElements trailing args) = args.map PlainText.chars := by
  obtain ⟨c, hlast, hc⟩ := getLast?_joined trailing hne
  have hblank : isWhitespace c = false ∧ c ≠ ']' := by
    rcases hc with rfl | rfl <;> exact ⟨by decide, by decide⟩
  have hinner : arrayInner ('[' :: (joinedElements trailing args ++ [])) =
      joinedElements trailing args := by
    refine arrayInner_eq ?_ ?_ nofun ?_
    · cases args with
      | nil => exact nofun
      | cons s args => exact nofun
    · rw [hlast]
      exact fun h => hblank.2 (Option.some.inj h)
    · refine .of_getLast? (c := c) ?_ hblank.1
      rw [List.append_nil, List.getLast?_cons, hlast]
      rfl
  have hitems := arrayItems_joined h trailing blank_nil
  rw [List.append_nil] at hinner hitems
  exact (congrArg arrayItems hinner).trans hitems

end Texts

/-! ## Reading the lines of an array -/

section Arrays

variable {f : ManifestFields} {args pre post : List PlainText} {s : PlainText}
  {indent v : List Char} {trailing : Bool} {rest : List (List Char)}

theorem isLine_args (hlast : EndTrimmed ('[' :: v)) :
    IsLine ("args = [".toList ++ v) ("args = [".toList ++ v) := by
  refine isLine_self (c := 'a') rfl rfl (by decide) fun c hc => hlast c ?_
  have hline : "args = [".toList ++ v = "args = ".toList ++ '[' :: v := rfl
  rwa [hline, List.getLast?_append, List.getLast?_cons, Option.some_or,
    ← List.getLast?_cons] at hc

/-- The logical line of an array is read, whatever comes behind it. -/
theorem readLines_args_cons (hin : f.inPlugin = true)
    (hlast : EndTrimmed ('[' :: v)) (ls : List (List Char)) :
    (("args = [".toList ++ v) :: ls).foldlM ManifestFields.readLine f =
      ls.foldlM ManifestFields.readLine { f with args := parseStrArray ('[' :: v) } := by
  rw [List.foldlM_cons, readLine_args hin hlast]
  rfl

/-- An array on one line. -/
theorem readLines_inline (hin : f.inPlugin = true) (h : ∀ s ∈ args, IsArgument s.chars) :
    (logicalLines none (ArgsLayout.oneLine.lines args ++ rest)).foldlM ManifestFields.readLine f =
      (logicalLines none rest).foldlM ManifestFields.readLine
        { f with args := args.map PlainText.chars } := by
  let v := [',', ' '].intercalate (args.map PlainText.quoted) ++ [']']
  have hlast : EndTrimmed ('[' :: v) := .concat ('[' :: _) rfl
  have hline : ArgsLayout.oneLine.lines args ++ rest = ("args = [".toList ++ v) :: rest := by
    rw [ArgsLayout.lines, List.append_assoc]
    rfl
  have hopen : ¬ OpensArray ("args = [".toList ++ v) := fun hopen =>
    hopen.2.2 (List.mem_append_right _ (List.mem_append_right _ List.mem_cons_self))
  rw [hline, (isLine_args hlast).plain hopen, readLines_args_cons hin hlast,
    parseStrArray_inline h]

theorem isLine_open : IsLine "args = [".toList "args = [".toList :=
  isLine_self (c := 'a') rfl rfl (by decide) (.of_getLast? (c := '[') rfl rfl)

theorem isLine_bracket : IsLine [']'] [']'] :=
  isLine_self (c := ']') rfl rfl (by decide) (.concat [] rfl)

/-- An array across lines is read as a whole if none of its elements has a closing bracket. -/
theorem readLines_joined (hin : f.inPlugin = true) (h : ∀ s ∈ args, IsArgument s.chars)
    (hindent : ∀ c ∈ indent, c = ' ' ∨ c = '\t') (hclosed : ∀ s ∈ args, ']' ∉ s.chars) :
    (logicalLines none ((ArgsLayout.perLine indent hindent trailing).lines args ++ rest)).foldlM
        ManifestFields.readLine f =
      (logicalLines none rest).foldlM ManifestFields.readLine
        { f with args := args.map PlainText.chars } := by
  let v := joinedElements trailing args ++ [' ', ']']
  have hlast : EndTrimmed ('[' :: v) := by
    have hv : '[' :: v = ('[' :: (joinedElements trailing args ++ [' '])) ++ [']'] := by
      simp only [v, List.cons_append, List.append_assoc, List.nil_append]
    rw [hv]
    exact .concat _ rfl
  have hlines :
      logicalLines none ((ArgsLayout.perLine indent hindent trailing).lines args ++ rest) =
      ("args = [".toList ++ v) :: logicalLines none rest := by
    rw [ArgsLayout.lines, List.cons_append, isLine_open.opens (by decide), List.append_assoc,
      logicalLines_elements hindent hclosed, List.singleton_append,
      isLine_bracket.closes List.mem_cons_self, List.append_assoc]
    exact congrArg (· :: _) (isLine_args hlast).trim_eq
  rw [hlines, readLines_args_cons hin hlast, parseStrArray_joined h]

/-- An element with a closing bracket ends the array: the rest of its lines are lines by
themselves. -/
theorem readLines_closed (hin : f.inPlugin = true) (h : ∀ t ∈ pre ++ [s], IsArgument t.chars)
    (hindent : ∀ c ∈ indent, c = ' ' ∨ c = '\t') (hpre : ∀ t ∈ pre, ']' ∉ t.chars)
    (hs : ']' ∈ s.chars) :
    (logicalLines none
        ((ArgsLayout.perLine indent hindent trailing).lines (pre ++ s :: post) ++ rest)).foldlM
        ManifestFields.readLine f =
      (logicalLines none (elementLines indent trailing post ++ [']'] :: rest)).foldlM
        ManifestFields.readLine { f with args := (pre ++ [s]).map PlainText.chars } := by
  let v := joinedElements (trailing || !post.isEmpty) (pre ++ [s])
  have hne : pre ++ [s] ≠ [] := List.append_ne_nil_of_right_ne_nil _ (List.cons_ne_nil _ _)
  have hlast : EndTrimmed ('[' :: v) := by
    obtain ⟨c, hlast, hc⟩ := getLast?_joined (trailing || !post.isEmpty) hne
    have hend : ('[' :: v).getLast? = some c := by
      rw [List.getLast?_cons, hlast]
      rfl
    refine .of_getLast? hend ?_
    rcases hc with rfl | rfl <;> rfl
  have hlines : logicalLines none
        ((ArgsLayout.perLine indent hindent trailing).lines (pre ++ s :: post) ++ rest) =
      ("args = [".toList ++ v) ::
        logicalLines none (elementLines indent trailing post ++ [']'] :: rest) := by
    rw [ArgsLayout.lines, List.cons_append, isLine_open.opens (by decide), List.append_assoc,
      logicalLines_closed hindent hpre hs]
    exact congrArg (· :: _) (isLine_args hlast).trim_eq
  rw [hlines, readLines_args_cons hin hlast, parseStrArray_unclosed h hne]

end Arrays

end Fasm
