import Fasm.Sandbox.PluginArrays

/-!
# The arguments of a plugin

A command and an array of arguments in the section of a plugin.  The arguments that are read are the
strings of the array if none of them is empty, has a comma or a single quote at one of its ends, and
no bracket in a string is taken for one of the array.
-/

namespace Fasm

/-! ## Sections -/

/-- A plugin section with a command and arguments, in any order. -/
structure PluginSection where
  cmd : PlainText
  args : List PlainText
  layout : ArgsLayout
  cmdFirst : Bool

namespace PluginSection

variable (m : PluginSection)

def cmdLine : List Char := "cmd = ".toList ++ m.cmd.quoted

def argsLines : List (List Char) := m.layout.lines m.args

/-- The lines behind the header. -/
def body : List (List Char) :=
  if m.cmdFirst then m.cmdLine :: m.argsLines else m.argsLines ++ [m.cmdLine]

/-- The text of the manifest. -/
def text : String := String.ofList (("[plugin]".toList :: m.body).flatMap (· ++ ['\n']))

/-- The arguments are read as they are. -/
def ReadsArgs : Prop :=
  ∃ r, parseManifest m.text = .ok r ∧ r.args = m.args.map PlainText.string

/-- The arguments can be read as they are. -/
structure Readable : Prop where
  arguments : ∀ s ∈ m.args, IsArgument s.chars
  /-- an array across lines ends at the first element with a closing bracket -/
  closed : m.layout ≠ .oneLine → ∀ s ∈ m.args.dropLast, ']' ∉ s.chars
  /-- a command with an opening bracket takes the lines up to a closing one with it -/
  cmd : '[' ∈ m.cmd.chars → ']' ∉ m.cmd.chars → m.cmdFirst = true ∧ m.args = []

end PluginSection

/-! ## The text -/

/-- A line of a text. -/
def Unbroken (line : List Char) : Prop := '\n' ∉ line ∧ line.getLast? ≠ some '\r'

theorem textLines_flatMap {ls : List (List Char)} (h : ∀ line ∈ ls, Unbroken line) :
    textLines (ls.flatMap (· ++ ['\n'])) = ls := by
  have hsplit : (ls.flatMap (· ++ ['\n'])).splitOn '\n' = ls ++ [[]] := by
    induction ls with
    | nil => rfl
    | cons line ls ih =>
      obtain ⟨hline, hls⟩ := List.forall_mem_cons.mp h
      rw [List.flatMap_cons, List.append_assoc, List.singleton_append,
        List.splitOn_append_cons_self_of_not_mem hline.1, ih hls]
      rfl
  have hstrip : (ls.map fun l => if l.getLast? = some '\r' then l.dropLast else l) = ls :=
    (List.map_congr_left fun line hline => if_neg (h line hline).2).trans (List.map_id ls)
  simp only [textLines, hsplit, List.getLast?_concat, Option.getD_some, List.dropLast_concat,
    if_true, hstrip]

section Unbroken

variable {s : PlainText} {args : List PlainText}

theorem newline_notMem_quoted (s : PlainText) : '\n' ∉ s.quoted := by
  rw [s.mem_quoted (by decide)]
  exact fun h => (s.plain _ h).2.2 rfl

theorem newline_notMem_inline (args : List PlainText) :
    '\n' ∉ [',', ' '].intercalate (args.map PlainText.quoted) := by
  induction args with
  | nil => exact nofun
  | cons s args ih =>
    cases args with
    | nil =>
      rw [List.map_singleton, List.intercalate_singleton]
      exact newline_notMem_quoted s
    | cons t args =>
      rw [List.map_cons, List.map_cons, List.intercalate_cons_cons, ← List.map_cons]
      intro h
      rcases List.mem_append.mp h with h | h
      · rcases List.mem_append.mp h with h | h
        · exact newline_notMem_quoted s h
        · revert h
          decide
      · exact ih h

/-- A line that ends with a character of its own. -/
theorem Unbroken.concat {line : List Char} {c : Char} (h : '\n' ∉ line) (hn : c ≠ '\n')
    (hr : c ≠ '\r') : Unbroken (line ++ [c]) := by
  refine ⟨fun hmem => ?_, ?_⟩
  · rcases List.mem_append.mp hmem with hmem | hmem
    · exact h hmem
    · exact hn (List.mem_singleton.mp hmem).symm
  · rw [List.getLast?_concat]
    exact fun heq => hr (Option.some.inj heq)

theorem unbroken_elementLines {indent : List Char} {trailing : Bool}
    (hindent : ∀ c ∈ indent, c = ' ' ∨ c = '\t') :
    ∀ line ∈ elementLines indent trailing args, Unbroken line := by
  induction args with
  | nil => exact nofun
  | cons s args ih =>
    refine List.forall_mem_cons.mpr ⟨?_, ih⟩
    have hbreak : '\n' ∉ indent := fun h => by
      rcases hindent _ h with h | h <;> cases h
    cases trailing || !args.isEmpty with
    | true =>
      refine Unbroken.concat (fun h => ?_) (by decide) (by decide)
      exact (List.mem_append.mp h).elim hbreak (newline_notMem_quoted s)
    | false =>
      rw [if_neg Bool.false_ne_true, List.append_nil, PlainText.quoted, ← List.append_assoc]
      refine Unbroken.concat (fun h => ?_) (by decide) (by decide)
      rcases List.mem_append.mp h with h | h
      · exact hbreak h
      · exact newline_notMem_quoted s (List.mem_append_left _ h)

theorem unbroken_lines (layout : ArgsLayout) : ∀ line ∈ layout.lines args, Unbroken line := by
  cases layout with
  | oneLine =>
    refine List.forall_mem_singleton.mpr (Unbroken.concat (fun h => ?_) (by decide) (by decide))
    refine (List.mem_append.mp h).elim ?_ (newline_notMem_inline args)
    decide
  | perLine indent hindent trailing =>
    refine List.forall_mem_cons.mpr ⟨⟨by decide, by decide⟩, fun line hline => ?_⟩
    rcases List.mem_append.mp hline with hline | hline
    · exact unbroken_elementLines hindent line hline
    · rw [List.mem_singleton.mp hline]
      exact ⟨by decide, by decide⟩

end Unbroken

namespace PluginSection

variable {m : PluginSection}

theorem cmdLine_eq (m : PluginSection) : m.cmdLine = "cmd = ".toList ++ m.cmd.quoted := rfl

theorem unbroken_cmdLine (m : PluginSection) : Unbroken m.cmdLine := by
  have hline : m.cmdLine = ("cmd = ".toList ++ dquote :: m.cmd.chars) ++ [dquote] :=
    (List.append_assoc _ _ _).symm
  rw [hline]
  refine Unbroken.concat (fun h => ?_) (by decide) (by decide)
  rw [cmdOpen_eq] at h
  rcases List.mem_append.mp h with h | h
  · revert h
    decide
  · exact newline_notMem_quoted m.cmd (List.mem_append_left _ h)

theorem textLines_text (m : PluginSection) :
    textLines m.text.toList = "[plugin]".toList :: m.body := by
  have hbody : ∀ line ∈ m.body, Unbroken line := by
    have hcmd := m.unbroken_cmdLine
    have hargs : ∀ line ∈ m.argsLines, Unbroken line := unbroken_lines m.layout
    intro line hline
    rw [body] at hline
    split at hline
    case isTrue =>
      rcases List.mem_cons.mp hline with rfl | hline
      · exact hcmd
      · exact hargs line hline
    case isFalse =>
      rcases List.mem_append.mp hline with hline | hline
      · exact hargs line hline
      · rwa [List.mem_singleton.mp hline]
  have hheader : Unbroken "[plugin]".toList := by
    rw [header_eq]
    exact ⟨by decide, by decide⟩
  have hlines : ∀ line ∈ "[plugin]".toList :: m.body, Unbroken line :=
    List.forall_mem_cons.mpr ⟨hheader, hbody⟩
  exact (congrArg textLines String.toList_ofList).trans (textLines_flatMap hlines)

/-- What is read in front of the lines of the section. -/
def start : ManifestFields := { ManifestFields.init with inPlugin := true }

/-- The arguments are read if the lines behind the header set them, and a command. -/
theorem readsArgs_iff : m.ReadsArgs ↔
    ∃ f, (logicalLines none m.body).foldlM ManifestFields.readLine start = .ok f ∧
      f.cmd ≠ none ∧ f.args = m.args.map PlainText.chars := by
  have hheader : IsLine "[plugin]".toList "[plugin]".toList :=
    isLine_self (c := '[') rfl rfl (by decide) (.of_getLast? (c := ']') rfl rfl)
  have hparse : parseManifest m.text = (do
      let f ← (logicalLines none m.body).foldlM ManifestFields.readLine start
      f.finish) := by
    rw [parseManifest, textLines_text, hheader.plain (by decide), List.foldlM_cons]
    rfl
  have hstring : m.args.map PlainText.string =
      (m.args.map PlainText.chars).map String.ofList := List.map_map.symm
  rw [ReadsArgs, hparse, hstring]
  constructor
  · rintro ⟨r, hr, hargs⟩
    obtain ⟨f, hf, hfinish⟩ := bind_eq_ok hr
    refine ⟨f, hf, ?_⟩
    rw [ManifestFields.finish] at hfinish
    cases hcmd : f.cmd with
    | none =>
      rw [hcmd] at hfinish
      cases hfinish
    | some cmd =>
      rw [hcmd] at hfinish
      cases hfinish
      exact ⟨Option.some_ne_none cmd,
        List.map_injective_iff.mpr (fun _ _ => String.ofList_injective) hargs⟩
  · rintro ⟨f, hf, hcmd, hargs⟩
    obtain ⟨cmd, hcmd⟩ := Option.ne_none_iff_exists'.mp hcmd
    have hfinish : ∃ r, f.finish = .ok r ∧ r.args = f.args.map String.ofList := by
      rw [ManifestFields.finish, hcmd]
      exact ⟨_, rfl, rfl⟩
    obtain ⟨r, hr, hrargs⟩ := hfinish
    refine ⟨r, ?_, hrargs.trans (congrArg (List.map String.ofList) hargs)⟩
    rw [hf]
    exact hr

/-- A command with an opening bracket and no closing one. -/
def OpenCmd (m : PluginSection) : Prop := '[' ∈ m.cmd.chars ∧ ']' ∉ m.cmd.chars

theorem isLine_cmd (m : PluginSection) : IsLine m.cmdLine m.cmdLine := by
  refine isLine_self (c := 'c') rfl rfl (by decide) ?_
  rw [cmdLine_eq, PlainText.quoted, ← List.append_assoc]
  exact .concat _ rfl

theorem opensArray_cmd (m : PluginSection) : OpensArray m.cmdLine ↔ m.OpenCmd := by
  have hmem (c : Char) (hc : c ∉ "cmd = ".toList) (hquote : c ≠ dquote) :
      c ∈ m.cmdLine ↔ c ∈ m.cmd.chars :=
    List.mem_append.trans ((or_iff_right hc).trans (m.cmd.mem_quoted hquote))
  have hhead : m.cmdLine.head? ≠ some '[' := by
    rw [cmdLine_eq, cmdOpen_eq]
    exact nofun
  rw [OpensArray, hmem '[' (by decide) (by decide), hmem ']' (by decide) (by decide)]
  exact and_congr_right fun _ => and_iff_right hhead

/-- The lines of the array are read as the arguments. -/
theorem readLines_argsLines (h : m.Readable) {f : ManifestFields} (hin : f.inPlugin = true)
    (rest : List (List Char)) :
    (logicalLines none (m.argsLines ++ rest)).foldlM ManifestFields.readLine f =
      (logicalLines none rest).foldlM ManifestFields.readLine
        { f with args := m.args.map PlainText.chars } := by
  have hargs := h.arguments
  rw [argsLines]
  cases hlayout : m.layout with
  | oneLine => exact readLines_inline hin hargs
  | perLine indent hindent trailing =>
    have hinit := h.closed (by rw [hlayout]; exact nofun)
    by_cases hall : ∀ s ∈ m.args, ']' ∉ s.chars
    · exact readLines_joined hin hargs hindent hall
    · -- only the last element can have the bracket, so nothing is left of the array behind it
      rcases List.eq_nil_or_concat m.args with hnil | ⟨pre, s, hconcat⟩
      · exact absurd (fun s hs => by rw [hnil] at hs; cases hs) hall
      · rw [List.concat_eq_append] at hconcat
        rw [hconcat] at hinit hall hargs ⊢
        rw [List.dropLast_concat] at hinit
        have hs : ']' ∈ s.chars := by
          by_contra hs
          refine hall fun t ht => ?_
          rcases List.mem_append.mp ht with ht | ht
          · exact hinit t ht
          · rwa [List.mem_singleton.mp ht]
        refine (readLines_closed hin hargs hindent hinit hs).trans ?_
        rw [elementLines, List.nil_append, isLine_bracket.plain (by decide), List.foldlM_cons,
          readLine_bracket]
        rfl

/-- The lines of an empty array behind an open bracket. -/
theorem logicalLines_empty (layout : ArgsLayout) : ∃ more, ∀ buf,
    logicalLines (some buf) (layout.lines []) = [trimChars (buf ++ (more ++ [']']))] := by
  cases layout with
  | oneLine =>
    have hline : IsLine "args = []".toList "args = []".toList :=
      isLine_self (c := 'a') rfl rfl (by decide) (.of_getLast? (c := ']') rfl rfl)
    exact ⟨' ' :: "args = [".toList, fun buf => hline.closes (by decide)⟩
  | perLine indent hindent trailing =>
    refine ⟨' ' :: "args = [".toList ++ [' '], fun buf => ?_⟩
    rw [ArgsLayout.lines, elementLines, List.nil_append, isLine_open.joins (by decide),
      isLine_bracket.closes List.mem_cons_self, logicalLines]
    simp only [List.append_assoc, List.cons_append, List.nil_append]

theorem trim_cmdLine (m : PluginSection) (more : List Char) :
    trimChars (m.cmdLine ++ (more ++ [']'])) = m.cmdLine ++ (more ++ [']']) := by
  refine trimChars_eq_self (c := 'c') rfl rfl ?_
  rw [← List.append_assoc]
  exact .concat _ rfl

/-- What can be read is read. -/
theorem Readable.readsArgs (h : m.Readable) : m.ReadsArgs := by
  rw [readsArgs_iff, body]
  by_cases hopen : m.OpenCmd
  · -- the command takes the lines of the empty array with it
    obtain ⟨hfirst, hnil⟩ := h.cmd hopen.1 hopen.2
    obtain ⟨more, hmore⟩ := logicalLines_empty m.layout
    have hlast : EndTrimmed (m.cmd.quoted ++ (more ++ [']'])) := by
      rw [← List.append_assoc]
      exact .concat _ rfl
    refine ⟨{ start with cmd := some (stripQuotes (m.cmd.quoted ++ (more ++ [']']))) }, ?_,
      Option.some_ne_none _, by rw [hnil]; rfl⟩
    rw [if_pos hfirst, m.isLine_cmd.opens (m.opensArray_cmd.mpr hopen), argsLines, hnil, hmore,
      trim_cmdLine, List.foldlM_cons, cmdLine_eq, List.append_assoc, readLine_cmd rfl _ _ hlast]
    rfl
  · have hplain : ¬ OpensArray m.cmdLine := mt m.opensArray_cmd.mp hopen
    have hread {f : ManifestFields} (hin : f.inPlugin = true) :
        f.readLine m.cmdLine = .ok { f with cmd := some (stripQuotes m.cmd.quoted) } := by
      have hread := readLine_cmd hin m.cmd [] (by
        rw [List.append_nil]
        exact endTrimmed_quoted m.cmd)
      rwa [List.append_nil] at hread
    refine ⟨{ start with
      cmd := some (stripQuotes m.cmd.quoted)
      args := m.args.map PlainText.chars }, ?_, Option.some_ne_none _, rfl⟩
    cases m.cmdFirst with
    | true =>
      have hargs := readLines_argsLines h
        (f := { start with cmd := some (stripQuotes m.cmd.quoted) }) rfl []
      rw [List.append_nil] at hargs
      rw [if_pos rfl, m.isLine_cmd.plain hplain, List.foldlM_cons, hread rfl]
      exact hargs
    | false =>
      rw [if_neg Bool.false_ne_true, readLines_argsLines h rfl, m.isLine_cmd.plain hplain,
        List.foldlM_cons, hread rfl]
      rfl

/-! ## What cannot be read -/

section Heads

variable {x : Char} {args : List PlainText} {indent : List Char} {trailing : Bool}

theorem head?_elementLines (hindent : ∀ c ∈ indent, c = ' ' ∨ c = '\t') (hx : x ≠ dquote) :
    ∀ raw ∈ elementLines indent trailing args, (trimChars raw).head? ≠ some x := by
  induction args with
  | nil => exact nofun
  | cons s args ih =>
    refine List.forall_mem_cons.mpr ⟨?_, ih⟩
    rw [(isLine_element hindent _).trim_eq]
    exact fun h => hx (Option.some.inj h).symm

theorem head?_bracket (hx : x ≠ ']') : (trimChars [']']).head? ≠ some x := by
  rw [isLine_bracket.trim_eq]
  exact fun h => hx (Option.some.inj h).symm

/-- The lines of an array start with its key, a double quote or a bracket. -/
theorem head?_lines (layout : ArgsLayout) (ha : x ≠ 'a') (hquote : x ≠ dquote) (hx : x ≠ ']') :
    ∀ raw ∈ layout.lines args, (trimChars raw).head? ≠ some x := by
  cases layout with
  | oneLine =>
    refine List.forall_mem_singleton.mpr ?_
    rw [List.append_assoc, (isLine_args _).trim_eq, argsOpen_eq]
    · exact fun h => ha (Option.some.inj h).symm
    · exact .concat ('[' :: _) rfl
  | perLine indent hindent trailing =>
    refine List.forall_mem_cons.mpr ⟨?_, fun raw hraw => ?_⟩
    · rw [isLine_open.trim_eq, argsOpen_eq]
      exact fun h => ha (Option.some.inj h).symm
    · rcases List.mem_append.mp hraw with hraw | hraw
      · exact head?_elementLines hindent hquote raw hraw
      · rw [List.mem_singleton.mp hraw]
        exact head?_bracket hx

/-- Behind an open bracket of another line, no line of an array is a line of its own that sets the
arguments. -/
theorem startsOther_lines {buf : List Char} (hbuf : StartsOther 'a' buf) (layout : ArgsLayout) :
    ∀ line ∈ logicalLines (some buf) (layout.lines args), StartsOther 'a' line := by
  cases layout with
  | oneLine =>
    let v := [',', ' '].intercalate (args.map PlainText.quoted) ++ [']']
    have hline : IsLine ("args = [".toList ++ v) ("args = [".toList ++ v) := by
      exact isLine_args (.concat ('[' :: _) rfl)
    have hclose : ']' ∈ "args = [".toList ++ v :=
      List.mem_append_right _ (List.mem_append_right _ List.mem_cons_self)
    rw [ArgsLayout.lines, List.append_assoc, hline.closes hclose]
    exact List.forall_mem_singleton.mpr (hbuf.append _).trim
  | perLine indent hindent trailing =>
    rw [ArgsLayout.lines, isLine_open.joins (by decide)]
    refine startsOther_logicalLines (fun raw hraw => ?_) _ ?_
    · rcases List.mem_append.mp hraw with hraw | hraw
      · exact head?_elementLines hindent (by decide) raw hraw
      · rw [List.mem_singleton.mp hraw]
        exact head?_bracket (by decide)
    · rintro _ ⟨⟩
      exact hbuf.append _

end Heads

/-- The first element with a closing bracket, if it is not the last one. -/
theorem exists_first_bracket {args : List PlainText} (h : ∃ s ∈ args.dropLast, ']' ∈ s.chars) :
    ∃ pre s post, args = pre ++ s :: post ∧ post ≠ [] ∧ (∀ t ∈ pre, ']' ∉ t.chars) ∧
      ']' ∈ s.chars := by
  induction args with
  | nil =>
    obtain ⟨s, hs, -⟩ := h
    cases hs
  | cons a args ih =>
    obtain ⟨s, hs, hbracket⟩ := h
    cases args with
    | nil => cases hs
    | cons b args =>
      by_cases ha : ']' ∈ a.chars
      · exact ⟨[], a, b :: args, rfl, List.cons_ne_nil b args, nofun, ha⟩
      · rw [List.dropLast_cons_cons] at hs
        obtain rfl | hs := List.mem_cons.mp hs
        · exact absurd hbracket ha
        · obtain ⟨pre, s', post, heq, hpost, hpre, hs'⟩ := ih ⟨s, hs, hbracket⟩
          refine ⟨a :: pre, s', post, by rw [heq]; rfl, hpost, ?_, hs'⟩
          exact List.forall_mem_cons.mpr ⟨ha, hpre⟩

/-- An element with a closing bracket is the last one that is read. -/
theorem args_of_closed {pre post : List PlainText} {s : PlainText} {indent : List Char}
    {hindent : ∀ c ∈ indent, c = ' ' ∨ c = '\t'} {trailing : Bool} {rest : List (List Char)}
    {f₀ f : ManifestFields} (hin : f₀.inPlugin = true)
    (hargs : ∀ t ∈ pre ++ s :: post, IsArgument t.chars) (hpre : ∀ t ∈ pre, ']' ∉ t.chars)
    (hs : ']' ∈ s.chars) (hrest : ∀ raw ∈ rest, (trimChars raw).head? ≠ some 'a')
    (hf : (logicalLines none ((ArgsLayout.perLine indent hindent trailing).lines
      (pre ++ s :: post) ++ rest)).foldlM ManifestFields.readLine f₀ = .ok f) :
    f.args = (pre ++ [s]).map PlainText.chars := by
  have hread : ∀ t ∈ pre ++ [s], IsArgument t.chars := by
    intro t ht
    refine hargs t ?_
    rw [List.append_cons]
    exact List.mem_append_left post ht
  rw [readLines_closed hin hread hindent hpre hs] at hf
  refine readLines_args (startsOther_logicalLines (fun raw hraw => ?_) none nofun) hf
  rcases List.mem_append.mp hraw with hraw | hraw
  · exact head?_elementLines hindent (by decide) raw hraw
  · rcases List.mem_cons.mp hraw with rfl | hraw
    · exact head?_bracket (by decide)
    · exact hrest raw hraw

section Converse

variable {f : ManifestFields}

theorem startsOther_cmdLine (m : PluginSection) : StartsOther 'a' m.cmdLine :=
  ⟨'c', rfl, by decide, by decide⟩

/-- An open command in front of the array leaves the arguments empty. -/
theorem args_of_openCmd (hopen : m.OpenCmd) (hfirst : m.cmdFirst = true)
    (hf : (logicalLines none m.body).foldlM ManifestFields.readLine start = .ok f) :
    f.args = [] := by
  rw [body, if_pos hfirst, m.isLine_cmd.opens (m.opensArray_cmd.mpr hopen)] at hf
  exact readLines_args (startsOther_lines m.startsOther_cmdLine m.layout) hf

/-- An open command behind the array is not read. -/
theorem cmd_of_openCmd (hopen : m.OpenCmd) (hfirst : m.cmdFirst = false)
    (hf : (logicalLines none m.body).foldlM ManifestFields.readLine start = .ok f) :
    f.cmd = none := by
  rw [body, hfirst, if_neg Bool.false_ne_true,
    logicalLines_append_opens m.isLine_cmd (m.opensArray_cmd.mpr hopen)] at hf
  refine readLines_cmd (startsOther_logicalLines ?_ none nofun) hf
  exact head?_lines m.layout (by decide) (by decide) (by decide)

/-- An element in front of the last one has no closing bracket, if all are read. -/
theorem closed_of_read (hopen : ¬ m.OpenCmd) (hargs : ∀ s ∈ m.args, IsArgument s.chars)
    (hlayout : m.layout ≠ .oneLine)
    (hf : (logicalLines none m.body).foldlM ManifestFields.readLine start = .ok f)
    (hread : f.args = m.args.map PlainText.chars) : ∀ s ∈ m.args.dropLast, ']' ∉ s.chars := by
  intro s hs hbracket
  obtain ⟨pre, s, post, heq, hpost, hpre, hs⟩ := exists_first_bracket ⟨s, hs, hbracket⟩
  have hplain : ¬ OpensArray m.cmdLine := mt m.opensArray_cmd.mp hopen
  have hcut : f.args = (pre ++ [s]).map PlainText.chars := by
    rw [body, argsLines, heq] at hf
    rw [heq] at hargs
    cases hl : m.layout with
    | oneLine => exact absurd hl hlayout
    | perLine indent hindent trailing =>
      rw [hl] at hf
      cases hfirst : m.cmdFirst with
      | true =>
        rw [hfirst, if_pos rfl, m.isLine_cmd.plain hplain, List.foldlM_cons] at hf
        obtain ⟨f₁, hcmd, hrest⟩ := bind_eq_ok hf
        have hin : f₁.inPlugin = true := by
          have hset := readLine_cmd (m := start) rfl m.cmd [] (by
            rw [List.append_nil]
            exact endTrimmed_quoted m.cmd)
          rw [List.append_nil] at hset
          cases hset.symm.trans hcmd
          rfl
        rw [← List.append_nil ((ArgsLayout.perLine indent hindent trailing).lines _)] at hrest
        exact args_of_closed hin hargs hpre hs (fun _ hraw => absurd hraw List.not_mem_nil) hrest
      | false =>
        rw [hfirst, if_neg Bool.false_ne_true] at hf
        refine args_of_closed rfl hargs hpre hs (List.forall_mem_singleton.mpr ?_) hf
        rw [m.isLine_cmd.trim_eq, cmdLine_eq, cmdOpen_eq]
        exact nofun
  have hlen := congrArg List.length (hcut.symm.trans hread)
  rw [heq] at hlen
  simp only [List.length_map, List.length_append, List.length_cons, List.length_nil] at hlen
  exact hpost (List.length_eq_zero_iff.mp (by omega))

/-- What is read can be read. -/
theorem ReadsArgs.readable (h : m.ReadsArgs) : m.Readable := by
  obtain ⟨f, hf, hcmd, hread⟩ := readsArgs_iff.mp h
  have hargs : ∀ s ∈ m.args, IsArgument s.chars := by
    intro s hs
    refine isArgument_of_readLines hf nofun s.chars ?_
    rw [hread]
    exact List.mem_map_of_mem hs
  have hopen (hopen : m.OpenCmd) : m.cmdFirst = true ∧ m.args = [] := by
    cases hfirst : m.cmdFirst with
    | false => exact absurd (cmd_of_openCmd hopen hfirst hf) hcmd
    | true =>
      refine ⟨rfl, List.map_eq_nil_iff (f := PlainText.chars) |>.mp ?_⟩
      rw [← hread]
      exact args_of_openCmd hopen hfirst hf
  refine ⟨hargs, fun hlayout => ?_, fun hleft hright => hopen ⟨hleft, hright⟩⟩
  by_cases hcmd : m.OpenCmd
  · rw [(hopen hcmd).2]
    exact nofun
  · exact closed_of_read hcmd hargs hlayout hf hread

end Converse

end PluginSection

/-- **Arguments of a plugin.**  A manifest is read with the arguments that are written in it if and
only if they can be read. -/
theorem plugin_args_iff (m : PluginSection) :
    (∃ r, parseManifest m.text = .ok r ∧ r.args = m.args.map PlainText.string) ↔ m.Readable :=
  ⟨PluginSection.ReadsArgs.readable, PluginSection.Readable.readsArgs⟩

/-- A text without characters to escape. -/
def PlainText.ofString (s : String)
    (h : s.toList.all (fun c => c != dquote && c != backslash && c != '\n') = true) :
    PlainText where
  chars := s.toList
  plain c hc := by
    have hall := List.all_eq_true.mp h c hc
    rw [Bool.and_eq_true, Bool.and_eq_true, bne_iff_ne, bne_iff_ne, bne_iff_ne] at hall
    exact ⟨hall.1.1, hall.1.2, hall.2⟩

/-- A plugin with an argument that is empty, and one with a comma. -/
def commaSection : PluginSection where
  cmd := .ofString "x" rfl
  args := [.ofString "" rfl, .ofString "a,b" rfl]
  layout := .oneLine
  cmdFirst := true

/-- The first argument is dropped, and the second one is cut in two. -/
theorem plugin_args_cut :
    (parseManifest commaSection.text).map PluginManifest.args = .ok ["a", "b"] ∧
      ¬ ∃ r, parseManifest commaSection.text = .ok r ∧
        r.args = commaSection.args.map PlainText.string := by
  have hargs : (parseManifest commaSection.text).map PluginManifest.args = .ok ["a", "b"] := by
    decide
  refine ⟨hargs, ?_⟩
  rintro ⟨r, hr, hread⟩
  rw [hr] at hargs
  have hcut : r.args = ["a", "b"] := Except.ok.inj hargs
  rw [hread] at hcut
  revert hcut
  decide

end Fasm
