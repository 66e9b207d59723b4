import Fasm.Compiler.Lexer
import Fasm.Lib.Spans
import Fasm.Vm.ParseInt

/-!
# Plugin manifests

`parse_manifest` of `plugin_manifest.rs`.  It first joins the lines of an array that is split
across lines, looking for brackets anywhere in a line, and then reads the lines one by one.
-/

namespace Fasm

/-- `str::trim`, on the characters. -/
abbrev trimChars : List Char → List Char := trimBy isWhitespace

/-- `str::trim_matches`, with a character. -/
abbrev trimMatches (c : Char) : List Char → List Char := trimBy (· == c)

/-- `str::lines`: a line break may have a carriage return in front, and the last line may be
without one. -/
def textLines (text : List Char) : List (List Char) :=
  let pieces := text.splitOn '\n'
  let last := pieces.getLast?.getD []
  let closed := pieces.dropLast.map fun l => if l.getLast? = some '\r' then l.dropLast else l
  if last = [] then closed else closed ++ [last]

/-! ## Numbers -/

/-- The digits of an `i32`, behind its sign: each step multiplies by the radix, reads the digit, and
adds it. -/
def parseI32Digits (negative : Bool) : Int → List Char → Except String Int
  | n, [] => .ok n
  | n, c :: cs =>
    let overflow := if negative then "number too small to fit in target type"
      else "number too large to fit in target type"
    let fits (n : Int) : Bool := -2 ^ 31 ≤ n ∧ n < 2 ^ 31
    if c.isDigit then
      let digit : Int := hexValue c
      let n' := if negative then 10 * n - digit else 10 * n + digit
      if fits (10 * n) ∧ fits n' then parseI32Digits negative n' cs else .error overflow
    else .error "invalid digit found in string"

/-- `str::parse::<i32>`. -/
def parseI32 (cs : List Char) : Except String U32 :=
  match cs with
  | [] => .error "cannot parse integer from empty string"
  | ['+'] | ['-'] => .error "invalid digit found in string"
  | '+' :: ds => (parseI32Digits false 0 ds).map (BitVec.ofInt 32)
  | '-' :: ds => (parseI32Digits true 0 ds).map (BitVec.ofInt 32)
  | ds => (parseI32Digits false 0 ds).map (BitVec.ofInt 32)

/-! ## Values -/

/-- `split_kv`. -/
def splitKv (line : List Char) : Option (List Char × List Char) :=
  match line.dropWhile (· != '=') with
  | [] => none
  | _ :: v => some (trimChars (line.takeWhile (· != '=')), trimChars v)

/-- `strip_quotes`. -/
def stripQuotes (s : List Char) : List Char :=
  trimMatches '\'' (trimMatches dquote (trimChars s))

/-- The text of an array without its brackets, all those at the beginning and at the end. -/
def arrayInner (s : List Char) : List Char :=
  ((trimChars s).dropWhile (· == '[')).rdropWhile (· == ']')

/-- `parse_str_array`. -/
def parseStrArray (s : List Char) : List (List Char) :=
  (((arrayInner s).splitOn ',').map fun t => stripQuotes (trimChars t)).filter fun t => !t.isEmpty

/-- `parse_int_array`. -/
def parseIntArray (s : List Char) : Except String (List U32) :=
  ((arrayInner s).splitOn ',').mapM fun t =>
    (parseI32 (trimChars t)).mapError fun e => "bad syscall_id: " ++ e

/-! ## Lines -/

/-- The line has the bracket that opens an array, and not the one that closes it. -/
def OpensArray (line : List Char) : Prop :=
  '[' ∈ line ∧ line.head? ≠ some '[' ∧ ']' ∉ line

instance (line : List Char) : Decidable (OpensArray line) :=
  inferInstanceAs (Decidable (_ ∧ _ ∧ _))

/-- The first loop of `parse_manifest`: the logical lines, with the buffer of the array that is
open.  The lines of an array that is not closed are lost. -/
def logicalLines : Option (List Char) → List (List Char) → List (List Char)
  | _, [] => []
  | buf, raw :: rest =>
    let line := trimChars raw
    if line = [] ∨ line.head? = some '#' then logicalLines buf rest
    else
      match buf with
      | some buf =>
        let buf := buf ++ ' ' :: line
        if ']' ∈ line then trimChars buf :: logicalLines none rest
        else logicalLines (some buf) rest
      | none =>
        if OpensArray line then logicalLines (some line) rest
        else line :: logicalLines none rest

/-- What `parse_manifest` has read. -/
structure ManifestFields where
  name : Option (List Char)
  cmd : Option (List Char)
  args : List (List Char)
  syscallIds : List U32
  autoMount : Bool
  inPlugin : Bool

/-- What it starts with. -/
def ManifestFields.init : ManifestFields := ⟨none, none, [], [], false, false⟩

/-- The second loop of `parse_manifest`, on one line. -/
def ManifestFields.readLine (m : ManifestFields) (line : List Char) :
    Except String ManifestFields :=
  if line = "[plugin]".toList then .ok { m with inPlugin := true }
  else if line.head? = some '[' then .ok { m with inPlugin := false }
  else if m.inPlugin = false then .ok m
  else
    match splitKv line with
    | none => .ok m
    | some (k, v) =>
      if k = "name".toList then .ok { m with name := some (stripQuotes v) }
      else if k = "cmd".toList then .ok { m with cmd := some (stripQuotes v) }
      else if k = "auto_mount".toList then
        .ok { m with autoMount := trimChars v = "true".toList }
      else if k = "args".toList then .ok { m with args := parseStrArray v }
      else if k = "syscall_ids".toList then do
        return { m with syscallIds := ← parseIntArray v }
      else .ok m

/-- `PluginManifest`. -/
structure PluginManifest where
  name : String
  syscallIds : List U32
  cmd : String
  args : List String
  autoMount : Bool

/-- The manifest of what has been read. -/
def ManifestFields.finish (m : ManifestFields) : Except String PluginManifest :=
  match m.cmd with
  | none => .error "missing cmd in [plugin]"
  | some cmd => .ok {
      name := String.ofList (m.name.getD [])
      cmd := String.ofList cmd
      args := m.args.map String.ofList
      syscallIds := m.syscallIds
      autoMount := m.autoMount }

/-- `parse_manifest`. -/
def parseManifest (toml : String) : Except String PluginManifest := do
  let m ← (logicalLines none (textLines toml.toList)).foldlM ManifestFields.readLine .init
  m.finish

/-! ## What a line does -/

variable {raw line buf : List Char} {rest : List (List Char)}

/-- Behind its leading blanks the line starts with its key. -/
theorem head?_of_splitKv {k v : List Char} (hline : ∀ c ∈ line.head?, isWhitespace c = false)
    (h : splitKv line = some (k, v)) : k = [] ∨ k.head? = line.head? := by
  rw [splitKv] at h
  split at h
  case h_1 => cases h
  case h_2 =>
    cases h
    cases line with
    | nil => exact .inl rfl
    | cons c line =>
      by_cases hc : c = '='
      · subst hc
        exact .inl rfl
      · right
        have hkey : (c :: line).takeWhile (· != '=') = c :: line.takeWhile (· != '=') :=
          List.takeWhile_cons_of_pos (bne_iff_ne.mpr hc)
        rw [hkey]
        exact head?_trimBy_of_head? rfl (hline c rfl)

/-- A line sets the arguments or leaves them, and it sets the command or leaves it. -/
theorem ManifestFields.readLine_cases {m m' : ManifestFields} (h : m.readLine line = .ok m') :
    (m'.args = m.args ∨ ∃ v, splitKv line = some ("args".toList, v) ∧
      m'.args = parseStrArray v) ∧
    (m'.cmd = m.cmd ∨ ∃ v, splitKv line = some ("cmd".toList, v)) := by
  rw [readLine] at h
  split_ifs at h
  · cases h
    exact ⟨.inl rfl, .inl rfl⟩
  · cases h
    exact ⟨.inl rfl, .inl rfl⟩
  · cases h
    exact ⟨.inl rfl, .inl rfl⟩
  · cases hkv : splitKv line with
    | none =>
      simp only [hkv] at h
      cases h
      exact ⟨.inl rfl, .inl rfl⟩
    | some kv =>
      obtain ⟨k, v⟩ := kv
      simp only [hkv] at h
      split_ifs at h with hname hcmd hauto hargs hids
      · cases h
        exact ⟨.inl rfl, .inl rfl⟩
      · cases h
        exact ⟨.inl rfl, .inr ⟨v, by rw [hcmd]⟩⟩
      · cases h
        exact ⟨.inl rfl, .inl rfl⟩
      · cases h
        exact ⟨.inr ⟨v, by rw [hargs], rfl⟩, .inl rfl⟩
      · obtain ⟨ids, -, heq⟩ := bind_eq_ok h
        cases heq
        exact ⟨.inl rfl, .inl rfl⟩
      · cases h
        exact ⟨.inl rfl, .inl rfl⟩

/-! ## Logical lines -/

/-- The line is read as `line`, which is neither blank nor a comment. -/
structure IsLine (raw line : List Char) : Prop where
  trim_eq : trimChars raw = line
  ne_nil : line ≠ []
  not_comment : line.head? ≠ some '#'

namespace IsLine

theorem not_skipped (h : IsLine raw line) : ¬ (line = [] ∨ line.head? = some '#') :=
  not_or.mpr ⟨h.ne_nil, h.not_comment⟩

theorem plain (h : IsLine raw line) (hopen : ¬ OpensArray line) :
    logicalLines none (raw :: rest) = line :: logicalLines none rest := by
  simp only [logicalLines, h.trim_eq, if_neg h.not_skipped, if_neg hopen]

theorem opens (h : IsLine raw line) (hopen : OpensArray line) :
    logicalLines none (raw :: rest) = logicalLines (some line) rest := by
  simp only [logicalLines, h.trim_eq, if_neg h.not_skipped, if_pos hopen]

theorem joins (h : IsLine raw line) (hclose : ']' ∉ line) :
    logicalLines (some buf) (raw :: rest) = logicalLines (some (buf ++ ' ' :: line)) rest := by
  simp only [logicalLines, h.trim_eq, if_neg h.not_skipped, if_neg hclose]

theorem closes (h : IsLine raw line) (hclose : ']' ∈ line) :
    logicalLines (some buf) (raw :: rest) =
      trimChars (buf ++ ' ' :: line) :: logicalLines none rest := by
  simp only [logicalLines, h.trim_eq, if_neg h.not_skipped, if_pos hclose]

end IsLine

/-- An array that is opened by the last line is lost. -/
theorem logicalLines_append_opens (h : IsLine raw line) (hopen : OpensArray line)
    (b : Option (List Char)) (ls : List (List Char)) :
    logicalLines b (ls ++ [raw]) = logicalLines b ls := by
  induction ls generalizing b with
  | nil =>
    cases b with
    | none => exact h.opens hopen
    | some buf => exact h.joins hopen.2.2
  | cons l ls ih =>
    rw [List.cons_append, logicalLines.eq_def, logicalLines.eq_def b (l :: ls)]
    simp only [ih]

/-- The line starts neither with a blank nor with `x`. -/
def StartsOther (x : Char) (line : List Char) : Prop :=
  ∃ c, line.head? = some c ∧ c ≠ x ∧ isWhitespace c = false

namespace StartsOther

variable {x : Char}

theorem trim (h : StartsOther x line) : StartsOther x (trimChars line) := by
  obtain ⟨c, hhead, hc, hblank⟩ := h
  exact ⟨c, head?_trimBy_of_head? hhead hblank, hc, hblank⟩

theorem append (h : StartsOther x line) (more : List Char) : StartsOther x (line ++ more) := by
  obtain ⟨c, hhead, hc, hblank⟩ := h
  exact ⟨c, by rw [List.head?_append, hhead]; rfl, hc, hblank⟩

/-- A line that is not blank. -/
theorem of_trim (hne : trimChars raw ≠ []) (hx : (trimChars raw).head? ≠ some x) :
    StartsOther x (trimChars raw) := by
  obtain ⟨c, cs, hcs⟩ := List.exists_cons_of_ne_nil hne
  have hblank := head?_trimBy (p := isWhitespace) (l := raw)
  rw [show trimBy isWhitespace raw = c :: cs from hcs] at hblank
  rw [hcs] at hx ⊢
  exact ⟨c, rfl, fun hc => hx (congrArg some hc), hblank c rfl⟩

/-- The key of such a line does not start with `x`. -/
theorem key_ne (h : StartsOther x line) {k v : List Char} (hk : k.head? = some x) :
    splitKv line ≠ some (k, v) := by
  obtain ⟨c, hhead, hc, hblank⟩ := h
  intro hkv
  have hline : ∀ d ∈ line.head?, isWhitespace d = false := by
    rw [hhead]
    rintro _ ⟨⟩
    exact hblank
  rcases head?_of_splitKv hline hkv with rfl | heq
  · cases hk
  · rw [hk, hhead] at heq
    exact hc (Option.some.inj heq).symm

end StartsOther

/-- If no line starts with `x`, then no logical line does. -/
theorem startsOther_logicalLines {x : Char} {ls : List (List Char)}
    (hls : ∀ raw ∈ ls, (trimChars raw).head? ≠ some x) (b : Option (List Char))
    (hb : ∀ buf ∈ b, StartsOther x buf) : ∀ line ∈ logicalLines b ls, StartsOther x line := by
  induction ls generalizing b with
  | nil => exact nofun
  | cons raw ls ih =>
    obtain ⟨hraw, hls⟩ := List.forall_mem_cons.mp hls
    rw [logicalLines.eq_def]
    simp only
    split
    case isTrue => exact ih hls b hb
    case isFalse hskip =>
      have hline := StartsOther.of_trim (not_or.mp hskip).1 hraw
      cases b with
      | none =>
        simp only
        split
        case isTrue => exact ih hls _ (by rintro _ ⟨⟩; exact hline)
        case isFalse => exact List.forall_mem_cons.mpr ⟨hline, ih hls none nofun⟩
      | some buf =>
        have hbuf := (hb buf rfl).append (' ' :: trimChars raw)
        simp only
        split
        case isTrue => exact List.forall_mem_cons.mpr ⟨hbuf.trim, ih hls none nofun⟩
        case isFalse => exact ih hls _ (by rintro _ ⟨⟩; exact hbuf)

/-! ## The arguments that are read -/

/-- A text that can be an argument that is read. -/
structure IsArgument (s : List Char) : Prop where
  ne_nil : s ≠ []
  comma : ',' ∉ s
  head : s.head? ≠ some '\''
  last : s.getLast? ≠ some '\''

theorem head?_trimMatches {c : Char} {s : List Char} : (trimMatches c s).head? ≠ some c := by
  intro h
  have hc : (c == c) = false := head?_trimBy (p := (· == c)) c h
  rw [beq_self_eq_true] at hc
  cases hc

theorem getLast?_trimMatches {c : Char} {s : List Char} :
    (trimMatches c s).getLast? ≠ some c := by
  intro h
  have hc : (c == c) = false := getLast?_trimBy (p := (· == c)) c h
  rw [beq_self_eq_true] at hc
  cases hc

/-- The elements of an array are not empty, without commas, and without single quotes around. -/
theorem isArgument_of_mem {s v : List Char} (h : s ∈ parseStrArray v) : IsArgument s := by
  obtain ⟨hmem, hne⟩ := List.mem_filter.mp h
  obtain ⟨t, ht, rfl⟩ := List.mem_map.mp hmem
  refine ⟨?_, ?_, head?_trimMatches, getLast?_trimMatches⟩
  · rintro heq
    rw [heq] at hne
    cases hne
  · intro hcomma
    refine notMem_of_mem_splitOn ht ?_
    exact mem_of_mem_trimBy (mem_of_mem_trimBy (mem_of_mem_trimBy (mem_of_mem_trimBy hcomma)))

/-- What each line keeps, all lines keep. -/
theorem readLines_invariant {P : ManifestFields → Prop} {ls : List (List Char)}
    (hstep : ∀ line ∈ ls, ∀ m m' : ManifestFields, m.readLine line = .ok m' → P m → P m')
    {m m' : ManifestFields} (h : ls.foldlM ManifestFields.readLine m = .ok m') (hm : P m) :
    P m' := by
  induction ls generalizing m with
  | nil =>
    cases h
    exact hm
  | cons line ls ih =>
    obtain ⟨hline, hls⟩ := List.forall_mem_cons.mp hstep
    rw [List.foldlM_cons] at h
    obtain ⟨m₁, hread, hrest⟩ := bind_eq_ok h
    exact ih hls hrest (hline m m₁ hread hm)

/-- Lines that do not start with the letter of `args` leave the arguments. -/
theorem readLines_args {ls : List (List Char)} (hls : ∀ line ∈ ls, StartsOther 'a' line)
    {m m' : ManifestFields} (h : ls.foldlM ManifestFields.readLine m = .ok m') :
    m'.args = m.args := by
  refine readLines_invariant (P := fun m' => m'.args = m.args) ?_ h rfl
  intro line hline m₁ m₂ hread hargs
  rcases (ManifestFields.readLine_cases hread).1 with heq | ⟨v, hkv, -⟩
  · exact heq.trans hargs
  · exact absurd hkv ((hls line hline).key_ne rfl)

/-- Lines that do not start with the letter of `cmd` leave the command. -/
theorem readLines_cmd {ls : List (List Char)} (hls : ∀ line ∈ ls, StartsOther 'c' line)
    {m m' : ManifestFields} (h : ls.foldlM ManifestFields.readLine m = .ok m') :
    m'.cmd = m.cmd := by
  refine readLines_invariant (P := fun m' => m'.cmd = m.cmd) ?_ h rfl
  intro line hline m₁ m₂ hread hcmd
  rcases (ManifestFields.readLine_cases hread).2 with heq | ⟨v, hkv⟩
  · exact heq.trans hcmd
  · exact absurd hkv ((hls line hline).key_ne rfl)

/-- Whatever the lines are, what is read of them can be arguments. -/
theorem isArgument_of_readLines {ls : List (List Char)} {m m' : ManifestFields}
    (h : ls.foldlM ManifestFields.readLine m = .ok m') (hm : ∀ s ∈ m.args, IsArgument s) :
    ∀ s ∈ m'.args, IsArgument s := by
  refine readLines_invariant (P := fun m => ∀ s ∈ m.args, IsArgument s) ?_ h hm
  intro line _ m₁ m₂ hread hargs
  rcases (ManifestFields.readLine_cases hread).1 with heq | ⟨v, -, heq⟩
  · rwa [heq]
  · rw [heq]
    exact fun s hs => isArgument_of_mem hs

end Fasm
