import Mathlib.Data.List.DropRight
import Fasm.Bytecode.Encode
import Fasm.Lib.MachineInt
import Fasm.Vm.Gives

/-!
# `PARSE_INT`

Syscall 4 takes the bytes of field 0 of its argument as a text, trims it, and adds up its digits in
64 bits.  It accepts the numerals, and no other text; but nothing checks that the number fits: the
sum wraps around, and so does the result when it is cut down to an `INT32`.
-/

namespace Fasm

/-! ## Text -/

/-- `char::is_whitespace`. -/
def isWhitespace (c : Char) : Bool :=
  let n := c.toNat
  (9 ≤ n && n ≤ 13) || n == 0x20 || n == 0x85 || n == 0xA0 || n == 0x1680 ||
    (0x2000 ≤ n && n ≤ 0x200A) || n == 0x2028 || n == 0x2029 || n == 0x202F || n == 0x205F ||
    n == 0x3000

/-- `str::trim`. -/
def trim (s : String) : String :=
  .ofList ((s.toList.dropWhile isWhitespace).rdropWhile isWhitespace)

/-- What `String::from_utf8_lossy` makes of bytes: a replacement character instead of each
sequence that is no character.  Every round but the last one leaves out a byte at least. -/
def lossyBytes : Nat → List U8 → List U8
  | 0, _ => []
  | rounds + 1, bs =>
    match utf8Error 0 bs with
    | none => bs
    | some (at_, none) => bs.take at_ ++ [0xEF, 0xBF, 0xBD]
    | some (at_, some n) =>
      bs.take at_ ++ [0xEF, 0xBF, 0xBD] ++ lossyBytes rounds (bs.drop (at_ + n))

/-- `String::from_utf8_lossy`. -/
def fromUtf8Lossy (bs : List U8) : String :=
  match fromUtf8 (lossyBytes (bs.length + 1) bs) with
  | .ok s => s
  | .error _ => ""

/-! ## The handler -/

/-- `ERR_BAD_INPUT` -/
def errBadInput : U32 := 1

/-- `Value::Uint8(b) => Some(*b)` -/
def rawByte : Value → Option U8
  | .int .uint8 b => some b
  | _ => none

/-- `b.is_ascii_digit()` -/
def isAsciiDigit (b : U8) : Bool := 0x30 ≤ b && b ≤ 0x39

/-- A round of the loop over the digits, in wrapping 64 bits. -/
def addDigit (result : U64) (b : U8) : Option U64 :=
  if isAsciiDigit b then some (result * 10 + (b - 0x30).setWidth 64) else none

/-- The loop over the digits, and what is made of its sum. -/
def parseSum (sign : U64) (digits : List U8) : Except U32 Value :=
  if digits.isEmpty then .error errBadInput
  else match digits.foldlM addDigit 0 with
    | some result => .ok (.int .int32 ((result * sign).setWidth 32))
    | none => .error errBadInput

/-- What the handler makes of the trimmed bytes. -/
def parseDigits : List U8 → Except U32 Value
  | [] => .error errBadInput
  | b :: bs => if b = 0x2D then parseSum (-1) bs else parseSum 1 (b :: bs)

/-- The bytes that the handler finds in its argument. -/
def parseIntBytes (args : Value) : Option (List U8) :=
  match args with
  | .struct s =>
    match FasmStruct.get s 0 with
    | some (.vec v) => v.mapM rawByte
    | _ => none
  | _ => none

/-- Syscall 4. -/
def parseInt {ω : Type} : SyscallFn ω := fun args globals w =>
  let result := match parseIntBytes args with
    | some raw => parseDigits (asBytes (trim (fromUtf8Lossy raw)))
    | none => .error errBadInput
  (.value (.result result), globals, w)

/-! ## ASCII texts -/

/-- The bytes are ASCII. -/
def IsAscii (bs : List U8) : Prop := ∀ b ∈ bs, b.toNat < 0x80

/-- The character of an ASCII byte. -/
def asciiChar (b : U8) : Char := Char.ofNat b.toNat

theorem toNat_asciiChar {b : U8} (h : b.toNat < 0x80) : (asciiChar b).toNat = b.toNat := by
  have hvalid : b.toNat.isValidChar := .inl (by omega)
  rw [asciiChar, Char.ofNat, dif_pos hvalid]
  rfl

theorem asBytes_ascii {bs : List U8} (h : IsAscii bs) :
    asBytes (.ofList (bs.map asciiChar)) = bs := by
  rw [asBytes_ofList]
  induction bs with
  | nil => rfl
  | cons b bs ih =>
    obtain ⟨hb, hbs⟩ := List.forall_mem_cons.mp h
    have hnat := toNat_asciiChar hb
    rw [List.map_cons, List.flatMap_cons, ih hbs, charBytes_ascii (hnat ▸ hb), hnat,
      BitVec.ofNat_toNat, BitVec.setWidth_eq]
    rfl

theorem utf8Error_ascii {bs : List U8} (h : IsAscii bs) (n : Nat) : utf8Error n bs = none := by
  induction bs generalizing n with
  | nil => rfl
  | cons b bs ih =>
    obtain ⟨hb, hbs⟩ := List.forall_mem_cons.mp h
    have hlt : b < 0x80 := hb
    rw [utf8Error.eq_def]
    exact (if_pos hlt).trans (ih hbs (n + 1))

/-- An ASCII text is read as it is. -/
theorem fromUtf8Lossy_ascii {bs : List U8} (h : IsAscii bs) :
    fromUtf8Lossy bs = .ofList (bs.map asciiChar) := by
  have hlossy : lossyBytes (bs.length + 1) bs = bs := by rw [lossyBytes, utf8Error_ascii h]
  have hread : fromUtf8 bs = .ok (.ofList (bs.map asciiChar)) :=
    fromUtf8_eq_ok.mpr (asBytes_ascii h).symm
  rw [fromUtf8Lossy, hlossy, hread]

/-- Whitespace among the ASCII bytes: tab, line feed, vertical tab, form feed, carriage return and
space. -/
def isAsciiSpace (b : U8) : Bool := (9 ≤ b.toNat && b.toNat ≤ 13) || b.toNat == 0x20

theorem isWhitespace_asciiChar {b : U8} (h : b.toNat < 0x80) :
    isWhitespace (asciiChar b) = isAsciiSpace b := by
  rw [isWhitespace, isAsciiSpace, toNat_asciiChar h, Bool.eq_iff_iff]
  simp only [Bool.or_eq_true, Bool.and_eq_true, decide_eq_true_iff, beq_iff_eq]
  omega

/-- Bytes without the whitespace around them. -/
def trimAscii (bs : List U8) : List U8 := (bs.dropWhile isAsciiSpace).rdropWhile isAsciiSpace

theorem dropWhile_map_of_eqOn {α β : Type} {f : α → β} {p : β → Bool} {q : α → Bool} {l : List α}
    (h : ∀ x ∈ l, p (f x) = q x) : (l.map f).dropWhile p = (l.dropWhile q).map f := by
  induction l with
  | nil => rfl
  | cons x l ih =>
    obtain ⟨hx, hl⟩ := List.forall_mem_cons.mp h
    rw [List.map_cons, List.dropWhile_cons, List.dropWhile_cons, hx, ih hl]
    split <;> rfl

theorem rdropWhile_map_of_eqOn {α β : Type} {f : α → β} {p : β → Bool} {q : α → Bool} {l : List α}
    (h : ∀ x ∈ l, p (f x) = q x) : (l.map f).rdropWhile p = (l.rdropWhile q).map f := by
  rw [List.rdropWhile, List.rdropWhile, ← List.map_reverse, dropWhile_map_of_eqOn, List.map_reverse]
  exact fun x hx => h x (List.mem_reverse.mp hx)

/-- What the handler parses, for an ASCII text. -/
theorem asBytes_trim_ascii {bs : List U8} (h : IsAscii bs) :
    asBytes (trim (fromUtf8Lossy bs)) = trimAscii bs := by
  have hspace (l : List U8) (hl : l ⊆ bs) : ∀ b ∈ l, isWhitespace (asciiChar b) = isAsciiSpace b :=
    fun b hb => isWhitespace_asciiChar (h b (hl hb))
  have hdrop : bs.dropWhile isAsciiSpace ⊆ bs := (List.dropWhile_sublist _).subset
  have htrim : trimAscii bs ⊆ bs := fun b hb => hdrop ((List.rdropWhile_prefix _ _).subset hb)
  rw [fromUtf8Lossy_ascii h, trim, String.toList_ofList,
    dropWhile_map_of_eqOn (hspace bs (List.Subset.refl bs)),
    rdropWhile_map_of_eqOn (hspace _ hdrop)]
  exact asBytes_ascii fun b hb => h b (htrim hb)

/-! ## Numerals -/

/-- The number that digits denote. -/
def decimal (ds : List U8) : Nat := ds.foldl (fun n d => n * 10 + (d.toNat - 0x30)) 0

/-- The bytes are one or more digits, which denote `n`. -/
def IsDecimal (bs : List U8) (n : Nat) : Prop :=
  bs ≠ [] ∧ (∀ b ∈ bs, isAsciiDigit b = true) ∧ decimal bs = n

/-- The bytes are digits with an optional minus sign before them, which denote `n`. -/
def IsNumeral (bs : List U8) (n : Int) : Prop :=
  (∃ k, IsDecimal bs k ∧ n = k) ∨ ∃ ds k, bs = 0x2D :: ds ∧ IsDecimal ds k ∧ n = -k

theorem toNat_digit {b : U8} (h : isAsciiDigit b = true) :
    (b - 0x30).toNat = b.toNat - 0x30 ∧ b ≠ 0x2D := by
  rw [isAsciiDigit, Bool.and_eq_true, decide_eq_true_iff, decide_eq_true_iff] at h
  obtain ⟨hlo, hhi⟩ := h
  constructor
  · exact BitVec.toNat_sub_of_le hlo
  · rintro rfl
    exact absurd hlo (by decide)

/-- The loop adds the digits up modulo 2^64. -/
theorem foldlM_addDigit (ds : List U8) (n : Nat) (h : ∀ b ∈ ds, isAsciiDigit b = true) :
    ds.foldlM addDigit (BitVec.ofNat 64 n) =
      some (BitVec.ofNat 64 (ds.foldl (fun n d => n * 10 + (d.toNat - 0x30)) n)) := by
  induction ds generalizing n with
  | nil => rfl
  | cons b ds ih =>
    obtain ⟨hb, hds⟩ := List.forall_mem_cons.mp h
    have hround : addDigit (BitVec.ofNat 64 n) b =
        some (BitVec.ofNat 64 (n * 10 + (b.toNat - 0x30))) := by
      rw [addDigit, if_pos hb, BitVec.ofNat_add, BitVec.ofNat_mul, ← (toNat_digit hb).1,
        BitVec.ofNat_toNat]
      rfl
    rw [List.foldlM_cons, hround, List.foldl_cons]
    exact ih _ hds

/-- It stops at what is no digit. -/
theorem foldlM_addDigit_none {ds : List U8} {b : U8} (hb : b ∈ ds) (hdigit : isAsciiDigit b = false)
    (n : U64) : ds.foldlM addDigit n = none := by
  induction ds generalizing n with
  | nil => cases hb
  | cons d ds ih =>
    rw [List.foldlM_cons]
    rcases List.mem_cons.mp hb with rfl | hb
    · rw [addDigit, if_neg (by rw [hdigit]; exact Bool.false_ne_true)]
      rfl
    · cases addDigit n d with
      | none => rfl
      | some n' => exact ih hb n'

theorem IsDecimal.ne_minus {b : U8} {bs : List U8} {k : Nat} (h : IsDecimal (b :: bs) k) :
    b ≠ 0x2D := (toNat_digit (h.2.1 b List.mem_cons_self)).2

/-- A text denotes one number at most. -/
theorem IsNumeral.unique {bs : List U8} {m n : Int} (hm : IsNumeral bs m) (hn : IsNumeral bs n) :
    m = n := by
  rcases hm with ⟨k, hk, rfl⟩ | ⟨ds, k, rfl, hk, rfl⟩
  · rcases hn with ⟨j, hj, rfl⟩ | ⟨ds, j, rfl, hj, rfl⟩
    · rw [← hk.2.2, ← hj.2.2]
    · exact absurd rfl hk.ne_minus
  · rcases hn with ⟨j, hj, rfl⟩ | ⟨ds', j, heq, hj, rfl⟩
    · exact absurd rfl hj.ne_minus
    · obtain rfl := List.tail_eq_of_cons_eq heq
      rw [← hk.2.2, ← hj.2.2]

theorem parseSum_of_isDecimal {ds : List U8} {k : Nat} (h : IsDecimal ds k) (sign : Int) :
    parseSum (.ofInt 64 sign) ds = .ok (.int .int32 (.ofInt 32 (k * sign))) := by
  obtain ⟨hne, hdigits, rfl⟩ := h
  have hloop : ds.foldlM addDigit 0 = some (BitVec.ofInt 64 (decimal ds)) := by
    rw [BitVec.ofInt_natCast]
    exact foldlM_addDigit ds 0 hdigits
  rw [parseSum, if_neg (by rwa [List.isEmpty_iff]), hloop]
  dsimp only
  rw [← BitVec.ofInt_mul, setWidth_ofInt (by decide)]

theorem parseSum_error {ds : List U8} (h : ∀ k, ¬ IsDecimal ds k) (sign : U64) :
    parseSum sign ds = .error errBadInput := by
  unfold parseSum
  by_cases hne : ds = []
  · rw [if_pos (List.isEmpty_iff.mpr hne)]
  · have hbad : ∃ b ∈ ds, isAsciiDigit b = false := by
      by_contra hall
      push Not at hall
      exact h _ ⟨hne, fun b hb => (Bool.not_eq_false _).mp (hall b hb), rfl⟩
    obtain ⟨b, hb, hdigit⟩ := hbad
    rw [if_neg (by rwa [List.isEmpty_iff]), foldlM_addDigit_none hb hdigit]

/-- A numeral gives its number, as far as 32 bits hold it. -/
theorem parseDigits_of_isNumeral {bs : List U8} {n : Int} (h : IsNumeral bs n) :
    parseDigits bs = .ok (.int .int32 (.ofInt 32 n)) := by
  rcases h with ⟨k, hk, rfl⟩ | ⟨ds, k, rfl, hk, rfl⟩
  · cases bs with
    | nil => exact absurd rfl hk.1
    | cons b bs =>
      have hone : (1 : U64) = .ofInt 64 1 := rfl
      rw [parseDigits, if_neg hk.ne_minus, hone, parseSum_of_isDecimal hk, Int.mul_one]
  · have hminus : (-1 : U64) = .ofInt 64 (-1) := rfl
    rw [parseDigits, if_pos rfl, hminus, parseSum_of_isDecimal hk, Int.mul_neg_one]

/-- Everything else is an error. -/
theorem parseDigits_error {bs : List U8} (h : ∀ n, ¬ IsNumeral bs n) :
    parseDigits bs = .error errBadInput := by
  cases bs with
  | nil => rfl
  | cons b bs =>
    rw [parseDigits]
    split
    case isTrue hb =>
      subst hb
      exact parseSum_error (fun k hk => h _ (.inr ⟨bs, k, rfl, hk, rfl⟩)) _
    case isFalse => exact parseSum_error (fun k hk => h _ (.inl ⟨k, hk, rfl⟩)) _

/-! ## The syscall -/

/-- The end of a syscall: the handler's result goes to `$ret`. -/
def setRet {ω : Type} (v : Value) : ExecM ω Action := do
  ExecM.assignLast fun cf => { cf with retVal := v }
  return .continue_

/-- A `VEC` of `UINT8`. -/
def vecOfBytes (bs : List U8) : Value := .vec (bs.map fun b : U8 => .int .uint8 b)

/-- Syscall 4 returns `r`, of an argument that has the bytes as its field 0. -/
def ParsesTo (bs : List U8) (r : Except U32 Value) : Prop :=
  ∀ (ω : Type) (host : Host ω) (p : Program) (e : Executor ω) (op : Operand)
    (s : List (U32 × Value)), host.syscalls 4 = some parseInt → e.readOperand op = .ok (.struct s) →
      FasmStruct.get s 0 = some (vecOfBytes bs) →
        executeInstruction host p ⟨.syscall, [.syscallId 4, op]⟩ e = setRet (.result r) e

theorem mapM_rawByte (bs : List U8) :
    (bs.map fun b : U8 => Value.int .uint8 b).mapM rawByte = some bs := by
  induction bs with
  | nil => rfl
  | cons b bs ih =>
    have hbyte : rawByte (.int .uint8 b) = some b := rfl
    rw [List.map_cons, List.mapM_cons, hbyte, ih]
    rfl

theorem parseInt_run {ω : Type} {host : Host ω} {e : Executor ω} {op : Operand} {bs : List U8}
    {s : List (U32 × Value)} (p : Program) (hhost : host.syscalls 4 = some parseInt)
    (hop : e.readOperand op = .ok (.struct s)) (hs : FasmStruct.get s 0 = some (vecOfBytes bs)) :
    executeInstruction host p ⟨.syscall, [.syscallId 4, op]⟩ e =
      setRet (.result (parseDigits (asBytes (trim (fromUtf8Lossy bs))))) e := by
  have hbytes : parseIntBytes (.struct s) = some bs := by
    rw [parseIntBytes, hs]
    exact mapM_rawByte bs
  refine (getOp_bind_run rfl _).trans ?_
  refine (reads_bind_ok (f := fun _ => syscallId (.syscallId 4)) rfl).trans ?_
  refine (val_bind_run rfl hop _).trans ?_
  refine (reads_bind_ok (f := fun _ => orFault (host.syscalls 4) .badSyscall)
    (orFault_eq_ok.mpr hhost)).trans ?_
  have hcall : callSyscall parseInt (.struct s) e =
      .ok (.result (parseDigits (asBytes (trim (fromUtf8Lossy bs))))) e := by
    rw [callSyscall, parseInt, hbytes]
  exact bind_run_ok hcall

/-- What is returned can be told from what is not. -/
theorem setRet_inj {args : List Value} {v v' : Value}
    (h : setRet v (showing args) = setRet v' (showing args)) : v = v' := by
  injection h with _ h
  injection h with _ h _
  injection h with h _
  injection h with _ _ _ _ h _ _

theorem parsesTo_iff {bs : List U8} {r : Except U32 Value} :
    ParsesTo bs r ↔ parseDigits (asBytes (trim (fromUtf8Lossy bs))) = r := by
  constructor
  · intro h
    have hread : (showing [.struct [(0, vecOfBytes bs)]]).readOperand (.slot (.local_ 0)) =
        .ok (.struct [(0, vecOfBytes bs)]) := rfl
    have hs : FasmStruct.get [(0, vecOfBytes bs)] 0 = some (vecOfBytes bs) := rfl
    have hrun := h Unit ⟨fun _ => some parseInt, none, .stable⟩ ⟨1, [], []⟩ _ _ _ rfl hread hs
    rw [parseInt_run ⟨1, [], []⟩ rfl hread hs] at hrun
    injection setRet_inj hrun
  · rintro rfl ω host p e op s hhost hop hs
    exact parseInt_run p hhost hop hs

/-- What the documentation says: the numerals of the integers of 32 bits are accepted, with their
numbers, and everything else is refused. -/
structure ParsesNumerals (bs : List U8) : Prop where
  ok : ∀ n : BitVec 32, ParsesTo bs (.ok (.int .int32 n)) ↔ IsNumeral (trimAscii bs) n.toInt
  error : (¬ ∃ n : BitVec 32, IsNumeral (trimAscii bs) n.toInt) → ParsesTo bs (.error 1)

/-- **`PARSE_INT`.**  It accepts exactly the numerals of the integers of 32 bits, if and only if the
text is not a numeral of any other integer. -/
theorem parse_int_numerals_iff {bs : List U8} (hbs : IsAscii bs) :
    ParsesNumerals bs ↔ ∀ n, IsNumeral (trimAscii bs) n → -2 ^ 31 ≤ n ∧ n < 2 ^ 31 := by
  have hparses {r : Except U32 Value} : ParsesTo bs r ↔ parseDigits (trimAscii bs) = r := by
    rw [parsesTo_iff, asBytes_trim_ascii hbs]
  constructor
  · intro h n hn
    have hok := (h.ok (.ofInt 32 n)).mp (hparses.mpr (parseDigits_of_isNumeral hn))
    rw [hn.unique hok]
    exact ⟨BitVec.le_toInt _, BitVec.toInt_lt⟩
  · intro h
    have hof {n : Int} (hn : IsNumeral (trimAscii bs) n) : (BitVec.ofInt 32 n).toInt = n :=
      BitVec.toInt_ofInt_eq_self (by decide) (h n hn).1 (h n hn).2
    refine ⟨fun m => ?_, fun hnone => ?_⟩
    · rw [hparses]
      constructor
      · intro hok
        by_cases hnumeral : ∃ n, IsNumeral (trimAscii bs) n
        · obtain ⟨n, hn⟩ := hnumeral
          rw [parseDigits_of_isNumeral hn] at hok
          injection hok with hok
          injection hok with _ hok
          rwa [← hok, hof hn]
        · rw [parseDigits_error fun n hn => hnumeral ⟨n, hn⟩] at hok
          cases hok
      · intro hm
        rw [parseDigits_of_isNumeral hm, BitVec.ofInt_toInt]
    · refine hparses.mpr (parseDigits_error fun n hn => hnone ⟨.ofInt 32 n, ?_⟩)
      rwa [hof hn]

/-- `-7` and a line feed. -/
theorem parse_int_numerals_minus : ParsesNumerals [0x2D, 0x37, 0x0A] := by
  have hseven : IsDecimal [0x37] 7 := ⟨List.cons_ne_nil _ _, by decide, rfl⟩
  have hnumeral : IsNumeral (trimAscii [0x2D, 0x37, 0x0A]) (-7) :=
    .inr ⟨[0x37], 7, rfl, hseven, rfl⟩
  refine (parse_int_numerals_iff (by unfold IsAscii; decide)).mpr fun n hn => ?_
  rw [hn.unique hnumeral]
  decide

/-- The digits of 2147483648. -/
def largeDigits : List U8 := [0x32, 0x31, 0x34, 0x37, 0x34, 0x38, 0x33, 0x36, 0x34, 0x38]

/-- 2^31 is read as -2^31. -/
theorem parse_int_wraps : IsAscii largeDigits ∧
    IsNumeral (trimAscii largeDigits) 2147483648 ∧
    ParsesTo largeDigits (.ok (.int .int32 0x80000000#32)) ∧ ¬ ParsesNumerals largeDigits := by
  have hascii : IsAscii largeDigits := by unfold IsAscii largeDigits; decide
  have hnumeral : IsNumeral (trimAscii largeDigits) 2147483648 :=
    .inl ⟨2147483648, ⟨List.cons_ne_nil _ _, by decide, by decide⟩, rfl⟩
  have hparses : ParsesTo largeDigits (.ok (.int .int32 0x80000000#32)) := by
    rw [parsesTo_iff, asBytes_trim_ascii hascii, parseDigits_of_isNumeral hnumeral]
    rfl
  refine ⟨hascii, hnumeral, hparses, fun h => ?_⟩
  have hwrong := hnumeral.unique ((h.ok _).mp hparses)
  exact absurd hwrong (by decide)

end Fasm
