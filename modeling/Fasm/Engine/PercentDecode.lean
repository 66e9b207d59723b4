import Fasm.Engine.HttpHandler

/-!
# Percent-decoding

A percent-encoded text stands for bytes: an escape stands for the byte that it denotes, and
everything else for itself.  `percent_decode` makes a character of an escape, which has two bytes
from `%80` on, and it drops a `%` that starts no escape together with the two characters behind
it.  Neither mistake makes up for another: a dropped `%` is missed in the result, and a character
too large makes it longer.
-/

namespace Fasm

/-! ## Texts as bytes -/

theorem le_toNat_of_highBit {b : U8} (h : b.getLsbD 7 = true) : 0x80 ≤ b.toNat := by
  by_contra hlt
  have hbit := Nat.testBit_lt_two_pow (i := 7) (Nat.lt_of_not_le hlt)
  exact absurd (h.symm.trans hbit) (by decide)

theorem highBit_or (x : U8) {k : U8} (hk : k.getLsbD 7 = true) : (x ||| k).getLsbD 7 = true := by
  rw [BitVec.getLsbD_or, hk, Bool.or_true]

/-- The bytes of a character that takes several of them have their highest bit. -/
theorem le_of_mem_charBytes {c : Char} (h : 0x80 ≤ c.toNat) {b : U8} (hb : b ∈ charBytes c) :
    0x80 ≤ b.toNat := by
  apply le_toNat_of_highBit
  rcases Char.utf8Size_eq c with hsize | hsize | hsize | hsize
  · exact absurd (utf8Size_eq_one_iff.mp hsize) (Nat.not_lt.mpr h)
  · rw [charBytes, String.utf8EncodeChar_eq_cons_cons hsize] at hb
    simp only [List.map_cons, List.map_nil, List.mem_cons, List.not_mem_nil, or_false] at hb
    rcases hb with rfl | rfl <;> exact highBit_or _ (by decide)
  · rw [charBytes, String.utf8EncodeChar_eq_cons_cons_cons hsize] at hb
    simp only [List.map_cons, List.map_nil, List.mem_cons, List.not_mem_nil, or_false] at hb
    rcases hb with rfl | rfl | rfl <;> exact highBit_or _ (by decide)
  · rw [charBytes, String.utf8EncodeChar_eq_cons_cons_cons_cons hsize] at hb
    simp only [List.map_cons, List.map_nil, List.mem_cons, List.not_mem_nil, or_false] at hb
    rcases hb with rfl | rfl | rfl | rfl <;> exact highBit_or _ (by decide)

/-- Only `%` has the byte of `%`. -/
theorem percent_notMem_charBytes {c : Char} (h : c ≠ '%') : (0x25 : U8) ∉ charBytes c := by
  intro hmem
  rcases Nat.lt_or_ge c.toNat 0x80 with hlt | hge
  · rw [charBytes_ascii hlt, List.mem_singleton] at hmem
    have hnat := congrArg BitVec.toNat hmem
    rw [BitVec.toNat_ofNat, Nat.mod_eq_of_lt (by omega)] at hnat
    exact h (Char.toNat_inj.mp hnat.symm)
  · exact absurd (le_of_mem_charBytes hge hmem) (by decide)

/-- A byte below `0x80` at the start of a text is its first character. -/
theorem ascii_of_flatMap {cs : List Char} {b : U8} {bs : List U8}
    (h : cs.flatMap charBytes = b :: bs) (hb : b.toNat < 0x80) :
    ∃ c cs', cs = c :: cs' ∧ c.toNat = b.toNat ∧ cs'.flatMap charBytes = bs := by
  cases cs with
  | nil => cases h
  | cons c cs =>
    rw [List.flatMap_cons] at h
    rcases Nat.lt_or_ge c.toNat 0x80 with hlt | hge
    · rw [charBytes_ascii hlt] at h
      obtain ⟨rfl, rfl⟩ := List.cons.inj h
      refine ⟨c, cs, rfl, ?_, rfl⟩
      rw [BitVec.toNat_ofNat, Nat.mod_eq_of_lt (by omega)]
    · cases hc : charBytes c with
      | nil =>
        have hpos := c.utf8Size_pos
        rw [← length_charBytes, hc] at hpos
        exact absurd hpos (Nat.lt_irrefl 0)
      | cons b' bs' =>
        rw [hc] at h
        obtain ⟨rfl, -⟩ := List.cons.inj h
        have hmem : b' ∈ charBytes c := hc ▸ List.mem_cons_self
        exact absurd (le_of_mem_charBytes hge hmem) (Nat.not_le.mpr hb)

/-! ## Escapes -/

/-- The value of a hexadecimal digit. -/
def hexDigit (b : U8) : Option Nat := toDigit16 (Char.ofNat b.toNat)

/-- The byte that an escape denotes. -/
def escapedByte (b h l : U8) : Option U8 :=
  if b = 0x25 then do return .ofNat 8 ((← hexDigit h) * 16 + (← hexDigit l)) else none

/-- Percent-decoding: the bytes of a text, with the byte it denotes for each escape. -/
def decodeBytes : List U8 → List U8
  | b :: h :: l :: bs =>
    match escapedByte b h l with
    | some byte => byte :: decodeBytes bs
    | none => b :: decodeBytes (h :: l :: bs)
  | [b, h] => [b, h]
  | [b] => [b]
  | [] => []

/-- Every `%` starts an escape of a byte below the limit. -/
inductive EscapesBelow (limit : Nat) : List Char → Prop
  | nil : EscapesBelow limit []
  | char {c : Char} {cs : List Char} (hc : c ≠ '%') (h : EscapesBelow limit cs) :
      EscapesBelow limit (c :: cs)
  | escape {c c' : Char} {cs : List Char} {hi lo : Nat} (hhi : toDigit16 c = some hi)
      (hlo : toDigit16 c' = some lo) (hlt : hi * 16 + lo < limit) (h : EscapesBelow limit cs) :
      EscapesBelow limit ('%' :: c :: c' :: cs)

/-! ## Digits -/

theorem toDigit16_eq_some {c : Char} {d : Nat} (h : toDigit16 c = some d) :
    d < 16 ∧ c.toNat < 0x80 ∧ c ≠ '%' := by
  have hle (a b : Char) : a ≤ b ↔ a.toNat ≤ b.toNat := Char.le_def.trans UInt32.le_iff_toNat_le
  have hpercent : c.toNat ≠ '%'.toNat → c ≠ '%' := fun hne heq => hne (congrArg Char.toNat heq)
  simp only [toDigit16, hle] at h
  have h0 : '0'.toNat = 48 := rfl
  have h9 : '9'.toNat = 57 := rfl
  have ha : 'a'.toNat = 97 := rfl
  have hf : 'f'.toNat = 102 := rfl
  have hA : 'A'.toNat = 65 := rfl
  have hF : 'F'.toNat = 70 := rfl
  have hp : '%'.toNat = 37 := rfl
  rw [h0, h9, ha, hf, hA, hF] at h
  split at h
  · cases h
    exact ⟨by omega, by omega, hpercent (by omega)⟩
  · split at h
    · cases h
      exact ⟨by omega, by omega, hpercent (by omega)⟩
    · split at h
      · cases h
        exact ⟨by omega, by omega, hpercent (by omega)⟩
      · cases h

/-- The first 256 characters. -/
theorem toNat_ofNat_latin {n : Nat} (h : n < 256) : (Char.ofNat n).toNat = n := by
  rw [Char.ofNat, dif_pos (.inl (by omega))]
  rfl

/-- A digit as a byte and as a character. -/
theorem hexDigit_eq {b : U8} {c : Char} (h : c.toNat = b.toNat) : hexDigit b = toDigit16 c := by
  rw [hexDigit, ← h, Char.ofNat_toNat]

theorem lt_of_hexDigit {b : U8} {d : Nat} (h : hexDigit b = some d) : b.toNat < 0x80 := by
  have hlt := (toDigit16_eq_some h).2.1
  rwa [toNat_ofNat_latin b.isLt] at hlt

/-! ## Decoding the bytes of a text -/

theorem decodeBytes_cons_ne {b : U8} (h : b ≠ 0x25) (bs : List U8) :
    decodeBytes (b :: bs) = b :: decodeBytes bs := by
  match bs with
  | [] | [_] => rfl
  | h' :: l :: bs => rw [decodeBytes, escapedByte, if_neg h]

/-- Without a `%` nothing is decoded. -/
theorem decodeBytes_append {bs : List U8} (h : 0x25 ∉ bs) (bs' : List U8) :
    decodeBytes (bs ++ bs') = bs ++ decodeBytes bs' := by
  induction bs with
  | nil => rfl
  | cons b bs ih =>
    rw [List.mem_cons, not_or] at h
    rw [List.cons_append, decodeBytes_cons_ne (Ne.symm h.1), ih h.2, List.cons_append]

/-- The decoded bytes of a text. -/
def decodedBytes (cs : List Char) : List U8 := decodeBytes (cs.flatMap charBytes)

theorem decodedBytes_char {c : Char} (h : c ≠ '%') (cs : List Char) :
    decodedBytes (c :: cs) = charBytes c ++ decodedBytes cs := by
  rw [decodedBytes, List.flatMap_cons, decodeBytes_append (percent_notMem_charBytes h)]
  rfl

section Escape

variable {c c' : Char} {cs : List Char} {hi lo : Nat}

theorem decodedBytes_escape (hhi : toDigit16 c = some hi) (hlo : toDigit16 c' = some lo) :
    decodedBytes ('%' :: c :: c' :: cs) = BitVec.ofNat 8 (hi * 16 + lo) :: decodedBytes cs := by
  have hc := (toDigit16_eq_some hhi).2.1
  have hc' := (toDigit16_eq_some hlo).2.1
  have hdigit : hexDigit (BitVec.ofNat 8 c.toNat) = some hi := by
    rw [hexDigit_eq (c := c) (by rw [BitVec.toNat_ofNat, Nat.mod_eq_of_lt (by omega)]), hhi]
  have hdigit' : hexDigit (BitVec.ofNat 8 c'.toNat) = some lo := by
    rw [hexDigit_eq (c := c') (by rw [BitVec.toNat_ofNat, Nat.mod_eq_of_lt (by omega)]), hlo]
  have hbyte : escapedByte 0x25 (BitVec.ofNat 8 c.toNat) (BitVec.ofNat 8 c'.toNat) =
      some (BitVec.ofNat 8 (hi * 16 + lo)) := by
    rw [escapedByte, if_pos rfl, hdigit, hdigit']
    rfl
  rw [decodedBytes, List.flatMap_cons, List.flatMap_cons, List.flatMap_cons, charBytes_ascii hc,
    charBytes_ascii hc']
  show decodeBytes (0x25 :: _ :: _ :: cs.flatMap charBytes) = _
  rw [decodeBytes, hbyte]
  rfl

/-- A `%` that starts no escape stays. -/
theorem decodedBytes_percent (h : ∀ c c' cs' hi lo, cs = c :: c' :: cs' →
    toDigit16 c = some hi → toDigit16 c' = some lo → False) :
    decodedBytes ('%' :: cs) = 0x25 :: decodedBytes cs := by
  rw [decodedBytes, List.flatMap_cons, decodedBytes]
  show decodeBytes (0x25 :: cs.flatMap charBytes) = _
  match hbytes : cs.flatMap charBytes with
  | [] | [_] => rfl
  | b :: b' :: bs =>
    have hbyte : escapedByte 0x25 b b' = none := by
      rw [escapedByte, if_pos rfl]
      cases hb : hexDigit b with
      | none => rfl
      | some hi =>
        cases hb' : hexDigit b' with
        | none => rfl
        | some lo =>
          obtain ⟨c, cs', rfl, hc, hbytes'⟩ := ascii_of_flatMap hbytes (lt_of_hexDigit hb)
          obtain ⟨c', cs'', rfl, hc', -⟩ := ascii_of_flatMap hbytes' (lt_of_hexDigit hb')
          rw [hexDigit_eq hc] at hb
          rw [hexDigit_eq hc'] at hb'
          exact (h c c' cs'' hi lo rfl hb hb').elim
    rw [decodeBytes, hbyte]

end Escape

/-! ## What the loop does -/

theorem percentDecodeChars_char {c : Char} (h : c ≠ '%') (cs : List Char) :
    percentDecodeChars (c :: cs) = c :: percentDecodeChars cs := by
  rw [percentDecodeChars]
  all_goals
    intros
    contradiction

theorem percentDecodeChars_escape {c c' : Char} {cs : List Char} {hi lo : Nat}
    (hhi : toDigit16 c = some hi) (hlo : toDigit16 c' = some lo) :
    percentDecodeChars ('%' :: c :: c' :: cs) =
      Char.ofNat (hi * 16 + lo) :: percentDecodeChars cs := by
  rw [percentDecodeChars, hhi, hlo]

theorem percentDecodeChars_dropped {c c' : Char} {cs : List Char}
    (h : ∀ hi lo, toDigit16 c = some hi → toDigit16 c' = some lo → False) :
    percentDecodeChars ('%' :: c :: c' :: cs) = percentDecodeChars cs := by
  rw [percentDecodeChars]
  split
  · rename_i hhi hlo
    exact (h _ _ hhi hlo).elim
  · rfl

/-- A text, as the loop goes through it. -/
theorem percentDecode_induction {motive : List Char → Prop} (nil : motive [])
    (char : ∀ c cs, c ≠ '%' → motive cs → motive (c :: cs))
    (escape : ∀ c c' cs hi lo, toDigit16 c = some hi → toDigit16 c' = some lo →
      motive cs → motive ('%' :: c :: c' :: cs))
    (dropped : ∀ c c' cs, (∀ hi lo, toDigit16 c = some hi → toDigit16 c' = some lo → False) →
      motive cs → motive ('%' :: c :: c' :: cs))
    (short : ∀ cs, cs.length ≤ 1 → motive ('%' :: cs)) : ∀ cs, motive cs
  | [] => nil
  | c :: cs => by
    by_cases hc : c = '%'
    · subst hc
      match cs with
      | [] => exact short [] (Nat.zero_le _)
      | [c] => exact short [c] (Nat.le_refl _)
      | c :: c' :: cs =>
        have ih := percentDecode_induction nil char escape dropped short cs
        cases hhi : toDigit16 c with
        | none =>
          refine dropped c c' cs (fun hi lo h _ => ?_) ih
          rw [hhi] at h
          cases h
        | some hi =>
          cases hlo : toDigit16 c' with
          | none =>
            refine dropped c c' cs (fun hi lo _ h => ?_) ih
            rw [hlo] at h
            cases h
          | some lo => exact escape c c' cs hi lo hhi hlo ih
    · exact char c cs hc (percentDecode_induction nil char escape dropped short cs)

/-- The bytes of what the loop leaves. -/
def loopBytes (cs : List Char) : List U8 := (percentDecodeChars cs).flatMap charBytes

theorem loopBytes_char {c : Char} (h : c ≠ '%') (cs : List Char) :
    loopBytes (c :: cs) = charBytes c ++ loopBytes cs := by
  rw [loopBytes, percentDecodeChars_char h]
  rfl

theorem loopBytes_escape {c c' : Char} {cs : List Char} {hi lo : Nat}
    (hhi : toDigit16 c = some hi) (hlo : toDigit16 c' = some lo) :
    loopBytes ('%' :: c :: c' :: cs) = charBytes (Char.ofNat (hi * 16 + lo)) ++ loopBytes cs := by
  rw [loopBytes, percentDecodeChars_escape hhi hlo]
  rfl

theorem loopBytes_dropped {c c' : Char} {cs : List Char}
    (h : ∀ hi lo, toDigit16 c = some hi → toDigit16 c' = some lo → False) :
    loopBytes ('%' :: c :: c' :: cs) = loopBytes cs := by
  rw [loopBytes, percentDecodeChars_dropped h]
  rfl

theorem loopBytes_short {cs : List Char} (h : cs.length ≤ 1) : loopBytes ('%' :: cs) = [] := by
  match cs, h with
  | [], _ => rfl
  | [_], _ => rfl

/-! ## How often `%` is left -/

/-- A character has the byte of `%` as often as its number has. -/
theorem count_charBytes_latin {n : Nat} (h : n < 256) :
    (charBytes (Char.ofNat n)).count 0x25 = [BitVec.ofNat 8 n].count 0x25 := by
  have hn := toNat_ofNat_latin h
  rcases Nat.lt_or_ge n 0x80 with hlt | hge
  · rw [charBytes_ascii (hn.trans_lt hlt), hn]
  · have hchar : Char.ofNat n ≠ '%' := by
      intro heq
      rw [heq] at hn
      exact absurd hge (hn ▸ by decide)
    have hbyte : (0x25 : U8) ∉ [BitVec.ofNat 8 n] := by
      rw [List.mem_singleton]
      intro heq
      have hnat := congrArg BitVec.toNat heq
      rw [BitVec.toNat_ofNat, Nat.mod_eq_of_lt h] at hnat
      exact absurd hge (hnat ▸ by decide)
    rw [List.count_eq_zero_of_not_mem (percent_notMem_charBytes hchar),
      List.count_eq_zero_of_not_mem hbyte]

/-- A character in front takes no `%` away. -/
theorem count_decodedBytes_le_cons (c : Char) (cs : List Char) :
    (decodedBytes cs).count 0x25 ≤ (decodedBytes (c :: cs)).count 0x25 := by
  by_cases hc : c = '%'
  · subst hc
    by_cases h : ∃ c c' cs' hi lo, cs = c :: c' :: cs' ∧ toDigit16 c = some hi ∧
        toDigit16 c' = some lo
    · obtain ⟨c, c', cs', hi, lo, rfl, hhi, hlo⟩ := h
      have hne := (toDigit16_eq_some hhi).2.2
      have hne' := (toDigit16_eq_some hlo).2.2
      rw [decodedBytes_escape hhi hlo, decodedBytes_char hne, decodedBytes_char hne',
        List.count_append, List.count_append,
        List.count_eq_zero_of_not_mem (percent_notMem_charBytes hne),
        List.count_eq_zero_of_not_mem (percent_notMem_charBytes hne'), Nat.zero_add, Nat.zero_add]
      exact List.count_le_count_cons
    · rw [decodedBytes_percent fun c c' cs' hi lo hcs hhi hlo =>
        h ⟨c, c', cs', hi, lo, hcs, hhi, hlo⟩]
      exact List.count_le_count_cons
  · rw [decodedBytes_char hc, List.count_append]
    exact Nat.le_add_left _ _

/-- The loop leaves no more `%`, and as many only if every `%` starts an escape. -/
theorem count_loopBytes (cs : List Char) :
    (loopBytes cs).count 0x25 ≤ (decodedBytes cs).count 0x25 ∧
    ((loopBytes cs).count 0x25 = (decodedBytes cs).count 0x25 → EscapesBelow 256 cs) := by
  induction cs using percentDecode_induction with
  | nil => exact ⟨Nat.le_refl _, fun _ => .nil⟩
  | char c cs hc ih =>
    rw [loopBytes_char hc, decodedBytes_char hc, List.count_append, List.count_append]
    refine ⟨Nat.add_le_add_left ih.1 _, fun heq => .char hc (ih.2 ?_)⟩
    exact Nat.add_left_cancel heq
  | escape c c' cs hi lo hhi hlo ih =>
    have hlt : hi * 16 + lo < 256 := by
      have hhi := (toDigit16_eq_some hhi).1
      have hlo := (toDigit16_eq_some hlo).1
      omega
    have hbyte : decodedBytes ('%' :: c :: c' :: cs) =
        [BitVec.ofNat 8 (hi * 16 + lo)] ++ decodedBytes cs := decodedBytes_escape hhi hlo
    rw [loopBytes_escape hhi hlo, hbyte, List.count_append, List.count_append,
      count_charBytes_latin hlt]
    refine ⟨Nat.add_le_add_left ih.1 _, fun heq => .escape hhi hlo hlt (ih.2 ?_)⟩
    exact Nat.add_left_cancel heq
  | dropped c c' cs h ih =>
    have hstay : decodedBytes ('%' :: c :: c' :: cs) = 0x25 :: decodedBytes (c :: c' :: cs) := by
      apply decodedBytes_percent
      intro d d' cs' hi lo heq hhi hlo
      cases heq
      exact h hi lo hhi hlo
    have hle := (count_decodedBytes_le_cons c' cs).trans (count_decodedBytes_le_cons c (c' :: cs))
    rw [loopBytes_dropped h, hstay, List.count_cons_self]
    exact ⟨by omega, by omega⟩
  | short cs h =>
    have hstay : decodedBytes ('%' :: cs) = 0x25 :: decodedBytes cs := by
      apply decodedBytes_percent
      rintro c c' cs' hi lo rfl
      exact absurd h (by simp)
    rw [loopBytes_short h, hstay, List.count_cons_self, List.count_nil]
    exact ⟨Nat.zero_le _, nofun⟩

/-! ## How long the result is -/

/-- Where every `%` starts an escape, the loop leaves no fewer bytes, and as many only if the
escapes are those of ASCII. -/
theorem length_loopBytes {cs : List Char} (h : EscapesBelow 256 cs) :
    (decodedBytes cs).length ≤ (loopBytes cs).length ∧
    ((decodedBytes cs).length = (loopBytes cs).length → EscapesBelow 128 cs) := by
  induction h with
  | nil => exact ⟨Nat.le_refl _, fun _ => .nil⟩
  | char hc _ ih =>
    rw [loopBytes_char hc, decodedBytes_char hc, List.length_append, List.length_append]
    refine ⟨Nat.add_le_add_left ih.1 _, fun heq => .char hc (ih.2 ?_)⟩
    exact Nat.add_left_cancel heq
  | @escape c c' cs hi lo hhi hlo hlt _ ih =>
    have hn := toNat_ofNat_latin hlt
    have hpos := (Char.ofNat (hi * 16 + lo)).utf8Size_pos
    rw [loopBytes_escape hhi hlo, decodedBytes_escape hhi hlo, List.length_append,
      List.length_cons, length_charBytes]
    refine ⟨by omega, fun heq => ?_⟩
    have hone : (Char.ofNat (hi * 16 + lo)).utf8Size = 1 := by omega
    have hascii := utf8Size_eq_one_iff.mp hone
    rw [hn] at hascii
    exact .escape hhi hlo hascii (ih.2 (by omega))

/-- The escapes of ASCII are decoded as they should be. -/
theorem loopBytes_eq {cs : List Char} (h : EscapesBelow 128 cs) :
    loopBytes cs = decodedBytes cs := by
  induction h with
  | nil => rfl
  | char hc _ ih => rw [loopBytes_char hc, decodedBytes_char hc, ih]
  | escape hhi hlo hlt _ ih =>
    have hn := toNat_ofNat_latin (hlt.trans (by decide))
    rw [loopBytes_escape hhi hlo, decodedBytes_escape hhi hlo,
      charBytes_ascii (hn.trans_lt hlt), hn, ih]
    rfl

theorem loopBytes_eq_iff (cs : List Char) :
    loopBytes cs = decodedBytes cs ↔ EscapesBelow 128 cs := by
  constructor
  · intro heq
    have hescapes := (count_loopBytes cs).2 (congrArg (List.count 0x25) heq)
    exact (length_loopBytes hescapes).2 (congrArg List.length heq.symm)
  · exact loopBytes_eq

/-! ## Query values -/

/-- The loop leaves a text without `%` as it is. -/
theorem percentDecodeChars_of_notMem {cs : List Char} (h : '%' ∉ cs) :
    percentDecodeChars cs = cs := by
  induction cs with
  | nil => rfl
  | cons c cs ih =>
    rw [List.mem_cons, not_or] at h
    rw [percentDecodeChars_char (Ne.symm h.1), ih h.2]

theorem asBytes_percentDecode (cs : List Char) : asBytes (percentDecode cs) = loopBytes cs := by
  have hloop : percentDecode cs = String.ofList (percentDecodeChars cs) := by
    rw [percentDecode]
    split
    · rfl
    · rename_i h
      rw [percentDecodeChars_of_notMem h]
  rw [hloop, asBytes_ofList]
  rfl

/-- The digit of a number below 16. -/
def hexChar (n : Nat) : Char := Nat.digitChar n

/-- Every byte as an escape. -/
def percentEncode (bytes : List U8) : List Char :=
  bytes.flatMap fun b => ['%', hexChar (b.toNat / 16), hexChar (b.toNat % 16)]

theorem toDigit16_hexChar {n : Nat} (h : n < 16) : toDigit16 (hexChar n) = some n := by
  have hall : ∀ n < 16, toDigit16 (hexChar n) = some n := by decide
  exact hall n h

/-- Decoding undoes encoding. -/
theorem decodedBytes_percentEncode (bytes : List U8) :
    decodedBytes (percentEncode bytes) = bytes := by
  induction bytes with
  | nil => rfl
  | cons b bytes ih =>
    have hlt := b.isLt
    have hhi := toDigit16_hexChar (n := b.toNat / 16) (by omega)
    have hlo := toDigit16_hexChar (n := b.toNat % 16) (by omega)
    refine (decodedBytes_escape hhi hlo).trans ?_
    rw [Nat.div_add_mod' b.toNat 16, BitVec.ofNat_toNat, BitVec.setWidth_eq]
    exact congrArg (b :: ·) ih

theorem escapesBelow_percentEncode (bytes : List U8) :
    EscapesBelow 0x80 (percentEncode bytes) ↔ ∀ b ∈ bytes, b.toNat < 0x80 := by
  induction bytes with
  | nil => exact iff_of_true .nil nofun
  | cons b bytes ih =>
    have hbyte := b.isLt
    have hhi := toDigit16_hexChar (n := b.toNat / 16) (by omega)
    have hlo := toDigit16_hexChar (n := b.toNat % 16) (by omega)
    rw [List.forall_mem_cons, ← ih]
    constructor
    · intro h
      cases h with
      | char hc => exact absurd rfl hc
      | escape hhi' hlo' hlt h =>
        obtain rfl := Option.some.inj (hhi.symm.trans hhi')
        obtain rfl := Option.some.inj (hlo.symm.trans hlo')
        exact ⟨by omega, h⟩
    · rintro ⟨hlt, h⟩
      exact .escape hhi hlo (by omega) h

/-- **Percent-decoding.**  The bytes that are passed for a query value are those that it stands
for, if and only if every `%` in it starts an escape of a byte below `0x80`; those of an encoded
text are the bytes of the text, if and only if it is ASCII. -/
theorem percent_decode_iff (v : List Char) (bytes : List U8) :
    (textValue (percentDecode v) = bytesValue (decodeBytes (asBytes (String.ofList v))) ↔
      EscapesBelow 0x80 v) ∧
    (textValue (percentDecode (percentEncode bytes)) = bytesValue bytes ↔
      ∀ b ∈ bytes, b.toNat < 0x80) := by
  constructor
  · rw [textValue, asBytes_percentDecode, bytesValue_injective.eq_iff, asBytes_ofList]
    exact loopBytes_eq_iff v
  · rw [textValue, asBytes_percentDecode, bytesValue_injective.eq_iff,
      ← escapesBelow_percentEncode, ← loopBytes_eq_iff, decodedBytes_percentEncode]

/-- `%C3%A9`, which is `é`, and `100%`. -/
theorem percent_decode_wrong :
    decodeBytes (asBytes "%C3%A9") = asBytes "é" ∧
    textValue (percentDecode "%C3%A9".toList) ≠ bytesValue (asBytes "é") ∧
    decodeBytes (asBytes "100%") = asBytes "100%" ∧
    textValue (percentDecode "100%".toList) ≠ bytesValue (asBytes "100%") := by
  refine ⟨by decide, ?_, by decide, ?_⟩
  · rw [textValue, asBytes_percentDecode, bytesValue_injective.ne_iff]
    decide
  · rw [textValue, asBytes_percentDecode, bytesValue_injective.ne_iff]
    decide

end Fasm
