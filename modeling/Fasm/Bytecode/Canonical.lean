import Fasm.Bytecode.RoundTrip

/-!
# What the decoder accepts

The decoder reads a prefix of a file and looks at nothing behind it.  What it reads is
the encoding of the program that it returns, but for the bytes that stand for booleans,
which may be any byte that is not zero where the encoder writes a one.

Hence no strict prefix of an encoding is accepted.  Of a program beyond the limits of the
format, the decoder may read another one: behind a literal that is too long it goes on with
what is left of the text.
-/

namespace Fasm

open Parser Decoder

theorem decodeProgram_eq_ok {bs : List U8} {p : Program} :
    decodeProgram bs = .ok p ↔ ∃ rest, decodeProgramAt bs = .ok (p, rest) := by
  rw [decodeProgram]
  cases decodeProgramAt bs with
  | error e => exact iff_of_false (by rintro ⟨⟩) (by rintro ⟨_, ⟨⟩⟩)
  | ok r =>
    obtain ⟨q, rest⟩ := r
    constructor
    · rintro h
      cases h
      exact ⟨rest, rfl⟩
    · rintro ⟨rest', h⟩
      cases h
      rfl

/-! ## Files of a program -/

/-- The bytes are a file of the program: its encoding, with any bytes that are not zero for the
booleans that are true. -/
def Program.FileOf (p : Program) (bs : List U8) : Prop :=
  p.Fits ∧ List.Forall₂ Spells bs (symbolsProgram p)

/-- The decoder accepts the files of programs, and whatever follows them. -/
theorem decodeProgramAt_eq_ok {bs rest : List U8} {p : Program} :
    decodeProgramAt bs = .ok (p, rest) ↔ ∃ as, bs = as ++ rest ∧ p.FileOf as := by
  constructor
  · intro h
    obtain ⟨hfits, as, hbs, has⟩ := parses_decodeProgramAt.sound h
    exact ⟨as, hbs, hfits, has⟩
  · rintro ⟨as, rfl, hfits, has⟩
    exact parses_decodeProgramAt.reads hfits has rest

/-- The byte that the encoder writes for a symbol that was read from the byte `c`. -/
def Symbol.rewrite : Symbol → U8 → U8
  | byte _, c => c
  | bool _, c => if c = 0 then 0 else 1

theorem Spells.toByte_eq {c : U8} {s : Symbol} (h : Spells c s) : s.toByte = s.rewrite c := by
  cases s with
  | byte b => exact h.symm
  | bool v =>
    obtain rfl : (c != 0) = v := h
    by_cases hc : c = 0
    · rw [hc]
      rfl
    · rw [Symbol.toByte, Symbol.rewrite, boolByte, if_neg hc, if_pos (bne_iff_ne.mpr hc)]

/-- **Decoded bytecode is canonical.**  Where the decoder reads the first `n` bytes of a file as
a program, the encoding of the program has `n` bytes, is read as the same program, and has the
bytes of the file at every position that holds no boolean; a byte that holds a boolean is written
back as a one if it is not zero. -/
theorem decoded_canonical {bs rest : List U8} {p : Program}
    (h : decodeProgramAt bs = .ok (p, rest)) {n : Nat} (hn : bs.length = n + rest.length) :
    (encodeProgram p).length = n ∧ decodeProgram (encodeProgram p) = .ok p ∧
      ∀ i < n, ∃ s c, (symbolsProgram p)[i]? = some s ∧ bs[i]? = some c ∧
        (encodeProgram p)[i]? = some (s.rewrite c) := by
  obtain ⟨as, rfl, hfits, has⟩ := decodeProgramAt_eq_ok.mp h
  rw [List.length_append] at hn
  have hsym : as.length = (symbolsProgram p).length := has.length_eq
  have hlen : (encodeProgram p).length = n := by
    rw [← toByte_symbolsProgram, List.length_map]
    omega
  refine ⟨hlen, decodeProgram_eq_ok.mpr ⟨[], ?_⟩, fun i hi => ?_⟩
  · have hread := decodeProgramAt_encode hfits []
    rwa [List.append_nil] at hread
  · have hia : i < as.length := by omega
    have his : i < (symbolsProgram p).length := by omega
    have hspells : Spells as[i] (symbolsProgram p)[i] := has.get hia his
    refine ⟨(symbolsProgram p)[i], as[i], List.getElem?_eq_getElem his, ?_, ?_⟩
    · rw [List.getElem?_append_left hia, List.getElem?_eq_getElem hia]
    · rw [← toByte_symbolsProgram, List.getElem?_map, List.getElem?_eq_getElem his,
        Option.map_some, hspells.toByte_eq]

section Example

/-- A program with a boolean. -/
def boolProgram : Program := ⟨1, [⟨.store, [.imm (.bool true)]⟩], []⟩

/-- A file of `boolProgram` with another byte for `true`, and a byte more. -/
def boolFile : List U8 :=
  [0x46, 0x53, 0x4D, 0x43, 1, 1, 0, 0, 0, 0x04, 1, 0x10, 7, 0, 0, 0, 0, 0xAA]

theorem decoded_canonical_boolFile :
    (encodeProgram boolProgram).length = 17 ∧
      decodeProgram (encodeProgram boolProgram) = .ok boolProgram ∧
      ∀ i < 17, ∃ s c, (symbolsProgram boolProgram)[i]? = some s ∧ boolFile[i]? = some c ∧
        (encodeProgram boolProgram)[i]? = some (s.rewrite c) :=
  decoded_canonical (rfl : decodeProgramAt boolFile = .ok (boolProgram, [0xAA])) rfl

end Example

/-! ## Truncated files -/

/-- **Truncated bytecode is rejected.**  No strict prefix of the encoding of a program within the
limits of the format is decoded. -/
theorem truncated_rejected {p : Program} (hfits : p.Fits) {bs : List U8}
    (hpre : bs <+: encodeProgram p) (hne : bs ≠ encodeProgram p) :
    ∃ e, decodeProgram bs = .error e := by
  obtain ⟨more, hmore⟩ := hpre
  cases h : decodeProgram bs with
  | error e => exact ⟨e, rfl⟩
  | ok q =>
    obtain ⟨rest, hq⟩ := decodeProgram_eq_ok.mp h
    -- the decoder would read the same program from the whole encoding and leave `more`
    have hall := parses_decodeProgramAt.append hq more
    have hread := decodeProgramAt_encode hfits []
    rw [List.append_nil, ← hmore, hall] at hread
    have hnil : rest ++ more = [] := congrArg Prod.snd (Except.ok.inj hread)
    refine absurd ?_ hne
    rw [← hmore, (List.append_eq_nil_iff.mp hnil).2, List.append_nil]

theorem truncated_rejected_bool :
    ∃ e, decodeProgram ((encodeProgram boolProgram).take 16) = .error e :=
  truncated_rejected (p := boolProgram) (by decide) (List.take_prefix _ _) (by decide)

/-! ## Programs beyond the limits -/

/-- What is read back of a text, and what is left of its bytes: its length is written modulo
`2 ^ 16`. -/
def keptBytes (s : String) : List U8 := (asBytes s).take ((asBytes s).length % 2 ^ 16)

def leftBytes (s : String) : List U8 := (asBytes s).drop ((asBytes s).length % 2 ^ 16)

/-- A string literal of a program: everything in front of it, and everything behind it. -/
structure LiteralAt where
  version : U8
  globalInits : List Instruction
  functionsBefore : List FunctionDef
  name : String
  params : List ParamDescriptor
  instructionsBefore : List Instruction
  opcode : Opcode
  operandsBefore : List Operand
  text : String
  operandsAfter : List Operand
  instructionsAfter : List Instruction
  functionsAfter : List FunctionDef

namespace LiteralAt

variable (l : LiteralAt)

/-- The program with the literal, or with what is read back instead of it and of what is behind
it. -/
def program (text : String) (operands : List Operand) (instructions : List Instruction)
    (functions : List FunctionDef) : Program :=
  ⟨l.version, l.globalInits, l.functionsBefore ++
    ⟨l.name, l.params, l.instructionsBefore ++
      ⟨l.opcode, l.operandsBefore ++ .imm (.str text) :: operands⟩ :: instructions⟩ :: functions⟩

/-- The literal is in the program. -/
def IsIn (p : Program) : Prop :=
  p = l.program l.text l.operandsAfter l.instructionsAfter l.functionsAfter

/-- The literal is beyond the limits of the format, and nothing in front of it is, nor are the
numbers of functions, instructions and operands that are written in front of it. -/
structure FirstLong : Prop where
  globalInits : l.globalInits.length < 2 ^ 32 ∧ ∀ i ∈ l.globalInits, i.Fits
  functions : l.functionsBefore.length + (l.functionsAfter.length + 1) < 2 ^ 32
  functionsBefore : ∀ f ∈ l.functionsBefore, f.Fits
  name : FitsString l.name
  params : l.params.length < 2 ^ 32 ∧ ∀ p ∈ l.params, FitsString p.name
  instructions : l.instructionsBefore.length + (l.instructionsAfter.length + 1) < 2 ^ 32
  instructionsBefore : ∀ i ∈ l.instructionsBefore, i.Fits
  operands : l.operandsBefore.length + (l.operandsAfter.length + 1) ≤ 255
  operandsBefore : ∀ op ∈ l.operandsBefore, op.Fits
  text : ¬ FitsString l.text

/-- The decoder of what is behind the literal: as many operands, instructions and functions. -/
def behind : Decoder (List Operand × List Instruction × List FunctionDef) := do
  let operands ← decodeOperand.count l.operandsAfter.length
  let instructions ← decodeInstruction.count l.instructionsAfter.length
  let functions ← decodeFunction.count l.functionsAfter.length
  return (operands, instructions, functions)

/-- The literal ends in a character of its own text, and what is behind it is read from what is
left of the text. -/
def Reread : Prop :=
  (∃ t, fromUtf8 (keptBytes l.text) = .ok t) ∧ ∃ r, l.behind (leftBytes l.text) = .ok r

/-- The literal ends inside a character, or what is left of its text is not what can be behind
it, whatever follows. -/
def Refused : Prop :=
  (∃ e, fromUtf8 (keptBytes l.text) = .error e) ∨ Refuses l.behind (leftBytes l.text)

/-- The bytes in front of the literal. -/
def bytesBefore : List U8 :=
  magic ++ ([l.version] ++ ((leBytes 4 l.globalInits.length ++
    l.globalInits.flatMap encodeInstruction) ++
      (leBytes 4 (l.functionsBefore.length + (l.functionsAfter.length + 1)) ++
        (l.functionsBefore.flatMap encodeFunction ++
          (encodeString l.name ++ ((leBytes 4 l.params.length ++ l.params.flatMap encodeParam) ++
            (leBytes 4 (l.instructionsBefore.length + (l.instructionsAfter.length + 1)) ++
              (l.instructionsBefore.flatMap encodeInstruction ++
                ([l.opcode.toByte] ++
                  (leBytes 1 (l.operandsBefore.length + (l.operandsAfter.length + 1)) ++
                    l.operandsBefore.flatMap encodeOperand))))))))))

end LiteralAt

/-! ### What is read in front of a literal -/

/-- A format reads what the encoder writes. -/
theorem reads_encode {α : Type} {p : Decoder α} {ok : α → Prop} {symbols : α → List Symbol}
    {e : α → List U8} (hp : Parses Spells p ok symbols)
    (he : ∀ x, (symbols x).map Symbol.toByte = e x) {x : α} (hx : ok x) : Reads p (e x) x := by
  rw [← he]
  exact hp.reads hx (spells_map_toByte _)

/-- A number of at most `n` bytes is read, or what they can hold of it. -/
theorem reads_readLE {w n : Nat} (hw : w = 8 * n) (x : Nat) :
    Reads (readLE w n) (leBytes n x) (BitVec.ofNat w x) := by
  have h := reads_encode (e := fun x => leBytes n x.toNat) (parses_readLE hw)
    (fun x => by rw [List.map_map, toByte_byte, List.map_id]) (x := BitVec.ofNat w x) trivial
  rwa [BitVec.toNat_ofNat, hw, Nat.pow_mul, show 2 ^ 8 = 256 from rfl, leBytes_mod, ← hw] at h

/-- Of a string, the bytes are read that are kept. -/
theorem goesOn_readString (s : String) :
    GoesOn readString (leBytes 2 (asBytes s).length ++ keptBytes s)
      (liftM (fromUtf8 (keptBytes s))) := by
  have hkept : (BitVec.ofNat 16 (asBytes s).length).toNat = (keptBytes s).length := by
    rw [BitVec.toNat_ofNat, keptBytes, List.length_take]
    exact (Nat.min_eq_left (Nat.mod_le _ _)).symm
  have hlen := GoesOn.of_reads (k := fun len => readBytes len.toNat >>= fun bs =>
    (liftM (fromUtf8 bs) : Decoder String)) (reads_readLE (w := 16) (n := 2) rfl (asBytes s).length)
  rw [hkept] at hlen
  exact hlen.trans (GoesOn.of_reads (Reads.take eof (keptBytes s)))

theorem goesOn_decodeOperand (s : String) :
    GoesOn decodeOperand (0x1C :: (leBytes 2 (asBytes s).length ++ keptBytes s))
      (liftM (fromUtf8 (keptBytes s)) >>= fun t => pure (.imm (.str t))) :=
  (GoesOn.of_reads (Reads.item eof 0x1C)).trans ((goesOn_readString s).bind _)

section Partly

variable {as : List U8}

theorem goesOn_decodeInstruction {k : Decoder Operand} (h : GoesOn decodeOperand as k)
    (opcode : Opcode) {ops : List Operand} (hops : ∀ op ∈ ops, op.Fits) {m : Nat}
    (hm : ops.length + (m + 1) ≤ 255) :
    GoesOn decodeInstruction ([opcode.toByte] ++ (leBytes 1 (ops.length + (m + 1)) ++
        (ops.flatMap encodeOperand ++ as)))
      (k >>= fun op => decodeOperand.count m >>= fun ops' =>
        pure ⟨opcode, ops ++ op :: ops'⟩) := by
  have hcount := (h.count m ops fun op hop =>
    reads_encode parses_decodeOperand toByte_symbolsOperand (hops op hop)).bind
      fun ops => pure (Instruction.mk opcode ops)
  simp only [bind_assoc, pure_bind] at hcount
  have hnops : (BitVec.ofNat 8 (ops.length + (m + 1))).toNat = ops.length + (m + 1) := by
    rw [BitVec.toNat_ofNat]
    omega
  rw [← hnops] at hcount
  have hread := (GoesOn.of_reads (k := fun nops => decodeOperand.count nops.toNat >>= fun ops =>
    pure (Instruction.mk opcode ops)) (Reads.item eof _)).trans hcount
  exact (GoesOn.of_reads (Reads.item eof opcode.toByte)).trans
    ((GoesOn.of_reads (Reads.lift (Opcode.tryFrom_toByte opcode))).trans hread)

/-- A counted list, up to an element that is read in part. -/
theorem goesOn_counted {α : Type} {p k : Decoder α} {enc : α → List U8} (h : GoesOn p as k)
    {xs : List α} (hxs : ∀ x ∈ xs, Reads p (enc x) x) {m : Nat}
    (hm : xs.length + (m + 1) < 2 ^ 32) :
    GoesOn (counted p) (leBytes 4 (xs.length + (m + 1)) ++ (xs.flatMap enc ++ as))
      (k >>= fun x => p.count m >>= fun ys => pure (xs ++ x :: ys)) := by
  have hlen := GoesOn.of_reads (k := fun n => p.count n.toNat)
    (reads_readLE (w := 32) (n := 4) rfl (xs.length + (m + 1)))
  rw [BitVec.toNat_ofNat, Nat.mod_eq_of_lt hm] at hlen
  exact hlen.trans (h.count m xs hxs)

theorem reads_counted {α : Type} {p : Decoder α} {ok : α → Prop} {symbols : α → List Symbol}
    {enc : α → List U8} (hp : Parses Spells p ok symbols)
    (henc : ∀ x, (symbols x).map Symbol.toByte = enc x) {xs : List α} (hlen : xs.length < 2 ^ 32)
    (hxs : ∀ x ∈ xs, ok x) : Reads (counted p) (leBytes 4 xs.length ++ xs.flatMap enc) xs := by
  have hsymbols : ((leBytes 4 xs.length).map Symbol.byte ++ xs.flatMap symbols).map Symbol.toByte =
      leBytes 4 xs.length ++ xs.flatMap enc := by
    rw [List.map_append, List.map_map, toByte_byte, List.map_id, List.map_flatMap]
    simp only [henc]
  have hparses := parses_counted hp
  rw [← hsymbols]
  exact hparses.reads ⟨hlen, hxs⟩ (spells_map_toByte _)

theorem reads_readString {s : String} (h : FitsString s) : Reads readString (encodeString s) s :=
  reads_encode parses_readString (fun s => by rw [List.map_map, toByte_byte, List.map_id]) h

theorem goesOn_decodeFunction {k : Decoder Instruction} (h : GoesOn decodeInstruction as k)
    {name : String} (hname : FitsString name) {params : List ParamDescriptor}
    (hparams : params.length < 2 ^ 32 ∧ ∀ p ∈ params, FitsString p.name) {is : List Instruction}
    (his : ∀ i ∈ is, i.Fits) {m : Nat} (hm : is.length + (m + 1) < 2 ^ 32) :
    GoesOn decodeFunction (encodeString name ++ ((leBytes 4 params.length ++
        params.flatMap encodeParam) ++ (leBytes 4 (is.length + (m + 1)) ++
          (is.flatMap encodeInstruction ++ as))))
      (k >>= fun i => decodeInstruction.count m >>= fun is' =>
        pure ⟨name, params, is ++ i :: is'⟩) := by
  have hcount := (goesOn_counted h (fun i hi =>
    reads_encode parses_decodeInstruction toByte_symbolsInstruction (his i hi)) hm).bind
      fun is => pure (FunctionDef.mk name params is)
  simp only [bind_assoc, pure_bind] at hcount
  rw [decodeFunction_eq]
  exact (GoesOn.of_reads (reads_readString hname)).trans
    ((GoesOn.of_reads (reads_counted parses_decodeParam toByte_symbolsParam hparams.1
      hparams.2)).trans hcount)

theorem goesOn_decodeProgramAt {k : Decoder FunctionDef} (h : GoesOn decodeFunction as k)
    (version : U8) {globalInits : List Instruction}
    (hglobals : globalInits.length < 2 ^ 32 ∧ ∀ i ∈ globalInits, i.Fits) {fs : List FunctionDef}
    (hfs : ∀ f ∈ fs, f.Fits) {m : Nat} (hm : fs.length + (m + 1) < 2 ^ 32) :
    GoesOn decodeProgramAt (magic ++ ([version] ++ ((leBytes 4 globalInits.length ++
        globalInits.flatMap encodeInstruction) ++ (leBytes 4 (fs.length + (m + 1)) ++
          (fs.flatMap encodeFunction ++ as)))))
      (k >>= fun f => decodeFunction.count m >>= fun fs' =>
        pure ⟨version, globalInits, fs ++ f :: fs'⟩) := by
  have hcount := (goesOn_counted h (fun f hf =>
    reads_encode parses_decodeFunction toByte_symbolsFunction (hfs f hf)) hm).bind
      fun fs => pure (Program.mk version globalInits fs)
  simp only [bind_assoc, pure_bind] at hcount
  rw [decodeProgramAt_eq]
  exact (GoesOn.of_reads (Reads.take eof magic)).trans
    ((GoesOn.of_reads (Reads.item eof version)).trans
      ((GoesOn.of_reads (reads_counted parses_decodeInstruction toByte_symbolsInstruction
        hglobals.1 hglobals.2)).trans hcount))

end Partly

namespace LiteralAt

variable {l : LiteralAt} {p : Program}

/-- The decoder comes to the literal, and what it reads from there on makes the program. -/
theorem FirstLong.goesOn (h : l.FirstLong) :
    GoesOn decodeProgramAt
      (l.bytesBefore ++ (0x1C :: (leBytes 2 (asBytes l.text).length ++ keptBytes l.text)))
      (liftM (fromUtf8 (keptBytes l.text)) >>= fun t => l.behind >>= fun r =>
        pure (l.program t r.1 r.2.1 r.2.2)) := by
  have hfunc := goesOn_decodeProgramAt
    (goesOn_decodeFunction
      (goesOn_decodeInstruction (goesOn_decodeOperand l.text) l.opcode h.operandsBefore h.operands)
      h.name h.params h.instructionsBefore h.instructions)
    l.version h.globalInits h.functionsBefore h.functions
  simp only [bind_assoc, pure_bind] at hfunc
  simpa only [bytesBefore, behind, program, bind_assoc, pure_bind, List.append_assoc] using hfunc

/-- The encoding of the program, around the literal. -/
theorem encodeProgram_eq (h : l.IsIn p) : ∃ more, encodeProgram p =
    l.bytesBefore ++ (0x1C :: (leBytes 2 (asBytes l.text).length ++ keptBytes l.text)) ++
      (leftBytes l.text ++ more) := by
  refine ⟨l.operandsAfter.flatMap encodeOperand ++ (l.instructionsAfter.flatMap encodeInstruction ++
    l.functionsAfter.flatMap encodeFunction), ?_⟩
  have hstr : encodeOperand (.imm (.str l.text)) =
      0x1C :: (leBytes 2 (asBytes l.text).length ++ keptBytes l.text) ++ leftBytes l.text := by
    rw [encodeOperand, encodeString, keptBytes, leftBytes, List.cons_append, List.append_assoc,
      List.take_append_drop]
  rw [h]
  simp only [encodeProgram, program, bytesBefore, encodeFunction, encodeInstruction, hstr,
    List.flatMap_append, List.flatMap_cons, List.length_append, List.length_cons,
    List.append_assoc, List.cons_append, List.nil_append]

/-- A program with such a literal is beyond the limits. -/
theorem FirstLong.not_fits (h : l.FirstLong) (hp : l.IsIn p) : ¬ p.Fits := by
  intro hfits
  obtain rfl : p = l.program _ _ _ _ := hp
  have hfunc := hfits.2.2.2 _ (List.mem_append_right _ List.mem_cons_self)
  have hinstr := hfunc.2.2.2.2 _ (List.mem_append_right _ List.mem_cons_self)
  exact h.text (hinstr.2 _ (List.mem_append_right _ List.mem_cons_self))

/-- What is read of a file with such a literal. -/
theorem FirstLong.decodeProgramAt (h : l.FirstLong) (hp : l.IsIn p) : ∃ more,
    decodeProgramAt (encodeProgram p) =
      (liftM (fromUtf8 (keptBytes l.text)) >>= fun t => l.behind >>= fun r =>
        pure (l.program t r.1 r.2.1 r.2.2)) (leftBytes l.text ++ more) := by
  obtain ⟨more, hmore⟩ := encodeProgram_eq hp
  exact ⟨more, by rw [hmore, h.goesOn]⟩

theorem local_behind (l : LiteralAt) : Local l.behind :=
  .bind (parses_decodeOperand.count _).append fun _ =>
    .bind (parses_decodeInstruction.count _).append fun _ =>
      .bind (parses_decodeFunction.count _).append fun _ => .pure _

theorem FirstLong.refused (h : l.FirstLong) (hp : l.IsIn p) (hrefused : l.Refused) (q : Program) :
    decodeProgram (encodeProgram p) ≠ .ok q := by
  intro hq
  obtain ⟨rest, hq⟩ := decodeProgram_eq_ok.mp hq
  obtain ⟨more, hmore⟩ := h.decodeProgramAt hp
  rw [hmore] at hq
  cases hkept : fromUtf8 (keptBytes l.text) with
  | error e =>
    rw [hkept] at hq
    cases hq
  | ok t =>
    rw [hkept] at hq
    change Except.bind (l.behind (leftBytes l.text ++ more)) _ = _ at hq
    obtain ⟨e, he⟩ | hno := hrefused
    · rw [hkept] at he
      cases he
    · cases hbehind : l.behind (leftBytes l.text ++ more) with
      | error e => rw [hbehind] at hq; cases hq
      | ok r => exact hno more r hbehind

theorem FirstLong.reread (h : l.FirstLong) (hp : l.IsIn p) (hreread : l.Reread) :
    ∃ q, decodeProgram (encodeProgram p) = .ok q ∧ q ≠ p := by
  obtain ⟨⟨t, hkept⟩, r, hbehind⟩ := hreread
  obtain ⟨more, hmore⟩ := h.decodeProgramAt hp
  have hread : Fasm.decodeProgramAt (encodeProgram p) =
      .ok (l.program t r.1.1 r.1.2.1 r.1.2.2, r.2 ++ more) := by
    rw [hmore, hkept]
    change Except.bind (l.behind (leftBytes l.text ++ more)) _ = _
    rw [l.local_behind hbehind more]
    rfl
  refine ⟨_, decodeProgram_eq_ok.mpr ⟨_, hread⟩, ?_⟩
  -- the program that is read is within the limits
  rintro hsame
  rw [hsame] at hread
  exact h.not_fits hp (parses_decodeProgramAt.sound hread).1

end LiteralAt

/-- Within the limits, only the program is read. -/
theorem decodeProgram_encode_unique (h : p.Fits) {q : Program}
    (hq : decodeProgram (encodeProgram p) = .ok q) : q = p := by
  have hread := decodeProgramAt_encode h []
  rw [List.append_nil] at hread
  obtain ⟨rest, hq⟩ := decodeProgram_eq_ok.mp hq
  cases hread.symm.trans hq
  rfl

/-- **When the decoder returns another program.**  Decoding the encoding of a program returns
nothing but the program if the program is within the limits of the format.  If its first part
beyond the limits is a literal, it returns nothing where what is left of the text cannot be read
as what is behind the literal, and another program where it can. -/
theorem decode_neverAnother (p : Program) :
    (p.Fits → ∀ q, decodeProgram (encodeProgram p) = .ok q → q = p) ∧
    (∀ l : LiteralAt, l.IsIn p → l.FirstLong → l.Refused →
      ∀ q, decodeProgram (encodeProgram p) ≠ .ok q) ∧
    ∀ l : LiteralAt, l.IsIn p → l.FirstLong → l.Reread →
      ∃ q, decodeProgram (encodeProgram p) = .ok q ∧ q ≠ p :=
  ⟨fun h _ hq => decodeProgram_encode_unique h hq,
    fun _ hl hlong hrefused => hlong.refused hl hrefused,
    fun _ hl hlong hreread => hlong.reread hl hreread⟩

section Example

/-- `Main` returns a string. -/
def strMain (s : String) : Program := ⟨1, [], [⟨"Main", [], [⟨.ret, [.imm (.str s)]⟩]⟩]⟩

/-- A string literal of 65536 bytes. -/
def longString : String := String.ofList (List.replicate 65536 'a')

theorem length_asBytes_replicate (n : Nat) :
    (asBytes (String.ofList (List.replicate n 'a'))).length = n := by
  have h : 'a'.utf8Size = 1 := rfl
  simp [asBytes, String.toByteArray_ofList, List.utf8Encode, h]

theorem length_longString : (asBytes longString).length = 65536 := length_asBytes_replicate 65536

/-- Where the length of the literal is written as zero, its bytes follow the last instruction. -/
theorem encodeProgram_strMain {s : String} (hlen : leBytes 2 (asBytes s).length = leBytes 2 0) :
    encodeProgram (strMain s) = encodeProgram (strMain "") ++ asBytes s := by
  have hstr : encodeString s = encodeString "" ++ asBytes s := by
    rw [encodeString, hlen]
    rfl
  simp only [encodeProgram, strMain, encodeFunction, encodeInstruction, encodeOperand,
    List.flatMap_cons, List.flatMap_nil, List.append_nil, hstr, List.append_assoc, List.cons_append]
  rfl

theorem longString_decodes_another :
    decodeProgram (encodeProgram (strMain longString)) = .ok (strMain "") ∧
      strMain "" ≠ strMain longString := by
  have henc :
      encodeProgram (strMain longString) = encodeProgram (strMain "") ++ asBytes longString :=
    encodeProgram_strMain (by rw [length_longString]; rfl)
  constructor
  · rw [henc]
    exact decodeProgram_eq_ok.mpr ⟨_, decodeProgramAt_encode (by decide) _⟩
  · intro h
    rw [← h] at henc
    have hnil : (asBytes longString).length = 0 :=
      congrArg List.length (List.self_eq_append_right.mp henc)
    rw [length_longString] at hnil
    cases hnil

theorem asBytes_replicate_succ (n : Nat) :
    asBytes (String.ofList (List.replicate (n + 1) 'a')) =
      0x61 :: asBytes (String.ofList (List.replicate n 'a')) := by
  rw [asBytes_ofList, asBytes_ofList, List.replicate_succ, List.flatMap_cons]
  rfl

/-- The literal in an instruction, in front of other operands. -/
def longLiteral (opcode : Opcode) (operandsAfter : List Operand) : LiteralAt :=
  ⟨1, [], [], "Main", [], [], opcode, [], longString, operandsAfter, [], []⟩

theorem firstLong_longLiteral (opcode : Opcode) {operandsAfter : List Operand}
    (h : operandsAfter.length < 255) : (longLiteral opcode operandsAfter).FirstLong where
  globalInits := ⟨Nat.two_pow_pos 32, nofun⟩
  functions := (by decide : 0 + (0 + 1) < 2 ^ 32)
  functionsBefore := nofun
  name := (by decide : FitsString "Main")
  params := ⟨Nat.two_pow_pos 32, nofun⟩
  instructions := (by decide : 0 + (0 + 1) < 2 ^ 32)
  instructionsBefore := nofun
  operands := by
    change 0 + (operandsAfter.length + 1) ≤ 255
    omega
  operandsBefore := nofun
  text hfits := by
    rw [FitsString, longLiteral, length_longString] at hfits
    omega

theorem leftBytes_longString :
    leftBytes longString = 0x61 :: asBytes (String.ofList (List.replicate 65535 'a')) := by
  rw [leftBytes, length_longString, show 65536 % 2 ^ 16 = 0 from rfl, List.drop_zero]
  exact asBytes_replicate_succ 65535

/-- No operand begins with the letter, and behind the last operand all is ignored. -/
theorem decode_neverAnother_longLiteral :
    (∀ q, decodeProgram (encodeProgram (strMain "")) = .ok q → q = strMain "") ∧
    (∀ q, decodeProgram (encodeProgram
      ((longLiteral .store [.slot (.local_ 0)]).program longString [.slot (.local_ 0)] [] [])) ≠
        .ok q) ∧
    ∃ q, decodeProgram (encodeProgram (strMain longString)) = .ok q ∧ q ≠ strMain longString := by
  refine ⟨(decode_neverAnother _).1 (by decide), ?_, ?_⟩
  · refine (decode_neverAnother _).2.1 (longLiteral .store [.slot (.local_ 0)]) rfl
      (firstLong_longLiteral .store (by decide)) (.inr fun rest r hr => ?_)
    rw [longLiteral, leftBytes_longString] at hr
    cases hr
  · have hkept : keptBytes longString = [] := by
      rw [keptBytes, length_longString, show 65536 % 2 ^ 16 = 0 from rfl, List.take_zero]
    refine (decode_neverAnother _).2.2 (longLiteral .ret []) rfl
      (firstLong_longLiteral .ret (by decide)) ⟨⟨"", ?_⟩, _, rfl⟩
    rw [longLiteral, hkept]
    rfl

end Example

end Fasm
