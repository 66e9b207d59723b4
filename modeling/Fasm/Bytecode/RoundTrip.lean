import Fasm.Bytecode.Encode

/-!
# The bytecode round trip

Every field of the format is shown to be read back by the reader that the decoder
uses for it (`Parser.Reads`), and the readers are composed along the structure of
a program: operands, instructions, functions, program.  The only conditions are
that no length prefix truncates; they are collected in `Program.Fits`.
-/

namespace Fasm

open Parser Decoder

/-! ## What fits the length prefixes -/

/-- A string whose UTF-8 length fits 16 bits. -/
def FitsString (s : String) : Prop := (asBytes s).length ≤ 65535

instance (s : String) : Decidable (FitsString s) := inferInstanceAs (Decidable (_ ≤ _))

/-- An operand whose string, if it has one, fits. -/
def Operand.Fits : Operand → Prop
  | .imm (.str s) => FitsString s
  | _ => True

instance : (op : Operand) → Decidable op.Fits
  | .imm (.str s) => inferInstanceAs (Decidable (FitsString s))
  | .imm (.bool _) | .imm (.int _ _) | .imm (.float32 _) | .imm (.float64 _) | .imm .null
  | .slot _ | .funcRef _ | .labelTarget _ | .syscallId _ | .type _ | .key _ | .required _ =>
    isTrue trivial

/-- At most 255 operands, each of which fits. -/
def Instruction.Fits (i : Instruction) : Prop :=
  i.operands.length ≤ 255 ∧ ∀ op ∈ i.operands, op.Fits

instance (i : Instruction) : Decidable i.Fits := inferInstanceAs (Decidable (_ ∧ _))

/-- Names fit, and the params and the instructions can be counted in 32 bits. -/
def FunctionDef.Fits (f : FunctionDef) : Prop :=
  FitsString f.name ∧ f.params.length < 2 ^ 32 ∧ (∀ p ∈ f.params, FitsString p.name) ∧
    f.instructions.length < 2 ^ 32 ∧ ∀ i ∈ f.instructions, i.Fits

instance (f : FunctionDef) : Decidable f.Fits := inferInstanceAs (Decidable (_ ∧ _))

/-- The limits of the file format: no length prefix of the encoding of `p` truncates. -/
def Program.Fits (p : Program) : Prop :=
  p.globalInits.length < 2 ^ 32 ∧ (∀ i ∈ p.globalInits, i.Fits) ∧
    p.functions.length < 2 ^ 32 ∧ ∀ f ∈ p.functions, f.Fits

instance (p : Program) : Decidable p.Fits := inferInstanceAs (Decidable (_ ∧ _))

/-! ## Symbols

The encoder writes bytes and booleans, and a boolean may be spelled by more bytes than the
one that the encoder writes. -/

/-- What the encoder writes. -/
inductive Symbol where
  | byte (b : U8)
  | bool (v : Bool)
deriving DecidableEq, Repr

/-- The byte that the encoder writes. -/
def Symbol.toByte : Symbol → U8
  | byte b => b
  | bool v => boolByte v

/-- The bytes that the decoder accepts. -/
def Spells (c : U8) : Symbol → Prop
  | .byte b => c = b
  | .bool v => (c != 0) = v

/-- The symbols of an operand. -/
def symbolsOperand : Operand → List Symbol
  | .imm (.bool v) => [.byte 0x10, .bool v]
  | .required r => [.byte 0x25, .bool r]
  | op => (encodeOperand op).map .byte

/-- The symbols of an instruction. -/
def symbolsInstruction (i : Instruction) : List Symbol :=
  .byte i.opcode.toByte ::
    ((leBytes 1 i.operands.length).map .byte ++ i.operands.flatMap symbolsOperand)

/-- The symbols of a param. -/
def symbolsParam (p : ParamDescriptor) : List Symbol :=
  (leBytes 4 p.key.toNat).map .byte ++
    (.byte p.fasmType.toByte :: .bool p.required :: (encodeString p.name).map .byte)

/-- The symbols of a function. -/
def symbolsFunction (f : FunctionDef) : List Symbol :=
  (encodeString f.name).map .byte ++
    (((leBytes 4 f.params.length).map .byte ++ f.params.flatMap symbolsParam) ++
      ((leBytes 4 f.instructions.length).map .byte ++ f.instructions.flatMap symbolsInstruction))

/-- The symbols of a program. -/
def symbolsProgram (p : Program) : List Symbol :=
  magic.map .byte ++ (.byte p.version ::
    (((leBytes 4 p.globalInits.length).map .byte ++ p.globalInits.flatMap symbolsInstruction) ++
      ((leBytes 4 p.functions.length).map .byte ++ p.functions.flatMap symbolsFunction)))

theorem spells_byte (b c : U8) : Spells b (.byte c) ↔ b = c := Iff.rfl

/-- A symbol is spelled by the byte that the encoder writes. -/
theorem spells_toByte (s : Symbol) : Spells s.toByte s := by
  cases s with
  | byte b => rfl
  | bool v => cases v <;> rfl

theorem spells_map_toByte (ss : List Symbol) : List.Forall₂ Spells (ss.map Symbol.toByte) ss := by
  rw [List.forall₂_map_left_iff, List.forall₂_same]
  exact fun s _ => spells_toByte s

@[simp] theorem toByte_byte : Symbol.toByte ∘ Symbol.byte = id := rfl

/-- The encoder writes the bytes of the symbols. -/
theorem toByte_symbolsOperand (op : Operand) :
    (symbolsOperand op).map Symbol.toByte = encodeOperand op := by
  unfold symbolsOperand
  split
  · rfl
  · rfl
  · rw [List.map_map, toByte_byte, List.map_id]

theorem toByte_symbolsInstruction (i : Instruction) :
    (symbolsInstruction i).map Symbol.toByte = encodeInstruction i := by
  simp [symbolsInstruction, encodeInstruction, List.map_flatMap, toByte_symbolsOperand,
    Symbol.toByte]

theorem toByte_symbolsParam (p : ParamDescriptor) :
    (symbolsParam p).map Symbol.toByte = encodeParam p := by
  simp [symbolsParam, encodeParam, Symbol.toByte]

theorem toByte_symbolsFunction (f : FunctionDef) :
    (symbolsFunction f).map Symbol.toByte = encodeFunction f := by
  simp [symbolsFunction, encodeFunction, List.map_flatMap, toByte_symbolsParam,
    toByte_symbolsInstruction]

theorem toByte_symbolsProgram (p : Program) :
    (symbolsProgram p).map Symbol.toByte = encodeProgram p := by
  simp [symbolsProgram, encodeProgram, List.map_flatMap, toByte_symbolsFunction,
    toByte_symbolsInstruction, Symbol.toByte]

/-! ## Fields -/

theorem parses_readU8 : Parses Spells readU8 (fun _ => True) fun b => [.byte b] :=
  Parses.item eof spells_byte

theorem parses_readBytes (n : Nat) : Parses Spells (readBytes n) (·.length = n) (·.map .byte) :=
  Parses.take eof spells_byte n

theorem parses_readLE {w n : Nat} (hw : w = 8 * n) :
    Parses Spells (readLE w n) (fun _ => True) fun x => (leBytes n x.toNat).map .byte := by
  constructor
  · intro x as _ has
    have h := (parses_readBytes n).reads (length_leBytes n x.toNat) has
    have hmap := h.map (f := fun bs => BitVec.ofNat w (ofLe bs))
    rwa [ofNat_ofLe_leBytes hw] at hmap
  · intro bs x rest h
    change Except.bind (readBytes n bs) (fun r => .ok (BitVec.ofNat w (ofLe r.1), r.2)) = _ at h
    cases hx : readBytes n bs with
    | error e => rw [hx] at h; cases h
    | ok r =>
      rw [hx] at h
      cases h
      obtain ⟨hlen, hread⟩ := (parses_readBytes n).sound hx
      rw [leBytes_ofNat_ofLe hw hlen]
      exact ⟨trivial, hread⟩

theorem parses_u16 : Parses Spells (readLE 16 2) (fun _ => True)
    fun x => (leBytes 2 x.toNat).map .byte :=
  parses_readLE rfl

theorem parses_u32 : Parses Spells (readLE 32 4) (fun _ => True)
    fun x => (leBytes 4 x.toNat).map .byte :=
  parses_readLE rfl

theorem parses_u64 : Parses Spells (readLE 64 8) (fun _ => True)
    fun x => (leBytes 8 x.toNat).map .byte :=
  parses_readLE rfl

theorem parses_bool : Parses Spells readBool (fun _ => True) fun v => [.bool v] := by
  constructor
  · intro v as _ has
    obtain ⟨c, as', hc, hnil, rfl⟩ := List.forall₂_cons_right_iff.mp has
    rw [List.forall₂_nil_right_iff.mp hnil, ← (hc : (c != 0) = v)]
    exact (Reads.item eof c).map
  · intro bs v rest h
    cases bs with
    | nil => cases h
    | cons c bs =>
      cases h
      exact ⟨trivial, [c], rfl, .cons rfl .nil⟩

/-- The number that a prefix of `w` bits holds. -/
theorem eq_toNat_iff {w n : Nat} (m : BitVec w) :
    n = m.toNat ↔ BitVec.ofNat w n = m ∧ n < 2 ^ w := by
  constructor
  · rintro rfl
    exact ⟨by rw [BitVec.ofNat_toNat, BitVec.setWidth_eq], m.isLt⟩
  · rintro ⟨rfl, hlt⟩
    rw [BitVec.toNat_ofNat, Nat.mod_eq_of_lt hlt]

/-- A length or count prefix, and what is read with it. -/
theorem parses_prefixed {α : Type} {k : Nat → Decoder α} {w n : Nat} (hw : w = 8 * n)
    {len : α → Nat} {ok : α → Prop} {symbols : α → List Symbol}
    (hk : ∀ m, Parses Spells (k m) (fun x => len x = m ∧ ok x) symbols) :
    Parses Spells (readLE w n >>= fun m => k m.toNat) (fun x => len x < 2 ^ w ∧ ok x)
      fun x => (leBytes n (len x)).map .byte ++ symbols x := by
  have hk' : ∀ m : BitVec w, Parses Spells (k m.toNat)
      (fun x => BitVec.ofNat w (len x) = m ∧ len x < 2 ^ w ∧ ok x) symbols := fun m =>
    (hk m.toNat).congr (fun x => by rw [eq_toNat_iff, and_assoc]) fun _ _ => rfl
  refine ((parses_readLE hw).field (fun x => BitVec.ofNat w (len x)) hk').congr
    (fun x => by rw [true_and]) fun x hx => ?_
  rw [BitVec.toNat_ofNat, Nat.mod_eq_of_lt hx.1]

theorem parses_readString :
    Parses Spells readString FitsString fun s => (encodeString s).map .byte := by
  have hk : ∀ n, Parses Spells (readBytes n >>= fun bs => liftM (fromUtf8 bs) : Decoder String)
      (fun s => (asBytes s).length = n ∧ True) fun s => (asBytes s).map .byte := fun n => by
    have hlift : ∀ bs : List U8, Parses Spells (liftM (fromUtf8 bs) : Decoder String)
        (fun s => asBytes s = bs ∧ True) fun _ => [] := fun bs =>
      (Parses.lift (fromUtf8 bs)).congr
        (fun s => by rw [fromUtf8_eq_ok, and_true, eq_comm]) fun _ _ => rfl
    exact ((parses_readBytes n).field asBytes hlift).congr (fun _ => Iff.rfl)
      fun s _ => List.append_nil _
  refine (parses_prefixed (w := 16) (n := 2) rfl hk).congr (fun s => ?_) fun s _ => ?_
  · rw [and_true, FitsString]
    omega
  · rw [encodeString, List.map_append]

/-- A count, then that many elements. -/
abbrev counted {α : Type} (p : Decoder α) : Decoder (List α) := do
  let k ← readLE 32 4
  p.count k.toNat

theorem parses_counted {α : Type} {p : Decoder α} {ok : α → Prop} {symbols : α → List Symbol}
    (hp : Parses Spells p ok symbols) :
    Parses Spells (counted p) (fun xs => xs.length < 2 ^ 32 ∧ ∀ x ∈ xs, ok x)
      fun xs => (leBytes 4 xs.length).map .byte ++ xs.flatMap symbols :=
  parses_prefixed rfl hp.count

/-! ## Operands and instructions -/

/-- A byte that names a constructor, and what is read with it. -/
theorem parses_tryFrom {α β : Type} {tryFrom : U8 → Except String α} {toByte : α → U8}
    (htry : ∀ b a, tryFrom b = .ok a ↔ b = toByte a) {k : α → Decoder β} {ok : β → Prop}
    {symbols : β → List Symbol} (proj : β → α)
    (hk : ∀ a, Parses Spells (k a) (fun y => proj y = a ∧ ok y) symbols) :
    Parses Spells (readU8 >>= fun b => (liftM (tryFrom b) : Decoder α) >>= k) ok
      fun y => .byte (toByte (proj y)) :: symbols y := by
  have hbyte : ∀ b, Parses Spells ((liftM (tryFrom b) : Decoder α) >>= k)
      (fun y => toByte (proj y) = b ∧ ok y) symbols := fun b =>
    ((Parses.lift (tryFrom b)).field proj hk).congr
      (fun y => by rw [htry, eq_comm]) fun _ _ => rfl
  exact (parses_readU8.field (fun y => toByte (proj y)) hbyte).congr
    (fun y => by rw [true_and]) fun _ _ => rfl

/-- A byte that names a constructor. -/
theorem parses_name {α : Type} {tryFrom : U8 → Except String α} {toByte : α → U8}
    (htry : ∀ b a, tryFrom b = .ok a ↔ b = toByte a) :
    Parses Spells (readU8 >>= fun b => (liftM (tryFrom b) : Decoder α)) (fun _ => True)
      fun a => [.byte (toByte a)] := by
  have hpure : ∀ a, Parses Spells (pure a : Decoder α) (fun y => id y = a ∧ True) fun _ => [] :=
    fun a => (Parses.pure a).congr (fun y => by rw [and_true, id]) fun _ _ => rfl
  have h := parses_tryFrom htry id hpure
  simpa only [bind_pure, id] using h

section Payload

variable {α : Type} {p : Decoder α} {ok : α → Prop} {symbols : α → List Symbol} {tag : U8}
  {f : α → Operand}

/-- An operand is read as its tag and its payload. -/
theorem reads_payload (hp : Parses Spells p ok symbols)
    (hf : decodePayload tag = p >>= fun a => pure (f a)) {a : α} (ha : ok a) {as : List U8}
    (has : List.Forall₂ Spells as (.byte tag :: symbols a)) : Reads decodeOperand as (f a) := by
  obtain ⟨b, as', hb, has', rfl⟩ := List.forall₂_cons_right_iff.mp has
  obtain rfl : b = tag := hb
  refine (Reads.item eof b).bind ?_
  rw [hf]
  exact (hp.reads ha has').map

/-- A payload that is read is the payload of an operand with the tag. -/
theorem sound_payload (hp : Parses Spells p ok symbols)
    (hf : decodePayload tag = p >>= fun a => pure (f a)) (hfits : ∀ a, ok a → (f a).Fits)
    (hsym : ∀ a, symbolsOperand (f a) = .byte tag :: symbols a) {bs rest : List U8} {op : Operand}
    (h : decodePayload tag bs = .ok (op, rest)) :
    op.Fits ∧ ∃ as, tag :: bs = as ++ rest ∧ List.Forall₂ Spells as (symbolsOperand op) := by
  rw [hf] at h
  change Except.bind (p bs) (fun r => .ok (f r.1, r.2)) = _ at h
  cases hx : p bs with
  | error e => rw [hx] at h; cases h
  | ok r =>
    rw [hx] at h
    cases h
    obtain ⟨hok, as, rfl, has⟩ := hp.sound hx
    refine ⟨hfits _ hok, tag :: as, rfl, ?_⟩
    rw [hsym]
    exact .cons rfl has

end Payload

theorem parses_builtIn : Parses Spells
    (readU8 >>= fun b => (liftM (BuiltIn.tryFrom b) : Decoder BuiltIn)) (fun _ => True)
    fun b => [.byte b.toByte] :=
  parses_name fun _ _ => BuiltIn.tryFrom_eq_ok

theorem parses_fasmType : Parses Spells
    (readU8 >>= fun b => (liftM (FasmType.tryFrom b) : Decoder FasmType)) (fun _ => True)
    fun t => [.byte t.toByte] :=
  parses_name fun _ _ => FasmType.tryFrom_eq_ok

theorem parses_intTy (t : IntTy) : Parses Spells (readLE t.width t.bytes) (fun _ => True)
    fun n => (leBytes t.bytes n.toNat).map .byte :=
  parses_readLE t.width_eq_bytes

theorem decodePayload_builtIn : decodePayload 0x06 =
    (readU8 >>= fun b => (liftM (BuiltIn.tryFrom b) : Decoder BuiltIn)) >>=
      fun b => pure (.slot (.builtIn b)) :=
  (bind_assoc _ _ _).symm

theorem decodePayload_type : decodePayload 0x23 =
    (readU8 >>= fun b => (liftM (FasmType.tryFrom b) : Decoder FasmType)) >>=
      fun t => pure (.type t) :=
  (bind_assoc _ _ _).symm

/-- The decoder reads back every operand that the encoder writes. -/
theorem reads_decodeOperand {op : Operand} {as : List U8} (h : op.Fits)
    (has : List.Forall₂ Spells as (symbolsOperand op)) : Reads decodeOperand as op := by
  cases op with
  | slot s =>
    cases s with
    | local_ i => exact reads_payload parses_readU8 rfl trivial has
    | global i => exact reads_payload parses_u16 rfl trivial has
    | tmp i => exact reads_payload parses_readU8 rfl trivial has
    | derefLocal i => exact reads_payload parses_readU8 rfl trivial has
    | derefGlobal i => exact reads_payload parses_u16 rfl trivial has
    | derefTmp i => exact reads_payload parses_readU8 rfl trivial has
    | builtIn b => exact reads_payload parses_builtIn decodePayload_builtIn trivial has
  | imm i =>
    cases i with
    | bool v => exact reads_payload parses_bool rfl trivial has
    | int t n => cases t <;> exact reads_payload (parses_intTy _) rfl trivial has
    | float32 bits => exact reads_payload parses_u32 rfl trivial has
    | float64 bits => exact reads_payload parses_u64 rfl trivial has
    | null => exact reads_payload (f := fun _ => .imm .null) (Parses.pure ()) rfl rfl has
    | str s => exact reads_payload parses_readString rfl h has
  | funcRef i => exact reads_payload parses_u16 rfl trivial has
  | labelTarget a => exact reads_payload parses_u32 rfl trivial has
  | syscallId i => exact reads_payload parses_u32 rfl trivial has
  | type t => exact reads_payload parses_fasmType decodePayload_type trivial has
  | key k => exact reads_payload parses_u32 rfl trivial has
  | required r => exact reads_payload parses_bool rfl trivial has

/-- The decoder reads only operands that the encoder writes. -/
theorem sound_decodePayload {tag : U8} {bs rest : List U8} {op : Operand}
    (h : decodePayload tag bs = .ok (op, rest)) :
    op.Fits ∧ ∃ as, tag :: bs = as ++ rest ∧ List.Forall₂ Spells as (symbolsOperand op) := by
  have htag : ∀ n : Nat, tag.toNat = n → tag = BitVec.ofNat 8 n := fun n hn => by
    rw [← hn, BitVec.ofNat_toNat, BitVec.setWidth_eq]
  have hcopy := h
  unfold decodePayload at hcopy
  generalize hn : tag.toNat = n at hcopy
  split at hcopy
  all_goals try cases htag _ hn
  · exact sound_payload (f := fun i => .slot (.local_ i)) parses_readU8 rfl
      (fun _ _ => trivial) (fun _ => rfl) h
  · exact sound_payload (f := fun i => .slot (.global i)) parses_u16 rfl
      (fun _ _ => trivial) (fun _ => rfl) h
  · exact sound_payload (f := fun i => .slot (.tmp i)) parses_readU8 rfl
      (fun _ _ => trivial) (fun _ => rfl) h
  · exact sound_payload (f := fun i => .slot (.derefLocal i)) parses_readU8 rfl
      (fun _ _ => trivial) (fun _ => rfl) h
  · exact sound_payload (f := fun i => .slot (.derefGlobal i)) parses_u16 rfl
      (fun _ _ => trivial) (fun _ => rfl) h
  · exact sound_payload (f := fun i => .slot (.derefTmp i)) parses_readU8 rfl
      (fun _ _ => trivial) (fun _ => rfl) h
  · exact sound_payload (f := fun b => .slot (.builtIn b)) parses_builtIn decodePayload_builtIn
      (fun _ _ => trivial) (fun _ => rfl) h
  · exact sound_payload (f := fun v => .imm (.bool v)) parses_bool rfl
      (fun _ _ => trivial) (fun _ => rfl) h
  · exact sound_payload (f := fun n => .imm (.int .int8 n)) (parses_intTy .int8) rfl
      (fun _ _ => trivial) (fun _ => rfl) h
  · exact sound_payload (f := fun n => .imm (.int .int16 n)) (parses_intTy .int16) rfl
      (fun _ _ => trivial) (fun _ => rfl) h
  · exact sound_payload (f := fun n => .imm (.int .int32 n)) (parses_intTy .int32) rfl
      (fun _ _ => trivial) (fun _ => rfl) h
  · exact sound_payload (f := fun n => .imm (.int .int64 n)) (parses_intTy .int64) rfl
      (fun _ _ => trivial) (fun _ => rfl) h
  · exact sound_payload (f := fun n => .imm (.int .uint8 n)) (parses_intTy .uint8) rfl
      (fun _ _ => trivial) (fun _ => rfl) h
  · exact sound_payload (f := fun n => .imm (.int .uint16 n)) (parses_intTy .uint16) rfl
      (fun _ _ => trivial) (fun _ => rfl) h
  · exact sound_payload (f := fun n => .imm (.int .uint32 n)) (parses_intTy .uint32) rfl
      (fun _ _ => trivial) (fun _ => rfl) h
  · exact sound_payload (f := fun n => .imm (.int .uint64 n)) (parses_intTy .uint64) rfl
      (fun _ _ => trivial) (fun _ => rfl) h
  · exact sound_payload (f := fun b => .imm (.float32 b)) parses_u32 rfl
      (fun _ _ => trivial) (fun _ => rfl) h
  · exact sound_payload (f := fun b => .imm (.float64 b)) parses_u64 rfl
      (fun _ _ => trivial) (fun _ => rfl) h
  · exact sound_payload (f := fun _ => .imm .null) (Parses.pure ()) rfl
      (fun _ _ => trivial) (fun _ => rfl) h
  · exact sound_payload (f := fun s => .imm (.str s)) parses_readString rfl
      (fun _ h => h) (fun _ => rfl) h
  · exact sound_payload (f := fun i => .funcRef i) parses_u16 rfl
      (fun _ _ => trivial) (fun _ => rfl) h
  · exact sound_payload (f := fun a => .labelTarget a) parses_u32 rfl
      (fun _ _ => trivial) (fun _ => rfl) h
  · exact sound_payload (f := fun i => .syscallId i) parses_u32 rfl
      (fun _ _ => trivial) (fun _ => rfl) h
  · exact sound_payload (f := fun t => .type t) parses_fasmType decodePayload_type
      (fun _ _ => trivial) (fun _ => rfl) h
  · exact sound_payload (f := fun k => .key k) parses_u32 rfl
      (fun _ _ => trivial) (fun _ => rfl) h
  · exact sound_payload (f := fun r => .required r) parses_bool rfl
      (fun _ _ => trivial) (fun _ => rfl) h
  · cases hcopy

theorem parses_decodeOperand : Parses Spells decodeOperand Operand.Fits symbolsOperand := by
  constructor
  · exact reads_decodeOperand
  · intro bs op rest h
    cases bs with
    | nil => cases h
    | cons tag bs => exact sound_decodePayload h

/-- The decoder reads exactly the instructions that the encoder writes. -/
theorem parses_decodeInstruction :
    Parses Spells decodeInstruction Instruction.Fits symbolsInstruction := by
  have hops : ∀ (opcode : Opcode) (nops : U8), Parses Spells
      (decodeOperand.count nops.toNat >>= fun operands => pure (Instruction.mk opcode operands))
      (fun i => BitVec.ofNat 8 i.operands.length = nops ∧ i.opcode = opcode ∧ i.Fits)
      fun i => i.operands.flatMap symbolsOperand := fun opcode nops => by
    refine ((parses_decodeOperand.count nops.toNat).map Instruction.operands fun _ => rfl).congr
      (fun i => ?_) fun _ _ => rfl
    rw [eq_toNat_iff, Instruction.Fits]
    constructor
    · rintro ⟨⟨⟨hn, hlt⟩, hall⟩, hi⟩
      exact ⟨hn, congrArg Instruction.opcode hi, Nat.le_of_lt_succ hlt, hall⟩
    · rintro ⟨hn, rfl, hle, hall⟩
      exact ⟨⟨⟨hn, Nat.lt_succ_of_le hle⟩, hall⟩, rfl⟩
  exact parses_tryFrom (fun _ _ => Opcode.tryFrom_eq_ok) Instruction.opcode fun opcode =>
    (parses_readU8.field (fun i => BitVec.ofNat 8 i.operands.length) (hops opcode)).congr
      (fun _ => by rw [true_and]) fun _ _ => rfl

/-! ## Functions and programs -/

theorem parses_decodeParam :
    Parses Spells decodeParam (fun p => FitsString p.name) symbolsParam := by
  have hname : ∀ (key : U32) (t : FasmType) (required : Bool), Parses Spells
      (readString >>= fun name => pure (ParamDescriptor.mk key t name required))
      (fun p => p.required = required ∧ p.fasmType = t ∧ p.key = key ∧ FitsString p.name)
      fun p => (encodeString p.name).map .byte := fun key t required => by
    refine (parses_readString.map ParamDescriptor.name fun _ => rfl).congr (fun p => ?_)
      fun _ _ => rfl
    constructor
    · rintro ⟨hfits, hp⟩
      rw [hp]
      exact ⟨rfl, rfl, rfl, hfits⟩
    · rintro ⟨rfl, rfl, rfl, hfits⟩
      exact ⟨hfits, rfl⟩
  have hreq : ∀ (key : U32) (t : FasmType), Parses Spells
      (readBool >>= fun required => readString >>= fun name =>
        pure (ParamDescriptor.mk key t name required))
      (fun p => p.fasmType = t ∧ p.key = key ∧ FitsString p.name)
      fun p => .bool p.required :: (encodeString p.name).map .byte := fun key t =>
    (parses_bool.field ParamDescriptor.required (hname key t)).congr
      (fun _ => by rw [true_and]) fun _ _ => rfl
  have htype := fun key : U32 =>
    parses_tryFrom (fun _ _ => FasmType.tryFrom_eq_ok) ParamDescriptor.fasmType (hreq key)
  exact (parses_u32.field ParamDescriptor.key htype).congr (fun _ => by rw [true_and])
    fun _ _ => rfl

theorem decodeFunction_eq : decodeFunction =
    readString >>= fun name => counted decodeParam >>= fun params =>
      counted decodeInstruction >>= fun instructions =>
        pure (FunctionDef.mk name params instructions) := by
  simp [decodeFunction]

/-- The decoder reads exactly the functions that the encoder writes. -/
theorem parses_decodeFunction : Parses Spells decodeFunction FunctionDef.Fits symbolsFunction := by
  have hinstrs : ∀ (name : String) (params : List ParamDescriptor), Parses Spells
      (counted decodeInstruction >>= fun instructions =>
        pure (FunctionDef.mk name params instructions))
      (fun f => f.params = params ∧ f.name = name ∧
        f.instructions.length < 2 ^ 32 ∧ ∀ i ∈ f.instructions, i.Fits)
      fun f => (leBytes 4 f.instructions.length).map .byte ++
        f.instructions.flatMap symbolsInstruction := fun name params => by
    refine ((parses_counted parses_decodeInstruction).map FunctionDef.instructions
      fun _ => rfl).congr (fun f => ?_) fun _ _ => rfl
    constructor
    · rintro ⟨hfits, hf⟩
      rw [hf]
      exact ⟨rfl, rfl, hfits⟩
    · rintro ⟨rfl, rfl, hfits⟩
      exact ⟨hfits, rfl⟩
  have hparams : ∀ name : String, Parses Spells
      (counted decodeParam >>= fun params => counted decodeInstruction >>= fun instructions =>
        pure (FunctionDef.mk name params instructions))
      (fun f => f.name = name ∧ (f.params.length < 2 ^ 32 ∧ ∀ p ∈ f.params, FitsString p.name) ∧
        f.instructions.length < 2 ^ 32 ∧ ∀ i ∈ f.instructions, i.Fits)
      fun f => ((leBytes 4 f.params.length).map .byte ++ f.params.flatMap symbolsParam) ++
        ((leBytes 4 f.instructions.length).map .byte ++
          f.instructions.flatMap symbolsInstruction) := fun name =>
    ((parses_counted parses_decodeParam).field FunctionDef.params (hinstrs name)).congr
      (fun _ => and_left_comm) fun _ _ => rfl
  rw [decodeFunction_eq]
  exact (parses_readString.field FunctionDef.name hparams).congr
    (fun f => by rw [FunctionDef.Fits, and_assoc]) fun _ _ => rfl

theorem decodeProgramAt_eq : decodeProgramAt =
    readBytes 4 >>= fun m => if m ≠ magic then
      Parser.fail "Invalid magic bytes — not a FASMC file"
    else readU8 >>= fun version => counted decodeInstruction >>= fun globalInits =>
      counted decodeFunction >>= fun functions =>
        pure (Program.mk version globalInits functions) := by
  simp [decodeProgramAt]

/-- The decoder reads exactly the programs that the encoder writes. -/
theorem parses_decodeProgramAt : Parses Spells decodeProgramAt Program.Fits symbolsProgram := by
  have hfuncs : ∀ (version : U8) (globalInits : List Instruction), Parses Spells
      (counted decodeFunction >>= fun functions =>
        pure (Program.mk version globalInits functions))
      (fun p => p.globalInits = globalInits ∧ p.version = version ∧
        p.functions.length < 2 ^ 32 ∧ ∀ f ∈ p.functions, f.Fits)
      fun p => (leBytes 4 p.functions.length).map .byte ++ p.functions.flatMap symbolsFunction :=
    fun version globalInits => by
      refine ((parses_counted parses_decodeFunction).map Program.functions fun _ => rfl).congr
        (fun p => ?_) fun _ _ => rfl
      constructor
      · rintro ⟨hfits, hp⟩
        rw [hp]
        exact ⟨rfl, rfl, hfits⟩
      · rintro ⟨rfl, rfl, hfits⟩
        exact ⟨hfits, rfl⟩
  have hglobals : ∀ version : U8, Parses Spells
      (counted decodeInstruction >>= fun globalInits => counted decodeFunction >>= fun functions =>
        pure (Program.mk version globalInits functions))
      (fun p => p.version = version ∧
        (p.globalInits.length < 2 ^ 32 ∧ ∀ i ∈ p.globalInits, i.Fits) ∧
        p.functions.length < 2 ^ 32 ∧ ∀ f ∈ p.functions, f.Fits)
      fun p => ((leBytes 4 p.globalInits.length).map .byte ++
          p.globalInits.flatMap symbolsInstruction) ++
        ((leBytes 4 p.functions.length).map .byte ++ p.functions.flatMap symbolsFunction) :=
    fun version =>
      ((parses_counted parses_decodeInstruction).field Program.globalInits (hfuncs version)).congr
        (fun _ => and_left_comm) fun _ _ => rfl
  have hversion := (parses_readU8.field Program.version hglobals).congr
    (fun p => by rw [true_and, and_assoc, ← Program.Fits]) fun _ _ => rfl
  have hmagic : ∀ m : List U8, Parses Spells (if m ≠ magic then
        Parser.fail "Invalid magic bytes — not a FASMC file"
      else readU8 >>= fun version => counted decodeInstruction >>= fun globalInits =>
        counted decodeFunction >>= fun functions =>
          pure (Program.mk version globalInits functions))
      (fun p => magic = m ∧ p.Fits) _ := fun m => by
    by_cases hm : m = magic
    · rw [if_neg (not_not.mpr hm)]
      exact hversion.congr (fun _ => by rw [hm, eq_self, true_and]) fun _ _ => rfl
    · rw [if_pos hm]
      exact (Parses.fail _).congr (fun _ => by rw [false_iff]; exact fun h => hm h.1.symm)
        fun _ _ => rfl
  rw [decodeProgramAt_eq]
  exact ((parses_readBytes 4).field (fun _ => magic) hmagic).congr
    (fun _ => and_iff_right rfl) fun _ _ => rfl

/-- The decoder reads an encoded program to its end. -/
theorem decodeProgramAt_encode {p : Program} (h : p.Fits) (rest : List U8) :
    decodeProgramAt (encodeProgram p ++ rest) = .ok (p, rest) := by
  have hspells : List.Forall₂ Spells (encodeProgram p) (symbolsProgram p) := by
    rw [← toByte_symbolsProgram]
    exact spells_map_toByte _
  exact parses_decodeProgramAt.reads h hspells rest

/-- Decoding an encoded program returns the program, for every program within the
limits of the format. -/
theorem decodeProgram_encodeProgram (p : Program) (h : p.Fits) :
    decodeProgram (encodeProgram p) = .ok p := by
  have hread := decodeProgramAt_encode h []
  rw [List.append_nil] at hread
  rw [decodeProgram, hread]
  rfl

theorem decodeProgram_encodeProgram_main :
    decodeProgram (encodeProgram ⟨1, [], [⟨"Main", [⟨7, .int .int16, "x", true⟩],
      [⟨.store, [.imm (.int .int16 (-2)), .slot (.local_ 0)]⟩, ⟨.ret, [.imm (.str "ok")]⟩]⟩]⟩) =
      .ok ⟨1, [], [⟨"Main", [⟨7, .int .int16, "x", true⟩],
        [⟨.store, [.imm (.int .int16 (-2)), .slot (.local_ 0)]⟩, ⟨.ret, [.imm (.str "ok")]⟩]⟩]⟩ :=
  decodeProgram_encodeProgram _ (by decide)

end Fasm
