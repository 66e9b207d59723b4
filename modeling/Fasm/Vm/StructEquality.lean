import Mathlib.Data.Option.Basic
import Fasm.Vm.Indexing
import Fasm.Vm.ResultTypes

/-!
# Equality of structs

A `STRUCT` is a map, but it is stored as the list of its fields in the order in which their keys
were first set, and `EQ` compares those lists.  Structs with the same fields are `EQ` only if their
keys are in the same order; and since what is inside of a value is compared with its type, they are
not if a field is a number of one type in one of them and the same number of another type in the
other.
-/

namespace Fasm

namespace Value

variable {x y : Value}

/-- Equal values have one type. -/
theorem fasmType_of_beq (h : x.beq y = true) : x.fasmType = y.fasmType := by
  cases x <;> cases y <;> first | rfl | cases h | skip
  rename_i t m t' n
  rw [beq, Bool.and_eq_true] at h
  exact congrArg FasmType.int (beq_iff_eq.mp h.1)

/-- Of values of one type `EQ` is equality by structure. -/
theorem eqVal_of_fasmType_eq (h : x.fasmType = y.fasmType) : x.eqVal y = x.beq y := by
  cases x with
  | bool a =>
    cases y with
    | bool b => cases a <;> cases b <;> rfl
    | _ => cases h
  | int t m =>
    cases y with
    | int t' n =>
      injection h with h
      subst h
      have hinj : asI64 t m = asI64 t n ↔ m.toNat = n.toNat := by
        rw [BitVec.toNat_inj]
        refine ⟨fun heq => ?_, congrArg _⟩
        rw [← setWidth_asI64 t m, heq, setWidth_asI64]
      rw [beq, beq_self_eq_true, Bool.true_and]
      exact Bool.eq_iff_iff.mpr (beq_iff_eq.trans (hinj.trans beq_iff_eq.symm))
    | _ => cases h
  | float32 f => cases y with
    | float32 g => rfl
    | _ => cases h
  | float64 f => cases y with
    | float64 g => rfl
    | _ => cases h
  | _ => rfl

theorem beq_iff_eqVal : x.beq y = true ↔ x.eqVal y = true ∧ x.fasmType = y.fasmType := by
  constructor
  · intro h
    have htype := fasmType_of_beq h
    exact ⟨(eqVal_of_fasmType_eq htype).trans h, htype⟩
  · rintro ⟨h, htype⟩
    exact (eqVal_of_fasmType_eq htype).symm.trans h

end Value

/-! ## Fields -/

namespace FasmStruct

variable {a b s : List (U32 × Value)} {key : U32} {R R' : Value → Value → Prop}

theorem get_cons (e : U32 × Value) (s : List (U32 × Value)) (key : U32) :
    get (e :: s) key = if e.1 = key then some e.2 else get s key := FasmMap.get_cons e s key

theorem get_eq_none (h : key ∉ s.map Prod.fst) : get s key = none :=
  FasmMap.get_eq_none fun _ he heq => h (heq ▸ List.mem_map_of_mem he)

/-- Two structs have the same keys, with values that are related. -/
def Fields (R : Value → Value → Prop) (a b : List (U32 × Value)) : Prop :=
  ∀ key, Option.Rel R (get a key) (get b key)

/-- Lists of fields with the same keys one after the other, and related values. -/
abbrev Entries (R : Value → Value → Prop) (a b : List (U32 × Value)) : Prop :=
  List.Forall₂ (fun e e' => e.1 = e'.1 ∧ R e.2 e'.2) a b

theorem entries_cons {e e' : U32 × Value} :
    Entries R (e :: a) (e' :: b) ↔ (e.1 = e'.1 ∧ R e.2 e'.2) ∧ Entries R a b := List.forall₂_cons

theorem Entries.keys_eq (h : Entries R a b) : a.map Prod.fst = b.map Prod.fst := by
  induction h with
  | nil => rfl
  | cons he _ ih => exact congrArg₂ List.cons he.1 ih

theorem Entries.fields (h : Entries R a b) : Fields R a b := by
  intro key
  induction h with
  | nil => exact .none
  | @cons e e' a b he _ ih =>
    rw [get_cons, get_cons, he.1]
    split
    · exact .some he.2
    · exact ih

/-- If the keys are in one order, and no key is there twice, it is enough to look at the keys. -/
theorem entries_of_fields (hnodup : (a.map Prod.fst).Nodup)
    (hkeys : a.map Prod.fst = b.map Prod.fst) (h : Fields R a b) : Entries R a b := by
  induction a generalizing b with
  | nil =>
    obtain rfl : b = [] := List.map_eq_nil_iff.mp hkeys.symm
    exact .nil
  | cons e a ih =>
    cases b with
    | nil => cases hkeys
    | cons e' b =>
      injection hkeys with hkey hkeys
      obtain ⟨hnot, hnodup⟩ := List.nodup_cons.mp hnodup
      refine .cons ⟨hkey, ?_⟩ (ih hnodup hkeys fun key => ?_)
      · have hrel := h e.1
        rw [get_cons, get_cons, if_pos rfl, if_pos hkey.symm] at hrel
        cases hrel with
        | some hR => exact hR
      · by_cases hk : e.1 = key
        · subst hk
          rw [get_eq_none hnot, get_eq_none (hkeys ▸ hnot)]
          exact .none
        · have hrel := h key
          rwa [get_cons, get_cons, if_neg hk, if_neg (hkey ▸ hk)] at hrel

theorem Fields.imp (h : Fields R a b) (himp : ∀ x y, R x y → R' x y) : Fields R' a b := by
  intro key
  have hrel := h key
  generalize get a key = x, get b key = y at hrel
  cases hrel with
  | some hR => exact .some (himp _ _ hR)
  | none => exact .none

/-- The derived comparison goes through the lists of fields. -/
theorem beqEntries_iff :
    Value.beqEntries a b = true ↔ Entries (fun x y => x.beq y = true) a b := by
  induction a generalizing b with
  | nil =>
    cases b with
    | nil => exact iff_of_true rfl .nil
    | cons e' b => exact iff_of_false nofun nofun
  | cons e a ih =>
    cases b with
    | nil => exact iff_of_false nofun nofun
    | cons e' b =>
      rw [Value.beqEntries, Bool.and_eq_true, ih, entries_cons]
      refine and_congr_left fun _ => ?_
      obtain ⟨k, x⟩ := e
      obtain ⟨k', y⟩ := e'
      rw [Value.beqEntry, Bool.and_eq_true, beq_iff_eq]

/-! ## Histories -/

/-- The keys after a `SET_FIELD`. -/
theorem keys_insert (s : List (U32 × Value)) (key : U32) (val : Value) :
    (insert s key val).map Prod.fst =
      if key ∈ s.map Prod.fst then s.map Prod.fst else s.map Prod.fst ++ [key] := by
  induction s with
  | nil => rfl
  | cons e s ih =>
    rw [insert]
    by_cases hk : e.1 = key
    · subst hk
      rw [if_pos (beq_self_eq_true _), List.map_cons, List.map_cons, if_pos List.mem_cons_self]
    · have hmem : key ∈ (e :: s).map Prod.fst ↔ key ∈ s.map Prod.fst :=
        List.mem_cons.trans (or_iff_right (Ne.symm hk))
      rw [if_neg (fun h => hk (beq_iff_eq.mp h)), List.map_cons, ih]
      simp only [hmem]
      split <;> rfl

theorem nodup_insert (h : (s.map Prod.fst).Nodup) (key : U32) (val : Value) :
    ((insert s key val).map Prod.fst).Nodup := by
  rw [keys_insert]
  split
  case isTrue => exact h
  case isFalse hnot =>
    refine List.nodup_append.mpr ⟨h, List.nodup_singleton key, fun k hk k' hk' heq => hnot ?_⟩
    rwa [← List.mem_singleton.mp hk', ← heq]

theorem nodup_remove (h : (s.map Prod.fst).Nodup) (key : U32) :
    ((remove s key).map Prod.fst).Nodup := h.sublist (List.eraseP_sublist.map _)

end FasmStruct

/-- An instruction that changes the fields of a struct. -/
inductive StructOp where
  | set (key : U32) (val : Value)
  | del (key : U32)

namespace StructOp

variable {s s' : List (U32 × Value)} {op : StructOp}

/-- What becomes of the struct. -/
def result (s : List (U32 × Value)) : StructOp → List (U32 × Value)
  | set key val => FasmStruct.insert s key val
  | del key => FasmStruct.remove s key

/-- The instruction makes `s'` of a target that is `s`, whatever operands give the key and the
value. -/
def Does (s : List (U32 × Value)) (op : StructOp) (s' : List (U32 × Value)) : Prop :=
  ∀ (ω : Type) (host : Host ω) (p : Program) (e : Executor ω) (dst kop vop : Operand),
    e.target dst = .ok (.struct s) →
    match op with
    | set key val => e.readKeyOperand kop = .ok key → e.readOperand vop = .ok val →
      executeInstruction host p ⟨.setField, [dst, kop, vop]⟩ e = replace dst (.ok (.struct s')) e
    | del key => e.readKeyOperand kop = .ok key →
      executeInstruction host p ⟨.delField, [dst, kop]⟩ e = replace dst (.ok (.struct s')) e

theorem does_result (s : List (U32 × Value)) (op : StructOp) : op.Does s (op.result s) := by
  intro ω host p e dst kop vop hdst
  cases op with
  | set key val =>
    intro hkey hval
    refine (getOp_bind_run rfl _).trans ?_
    refine (reads_bind_ok (f := fun e => e.readKeyOperand kop) hkey).trans ?_
    refine (val_bind_run rfl hval _).trans ?_
    refine (getOp_bind_run rfl _).trans ?_
    show EStateM.bind _ _ e = EStateM.bind _ _ e
    rw [EStateM.bind, writeTargetMut_target hdst]
    rfl
  | del key =>
    intro hkey
    refine (getOp_bind_run rfl _).trans ?_
    refine (reads_bind_ok (f := fun e => e.readKeyOperand kop) hkey).trans ?_
    refine (getOp_bind_run rfl _).trans ?_
    show EStateM.bind _ _ e = EStateM.bind _ _ e
    rw [EStateM.bind, writeTargetMut_target hdst]
    rfl

theorem does_iff : op.Does s s' ↔ s' = op.result s := by
  constructor
  · intro h
    cases op with
    | set key val =>
      have hrun :=
        h Unit .bare ⟨1, [], []⟩ (showing [.struct s, val]) (.slot (.local_ 0)) (.key key)
        (.slot (.local_ 1)) rfl rfl rfl
      have heq := replace_local_inj (hrun.symm.trans (does_result s (.set key val) Unit .bare
        ⟨1, [], []⟩ _ _ _ _ rfl rfl rfl))
      injection heq with heq
      injection heq
    | del key =>
      have hrun := h Unit .bare ⟨1, [], []⟩ (showing [.struct s]) (.slot (.local_ 0)) (.key key)
        (.key key) rfl rfl
      have heq := replace_local_inj (hrun.symm.trans (does_result s (.del key) Unit .bare
        ⟨1, [], []⟩ _ _ _ (.key key) rfl rfl))
      injection heq with heq
      injection heq
  · rintro rfl
    exact does_result s op

/-- A run of instructions on a struct that starts empty. -/
abbrev Trace (σ : Nat → List (U32 × Value)) (ev : Nat → StructOp) (m : Nat) : Prop :=
  IsTrace (· = []) (fun s op s' => op.Does s s') σ ev m

/-- No key is there twice. -/
theorem Trace.nodup {σ : Nat → List (U32 × Value)} {ev : Nat → StructOp} {m : Nat}
    (h : Trace σ ev m) : ((σ m).map Prod.fst).Nodup := by
  refine h.isRun.invariant (P := fun s => (s.map Prod.fst).Nodup) ?_ ?_
  · rintro _ rfl
    exact .nil
  · rintro s s' ⟨op, hop⟩ hs
    obtain rfl := does_iff.mp hop
    cases op with
    | set key val => exact FasmStruct.nodup_insert hs key val
    | del key => exact FasmStruct.nodup_remove hs key

end StructOp

/-! ## `EQ` -/

/-- `EQ` finds two values equal. -/
def Equal (x y : Value) : Prop := Gives Opcode.eq.into [x, y] (.ok (.bool true))

theorem equal_iff {x y : Value} : Equal x y ↔ x.eqVal y = true := by
  rw [Equal, (gives_eq x y).pair_iff]
  constructor
  · intro h
    injection h with h
    injection h
  · intro h
    rw [h]

/-- The keys are in one order, and at each of them there are values of one type. -/
structure FasmStruct.Aligned (a b : List (U32 × Value)) : Prop where
  keys : a.map Prod.fst = b.map Prod.fst
  types : Fields (fun x y => x.fasmType = y.fasmType) a b

/-- Structs are `EQ` if and only if they have `EQ` fields and are aligned. -/
theorem equal_struct_iff {a b : List (U32 × Value)} (ha : (a.map Prod.fst).Nodup) :
    Equal (.struct a) (.struct b) ↔ FasmStruct.Fields Equal a b ∧ FasmStruct.Aligned a b := by
  have hstruct : (Value.struct a).eqVal (.struct b) = Value.beqEntries a b := rfl
  rw [equal_iff, hstruct, FasmStruct.beqEntries_iff]
  constructor
  · intro h
    refine ⟨h.fields.imp fun x y hxy => ?_, h.keys_eq, h.fields.imp fun x y hxy => ?_⟩
    · exact equal_iff.mpr (Value.beq_iff_eqVal.mp hxy).1
    · exact (Value.beq_iff_eqVal.mp hxy).2
  · rintro ⟨hequal, hkeys, htypes⟩
    refine FasmStruct.entries_of_fields ha hkeys fun key => ?_
    have hrel := hequal key
    have htype := htypes key
    generalize FasmStruct.get a key = x, FasmStruct.get b key = y at hrel htype
    cases hrel with
    | none => exact .none
    | some hxy =>
      cases htype with
      | some htype => exact .some (Value.beq_iff_eqVal.mpr ⟨equal_iff.mp hxy, htype⟩)

/-- **Equality of structs.**  Of a struct that any sequence of `SET_FIELD` and `DEL_FIELD` leaves
and any other struct, `EQ` tells whether they have the same keys with values that are `EQ`, if and
only if, where they have, the keys are in one order and there are no numbers of different types. -/
theorem struct_eq_extensional_iff {σ : Nat → List (U32 × Value)} {ev : Nat → StructOp} {m : Nat}
    (h : StructOp.Trace σ ev m) (b : List (U32 × Value)) :
    (Equal (.struct (σ m)) (.struct b) ↔ FasmStruct.Fields Equal (σ m) b) ↔
      (FasmStruct.Fields Equal (σ m) b → FasmStruct.Aligned (σ m) b) := by
  rw [equal_struct_iff h.nodup]
  exact and_iff_left_iff_imp

/-- Two fields. -/
def twoOps : Nat → StructOp
  | 0 => .set 0 (.int .int32 1#32)
  | _ => .set 1 (.int .int32 2#32)

/-- The struct that they leave. -/
def twoFields : Nat → List (U32 × Value)
  | 0 => []
  | 1 => [(0, .int .int32 1#32)]
  | _ => [(0, .int .int32 1#32), (1, .int .int32 2#32)]

theorem trace_two : StructOp.Trace twoFields twoOps 2 := by
  refine ⟨rfl, fun i hi => StructOp.does_iff.mpr ?_⟩
  match i, hi with
  | 0, _ => rfl
  | 1, _ => rfl

/-- A struct without its last field has not the same fields. -/
theorem struct_eq_extensional_short :
    Equal (.struct (twoFields 2)) (.struct (twoFields 1)) ↔
      FasmStruct.Fields Equal (twoFields 2) (twoFields 1) := by
  refine (struct_eq_extensional_iff trace_two (twoFields 1)).mpr fun h => ?_
  cases h 1

/-- The same two fields, set in the other order. -/
def swappedOps : Nat → StructOp
  | 0 => .set 1 (.int .int32 2#32)
  | _ => .set 0 (.int .int32 1#32)

def swappedFields : Nat → List (U32 × Value)
  | 0 => []
  | 1 => [(1, .int .int32 2#32)]
  | _ => [(1, .int .int32 2#32), (0, .int .int32 1#32)]

theorem struct_eq_order : StructOp.Trace twoFields twoOps 2 ∧
    StructOp.Trace swappedFields swappedOps 2 ∧
    FasmStruct.Fields Equal (twoFields 2) (swappedFields 2) ∧
    ¬ Equal (.struct (twoFields 2)) (.struct (swappedFields 2)) := by
  refine ⟨trace_two, ⟨rfl, fun i hi => StructOp.does_iff.mpr ?_⟩, fun key => ?_, fun h => ?_⟩
  · match i, hi with
    | 0, _ => rfl
    | 1, _ => rfl
  · have hself (x : Value) (hx : x.eqVal x = true) : Option.Rel Equal (some x) (some x) :=
      .some (equal_iff.mpr hx)
    unfold twoFields swappedFields
    simp only [FasmStruct.get_cons]
    split
    case isTrue h =>
      subst h
      exact hself _ (by decide)
    case isFalse h =>
      split
      case isTrue h' => exact hself _ (by decide)
      case isFalse h' => exact .none
  · exact absurd (equal_iff.mp h) (by decide)

end Fasm
