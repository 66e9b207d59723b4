import Fasm.Vm.Locality

/-!
# Instructions that write last

Nearly every instruction fetches and reads its operands first and then makes at most
one change: it writes a slot, updates a collection in place, or releases a slot.
`Simple` is that shape.  It is established once for every family of instructions;
what such instructions change, keep and return is then read off the shape by
induction.
-/

namespace Fasm

variable {ω : Type} {α : Type}

/-- The ways in which an instruction looks at the executor before it changes anything. -/
inductive Reader (E : Stop → Prop) : {α : Type} → (Executor ω → Except Stop α) → Prop
  | const {α : Type} {x : Except Stop α} (hx : Raises E x) : Reader E fun _ => x
  | operand (op : Operand) : Reader E fun e => e.readOperand op
  | immediate (op : Operand) : Reader E fun e => e.immOperand op
  | key (op : Operand) : Reader E fun e => e.readKeyOperand op
  | callTarget (instr : Instruction) (p : Program) : Reader E fun e => callTarget instr p e

/-- Computations that read first and then make at most one change: a write to an operand of
`dst`, or an update in place or a release of an operand of `upd`.  They stop with an error of
`E` and return an action of `Q`. -/
inductive Simple (E : Stop → Prop) (Q : Action → Prop) (dst upd : Operand → Prop) :
    ExecM ω Action → Prop
  | done {a : Action} (ha : Q a) : Simple E Q dst upd (pure a)
  | stop {s : Stop} (hs : E s) : Simple E Q dst upd (throw s)
  | look {α : Type} {f : Executor ω → Except Stop α} {k : α → ExecM ω Action}
    (hf : Reader E f) (hk : ∀ e a, f e = .ok a → Simple E Q dst upd (k a)) :
    Simple E Q dst upd (ExecM.reads f >>= k)
  | write {op : Operand} {v : Value} (hop : dst op) (hc : Q .continue_) :
    Simple E Q dst upd (writeVal op v >>= fun _ => pure .continue_)
  | update {op : Operand} {f : Value → Except Stop (Unit × Value)} (hop : upd op)
    (hf : ∀ v, Raises E (f v)) (hc : Q .continue_) :
    Simple E Q dst upd (ExecM.writeTargetMut op f >>= fun _ => pure .continue_)
  | release {op : Operand} (hop : upd op) (hc : Q .continue_) :
    Simple E Q dst upd (ExecM.releaseOperand op >>= fun _ => pure .continue_)

theorem getOp_eq_ok {instr : Instruction} {n : Nat} {op : Operand}
    (h : instr.getOp n = .ok op) : instr.operands[n]? = some op := by
  unfold Instruction.getOp at h
  cases ho : instr.operands[n]? with
  | none => rw [ho] at h; cases h
  | some o => rw [ho] at h; cases h; rfl

/-! ## Readers -/

/-- What a call finds at operand 0 and operand 1. -/
theorem readable_callTarget {E : Stop → Prop} (hE : ∀ s, NoPanic s → E s) (instr : Instruction)
    (p : Program) : Readable E fun e : Executor ω => callTarget instr p e where
  local_ v below := by
    have hread (op) : (v.plug below).readOperand op = (v.plug []).readOperand op :=
      (readable_readOperand op).local_ v below
    simp only [callTarget, hread]
  raises v := by
    refine ((raises_getOp _ _).mono hE).bind fun op => ?_
    cases op with
    | funcRef idx =>
      show Raises E (if _ then _ else _)
      split
      · exact ((raises_getOp _ _).mono hE).bind fun op₁ =>
          (((readable_readOperand op₁).raises v).mono hE).bind fun _ => .pure _
      · exact Raises.error.mpr (hE _ (noPanic_fault _))
    | _ => exact Raises.error.mpr (hE _ (noPanic_fault _))

theorem Readable.mono {E E' : Stop → Prop} (hE : ∀ s, E s → E' s)
    {f : Executor ω → Except Stop α} (hf : Readable E f) : Readable E' f :=
  ⟨hf.local_, fun v => (hf.raises v).mono hE⟩

/-- Readers look at the top of the stack only. -/
theorem Reader.readable {E : Stop → Prop} (hE : ∀ s, NoPanic s → E s)
    {f : Executor ω → Except Stop α} (hf : Reader E f) : Readable E f := by
  cases hf with
  | const hx => exact ⟨fun _ _ => rfl, fun _ => hx⟩
  | operand op => exact (readable_readOperand op).mono hE
  | immediate op => exact (readable_immOperand op).mono hE
  | key op => exact (readable_readKeyOperand op).mono hE
  | callTarget instr p => exact readable_callTarget hE instr p

section Bind

variable {β : Type} {f : Executor ω → Except Stop α} {k : α → ExecM ω β} {e : Executor ω}

theorem reads_bind_ok {a : α} (h : f e = .ok a) : (ExecM.reads f >>= k) e = k a e :=
  bind_run_ok (by simp only [ExecM.reads, h, ExecM.lift])

theorem reads_bind_error {s : Stop} (h : f e = .error s) :
    (ExecM.reads f >>= k) e = .error s e :=
  bind_run_error (by simp only [ExecM.reads, h, ExecM.lift])

end Bind

/-! ## What the shape tells -/

namespace Simple

variable {E : Stop → Prop} {Q : Action → Prop} {dst upd : Operand → Prop}
  {m : ExecM ω Action}

/-- A simple instruction runs on the top frame and keeps what is not written. -/
theorem focused {τ : Type} {keep : View ω → τ} (hk : Unwritten keep)
    (hret : ∀ op, dst op → op = .slot (.builtIn .ret) → RetUnwritten keep)
    (hE : ∀ s, NoPanic s → E s) (h : Simple E Q dst upd m) : Focused View.plug keep E m := by
  induction h with
  | done ha => exact .pure _
  | stop hs => exact .throw hs
  | @look α f k hf _ ih =>
    intro v
    obtain ⟨hlocal, hraises⟩ := hf.readable hE
    cases hf' : f (v.plug []) with
    | ok a =>
      obtain ⟨r, hkeep, hr, hrun⟩ := ih _ a hf' v
      refine ⟨r, hkeep, hr, fun c => ?_⟩
      rw [reads_bind_ok ((hlocal v c).trans hf'), hrun c]
    | error s =>
      refine ⟨.error s v, rfl, hraises v s hf', fun c => ?_⟩
      rw [reads_bind_error ((hlocal v c).trans hf'), mapState]
  | write hop hc => exact .bind (OnTop.writeVal hk hE (hret _ hop) _) fun _ => .pure _
  | update hop hf hc => exact .bind (OnTop.writeTargetMut hk hE _ hf) fun _ => .pure _
  | release hop hc => exact .bind (OnTop.releaseOperand hk _) fun _ => .pure _

/-- It returns an action of `Q`. -/
theorem returns (h : Simple E Q dst upd m) : Returns Q m := by
  induction h with
  | done ha => exact .pure ha
  | stop hs => exact .throw
  | @look α f k hf _ ih =>
    intro e a e' hrun
    cases hf' : f e with
    | ok b =>
      rw [reads_bind_ok hf'] at hrun
      exact ih e b hf' e a e' hrun
    | error s =>
      rw [reads_bind_error hf'] at hrun
      cases hrun
  | write hop hc => exact .bind fun _ => .pure hc
  | update hop hf hc => exact .bind fun _ => .pure hc
  | release hop hc => exact .bind fun _ => .pure hc

/-! ## Steps -/

section Steps

variable (hE : ∀ s, NoPanic s → E s)
include hE

theorem getOp {instr : Instruction} {n : Nat} {k : Operand → ExecM ω Action}
    (hk : ∀ op, instr.operands[n]? = some op → Simple E Q dst upd (k op)) :
    Simple E Q dst upd ((liftM (instr.getOp n) : ExecM ω Operand) >>= k) :=
  .look (.const ((raises_getOp instr n).mono hE)) fun _ op h => hk op (getOp_eq_ok h)

omit hE in
theorem lift {x : Except Stop α} {k : α → ExecM ω Action} (hx : Raises E x)
    (hk : ∀ a, x = .ok a → Simple E Q dst upd (k a)) :
    Simple E Q dst upd ((liftM x : ExecM ω α) >>= k) :=
  .look (.const hx) fun _ a h => hk a h

omit hE in
theorem val {op : Operand} {k : Value → ExecM ω Action} (hk : ∀ v, Simple E Q dst upd (k v)) :
    Simple E Q dst upd (readVal op >>= k) :=
  .look (.operand op) fun _ v _ => hk v

omit hE in
theorem key {op : Operand} {k : U32 → ExecM ω Action} (hk : ∀ i, Simple E Q dst upd (k i)) :
    Simple E Q dst upd (ExecM.reads (fun e => e.readKeyOperand op) >>= k) :=
  .look (.key op) fun _ i _ => hk i

theorem u32 {v : Value} {k : U32 → ExecM ω Action} (hk : ∀ i, Simple E Q dst upd (k i)) :
    Simple E Q dst upd ((liftM (asU32 v) : ExecM ω U32) >>= k) :=
  lift ((raises_asU32 v).mono hE) fun i _ => hk i

theorem u64 {v : Value} {k : U64 → ExecM ω Action} (hk : ∀ i, Simple E Q dst upd (k i)) :
    Simple E Q dst upd ((liftM (asU64 v) : ExecM ω U64) >>= k) :=
  lift ((raises_asU64 v).mono hE) fun i _ => hk i

theorem mismatch : Simple E Q dst upd (throw (.fault .typeMismatch) : ExecM ω Action) :=
  .stop (hE _ (noPanic_fault _))

end Steps

/-! ## Families -/

section Families

variable (hE : ∀ s, NoPanic s → E s) (hc : Q .continue_)
  {instr : Instruction} {n : Nat} (hd : ∀ op, instr.operands[n]? = some op → dst op)
include hE hc

section Write

include hd

/-- The end of an instruction that writes its result. -/
theorem put (r : Value) :
    Simple E Q dst upd ((liftM (instr.getOp n) : ExecM ω Operand) >>= fun op =>
      writeVal op r >>= fun _ => pure .continue_) :=
  .getOp hE fun op h => .write (hd op h) hc

end Write

/-- The end of an instruction that updates a collection in place. -/
theorem updateOp {f : Value → Except Stop Value} (hf : ∀ v, Raises E (f v))
    (hu : ∀ op, instr.operands[0]? = some op → upd op) :
    Simple E Q dst upd ((liftM (instr.getOp 0) : ExecM ω Operand) >>= fun op =>
      (ExecM.writeTargetMut op fun coll => do return ((), ← f coll)) >>=
        fun _ => pure .continue_) :=
  .getOp hE fun op h => .update (hu op h) (fun v => (hf v).bind fun _ => .pure _) hc

theorem binaryOp {f : Value → Value → Except Stop Value} (hf : ∀ a b, Raises E (f a b))
    (hd : ∀ op, instr.operands[2]? = some op → dst op) :
    Simple E Q dst upd (binaryOp instr f : ExecM ω Action) :=
  .getOp hE fun _ _ => .val fun a => .getOp hE fun _ _ => .val fun b =>
    .lift (hf a b) fun r _ => .put hE hc hd r

theorem unaryOp {f : Value → Except Stop Value} (hf : ∀ a, Raises E (f a))
    (hd : ∀ op, instr.operands[1]? = some op → dst op) :
    Simple E Q dst upd (unaryOp instr f : ExecM ω Action) :=
  .getOp hE fun _ _ => .val fun a => .lift (hf a) fun r _ => .put hE hc hd r

theorem wrapOp {f : Value → Except Stop Value} (hf : ∀ a, Raises E (f a))
    (hd : ∀ op, instr.operands[0]? = some op → dst op) :
    Simple E Q dst upd (wrapOp instr f : ExecM ω Action) :=
  .getOp hE fun _ _ => .val fun a => .lift (hf a) fun r _ => .put hE hc hd r

theorem fieldGet {f : List (U32 × Value) → U32 → Except Stop Value}
    (hf : ∀ c k, Raises E (onStruct c fun s => f s k))
    (hd : ∀ op, instr.operands[2]? = some op → dst op) :
    Simple E Q dst upd (fieldGet instr f : ExecM ω Action) :=
  .getOp hE fun _ _ => .key fun k => .getOp hE fun _ _ => .val fun c =>
    .lift (hf c k) fun r _ => .put hE hc hd r

theorem keyedGet {f : Value → U32 → Except Stop Value} (hf : ∀ c k, Raises E (f c k))
    (hd : ∀ op, instr.operands[2]? = some op → dst op) :
    Simple E Q dst upd (keyedGet instr f : ExecM ω Action) :=
  .getOp hE fun _ _ => .val fun _ => .u32 hE fun k => .getOp hE fun _ _ => .val fun c =>
    .lift (hf c k) fun r _ => .put hE hc hd r

theorem pushOp {f : Value → Value → Except Stop Value} (hf : ∀ c v, Raises E (f c v))
    (hu : ∀ op, instr.operands[0]? = some op → upd op) :
    Simple E Q dst upd (pushOp instr f : ExecM ω Action) :=
  .getOp hE fun _ _ => .val fun v => .updateOp hE hc (fun c => hf c v) hu

theorem keyedMut {f : Value → U32 → Except Stop Value} (hf : ∀ c k, Raises E (f c k))
    (hu : ∀ op, instr.operands[0]? = some op → upd op) :
    Simple E Q dst upd (keyedMut instr f : ExecM ω Action) :=
  .getOp hE fun _ _ => .val fun _ => .u32 hE fun k => .updateOp hE hc (fun c => hf c k) hu

theorem keyedSet {f : Value → U32 → Value → Except Stop Value}
    (hf : ∀ c k v, Raises E (f c k v)) (hu : ∀ op, instr.operands[0]? = some op → upd op) :
    Simple E Q dst upd (keyedSet instr f : ExecM ω Action) :=
  .getOp hE fun _ _ => .val fun _ => .u32 hE fun k => .getOp hE fun _ _ => .val fun v =>
    .updateOp hE hc (fun c => hf c k v) hu

/-! ## Single instructions -/

theorem execReserve (hd : ∀ op, instr.operands[0]? = some op → dst op) :
    Simple E Q dst upd (execReserve instr : ExecM ω Action) := by
  refine .getOp hE fun op hop => .getOp hE fun t _ => .getOp hE fun _ _ => ?_
  cases t with
  | type t => exact .write (hd op hop) hc
  | _ => exact .mismatch hE

theorem execAddr (hd : ∀ op, instr.operands[1]? = some op → dst op) :
    Simple E Q dst upd (execAddr instr : ExecM ω Action) :=
  .getOp hE fun _ _ => .put hE hc hd _

theorem execSetField (hu : ∀ op, instr.operands[0]? = some op → upd op) :
    Simple E Q dst upd (execSetField instr : ExecM ω Action) := by
  refine .getOp hE fun _ _ => .key fun _ => .getOp hE fun _ _ => .val fun _ =>
    .getOp hE fun op h => .update (hu op h) (fun c => ?_) hc
  cases c <;> simp [onStruct, hE]

theorem execDelField (hu : ∀ op, instr.operands[0]? = some op → upd op) :
    Simple E Q dst upd (execDelField instr : ExecM ω Action) := by
  refine .getOp hE fun _ _ => .key fun _ => .getOp hE fun op h =>
    .update (hu op h) (fun c => ?_) hc
  cases c <;> simp [onStruct, hE]

theorem execCast (hd : ∀ op, instr.operands[2]? = some op → dst op) :
    Simple E Q dst upd (execCast instr : ExecM ω Action) := by
  refine .getOp hE fun _ _ => .val fun v => .getOp hE fun t _ => ?_
  cases t with
  | type t => exact .lift ((raises_castValue v t).mono hE) fun r _ => .put hE hc hd r
  | _ => exact .mismatch hE

theorem execVecSort (host : Host ω) (hu : ∀ op, instr.operands[0]? = some op → upd op) :
    Simple E Q dst upd (execVecSort instr host : ExecM ω Action) := by
  refine .getOp hE fun op h => .update (hu op h) (fun c => ?_) hc
  cases c <;> simp [hE]

theorem execVecFilter (hd : ∀ op, instr.operands[3]? = some op → dst op) :
    Simple E Q dst upd (execVecFilter instr : ExecM ω Action) := by
  refine .getOp hE fun _ _ => .val fun src => .getOp hE fun _ _ => .val fun _ =>
    .u32 hE fun _ => .getOp hE fun _ _ => .val fun _ => ?_
  cases src with
  | vec v => exact .put hE hc hd _
  | _ => exact .mismatch hE

theorem execVecSlice (hd : ∀ op, instr.operands[3]? = some op → dst op) :
    Simple E Q dst upd (execVecSlice instr : ExecM ω Action) := by
  refine .getOp hE fun _ _ => .val fun src => .getOp hE fun _ _ => .val fun _ =>
    .u32 hE fun _ => .getOp hE fun _ _ => .val fun _ => .u32 hE fun _ => ?_
  cases src with
  | vec v => exact .put hE hc hd _
  | _ => exact .mismatch hE

theorem execBitvecRead (hd : ∀ op, instr.operands[3]? = some op → dst op) :
    Simple E Q dst upd (execBitvecRead instr : ExecM ω Action) := by
  refine .getOp hE fun _ _ => .val fun _ => .u64 hE fun _ => .getOp hE fun _ _ =>
    .val fun _ => .u32 hE fun _ => .getOp hE fun _ _ => .val fun coll => ?_
  cases coll with
  | bitvec bv => exact .put hE hc hd _
  | _ => exact .mismatch hE

theorem execBitvecWrite
    (hf : ∀ c start len x, Raises E (onBitvec c fun bv => bv.writeBits start len x))
    (hu : ∀ op, instr.operands[0]? = some op → upd op) :
    Simple E Q dst upd (execBitvecWrite instr : ExecM ω Action) :=
  .getOp hE fun _ _ => .val fun _ => .u64 hE fun s => .getOp hE fun _ _ => .val fun _ =>
    .u32 hE fun l => .getOp hE fun _ _ => .val fun _ => .u64 hE fun x =>
    .updateOp hE hc (fun c => hf c s l x) hu

theorem execBitvecPush (hf : ∀ c len x, Raises E (onBitvec c fun bv => bv.pushBits x len))
    (hu : ∀ op, instr.operands[0]? = some op → upd op) :
    Simple E Q dst upd (execBitvecPush instr : ExecM ω Action) :=
  .getOp hE fun _ _ => .val fun _ => .u64 hE fun x => .getOp hE fun _ _ => .val fun _ =>
    .u32 hE fun l => .updateOp hE hc (fun c => hf c l x) hu

end Families

end Simple

end Fasm
