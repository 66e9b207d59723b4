import Fasm.Jit.Agreement
import Fasm.Vm.Uncaught

/-!
# Faults and variants across a call

The JIT has no fault path: once native code is entered, the call traps, returns, or runs
forever.  So it keeps the outcome of a run that faults only by running forever, and the
outcome of a run that returns if the value is of the variant that stands for the return
type.
-/

namespace Fasm

variable {ω : Type} {host : Host ω} {p : Program} {idx : Nat} {func : FunctionDef}
  {entry : JitEntry} {abi : Abi} {args : Value} {σ : Nat → View ω} {n : Nat}

/-! ## Variants -/

/-- The variant of a value, as the type that names it. -/
def Value.variant : Value → FasmType
  | .null => .null
  | .bool _ => .bool
  | .int t _ => .int t
  | .float32 _ => .float32
  | .float64 _ => .float64
  | .refMut _ _ => .refMut
  | .refImm _ _ => .refImm
  | .vec _ => .vec
  | .struct _ => .struct
  | .stack _ => .stack
  | .queue _ => .queue
  | .heapMin _ => .heapMin
  | .heapMax _ => .heapMax
  | .sparse _ => .sparse
  | .btree _ => .btree
  | .slice _ => .slice
  | .deque _ => .deque
  | .bitset _ => .bitset
  | .bitvec _ => .bitvec
  | .option _ => .option
  | .result _ => .result
  | .future _ => .future

/-- The variant of the values that the JIT returns for a type. -/
def JitType.variant : JitType → FasmType
  | i32 => .int .int32
  | i64 => .int .int64
  | f32 => .float32
  | f64 => .float64

theorem unpackRet_variant (raw : U64) (t : JitType) : (unpackRet raw t).variant = t.variant := by
  cases t <;> rfl

/-! ## Outcomes -/

/-- A call of the JIT keeps the outcome of the run that has come to `v` in `n` steps: it neither
returns nor traps where the interpreter faults, and returns the same variant where that
returns. -/
structure KeepsOutcome (abi : Abi) (entry : JitEntry) (args : Value) (host : Host ω) (p : Program)
    (n : Nat) (v : View ω) : Prop where
  fault : ∀ f, Faults host p (v.plug []) f →
    ∀ k, (∀ r, entry.callJit abi args k ≠ .returned r) ∧ entry.callJit abi args k ≠ .trap
  value : ∀ a, Finishes host p v a →
    ∀ k > n, ∃ r, entry.callJit abi args k = .returned r ∧ r.variant = a.variant

/-- The outcomes that the JIT has for a return type: no fault, and one variant. -/
structure HasOutcome (t : JitType) (host : Host ω) (p : Program) (v : View ω) : Prop where
  fault : ∀ f, ¬ Faults host p (v.plug []) f
  value : ∀ a, Finishes host p v a → a.variant = t.variant

/-- A call falls back if an argument is missing or there are more than eight. -/
theorem entered_iff : (∀ k, entry.callJit abi args k ≠ .fallBack) ↔
    ∃ packed, packArgs args entry.info.params = some packed ∧ packed.length ≤ 8 := by
  constructor
  · intro h
    have h₀ := h 0
    unfold JitEntry.callJit at h₀
    split at h₀
    case h_1 => exact absurd rfl h₀
    case h_2 packed hpacked =>
      refine ⟨packed, hpacked, Nat.le_of_not_lt fun hlt => ?_⟩
      rw [if_pos hlt] at h₀
      exact h₀ rfl
  · rintro ⟨packed, hpacked, hlen⟩ k
    simp only [JitEntry.callJit, hpacked, if_neg (Nat.not_lt.mpr hlen)]
    split <;> rintro ⟨⟩

/-- The JIT keeps the outcome of every run on which it agrees and whose outcome it has.  Where
native code ends, it keeps no other. -/
theorem callJit_keepsOutcome (hjit : host.jit = none) (hcompiles : Compiles p idx func entry)
    (hentered : ∀ k, entry.callJit abi args k ≠ .fallBack) (hfit : ArgsFit entry.info args)
    (hrun : Interprets host p idx args σ n) (hag : RunAgrees entry func args σ n) :
    (HasOutcome entry.info.retType host p (σ n) →
      KeepsOutcome abi entry args host p n (σ n)) ∧
    (KeepsOutcome abi entry args host p n (σ n) → (∃ k, entry.callJit abi args k ≠ .running) →
      HasOutcome entry.info.retType host p (σ n)) := by
  obtain ⟨packed, hpacked, hlen⟩ := entered_iff.mp hentered
  obtain ⟨s, hs, hsim, hof⟩ := run_simulates abi hcompiles hjit hrun hfit hpacked hag
  have hreturns : ∀ a, Finishes host p (σ n) a → ∃ raw, ∀ k > n,
      entry.callJit abi args k = .returned (unpackRet raw entry.info.retType) := by
    intro a hend
    obtain ⟨bits, hturn⟩ := hend.turn abi hcompiles hjit hof hsim.ip_eq
    exact ⟨_, fun k hk => callJit_eq hpacked hlen hs hturn hk⟩
  constructor
  · rintro ⟨hok, hvariant⟩
    refine ⟨fun f hfault => absurd hfault (hok f), fun a hend k hk => ?_⟩
    obtain ⟨raw, hraw⟩ := hreturns a hend
    exact ⟨_, hraw k hk, (unpackRet_variant _ _).trans (hvariant a hend).symm⟩
  · rintro hkeeps ⟨k, hk⟩
    refine ⟨fun f hfault => ?_, fun a hend => ?_⟩
    · obtain ⟨hret, htrap⟩ := hkeeps.fault f hfault k
      cases hcall : entry.callJit abi args k with
      | fallBack => exact hentered k hcall
      | returned r => exact hret r hcall
      | trap => exact htrap hcall
      | running => exact hk hcall
    · obtain ⟨raw, hraw⟩ := hreturns a hend
      obtain ⟨r, hr, hvariant⟩ := hkeeps.value a hend (n + 1) n.lt_succ_self
      cases (hraw (n + 1) n.lt_succ_self).symm.trans hr
      rw [← hvariant, unpackRet_variant]

section Example

theorem callJit_keepsOutcome_successor :
    (HasOutcome .i64 Host.bare ⟨1, [], [successor]⟩ (successorRun 2) →
      KeepsOutcome .bare successorEntry (.struct [(7, .int .int64 41)]) Host.bare
        ⟨1, [], [successor]⟩ 2 (successorRun 2)) ∧
    (KeepsOutcome .bare successorEntry (.struct [(7, .int .int64 41)]) Host.bare
        ⟨1, [], [successor]⟩ 2 (successorRun 2) →
      (∃ k, successorEntry.callJit .bare (.struct [(7, .int .int64 41)]) k ≠ .running) →
      HasOutcome .i64 Host.bare ⟨1, [], [successor]⟩ (successorRun 2)) :=
  callJit_keepsOutcome rfl successor_compiles (entered_iff.mpr ⟨[41], rfl, by decide⟩)
    successor_args successorRun_interprets fun i hi => successorRun_agrees i (Nat.lt_succ_of_lt hi)

/-- Divides by zero. -/
def divides : FunctionDef :=
  ⟨"Divides", [], [
    ⟨.div, [.imm (.int .int64 1), .imm (.int .int64 0), .slot (.builtIn .ret)]⟩,
    ⟨.ret, [.slot (.builtIn .ret)]⟩]⟩

def dividesEntry : JitEntry where
  info := ⟨[], [], [], .i64⟩
  code := [.defVar .ret (.binary .sdiv (.const .i64 1) (.const .i64 0)), .return_ (.useVar .ret)]

/-- Returns a `BOOL`. -/
def compares : FunctionDef :=
  ⟨"Compares", [], [
    ⟨.reserve, [.slot (.local_ 0), .type .bool, .imm .null]⟩,
    ⟨.eq, [.imm (.int .int32 1), .imm (.int .int32 1), .slot (.local_ 0)]⟩,
    ⟨.ret, [.slot (.local_ 0)]⟩]⟩

def comparesEntry : JitEntry where
  info := ⟨[(0, .i32)], [], [], .i32⟩
  code := [.nop, .defVar (.slot 0) (.icmp .equal (.const .i32 1) (.const .i32 1)),
    .return_ (.useVar (.slot 0))]

/-- A division by zero traps, and a `BOOL` comes back as an `INT32`. -/
theorem callJit_divides_compares :
    (Compiles ⟨1, [], [divides]⟩ 0 divides dividesEntry ∧
      Faults Host.bare ⟨1, [], [divides]⟩ ⟨.new, [.new 0 (.struct [])], ()⟩ .divisionByZero ∧
      dividesEntry.callJit .bare (.struct []) 1 = .trap) ∧
    (Compiles ⟨1, [], [compares]⟩ 0 compares comparesEntry ∧
      (∃ e, runLoop Host.bare ⟨1, [], [compares]⟩ 3 ⟨.new, [.new 0 (.struct [])], ()⟩ =
        .done (.ok (.bool true)) e) ∧
      comparesEntry.callJit .bare (.struct []) 3 = .returned (.int .int32 1)) :=
  ⟨⟨⟨by decide, rfl, rfl⟩, .inl ⟨_, _, _, _, _, rfl, ⟨rfl, rfl⟩, rfl⟩, rfl⟩,
    ⟨by decide, rfl, rfl⟩, ⟨_, rfl⟩, rfl⟩

end Example

end Fasm
