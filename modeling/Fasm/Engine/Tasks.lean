import Fasm.Engine.Dispatcher
import Fasm.Lib.Trace
import Fasm.Vm.Panic
import Mathlib.Data.Nat.Count

/-!
# Executions on their way through the dispatcher

`spawn_async` and `spawn_fire_and_forget` of `dispatcher.rs`, as the semaphore and the gauge
`active_sandboxes` of `metrics.rs` see them, with the ticks of `scheduler.rs`.  Both functions
take a permit, count the execution, run it on a blocking thread and give the permit back when
the run is over.  They differ in who waits for the result, which no step here depends on.

The other metrics, the results and the logs are left out, and the gauge is a natural number.
-/

namespace Fasm

/-- `MisfirePolicy`. -/
inductive MisfirePolicy where
  | skip
  | runAll
deriving DecidableEq

/-- Who has asked for an execution: a schedule, by its place in the configuration, or anything
else.  No code reads it. -/
inductive Origin where
  | request
  | schedule (k : Nat)
deriving DecidableEq

/-- How far an execution has come: it holds a permit, it is counted, it is over. -/
inductive Phase where
  | admitted
  | active
  | ended
deriving DecidableEq

/-- An execution that holds a permit. -/
structure Execution where
  origin : Origin
  phase : Phase
deriving DecidableEq

/-- How the closure on the blocking thread ends. -/
inductive Outcome where
  | ok (v : Value)
  | fasmFault (msg : String)
  /-- the panic of a value operation, a syscall handler or the metrics unwinds it -/
  | panicked

/-- `TaskDispatcher`: the permits of its semaphore, the gauge of its metrics, and the
executions that hold a permit. -/
structure TaskDispatcher where
  permits : Nat
  activeSandboxes : Nat
  executions : List Execution
deriving DecidableEq

namespace TaskDispatcher

/-- `TaskDispatcher::new`. -/
def new (maxConcurrent : Nat) : TaskDispatcher := ⟨maxConcurrent, 0, []⟩

/-- `inc_active`. -/
def incActive (d : TaskDispatcher) : TaskDispatcher :=
  { d with activeSandboxes := d.activeSandboxes + 1 }

/-- `dec_active`: a saturating subtraction. -/
def decActive (d : TaskDispatcher) : TaskDispatcher :=
  { d with activeSandboxes := d.activeSandboxes - 1 }

/-- `try_acquire_owned`, with which a spawn begins: `none` is `EngineError::Overloaded`. -/
def tryAcquireOwned (o : Origin) (d : TaskDispatcher) : Option TaskDispatcher :=
  match d.permits with
  | 0 => none
  | permits + 1 => some { d with permits, executions := d.executions ++ [⟨o, .admitted⟩] }

/-- `spawn_async` or `spawn_fire_and_forget`, up to the metrics: a refusal leaves no execution. -/
def spawn (o : Origin) (d : TaskDispatcher) : TaskDispatcher :=
  match d.tryAcquireOwned o with
  | some d' => d'
  | none => d

/-- A turn of the loop of `spawn_schedule`. -/
def tick (policy : MisfirePolicy) (k : Nat) (d : TaskDispatcher) : TaskDispatcher :=
  match d.tryAcquireOwned (.schedule k) with
  | some d' => d'
  | none =>
    match policy with
    | .skip => d -- `tick skipped (engine overloaded)`
    | .runAll => d

/-- The end of the closure.  A panic passes over `dec_active`. -/
def settle (outcome : Outcome) (d : TaskDispatcher) : TaskDispatcher :=
  match outcome with
  | .ok _ | .fasmFault _ => d.decActive
  | .panicked => d

end TaskDispatcher

/-- What happens next. -/
inductive DispatchEvent where
  | spawn
  | tick (k : Nat)
  | count
  /-- the metrics, poisoned under their lock, panic before the execution is counted -/
  | abandon
  | settle (outcome : Outcome)
  | release

/-- The event is the panic of a closure. -/
def DispatchEvent.panics : DispatchEvent → Bool
  | .settle .panicked => true
  | _ => false

/-- The steps of the dispatcher, with the policies of the schedules.  One schedule makes its
ticks one after the other: a tick is over when its execution is counted. -/
inductive DispatchStep (policy : Nat → MisfirePolicy) :
    TaskDispatcher → DispatchEvent → TaskDispatcher → Prop
  | spawn (d) : DispatchStep policy d .spawn (d.spawn .request)
  | tick (d) (k : Nat) (h : ⟨.schedule k, .admitted⟩ ∉ d.executions) :
    DispatchStep policy d (.tick k) (d.tick (policy k) k)
  | count (d) (o : Origin) (l r) (h : d.executions = l ++ ⟨o, .admitted⟩ :: r) :
    DispatchStep policy d .count { d.incActive with executions := l ++ ⟨o, .active⟩ :: r }
  | abandon (d) (o : Origin) (l r) (h : d.executions = l ++ ⟨o, .admitted⟩ :: r) :
    DispatchStep policy d .abandon { d with permits := d.permits + 1, executions := l ++ r }
  | settle (d) (outcome : Outcome) (o : Origin) (l r)
    (h : d.executions = l ++ ⟨o, .active⟩ :: r) :
    DispatchStep policy d (.settle outcome)
      { d.settle outcome with executions := l ++ ⟨o, .ended⟩ :: r }
  | release (d) (o : Origin) (l r) (h : d.executions = l ++ ⟨o, .ended⟩ :: r) :
    DispatchStep policy d .release { d with permits := d.permits + 1, executions := l ++ r }

/-- A run of the dispatcher. -/
abbrev DispatchTrace (maxConcurrent : Nat) (policy : Nat → MisfirePolicy) :=
  IsTrace (· = TaskDispatcher.new maxConcurrent) (DispatchStep policy)

namespace TaskDispatcher

variable {d d' : TaskDispatcher} {o : Origin} {maxConcurrent n : Nat}
  {policy : Nat → MisfirePolicy} {σ : Nat → TaskDispatcher} {ev : Nat → DispatchEvent}

/-- A spawn is refused, or adds an execution. -/
theorem tryAcquireOwned_cases (o : Origin) (d : TaskDispatcher) :
    d.permits = 0 ∧ d.tryAcquireOwned o = none ∨
      ∃ permits, d.permits = permits + 1 ∧
        d.tryAcquireOwned o =
          some ⟨permits, d.activeSandboxes, d.executions ++ [⟨o, .admitted⟩]⟩ := by
  unfold tryAcquireOwned
  cases h : d.permits with
  | zero => exact .inl ⟨rfl, rfl⟩
  | succ permits => exact .inr ⟨permits, rfl, rfl⟩

/-- The policy makes no difference to what a tick does. -/
theorem tick_eq_spawn (p : MisfirePolicy) (k : Nat) (d : TaskDispatcher) :
    d.tick p k = d.spawn (.schedule k) := by
  unfold tick spawn
  cases d.tryAcquireOwned (.schedule k) with
  | some d' => rfl
  | none => cases p <;> rfl

/-- A spawn is refused, or adds an execution that is not counted yet. -/
theorem spawn_cases (o : Origin) (d : TaskDispatcher) :
    d.permits = 0 ∧ d.spawn o = d ∨
      ∃ permits, d.permits = permits + 1 ∧
        d.spawn o = ⟨permits, d.activeSandboxes, d.executions ++ [⟨o, .admitted⟩]⟩ := by
  unfold spawn
  rcases tryAcquireOwned_cases o d with ⟨h, hnone⟩ | ⟨permits, h, hsome⟩
  · rw [hnone]
    exact .inl ⟨h, rfl⟩
  · rw [hsome]
    exact .inr ⟨permits, h, rfl⟩

/-! ## The gauge -/

/-- The executions that are counted and not over. -/
def running (d : TaskDispatcher) : Nat := d.executions.countP fun e => e.phase = .active

/-- `active_sandboxes` is what it is for. -/
def GaugeExact (d : TaskDispatcher) : Prop := d.activeSandboxes = d.running

/-- A spawn leaves the gauge and what it counts. -/
theorem gauge_spawn (o : Origin) (d : TaskDispatcher) :
    (d.spawn o).activeSandboxes = d.activeSandboxes ∧ (d.spawn o).running = d.running := by
  rcases spawn_cases o d with ⟨-, h⟩ | ⟨permits, -, h⟩
  · rw [h]
    exact ⟨rfl, rfl⟩
  · rw [h]
    refine ⟨rfl, ?_⟩
    simp [running]

/-- What the gauge is ahead by grows by one at a panic, and at no other step. -/
theorem gauge_step {e : DispatchEvent} (h : DispatchStep policy d e d') {ahead : Nat}
    (hd : d.activeSandboxes = d.running + ahead) :
    d'.activeSandboxes = d'.running + (ahead + if e.panics then 1 else 0) := by
  cases h with
  | spawn =>
    obtain ⟨hactive, hrunning⟩ := gauge_spawn .request d
    rw [hactive, hrunning, hd]
    rfl
  | tick k =>
    rw [tick_eq_spawn]
    obtain ⟨hactive, hrunning⟩ := gauge_spawn (.schedule k) d
    rw [hactive, hrunning, hd]
    rfl
  | count o l r hsplit =>
    simp [running, hsplit, incActive, DispatchEvent.panics] at hd ⊢
    omega
  | abandon o l r hsplit =>
    simp [running, hsplit, DispatchEvent.panics] at hd ⊢
    omega
  | settle outcome o l r hsplit =>
    simp only [running, hsplit, List.countP_append, List.countP_cons] at hd ⊢
    cases outcome <;>
      simp [TaskDispatcher.settle, decActive, DispatchEvent.panics] at hd ⊢ <;>
      omega
  | release o l r hsplit =>
    simp [running, hsplit, DispatchEvent.panics] at hd ⊢
    omega

/-- In every run, the gauge is ahead by the executions that a panic has ended. -/
theorem gauge_run (h : DispatchTrace maxConcurrent policy σ ev n) :
    (σ n).activeSandboxes = (σ n).running + n.count fun i => (ev i).panics := by
  induction n with
  | zero =>
    rw [h.init]
    rfl
  | succ n ih =>
    rw [Nat.count_succ]
    exact gauge_step (h.step n (Nat.lt_succ_self n)) (ih (h.le (Nat.le_succ n)))

/-! ## One schedule -/

/-- The executions of a schedule that are not over. -/
def unfinished (k : Nat) (d : TaskDispatcher) : Nat :=
  d.executions.countP fun e => e.origin = .schedule k ∧ e.phase ≠ .ended

/-- No tick starts an execution of the schedule beside an unfinished one, and there are never
two. -/
def NoOverlap (k : Nat) (σ : Nat → TaskDispatcher) (ev : Nat → DispatchEvent) (n : Nat) : Prop :=
  (∀ i < n, ev i = .tick k → (σ i).unfinished k < (σ (i + 1)).unfinished k →
    (σ i).unfinished k = 0) ∧
  ∀ i ≤ n, (σ i).unfinished k ≤ 1

/-- A tick at this event, while an execution of the schedule is unfinished, finds no permit. -/
def Blocked (k : Nat) (d : TaskDispatcher) (e : DispatchEvent) : Prop :=
  e = .tick k → 0 < d.unfinished k → d.permits = 0

/-- A spawn with a permit adds an execution of the schedule that asks for it. -/
theorem unfinished_spawn (k : Nat) (o : Origin) (d : TaskDispatcher) :
    (d.spawn o).unfinished k =
      d.unfinished k + if d.permits ≠ 0 ∧ o = .schedule k then 1 else 0 := by
  rcases spawn_cases o d with ⟨hnone, h⟩ | ⟨permits, hsome, h⟩
  · rw [h, if_neg (fun hand => hand.1 hnone)]
    rfl
  · rw [h, hsome]
    by_cases ho : o = .schedule k
    · simp [unfinished, ho]
    · simp [unfinished, ho]

/-- An execution that goes on does not add to the unfinished ones. -/
theorem unfinished_phase (k : Nat) (o : Origin) {p p' : Phase} (l r : List Execution)
    {d d' : TaskDispatcher} (hd : d.executions = l ++ ⟨o, p⟩ :: r)
    (hd' : d'.executions = l ++ ⟨o, p'⟩ :: r) (h : p ≠ .ended) :
    d'.unfinished k ≤ d.unfinished k := by
  simp only [unfinished, hd, hd', List.countP_append, List.countP_cons, decide_eq_true_eq]
  by_cases hcounts : o = .schedule k ∧ p' ≠ .ended
  · rw [if_pos hcounts, if_pos ⟨hcounts.1, h⟩]
  · rw [if_neg hcounts]
    omega

/-- Only a tick of the schedule that finds a permit adds to its unfinished executions. -/
theorem unfinished_step {e : DispatchEvent} (h : DispatchStep policy d e d') (k : Nat) :
    d'.unfinished k ≤ d.unfinished k ∨
      e = .tick k ∧ d.permits ≠ 0 ∧ d'.unfinished k = d.unfinished k + 1 := by
  cases h with
  | spawn =>
    rw [unfinished_spawn]
    simp
  | tick j =>
    rw [tick_eq_spawn, unfinished_spawn]
    by_cases hj : d.permits ≠ 0 ∧ Origin.schedule j = .schedule k
    · obtain ⟨hpermits, hjk⟩ := hj
      cases hjk
      exact .inr ⟨rfl, hpermits, by rw [if_pos ⟨hpermits, rfl⟩]⟩
    · rw [if_neg hj]
      exact .inl le_rfl
  | count o l r hsplit =>
    exact .inl (unfinished_phase k o l r hsplit rfl nofun)
  | abandon o l r hsplit =>
    left
    simp only [unfinished, hsplit, List.countP_append, List.countP_cons]
    omega
  | settle outcome o l r hsplit =>
    exact .inl (unfinished_phase k o l r hsplit rfl nofun)
  | release o l r hsplit =>
    left
    simp [unfinished, hsplit]

/-- A tick that finds a permit starts an execution. -/
theorem unfinished_tick {k : Nat} (h : DispatchStep policy d (.tick k) d') (hd : d.permits ≠ 0) :
    d'.unfinished k = d.unfinished k + 1 := by
  cases h with
  | tick =>
    rw [tick_eq_spawn, unfinished_spawn, if_pos ⟨hd, rfl⟩]

/-- While every tick beside an unfinished execution is refused, there is one at most. -/
theorem noOverlap_of_blocked {k : Nat} (h : DispatchTrace maxConcurrent policy σ ev n)
    (hblocked : ∀ i < n, Blocked k (σ i) (ev i)) : NoOverlap k σ ev n := by
  constructor
  · intro i hi htick hstart
    by_contra hne
    have hpermits := hblocked i hi htick (Nat.pos_of_ne_zero hne)
    rcases unfinished_step (h.step i hi) k with hle | ⟨-, hpos, -⟩
    · omega
    · exact hpos hpermits
  · intro i hi
    apply (h.le hi).invariant_of (P := fun d => d.unfinished k ≤ 1) (C := Blocked k)
    · rintro d rfl
      exact Nat.zero_le 1
    · intro d e d' hstep hC hd
      rcases unfinished_step hstep k with hle | ⟨htick, hpermits, hsucc⟩
      · exact le_trans hle hd
      · rcases Nat.eq_zero_or_pos (d.unfinished k) with hzero | hpos
        · rw [hsucc, hzero]
        · exact absurd (hC htick hpos) hpermits
    · intro j hj
      exact hblocked j (Nat.lt_of_lt_of_le hj hi)

/-! ## The permits -/

/-- A step takes a permit for an execution or gives one back. -/
theorem permits_step {e : DispatchEvent} (h : DispatchStep policy d e d') :
    d'.permits + d'.executions.length = d.permits + d.executions.length := by
  have hspawn (o : Origin) :
      (d.spawn o).permits + (d.spawn o).executions.length = d.permits + d.executions.length := by
    rcases spawn_cases o d with ⟨-, h⟩ | ⟨permits, hsome, h⟩
    · rw [h]
    · rw [h, hsome, List.length_append, List.length_singleton]
      dsimp only
      omega
  cases h with
  | spawn => exact hspawn .request
  | tick k =>
    rw [tick_eq_spawn]
    exact hspawn (.schedule k)
  | count o l r hsplit =>
    rw [hsplit]
    simp [incActive]
  | abandon o l r hsplit =>
    rw [hsplit, List.length_append, List.length_append, List.length_cons]
    dsimp only
    omega
  | settle outcome o l r hsplit =>
    rw [hsplit]
    cases outcome <;> simp [TaskDispatcher.settle, decActive]
  | release o l r hsplit =>
    rw [hsplit, List.length_append, List.length_append, List.length_cons]
    dsimp only
    omega

/-- Every permit of the semaphore is free or held by an execution. -/
theorem permits_run (h : DispatchTrace maxConcurrent policy σ ev n) :
    (σ n).permits + (σ n).executions.length = maxConcurrent := by
  apply h.isRun.invariant (P := fun d => d.permits + d.executions.length = maxConcurrent)
  · rintro d rfl
    rfl
  · rintro d d' ⟨e, hstep⟩ hd
    rw [permits_step hstep, hd]

/-- With one permit, no schedule overlaps with itself. -/
theorem noOverlap_of_single (h : DispatchTrace maxConcurrent policy σ ev n)
    (hmax : maxConcurrent ≤ 1) (k : Nat) : NoOverlap k σ ev n := by
  apply noOverlap_of_blocked h
  intro i hi _ hpos
  have hlength : (σ i).unfinished k ≤ (σ i).executions.length := List.countP_le_length
  have hpermits := permits_run (h.le (Nat.le_of_lt hi))
  omega

end TaskDispatcher

open TaskDispatcher

/-- The gauge is exact as long as no panic has ended an execution, and never again after one
has. -/
theorem active_exact_iff {maxConcurrent n : Nat} {policy : Nat → MisfirePolicy}
    {σ : Nat → TaskDispatcher} {ev : Nat → DispatchEvent}
    (h : DispatchTrace maxConcurrent policy σ ev n) :
    GaugeExact (σ n) ↔ ∀ i < n, ev i ≠ .settle .panicked := by
  unfold GaugeExact
  rw [gauge_run h, Nat.add_eq_left, Nat.count_iff_forall_not]
  apply forall₂_congr
  intro i hi
  unfold DispatchEvent.panics
  split
  · rename_i heq
    simp [heq]
  · rename_i hne
    simpa using hne

/-- Two requests, of which the first has divided `i64::MIN` by `-1`. -/
def panickedRun : Nat → TaskDispatcher
  | 0 => .new 2
  | 1 => ⟨1, 0, [⟨.request, .admitted⟩]⟩
  | 2 => ⟨1, 1, [⟨.request, .active⟩]⟩
  | 3 => ⟨1, 1, [⟨.request, .ended⟩]⟩
  | _ => ⟨2, 1, []⟩

/-- The events of `panickedRun`. -/
def panickedEvents : Nat → DispatchEvent
  | 0 => .spawn
  | 1 => .count
  | 2 => .settle .panicked
  | _ => .release

theorem panickedRun_trace : DispatchTrace 2 (fun _ => .skip) panickedRun panickedEvents 4 where
  init := rfl
  step := by
    intro i hi
    match i, hi with
    | 0, _ => exact .spawn _
    | 1, _ => exact .count _ .request [] [] rfl
    | 2, _ => exact .settle _ .panicked .request [] [] rfl
    | 3, _ => exact .release _ .request [] [] rfl

theorem active_exact_counted : GaugeExact (panickedRun 2) ↔
    ∀ i < 2, panickedEvents i ≠ .settle .panicked :=
  active_exact_iff (panickedRun_trace.le (by decide))

/-- A run of the virtual machine panics, and when its execution has gone, the gauge stays
at one. -/
theorem active_stuck :
    (∃ e, runNamed Host.bare divMain "Main" (.struct []) 1 (.new ()) = .panic .divOverflow e) ∧
    DispatchTrace 2 (fun _ => .skip) panickedRun panickedEvents 4 ∧
    (panickedRun 4).executions = [] ∧ ¬ GaugeExact (panickedRun 4) :=
  ⟨⟨_, rfl⟩, panickedRun_trace, rfl, Nat.one_ne_zero⟩

/-- A schedule, whatever its policy, does not overlap with itself just when each of its ticks
beside an unfinished execution finds all permits taken. -/
theorem schedule_no_overlap_iff {maxConcurrent n : Nat} {policy : Nat → MisfirePolicy}
    {σ : Nat → TaskDispatcher} {ev : Nat → DispatchEvent}
    (h : DispatchTrace maxConcurrent policy σ ev n) (k : Nat) :
    NoOverlap k σ ev n ↔ ∀ i < n, Blocked k (σ i) (ev i) := by
  constructor
  · rintro ⟨hstart, -⟩ i hi htick hpos
    by_contra hpermits
    have hstep := h.step i hi
    rw [htick] at hstep
    have hsucc := unfinished_tick hstep hpermits
    have hzero := hstart i hi htick (by omega)
    omega
  · exact noOverlap_of_blocked h

/-- One schedule ticks twice, and its first execution is still running at the second tick. -/
def twoTicks : Nat → TaskDispatcher
  | 0 => .new 2
  | 1 => ⟨1, 0, [⟨.schedule 0, .admitted⟩]⟩
  | 2 => ⟨1, 1, [⟨.schedule 0, .active⟩]⟩
  | _ => ⟨0, 1, [⟨.schedule 0, .active⟩, ⟨.schedule 0, .admitted⟩]⟩

/-- The events of `twoTicks`. -/
def twoTicksEvents : Nat → DispatchEvent
  | 1 => .count
  | _ => .tick 0

theorem twoTicks_trace : DispatchTrace 2 (fun _ => .skip) twoTicks twoTicksEvents 3 where
  init := rfl
  step := by
    intro i hi
    match i, hi with
    | 0, _ => exact .tick _ 0 (by decide)
    | 1, _ => exact .count _ (.schedule 0) [] [] rfl
    | 2, _ => exact .tick _ 0 (by decide)

theorem schedule_no_overlap_first : NoOverlap 0 twoTicks twoTicksEvents 2 ↔
    ∀ i < 2, Blocked 0 (twoTicks i) (twoTicksEvents i) :=
  schedule_no_overlap_iff (twoTicks_trace.le (by decide)) 0

theorem schedule_overlaps : DispatchTrace 2 (fun _ => .skip) twoTicks twoTicksEvents 3 ∧
    (twoTicks 3).unfinished 0 = 2 ∧ ¬ NoOverlap 0 twoTicks twoTicksEvents 3 := by
  refine ⟨twoTicks_trace, rfl, ?_⟩
  rintro ⟨-, hle⟩
  exact absurd (hle 3 le_rfl) (by decide)

end Fasm
