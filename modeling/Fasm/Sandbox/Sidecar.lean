import Fasm.Lib.Mutex
import Fasm.Vm.Guard
import Fasm.Vm.ParseInt

/-!
# Sidecar processes

`sidecar.rs`, and `mount_shared_sidecar` of `sandbox.rs`.  The handlers of several syscalls share
one child process behind a mutex.  A call takes the handle of the child's stdin out of the wrapper
and puts it back after it has written its request, but a failed write returns before that: the call
returns a fault, the next one panics under the lock, and the ones after it panic for the poisoned
mutex.

What `serde_json` makes of values and of texts is a parameter.
-/

namespace Fasm

/-- What the calls use of `serde_json`. -/
structure SidecarJson where
  /-- `serde_json::to_string(&(id, arg))` -/
  toString : U32 → Value → Option String
  /-- `serde_json::from_str::<Value>` -/
  fromStr : String → Option Value

/-- What becomes of the child process during a call. -/
structure SidecarAnswer where
  /-- whether `writeln!` succeeds -/
  written : Bool
  /-- the line that `read_line` reads, which is empty at the end of the stream, if it succeeds -/
  line : Option String

/-- How a call can panic. -/
inductive SidecarPanic where
  /-- `Failed to open stdin` -/
  | stdin
  /-- `Failed to access stdout` -/
  | stdout
  | poisonError
deriving DecidableEq

/-- `SidecarPlugin`, with the handles that its `Child` holds: the one of stdin with what has been
written to it. -/
structure SidecarPlugin where
  stdin : Option (List String)
  stdout : Bool

namespace SidecarPlugin

variable {json : SidecarJson} {answer : SidecarAnswer} {id : U32} {arg : Value} {s : SidecarPlugin}

/-- `SidecarPlugin::new`, if the process is spawned. -/
def new : SidecarPlugin := ⟨some [], true⟩

/-- What `call` returns for a line of the child. -/
def parseResponse (json : SidecarJson) (line : String) : Except Fault Value :=
  if (trim line).isEmpty then .ok .null
  else match json.fromStr line with
    | some val => .ok val
    | none => .error .typeMismatch

/-- `SidecarPlugin::call`. -/
def call (json : SidecarJson) (answer : SidecarAnswer) (id : U32) (arg : Value) :
    EStateM SidecarPanic SidecarPlugin (Except Fault Value) := fun s =>
  match s.stdin with
  | none => .error .stdin s
  | some sent =>
    let s := { s with stdin := none }
    let req := (json.toString id arg).getD "null"
    -- the handle is put back only behind the `?` of the write
    if answer.written then
      let s := { s with stdin := some (sent ++ [req ++ "\n"]) }
      if s.stdout then
        match answer.line with
        | none => .ok (.error .badSyscall) s
        | some line => .ok (parseResponse json line) s
      else .error .stdout s
    else .ok (.error .badSyscall) s

/-- A call that finds both handles returns, and leaves the one of stdin if it could write. -/
theorem call_ready (hin : s.stdin ≠ none) (hout : s.stdout = true) :
    ∃ r s', call json answer id arg s = .ok r s' ∧ s'.stdout = true ∧
      (s'.stdin = none ↔ answer.written = false) := by
  obtain ⟨sent, hsent⟩ := Option.ne_none_iff_exists'.mp hin
  obtain ⟨stdin, stdout⟩ := s
  obtain rfl : stdin = some sent := hsent
  obtain rfl : stdout = true := hout
  obtain ⟨written, line⟩ := answer
  cases written with
  | false => exact ⟨_, _, rfl, rfl, iff_of_true rfl rfl⟩
  | true =>
    cases line with
    | none => exact ⟨_, _, rfl, rfl, iff_of_false nofun nofun⟩
    | some line => exact ⟨_, _, rfl, rfl, iff_of_false nofun nofun⟩

/-- A call that finds no handle of stdin panics. -/
theorem call_closed (hin : s.stdin = none) : call json answer id arg s = .error .stdin s := by
  rw [call, hin]

end SidecarPlugin

/-! ## Handlers -/

/-- A handler that is mounted, by what the child does during the call. -/
abbrev SidecarHandler : Type :=
  SidecarAnswer → Value → EStateM SidecarPanic (Mutex SidecarPlugin) (Except Fault Value)

/-- The handler of the syscall `id`. -/
def sidecarHandler (json : SidecarJson) (id : U32) : SidecarHandler := fun answer val =>
  Mutex.locked .poisonError (SidecarPlugin.call json answer id val)

/-- `mount_shared_sidecar`: a handler for each of the syscalls. -/
def mountSharedSidecar (json : SidecarJson) (ids : List U32)
    (mounted : U32 → Option SidecarHandler) : U32 → Option SidecarHandler :=
  ids.foldl (fun mounted id => Function.update mounted id (some (sidecarHandler json id))) mounted

/-- The syscalls get their handlers, and no others. -/
theorem mountSharedSidecar_apply (json : SidecarJson) (ids : List U32)
    (mounted : U32 → Option SidecarHandler) (id : U32) :
    mountSharedSidecar json ids mounted id =
      if id ∈ ids then some (sidecarHandler json id) else mounted id := by
  induction ids generalizing mounted with
  | nil => rfl
  | cons k ids ih =>
    show mountSharedSidecar json ids (Function.update mounted k _) id = _
    rw [ih, Function.update_apply]
    by_cases hmem : id ∈ ids
    · rw [if_pos hmem, if_pos (List.mem_cons_of_mem k hmem)]
    · rw [if_neg hmem]
      by_cases hk : id = k
      · rw [if_pos hk, if_pos (List.mem_cons.mpr (.inl hk)), hk]
      · rw [if_neg hk, if_neg fun h => hmem ((List.mem_cons.mp h).resolve_left hk)]

/-- A call through one of the handlers. -/
structure SidecarCall (ids : List U32) where
  id : U32
  mounted : id ∈ ids
  arg : Value
  answer : SidecarAnswer

namespace SidecarCall

variable {json : SidecarJson} {ids : List U32} {calls : List (SidecarCall ids)}
  {s : SidecarPlugin}

theorem mounted_eq (json : SidecarJson) (c : SidecarCall ids) :
    mountSharedSidecar json ids (fun _ => none) c.id = some (sidecarHandler json c.id) :=
  (mountSharedSidecar_apply json ids _ c.id).trans (if_pos c.mounted)

/-- The handler that is called. -/
def handler (json : SidecarJson) (c : SidecarCall ids) : SidecarHandler :=
  (mountSharedSidecar json ids (fun _ => none) c.id).get
    (Option.isSome_of_eq_some (c.mounted_eq json))

/-- The call. -/
def run (json : SidecarJson) (c : SidecarCall ids) :
    EStateM SidecarPanic (Mutex SidecarPlugin) (Except Fault Value) :=
  c.handler json c.answer c.arg

/-- The operation under the lock. -/
def locked (json : SidecarJson) (c : SidecarCall ids) :
    EStateM SidecarPanic SidecarPlugin (Except Fault Value) :=
  SidecarPlugin.call json c.answer c.id c.arg

theorem run_eq (json : SidecarJson) (c : SidecarCall ids) :
    c.run json = Mutex.locked .poisonError (c.locked json) := by
  have hhandler : c.handler json = sidecarHandler json c.id :=
    Option.get_of_eq_some _ (c.mounted_eq json)
  rw [run, hhandler]
  rfl

theorem map_run (json : SidecarJson) (calls : List (SidecarCall ids)) :
    calls.map (run json) = (calls.map (locked json)).map (Mutex.locked .poisonError) := by
  rw [List.map_map]
  exact List.map_congr_left fun c _ => c.run_eq json

/-- Without a handle of stdin no call returns. -/
theorem not_allReturn_of_closed (hin : s.stdin = none) (c : SidecarCall ids) :
    ¬ AllReturn ((c :: calls).map (run json)) (.new s) := by
  rw [map_run]
  exact not_allReturn_cons_error (Mutex.locked_error (SidecarPlugin.call_closed hin))

/-- From both handles on, all calls return if and only if no write fails but the last one. -/
theorem allReturn_iff (hin : s.stdin ≠ none) (hout : s.stdout = true) :
    AllReturn (calls.map (run json)) (.new s) ↔
      ∀ c ∈ calls.dropLast, c.answer.written = true := by
  induction calls generalizing s with
  | nil => exact iff_of_true allReturn_nil nofun
  | cons c calls ih =>
    obtain ⟨r, s', hcall, hout', hin'⟩ : ∃ r s', c.locked json s = .ok r s' ∧
        s'.stdout = true ∧ (s'.stdin = none ↔ c.answer.written = false) :=
      SidecarPlugin.call_ready hin hout
    have hrun : c.run json (.new s) = .ok r (.new s') := by
      rw [run_eq]
      exact Mutex.locked_ok hcall
    rw [List.map_cons, allReturn_cons_ok hrun]
    cases calls with
    | nil => exact iff_of_true allReturn_nil nofun
    | cons c' calls =>
      rw [List.dropLast_cons_cons, List.forall_mem_cons]
      cases hwrite : c.answer.written with
      | false =>
        refine iff_of_false (not_allReturn_of_closed (hin'.mpr hwrite) c') ?_
        exact fun h => Bool.false_ne_true h.1
      | true =>
        have hready : s'.stdin ≠ none := fun hnone =>
          Bool.false_ne_true ((hin'.mp hnone).symm.trans hwrite)
        rw [ih hready hout']
        exact (and_iff_right rfl).symm

end SidecarCall

/-- **Calls of a sidecar.**  Every call returns a value or a fault, and the mutex is not poisoned,
if and only if the write of no call fails but that of the last one. -/
theorem sidecar_calls_return_iff (json : SidecarJson) (ids : List U32)
    (calls : List (SidecarCall ids)) :
    let r := attempts (calls.map (SidecarCall.run json)) (Mutex.new SidecarPlugin.new)
    ((∀ o ∈ r.1, ∃ result : Except Fault Value, o = .ok result) ∧ r.2.poisoned = false) ↔
      ∀ c ∈ calls.dropLast, c.answer.written = true := by
  intro r
  have hpoison : r.2.poisoned = false ↔
      AllReturn (calls.map (SidecarCall.run json)) (Mutex.new SidecarPlugin.new) := by
    simp only [r, SidecarCall.map_run]
    exact Mutex.attempts_unpoisoned_iff _ _
  rw [hpoison]
  refine and_self_iff.trans (SidecarCall.allReturn_iff ?_ rfl)
  exact Option.some_ne_none []

/-- The request of the syscall 100 with `NULL`, and no answers. -/
def SidecarJson.nullRequest : SidecarJson := ⟨fun _ _ => some "[100,\"Null\"]", fun _ => none⟩

/-- Three calls, of a child that is dead before the first. -/
def callsOfDead : List (SidecarCall [100]) :=
  List.replicate 3 ⟨100, List.mem_singleton.mpr rfl, .null, ⟨false, some ""⟩⟩

/-- The first call returns a fault, the second one panics for the handle that is gone, and the
third one for the mutex that the second one has poisoned. -/
theorem sidecar_calls_dead :
    let r := attempts (callsOfDead.map (SidecarCall.run .nullRequest)) (.new .new)
    r.1 = [.ok (.error .badSyscall), .error .stdin, .error .poisonError] ∧
      r.2.poisoned = true ∧ ¬ ∀ o ∈ r.1, ∃ result : Except Fault Value, o = .ok result := by
  rw [SidecarCall.map_run]
  refine ⟨rfl, rfl, fun h => ?_⟩
  obtain ⟨result, hresult⟩ := h (.error .stdin) (.tail _ (.head _))
  cases hresult

/-! ## Faults -/

/-- What the executor gets from a handler that returns. -/
def SyscallOutcome.ofResult : Except Fault Value → SyscallOutcome
  | .ok v => .value v
  | .error f => .fault f

section Caught

variable {host : Host (Mutex SidecarPlugin)} {p : Program} {e : Executor (Mutex SidecarPlugin)}
  {json : SidecarJson} {answer : SidecarAnswer} {id : U32}

/-- The syscall `id` of the host is the handler of the sidecar: what the one returns, the other
does. -/
def ServesSidecar (host : Host (Mutex SidecarPlugin)) (json : SidecarJson) (answer : SidecarAnswer)
    (id : U32) : Prop :=
  ∃ handler, host.syscalls id = some handler ∧ ∀ val g m r m',
    sidecarHandler json id answer val m = .ok r m' → handler val g m = (.ofResult r, g, m')

/-- A fault that a handler returns is one of the `SYSCALL`. -/
theorem ServesSidecar.instrFaults (h : ServesSidecar host json answer id) {cf : CallFrame}
    {below : List CallFrame} {func : FunctionDef} {op : Operand} {arg : Value} {f : Fault}
    {m : Mutex SidecarPlugin} (hstack : e.callStack = cf :: below)
    (hfetch : Fetch p cf func ⟨.syscall, [.syscallId id, op]⟩)
    (harg : (e.advance cf below).readOperand op = .ok arg)
    (hcall : sidecarHandler json id answer arg e.world = .ok (.error f) m) :
    InstrFaults host p e f := by
  obtain ⟨handler, hmounted, hreturns⟩ := h
  have hfault : callSyscall handler arg (e.advance cf below) =
      .error (.fault f) { e.advance cf below with world := m } := by
    have hrun : handler arg e.globals e.world = (.fault f, e.globals, m) :=
      hreturns arg e.globals e.world _ m hcall
    simp only [callSyscall, Executor.advance, hrun]
  refine ⟨cf, below, func, _, { e.advance cf below with world := m }, hstack, hfetch, ?_⟩
  refine (getOp_bind_run rfl _).trans ?_
  refine (reads_bind_ok (f := fun _ => syscallId (.syscallId id)) rfl).trans ?_
  refine (val_bind_run rfl harg _).trans ?_
  refine (reads_bind_ok (f := fun _ => orFault (host.syscalls id) .badSyscall)
    (orFault_eq_ok.mpr hmounted)).trans ?_
  exact bind_run_error hfault

/-- If there is a `TRY` around the `SYSCALL`, the run goes on at the `CATCH`. -/
theorem ServesSidecar.caught (h : ServesSidecar host json answer id) {cf : CallFrame}
    {below : List CallFrame} {func : FunctionDef} {op : Operand} {arg : Value} {f : Fault}
    {m : Mutex SidecarPlugin} {g : TryGuard} (hstack : e.callStack = cf :: below)
    (hguard : cf.tryGuard = some g)
    (hfetch : Fetch p cf func ⟨.syscall, [.syscallId id, op]⟩)
    (harg : (e.advance cf below).readOperand op = .ok arg)
    (hcall : sidecarHandler json id answer arg e.world = .ok (.error f) m) :
    ∃ (cf' : CallFrame) (w : Mutex SidecarPlugin), cf'.funcIdx = cf.funcIdx ∧
      iterate host p e = .next ⟨⟨g.globalSnap⟩, cf'.rollback g f :: below, w⟩ := by
  have hdelivers : e.Delivers host p below.length f g :=
    ⟨h.instrFaults hstack hfetch harg hcall, cf, below, hstack, rfl, hguard⟩
  obtain ⟨cf₁, cf', below₁, w, hstack₁, -, -, hidx, hnext⟩ := hdelivers.next
  cases hstack.symm.trans hstack₁
  exact ⟨cf', w, hidx, hnext⟩

end Caught

end Fasm
