import Fasm.Compiler.Names
import Fasm.Vm.LocalTypes

/-!
# The types of locals

A `LOCAL` compiles to a `RESERVE` that puts the default of its type into the slot, and that
is all the type is used for: no instruction looks at it again.  A run keeps the declared
types as long as its instructions happen to respect them.
-/

namespace Fasm

/-- The declarations of the locals of the function. -/
def Function.declarations (f : Function) : List LocalDecl :=
  (partsOfAll f.body).filterMap fun
    | .local_ decl => some decl
    | _ => none

/-- No slot of the function is declared by two of them. -/
def Function.DeclaresOnce (f : Function) : Prop := (f.declarations.map (·.index)).Nodup

/-- The function at `k` declares the slot `i` with the type `t`. -/
def ProgramAst.Declares (ast : ProgramAst) : LocalTypes := fun k i t =>
  ∃ f decl, ast.functions[k]? = some f ∧ f.Declares decl ∧ decl.index = i ∧ decl.fasmType = t

theorem Function.mem_declarations {f : Function} {decl : LocalDecl} :
    decl ∈ f.declarations ↔ f.Declares decl := by
  rw [declarations, List.mem_filterMap]
  constructor
  · rintro ⟨stmt, hstmt, heq⟩
    cases stmt with
    | local_ decl' =>
      cases heq
      exact hstmt
    | _ => cases heq
  · exact fun h => ⟨_, h, rfl⟩

section Declared

variable {ast : ProgramAst} {p : Program}

/-- A slot that is declared once has one type. -/
theorem declares_unique (h : ∀ f ∈ ast.functions, f.DeclaresOnce) : ast.Declares.Unique := by
  rintro k i t t' ⟨f, decl, hf, hdecl, rfl, rfl⟩ ⟨f', decl', hf', hdecl', hidx, rfl⟩
  cases hf.symm.trans hf'
  have honce := h f (List.mem_of_getElem? hf)
  rw [List.inj_on_of_nodup_map honce (f.mem_declarations.mpr hdecl')
    (f.mem_declarations.mpr hdecl) hidx]

/-- The code of a `LOCAL`. -/
def reserveInstr (i : U8) (t : FasmType) : Instruction :=
  ⟨.reserve, [.slot (.local_ i), .type t, .imm .null]⟩

/-- Every `LOCAL` is compiled to its `RESERVE`. -/
theorem declares_reserved (hp : emit ast = .ok p) {k : Nat} {i : U8} {t : FasmType}
    (h : ast.Declares k i t) :
    ∃ (fd : FunctionDef) (ip : Nat), p.functions[k]? = some fd ∧
      fd.instructions[ip]? = some (reserveInstr i t) := by
  obtain ⟨f, decl, hf, hdecl, rfl, rfl⟩ := h
  obtain ⟨fd, hfd, hcomp⟩ := function_emit hp hf
  obtain ⟨next, s, hv⟩ := visits_of_mem_partsOfAll _ f.body .start hcomp.code_eq _ hdecl
  obtain ⟨c, cs, rest, hc, -, heq⟩ := hv.emits hcomp.code_eq
  cases hc
  refine ⟨fd, s.out.length, hfd, ?_⟩
  have hcode : fd.instructions = s.out ++ _ := heq
  rw [hcode, List.getElem?_append_right (Nat.le_refl _), Nat.sub_self]
  rfl

end Declared

/-- **Declared types are preserved** by the runs whose turns respect them: in an accepted source
that declares each slot at most once, every `LOCAL` reserves its slot with the default of its
type, and in every state of such a run the slots that are reserved and not released hold values
of their declared types or `Null`. -/
theorem declared_types_preserved {u : Unicode} {src : String} {ast : ProgramAst} {p : Program}
    (hast : frontend u src = .ok ast) (hp : compileSource u src = .ok p)
    (honce : ∀ f ∈ ast.functions, f.DeclaresOnce) :
    (∀ k i t, ast.Declares k i t →
      ∃ (fd : FunctionDef) (ip : Nat), p.functions[k]? = some fd ∧
        fd.instructions[ip]? = some (reserveInstr i t)) ∧
    ∀ {ω : Type} (host : Host ω) (e : Executor ω) (rs : List Reserved),
      ReservedRun host p (TurnFits ast.Declares host p) e rs → StackTyped ast.Declares e rs := by
  rw [compileSource_eq hast] at hp
  exact ⟨fun k i t => declares_reserved hp,
    fun host e rs hrun => typed_run (declares_unique honce) hrun⟩

section Example

/-- A local of type `INT32` that is assigned an `INT32`. -/
def fittingSource : String := "FUNC Main\nLOCAL 0, INT32, x\nMOV 7, x\nENDF"

/-- A local of type `t` that is assigned an `INT32`. -/
def assigningFunction (t : FasmType) : Function :=
  ⟨"Main", [], [.local_ ⟨0, t, "x", 2⟩, .instr ⟨"MOV", [.integer 7, .ident "x"], 3⟩], 1⟩

/-- Its code. -/
def assigningProgram (t : FasmType) : Program :=
  ⟨1, [], [⟨"Main", [], [reserveInstr 0 t, ⟨.mov, [.imm (.int .int32 7), .slot (.local_ 0)]⟩]⟩]⟩

private def assigningTokens (t : String) : List Token :=
  [⟨.ident "FUNC", 1⟩, ⟨.ident "Main", 1⟩, ⟨.ident "LOCAL", 2⟩, ⟨.integer 0, 2⟩, ⟨.comma, 2⟩,
    ⟨.ident t, 2⟩, ⟨.comma, 2⟩, ⟨.ident "x", 2⟩, ⟨.ident "MOV", 3⟩, ⟨.integer 7, 3⟩,
    ⟨.comma, 3⟩, ⟨.ident "x", 3⟩, ⟨.ident "ENDF", 4⟩, ⟨.eof, 4⟩]

private theorem fitting_tokens : tokenize .ascii fittingSource = .ok (assigningTokens "INT32") :=
  (rfl)

theorem fitting_frontend :
    frontend .ascii fittingSource = .ok ⟨[], [], [], [assigningFunction (.int .int32)]⟩ :=
  frontend_eq fitting_tokens rfl rfl

theorem fitting_compiles :
    compileSource .ascii fittingSource = .ok (assigningProgram (.int .int32)) :=
  (compileSource_eq fitting_frontend).trans rfl

theorem assigning_once (t : FasmType) : (assigningFunction t).DeclaresOnce :=
  List.nodup_singleton _

theorem declared_types_preserved_fitting :
    (∀ k i t, ProgramAst.Declares ⟨[], [], [], [assigningFunction (.int .int32)]⟩ k i t →
      ∃ (fd : FunctionDef) (ip : Nat),
        (assigningProgram (.int .int32)).functions[k]? = some fd ∧
          fd.instructions[ip]? = some (reserveInstr i t)) ∧
    ∀ {ω : Type} (host : Host ω) (e : Executor ω) (rs : List Reserved),
      ReservedRun host (assigningProgram (.int .int32)) (TurnFits (ProgramAst.Declares
        ⟨[], [], [], [assigningFunction (.int .int32)]⟩) host (assigningProgram (.int .int32)))
        e rs →
      StackTyped (ProgramAst.Declares ⟨[], [], [], [assigningFunction (.int .int32)]⟩) e rs :=
  declared_types_preserved fitting_frontend fitting_compiles
    fun _ hf => List.mem_singleton.mp hf ▸ assigning_once _

/-- A local of type `INT8` that is assigned an `INT32`. -/
def wideningSource : String := "FUNC Main\nLOCAL 0, INT8, x\nMOV 7, x\nENDF"

private theorem widening_tokens : tokenize .ascii wideningSource = .ok (assigningTokens "INT8") :=
  (rfl)

theorem widening_frontend :
    frontend .ascii wideningSource = .ok ⟨[], [], [], [assigningFunction (.int .int8)]⟩ :=
  frontend_eq widening_tokens rfl rfl

theorem widening_compiles :
    compileSource .ascii wideningSource = .ok (assigningProgram (.int .int8)) :=
  (compileSource_eq widening_frontend).trans rfl

/-- The `MOV` is accepted and leaves an `INT32` in the local. -/
theorem widening_leaves_int32 :
    compileSource .ascii wideningSource = .ok (assigningProgram (.int .int8)) ∧
    (∀ f ∈ [assigningFunction (.int .int8)], f.DeclaresOnce) ∧
    ∃ (e : Executor Unit) (rs : List Reserved),
      ReservedRun Host.bare (assigningProgram (.int .int8)) (fun _ _ => True) e rs ∧
      ¬ StackTyped (ProgramAst.Declares ⟨[], [], [], [assigningFunction (.int .int8)]⟩) e rs := by
  refine ⟨widening_compiles, fun _ hf => List.mem_singleton.mp hf ▸ assigning_once _, ?_⟩
  have hstart : start (assigningProgram (.int .int8)) "Main" (.struct []) (.new ()) =
      .next ⟨.new, [.new 0 (.struct [])], ()⟩ := rfl
  let after : Executor Unit := ⟨.new, [{ CallFrame.new 0 (.struct []) with
    ip := 2, frame := ⟨[some (.int .int32 7)]⟩ }], ()⟩
  have hrun : ReservedRun Host.bare (assigningProgram (.int .int8)) (fun _ _ => True) after
      [⟨[(0, .int .int8)], []⟩] :=
    ((ReservedRun.start hstart).step trivial rfl).step trivial rfl
  refine ⟨after, _, hrun, fun htyped => ?_⟩
  cases htyped with
  | cons hslots _ =>
    obtain ⟨v, hv, htype⟩ := hslots 0 (.int .int8) (.head _)
      ⟨assigningFunction (.int .int8), ⟨0, .int .int8, "x", 2⟩, rfl, .head _, rfl, rfl⟩
    cases hv
    rcases htype with htype | htype <;> cases htype

end Example

end Fasm
