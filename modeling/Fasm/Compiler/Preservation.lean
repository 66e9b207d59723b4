import Fasm.Compiler.GuardScope
import Fasm.Compiler.Numbers
import Fasm.Compiler.Structured
import Fasm.Vm.WellFormed

/-!
# Compiled code does what the source says

The run loop on the code of a program is in lock step with the structured machine on its
source: a frame of the one is a frame of the other with what is left replaced by its index in
the code, the labels of blocks and of jumps by the operands of their instructions, and the
names of functions by their indices.
-/

namespace Fasm

open Pushdown (Move Machine Config)

variable {ω : Type} {host : Host ω} {ast : ProgramAst} {p : Program}

/-! ## What instructions need of the program -/

/-- An instruction sees of the program only how many functions it has. -/
theorem executeInstruction_of_length {q : Program} (h : p.functions.length = q.functions.length)
    (instr : Instruction) : executeInstruction host p instr = executeInstruction host q instr := by
  have hcall : ∀ e : Executor ω, callTarget instr p e = callTarget instr q e := fun e => by
    simp only [callTarget, h]
  obtain ⟨op, operands⟩ := instr
  cases op with
  | call | asyncCall | tailCall => simp only [executeInstruction, callOp, hcall]
  | _ => rfl

theorem length_headers : ast.headers.functions.length = ast.functions.length := List.length_map _

theorem length_functions (hp : emit ast = .ok p) : p.functions.length = ast.functions.length := by
  obtain ⟨inits, -, hp⟩ := bind_eq_ok hp
  obtain ⟨funcs, hfuncs, hp⟩ := bind_eq_ok hp
  cases hp
  exact length_of_mapM hfuncs

theorem exec_headers (hp : emit ast = .ok p) (instr : Instruction) (v : View ω) :
    View.exec host ast.headers instr v = View.exec host p instr v := by
  have hlen : ast.headers.functions.length = p.functions.length :=
    length_headers.trans (length_functions hp).symm
  rw [View.exec, View.exec, executeInstruction_of_length hlen]

/-- A function keeps its name. -/
theorem Function.CompilesTo.name_eq {f : Function} {fd : FunctionDef} (h : f.CompilesTo ast fd) :
    fd.name = f.name := by
  obtain ⟨params, -, h⟩ := bind_eq_ok h
  obtain ⟨code, -, h⟩ := bind_eq_ok h
  cases h
  rfl

/-! ## Names in the code -/

/-- What the names in a source denote in its code. -/
structure ProgramAst.Resolves (ast : ProgramAst) : Prop where
  names : (ast.functions.map Function.name).Nodup
  functions : ast.functions.length ≤ 2 ^ 16
  labelled : ∀ f ∈ ast.functions, LabelledAll f.body
  labelsOnce : ∀ f ∈ ast.functions, f.LabelsOnce
  labelsApart : ∀ f ∈ ast.functions, f.LabelsApart

/-- An accepted source has all of that but for two limits of the code: the labels of its functions
must be apart, and its functions at most `2 ^ 16`. -/
theorem resolves_of_frontend {u : Unicode} {src : String} (hast : frontend u src = .ok ast)
    (hapart : ∀ f ∈ ast.functions, f.LabelsApart) (hlen : ast.functions.length ≤ 2 ^ 16) :
    ast.Resolves where
  names := frontend_nodup hast
  functions := hlen
  labelled _ hf := frontend_labelled hast hf
  labelsOnce _ hf := frontend_labelsOnce hast hf
  labelsApart := hapart

/-- A mnemonic of the table becomes its opcode. -/
theorem emitInstr_table {ctx : FuncCtx} {instr : Instr} {op : Instruction} {opcode : Opcode}
    {shapes : List Shape} (h : ctx.emitInstr instr = .ok op)
    (hm : instr.mnemonic ∉ ["TMP_BLOCK", "END_TMP", "RET"])
    (hlookup : instrTable.lookup instr.mnemonic = some (opcode, shapes)) :
    op.opcode = opcode ∧ op.operands.length = shapes.length := by
  have hlen := (ctx.emitInstr_eq h).1
  rw [Instr.shapes_eq hm hlookup] at hlen
  refine ⟨?_, hlen⟩
  cases ctx.instrEmits_of_emitInstr h with
  | tmpBlock hm' => exact absurd hm (by rw [hm']; decide)
  | endTmp hm' => exact absurd hm (by rw [hm']; decide)
  | ret hm' => exact absurd hm (by rw [hm']; decide)
  | retVal hm' => exact absurd hm (by rw [hm']; decide)
  | table _ _ _ hlookup' _ =>
    cases hlookup.symm.trans hlookup'
    rfl

/-- The last operand of a jump is the target that it yields. -/
theorem yields_jump {ctx : FuncCtx} {instr : Instr} {op : Instruction} {name : String} {t : Nat}
    (h : ctx.emitInstr instr = .ok op) (hname : instr.jumpLabel = some name)
    (hy : op.Yields p (.jump t)) :
    ∃ l : U32, op.operands.getLast? = some (.labelTarget l) ∧ t = l.toNat := by
  rw [Instr.jumpLabel] at hname
  split at hname
  case isTrue hm =>
    have hlookup : instrTable.lookup instr.mnemonic = some (.jmp, [.label]) := by
      rw [hm]
      rfl
    obtain ⟨hop, hlen⟩ := emitInstr_table h (by rw [hm]; decide) hlookup
    rcases hy with ⟨-, l, hl, rfl⟩ | ⟨hop', -⟩ | hop'
    · refine ⟨l, ?_, rfl⟩
      rw [List.getLast?_eq_getElem?, hlen]
      exact hl
    · exact absurd hop' (by rw [hop]; decide)
    · exact absurd (hop.symm.trans hop') (by decide)
  case isFalse =>
    split at hname
    case isTrue hm =>
      obtain ⟨opcode, hcond, hlookup⟩ : ∃ opcode ∈ [Opcode.jz, .jnz],
          instrTable.lookup instr.mnemonic = some (opcode, [.val, .label]) := by
        rcases hm with hm | hm
        · exact ⟨.jz, .head _, by rw [hm]; rfl⟩
        · exact ⟨.jnz, .tail _ (.head _), by rw [hm]; rfl⟩
      obtain ⟨hop, hlen⟩ := emitInstr_table h (by rcases hm with hm | hm <;> rw [hm] <;> decide)
        hlookup
      subst hop
      rcases hy with ⟨hop', -⟩ | ⟨-, l, hl, rfl⟩ | hop'
      · exact absurd hcond (by rw [hop']; decide)
      · refine ⟨l, ?_, rfl⟩
        rw [List.getLast?_eq_getElem?, hlen]
        exact hl
      · exact absurd hcond (by rw [hop']; decide)
    case isFalse => cases hname

section Names

variable {f : Function} {i : Nat} (hres : ast.Resolves) (hf : ast.functions[i]? = some f)
include hres hf

/-- The labels of a block denote its `CATCH` and its `ENDTRY`. -/
theorem ProgramAst.Resolves.block {b : TryBlock} (hb : b ∈ f.tryBlocks) :
    ((f.emitCtx ast).labelIp b.catchLabel).toNat = b.catchIp ∧
      ((f.emitCtx ast).labelIp b.endLabel).toNat = b.endIp := by
  have hmem := List.mem_of_getElem? hf
  obtain ⟨hblock, -⟩ := denotes_of_labelsApart (hres.labelled f hmem) (hres.labelsOnce f hmem)
    (hres.labelsApart f hmem)
  have hlabel : ∀ site ∈ b.labels, ((f.emitCtx ast).labelIp site.1).toNat = site.2 := by
    intro site hsite
    have hsite' : site ∈ f.blockLabels := List.mem_flatMap.mpr ⟨b, hb, hsite⟩
    have hdecl := f.mem_labelSites_iff.mpr (.inr hsite')
    exact (Function.denotes_iff ast hdecl).mp (hblock site hsite')
  exact ⟨hlabel _ (.head _), hlabel _ (.tail _ (.head _))⟩

/-- The target of a jump is the index of its `LABEL`. -/
theorem ProgramAst.Resolves.jump {instr : Instr} {op : Instruction} {k k' : Rest} {ip t : Nat}
    (hat : f.At (.stmt (.instr instr) :: k) ip) (hop : (f.emitCtx ast).emitInstr instr = .ok op)
    (hy : op.Yields p (.jump t)) (htarget : Statement.target f (.instr instr) = some k') :
    t = ast.position i k' := by
  have hmem := List.mem_of_getElem? hf
  obtain ⟨name, hname, hk⟩ := Option.bind_eq_some_iff.mp htarget
  obtain ⟨ip', hat', hlabel⟩ := Function.at_afterLabel hk
  obtain ⟨pos, hlast, hlookup⟩ := FuncCtx.emitInstr_jump hop hname
  obtain ⟨l, hlast', rfl⟩ := yields_jump hop hname hy
  cases hlast.symm.trans hlast'
  obtain ⟨-, hjump⟩ := denotes_of_labelsApart (hres.labelled f hmem) (hres.labelsOnce f hmem)
    (hres.labelsApart f hmem)
  have hdecl := f.mem_labelSites_iff.mpr (.inl hlabel)
  have hpos := (Function.denotes_iff ast hdecl).mp (hjump instr name ip' hat.mem_parts hname hlabel)
  rw [FuncCtx.labelIp, hlookup] at hpos
  rw [position_eq hf hat']
  exact hpos

omit hf hres in
/-- The operand of a call is looked up by the name that stands there. -/
theorem emitInstr_funcRef {ctx : FuncCtx} {instr : Instr} {op : Instruction} {idx : U16}
    (hop : ctx.emitInstr instr = .ok op) (hidx : op.operands[0]? = some (.funcRef idx)) :
    ∃ name, instr.operands[0]?.bind AstValue.asIdent = some name ∧
      ctx.funcIndexMap.lookup name = some idx := by
  obtain ⟨hlen, hall⟩ := ctx.emitInstr_eq hop
  obtain ⟨hlt, -⟩ := List.getElem?_eq_some_iff.mp hidx
  obtain ⟨v, op', hv, hop', hresolve⟩ := hall (List.getElem?_eq_getElem (hlen ▸ hlt))
  cases hidx.symm.trans hop'
  have hgives := ctx.gives_of_resolve hresolve
  generalize instr.shapes[0] = shape at hresolve hgives
  cases shape with
  | func =>
    obtain ⟨name, hident, hresolve⟩ := bind_eq_ok hresolve
    refine ⟨name, ?_, ?_⟩
    · rw [hv]
      cases v with
      | ident => cases hident; rfl
      | _ => cases hident
    · split at hresolve
      case h_1 idx' hlookup =>
        cases hresolve
        exact hlookup
      case h_2 => cases hresolve
  | _ => cases hgives

omit hf in
/-- The operand of a call is the index of the function that it names. -/
theorem ProgramAst.Resolves.call {instr : Instr} {op : Instruction} {idx : U16} {j : Nat}
    (hop : (f.emitCtx ast).emitInstr instr = .ok op)
    (hidx : op.operands[0]? = some (.funcRef idx))
    (hcallee : Statement.callee ast (.instr instr) = some j) : idx.toNat = j := by
  obtain ⟨name, hname, hlookup⟩ := emitInstr_funcRef hop hidx
  obtain ⟨name', hname', hj⟩ := Option.bind_eq_some_iff.mp hcallee
  cases hname.symm.trans hname'
  rw [Program.getFunctionIndex, ProgramAst.headers, List.findIdx?_map,
    List.findIdx?_eq_some_iff_getElem] at hj
  obtain ⟨hjlt, hjname, -⟩ := hj
  have hlookup' := lookup_funcIndexMap hres.names (List.getElem?_eq_getElem hjlt)
  rw [show ast.functions[j].name = name from eq_of_beq hjname] at hlookup'
  cases hlookup.symm.trans hlookup'
  exact Nat.mod_eq_of_lt (Nat.lt_of_lt_of_le hjlt hres.functions)

end Names

/-! ## Frames -/

section Frames

variable {f : Function} {sf : SourceFrame} {s : GlobalRegister × ω}

@[simp] theorem lower_entry (ast : ProgramAst) (i : Nat) (args : Value) :
    (SourceFrame.entry ast i args).lower ast = .new i args := by
  have hip : ast.position i (andThen (ast.bodyAt i) []) = 0 := by
    rw [ProgramAst.position, restSize_andThen, restSize, Nat.add_zero, Nat.sub_self]
  simp only [SourceFrame.entry, SourceFrame.lower, hip, CallFrame.new, Option.map_none]

/-- The view of a lowered frame. -/
def SourceFrame.view (ast : ProgramAst) (sf : SourceFrame) (s : GlobalRegister × ω) : View ω :=
  ⟨sf.lower ast, s.1, s.2⟩

/-- An operation that keeps the position and the guard changes the data only. -/
theorem lower_withData {cf : CallFrame} (hidx : cf.funcIdx = sf.funcIdx)
    (hip : cf.ip = ast.position sf.funcIdx sf.rest)
    (hguard : cf.tryGuard = (sf.lower ast).tryGuard) : (sf.withData cf).lower ast = cf := by
  obtain ⟨funcIdx, ip, frame, args, retVal, tryGuard, tmpFrames⟩ := cf
  cases hidx
  cases hip
  cases hguard
  rfl

/-! ## Moves -/

/-- An action of a statement, if what it names is what its operation names. -/
theorem lowers_act {stmt : Statement} {a : Action}
    (hjump : ∀ t k, a = .jump t → stmt.target f = some k → t = ast.position sf.funcIdx k)
    (hcall : ∀ i j args, a = .callFunc i args ∨ a = .tailCall i args →
      stmt.callee ast = some j → i = j) :
    (SourceFrame.act host ast f stmt a sf s).LowersTo (SourceFrame.lower ast)
      (View.act host a (sf.view ast s)) := by
  cases a with
  | continue_ => exact .stay
  | jump t =>
    cases htarget : stmt.target f with
    | none =>
      simp only [SourceFrame.act, htarget]
      exact .undefined
    | some k =>
      simp only [SourceFrame.act, htarget, View.act, hjump t k rfl htarget]
      exact .stay
  | callFunc i args =>
    cases hcallee : stmt.callee ast with
    | none =>
      simp only [SourceFrame.act, hcallee]
      exact .undefined
    | some j =>
      obtain rfl := hcall i j args (.inl rfl) hcallee
      simp only [SourceFrame.act, hcallee, View.act, SourceFrame.view]
      rcases jitDispatch host i args s.2 with ⟨_ | ret, world⟩
      · rw [← lower_entry ast i args]
        exact .enter
      · exact .stay
  | tailCall i args =>
    cases hcallee : stmt.callee ast with
    | none =>
      simp only [SourceFrame.act, hcallee]
      exact .undefined
    | some j =>
      obtain rfl := hcall i j args (.inr rfl) hcallee
      simp only [SourceFrame.act, hcallee, View.act, SourceFrame.view]
      rcases jitDispatch host i args s.2 with ⟨_ | ret, world⟩
      · simp only
        split
        case isTrue => exact .undefined
        case isFalse hstays =>
          have hreset : ({ SourceFrame.entry ast i args with
              guard := sf.guard, tmpFrames := sf.tmpFrames } : SourceFrame).lower ast =
              { sf.lower ast with funcIdx := i, ip := 0, frame := .new, args, retVal := .null } := by
            have hentry := congrArg CallFrame.ip (lower_entry ast i args)
            have hguard : sf.guard.map (SourceGuard.lower (ast.position i)) =
                sf.guard.map (SourceGuard.lower (ast.position sf.funcIdx)) := by
              cases hg : sf.guard with
              | none => rfl
              | some g =>
                obtain rfl : i = sf.funcIdx := by
                  refine Classical.byContradiction fun hne => hstays ⟨?_, hne⟩
                  rw [hg]
                  rfl
                rfl
            simp only [SourceFrame.lower, SourceFrame.entry] at hentry ⊢
            rw [hentry, hguard]
            rfl
          rw [← hreset]
          exact .stay
      · exact .leave
  | return_ val => exact .leave
  | halt => exact .stop

theorem lowers_fault {fd : FunctionDef} (hname : fd.name = f.name) (ip : Nat) (x : Fault) :
    (SourceFrame.fault f ip x sf s).LowersTo (SourceFrame.lower ast)
      (View.fault fd ip x (sf.view ast s)) := by
  cases hg : sf.guard with
  | none =>
    have hg' : (sf.view ast s).frame.tryGuard = none := by
      show sf.guard.map _ = none
      rw [hg, Option.map_none]
    have hmsg : unhandled fd ip x = unhandled f.header ip x := by
      have hheader : fd.name = f.header.name := hname
      unfold unhandled
      rw [hheader]
    simp only [SourceFrame.fault, hg, View.fault, hg', hmsg]
    exact .stop
  | some g =>
    have hg' : (sf.view ast s).frame.tryGuard = some (g.lower (ast.position sf.funcIdx)) := by
      show sf.guard.map _ = _
      rw [hg, Option.map_some]
    simp only [SourceFrame.fault, hg, View.fault, hg']
    exact .stay

/-- What becomes of the result of an operation that keeps the position and the guard. -/
theorem lowers_settle {stmt : Statement} {fd : FunctionDef} (hname : fd.name = f.name) (ip : Nat)
    {r : EStateM.Result Stop (View ω) Action}
    (hidx : (stateOf r).frame.funcIdx = sf.funcIdx)
    (hip : (stateOf r).frame.ip = ast.position sf.funcIdx sf.rest)
    (hguard : (stateOf r).frame.tryGuard = (sf.lower ast).tryGuard)
    (hjump : ∀ t k w, r = .ok (.jump t) w → stmt.target f = some k →
      t = ast.position sf.funcIdx k)
    (hcall : ∀ i j args w, r = .ok (.callFunc i args) w ∨ r = .ok (.tailCall i args) w →
      stmt.callee ast = some j → i = j) :
    (SourceFrame.settle host ast f stmt ip sf r).LowersTo (SourceFrame.lower ast)
      (View.settle host fd ip r) := by
  -- the frame that the operation leaves is the lowered one with new data
  have hview : (sf.withData (stateOf r).frame).view ast (stateOf r).shared = stateOf r := by
    rw [SourceFrame.view, lower_withData hidx hip hguard]
    rfl
  match r with
  | .ok a w =>
    have hact : (SourceFrame.act host ast f stmt a (sf.withData w.frame) w.shared).LowersTo
        (SourceFrame.lower ast) (View.act host a ((sf.withData w.frame).view ast w.shared)) := by
      refine lowers_act ?_ ?_
      · rintro t k rfl hk
        exact hjump t k w rfl hk
      · rintro i j args (rfl | rfl) hj
        · exact hcall i j args w (.inl rfl) hj
        · exact hcall i j args w (.inr rfl) hj
    rw [show (sf.withData w.frame).view ast w.shared = w from hview] at hact
    exact hact
  | .error (.fault x) w =>
    have hfault : (SourceFrame.fault f ip x (sf.withData w.frame) w.shared).LowersTo
        (SourceFrame.lower ast) (View.fault fd ip x ((sf.withData w.frame).view ast w.shared)) :=
      lowers_fault hname ip x
    rw [show (sf.withData w.frame).view ast w.shared = w from hview] at hfault
    exact hfault
  | .error (.panic x) w =>
    have hframe : (sf.withData w.frame).lower ast = w.frame := lower_withData hidx hip hguard
    rw [SourceFrame.settle, View.settle, ← hframe]
    exact .stop
  | .error (.exit c) w =>
    have hframe : (sf.withData w.frame).lower ast = w.frame := lower_withData hidx hip hguard
    rw [SourceFrame.settle, View.settle, ← hframe]
    exact .stop

end Frames

/-! ## Machines -/

section Code

variable {f : Function} {fd : FunctionDef} {sf : SourceFrame} {s : GlobalRegister × ω}
  (hp : emit ast = .ok p) (hf : ast.functions[sf.funcIdx]? = some f)
  (hfd : p.functions[sf.funcIdx]? = some fd) (hcomp : f.CompilesTo ast fd)
include hp hf hfd hcomp

/-- A statement that is one operation. -/
theorem lowers_operate {stmt : Statement} {op : Instruction} {k : Rest} {ip : Nat}
    (hat : f.At (.stmt stmt :: k) ip) (hsize : stmt.size = 1)
    (hget : fd.instructions[ip]? = some op) (hset : op.opcode.setsGuard = false)
    (hjump : ∀ t k', op.Yields p (.jump t) → stmt.target f = some k' →
      t = ast.position sf.funcIdx k')
    (hcall : ∀ i j idx, op.operands[0]? = some (.funcRef idx) → i = idx.toNat →
      stmt.callee ast = some j → i = j) :
    (SourceFrame.operate host ast f stmt op k sf s).LowersTo (SourceFrame.lower ast)
      (View.move host p ⟨{ sf.lower ast with ip }, s.1, s.2⟩) := by
  have hnext : ast.position sf.funcIdx k = ip + 1 := by
    rw [position_eq hf hat.skip, Item.size, hsize]
  let next : SourceFrame := { sf with rest := k }
  have hadvance : View.advance ⟨{ sf.lower ast with ip }, s.1, s.2⟩ = next.view ast s := by
    simp only [View.advance, SourceFrame.view, SourceFrame.lower, next, hnext]
  have hfetch : Fetch p { sf.lower ast with ip } fd op := ⟨hfd, hget⟩
  rw [View.move_of_fetch host (v := ⟨{ sf.lower ast with ip }, s.1, s.2⟩) hfetch, hadvance]
  rw [SourceFrame.operate, exec_headers hp, position_eq hf hat]
  have hpos := View.exec_position host p op (next.view ast s)
  have hguard := View.exec_tryGuard host p op (next.view ast s) hset
  refine lowers_settle hcomp.name_eq ip (congrArg Prod.fst hpos)
    (congrArg (fun x => x.2.1) hpos) hguard ?_ ?_
  · intro t k' w hr htarget
    exact hjump t k' (View.exec_yields host p op _ hr) htarget
  · rintro i j args w (hr | hr) hcallee
    · obtain ⟨-, -, idx, hidx, hi⟩ := View.exec_yields host p op _ hr
      exact hcall i j idx hidx hi hcallee
    · obtain ⟨-, -, idx, hidx, hi⟩ := View.exec_yields host p op _ hr
      exact hcall i j idx hidx hi hcallee

omit hp hf hfd in
/-- The code from a position on, with its first instruction. -/
theorem placed_code {k : Rest} {ip : Nat} (hat : f.At k ip) :
    Emits (f.emitCtx ast) k (fd.instructions.drop ip) ∧
      fd.instructions[ip]? = (fd.instructions.drop ip).head? :=
  ⟨hat.emits hcomp.code_eq, (List.head?_drop ..).symm⟩

omit hp in
/-- A `TRY` sets a guard with the indices of the two ends of its block. -/
theorem lowers_enterBlock (hres : ast.Resolves) {catchLabel endLabel : String}
    {body catchBody : List Statement} {line ip : Nat} {k : Rest}
    (hat : f.At (.stmt (.tryBlock catchLabel endLabel body catchBody line) :: k) ip) :
    (SourceFrame.enterBlock body catchBody k sf s).LowersTo (SourceFrame.lower ast)
      (View.move host p ⟨{ sf.lower ast with ip }, s.1, s.2⟩) := by
  obtain ⟨hemits, hget⟩ := placed_code hcomp hat
  obtain ⟨rest, hcode, -⟩ := hemits.block
  rw [hcode] at hget
  obtain ⟨hcatch, hend⟩ := hres.block hf hat.mem_tryBlocks
  let v : View ω := ⟨{ sf.lower ast with ip }, s.1, s.2⟩
  let g : SourceGuard := ⟨atCatch catchBody k, .endTry :: k, sf.frame.snapshot, s.1.snapshot⟩
  have hguard : g.lower (ast.position sf.funcIdx) =
      v.advance.guard ((f.emitCtx ast).labelIp catchLabel).toNat
        ((f.emitCtx ast).labelIp endLabel).toNat := by
    rw [SourceGuard.lower, position_eq hf hat.block_catch, position_eq hf hat.block_end, hcatch,
      hend]
    rfl
  have hmove : v.move host p =
      .stay (({ sf with rest := inBlock body catchBody k, guard := some g } :
        SourceFrame).lower ast) s := by
    have hfetch : Fetch p v.frame fd _ := ⟨hfd, hget⟩
    rw [View.move_of_fetch host hfetch, View.exec_try, SourceFrame.lower, Option.map_some, hguard,
      position_eq hf hat.enter]
    rfl
  rw [show View.move host p ⟨{ sf.lower ast with ip }, s.1, s.2⟩ = _ from hmove]
  exact .stay

omit hp in
/-- A `CATCH` goes to the `ENDTRY` of the guard, or on. -/
theorem lowers_catch {ip : Nat} {k : Rest} (hat : f.At (.catch_ :: k) ip) :
    (SourceFrame.moveAt host ast f sf s (.catch_ :: k)).LowersTo (SourceFrame.lower ast)
      (View.move host p ⟨{ sf.lower ast with ip }, s.1, s.2⟩) := by
  obtain ⟨hemits, hget⟩ := placed_code hcomp hat
  generalize fd.instructions.drop ip = code at hemits hget
  cases hemits with
  | catch_ operands hk =>
    let v : View ω := ⟨{ sf.lower ast with ip }, s.1, s.2⟩
    have htarget : v.advance.catchTarget =
        ast.position sf.funcIdx ((sf.guard.map SourceGuard.endRest).getD k) := by
      have hguard : v.advance.frame.tryGuard =
          sf.guard.map (SourceGuard.lower (ast.position sf.funcIdx)) := rfl
      rw [View.catchTarget, hguard]
      cases sf.guard with
      | none => exact (position_eq hf hat.skip).symm
      | some g => rfl
    have hmove : v.move host p =
        .stay (({ sf with rest := (sf.guard.map SourceGuard.endRest).getD k, guard := none } :
          SourceFrame).lower ast) s := by
      have hfetch : Fetch p v.frame fd _ := ⟨hfd, hget⟩
      rw [View.move_of_fetch host hfetch, View.exec_catch, htarget]
      rfl
    rw [show View.move host p ⟨{ sf.lower ast with ip }, s.1, s.2⟩ = _ from hmove]
    exact .stay

omit hp in
/-- An `ENDTRY` clears the guard. -/
theorem lowers_endTry {ip : Nat} {k : Rest} (hat : f.At (.endTry :: k) ip) :
    (SourceFrame.moveAt host ast f sf s (.endTry :: k)).LowersTo (SourceFrame.lower ast)
      (View.move host p ⟨{ sf.lower ast with ip }, s.1, s.2⟩) := by
  obtain ⟨hemits, hget⟩ := placed_code hcomp hat
  generalize fd.instructions.drop ip = code at hemits hget
  cases hemits with
  | endTry hk =>
    let v : View ω := ⟨{ sf.lower ast with ip }, s.1, s.2⟩
    have hmove : v.move host p =
        .stay (({ sf with rest := k, guard := none } : SourceFrame).lower ast) s := by
      have hfetch : Fetch p v.frame fd ⟨.endTry, []⟩ := ⟨hfd, hget⟩
      rw [View.move_of_fetch host hfetch, View.exec_endTry, SourceFrame.lower,
        position_eq hf hat.skip]
      rfl
    rw [show View.move host p ⟨{ sf.lower ast with ip }, s.1, s.2⟩ = _ from hmove]
    exact .stay

/-- At every position the frame does what the code there does. -/
theorem lowers_moveAt (hres : ast.Resolves) : ∀ (k : Rest) {ip : Nat}, f.At k ip →
    (SourceFrame.moveAt host ast f sf s k).LowersTo (SourceFrame.lower ast)
      (View.move host p ⟨{ sf.lower ast with ip }, s.1, s.2⟩)
  | [], ip, hat => by
    obtain ⟨hemits, hget⟩ := placed_code hcomp hat
    generalize fd.instructions.drop ip = code at hemits hget
    cases hemits
    have hfd' : p.functions[(sf.lower ast).funcIdx]? = some fd := hfd
    simp only [View.move, hfd', hget, List.head?_nil]
    exact .leave
  | .stmt (.label _ _) :: k, ip, hat => lowers_moveAt hres k hat.skip
  | .stmt (.local_ decl) :: k, ip, hat => by
    obtain ⟨hemits, hget⟩ := placed_code hcomp hat
    generalize fd.instructions.drop ip = code at hemits hget
    cases hemits with
    | stmt h hk =>
      cases h
      refine lowers_operate hp hf hfd hcomp hat rfl hget rfl ?_ ?_
      · rintro t k' - ⟨⟩
      · rintro i j idx - - ⟨⟩
  | .stmt (.instr i) :: k, ip, hat => by
    obtain ⟨hemits, hget⟩ := placed_code hcomp hat
    generalize fd.instructions.drop ip = code at hemits hget
    cases hemits with
    | stmt h hk =>
      obtain ⟨op, hop, h⟩ := bind_eq_ok h
      cases h
      simp only [SourceFrame.moveAt, hop]
      refine lowers_operate hp hf hfd hcomp hat rfl hget (FuncCtx.emitInstr_setsGuard _ hop) ?_ ?_
      · exact fun t k' hy htarget => hres.jump hf hat hop hy htarget
      · rintro _ j idx hidx rfl hcallee
        exact hres.call hop hidx hcallee
  | .stmt (.tryBlock _ _ _ _ _) :: k, ip, hat => lowers_enterBlock hf hfd hcomp hres hat
  | .catch_ :: k, ip, hat => lowers_catch hf hfd hcomp hat
  | .endTry :: k, ip, hat => lowers_endTry hf hfd hcomp hat

end Code

/-- The structured machine of a source lowers to the run loop on its code. -/
theorem structured_lowers (host : Host ω) (hp : emit ast = .ok p) (hres : ast.Resolves) :
    (structured host ast).Lowers (machine host p) (SourceFrame.lower ast)
      (SourceFrame.Placed ast) where
  keeps := structured_keeps host ast
  move := by
    intro sf s hplaced
    obtain ⟨f, ip, hf, hat⟩ := hplaced.rest
    obtain ⟨fd, hfd, hcomp⟩ := function_emit hp hf
    have hmove : (SourceFrame.moveAt host ast f sf s sf.rest).LowersTo (SourceFrame.lower ast)
        (View.move host p ⟨{ sf.lower ast with ip }, s.1, s.2⟩) :=
      lowers_moveAt hp hf hfd hcomp hres sf.rest hat
    have hframe : { sf.lower ast with ip } = sf.lower ast := by
      rw [SourceFrame.lower, position_eq hf hat]
    rw [hframe] at hmove
    simp only [structured, SourceFrame.move, hf]
    exact hmove
  resume _ _ := rfl
  limit := rfl
  overflow := rfl
  finish _ := rfl

/-! ## Where the source has no meaning -/

section Undefined

variable {f : Function} {sf sf' : SourceFrame} {s s' : GlobalRegister × ω}

end Undefined

/-! ## Runs -/

/-- A state of the structured machine as the interpreter has it. -/
def executorOf (ast : ProgramAst) (c : Config SourceFrame (GlobalRegister × ω)) : Executor ω :=
  ofConfig (c.lower (SourceFrame.lower ast))

/-- A function keeps its index. -/
theorem getFunctionIndex_headers (hp : emit ast = .ok p) (name : String) :
    p.getFunctionIndex name = ast.headers.getFunctionIndex name := by
  have hnames : p.functions.map FunctionDef.name = ast.headers.functions.map FunctionDef.name := by
    refine List.ext_getElem? fun i => ?_
    rw [ProgramAst.headers, List.map_map, List.getElem?_map, List.getElem?_map]
    cases hfd : p.functions[i]? with
    | none =>
      have hlen := List.getElem?_eq_none_iff.mp hfd
      rw [length_functions hp] at hlen
      rw [List.getElem?_eq_none hlen]
      rfl
    | some fd =>
      obtain ⟨f, hf, hcomp⟩ := emit_function hp hfd
      rw [hf, Option.map_some, Option.map_some, hcomp.name_eq]
      rfl
  have hidx : ∀ q : Program, q.getFunctionIndex name =
      (q.functions.map FunctionDef.name).findIdx? (· == name) := fun q => by
    rw [Program.getFunctionIndex, List.findIdx?_map]
    rfl
  rw [hidx, hidx, hnames]

/-- A run starts with the entry of its function. -/
theorem start_entry (hp : emit ast = .ok p) {func : String} {args : Value} {e₀ e₁ : Executor ω}
    (hempty : e₀.callStack = []) (hstart : start p func args e₀ = .next e₁) :
    ∃ i, ast.headers.getFunctionIndex func = some i ∧
      (SourceFrame.entry ast i args).Placed ast ∧
      executorOf ast ⟨[.entry ast i args], (e₁.globals, e₁.world)⟩ = e₁ := by
  cases hidx : p.getFunctionIndex func with
  | none =>
    simp only [start, hidx] at hstart
    cases hstart
  | some i =>
    have hidx' := (getFunctionIndex_headers hp func).symm.trans hidx
    refine ⟨i, hidx', SourceFrame.placed_entry (getFunctionIndex_headers_lt hidx') args, ?_⟩
    simp only [start, hidx, hempty] at hstart
    cases hstart
    simp only [executorOf, Config.lower, List.map_cons, List.map_nil, lower_entry, ofConfig]

section Example

theorem backwardJump_labelsApart : backwardJumpFunction.LabelsApart where
  lines := by decide
  fits := by decide
  hidden := by
    intro site hsite ip hip
    have hip' : (site.1, ip) ∈ [("L", 4)] := hip
    have hname : site.1 = "L" := congrArg Prod.fst (List.mem_singleton.mp hip')
    have hsite' : site ∈ [("__catch_2", 2), ("__endtry_2", 3)] := hsite
    simp only [List.mem_cons, List.not_mem_nil, or_false] at hsite'
    rcases hsite' with rfl | rfl
    · exact absurd hname (by decide)
    · exact absurd hname (by decide)
  jump := by
    intro instr name ip _ _ hip
    have hip' : (name, ip) ∈ [("L", 4)] := hip
    cases List.mem_singleton.mp hip'
    refine ⟨by decide, fun site hsite heq => ?_⟩
    have hsite' : site ∈ [("__catch_2", 2), ("__endtry_2", 3)] := hsite
    simp only [List.mem_cons, List.not_mem_nil, or_false] at hsite'
    rcases hsite' with rfl | rfl <;> decide

end Example

end Fasm
