import Fasm.Compiler.Frontend
import Fasm.Compiler.Passes
import Mathlib.Data.List.Nodup

/-!
# The targets of `TRY` and of jumps

The labels of a `TRY` block are named after its line and are put in one table with the
`LABEL`s of the function.  The last declaration of a name counts, so a block has its own
`CATCH` and `ENDTRY` as long as no other block starts on its line and no `LABEL` with one of
its names stands further down.
-/

namespace Fasm

/-! ## Names -/

/-- The label of the `CATCH` of a block that starts on the line. -/
def catchName (line : Nat) : String := "__catch_" ++ toString line

/-- The label of its `ENDTRY`. -/
def endName (line : Nat) : String := "__endtry_" ++ toString line

theorem toString_inj {m n : Nat} (h : toString m = toString n) : m = n := by
  have hdigits := congrArg String.toList h
  simp only [toString, Nat.toList_repr] at hdigits
  rw [← Nat.ofDigitChars_toDigits (b := 10) (n := m) (by decide) (by decide), hdigits,
    Nat.ofDigitChars_toDigits (by decide) (by decide)]

theorem catchName_inj : Function.Injective catchName := by
  intro m n h
  exact toString_inj (String.append_right_inj _ |>.mp h)

theorem endName_inj : Function.Injective endName := by
  intro m n h
  exact toString_inj (String.append_right_inj _ |>.mp h)

theorem catchName_ne_endName (m n : Nat) : catchName m ≠ endName n := by
  intro h
  have hlist := congrArg String.toList h
  simp [catchName, endName] at hlist

/-! ## Blocks, `LABEL`s and jumps -/

/-- The labels of a block and what they should denote. -/
def TryBlock.labels (b : TryBlock) : List (String × Nat) :=
  [(b.catchLabel, b.catchIp), (b.endLabel, b.endIp)]

mutual

/-- The lines on which the `TRY` blocks of a statement start. -/
def Statement.tryLines : Statement → List Nat
  | .local_ _ => []
  | .label _ _ => []
  | .instr _ => []
  | .tryBlock _ _ body catchBody line => line :: (tryLinesOfAll body ++ tryLinesOfAll catchBody)

/-- The lines on which the `TRY` blocks of statements start. -/
def tryLinesOfAll : List Statement → List Nat
  | [] => []
  | stmt :: stmts => stmt.tryLines ++ tryLinesOfAll stmts

end

mutual

/-- The `LABEL`s of a statement whose code starts at `ip`, with their positions. -/
def Statement.userLabels : Statement → (ip : Nat) → List (String × Nat)
  | .local_ _, _ => []
  | .label name _, ip => [(name, ip)]
  | .instr _, _ => []
  | .tryBlock _ _ body catchBody _, ip =>
    userLabelsOfAll body (ip + 1) ++ userLabelsOfAll catchBody (ip + 1 + sizeOfAll body + 1)

/-- The `LABEL`s of statements. -/
def userLabelsOfAll : List Statement → (ip : Nat) → List (String × Nat)
  | [], _ => []
  | stmt :: stmts, ip => stmt.userLabels ip ++ userLabelsOfAll stmts (ip + stmt.size)

end

/-- The `LABEL`s of a function. -/
def Function.userLabels (f : Function) : List (String × Nat) := userLabelsOfAll f.body 0

/-- The labels of the `TRY` blocks of a function. -/
def Function.blockLabels (f : Function) : List (String × Nat) := f.tryBlocks.flatMap TryBlock.labels

/-- The label that a jump names. -/
def Instr.jumpLabel (instr : Instr) : Option String :=
  if instr.mnemonic = "JMP" then instr.operands[0]?.bind AstValue.asIdent
  else if instr.mnemonic = "JZ" ∨ instr.mnemonic = "JNZ" then
    instr.operands[1]?.bind AstValue.asIdent
  else none

mutual

theorem Statement.mem_labelSites_iff : ∀ (stmt : Statement) {ip : Nat} {site : String × Nat},
    site ∈ stmt.labelSites ip ↔
      site ∈ stmt.userLabels ip ∨ site ∈ (stmt.tryBlocks ip).flatMap TryBlock.labels
  | .local_ _, _, _ => by simp [Statement.labelSites, Statement.userLabels, Statement.tryBlocks]
  | .label _ _, _, _ => by simp [Statement.labelSites, Statement.userLabels, Statement.tryBlocks]
  | .instr _, _, _ => by simp [Statement.labelSites, Statement.userLabels, Statement.tryBlocks]
  | .tryBlock _ _ body catchBody _, ip, site => by
    have h₁ := @mem_labelSitesOfAll_iff body (ip + 1) site
    have h₂ := @mem_labelSitesOfAll_iff catchBody (ip + 1 + sizeOfAll body + 1) site
    simp only [Statement.labelSites, Statement.userLabels, Statement.tryBlocks, List.mem_append,
      List.mem_cons, List.flatMap_cons, List.flatMap_append, TryBlock.labels, List.not_mem_nil,
      or_false, h₁, h₂]
    grind

theorem mem_labelSitesOfAll_iff : ∀ (stmts : List Statement) {ip : Nat} {site : String × Nat},
    site ∈ labelSitesOfAll stmts ip ↔
      site ∈ userLabelsOfAll stmts ip ∨ site ∈ (tryBlocksOfAll stmts ip).flatMap TryBlock.labels
  | [], _, _ => by simp [labelSitesOfAll, userLabelsOfAll, tryBlocksOfAll]
  | stmt :: stmts, ip, site => by
    simp only [labelSitesOfAll, userLabelsOfAll, tryBlocksOfAll, List.mem_append,
      List.flatMap_append, stmt.mem_labelSites_iff, mem_labelSitesOfAll_iff stmts]
    grind

end

mutual

/-- Labels are declared in the order of their positions. -/
theorem Statement.labelSites_sorted : ∀ (stmt : Statement) (ip : Nat),
    (stmt.labelSites ip).Pairwise fun x y => x.2 ≤ y.2
  | .local_ _, _ => .nil
  | .label _ _, _ => List.pairwise_singleton _ _
  | .instr _, _ => .nil
  | .tryBlock _ _ body catchBody _, ip => by
    have h₁ := labelSitesOfAll_sorted body (ip + 1)
    have h₂ := labelSitesOfAll_sorted catchBody (ip + 1 + sizeOfAll body + 1)
    refine List.pairwise_append.mpr ⟨List.pairwise_append.mpr ⟨h₁, List.pairwise_cons.mpr ⟨?_, h₂⟩,
      ?_⟩, List.pairwise_singleton _ _, ?_⟩
    · intro y hy
      have := labelSitesOfAll_bounds catchBody hy
      simp only
      omega
    · rintro x hx y (_ | ⟨_, hy⟩)
      · have := labelSitesOfAll_bounds body hx
        simp only
        omega
      · have := labelSitesOfAll_bounds body hx
        have := labelSitesOfAll_bounds catchBody hy
        omega
    · intro x hx y hy
      cases List.mem_singleton.mp hy
      rcases List.mem_append.mp hx with hx | hx
      · have := labelSitesOfAll_bounds body hx
        simp only
        omega
      rcases List.mem_cons.mp hx with rfl | hx
      · simp only
        omega
      · have := labelSitesOfAll_bounds catchBody hx
        simp only
        omega

theorem labelSitesOfAll_sorted : ∀ (stmts : List Statement) (ip : Nat),
    (labelSitesOfAll stmts ip).Pairwise fun x y => x.2 ≤ y.2
  | [], _ => .nil
  | stmt :: stmts, ip => by
    refine List.pairwise_append.mpr ⟨stmt.labelSites_sorted ip, labelSitesOfAll_sorted stmts _, ?_⟩
    intro x hx y hy
    have hx' := stmt.labelSites_bounds hx
    have hy' := labelSitesOfAll_bounds stmts hy
    omega

end

theorem Function.mem_labelSites_iff (f : Function) {site : String × Nat} :
    site ∈ labelSitesOfAll f.body 0 ↔ site ∈ f.userLabels ∨ site ∈ f.blockLabels :=
  mem_labelSitesOfAll_iff f.body

/-- The last declaration of a name is at the greatest of its positions. -/
theorem Function.lastSite_max {f : Function} {name : String} {k : Nat}
    (h : f.lastSite name = some k) :
    (name, k) ∈ labelSitesOfAll f.body 0 ∧
      ∀ ip, (name, ip) ∈ labelSitesOfAll f.body 0 → ip ≤ k := by
  obtain ⟨l₁, l₂, heq, hbefore⟩ := List.lookup_eq_some_iff.mp h
  have hmem : ∀ site, site ∈ labelSitesOfAll f.body 0 ↔ site ∈ l₁ ++ (name, k) :: l₂ := by
    intro site
    rw [← heq, List.mem_reverse]
  have hsorted := List.pairwise_reverse.mpr (labelSitesOfAll_sorted f.body 0)
  rw [heq] at hsorted
  obtain ⟨-, hsorted, -⟩ := List.pairwise_append.mp hsorted
  obtain ⟨hle, -⟩ := List.pairwise_cons.mp hsorted
  refine ⟨(hmem _).mpr (by simp), fun ip hip => ?_⟩
  rcases List.mem_append.mp ((hmem _).mp hip) with hip | hip
  · have hne := hbefore _ hip
    simp at hne
  rcases List.mem_cons.mp hip with hip | hip
  · cases hip
    exact Nat.le_refl _
  · exact hle _ hip

theorem Function.exists_lastSite {f : Function} {name : String} {ip : Nat}
    (h : (name, ip) ∈ labelSitesOfAll f.body 0) : ∃ k, f.lastSite name = some k := by
  cases hlast : f.lastSite name with
  | some k => exact ⟨k, rfl⟩
  | none =>
    have hnone := List.lookup_eq_none_iff.mp hlast _ (List.mem_reverse.mpr h)
    simp at hnone

/-! ## Names that are their own -/

mutual

/-- The labels of the blocks are those of their lines. -/
theorem Statement.map_labels : ∀ (stmt : Statement) (ip : Nat), stmt.Labelled →
    (stmt.tryBlocks ip).map (fun b => (b.catchLabel, b.endLabel)) =
      stmt.tryLines.map fun line => (catchName line, endName line)
  | .local_ _, _, _ => rfl
  | .label _ _, _, _ => rfl
  | .instr _, _, _ => rfl
  | .tryBlock _ _ body catchBody _, ip, h => by
    obtain ⟨rfl, rfl, hbody, hcatch⟩ := h
    simp only [Statement.tryBlocks, Statement.tryLines, List.map_cons, List.map_append,
      map_labelsOfAll body _ hbody, map_labelsOfAll catchBody _ hcatch]
    rfl

theorem map_labelsOfAll : ∀ (stmts : List Statement) (ip : Nat), LabelledAll stmts →
    (tryBlocksOfAll stmts ip).map (fun b => (b.catchLabel, b.endLabel)) =
      (tryLinesOfAll stmts).map fun line => (catchName line, endName line)
  | [], _, _ => rfl
  | stmt :: stmts, ip, h => by
    simp only [tryBlocksOfAll, tryLinesOfAll, List.map_append, stmt.map_labels ip h.1,
      map_labelsOfAll stmts _ h.2]

end

section Labelled

variable {f : Function} (hlab : LabelledAll f.body)
include hlab

/-- A block is on a line that its labels name. -/
theorem exists_line {b : TryBlock} (hb : b ∈ f.tryBlocks) :
    ∃ line, b.catchLabel = catchName line ∧ b.endLabel = endName line := by
  have hmem := List.mem_map_of_mem (f := fun b : TryBlock => (b.catchLabel, b.endLabel)) hb
  rw [Function.tryBlocks, map_labelsOfAll f.body 0 hlab] at hmem
  obtain ⟨line, -, heq⟩ := List.mem_map.mp hmem
  obtain ⟨hc, he⟩ := Prod.mk.inj heq
  exact ⟨line, hc.symm, he.symm⟩

/-- No two blocks start on one line exactly if the blocks are told by their `CATCH` labels. -/
theorem nodup_tryLines_iff : (tryLinesOfAll f.body).Nodup ↔
    ∀ b ∈ f.tryBlocks, ∀ b' ∈ f.tryBlocks, b.catchLabel = b'.catchLabel → b = b' := by
  have hmap : f.tryBlocks.map TryBlock.catchLabel = (tryLinesOfAll f.body).map catchName := by
    have h := congrArg (List.map Prod.fst) (map_labelsOfAll f.body 0 hlab)
    rw [List.map_map, List.map_map] at h
    exact h
  have hnodup : f.tryBlocks.Nodup := by
    refine List.Pairwise.imp_of_mem (fun {b b'} hb hb' hbefore heq => ?_)
      (nestedOfAll f.body 0).pairwise
    obtain ⟨h₁, h₂⟩ := f.within hb
    subst heq
    rcases hbefore with h | h | h <;> omega
  constructor
  · intro h b hb b' hb' heq
    have hcatch : (f.tryBlocks.map TryBlock.catchLabel).Nodup := hmap ▸ h.map catchName_inj
    exact List.inj_on_of_nodup_map hcatch hb hb' heq
  · intro h
    refine List.Nodup.of_map catchName (hmap ▸ hnodup.map_on ?_)
    intro b hb b' hb' heq
    exact h b hb b' hb' heq

/-- Then a label of a block is a label of no other. -/
theorem blockLabels_unique (hlines : (tryLinesOfAll f.body).Nodup) {name : String} {ip ip' : Nat}
    (h : (name, ip) ∈ f.blockLabels) (h' : (name, ip') ∈ f.blockLabels) : ip = ip' := by
  obtain ⟨b, hb, hsite⟩ := List.mem_flatMap.mp h
  obtain ⟨b', hb', hsite'⟩ := List.mem_flatMap.mp h'
  obtain ⟨line, hc, he⟩ := exists_line hlab hb
  obtain ⟨line', hc', he'⟩ := exists_line hlab hb'
  have huniq := (nodup_tryLines_iff hlab).mp hlines b hb b' hb'
  simp only [TryBlock.labels, List.mem_cons, Prod.mk.injEq, List.not_mem_nil, or_false]
    at hsite hsite'
  rcases hsite with ⟨hname, rfl⟩ | ⟨hname, rfl⟩
  · rcases hsite' with ⟨hname', rfl⟩ | ⟨hname', rfl⟩
    · rw [huniq (hname.symm.trans hname')]
    · exact absurd (hc.symm.trans (hname.symm.trans (hname'.trans he')))
        (catchName_ne_endName line line')
  · rcases hsite' with ⟨hname', rfl⟩ | ⟨hname', rfl⟩
    · exact absurd (hc'.symm.trans (hname'.symm.trans (hname.trans he)))
        (catchName_ne_endName line' line)
    · have hline : line = line' :=
        endName_inj (he.symm.trans (hname.symm.trans (hname'.trans he')))
      rw [huniq (by rw [hc, hc', hline])]

end Labelled

/-! ### `LABEL`s of accepted functions -/

mutual

/-- The validator lets every name through once. -/
theorem collectLabelsOf_nodup : ∀ (stmt : Statement) (ip : Nat) {names names' : List String},
    collectLabelsOf stmt names = .ok names' →
    names' = ((stmt.userLabels ip).map Prod.fst).reverse ++ names ∧ (names.Nodup → names'.Nodup)
  | .local_ _, _, _, _, h => by
    cases h
    exact ⟨rfl, id⟩
  | .instr _, _, _, _, h => by
    cases h
    exact ⟨rfl, id⟩
  | .label name line, _, names, _, h => by
    rw [collectLabelsOf] at h
    split at h
    case isTrue => cases h
    case isFalse hnew =>
      cases h
      refine ⟨rfl, fun hnd => List.nodup_cons.mpr ⟨fun hmem => hnew ?_, hnd⟩⟩
      exact List.contains_iff_mem.mpr hmem
  | .tryBlock _ _ body catchBody _, ip, _, _, h => by
    obtain ⟨names₁, h₁, h⟩ := bind_eq_ok h
    obtain ⟨rfl, hnd₁⟩ := collectLabels_nodup body (ip + 1) h₁
    obtain ⟨rfl, hnd₂⟩ := collectLabels_nodup catchBody (ip + 1 + sizeOfAll body + 1) h
    refine ⟨?_, hnd₂ ∘ hnd₁⟩
    simp only [Statement.userLabels, List.map_append, List.reverse_append, List.append_assoc]

theorem collectLabels_nodup : ∀ (stmts : List Statement) (ip : Nat) {names names' : List String},
    collectLabels stmts names = .ok names' →
    names' = ((userLabelsOfAll stmts ip).map Prod.fst).reverse ++ names ∧
      (names.Nodup → names'.Nodup)
  | [], _, _, _, h => by
    cases h
    exact ⟨rfl, id⟩
  | stmt :: stmts, ip, _, _, h => by
    obtain ⟨names₁, h₁, h⟩ := bind_eq_ok h
    obtain ⟨rfl, hnd₁⟩ := collectLabelsOf_nodup stmt ip h₁
    obtain ⟨rfl, hnd₂⟩ := collectLabels_nodup stmts (ip + stmt.size) h
    refine ⟨?_, hnd₂ ∘ hnd₁⟩
    simp only [userLabelsOfAll, List.map_append, List.reverse_append, List.append_assoc]

end

/-- The `LABEL`s of a function have different names. -/
def Function.LabelsOnce (f : Function) : Prop := (f.userLabels.map Prod.fst).Nodup

theorem Function.LabelsOnce.unique {f : Function} (h : f.LabelsOnce) {name : String} {ip ip' : Nat}
    (hip : (name, ip) ∈ f.userLabels) (hip' : (name, ip') ∈ f.userLabels) : ip = ip' :=
  congrArg Prod.snd (List.inj_on_of_nodup_map h hip hip' rfl)

/-- The labels of an accepted function do. -/
theorem frontend_labelsOnce {u : Unicode} {source : String} {ast : ProgramAst}
    (h : frontend u source = .ok ast) {f : Function} (hf : f ∈ ast.functions) : f.LabelsOnce := by
  obtain ⟨funcs, hv⟩ := frontend_accepts h hf
  obtain ⟨labels, hlabels, -⟩ := bind_eq_ok hv
  obtain ⟨heq, hnd⟩ := collectLabels_nodup f.body 0 hlabels
  rw [List.append_nil] at heq
  rw [Function.LabelsOnce, ← List.nodup_reverse, Function.userLabels, ← heq]
  exact hnd .nil

/-! ## Targets -/

/-- The targets of the `TRY` blocks and of the jumps in the code of a function. -/
structure OwnTargets (ctx : FuncCtx) (f : Function) (code : List Instruction) : Prop where
  /-- the operands of a `TRY` are the positions of the `CATCH` and the `ENDTRY` of its block -/
  block : ∀ b ∈ f.tryBlocks, ∃ c t,
    code[b.tryIp]? = some ⟨.try_, [.labelTarget c, .labelTarget t]⟩ ∧
    code[b.catchIp]? = some ⟨.catch_, [.labelTarget t]⟩ ∧
    code[b.endIp]? = some (.noArgs .endTry) ∧ c.toNat = b.catchIp ∧ t.toNat = b.endIp
  /-- the last operand of a jump that names a `LABEL` is its position -/
  jump : ∀ {instr next s}, Visits ctx f.body .start (.instr instr) next s → ∀ name ip,
    instr.jumpLabel = some name → (name, ip) ∈ f.userLabels →
    ∃ c pos, code[s.out.length]? = some c ∧ c.operands.getLast? = some (.labelTarget pos) ∧
      pos.toNat = ip

/-- No two `TRY` blocks of the function start on one line, no `LABEL` with the name of a block's
label comes after it, none that is the target of a jump comes before it, and the positions fit a
label operand. -/
structure Function.LabelsApart (f : Function) : Prop where
  lines : (tryLinesOfAll f.body).Nodup
  fits : ∀ site ∈ f.blockLabels, site.2 < 2 ^ 32
  /-- the second case is that of a position that is cut off to the block's -/
  hidden : ∀ site ∈ f.blockLabels, ∀ ip, (site.1, ip) ∈ f.userLabels →
    ip ≤ site.2 ∨ ip % 2 ^ 32 = site.2
  jump : ∀ instr name ip, .instr instr ∈ partsOfAll f.body → instr.jumpLabel = some name →
    (name, ip) ∈ f.userLabels → ip < 2 ^ 32 ∧ ∀ site ∈ f.blockLabels, site.1 = name → site.2 ≤ ip

/-- A label operand with the name is the position. -/
def Function.Denotes (f : Function) (site : String × Nat) : Prop :=
  ∃ k, f.lastSite site.1 = some k ∧ k % 2 ^ 32 = site.2

theorem Function.Denotes.unique {f : Function} {name : String} {ip ip' : Nat}
    (h : f.Denotes (name, ip)) (h' : f.Denotes (name, ip')) : ip = ip' := by
  obtain ⟨k, hk, rfl⟩ := h
  obtain ⟨k', hk', rfl⟩ := h'
  cases hk.symm.trans hk'
  rfl

section Denotes

variable {f : Function} (hlab : LabelledAll f.body) (honce : f.LabelsOnce)
include hlab honce

/-- If the names denote their positions, the labels are apart. -/
theorem labelsApart_of_denotes (hblock : ∀ site ∈ f.blockLabels, f.Denotes site)
    (hjump : ∀ instr name ip, .instr instr ∈ partsOfAll f.body → instr.jumpLabel = some name →
      (name, ip) ∈ f.userLabels → f.Denotes (name, ip)) : f.LabelsApart := by
  have hlines : (tryLinesOfAll f.body).Nodup := by
    refine (nodup_tryLines_iff hlab).mpr fun b hb b' hb' heq => f.eq_of_catchIp hb hb' ?_
    have hmem : ∀ b ∈ f.tryBlocks, (b.catchLabel, b.catchIp) ∈ f.blockLabels := fun b hb =>
      List.mem_flatMap.mpr ⟨b, hb, .head _⟩
    exact (hblock _ (hmem b hb)).unique (heq ▸ hblock _ (hmem b' hb'))
  constructor
  case lines => exact hlines
  case fits =>
    intro site hsite
    obtain ⟨k, -, hk⟩ := hblock site hsite
    exact hk ▸ Nat.mod_lt _ (by decide)
  case hidden =>
    intro site hsite ip hip
    obtain ⟨k, hlast, hk⟩ := hblock site hsite
    obtain ⟨hmem, hmax⟩ := Function.lastSite_max hlast
    rcases f.mem_labelSites_iff.mp hmem with huser | hblk
    · exact .inr (honce.unique huser hip ▸ hk)
    · have heq := blockLabels_unique hlab hlines hsite hblk
      exact .inl (heq ▸ hmax ip (f.mem_labelSites_iff.mpr (.inl hip)))
  case jump =>
    intro instr name ip hinstr hname hip
    have hd := hjump instr name ip hinstr hname hip
    refine ⟨?_, fun site hsite heq => ?_⟩
    · obtain ⟨k, -, hk⟩ := hd
      exact (show k % 2 ^ 32 = ip from hk) ▸ Nat.mod_lt _ (by decide)
    · obtain ⟨name', ip'⟩ := site
      cases heq
      exact Nat.le_of_eq ((hblock _ hsite).unique hd)

/-- If the labels are apart, the names denote their positions. -/
theorem denotes_of_labelsApart (h : f.LabelsApart) : (∀ site ∈ f.blockLabels, f.Denotes site) ∧
    ∀ instr name ip, .instr instr ∈ partsOfAll f.body → instr.jumpLabel = some name →
      (name, ip) ∈ f.userLabels → f.Denotes (name, ip) := by
  constructor
  · rintro ⟨name, ip⟩ hsite
    have hmem := f.mem_labelSites_iff.mpr (.inr hsite)
    obtain ⟨k, hk⟩ := Function.exists_lastSite hmem
    obtain ⟨hlast, hmax⟩ := Function.lastSite_max hk
    refine ⟨k, hk, ?_⟩
    rcases f.mem_labelSites_iff.mp hlast with huser | hblk
    · rcases h.hidden _ hsite k huser with hle | hmod
      · rw [Nat.le_antisymm hle (hmax ip hmem), Nat.mod_eq_of_lt (h.fits _ hsite)]
      · exact hmod
    · rw [← blockLabels_unique hlab h.lines hsite hblk, Nat.mod_eq_of_lt (h.fits _ hsite)]
  · intro instr name ip hinstr hname hip
    have hmem := f.mem_labelSites_iff.mpr (.inl hip)
    obtain ⟨k, hk⟩ := Function.exists_lastSite hmem
    obtain ⟨hlast, hmax⟩ := Function.lastSite_max hk
    obtain ⟨hlt, hle⟩ := h.jump instr name ip hinstr hname hip
    refine ⟨k, hk, ?_⟩
    rcases f.mem_labelSites_iff.mp hlast with huser | hblk
    · rw [honce.unique huser hip, Nat.mod_eq_of_lt hlt]
    · have heq : k = ip := Nat.le_antisymm (hle _ hblk rfl) (hmax ip hmem)
      rw [heq, Nat.mod_eq_of_lt hlt]

end Denotes

/-! ## Code -/

section Code

variable {ctx : FuncCtx} {stmts next : List Statement} {stmt : Statement} {s s' : Progress}

/-- The passes come to nothing but the statements of the body. -/
theorem Visits.mem_parts (h : Visits ctx stmts s stmt next s') : stmt ∈ partsOfAll stmts := by
  induction h with
  | @here stmt _ _ =>
    refine List.mem_append_left _ ?_
    cases stmt <;> exact .head _
  | later _ _ ih => exact List.mem_append_right _ ih
  | body _ ih => exact List.mem_append_left _ (.tail _ (List.mem_append_left _ ih))
  | catchBody _ _ ih => exact List.mem_append_left _ (.tail _ (List.mem_append_right _ ih))

/-- The code of an instruction statement is where the passes come to it. -/
theorem Visits.instr_at {body : List Statement} {code : List Instruction} {instr : Instr}
    (hcode : ctx.emitStatements body = .ok code)
    (h : Visits ctx body .start (.instr instr) next s) :
    ∃ c, ctx.emitInstr instr = .ok c ∧ code[s.out.length]? = some c := by
  obtain ⟨cs, _, rest, hcs, -, heq⟩ := h.emits hcode
  obtain ⟨c, hc, hcs⟩ := bind_eq_ok hcs
  cases hcs
  have hcode' : code = s.out ++ ([c] ++ _ ++ rest) := heq
  refine ⟨c, hc, ?_⟩
  rw [hcode', List.getElem?_append_right (Nat.le_refl _), Nat.sub_self]
  rfl

/-- The last operand of a jump is the position of the label that it names. -/
theorem FuncCtx.emitInstr_jump {instr : Instr} {c : Instruction} {name : String}
    (h : ctx.emitInstr instr = .ok c) (hname : instr.jumpLabel = some name) :
    ∃ pos, c.operands.getLast? = some (.labelTarget pos) ∧
      ctx.labelPositions.lookup name = some pos := by
  obtain ⟨hlen, hall⟩ := ctx.emitInstr_eq h
  obtain ⟨i, hshape, hlast, hop⟩ : ∃ i, instr.shapes[i]? = some .label ∧
      instr.shapes.length = i + 1 ∧ instr.operands[i]?.bind AstValue.asIdent = some name := by
    rw [Instr.jumpLabel] at hname
    split at hname
    case isTrue hm =>
      have hshapes : instr.shapes = [.label] :=
        @Instr.shapes_eq _ .jmp _ (by rw [hm]; decide) (by rw [hm]; rfl)
      exact ⟨0, by rw [hshapes]; rfl, by rw [hshapes]; rfl, hname⟩
    case isFalse =>
      split at hname
      case isTrue hm =>
        have hshapes : instr.shapes = [.val, .label] := by
          rcases hm with hm | hm
          · exact @Instr.shapes_eq _ .jz _ (by rw [hm]; decide) (by rw [hm]; rfl)
          · exact @Instr.shapes_eq _ .jnz _ (by rw [hm]; decide) (by rw [hm]; rfl)
        exact ⟨1, by rw [hshapes]; rfl, by rw [hshapes]; rfl, hname⟩
      case isFalse => cases hname
  obtain ⟨v, op, hv, hget, hres⟩ := hall hshape
  rw [hv] at hop
  cases v with
  | ident name' =>
    cases hop
    simp only [FuncCtx.resolve, labelOp] at hres
    split at hres
    case h_1 pos hpos =>
      cases hres
      refine ⟨pos, ?_, hpos⟩
      rw [List.getLast?_eq_getElem?, hlen, hlast]
      exact hget
    case h_2 => cases hres
  | _ => cases hop

end Code

section Compiled

variable {ast : ProgramAst} {f : Function} {fd : FunctionDef}

/-- A label operand with a name that is declared. -/
theorem Function.denotes_iff (ast : ProgramAst) {name : String} {ip : Nat}
    (h : (name, ip) ∈ labelSitesOfAll f.body 0) :
    f.Denotes (name, ip) ↔ ((f.emitCtx ast).labelIp name).toNat = ip := by
  obtain ⟨k, hk⟩ := Function.exists_lastSite h
  rw [FuncCtx.labelIp, Function.emitCtx, f.lookup_label, hk]
  show _ ↔ k % 2 ^ 32 = ip
  constructor
  · rintro ⟨k', hk', hmod⟩
    cases hk.symm.trans hk'
    exact hmod
  · intro hmod
    exact ⟨k, hk, hmod⟩

/-- The targets are right exactly if the names denote their positions. -/
theorem Function.CompilesTo.ownTargets_iff (h : f.CompilesTo ast fd) :
    OwnTargets (f.emitCtx ast) f fd.instructions ↔ (∀ site ∈ f.blockLabels, f.Denotes site) ∧
      ∀ instr name ip, .instr instr ∈ partsOfAll f.body → instr.jumpLabel = some name →
        (name, ip) ∈ f.userLabels → f.Denotes (name, ip) := by
  have hcode := h.code_eq
  constructor
  · intro hown
    constructor
    · rintro ⟨name, ip⟩ hsite
      refine (Function.denotes_iff ast (f.mem_labelSites_iff.mpr (.inr hsite))).mpr ?_
      obtain ⟨b, hb, hsite⟩ := List.mem_flatMap.mp hsite
      obtain ⟨c, t, htry, -, -, hc, ht⟩ := hown.block b hb
      have htry' := (h.guard_iff rfl).mpr ⟨b, hb, .head _⟩
      cases htry.symm.trans htry'
      simp only [TryBlock.labels, List.mem_cons, Prod.mk.injEq, List.not_mem_nil, or_false] at hsite
      rcases hsite with ⟨rfl, rfl⟩ | ⟨rfl, rfl⟩
      · exact hc
      · exact ht
    · intro instr name ip hinstr hname hip
      obtain ⟨next, s, hv⟩ := visits_of_mem_partsOfAll (f.emitCtx ast) f.body .start hcode _ hinstr
      obtain ⟨c, pos, hat, hlast, hpos⟩ := hown.jump hv name ip hname hip
      obtain ⟨c', hc', hat'⟩ := hv.instr_at hcode
      cases hat.symm.trans hat'
      obtain ⟨pos', hlast', hlookup⟩ := FuncCtx.emitInstr_jump hc' hname
      cases hlast.symm.trans hlast'
      refine (Function.denotes_iff ast (f.mem_labelSites_iff.mpr (.inl hip))).mpr ?_
      rw [FuncCtx.labelIp, hlookup]
      exact hpos
  · rintro ⟨hblock, hjump⟩
    constructor
    · intro b hb
      have hmem : ∀ site ∈ b.labels, ((f.emitCtx ast).labelIp site.1).toNat = site.2 := by
        intro site hsite
        have hsite' : site ∈ f.blockLabels := List.mem_flatMap.mpr ⟨b, hb, hsite⟩
        have hmem := f.mem_labelSites_iff.mpr (.inr hsite')
        exact (Function.denotes_iff ast hmem).mp (hblock site hsite')
      refine ⟨_, _, (h.guard_iff rfl).mpr ⟨b, hb, .head _⟩,
        (h.guard_iff rfl).mpr ⟨b, hb, .tail _ (.head _)⟩,
        (h.guard_iff rfl).mpr ⟨b, hb, .tail _ (.tail _ (.head _))⟩, ?_, ?_⟩
      · exact hmem _ (.head _)
      · exact hmem _ (.tail _ (.head _))
    · intro instr next s hv name ip hname hip
      obtain ⟨c, hc, hat⟩ := hv.instr_at hcode
      obtain ⟨pos, hlast, hlookup⟩ := FuncCtx.emitInstr_jump hc hname
      refine ⟨c, pos, hat, hlast, ?_⟩
      have hd := hjump instr name ip hv.mem_parts hname hip
      have hip' := (Function.denotes_iff ast (f.mem_labelSites_iff.mpr (.inl hip))).mp hd
      rw [FuncCtx.labelIp, hlookup] at hip'
      exact hip'

end Compiled

/-- **Every `TRY` targets its own blocks**, and every jump its `LABEL`, exactly in the functions
whose labels are apart. -/
theorem tryTargets_own_iff {u : Unicode} {src : String} {ast : ProgramAst} {p : Program} {i : Nat}
    {f : Function} {fd : FunctionDef} (hast : frontend u src = .ok ast)
    (hp : compileSource u src = .ok p) (hf : ast.functions[i]? = some f)
    (hfd : p.functions[i]? = some fd) :
    OwnTargets (f.emitCtx ast) f fd.instructions ↔ f.LabelsApart := by
  rw [compileSource_eq hast] at hp
  obtain ⟨f', hf', hcomp⟩ := emit_function hp hfd
  cases hf.symm.trans hf'
  have hmem := List.mem_of_getElem? hf
  have hlab := frontend_labelled hast hmem
  have honce := frontend_labelsOnce hast hmem
  rw [hcomp.ownTargets_iff]
  exact ⟨fun h => labelsApart_of_denotes hlab honce h.1 h.2, denotes_of_labelsApart hlab honce⟩

section Example

/-- A `TRY` block, a `LABEL` and a jump to it. -/
def backwardJumpSource : String :=
  "FUNC Main\nTRY\nDIV 1, 0, 0\nCATCH\nENDTRY\nLABEL L\nJMP L\nENDF"

private def backwardJumpTokens : List Token :=
  [⟨.ident "FUNC", 1⟩, ⟨.ident "Main", 1⟩, ⟨.ident "TRY", 2⟩, ⟨.ident "DIV", 3⟩, ⟨.integer 1, 3⟩,
    ⟨.comma, 3⟩, ⟨.integer 0, 3⟩, ⟨.comma, 3⟩, ⟨.integer 0, 3⟩, ⟨.ident "CATCH", 4⟩,
    ⟨.ident "ENDTRY", 5⟩, ⟨.ident "LABEL", 6⟩, ⟨.ident "L", 6⟩, ⟨.ident "JMP", 7⟩,
    ⟨.ident "L", 7⟩, ⟨.ident "ENDF", 8⟩, ⟨.eof, 8⟩]

/-- Its function. -/
def backwardJumpFunction : Function :=
  ⟨"Main", [], [.tryBlock "__catch_2" "__endtry_2"
    [.instr ⟨"DIV", [.integer 1, .integer 0, .integer 0], 3⟩] [] 2, .label "L" 6,
    .instr ⟨"JMP", [.ident "L"], 7⟩], 1⟩

/-- Its code. -/
def backwardJumpCode : FunctionDef :=
  ⟨"Main", [], [⟨.try_, [.labelTarget 2, .labelTarget 3]⟩,
    ⟨.div, [.imm (.int .int32 1), .imm (.int .int32 0), .slot (.local_ 0)]⟩,
    ⟨.catch_, [.labelTarget 3]⟩, ⟨.endTry, []⟩, ⟨.jmp, [.labelTarget 4]⟩]⟩

private theorem backwardJump_tokens :
    tokenize .ascii backwardJumpSource = .ok backwardJumpTokens := (rfl)

theorem backwardJump_frontend :
    frontend .ascii backwardJumpSource = .ok ⟨[], [], [], [backwardJumpFunction]⟩ :=
  frontend_eq backwardJump_tokens rfl rfl

theorem backwardJump_compiles :
    compileSource .ascii backwardJumpSource = .ok ⟨1, [], [backwardJumpCode]⟩ :=
  (compileSource_eq backwardJump_frontend).trans rfl

theorem tryTargets_own_iff_backwardJump :
    OwnTargets (backwardJumpFunction.emitCtx ⟨[], [], [], [backwardJumpFunction]⟩)
      backwardJumpFunction backwardJumpCode.instructions ↔ backwardJumpFunction.LabelsApart :=
  tryTargets_own_iff backwardJump_frontend backwardJump_compiles (i := 0) rfl rfl

/-- Two `TRY` blocks on one line. -/
def oneLineSource : String := "FUNC Main\nTRY DIV 1, 0, 0 CATCH ENDTRY TRY CATCH ENDTRY\nENDF"

private def oneLineTokens : List Token :=
  [⟨.ident "FUNC", 1⟩, ⟨.ident "Main", 1⟩, ⟨.ident "TRY", 2⟩, ⟨.ident "DIV", 2⟩, ⟨.integer 1, 2⟩,
    ⟨.comma, 2⟩, ⟨.integer 0, 2⟩, ⟨.comma, 2⟩, ⟨.integer 0, 2⟩, ⟨.ident "CATCH", 2⟩,
    ⟨.ident "ENDTRY", 2⟩, ⟨.ident "TRY", 2⟩, ⟨.ident "CATCH", 2⟩, ⟨.ident "ENDTRY", 2⟩,
    ⟨.ident "ENDF", 3⟩, ⟨.eof, 3⟩]

/-- Its function. -/
def oneLineFunction : Function :=
  ⟨"Main", [], [.tryBlock "__catch_2" "__endtry_2"
    [.instr ⟨"DIV", [.integer 1, .integer 0, .integer 0], 2⟩] [] 2,
    .tryBlock "__catch_2" "__endtry_2" [] [] 2], 1⟩

/-- Its code: the first `TRY` names the `CATCH` of the second. -/
def oneLineCode : FunctionDef :=
  ⟨"Main", [], [⟨.try_, [.labelTarget 5, .labelTarget 6]⟩,
    ⟨.div, [.imm (.int .int32 1), .imm (.int .int32 0), .slot (.local_ 0)]⟩,
    ⟨.catch_, [.labelTarget 6]⟩, ⟨.endTry, []⟩, ⟨.try_, [.labelTarget 5, .labelTarget 6]⟩,
    ⟨.catch_, [.labelTarget 6]⟩, ⟨.endTry, []⟩]⟩

private theorem oneLine_tokens : tokenize .ascii oneLineSource = .ok oneLineTokens := (rfl)

theorem oneLine_frontend :
    frontend .ascii oneLineSource = .ok ⟨[], [], [], [oneLineFunction]⟩ :=
  frontend_eq oneLine_tokens rfl rfl

/-- Two blocks on one line are compiled to a program in which the first `TRY` has the targets of
the second. -/
theorem oneLine_mistargets :
    compileSource .ascii oneLineSource = .ok ⟨1, [], [oneLineCode]⟩ ∧
      ¬ OwnTargets (oneLineFunction.emitCtx ⟨[], [], [], [oneLineFunction]⟩) oneLineFunction
        oneLineCode.instructions := by
  refine ⟨(compileSource_eq oneLine_frontend).trans rfl, fun hown => ?_⟩
  obtain ⟨c, t, htry, -, -, hc, -⟩ := hown.block ⟨0, 2, 3, "__catch_2", "__endtry_2"⟩ (.head _)
  cases htry
  exact absurd hc (by decide)

end Example

end Fasm
