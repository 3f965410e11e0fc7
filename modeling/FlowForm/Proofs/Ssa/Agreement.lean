import Mathlib
import FlowForm.Proofs.Ssa.Counts
import FlowForm.Proofs.Ssa.Reaching

/-!
# Operands for One Source

A placeholder has an operand for each predecessor that its block lists, and a valid graph may list a
predecessor more than once. Filling in gives a version to the **first** operand for a source only,
and any further one stays as it was placed, without a version (`Rebuilt.exists_unfilled`). The
operands for one source agree all the same where there is no version to be given, which is where no
assignment of the variable can have been passed (`leaving_eq_none_iff`).

Both together say exactly when the operands of all placeholders are right (`operands_agree_iff`): no
block that has a placeholder may list a predecessor twice up to which the variable can have been
assigned. This is so in particular if no block lists a predecessor twice.

## Main results

* `Needs.assignable`: where a placeholder is needed, an assignment can have been passed.
* `leaving_eq_none_iff`: which variables have no version at the end of a block.
* `operands_agree_iff`: when operands for one source agree.
* `operands_disagree_turnstile`: a valid graph in which they do not.
-/

namespace FlowForm.Ssa

open DominatorTree

variable {g g' : FlowGraph} {counter : Counter} {result : Result} {x : String}

/-! ### Assignments that can have been passed -/

/-- A variable is **assignable** up to the end of a block if a path leads there from a reachable
block that assigns it. -/
def Assignable (g : FlowGraph) (b : Nat) (x : String) : Prop :=
  ∃ a π, g.Reachable a ∧ Assigns g a x ∧ g.Path a π b

/-- What is assignable up to some block stays so along a path. -/
theorem Assignable.path {b c : Nat} {π : List Nat} (h : Assignable g b x) (hpath : g.Path b π c) :
    Assignable g c x := by
  obtain ⟨a, ρ, ha, hassigns, hρ⟩ := h
  obtain ⟨σ, rfl⟩ := hpath.exists_cons
  exact ⟨a, ρ ++ σ, ha, hassigns, hρ.trans hpath⟩

/-- **Where a placeholder is needed** for a variable, the variable is assignable: frontiers lead
along paths. -/
theorem Needs.assignable (hagree : g.EdgesAgree) {b : Nat} (h : Needs g b x) :
    Assignable g b x := by
  have hclosed : FrontierClosed g x {c | Assignable g c x} := by
    rintro c hc y ⟨p, ⟨π, hπ⟩, hedge, hdom, -⟩
    obtain ⟨ρ, hρ⟩ := hπ.exists_final (hdom.2.2 π hπ)
    have hassignable : Assignable g c x := by
      rcases hc with ⟨hreach, hassigns⟩ | hc
      · exact ⟨c, [c], hreach, hassigns, .start⟩
      · exact hc
    exact hassignable.path (hρ.step hedge)
  exact (isLeast_needs hagree x).2 hclosed h

/-- A block of the same outline defines what is assigned in it. -/
theorem Assigns.defines (hsame : g.SameOutline g') {b : Nat} (h : Assigns g b x) :
    Defines (g'.eventsOf b) x := by
  obtain ⟨block, hb, hdefs⟩ := h
  obtain ⟨block', hb', houtline⟩ := hsame.exists_block hb
  have hitems : block'.items.map Item.erase = block.items.map Item.erase :=
    congrArg Block.items houtline
  rw [FlowGraph.eventsOf_eq hb', Block.events, defines_append]
  right
  rw [← defines_map_erase, Block.itemEvents_erase hitems, defines_map_erase,
    Block.defines_itemEvents]
  exact hdefs

/-- **Which variables have no version** at the end of a reachable block of the result: those that
are not assignable. -/
theorem leaving_eq_none_iff (h : construct g counter = .ok result) {entering leaving : Nat → Env}
    (hreach : Reaching result.graph entering leaving) {b : Nat} (hb : g.Reachable b) :
    leaving b x = none ↔ ¬ Assignable g b x := by
  obtain ⟨hvalid, hssa, -⟩ := construct_eq_ok h
  have hagree := FlowGraph.edgesAgree_of_validate hvalid
  obtain ⟨exits, hbuilt⟩ := rebuilt_construct h
  have hsame := hbuilt.sameOutline
  constructor
  · rintro hnone ⟨a, π, ⟨ρ, hρ⟩, hassigns, hπ⟩
    obtain ⟨σ, rfl⟩ := hπ.exists_cons
    have hpath := hsame.path (hρ.trans hπ)
    have hdefines : Defines (result.graph.eventsAlong (ρ ++ σ)) x := by
      obtain ⟨v, hv, hname⟩ := hassigns.defines hsame
      exact ⟨v, List.mem_flatMap.mpr ⟨a, List.mem_append_left _ hρ.last_mem, hv⟩, hname⟩
    rw [hreach.leaving_eq_after hpath, Env.after_eq] at hnone
    cases hlast : lastDefinition? x (result.graph.eventsAlong (ρ ++ σ)) with
    | none => exact lastDefinition?_eq_none_iff.mp hlast hdefines
    | some d =>
        have hversioned := hreach.isVersioned_of_mem hpath (mem_of_lastDefinition? hlast).1
        rw [hlast] at hnone
        simp [Var.isVersioned, hnone] at hversioned
  · intro hnot
    obtain ⟨π, hπ⟩ := hb
    rw [hreach.leaving_eq_after (hsame.path hπ), Option.eq_none_iff_forall_ne_some]
    intro n hn
    obtain ⟨d, hd, rfl, -⟩ | ⟨-, hempty⟩ := Env.after_eq_some hn
    · obtain ⟨c, hc, hd⟩ := List.mem_flatMap.mp hd
      obtain ⟨ρ, hρ⟩ := hπ.exists_final hc
      have hcreach := hπ.reachable_of_mem hc
      refine hnot (Assignable.path ?_ hρ)
      rcases hbuilt.needs_or_assigns hssa hcreach ⟨d, hd, rfl⟩ with hneeds | hassigns
      · exact hneeds.assignable hagree
      · exact ⟨c, [c], hcreach, hassigns, .start⟩
    · cases hempty

/-! ### Further operands for a source -/

/-- Filling in keeps all operands for other sources. -/
theorem filter_setFirst_of_ne {pred : Nat} {version source : Option Nat} (h : source ≠ some pred)
    (ops : List Operand) :
    (setFirst pred version ops).filter (·.pred == source) = ops.filter (·.pred == source) := by
  induction ops with
  | nil => rfl
  | cons op ops ih =>
      rw [setFirst]
      split
      · rename_i hpred
        have hne : (op.pred == source) = false := by simpa [hpred] using h.symm
        simp only [List.filter_cons, hne, Bool.false_eq_true, if_false]
      · rw [List.filter_cons, List.filter_cons, ih]

/-- Filling in changes **at most the first** of the operands for a source. -/
theorem tail_filter_setFirst (pred : Nat) (version source : Option Nat) (ops : List Operand) :
    ((setFirst pred version ops).filter (·.pred == source)).tail =
      (ops.filter (·.pred == source)).tail := by
  by_cases hsource : source = some pred
  · subst hsource
    induction ops with
    | nil => rfl
    | cons op ops ih =>
        rw [setFirst]
        by_cases hpred : op.pred = some pred
        · simp [hpred]
        · simpa [hpred] using ih
  · rw [filter_setFirst_of_ne hsource]

/-- So does filling in from one source after the other. -/
theorem tail_filter_fillFrom (exits : Exits) (sources : List Nat) (phi : Phi)
    (source : Option Nat) :
    ((fillFrom exits sources phi).operands.filter (·.pred == source)).tail =
      (phi.operands.filter (·.pred == source)).tail := by
  induction sources generalizing phi with
  | nil => rfl
  | cons pred sources ih => exact (ih _).trans (tail_filter_setFirst ..)

/-- The operands for a source are as many as the sources that it is. -/
theorem length_filter_operands (ops : List Operand) (source : Option Nat) :
    (ops.filter (·.pred == source)).length = (ops.map (·.pred)).count source := by
  rw [← List.countP_eq_length_filter, List.count, List.countP_map]
  rfl

/-- The operand for a source that comes up once is found. -/
theorem find?_eq_some_of_count {ops : List Operand} {op : Operand} (hop : op ∈ ops)
    (hcount : (ops.map (·.pred)).count op.pred ≤ 1) :
    ops.find? (·.pred == op.pred) = some op := by
  have hmem : op ∈ ops.filter (·.pred == op.pred) := List.mem_filter.mpr ⟨hop, beq_self_eq_true _⟩
  rw [← length_filter_operands] at hcount
  rw [← List.head?_filter]
  obtain ⟨o, ho⟩ := List.length_eq_one_iff.mp
    (Nat.le_antisymm hcount (List.length_pos_of_mem hmem))
  rw [ho] at hmem ⊢
  rw [List.mem_singleton.mp hmem, List.head?_cons]

namespace Rebuilt

variable {exits : Exits}

/-- How often a predecessor comes up among the sources of a placeholder's operands. -/
theorem count_operands (h : Rebuilt g g' exits) (hssa : isInSsa g = false) {id : Nat} {phi : Phi}
    (hphi : phi ∈ phisOf g' id) (p : Nat) :
    (phi.operands.map (·.pred)).count (some p) = (g.preds id).count p := by
  have houtside : (if id = g.entry then [none] else []).count (some p) = 0 := by
    split
    · exact List.count_eq_zero.mpr (by simp)
    · rfl
  rw [h.map_pred_operands hssa hphi, List.count_append, houtside, Nat.zero_add,
    List.count_map_of_injective _ _ (Option.some_injective _)]

/-- If a predecessor is listed **more than once**, some operand for it has no version. -/
theorem exists_unfilled (h : Rebuilt g g' exits) (hssa : isInSsa g = false) {id p : Nat} {phi : Phi}
    (hphi : phi ∈ phisOf g' id) (htwice : 2 ≤ (g.preds id).count p) :
    ∃ op ∈ phi.operands, op.pred = some p ∧ op.var.version = none := by
  rw [← h.count_operands hssa hphi, ← length_filter_operands] at htwice
  obtain ⟨b, -, -, -, before, -, hoperands, hfill⟩ := h.exists_before hssa hphi
  have htail : (phi.operands.filter (·.pred == some p)).tail =
      (before.operands.filter (·.pred == some p)).tail := by
    rw [hfill]
    exact tail_filter_fillFrom ..
  obtain ⟨op, hop⟩ := List.exists_mem_of_length_pos
    (l := (phi.operands.filter (·.pred == some p)).tail) (by rw [List.length_tail]; omega)
  obtain ⟨hmem, hpred⟩ := List.mem_filter.mp (List.mem_of_mem_tail hop)
  refine ⟨op, hmem, by simpa using hpred, ?_⟩
  rw [htail, hoperands] at hop
  have hplaced := (List.mem_filter.mp (List.mem_of_mem_tail hop)).1
  obtain ⟨source, -, rfl⟩ := List.mem_map.mp hplaced
  rfl

end Rebuilt

/-! ### When operands agree -/

section Agreement

variable {entering leaving : Nat → Env} {b p : Nat}

/-- An operand that carries the version of the last definition has the version that is left
behind. -/
theorem version_eq_of_carries {v : Var} {es : List Event} (h : v.Carries (lastDefinition? x es)) :
    v.version = Env.empty.after es x := by
  rw [Env.after_eq]
  cases hlast : lastDefinition? x es with
  | none =>
      rw [hlast] at h
      exact h
  | some d =>
      rw [hlast] at h
      exact h.2

/-- An operand has **the version that reaches the end of its source** if the source is not listed
twice, or nothing that could be given to it is assignable up to there. -/
theorem version_eq_leaving (h : construct g counter = .ok result)
    (hreach : Reaching result.graph entering leaving) {phi : Phi}
    (hphi : phi ∈ phisOf result.graph b) {op : Operand} (hop : op ∈ phi.operands)
    (hpred : op.pred = some p) (hp : g.Reachable p)
    (hsafe : 2 ≤ (g.preds b).count p → ¬ Assignable g p phi.var.name) :
    op.var.version = leaving p phi.var.name := by
  obtain ⟨hvalid, hssa, -⟩ := construct_eq_ok h
  have hagree := FlowGraph.edgesAgree_of_validate hvalid
  obtain ⟨exits, hbuilt⟩ := rebuilt_construct h
  have hsame := hbuilt.sameOutline
  by_cases htwice : 2 ≤ (g.preds b).count p
  · have hnone := (leaving_eq_none_iff h hreach hp).mpr (hsafe htwice)
    rcases (hreach.operand_sound b phi hphi op hop).2 with hversion | ⟨u, hu, -, -, hversion⟩
    · rw [hversion, hnone]
    · rw [hpred] at hu
      rw [hversion, Option.some.inj hu]
  · have hcount := hbuilt.count_operands hssa hphi p
    have hmem : p ∈ g.preds b := by
      rw [← List.count_pos_iff, ← hcount, List.count_pos_iff]
      exact List.mem_map.mpr ⟨op, hop, hpred⟩
    have hedge := hagree.hasEdge hp.lt_size (FlowGraph.lt_size_of_mem_preds hmem) hmem
    have hfound : phi.operand? (some p) = some op := by
      rw [← hpred]
      exact find?_eq_some_of_count hop (by rw [hpred, hcount]; omega)
    rw [hreach.operand p b (hsame.reachable_iff.mpr hp) (hsame.hasEdge_iff.mpr hedge) phi hphi]
      at hfound
    rw [← Option.some.inj hfound]

/-- If a source **is listed twice** and something is assignable up to there, one operand for it has
the version that reaches its end, and another has none. -/
theorem exists_disagreeing (h : construct g counter = .ok result)
    (hreach : Reaching result.graph entering leaving) (hplace : (b, x) ∈ phiPlaces g)
    (htwice : 2 ≤ (g.preds b).count p) (hassignable : Assignable g p x) :
    g.Reachable p ∧ leaving p x ≠ none ∧ ∃ phi ∈ phisOf result.graph b, phi.var.name = x ∧
      ∃ first ∈ phi.operands, ∃ later ∈ phi.operands, first.pred = some p ∧ later.pred = some p ∧
        first.var.version = leaving p x ∧ later.var.version = none := by
  obtain ⟨hvalid, hssa, -⟩ := construct_eq_ok h
  have hagree := FlowGraph.edgesAgree_of_validate hvalid
  obtain ⟨exits, hbuilt⟩ := rebuilt_construct h
  have hsame := hbuilt.sameOutline
  have hp : g.Reachable p := by
    obtain ⟨a, π, ⟨ρ, hρ⟩, -, hπ⟩ := hassignable
    obtain ⟨σ, rfl⟩ := hπ.exists_cons
    exact ⟨ρ ++ σ, hρ.trans hπ⟩
  have hne : leaving p x ≠ none := fun hnone =>
    (leaving_eq_none_iff h hreach hp).mp hnone hassignable
  obtain ⟨phi, hphi, rfl⟩ := hbuilt.exists_phi hagree hssa ((mem_phiPlaces hagree).mp hplace)
  have hmem : p ∈ g.preds b := List.count_pos_iff.mp (by omega)
  have hedge := hagree.hasEdge hp.lt_size (FlowGraph.lt_size_of_mem_preds hmem) hmem
  have hfirst := hreach.operand p b (hsame.reachable_iff.mpr hp) (hsame.hasEdge_iff.mpr hedge) phi
    hphi
  obtain ⟨later, hlater, hpred, hnone⟩ := hbuilt.exists_unfilled hssa hphi htwice
  exact ⟨hp, hne, phi, hphi, rfl, _, List.mem_of_find?_eq_some hfirst, later, hlater, rfl, hpred,
    rfl, hnone⟩

end Agreement

/-- **When operands for one source agree.** After construction any two operands of a placeholder
with the same source have the same version if and only if no block that gets a placeholder for a
variable lists a predecessor twice up to the end of which the variable is assignable. And under just
this condition every operand carries, on every path from the entry to its source, the version of the
last definition. -/
theorem operands_agree_iff (h : construct g counter = .ok result) :
    ((∀ b, ∀ phi ∈ phisOf result.graph b, ∀ op ∈ phi.operands, ∀ op' ∈ phi.operands,
        op.pred = op'.pred → op.var.version = op'.var.version) ↔
      ∀ b x, (b, x) ∈ phiPlaces g → ∀ p, 2 ≤ (g.preds b).count p → ¬ Assignable g p x) ∧
    ((∀ b, ∀ phi ∈ phisOf result.graph b, ∀ op ∈ phi.operands, ∀ u π, op.pred = some u →
        result.graph.Path result.graph.entry π u →
        op.var.Carries (lastDefinition? phi.var.name (result.graph.eventsAlong π))) ↔
      ∀ b x, (b, x) ∈ phiPlaces g → ∀ p, 2 ≤ (g.preds b).count p → ¬ Assignable g p x) := by
  obtain ⟨hvalid, hssa, -⟩ := construct_eq_ok h
  have hagree := FlowGraph.edgesAgree_of_validate hvalid
  obtain ⟨exits, hbuilt⟩ := rebuilt_construct h
  obtain ⟨hsame, entering, leaving, hreach⟩ := reaching_construct h
  have hplace : ∀ b, ∀ phi ∈ phisOf result.graph b, (b, phi.var.name) ∈ phiPlaces g :=
    fun b phi hphi => (mem_phiPlaces hagree).mpr
      ((hbuilt.exists_phi_iff hagree hssa).mp ⟨phi, hphi, rfl⟩)
  refine ⟨⟨fun hall b x hplace p htwice hassignable => ?_, fun hsafe b phi hphi => ?_⟩,
    fun hall b x hplace p htwice hassignable => ?_, fun hsafe b phi hphi op hop u π hpred hπ => ?_⟩
  · obtain ⟨-, hne, phi, hphi, -, first, hfirst, later, hlater, hpred, hpred', hversion, hnone⟩ :=
      exists_disagreeing h hreach hplace htwice hassignable
    have heq := hall b phi hphi first hfirst later hlater (hpred.trans hpred'.symm)
    exact hne (hversion.symm.trans (heq.trans hnone))
  · intro op hop op' hop' hpred
    by_cases hsource : ∃ u, op.pred = some u ∧ g.Reachable u
    · obtain ⟨u, hu, hreachable⟩ := hsource
      have hcondition := hsafe b _ (hplace b phi hphi) u
      rw [version_eq_leaving h hreach hphi hop hu hreachable hcondition,
        version_eq_leaving h hreach hphi hop' (hpred ▸ hu) hreachable hcondition]
    · -- No version comes from a block that cannot be reached, or from outside.
      have hnone : ∀ o ∈ phi.operands, o.pred = op.pred → o.var.version = none := by
        intro o ho hpred
        rcases (hreach.operand_sound b phi hphi o ho).2 with hversion | ⟨u, hu, hreachable, -⟩
        · exact hversion
        · exact absurd ⟨u, hpred ▸ hu, hsame.reachable_iff.mp hreachable⟩ hsource
      rw [hnone op hop rfl, hnone op' hop' hpred.symm]
  · obtain ⟨⟨π, hπ⟩, hne, phi, hphi, rfl, -, -, later, hlater, -, hpred, -, hnone⟩ :=
      exists_disagreeing h hreach hplace htwice hassignable
    have hpath := hsame.path hπ
    have hversion := version_eq_of_carries (hall b phi hphi later hlater p π hpred hpath)
    rw [← hreach.leaving_eq_after hpath, hnone] at hversion
    exact hne hversion.symm
  · have hu : g.Reachable u := hsame.reachable_iff.mp ⟨π, hπ⟩
    have hname := (hreach.operand_sound b phi hphi op hop).1
    have hversion := version_eq_leaving h hreach hphi hop hpred hu (hsafe b _ (hplace b phi hphi) u)
    rw [← hname] at hversion ⊢
    refine Reaching.carries_lastDefinition? (fun d hd => hreach.isVersioned_of_mem hπ hd) ?_
    rw [hversion, hreach.leaving_eq_after hπ]

/-- Two ways lead to the last block, which lists one of them twice, and only the other one assigns
`x`. -/
def sideDoor : FlowGraph where
  blocks := [
    { address := 90, items := [{ address := 90, terminator := .branch (.var ⟨"c", none⟩) 92 }],
      succs := [2, 1], fall := some 1 },
    { address := 91,
      items := [{ address := 91, statements := [⟨⟨"x", none⟩, .imm 1⟩], terminator := .jump 93 }],
      preds := [0], succs := [3] },
    { address := 92, items := [{ address := 92 }], preds := [0], succs := [3], fall := some 3 },
    { address := 93, items := [{ address := 93, terminator := .ret (some (.var ⟨"x", none⟩)) }],
      preds := [2, 1, 2] }]
  keys := [90, 91, 92, 93]
  blocks_ne_nil := by decide
  length_keys := by decide
  nodup_keys := by decide

/-- A way to the side door comes from the entry, where nothing is assigned. -/
theorem eq_of_path_sideDoor {a : Nat} {π : List Nat} (h : sideDoor.Path a π 2) : a = 0 ∨ a = 2 := by
  have hside : ∀ u < 4, 2 ∈ sideDoor.succs u → u = 0 := by decide
  have hentry : ∀ u < 4, 0 ∉ sideDoor.succs u := by decide
  cases h with
  | start => exact .inr rfl
  | @step π u _ hpath hedge =>
      obtain rfl := hside u (FlowGraph.lt_size_of_mem_succs hedge.1) hedge.1
      cases hpath with
      | start => exact .inl rfl
      | step _ hback =>
          exact absurd hback.1 (hentry _ (FlowGraph.lt_size_of_mem_succs hback.1))

/-- Operands agree although a predecessor is listed twice. -/
theorem operands_agree_iff_sideDoor :
    ∃ result, construct sideDoor .fresh = .ok result ∧ (3, "x") ∈ phiPlaces sideDoor ∧
      2 ≤ (sideDoor.preds 3).count 2 ∧
      ∀ b, ∀ phi ∈ phisOf result.graph b, ∀ op ∈ phi.operands, ∀ op' ∈ phi.operands,
        op.pred = op'.pred → op.var.version = op'.var.version := by
  have heval : (construct sideDoor .fresh).map (fun result =>
      (phisOf result.graph 3).map (·.var.name)) = .ok ["x"] := by decide_cbv
  obtain ⟨result, hresult, hnames⟩ := exists_of_map_construct heval
  obtain ⟨hvalid, hssa, -⟩ := construct_eq_ok hresult
  have hagree := FlowGraph.edgesAgree_of_validate hvalid
  obtain ⟨exits, hbuilt⟩ := rebuilt_construct hresult
  refine ⟨result, hresult, ?_, by decide, (operands_agree_iff hresult).1.mpr ?_⟩
  · rw [mem_phiPlaces hagree, ← hbuilt.exists_phi_iff hagree hssa, ← List.mem_map, hnames]
    exact List.mem_singleton.mpr rfl
  · rintro b x - p htwice ⟨a, π, -, ⟨block, hblock, v, hv, -⟩, hπ⟩
    have honce : ∀ b < 4, ∀ p ∈ sideDoor.preds b, 2 ≤ (sideDoor.preds b).count p → p = 2 := by
      decide
    have hp : p ∈ sideDoor.preds b :=
      List.count_pos_iff.mp (Nat.lt_of_lt_of_le Nat.zero_lt_two htwice)
    obtain rfl := honce b (FlowGraph.lt_size_of_mem_preds hp) p hp htwice
    rcases eq_of_path_sideDoor hπ with rfl | rfl
    · cases hblock
      cases hv
    · cases hblock
      cases hv

/-- A block that leads back to itself, assigns `a` and lists itself twice as its predecessor. -/
def turnstile : FlowGraph where
  blocks := [
    { address := 60,
      items := [{ address := 60, statements := [⟨⟨"a", none⟩, .imm 1⟩] },
        { address := 61, terminator := .jump 60 }],
      preds := [0, 0], succs := [0] }]
  keys := [60]
  blocks_ne_nil := by decide
  length_keys := by decide
  nodup_keys := by decide

/-- The graph is valid, construction succeeds on it, and of the two operands for the block itself
one has the version that reaches its end and the other has none. -/
theorem operands_disagree_turnstile :
    turnstile.validate = .ok () ∧ ∃ result, construct turnstile .fresh = .ok result ∧
      ∃ phi ∈ phisOf result.graph 0, ∃ op ∈ phi.operands, ∃ op' ∈ phi.operands,
        op.pred = op'.pred ∧ op.var.version ≠ op'.var.version ∧
        op'.pred = some 0 ∧ result.graph.Path result.graph.entry [0] 0 ∧
        ¬ op'.var.Carries (lastDefinition? phi.var.name (result.graph.eventsAlong [0])) := by
  have heval : (construct turnstile .fresh).map (fun result =>
      (phisOf result.graph 0, lastDefinition? "a" (result.graph.eventsAlong [0]))) =
      .ok ([⟨⟨"a", some 0⟩,
        [⟨none, ⟨"a", none⟩⟩, ⟨some 0, ⟨"a", some 1⟩⟩, ⟨some 0, ⟨"a", none⟩⟩]⟩],
        some ⟨"a", some 1⟩) := by decide_cbv
  obtain ⟨result, hresult, hvalues⟩ := exists_of_map_construct heval
  obtain ⟨hphis, hlast⟩ := Prod.mk.inj hvalues
  refine ⟨by decide, result, hresult, ?_⟩
  rw [hphis]
  refine ⟨_, List.mem_singleton.mpr rfl, ⟨some 0, ⟨"a", some 1⟩⟩, by simp,
    ⟨some 0, ⟨"a", none⟩⟩, by simp, rfl, by simp, rfl, .start, ?_⟩
  rw [hlast]
  simp [Var.Carries]

end FlowForm.Ssa
