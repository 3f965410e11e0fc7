import Mathlib
import FlowForm.Proofs.Pipeline.Passes
import FlowForm.Proofs.Ssa.Atomicity
import FlowForm.Proofs.Ssa.Frame
import FlowForm.Proofs.Ssa.Numbering
import FlowForm.Proofs.Ssa.Pruning

/-!
# Construction Once More

A graph that has been brought into single-assignment form is recognised by its marks, and
construction refuses to start over. One kind of graph carries no marks afterwards: a graph is
**idle** if nothing is assigned within reach. Construction does go through once more then, but it
finds nothing to do. It has placed no placeholder and drawn no version the first time, and since no
definition reaches any use, it has taken away whatever versions the uses within reach had
(`outline_eq_self_of_idle`). So the result is its own outline, and the same result comes out again.

## Main results

* `stats_definitions_eq_zero_iff`: what is idle, by the statistics.
* `construct_of_idle`: construction of an idle graph has nothing to do but to erase versions.
* `construct_again`: what happens the second time.
-/

namespace FlowForm

/-! ### Nothing to erase -/

/-- A variable without a version is erased already. -/
theorem Var.erase_eq_self {v : Var} (h : v.version = none) : v.erase = v := by
  rw [erase, ← h]
  rfl

/-- An expression without versions is erased already. -/
theorem Expr.erase_eq_self {e : Expr} (h : ∀ v ∈ e.vars, v.version = none) : e.erase = e := by
  induction e with
  | imm n => rfl
  | var v => exact congrArg var (Var.erase_eq_self (h v (List.mem_singleton_self v)))
  | unary op e ih => exact congrArg (unary op) (ih h)
  | binary op l r ihl ihr =>
      have hl : l.erase = l := ihl fun v hv => h v (List.mem_append_left _ hv)
      have hr : r.erase = r := ihr fun v hv => h v (List.mem_append_right _ hv)
      exact congrArg₂ (binary op) hl hr

/-- A terminator without versions is erased already. -/
theorem Terminator.erase_eq_self {t : Terminator} (h : ∀ v ∈ t.vars, v.version = none) :
    t.erase = t := by
  cases t with
  | fall => rfl
  | jump a => rfl
  | branch e a => exact congrArg (branch · a) (Expr.erase_eq_self h)
  | ret value =>
      cases value with
      | none => rfl
      | some e => exact congrArg (fun e => ret (some e)) (Expr.erase_eq_self h)

/-- A block that defines nothing and reads no version **is its own outline**. -/
theorem Block.outline_eq_self {b : Block} (hphis : b.phis = []) (hdefs : b.defs = [])
    (huses : ∀ v ∈ b.uses, v.version = none) : b.outline = b := by
  have hitem : ∀ item ∈ b.items, item.erase = item := by
    intro item hmem
    have hnone : item.statements = [] :=
      List.map_eq_nil_iff.mp (List.flatMap_eq_nil_iff.mp hdefs item hmem)
    have hterminator : item.terminator.erase = item.terminator :=
      Terminator.erase_eq_self fun v hv =>
        huses v (List.mem_flatMap.mpr ⟨item, hmem, List.mem_append_right _ hv⟩)
    rw [Item.erase, hterminator, hnone, List.map_nil, ← hnone]
  have hitems : b.items.map Item.erase = b.items :=
    (List.map_congr_left hitem).trans (List.map_id' _)
  rw [outline, hitems, ← hphis]

/-- A counter is given by where it stands. -/
theorem Counter.eq_of_current_eq {c c' : Counter} (h : c.current = c'.current) : c = c' := by
  cases c
  cases c'
  cases h
  rfl

namespace Ssa

open DominatorTree

variable {g : FlowGraph} {counter : Counter} {result : Result}

/-! ### Idle graphs -/

/-- A graph is **idle** if no statement in a reachable block assigns anything. -/
def Idle (g : FlowGraph) : Prop :=
  ∀ id, g.Reachable id → defsOf g id = []

/-- An idle graph has no definitions to count. -/
theorem definitionCount_eq_zero_iff : definitionCount g (compute g) = 0 ↔ Idle g := by
  rw [definitionCount, List.length_eq_zero_iff, List.flatMap_eq_nil_iff]
  constructor
  · intro h id hid
    obtain ⟨b, hb⟩ := FlowGraph.exists_block? hid.lt_size
    rw [defsOf_eq hb]
    exact h (id, b) (mem_reachableBlocks.mpr ⟨hid, hb⟩)
  · rintro h ⟨id, b⟩ hmem
    obtain ⟨hid, hb⟩ := mem_reachableBlocks.mp hmem
    have hdefs := h id hid
    rw [defsOf_eq hb] at hdefs
    exact hdefs

/-- Where nothing is assigned, nothing needs a placeholder. -/
theorem siteCount_eq_zero (h : Idle g) : siteCount (sites g (compute g)) = 0 := by
  have hdefs := definitionCount_eq_zero_iff.mpr h
  rw [definitionCount, List.length_eq_zero_iff, List.flatMap_eq_nil_iff] at hdefs
  have hnames : assignedNames (reachableBlocks g (compute g)) = [] := by
    rw [assignedNames, List.flatMap_eq_nil_iff.mpr, List.eraseDups_nil]
    exact fun p hp => List.map_eq_nil_iff.mpr (hdefs p hp)
  rw [siteCount, sites, hnames]
  rfl

/-- An idle graph needs **no versions**. -/
theorem versionsNeeded_eq_zero (h : Idle g) : versionsNeeded g = 0 := by
  rw [versionsNeeded, siteCount_eq_zero h, definitionCount_eq_zero_iff.mpr h]

/-- The statistics report no definition **exactly if the graph is idle**. -/
theorem stats_definitions_eq_zero_iff (h : construct g counter = .ok result) :
    result.stats.definitions = 0 ↔ Idle g := by
  rw [(stats_construct h).2, definitionCount_eq_zero_iff]

/-- Construction keeps a graph idle. -/
theorem idle_construct (h : construct g counter = .ok result) (hidle : Idle g) :
    Idle result.graph := by
  intro id hid
  rw [(reaching_construct h).1.reachable_iff] at hid
  have hlength := length_defsOf_construct h id
  rw [hidle id hid] at hlength
  exact List.length_eq_zero_iff.mp hlength

/-! ### Construction of an idle graph -/

/-- Nothing is defined within reach of the result, by placeholders as little as by statements. -/
theorem define_not_mem_of_idle (h : construct g counter = .ok result) (hidle : Idle g) {id : Nat}
    (hid : g.Reachable id) (v : Var) : .define v ∉ result.graph.eventsOf id := by
  intro hv
  obtain ⟨hvalid, -⟩ := construct_eq_ok h
  obtain ⟨exits, hbuilt⟩ := rebuilt_construct h
  obtain ⟨hphis, hdefinitions⟩ := stats_construct h
  have hnone := definedVersions_construct h
  rw [hphis, hdefinitions, siteCount_eq_zero hidle, definitionCount_eq_zero_iff.mpr hidle] at hnone
  obtain ⟨n, hn⟩ := Option.isSome_iff_exists.mp ((hbuilt.events hid).1.define hv)
  have hmem : n ∈ definedVersions (result.graph.eventsOf id) := mem_definedVersions.mpr ⟨v, hv, hn⟩
  have hpre := (mem_preorder_iff (FlowGraph.edgesAgree_of_validate hvalid)).mpr hid
  rw [List.flatMap_eq_nil_iff.mp hnone id hpre] at hmem
  cases hmem

/-- No use within reach of the result has a version, as no definition reaches it. -/
theorem version_eq_none_of_idle (h : construct g counter = .ok result) (hidle : Idle g) {id : Nat}
    (hid : g.Reachable id) {v : Var} (hv : .use v ∈ result.graph.eventsOf id) :
    v.version = none := by
  obtain ⟨hsame, entering, leaving, hreach⟩ := reaching_construct h
  obtain ⟨σ, hσ⟩ := hsame.reachable_iff.mpr hid
  obtain ⟨π, rfl⟩ := hσ.exists_concat
  obtain ⟨pre, post, hevents⟩ := List.append_of_mem hv
  rw [hreach.use_eq_after hσ hevents, Env.after_of_not_defines]
  · rfl
  · rw [defines_append]
    rintro (⟨w, hw, -⟩ | ⟨w, hw, -⟩)
    · obtain ⟨c, hc, hw⟩ := List.mem_flatMap.mp hw
      have hc : result.graph.Reachable c := hσ.reachable_of_mem (List.mem_append_left _ hc)
      exact define_not_mem_of_idle h hidle (hsame.reachable_iff.mp hc) w hw
    · refine define_not_mem_of_idle h hidle hid w ?_
      rw [hevents]
      exact List.mem_append_left _ hw

/-- The result has **no placeholders**. -/
theorem phisOf_eq_nil_of_idle (h : construct g counter = .ok result) (hidle : Idle g) (id : Nat) :
    phisOf result.graph id = [] := by
  obtain ⟨-, hssa, -⟩ := construct_eq_ok h
  obtain ⟨exits, hbuilt⟩ := rebuilt_construct h
  refine List.eq_nil_iff_forall_not_mem.mpr fun phi hphi => ?_
  obtain ⟨b, -, -, hid, -⟩ := hbuilt.exists_needs hssa hphi
  refine define_not_mem_of_idle h hidle hid phi.var (define_mem_eventsOf ?_)
  exact List.mem_append_left _ (List.mem_map.mpr ⟨phi, hphi, rfl⟩)

/-- The blocks within reach of the result **are their own outlines**. -/
theorem outline_eq_self_of_idle (h : construct g counter = .ok result) (hidle : Idle g) {id : Nat}
    {b : Block} (hid : g.Reachable id) (hb : result.graph.block? id = some b) : b.outline = b := by
  have hphis := phisOf_eq_nil_of_idle h hidle id
  have hdefs := idle_construct h hidle id ((reaching_construct h).1.reachable_iff.mpr hid)
  rw [phisOf_eq hb] at hphis
  rw [defsOf_eq hb] at hdefs
  refine Block.outline_eq_self hphis hdefs fun v hv => version_eq_none_of_idle h hidle hid ?_
  rw [FlowGraph.eventsOf_eq hb, Block.events]
  exact List.mem_append_right _ (use_mem_itemEvents.mpr hv)

/-- Construction of an idle graph **draws no version and has nothing to count**. -/
theorem construct_of_idle (h : construct g counter = .ok result) (hidle : Idle g) :
    result.counter = counter ∧
      result.stats = { definitions := 0, phis := 0, renamedUses := 0 } := by
  obtain ⟨hvalid, -⟩ := construct_eq_ok h
  have hagree := FlowGraph.edgesAgree_of_validate hvalid
  constructor
  · refine Counter.eq_of_current_eq ?_
    rw [advance_construct h, versionsNeeded_eq_zero hidle, Nat.add_zero]
  · obtain ⟨hphis, hdefinitions⟩ := stats_construct h
    obtain ⟨exits, hcounts⟩ := counts_construct h
    have hbound : boundUses (result.graph.eventsAlong (compute g).preorder) = 0 := by
      refine List.countP_eq_zero.mpr fun e he hbound => ?_
      obtain ⟨id, hid, he⟩ := List.mem_flatMap.mp he
      cases e with
      | define v => cases hbound
      | use v =>
          have hnone := version_eq_none_of_idle h hidle ((mem_preorder_iff hagree).mp hid) he
          simp [Event.isBoundUse, Var.isVersioned, hnone] at hbound
    have hoperands : ∀ pred, boundOperands exits result.graph pred = fun _ => 0 := fun pred =>
      funext fun succ => by rw [boundOperands, phisOf_eq_nil_of_idle h hidle]; rfl
    have huses : result.stats.renamedUses = 0 := by
      simpa [hbound, hoperands] using hcounts.uses_eq
    rw [siteCount_eq_zero hidle] at hphis
    rw [definitionCount_eq_zero_iff.mpr hidle] at hdefinitions
    calc result.stats
      _ = ⟨result.stats.definitions, result.stats.phis, result.stats.renamedUses⟩ := rfl
      _ = ⟨0, 0, 0⟩ := by rw [hdefinitions, hphis, huses]

/-- The result is **not marked**: there is nothing within reach that could be, and the rest was not
marked before. -/
theorem isInSsa_of_idle (h : construct g counter = .ok result) (hidle : Idle g) :
    isInSsa result.graph = false := by
  have hsame := (reaching_construct h).1
  rw [isInSsa_eq_false_iff]
  rintro ⟨b, hmem, hmark⟩
  obtain ⟨id, hb⟩ := List.getElem?_of_mem hmem
  rcases hmark with hphis | ⟨v, hv, hversioned⟩
  · exact hphis (phisOf_eq hb ▸ phisOf_eq_nil_of_idle h hidle id)
  · rw [← defsOf_eq hb] at hv
    by_cases hid : g.Reachable id
    · rw [idle_construct h hidle id (hsame.reachable_iff.mpr hid)] at hv
      cases hv
    · have hnone := version_eq_none_of_not_reachable h hid (List.mem_append_right _ hv)
      simp [Var.isVersioned, hnone] at hversioned

/-- Construction of an idle graph **finds its own result unchanged** when it is done once more. -/
theorem construct_again_of_idle (h : construct g counter = .ok result) (hidle : Idle g)
    (counter' : Counter) : construct result.graph counter' =
      .ok { graph := result.graph, counter := counter',
            stats := { definitions := 0, phis := 0, renamedUses := 0 } } := by
  obtain ⟨hvalid, -⟩ := construct_eq_ok h
  have hsame := (reaching_construct h).1
  have hidle' := idle_construct h hidle
  have henough : versionsNeeded result.graph ≤ counter'.remaining := by
    rw [versionsNeeded_eq_zero hidle']
    exact Nat.zero_le _
  obtain ⟨result', -, hresult', -⟩ :=
    exists_construct (hsame.validate_eq.trans hvalid) (isInSsa_of_idle h hidle) henough
  obtain ⟨exits', hbuilt'⟩ := rebuilt_construct hresult'
  have hgraph : result'.graph = result.graph := by
    refine FlowGraph.eq_of_block? hbuilt'.keys_eq hbuilt'.unresolved_eq fun id => ?_
    by_cases hid : result.graph.Reachable id
    · obtain ⟨b, hb⟩ := FlowGraph.exists_block? hid.lt_size
      obtain ⟨b', hb', houtline⟩ := hbuilt'.sameOutline.exists_block hb
      rw [outline_eq_self_of_idle hresult' hidle' hid hb',
        outline_eq_self_of_idle h hidle (hsame.reachable_iff.mp hid) hb] at houtline
      rw [hb, hb', houtline]
    · exact hbuilt'.unreachable id hid
  obtain ⟨hcounter, hstats⟩ := construct_of_idle hresult' hidle'
  rw [hresult', ← hgraph, ← hcounter, ← hstats]

/-! ### Graphs with definitions -/

/-- Pruning keeps the definitions of statements. -/
theorem defsOf_prune (g : FlowGraph) : defsOf (prune g).1 = defsOf g := by
  funext id
  rw [defsOf, defsOf, prune, FlowGraph.block?_mapBlocks]
  cases g.block? id with
  | none => rfl
  | some b => rfl

/-- Pruning has nothing to do where there are no placeholders. -/
theorem prune_eq_self (h : ∀ id, phisOf g id = []) : (prune g).1 = g := by
  have hkeeps : ∀ phi ∈ allPhis g, keeps (liveVersions g) phi = true := by
    intro phi hphi
    obtain ⟨id, hphi⟩ := mem_allPhis.mp hphi
    rw [h id] at hphi
    cases hphi
  rw [prune_eq_of_keeps hkeeps]

/-- Definitions that have been counted **have left a mark**. -/
theorem exists_versioned_of_definitions (h : construct g counter = .ok result)
    (hpos : 0 < result.stats.definitions) :
    ∃ id, ∃ v ∈ defsOf result.graph id, v.isVersioned = true := by
  obtain ⟨hvalid, -⟩ := construct_eq_ok h
  obtain ⟨exits, hbuilt⟩ := rebuilt_construct h
  obtain ⟨exits', hcounts⟩ := counts_construct h
  rw [hcounts.definitions_eq, Nat.zero_add, List.length_pos_iff_exists_mem] at hpos
  obtain ⟨v, hv⟩ := hpos
  obtain ⟨id, hid, hv⟩ := List.mem_flatMap.mp hv
  have hreach := (mem_preorder_iff (FlowGraph.edgesAgree_of_validate hvalid)).mp hid
  refine ⟨id, v, hv, (hbuilt.events hreach).1.define (define_mem_eventsOf ?_)⟩
  exact List.mem_append_right _ hv

/-- A definition with a version marks the graph. -/
theorem marked_of_versioned {id : Nat} {v : Var} (hv : v ∈ defsOf g id)
    (hversioned : v.isVersioned = true) : Marked g := by
  rw [defsOf] at hv
  split at hv
  · rename_i b hb
    exact ⟨b, List.mem_of_getElem? hb, .inr ⟨v, hv, hversioned⟩⟩
  · cases hv

/-- **Construction once more changes nothing.** Of the graph that construction has left, pruned or
not, it says that it is in single-assignment form already if and only if definitions have been
counted the first time. Else it goes through, with the same graph, a counter that has not moved, and
nothing to count. The pass that asks for it leaves graph and counter as they are in any case. -/
theorem construct_again (h : construct g counter = .ok result) {again : FlowGraph}
    (hagain : again = result.graph ∨ again = (prune result.graph).1) (counter' : Counter) :
    (construct again counter' = .error .alreadyInSsa ↔ 0 < result.stats.definitions) ∧
    (result.stats.definitions = 0 → construct again counter' =
      .ok { graph := again, counter := counter',
            stats := { definitions := 0, phis := 0, renamedUses := 0 } }) ∧
    ∀ s : Session, s.state.flow = some again → s.state.counter = counter' →
      (Pass.ssa.run.run.run s).2.state.flow = some again ∧
      (Pass.ssa.run.run.run s).2.state.counter = counter' := by
  obtain ⟨hvalid, -⟩ := construct_eq_ok h
  have hsame := (reaching_construct h).1
  have hrefused : 0 < result.stats.definitions →
      construct again counter' = .error .alreadyInSsa := by
    intro hpos
    obtain ⟨id, v, hv, hversioned⟩ := exists_versioned_of_definitions h hpos
    have hdefs : defsOf again = defsOf result.graph := by
      rcases hagain with rfl | rfl
      · rfl
      · exact defsOf_prune result.graph
    have hvalid' : again.validate = .ok () := by
      rcases hagain with rfl | rfl
      · exact hsame.validate_eq.trans hvalid
      · exact (hsame.trans (FlowGraph.sameOutline_prune result.graph)).validate_eq.trans hvalid
    rw [← hdefs] at hv
    have hmarked : Marked again := marked_of_versioned hv hversioned
    exact construct_eq_alreadyInSsa hvalid' (isInSsa_iff_marked.mpr hmarked)
  have hrepeats : result.stats.definitions = 0 → construct again counter' =
      .ok { graph := again, counter := counter',
            stats := { definitions := 0, phis := 0, renamedUses := 0 } } := by
    intro hzero
    have hidle := (stats_definitions_eq_zero_iff h).mp hzero
    obtain rfl : again = result.graph := by
      rcases hagain with rfl | rfl
      · rfl
      · exact prune_eq_self (phisOf_eq_nil_of_idle h hidle)
    exact construct_again_of_idle h hidle counter'
  refine ⟨⟨fun hfail => ?_, hrefused⟩, hrepeats, fun s hflow hcounter => ?_⟩
  · by_contra hnot
    rw [hrepeats (Nat.eq_zero_of_not_pos hnot)] at hfail
    cases hfail
  · rw [Pass.runState_ssa, RunState.flowGraph, hflow, hcounter]
    rcases Nat.eq_zero_or_pos result.stats.definitions with hzero | hpos
    · simp only [hrepeats hzero, and_self]
    · simp only [hrefused hpos, hflow, hcounter, and_self]

/-- A single block that assigns nothing and reads a version of some earlier run. -/
def echo : FlowGraph where
  blocks := [
    { address := 0, items := [{ address := 0, terminator := .ret (some (.var ⟨"n", some 4⟩)) }] }]
  keys := [0]
  blocks_ne_nil := by decide
  length_keys := by decide
  nodup_keys := by decide

/-- The first time, construction takes the version of an idle graph away. The second time it changes
nothing, and does without a version if none is left. A graph with definitions is refused after
pruning, too. -/
theorem construct_again_echo :
    (∃ result, construct echo .fresh = .ok result ∧ result.graph ≠ echo ∧
      construct result.graph (.startingAt maxVersion) =
        .ok { graph := result.graph, counter := .startingAt maxVersion,
              stats := { definitions := 0, phis := 0, renamedUses := 0 } }) ∧
    ∃ result, construct fork .fresh = .ok result ∧
      construct (prune result.graph).1 result.counter = .error .alreadyInSsa := by
  have hecho : (construct echo .fresh).map (fun result =>
      (result.stats.definitions, decide (result.graph = echo))) = .ok (0, false) := by decide_cbv
  have hfork : (construct fork .fresh).map (fun result => result.stats.definitions) = .ok 2 := by
    decide_cbv
  constructor
  · obtain ⟨result, hresult, hvalues⟩ := exists_of_map_construct hecho
    obtain ⟨hzero, hchanged⟩ := Prod.mk.inj hvalues
    refine ⟨result, hresult, of_decide_eq_false hchanged, ?_⟩
    exact (construct_again hresult (.inl rfl) _).2.1 hzero
  · obtain ⟨result, hresult, htwo⟩ := exists_of_map_construct hfork
    refine ⟨result, hresult, (construct_again hresult (.inr rfl) _).1.mpr ?_⟩
    rw [htwo]
    decide

end Ssa

end FlowForm
