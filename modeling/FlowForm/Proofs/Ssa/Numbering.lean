import Mathlib
import FlowForm.Proofs.Ssa.Counts

/-!
# The Order of Versions

Versions are drawn one after the other on a walk over the dominator tree that visits a block before
those that it dominates, and within a block from its placeholders down to its last statement. So the
versions of the result are numbered without gaps from where the counter stood, and a definition that
every path to another one passes has been given the smaller number.

Dominance is meant between **points**, a block and a position among its definitions: two definitions
of one block are compared by their positions, and definitions of different blocks by their blocks
(`PointDominates.cases`).

## Main results

* `definedVersions_eventsOf`: what the events of a block define, by its list of definitions.
* `lt_of_strictlyDominates`: a dominator defines the smaller versions.
* `construct_numbers_definitions`: the numbering as a whole.
-/

namespace FlowForm

/-- The variable that an event defines. -/
def Event.defined? : Event → Option Var
  | define v => some v
  | use _ => none

namespace Ssa

open DominatorTree

variable {g : FlowGraph} {counter : Counter} {result : Result}

/-! ### The definitions of a block -/

/-- The **definitions** of a block, its placeholders before its statements. -/
def definitionsOf (g : FlowGraph) (id : Nat) : List Var :=
  (phisOf g id).map (·.var) ++ defsOf g id

/-- Reading defines nothing. -/
theorem filterMap_defined?_uses (vs : List Var) :
    (vs.map Event.use).filterMap Event.defined? = [] := by
  rw [List.filterMap_map]
  exact List.filterMap_eq_nil_iff.mpr fun _ _ => rfl

/-- An item defines the targets of its statements. -/
theorem filterMap_defined?_events (item : Item) :
    item.events.filterMap Event.defined? = item.defs := by
  have hstatement : ∀ s : Assignment, s.events.filterMap Event.defined? = [s.target] := fun s => by
    rw [Assignment.events, List.filterMap_append, filterMap_defined?_uses]
    rfl
  rw [Item.events, List.filterMap_append, filterMap_defined?_uses, List.append_nil,
    List.filterMap_flatMap, Item.defs, List.map_eq_flatMap]
  simp only [hstatement]

/-- The definitions among the events of a block are its definitions, in their order. -/
theorem filterMap_defined?_eventsOf (g : FlowGraph) (id : Nat) :
    (g.eventsOf id).filterMap Event.defined? = definitionsOf g id := by
  rw [FlowGraph.eventsOf, definitionsOf, phisOf, defsOf]
  cases g.block? id with
  | none => rfl
  | some b =>
      have hphi : ∀ phi : Phi, phi.events.filterMap Event.defined? = [phi.var] := fun _ => rfl
      simp only [Block.events, Block.itemEvents, Block.defs, List.filterMap_append,
        List.filterMap_flatMap, filterMap_defined?_events, hphi, List.map_eq_flatMap]

/-- The versions that the events of a block define are those of its definitions. -/
theorem definedVersions_eventsOf (g : FlowGraph) (id : Nat) :
    definedVersions (g.eventsOf id) = (definitionsOf g id).filterMap (·.version) := by
  rw [← filterMap_defined?_eventsOf, List.filterMap_filterMap, definedVersions]
  congr 1
  funext e
  cases e with
  | use v => rfl
  | define v => rfl

/-- A definition is among the events of its block. -/
theorem define_mem_eventsOf {id : Nat} {v : Var} (h : v ∈ definitionsOf g id) :
    .define v ∈ g.eventsOf id := by
  rw [← filterMap_defined?_eventsOf] at h
  obtain ⟨e, he, hv⟩ := List.mem_filterMap.mp h
  cases e with
  | use w => cases hv
  | define w =>
      cases hv
      exact he

/-- In a reachable block of the result **every definition has a version**. -/
theorem map_version_definitionsOf (h : construct g counter = .ok result) {id : Nat}
    (hid : g.Reachable id) : (definitionsOf result.graph id).map (·.version) =
      (definedVersions (result.graph.eventsOf id)).map some := by
  obtain ⟨exits, hbuilt⟩ := rebuilt_construct h
  rw [definedVersions_eventsOf, List.map_filterMap, ← List.filterMap_eq_map]
  refine List.filterMap_congr fun v hv => ?_
  have hversioned := (hbuilt.events hid).1.define (define_mem_eventsOf hv)
  obtain ⟨n, hn⟩ := Option.isSome_iff_exists.mp hversioned
  simp [hn]

/-- The version of one definition of a reachable block. -/
theorem exists_version_at (h : construct g counter = .ok result) {id i : Nat} {v : Var}
    (hid : g.Reachable id) (hv : (definitionsOf result.graph id)[i]? = some v) :
    ∃ n, v.version = some n ∧ (definedVersions (result.graph.eventsOf id))[i]? = some n := by
  have hversion : (((definitionsOf result.graph id).map (·.version))[i]?) = some v.version := by
    rw [List.getElem?_map, hv, Option.map_some]
  rw [map_version_definitionsOf h hid, List.getElem?_map, Option.map_eq_some_iff] at hversion
  obtain ⟨n, hn, heq⟩ := hversion
  exact ⟨n, heq.symm, hn⟩

/-! ### Points -/

/-- A **point** of a graph at which something is defined: a block, and a position among the
definitions of the block. -/
structure DefPoint where
  block : Nat
  index : Nat

/-- What is defined at a point. -/
def DefPoint.var? (g : FlowGraph) (d : DefPoint) : Option Var :=
  (definitionsOf g d.block)[d.index]?

/-- The points of a block, in their order. -/
def pointsOf (g : FlowGraph) (id : Nat) : List DefPoint :=
  (List.range (definitionsOf g id).length).map (DefPoint.mk id)

/-- The points passed on the way to `e`: those of the blocks before, and then those of the block of
`e` itself that stand before it. -/
def passedBefore (g : FlowGraph) (π : List Nat) (e : DefPoint) : List DefPoint :=
  π.flatMap (pointsOf g) ++ (List.range e.index).map (DefPoint.mk e.block)

/-- **Strict dominance of points**: every path from the entry to `e` passes `d` before it. -/
def PointDominates (g : FlowGraph) (d e : DefPoint) : Prop :=
  ∀ π, g.Path g.entry (π ++ [e.block]) e.block → d ∈ passedBefore g π e

/-- A point that has been passed lies in a block before, or further up in the same block. -/
theorem mem_passedBefore {π : List Nat} {d e : DefPoint} (h : d ∈ passedBefore g π e) :
    d.block ∈ π ∨ d.block = e.block ∧ d.index < e.index := by
  rcases List.mem_append.mp h with h | h
  · obtain ⟨b, hb, hd⟩ := List.mem_flatMap.mp h
    obtain ⟨i, -, rfl⟩ := List.mem_map.mp hd
    exact .inl hb
  · obtain ⟨i, hi, rfl⟩ := List.mem_map.mp h
    exact .inr ⟨rfl, List.mem_range.mp hi⟩

/-- Points are **compared** by their blocks, and within a block by their positions. -/
theorem PointDominates.cases {d e : DefPoint} (h : PointDominates g d e)
    (he : g.Reachable e.block) :
    g.StrictlyDominates d.block e.block ∨ d.block = e.block ∧ d.index < e.index := by
  by_cases hblock : d.block = e.block
  · -- On a path without repetitions the block of `e` is not passed before its end.
    obtain ⟨σ, hσ⟩ := he
    obtain ⟨ρ, hρ, hnodup, -⟩ := hσ.exists_nodup
    obtain ⟨π, rfl⟩ := hρ.exists_concat
    rcases mem_passedBefore (h π hρ) with hmem | hsame
    · have hnot : e.block ∉ π := fun hmem =>
        (List.nodup_append.mp hnodup).2.2 _ hmem _ (List.mem_singleton.mpr rfl) rfl
      exact absurd (hblock ▸ hmem) hnot
    · exact .inr hsame
  · refine .inl ⟨he.dominates_iff.mpr fun π hπ => ?_, hblock⟩
    obtain ⟨ρ, rfl⟩ := hπ.exists_concat
    rcases mem_passedBefore (h ρ hπ) with hmem | ⟨hsame, -⟩
    · exact List.mem_append_left _ hmem
    · exact absurd hsame hblock

/-! ### Numbers -/

/-- **A dominator defines the smaller versions.** -/
theorem lt_of_strictlyDominates (h : construct g counter = .ok result) {a b m n : Nat}
    (hdom : g.StrictlyDominates a b) (hm : m ∈ definedVersions (result.graph.eventsOf a))
    (hn : n ∈ definedVersions (result.graph.eventsOf b)) : m < n := by
  obtain ⟨hvalid, -⟩ := construct_eq_ok h
  have hagree := FlowGraph.edgesAgree_of_validate hvalid
  have horder := pairwise_strictlyDominates hagree
  have hversions := (List.pairwise_flatMap.mp (draws_construct h).pairwise).2
  obtain ⟨pre, post, heq⟩ := List.append_of_mem ((mem_preorder_iff hagree).mpr hdom.1.1)
  have hb := (mem_preorder_iff hagree).mpr hdom.1.2.1
  rw [heq] at horder hversions hb
  rcases List.mem_append.mp hb with hb | hb
  · exact absurd hdom ((List.pairwise_append.mp horder).2.2 b hb a (List.mem_cons_self ..))
  · rcases List.mem_cons.mp hb with rfl | hb
    · exact absurd rfl hdom.2
    · have hafter := (List.pairwise_cons.mp (List.pairwise_append.mp hversions).2.1).1
      exact hafter b hb m hm n hn

/-- Versions ascend **within a block**. -/
theorem lt_of_index_lt (h : construct g counter = .ok result) {id i j m n : Nat}
    (hid : g.Reachable id) (hlt : i < j)
    (hm : (definedVersions (result.graph.eventsOf id))[i]? = some m)
    (hn : (definedVersions (result.graph.eventsOf id))[j]? = some n) : m < n := by
  obtain ⟨hvalid, -⟩ := construct_eq_ok h
  have hmem := (mem_preorder_iff (FlowGraph.edgesAgree_of_validate hvalid)).mpr hid
  have hversions := (List.pairwise_flatMap.mp (draws_construct h).pairwise).1 id hmem
  obtain ⟨hi, rfl⟩ := List.getElem?_eq_some_iff.mp hm
  obtain ⟨hj, rfl⟩ := List.getElem?_eq_some_iff.mp hn
  exact List.pairwise_iff_getElem.mp hversions i j hi hj hlt

/-- The versions that are drawn are **numbered from where the counter stood**. -/
theorem definedVersions_construct (h : construct g counter = .ok result) :
    ((compute g).preorder.flatMap fun id => definedVersions (result.graph.eventsOf id)) =
      List.range' counter.current (result.stats.phis + result.stats.definitions) := by
  have hdraws := draws_construct h
  obtain ⟨hphis, hdefinitions⟩ := stats_construct h
  have hspent : result.counter.current = _ := hdraws.counter_eq
  rw [advance_construct h, versionsNeeded, ← hphis, ← hdefinitions] at hspent
  rw [hdraws.versions_eq, ← Nat.add_left_cancel hspent]

/-- The reachable blocks in the order of their ids are those of the walk. -/
theorem perm_preorder (hagree : g.EdgesAgree) :
    (g.ids.filter fun id => g.Reachable id).Perm (compute g).preorder := by
  refine (List.perm_ext_iff_of_nodup (List.nodup_range.filter _) (nodup_preorder hagree)).mpr
    fun id => ?_
  rw [List.mem_filter, decide_eq_true_eq, mem_preorder_iff hagree]
  exact ⟨And.right, fun hid => ⟨FlowGraph.mem_ids.mpr hid.lt_size, hid⟩⟩

/-- Construction gives **no version** to a definition in a block that is not reachable. -/
theorem version_eq_none_of_not_reachable (h : construct g counter = .ok result) {id : Nat} {v : Var}
    (hid : ¬ g.Reachable id) (hv : v ∈ definitionsOf result.graph id) : v.version = none := by
  obtain ⟨-, hssa, -⟩ := construct_eq_ok h
  obtain ⟨exits, hbuilt⟩ := rebuilt_construct h
  rw [definitionsOf, phisOf, defsOf, hbuilt.unreachable id hid] at hv
  cases hb : g.block? id with
  | none => simp [hb] at hv
  | some b =>
      obtain ⟨hnone, hdefs⟩ := isInSsa_eq_false hssa hb
      simp only [hb, hnone, List.map_nil, List.nil_append] at hv
      exact hdefs v hv

/-- **Definitions are numbered in the order of dominance.** The versions in reachable blocks are
the numbers from where the counter stood, each of them once, definitions in other blocks have none,
and of two definitions the one that strictly dominates the other has the smaller version. -/
theorem construct_numbers_definitions (h : construct g counter = .ok result) :
    ((result.graph.ids.filter fun id => result.graph.Reachable id).flatMap fun id =>
        (definitionsOf result.graph id).map (·.version)).Perm
      ((List.range' counter.current (result.stats.phis + result.stats.definitions)).map some) ∧
    counter.current + (result.stats.phis + result.stats.definitions) ≤ maxVersion ∧
    (∀ id, ¬ result.graph.Reachable id → ∀ v ∈ definitionsOf result.graph id, v.version = none) ∧
    ∀ d e : DefPoint, result.graph.Reachable d.block → result.graph.Reachable e.block →
      PointDominates result.graph d e → ∀ v w, d.var? result.graph = some v →
      e.var? result.graph = some w → ∃ m n, v.version = some m ∧ w.version = some n ∧ m < n := by
  obtain ⟨hvalid, -⟩ := construct_eq_ok h
  have hagree := FlowGraph.edgesAgree_of_validate hvalid
  have hsame := (reaching_construct h).1
  have hreach : ∀ id, result.graph.Reachable id ↔ g.Reachable id := fun _ => hsame.reachable_iff
  refine ⟨?_, ?_, fun id hid v hv => ?_, fun d e hd he hdom v w hv hw => ?_⟩
  · simp only [FlowGraph.ids, hsame.size_eq, hreach]
    refine ((perm_preorder hagree).flatMap_right _).trans (.of_eq ?_)
    rw [← definedVersions_construct h, List.map_flatMap]
    exact List.flatMap_congr fun id hid =>
      map_version_definitionsOf h ((mem_preorder_iff hagree).mp hid)
  · obtain ⟨hphis, hdefinitions⟩ := stats_construct h
    have hspent := advance_construct h
    have hle := result.counter.current_le
    rw [versionsNeeded, ← hphis, ← hdefinitions] at hspent
    omega
  · exact version_eq_none_of_not_reachable h (mt (hreach id).mpr hid) hv
  · obtain ⟨m, hm, hmem⟩ := exists_version_at h ((hreach _).mp hd) hv
    obtain ⟨n, hn, hnmem⟩ := exists_version_at h ((hreach _).mp he) hw
    refine ⟨m, n, hm, hn, ?_⟩
    rcases hdom.cases he with hstrict | ⟨hblock, hlt⟩
    · have hbefore : g.StrictlyDominates d.block e.block :=
        ⟨hsame.dominates_iff.mp hstrict.1, hstrict.2⟩
      exact lt_of_strictlyDominates h hbefore (List.mem_of_getElem? hmem)
        (List.mem_of_getElem? hnmem)
    · rw [hblock] at hmem
      exact lt_of_index_lt h ((hreach _).mp he) hlt hmem hnmem

/-- Two ways meet at block `3`, and a third one that leads there starts at a block which nothing
leads to. -/
def threeWays : FlowGraph where
  blocks := [
    { address := 0,
      items := [{ address := 0, statements := [⟨⟨"a", none⟩, .imm 1⟩] },
        { address := 1, terminator := .branch (.var ⟨"b", none⟩) 4 }],
      succs := [2, 1], fall := some 1 },
    { address := 2,
      items := [{ address := 2, statements := [⟨⟨"a", none⟩, .imm 2⟩], terminator := .jump 5 }],
      preds := [0], succs := [3] },
    { address := 4, items := [{ address := 4, statements := [⟨⟨"a", none⟩, .imm 3⟩] }],
      preds := [0], succs := [3], fall := some 3 },
    { address := 5, items := [{ address := 5, terminator := .ret (some (.var ⟨"a", none⟩)) }],
      preds := [2, 1, 4] },
    { address := 6,
      items := [{ address := 6, statements := [⟨⟨"a", none⟩, .imm 4⟩], terminator := .jump 5 }],
      succs := [3] }]
  keys := [0, 2, 4, 5, 6]
  blocks_ne_nil := by decide
  length_keys := by decide
  nodup_keys := by decide

/-- The four definitions in reachable blocks get the four versions from `7` on, the one at the entry
a smaller one than the placeholder at `3`, and the definition at `4` gets none. -/
theorem construct_numbers_definitions_threeWays :
    ∃ result, construct threeWays (.startingAt 7) = .ok result ∧
      ((result.graph.ids.filter fun id => result.graph.Reachable id).flatMap fun id =>
        (definitionsOf result.graph id).map (·.version)).Perm [some 7, some 8, some 9, some 10] ∧
      (∃ v ∈ definitionsOf result.graph 4, v.version = none) ∧
      PointDominates result.graph ⟨0, 0⟩ ⟨3, 0⟩ ∧
      ∃ v w m n, DefPoint.var? result.graph ⟨0, 0⟩ = some v ∧
        DefPoint.var? result.graph ⟨3, 0⟩ = some w ∧
        v.version = some m ∧ w.version = some n ∧ m < n := by
  have heval : (construct threeWays (.startingAt 7)).map (fun result =>
      (result.stats.phis + result.stats.definitions,
        [0, 3, 4].map fun b => (definitionsOf result.graph b).map (·.name))) =
      .ok (4, [["a"], ["a"], ["a"]]) := by decide_cbv
  obtain ⟨result, hresult, hvalues⟩ := exists_of_map_construct heval
  obtain ⟨hcount, hnames⟩ := Prod.mk.inj hvalues
  simp only [List.map_cons, List.map_nil, List.cons.injEq, and_true,
    List.map_eq_singleton_iff] at hnames
  obtain ⟨⟨v, hv, -⟩, ⟨w, hw, -⟩, u, hu, -⟩ := hnames
  have hreach : ∀ id, result.graph.Reachable id ↔ threeWays.Reachable id :=
    fun _ => (reaching_construct hresult).1.reachable_iff
  obtain ⟨hperm, -, hnone, horder⟩ := construct_numbers_definitions hresult
  -- Whatever path leads to block `3` has started at the entry.
  have hdom : PointDominates result.graph ⟨0, 0⟩ ⟨3, 0⟩ := by
    intro π hπ
    obtain ⟨ρ, hρ⟩ := hπ.exists_cons
    obtain ⟨σ, rfl⟩ : ∃ σ, π = 0 :: σ := by
      cases π with
      | nil => cases hρ
      | cons b σ => exact ⟨σ, by rw [(List.cons.inj hρ).1]; rfl⟩
    refine List.mem_append_left _ (List.mem_flatMap.mpr ⟨0, List.mem_cons_self .., ?_⟩)
    simp [pointsOf, hv]
  refine ⟨result, hresult, ?_, ⟨u, by simp [hu], ?_⟩, hdom, v, w, ?_⟩
  · rw [hcount] at hperm
    exact hperm
  · refine hnone 4 ?_ u (by simp [hu])
    rw [hreach]
    decide_cbv
  · have hvar : DefPoint.var? result.graph ⟨0, 0⟩ = some v := by simp [DefPoint.var?, hv]
    have hvar' : DefPoint.var? result.graph ⟨3, 0⟩ = some w := by simp [DefPoint.var?, hw]
    have hthree : result.graph.Reachable 3 := (hreach 3).mpr (by decide_cbv)
    obtain ⟨m, n, hlt⟩ := horder _ _ result.graph.reachable_entry hthree hdom v w hvar hvar'
    exact ⟨m, n, hvar, hvar', hlt⟩

end Ssa

end FlowForm
