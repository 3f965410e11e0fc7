import Mathlib
import FlowForm.Proofs.Ssa.Liveness

/-!
# Single-Assignment Form Is Correct

What construction and pruning promise, by the paths through a graph. After construction every use
carries the version of the last definition before it, on whichever path control got there.
Placeholders stand at the iterated frontier of the assignments and nowhere else, and pruning keeps a
placeholder if and only if its variable is live.

## Main results

* `construct_reaching_definitions`: uses and operands carry the version of the last definition.
* `construct_phis_iteratedFrontier`: where placeholders stand, and the sources of their operands.
* `prune_keeps_live_phis`: a placeholder survives pruning if and only if its variable is live.
-/

namespace FlowForm.Ssa

variable {g : FlowGraph}

/-- **Reaching definitions.** After construction, along every path from the entry, every use
carries the version of the last definition before it, and every operand for an edge that of the
last definition up to the source of the edge; where there is no definition they carry none. What a
placeholder of the entry takes from outside carries none. -/
theorem construct_reaching_definitions {counter : Counter} {result : Result}
    (h : construct g counter = .ok result) :
    (∀ π b, result.graph.Path result.graph.entry (π ++ [b]) b →
      (∀ pre v post, result.graph.eventsOf b = pre ++ .use v :: post →
        v.Carries (lastDefinition? v.name (result.graph.eventsAlong π ++ pre))) ∧
      ∀ s ∈ result.graph.succs b, ∀ phi ∈ phisOf result.graph s, ∃ op,
        phi.operand? (some b) = some op ∧ op.var.name = phi.var.name ∧
        op.var.Carries (lastDefinition? phi.var.name (result.graph.eventsAlong (π ++ [b])))) ∧
    ∀ phi ∈ phisOf result.graph result.graph.entry,
      (∃ op, phi.operand? none = some op ∧ op.var.name = phi.var.name) ∧
      ∀ op ∈ phi.operands, op.pred = none → op.var.version = none := by
  obtain ⟨-, entering, leaving, hreach⟩ := reaching_construct h
  refine ⟨fun π b hpath => ⟨fun pre v post hevents => ?_, fun s hs phi hphi => ?_⟩,
    fun phi hphi => ⟨⟨_, hreach.entry_operand phi hphi, rfl⟩, fun op hop hpred => ?_⟩⟩
  · refine Reaching.carries_lastDefinition? (fun d hd => ?_) (hreach.use_eq_after hpath hevents)
    refine hreach.isVersioned_of_mem hpath ?_
    rw [FlowGraph.eventsAlong_concat, hevents]
    rcases List.mem_append.mp hd with hd | hd
    · exact List.mem_append_left _ hd
    · exact List.mem_append_right _ (List.mem_append_left _ hd)
  · have hedge : result.graph.HasEdge b s :=
      ⟨hs, (hreach.reachable_of_phi s phi hphi).lt_size⟩
    refine ⟨_, hreach.operand b s ⟨_, hpath⟩ hedge phi hphi, rfl, ?_⟩
    refine Reaching.carries_lastDefinition? (fun d hd => hreach.isVersioned_of_mem hpath hd) ?_
    rw [hreach.leaving_eq_after hpath]
  · obtain ⟨-, hversion⟩ := hreach.operand_sound _ phi hphi op hop
    rcases hversion with hversion | ⟨u, hu, -⟩
    · exact hversion
    · rw [hpred] at hu
      cases hu

/-- A loop that counts `n` down and assigns `k` as well, which nothing reads. -/
def idleVariable : FlowGraph where
  blocks := [
    { address := 0,
      items := [{ address := 0, statements := [⟨⟨"n", none⟩, .imm 3⟩, ⟨⟨"k", none⟩, .imm 5⟩] }],
      succs := [1], fall := some 1 },
    { address := 1, items := [{ address := 1, terminator := .branch (.var ⟨"n", none⟩) 3 }],
      preds := [0, 3], succs := [3, 2], fall := some 2 },
    { address := 2, items := [{ address := 2, terminator := .ret (some (.var ⟨"n", none⟩)) }],
      preds := [1] },
    { address := 3,
      items := [{ address := 3,
                  statements := [⟨⟨"n", none⟩, .binary .sub (.var ⟨"n", none⟩) (.imm 1)⟩,
                    ⟨⟨"k", none⟩, .var ⟨"n", none⟩⟩],
                  terminator := .jump 1 }],
      preds := [1], succs := [1] }]
  keys := [0, 1, 2, 3]
  blocks_ne_nil := by decide
  length_keys := by decide
  nodup_keys := by decide

/-- What is returned after a round through the loop is what the placeholder at the head of the
loop defines. -/
theorem construct_reaching_definitions_idleVariable :
    ∃ result, construct idleVariable .fresh = .ok result ∧
      result.graph.eventsOf 2 = [.use ⟨"n", some 2⟩] ∧
      Var.Carries ⟨"n", some 2⟩ (lastDefinition? "n" (result.graph.eventsAlong [0, 1, 3, 1])) := by
  have hevents : (construct idleVariable .fresh).map (·.graph.eventsOf 2) =
      .ok [.use ⟨"n", some 2⟩] := by decide_cbv
  cases hresult : construct idleVariable .fresh with
  | error e =>
      rw [hresult] at hevents
      cases hevents
  | ok result =>
      rw [hresult] at hevents
      have htwo : result.graph.eventsOf 2 = [.use ⟨"n", some 2⟩] := Except.ok.inj hevents
      have hround : idleVariable.Path idleVariable.entry [0, 1, 3, 1, 2] 2 :=
        (((FlowGraph.Path.start.step ⟨by decide, by decide⟩).step ⟨by decide, by decide⟩).step
          ⟨by decide, by decide⟩).step ⟨by decide, by decide⟩
      have hpath := (reaching_construct hresult).1.path hround
      refine ⟨result, rfl, htwo, ?_⟩
      have huse := ((construct_reaching_definitions hresult).1 [0, 1, 3, 1] 2 hpath).1
        [] ⟨"n", some 2⟩ [] htwo
      rw [List.append_nil] at huse
      exact huse

/-- **Placeholders stand at the iterated frontier.** The blocks that have a placeholder for a
variable after construction are the least set that holds the frontier of every reachable block
that assigns the variable, and that of each of its own members. No block has two placeholders for
one variable. The operands of a placeholder have the predecessors of its block as their sources, in
order, behind one from outside if the block is the entry. -/
theorem construct_phis_iteratedFrontier {counter : Counter} {result : Result}
    (h : construct g counter = .ok result) :
    (∀ x, IsLeast {S : Set Nat | FrontierClosed g x S}
      {b | ∃ phi ∈ phisOf result.graph b, phi.var.name = x}) ∧
    ∀ b, ((phisOf result.graph b).map (·.var.name)).Nodup ∧
      ∀ phi ∈ phisOf result.graph b, phi.operands.map (·.pred) =
        (if b = result.graph.entry then [none] else []) ++ (result.graph.preds b).map some := by
  obtain ⟨hvalid, hssa, -⟩ := construct_eq_ok h
  have hagree := FlowGraph.edgesAgree_of_validate hvalid
  obtain ⟨exits, hbuilt⟩ := rebuilt_construct h
  refine ⟨fun x => ?_, fun b => ⟨hbuilt.nodup_names hssa b, fun phi hphi => ?_⟩⟩
  · simp only [hbuilt.exists_phi_iff hagree hssa]
    exact isLeast_needs hagree x
  · rw [hbuilt.map_pred_operands hssa hphi, hbuilt.sameOutline.preds_eq]
    rfl

/-- A loop back to the entry in which only one of two ways assigns `x`. -/
def roundabout : FlowGraph where
  blocks := [
    { address := 0, items := [{ address := 0, terminator := .branch (.var ⟨"c", none⟩) 2 }],
      preds := [2], succs := [2, 1], fall := some 1 },
    { address := 1, items := [{ address := 1, statements := [⟨⟨"x", none⟩, .imm 1⟩] }],
      preds := [0], succs := [2], fall := some 2 },
    { address := 2, items := [{ address := 2, terminator := .jump 0 }],
      preds := [0, 1], succs := [0] }]
  keys := [0, 1, 2]
  blocks_ne_nil := by decide
  length_keys := by decide
  nodup_keys := by decide

/-- The placeholder where the two ways meet makes for another one at the entry, which has an operand
from outside. Neither of the two blocks assigns `x`, and the one that does needs no placeholder. -/
theorem construct_phis_iteratedFrontier_roundabout :
    ∃ result, construct roundabout .fresh = .ok result ∧
      (phisOf result.graph 0).map (·.operands.map (·.pred)) = [[none, some 2]] ∧
      (∀ S, FrontierClosed roundabout "x" S → 0 ∈ S ∧ 2 ∈ S) ∧
      ∃ S, FrontierClosed roundabout "x" S ∧ 1 ∉ S := by
  have heval : (construct roundabout .fresh).map (fun result =>
      [0, 1, 2].map fun b => (phisOf result.graph b).map (·.var.name)) =
      .ok [["x"], [], ["x"]] := by decide_cbv
  cases hresult : construct roundabout .fresh with
  | error e =>
      rw [hresult] at heval
      cases heval
  | ok result =>
      rw [hresult] at heval
      have hnames := Except.ok.inj heval
      simp only [List.map_cons, List.map_nil, List.cons.injEq, and_true] at hnames
      obtain ⟨hzero, hone, htwo⟩ := hnames
      obtain ⟨hleast, hblocks⟩ := construct_phis_iteratedFrontier hresult
      have hphi : ∀ b, (phisOf result.graph b).map (·.var.name) = ["x"] →
          ∃ phi, phisOf result.graph b = [phi] ∧ phi.var.name = "x" := fun b hb => by
        simpa [List.map_eq_singleton_iff] using hb
      obtain ⟨first, hfirst, hx⟩ := hphi 0 hzero
      obtain ⟨last, hlast, hx'⟩ := hphi 2 htwo
      refine ⟨result, rfl, ?_, fun S hS => ⟨?_, ?_⟩, _, (hleast "x").1, ?_⟩
      · have hpreds := (hblocks 0).2 first (by rw [hfirst]; exact List.mem_singleton_self _)
        rw [hfirst, List.map_singleton, hpreds, (reaching_construct hresult).1.preds_eq]
        rfl
      · exact (hleast "x").2 hS ⟨first, by rw [hfirst]; exact List.mem_singleton_self _, hx⟩
      · exact (hleast "x").2 hS ⟨last, by rw [hlast]; exact List.mem_singleton_self _, hx'⟩
      · rw [List.map_eq_nil_iff] at hone
        simp [hone]

/-- **Pruning is liveness.** If no use in a graph has a version, a placeholder that construction
has put at a block survives pruning if and only if its variable is live at the start of that
block. -/
theorem prune_keeps_live_phis {counter : Counter} {result : Result}
    (huses : ∀ block ∈ g.blocks, ∀ v ∈ block.uses, v.version = none)
    (h : construct g counter = .ok result) (b : Nat) (phi : Phi)
    (hphi : phi ∈ phisOf result.graph b) :
    phi ∈ phisOf (prune result.graph).1 b ↔ g.LiveAt b phi.var.name := by
  obtain ⟨hsame, entering, leaving, hreach⟩ := reaching_construct h
  obtain ⟨exits, hbuilt⟩ := rebuilt_construct h
  have hreads : ∀ c v, .use v ∈ result.graph.itemEventsOf c → v.isVersioned = true →
      result.graph.Reachable c := fun c v => hbuilt.reachable_of_read huses
  obtain ⟨n, hn⟩ := hreach.exists_version hphi
  have hkeeps : keeps (liveVersions result.graph) phi = true ↔ n ∈ liveVersions result.graph := by
    rw [keeps, hn, List.contains_iff_mem]
  rw [phisOf_prune, List.mem_filter, and_iff_right hphi, hkeeps, FlowGraph.liveAt_iff_wanted]
  constructor
  · intro hlive
    exact (hreach.wanted_of_mem_liveVersions hreads hlive hphi hn).of_sameOutline hsame.symm
  · intro hwanted
    exact hreach.mem_liveVersions_of_wanted (hwanted.of_sameOutline hsame)
      (hreach.reachable_of_phi b phi hphi) ((hreach.after_phis hphi _).trans hn)
      (mem_phiVersions.mpr ⟨b, phi, hphi, hn⟩)

/-- A placeholder at the head of the loop, with an operand from before it and one from its end. -/
def headPhi (x : String) (version first last : Nat) : Phi where
  var := ⟨x, some version⟩
  operands := [⟨some 0, ⟨x, some first⟩⟩, ⟨some 3, ⟨x, some last⟩⟩]

/-- At the head of the loop the placeholder for `n` stays, and the one for `k` does not. -/
theorem prune_keeps_live_phis_idleVariable :
    (∀ block ∈ idleVariable.blocks, ∀ v ∈ block.uses, v.version = none) ∧
      ∃ result, construct idleVariable .fresh = .ok result ∧
        (phisOf result.graph 1).map (·.var.name) = ["n", "k"] ∧
        idleVariable.LiveAt 1 "n" ∧ ¬ idleVariable.LiveAt 1 "k" := by
  have huses : ∀ block ∈ idleVariable.blocks, ∀ v ∈ block.uses, v.version = none := by decide
  have heval : (construct idleVariable .fresh).map
      (fun result => (phisOf result.graph 1, phisOf (prune result.graph).1 1)) =
      .ok ([headPhi "n" 2 0 4, headPhi "k" 3 1 5], [headPhi "n" 2 0 4]) := by
    decide_cbv
  refine ⟨huses, ?_⟩
  cases hresult : construct idleVariable .fresh with
  | error e =>
      rw [hresult] at heval
      cases heval
  | ok result =>
      rw [hresult] at heval
      obtain ⟨hphis, hpruned⟩ := Prod.mk.inj (Except.ok.inj heval)
      have hlive := prune_keeps_live_phis huses hresult 1
      rw [hphis, hpruned] at hlive
      refine ⟨result, rfl, by rw [hphis]; rfl, ?_, ?_⟩
      · exact (hlive (headPhi "n" 2 0 4) (by decide)).mp (by decide)
      · exact fun h => absurd ((hlive (headPhi "k" 3 1 5) (by decide)).mpr h) (by decide)

end FlowForm.Ssa
