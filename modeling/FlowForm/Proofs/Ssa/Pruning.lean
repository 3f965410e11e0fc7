import Mathlib
import FlowForm.Proofs.Ssa.Frame
import FlowForm.Proofs.Ssa.Liveness

/-!
# What Pruning Keeps

Pruning searches from the versions that items read, along the operands of placeholders. A set of
versions is **closed under reading** if no such step leads out of it, and the live versions are the
least closed set (`isLeast_liveVersions`): placeholders that only feed each other around a loop are
in no least set, whereas a single use keeps everything that goes into it.

All of this is said of graphs in which every placeholder has a version of its own. Construction
makes no others (`distinct_construct`).

What is left refers to nothing that has been dropped, because the live versions are closed. In the
pruned graph the live versions are the same as before (`liveVersions_subset_prune`), so that pruning
once more has nothing to drop.

## Main results

* `isLeast_liveVersions`: the live versions are the least set that is closed under reading.
* `allPhis_prune`: the placeholders that are left.
* `prune_keeps_least_live`: what pruning keeps, drops and counts.
-/

namespace FlowForm

namespace Ssa

variable {g : FlowGraph} {n : Nat}

/-- Every placeholder has a **version of its own**. -/
structure Distinct (g : FlowGraph) : Prop where
  versioned : ∀ phi ∈ allPhis g, phi.var.isVersioned = true
  nodup : (phiVersions g).Nodup

/-- A set of versions is **closed under reading** if it has the version of a placeholder whenever an
item reads it, or a placeholder with a version in the set has it as an operand. -/
structure ReadClosed (g : FlowGraph) (S : Set Nat) : Prop where
  use : ∀ b ∈ g.blocks, ∀ v ∈ b.uses, ∀ n ∈ phiVersions g, v.version = some n → n ∈ S
  operand : ∀ phi ∈ allPhis g, ∀ m ∈ S, phi.var.version = some m →
    ∀ op ∈ phi.operands, ∀ n ∈ phiVersions g, op.var.version = some n → n ∈ S

/-! ### Versions of their own -/

/-- Where every use has the version that reaches it, placeholders have versions of their own. -/
theorem Reaching.distinct {entering leaving : Nat → Env} (h : Reaching g entering leaving) :
    Distinct g where
  versioned phi hphi := by
    obtain ⟨b, hphi⟩ := mem_allPhis.mp hphi
    obtain ⟨n, hn⟩ := h.exists_version hphi
    rw [Var.isVersioned, hn]
    rfl
  nodup := h.nodup_phiVersions

/-- **Construction** gives every placeholder a version of its own. -/
theorem distinct_construct {counter : Counter} {result : Result}
    (h : construct g counter = .ok result) : Distinct result.graph := by
  obtain ⟨-, entering, leaving, hreaching⟩ := reaching_construct h
  exact hreaching.distinct

/-- Every placeholder of such a graph has a version. -/
theorem Distinct.exists_version (h : Distinct g) {phi : Phi} (hphi : phi ∈ allPhis g) :
    ∃ n, phi.var.version = some n :=
  Option.isSome_iff_exists.mp (h.versioned phi hphi)

/-- The version of a placeholder. -/
theorem mem_phiVersions_of_mem {phi : Phi} (hphi : phi ∈ allPhis g)
    (hversion : phi.var.version = some n) : n ∈ phiVersions g :=
  List.mem_filterMap.mpr ⟨phi, hphi, hversion⟩

/-! ### The least closed set -/

/-- Live versions are versions of placeholders. -/
theorem mem_phiVersions_of_live (h : n ∈ liveVersions g) : n ∈ phiVersions g := by
  obtain ⟨r, -, hscope, hreaches⟩ := Search.mem_preorder_iff.mp h
  exact Search.Reaches.mem_scope hscope hreaches

/-- **The live versions are the least set** that is closed under reading. -/
theorem isLeast_liveVersions (hnodup : (phiVersions g).Nodup) :
    IsLeast {S : Set Nat | ReadClosed g S} {n | n ∈ liveVersions g} := by
  constructor
  · constructor
    · intro b hb v hv n hn hversion
      refine mem_liveVersions_of_read ?_ hn
      exact List.mem_flatMap.mpr ⟨b, hb, List.mem_filterMap.mpr ⟨v, hv, hversion⟩⟩
    · intro phi hphi m hm hversion op hop n hn hopVersion
      refine mem_liveVersions_of_operand hm ?_ hn
      rw [operandVersions_eq hnodup hphi hversion]
      exact List.mem_filterMap.mpr ⟨op, hop, hopVersion⟩
  · intro S hclosed n hn
    obtain ⟨r, hr, hscope, hreaches⟩ := Search.mem_preorder_iff.mp hn
    clear hn
    -- The search starts inside the set, and no step leads out of it.
    induction hreaches with
    | refl =>
        obtain ⟨b, hb, hr⟩ := List.mem_flatMap.mp hr
        obtain ⟨v, hv, hversion⟩ := List.mem_filterMap.mp hr
        exact hclosed.use b hb v hv r hscope hversion
    | @tail m n hreaches hstep ih =>
        obtain ⟨phi, hphi, hversion⟩ :=
          List.mem_filterMap.mp (Search.Reaches.mem_scope hscope hreaches)
        have hop := hstep.1
        rw [operandVersions_eq hnodup hphi hversion] at hop
        obtain ⟨op, hop, hopVersion⟩ := List.mem_filterMap.mp hop
        exact hclosed.operand phi hphi m ih hversion op hop n hstep.2 hopVersion

/-! ### The pruned graph -/

/-- A placeholder with a version is kept if the version is live. -/
theorem keeps_iff {live : List Nat} {phi : Phi} (hversion : phi.var.version = some n) :
    keeps live phi = true ↔ n ∈ live := by
  rw [keeps, hversion]
  exact List.contains_iff_mem

/-- The blocks of a pruned graph. -/
theorem blocks_prune (g : FlowGraph) : (prune g).1.blocks =
    g.blocks.map fun b => { b with phis := b.phis.filter (keeps (liveVersions g)) } := by
  refine List.ext_getElem? fun id => ?_
  rw [List.getElem?_map]
  exact g.block?_mapBlocks _ id

/-- **The placeholders that are left**, in their old order. -/
theorem allPhis_prune (g : FlowGraph) :
    allPhis (prune g).1 = (allPhis g).filter (keeps (liveVersions g)) := by
  rw [allPhis, blocks_prune, List.flatMap_map, allPhis, List.filter_flatMap]

/-- What is left and what has been dropped is what there was. -/
theorem removed_add_length_prune (g : FlowGraph) :
    (prune g).2 + (allPhis (prune g).1).length = (allPhis g).length := by
  rw [allPhis_prune, ← List.countP_eq_length_filter, Nat.add_comm]
  simpa [prune] using (List.length_eq_countP_add_countP (keeps (liveVersions g))).symm

/-- Pruning leaves the uses alone. -/
theorem exists_use_prune {v : Var} :
    (∃ b ∈ (prune g).1.blocks, v ∈ b.uses) ↔ ∃ b ∈ g.blocks, v ∈ b.uses := by
  simp only [blocks_prune, List.mem_map, exists_exists_and_eq_and, Block.uses]

/-- The versions of the placeholders that are left are the live ones. -/
theorem mem_phiVersions_prune : n ∈ phiVersions (prune g).1 ↔ n ∈ liveVersions g := by
  constructor
  · intro h
    obtain ⟨phi, hphi, hversion⟩ := List.mem_filterMap.mp h
    rw [allPhis_prune, List.mem_filter] at hphi
    exact (keeps_iff hversion).mp hphi.2
  · intro h
    obtain ⟨phi, hphi, hversion⟩ := List.mem_filterMap.mp (mem_phiVersions_of_live h)
    refine mem_phiVersions_of_mem ?_ hversion
    rw [allPhis_prune]
    exact List.mem_filter.mpr ⟨hphi, (keeps_iff hversion).mpr h⟩

/-- A placeholder is left if its version is among those that are left. -/
theorem mem_allPhis_prune {phi : Phi} (hphi : phi ∈ allPhis g)
    (hversion : phi.var.version = some n) :
    phi ∈ allPhis (prune g).1 ↔ n ∈ phiVersions (prune g).1 := by
  rw [allPhis_prune, List.mem_filter, and_iff_right hphi, keeps_iff hversion,
    mem_phiVersions_prune]

/-- Pruning keeps versions apart. -/
theorem Distinct.prune (h : Distinct g) : Distinct (prune g).1 where
  versioned phi hphi := by
    rw [allPhis_prune] at hphi
    exact h.versioned phi (List.mem_filter.mp hphi).1
  nodup := by
    rw [phiVersions, allPhis_prune]
    exact h.nodup.sublist (List.filter_sublist.filterMap _)

/-- **Nothing that is left reads a version that has been dropped.** -/
theorem readClosed_phiVersions_prune (h : Distinct g) :
    ReadClosed g {n | n ∈ phiVersions (Ssa.prune g).1} := by
  simp only [mem_phiVersions_prune]
  exact (isLeast_liveVersions h.nodup).1

/-- What was live is **live in the pruned graph**: what is live there is closed in the old graph,
since it takes in no placeholder that has been dropped. -/
theorem liveVersions_subset_prune (h : Distinct g) (hn : n ∈ liveVersions g) :
    n ∈ liveVersions (prune g).1 := by
  have hleft := readClosed_phiVersions_prune h
  have hclosed := (isLeast_liveVersions h.prune.nodup).1
  have hboth : ReadClosed g {n | n ∈ liveVersions (Ssa.prune g).1} := by
    constructor
    · intro b hb v hv n hn hversion
      obtain ⟨b', hb', hv'⟩ := exists_use_prune.mpr ⟨b, hb, hv⟩
      exact hclosed.use b' hb' v hv' n (hleft.use b hb v hv n hn hversion) hversion
    · intro phi hphi m hm hversion op hop n hn hopVersion
      have hm' := mem_phiVersions_of_live hm
      have hphi' := (mem_allPhis_prune hphi hversion).mpr hm'
      exact hclosed.operand phi hphi' m hm hversion op hop n
        (hleft.operand phi hphi m hm' hversion op hop n hn hopVersion) hopVersion
  exact (isLeast_liveVersions h.nodup).2 hboth hn

/-- Pruning does nothing if there is nothing to drop. -/
theorem prune_eq_of_keeps (h : ∀ phi ∈ allPhis g, keeps (liveVersions g) phi = true) :
    prune g = (g, 0) := by
  refine Prod.ext (FlowGraph.eq_of_block? rfl rfl fun id => ?_) ?_
  · rw [prune, FlowGraph.block?_mapBlocks]
    cases hb : g.block? id with
    | none => rfl
    | some b =>
        have hkept : b.phis.filter (keeps (liveVersions g)) = b.phis :=
          List.filter_eq_self.mpr fun phi hphi =>
            h phi (List.mem_flatMap.mpr ⟨b, List.mem_of_getElem? hb, hphi⟩)
        rw [Option.map_some, hkept]
  · exact List.countP_eq_zero.mpr fun phi hphi => by simp [h phi hphi]

/-- **Pruning once more** changes nothing. -/
theorem prune_prune (h : Distinct g) : prune (prune g).1 = ((prune g).1, 0) := by
  refine prune_eq_of_keeps fun phi hphi => ?_
  obtain ⟨n, hversion⟩ := h.prune.exists_version hphi
  refine (keeps_iff hversion).mpr (liveVersions_subset_prune h ?_)
  exact mem_phiVersions_prune.mp (mem_phiVersions_of_mem hphi hversion)

/-- **Pruning keeps what the least closed set says.** If every placeholder has a version of its own,
pruning keeps exactly the placeholders with a version in the least set that is closed under reading,
in their order and as they are, and changes nothing else. It says how many it has dropped. No use
and no operand of what is left has the version of a placeholder that has been dropped, and pruning
once more drops nothing and changes nothing. -/
theorem prune_keeps_least_live (h : Distinct g) :
    ∃ live : Finset Nat, IsLeast {S : Set Nat | ReadClosed g S} live ∧
      (prune g).1 = g.mapBlocks (fun _ b =>
        { b with phis := b.phis.filter fun phi => phi.var.version.any (· ∈ live) }) ∧
      (prune g).2 + (allPhis (prune g).1).length = (allPhis g).length ∧
      (∀ phi ∈ allPhis g, phi ∉ allPhis (prune g).1 →
        (∀ b ∈ (prune g).1.blocks, ∀ v ∈ b.uses, v.version ≠ phi.var.version) ∧
        ∀ psi ∈ allPhis (prune g).1, ∀ op ∈ psi.operands,
          op.var.version ≠ phi.var.version) ∧
      prune (prune g).1 = ((prune g).1, 0) := by
  have hleast : IsLeast {S : Set Nat | ReadClosed g S} (liveVersions g).toFinset := by
    rw [List.coe_toFinset]
    exact isLeast_liveVersions h.nodup
  refine ⟨_, hleast, ?_, removed_add_length_prune g, ?_, prune_prune h⟩
  · refine FlowGraph.eq_of_block? rfl rfl fun id => ?_
    rw [prune, FlowGraph.block?_mapBlocks, FlowGraph.block?_mapBlocks]
    refine Option.map_congr fun b hb => ?_
    have hsame : b.phis.filter (keeps (liveVersions g)) =
        b.phis.filter fun phi => phi.var.version.any (· ∈ (liveVersions g).toFinset) := by
      refine List.filter_congr fun phi hphi => Bool.eq_iff_iff.mpr ?_
      have hmem : phi ∈ allPhis g :=
        List.mem_flatMap.mpr ⟨b, List.mem_of_getElem? hb, hphi⟩
      obtain ⟨n, hversion⟩ := h.exists_version hmem
      rw [keeps_iff hversion, hversion, Option.any_some, decide_eq_true_eq, List.mem_toFinset]
    rw [hsame]
  · intro phi hphi hdropped
    obtain ⟨n, hversion⟩ := h.exists_version hphi
    have hn := mem_phiVersions_of_mem hphi hversion
    have hclosed := readClosed_phiVersions_prune h
    have hdead : n ∉ phiVersions (prune g).1 := mt (mem_allPhis_prune hphi hversion).mpr hdropped
    rw [hversion]
    refine ⟨fun b hb v hv hread => ?_, fun psi hpsi op hop hread => ?_⟩
    · obtain ⟨b', hb', hv'⟩ := exists_use_prune.mp ⟨b, hb, hv⟩
      exact hdead (hclosed.use b' hb' v hv' n hn hread)
    · obtain ⟨m, hm⟩ := h.prune.exists_version hpsi
      have hpsi' := hpsi
      rw [allPhis_prune] at hpsi'
      exact hdead (hclosed.operand psi (List.mem_filter.mp hpsi').1 m
        (mem_phiVersions_of_mem hpsi hm) hm op hop n hn hread)

/-- A loop that counts with `i` and has its way around an assignment to `t`, which nothing reads. -/
def swirl : FlowGraph where
  blocks := [
    { address := 20,
      items := [{ address := 20, statements := [⟨⟨"i", none⟩, .imm 0⟩, ⟨⟨"t", none⟩, .imm 0⟩] }],
      succs := [1], fall := some 1 },
    { address := 22,
      items := [{ address := 22, terminator := .branch (.var ⟨"b", none⟩) 24 }],
      preds := [0, 3], succs := [3, 2], fall := some 2 },
    { address := 23, items := [{ address := 23, statements := [⟨⟨"t", none⟩, .imm 1⟩] }],
      preds := [1], succs := [3], fall := some 3 },
    { address := 24,
      items := [
        { address := 24,
          statements := [⟨⟨"i", none⟩, .binary .add (.var ⟨"i", none⟩) (.imm 1)⟩],
          terminator := .branch (.var ⟨"i", none⟩) 22 }],
      preds := [1, 2], succs := [1, 4], fall := some 4 },
    { address := 26, items := [{ address := 26, terminator := .ret (some (.var ⟨"i", none⟩)) }],
      preds := [3] }]
  keys := [20, 22, 23, 24, 26]
  blocks_ne_nil := by decide
  length_keys := by decide
  nodup_keys := by decide

/-- The two placeholders for `t` have each other as operands. Both go, and the one for `i` stays. -/
theorem prune_keeps_least_live_swirl :
    ∃ result, construct swirl .fresh = .ok result ∧ Distinct result.graph ∧
      (allPhis result.graph).map (·.var.name) = ["i", "t", "t"] ∧
      (allPhis (prune result.graph).1).map (·.var.name) = ["i"] ∧
      (prune result.graph).2 = 2 ∧
      prune (prune result.graph).1 = ((prune result.graph).1, 0) := by
  have heval : (construct swirl .fresh).map (fun result =>
      ((allPhis result.graph).map (·.var.name),
        (allPhis (prune result.graph).1).map (·.var.name))) =
      .ok (["i", "t", "t"], ["i"]) := by decide_cbv
  obtain ⟨result, hresult, hvalues⟩ := exists_of_map_construct heval
  obtain ⟨hbefore, hafter⟩ := Prod.mk.inj hvalues
  have hdistinct := distinct_construct hresult
  obtain ⟨live, -, -, hcount, -, hagain⟩ := prune_keeps_least_live hdistinct
  refine ⟨result, hresult, hdistinct, hbefore, hafter, ?_, hagain⟩
  have hthree := congrArg List.length hbefore
  have hone := congrArg List.length hafter
  rw [List.length_map] at hthree hone
  rw [hthree, hone] at hcount
  exact Nat.add_right_cancel hcount

end Ssa

end FlowForm
