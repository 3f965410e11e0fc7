import FlowForm.Graph.Validity
import FlowForm.Proofs.Search

/-!
# Paths, Reachability and Dominance

The notions that the computed tables of a flow graph are measured against, stated by paths
alone. A **path** is the list of the blocks that control passes, first and last included; an
edge to an id that no block has is not an edge here. A block is **reachable** if a path leads to
it from the entry, and a block **dominates** another if both are reachable and every path from
the entry to the second contains the first. The **frontier** of a block is where its dominance
ends.

Edges are noted at both of their ends. The notes **agree** when the two lists say the same about
every pair of blocks; a valid graph has agreeing notes (`edgesAgree_of_validate`).

## Main results

* `mem_reversePostorder_iff_reachable`: the reverse postorder lists the reachable blocks.
* `Path.exists_nodup`: a path can be shortened until it passes no block twice.
* `StrictlyDominates.dominates_pred` and `dominates_of_forall_pred`: how dominance of a block
  and of its predecessors are related.
* `edgesAgree_of_validate`: valid graphs have agreeing notes.
-/

namespace FlowForm.FlowGraph

variable {g : FlowGraph}

/-- An edge between two blocks, as the first of them lists it. -/
def HasEdge (g : FlowGraph) (u v : Nat) : Prop :=
  v ∈ g.succs u ∧ v < g.size

/-- A **path** from `a`: the blocks passed, from `a` up to and with the last one. -/
inductive Path (g : FlowGraph) (a : Nat) : List Nat → Nat → Prop
  | start : Path g a [a] a
  | step {π : List Nat} {u v : Nat} : Path g a π u → g.HasEdge u v → Path g a (π ++ [v]) v

/-- A block is **reachable** if a path leads to it from the entry. -/
def Reachable (g : FlowGraph) (b : Nat) : Prop :=
  ∃ π, g.Path g.entry π b

/-- **Dominance**: every path from the entry to `b` contains `a`. -/
def Dominates (g : FlowGraph) (a b : Nat) : Prop :=
  g.Reachable a ∧ g.Reachable b ∧ ∀ π, g.Path g.entry π b → a ∈ π

/-- Dominance of another block. -/
def StrictlyDominates (g : FlowGraph) (a b : Nat) : Prop :=
  g.Dominates a b ∧ a ≠ b

/-- The strict dominator of a block that is dominated by all the others. -/
def IsImmediateDominator (g : FlowGraph) (d b : Nat) : Prop :=
  g.StrictlyDominates d b ∧ ∀ c, g.StrictlyDominates c b → c ≠ d → g.Dominates c d

/-- A block is in the **frontier** of `x` if `x` dominates a reachable predecessor of it and does
not strictly dominate the block itself. -/
def InFrontier (g : FlowGraph) (x y : Nat) : Prop :=
  ∃ p, g.Reachable p ∧ g.HasEdge p y ∧ g.Dominates x p ∧ ¬ g.StrictlyDominates x y

/-- The notes at the two ends of edges **agree**. -/
def EdgesAgree (g : FlowGraph) : Prop :=
  ∀ u < g.size, ∀ v < g.size, (v ∈ g.succs u ↔ u ∈ g.preds v)

instance : Decidable g.EdgesAgree :=
  inferInstanceAs (Decidable (∀ u < g.size, ∀ v < g.size, (v ∈ g.succs u ↔ u ∈ g.preds v)))

/-! ### Blocks and ids -/

/-- There is at least one block. -/
theorem size_pos (g : FlowGraph) : 0 < g.size :=
  List.length_pos_iff.mpr g.blocks_ne_nil

/-- The entry is a block. -/
theorem entry_lt_size (g : FlowGraph) : g.entry < g.size :=
  g.size_pos

/-- The ids are those below the number of blocks. -/
@[simp]
theorem mem_ids {id : Nat} : id ∈ g.ids ↔ id < g.size := by
  simp [ids]

/-- A block has an id below the number of blocks. -/
theorem lt_size_of_block? {id : Nat} {b : Block} (h : g.block? id = some b) : id < g.size :=
  (List.getElem?_eq_some_iff.mp h).1

/-- Every id below the number of blocks has a block. -/
theorem exists_block? {id : Nat} (h : id < g.size) : ∃ b, g.block? id = some b :=
  ⟨_, List.getElem?_eq_getElem h⟩

/-- A graph is given by its blocks, their registered addresses and the jumps without an edge. -/
theorem eq_of_block? {g' : FlowGraph} (hkeys : g'.keys = g.keys)
    (hunresolved : g'.unresolved = g.unresolved)
    (hblock : ∀ id, g'.block? id = g.block? id) : g' = g := by
  have hblocks : g'.blocks = g.blocks := List.ext_getElem? hblock
  cases g
  cases g'
  cases hkeys
  cases hunresolved
  cases hblocks
  rfl

/-- The number of blocks can be read off the registered addresses. -/
theorem size_eq_of_keys {g' : FlowGraph} (h : g'.keys = g.keys) : g'.size = g.size := by
  rw [size, size, ← g.length_keys, ← g'.length_keys, h]

/-- A change of a block that is there may look at the block. -/
theorem modifyBlock_eq_of_block? {id : Nat} {b : Block} (f : Block → Block)
    (hb : g.block? id = some b) : (g.modifyBlock id fun _ => f b) = g.modifyBlock id f := by
  refine eq_of_block? rfl rfl fun i => ?_
  rw [block?_modifyBlock, block?_modifyBlock]
  by_cases hi : id = i
  · simp [← hi, hb]
  · simp [hi]

/-- A block that is not there is not changed. -/
theorem modifyBlock_of_block?_eq_none {id : Nat} (f : Block → Block)
    (hb : g.block? id = none) : g.modifyBlock id f = g := by
  refine eq_of_block? rfl rfl fun i => ?_
  rw [block?_modifyBlock]
  by_cases hi : id = i
  · simp [← hi, hb]
  · simp [hi]

/-- The successors of a block that is there. -/
theorem succs_of_block? {id : Nat} {b : Block} (h : g.block? id = some b) :
    g.succs id = b.succs := by
  rw [succs, h]

/-- The predecessors of a block that is there. -/
theorem preds_of_block? {id : Nat} {b : Block} (h : g.block? id = some b) :
    g.preds id = b.preds := by
  rw [preds, h]

/-- Only a block has successors. -/
theorem lt_size_of_mem_succs {u v : Nat} (h : v ∈ g.succs u) : u < g.size := by
  rw [succs] at h
  split at h
  · rename_i b hb
    exact lt_size_of_block? hb
  · simp at h

/-- Only a block has predecessors. -/
theorem lt_size_of_mem_preds {u v : Nat} (h : u ∈ g.preds v) : v < g.size := by
  rw [preds] at h
  split at h
  · rename_i b hb
    exact lt_size_of_block? hb
  · simp at h

/-- The source of an edge is a block. -/
theorem HasEdge.source_lt {u v : Nat} (h : g.HasEdge u v) : u < g.size :=
  lt_size_of_mem_succs h.1

/-- Where the notes agree, the target of an edge knows its source. -/
theorem HasEdge.mem_preds {u v : Nat} (hagree : g.EdgesAgree) (h : g.HasEdge u v) :
    u ∈ g.preds v :=
  (hagree u h.source_lt v h.2).mp h.1

/-- Where the notes agree, a known source has an edge. -/
theorem EdgesAgree.hasEdge {u v : Nat} (hagree : g.EdgesAgree) (hu : u < g.size)
    (hv : v < g.size) (h : u ∈ g.preds v) : g.HasEdge u v :=
  ⟨(hagree u hu v hv).mpr h, hv⟩

/-! ### Paths -/

namespace Path

variable {a b : Nat} {π : List Nat}

/-- A path starts with its first block. -/
theorem exists_cons (h : g.Path a π b) : ∃ ρ, π = a :: ρ := by
  induction h with
  | start => exact ⟨[], rfl⟩
  | step _ _ ih =>
      obtain ⟨ρ, rfl⟩ := ih
      exact ⟨_, List.cons_append⟩

/-- A path contains its first block. -/
theorem first_mem (h : g.Path a π b) : a ∈ π := by
  obtain ⟨ρ, rfl⟩ := h.exists_cons
  exact List.mem_cons_self ..

/-- A path ends with its last block. -/
theorem exists_concat (h : g.Path a π b) : ∃ ρ, π = ρ ++ [b] := by
  cases h with
  | start => exact ⟨[], rfl⟩
  | step => exact ⟨_, rfl⟩

/-- The last block of a path is on it. -/
theorem last_mem (h : g.Path a π b) : b ∈ π := by
  obtain ⟨ρ, rfl⟩ := h.exists_concat
  exact List.mem_append_right _ (List.mem_singleton.mpr rfl)

/-- Paths that start at a block stay among the blocks. -/
theorem lt_size (ha : a < g.size) (h : g.Path a π b) : b < g.size := by
  cases h with
  | start => exact ha
  | step _ hedge => exact hedge.2

/-- A path can be cut off at any block that it contains. -/
theorem exists_initial {c : Nat} (h : g.Path a π b) (hc : c ∈ π) :
    ∃ ρ, g.Path a ρ c ∧ ρ <+: π := by
  induction h with
  | start =>
      obtain rfl : c = a := by simpa using hc
      exact ⟨[c], .start, List.prefix_rfl⟩
  | @step π u v hpath hedge ih =>
      rcases List.mem_append.mp hc with hc | hc
      · obtain ⟨ρ, hρ, hpre⟩ := ih hc
        exact ⟨ρ, hρ, hpre.trans (List.prefix_append ..)⟩
      · obtain rfl : c = v := by simpa using hc
        exact ⟨π ++ [c], hpath.step hedge, List.prefix_rfl⟩

/-- A path goes on from any block that it contains. -/
theorem exists_final {c : Nat} (h : g.Path a π b) (hc : c ∈ π) : ∃ ρ, g.Path c ρ b := by
  induction h with
  | start =>
      obtain rfl : c = a := by simpa using hc
      exact ⟨[c], .start⟩
  | @step π u v hpath hedge ih =>
      rcases List.mem_append.mp hc with hc | hc
      · obtain ⟨ρ, hρ⟩ := ih hc
        exact ⟨ρ ++ [v], hρ.step hedge⟩
      · obtain rfl : c = v := by simpa using hc
        exact ⟨[c], .start⟩

/-- Two paths, the second of which starts where the first ends, make one. -/
theorem trans {c : Nat} {ρ : List Nat} (h : g.Path a π b) (h' : g.Path b (b :: ρ) c) :
    g.Path a (π ++ ρ) c := by
  generalize hσ : b :: ρ = σ at h'
  induction h' generalizing ρ with
  | start =>
      obtain rfl : ρ = [] := (List.cons.inj hσ).2
      simpa using h
  | @step σ u v hpath hedge ih =>
      obtain ⟨τ, rfl⟩ := hpath.exists_cons
      obtain rfl : ρ = τ ++ [v] := (List.cons.inj hσ).2
      rw [← List.append_assoc]
      exact (ih rfl).step hedge

/-- An edge is the beginning of a longer path. -/
theorem cons {c : Nat} (hedge : g.HasEdge c a) (h : g.Path a π b) : g.Path c (c :: π) b := by
  obtain ⟨ρ, rfl⟩ := h.exists_cons
  exact (Path.start.step hedge : g.Path c [c, a] a).trans h

/-- A path can be shortened until it passes **no block twice**. -/
theorem exists_nodup (h : g.Path a π b) : ∃ ρ, g.Path a ρ b ∧ ρ.Nodup ∧ ρ ⊆ π := by
  induction h with
  | start => exact ⟨[a], .start, List.nodup_singleton a, List.Subset.refl _⟩
  | @step π u v _ hedge ih =>
      obtain ⟨ρ, hρ, hnodup, hsub⟩ := ih
      have hsub' : ρ ⊆ π ++ [v] := fun x hx => List.mem_append_left _ (hsub hx)
      by_cases hv : v ∈ ρ
      · obtain ⟨σ, hσ, hpre⟩ := hρ.exists_initial hv
        exact ⟨σ, hσ, hnodup.sublist hpre.sublist, fun x hx => hsub' (hpre.subset hx)⟩
      · refine ⟨ρ ++ [v], hρ.step hedge, ?_, ?_⟩
        · refine List.nodup_append.mpr ⟨hnodup, List.nodup_singleton v, ?_⟩
          rintro x hx y hy rfl
          obtain rfl : x = v := by simpa using hy
          exact hv hx
        · intro x hx
          rcases List.mem_append.mp hx with hx | hx
          · exact hsub' hx
          · exact List.mem_append_right _ hx

end Path

/-! ### Reachability -/

/-- The entry is reachable. -/
theorem reachable_entry (g : FlowGraph) : g.Reachable g.entry :=
  ⟨_, .start⟩

/-- An edge from a reachable block leads to a reachable one. -/
theorem Reachable.step {u v : Nat} (h : g.Reachable u) (hedge : g.HasEdge u v) :
    g.Reachable v := by
  obtain ⟨π, hπ⟩ := h
  exact ⟨_, hπ.step hedge⟩

/-- Reachable ids have a block. -/
theorem Reachable.lt_size {b : Nat} (h : g.Reachable b) : b < g.size := by
  obtain ⟨π, hπ⟩ := h
  exact hπ.lt_size g.entry_lt_size

/-- Every block on a path from the entry is reachable. -/
theorem Path.reachable_of_mem {π : List Nat} {b c : Nat} (h : g.Path g.entry π b)
    (hc : c ∈ π) : g.Reachable c := by
  obtain ⟨ρ, hρ, -⟩ := h.exists_initial hc
  exact ⟨ρ, hρ⟩

/-- Paths are what the searches of the graph follow. -/
theorem reaches_iff_exists_path {a b : Nat} :
    Search.Reaches g.succs g.ids a b ↔ ∃ π, g.Path a π b := by
  constructor
  · intro h
    induction h with
    | refl => exact ⟨[a], .start⟩
    | tail _ hstep ih =>
        obtain ⟨π, hπ⟩ := ih
        exact ⟨_, hπ.step ⟨hstep.1, mem_ids.mp hstep.2⟩⟩
  · rintro ⟨π, hπ⟩
    induction hπ with
    | start => exact .refl
    | step _ hedge ih => exact .tail ih ⟨hedge.1, mem_ids.mpr hedge.2⟩

/-- **The reverse postorder lists exactly the reachable blocks.** -/
theorem mem_reversePostorder_iff_reachable {b : Nat} :
    b ∈ g.reversePostorder ↔ g.Reachable b :=
  Search.mem_reversePostorder_iff.trans reaches_iff_exists_path

instance (b : Nat) : Decidable (g.Reachable b) :=
  decidable_of_iff _ mem_reversePostorder_iff_reachable

/-! ### Dominance -/

/-- A reachable block dominates itself. -/
theorem Reachable.dominates_self {b : Nat} (h : g.Reachable b) : g.Dominates b b :=
  ⟨h, h, fun _ hπ => hπ.last_mem⟩

/-- The entry dominates every reachable block. -/
theorem Reachable.entry_dominates {b : Nat} (h : g.Reachable b) : g.Dominates g.entry b :=
  ⟨g.reachable_entry, h, fun _ hπ => hπ.first_mem⟩

/-- Nothing but the entry dominates the entry. -/
theorem Dominates.eq_entry {a : Nat} (h : g.Dominates a g.entry) : a = g.entry := by
  simpa using h.2.2 _ .start

/-- What **every path** to a reachable block contains dominates that block, since it lies on the
way to a reachable block itself. -/
theorem Reachable.dominates_iff {a b : Nat} (h : g.Reachable b) :
    g.Dominates a b ↔ ∀ π, g.Path g.entry π b → a ∈ π := by
  constructor
  · exact fun hdom => hdom.2.2
  · intro hmem
    obtain ⟨π, hπ⟩ := h
    exact ⟨hπ.reachable_of_mem (hmem π hπ), ⟨π, hπ⟩, hmem⟩

/-- A dominator of a dominator is a dominator. -/
theorem Dominates.trans {a b c : Nat} (h : g.Dominates a b) (h' : g.Dominates b c) :
    g.Dominates a c := by
  refine ⟨h.1, h'.2.1, fun π hπ => ?_⟩
  obtain ⟨ρ, hρ, hpre⟩ := hπ.exists_initial (h'.2.2 π hπ)
  exact hpre.subset (h.2.2 ρ hρ)

/-- A strict dominator of a block dominates **every reachable predecessor** of it: a path to the
predecessor is a path to the block but for the last step. -/
theorem StrictlyDominates.dominates_pred {a p b : Nat} (h : g.StrictlyDominates a b)
    (hp : g.Reachable p) (hedge : g.HasEdge p b) : g.Dominates a p := by
  refine ⟨h.1.1, hp, fun π hπ => ?_⟩
  rcases List.mem_append.mp (h.1.2.2 _ (hπ.step hedge)) with ha | ha
  · exact ha
  · exact absurd (by simpa using ha) h.2

/-- What dominates **all reachable predecessors** of a block dominates the block. -/
theorem dominates_of_forall_pred {c b : Nat} (hb : g.Reachable b) (hne : b ≠ g.entry)
    (h : ∀ p, g.Reachable p → g.HasEdge p b → g.Dominates c p) : g.Dominates c b := by
  have hmem : ∀ π, g.Path g.entry π b → c ∈ π := by
    intro π hπ
    cases hπ with
    | start => exact absurd rfl hne
    | step hpath hedge => exact List.mem_append_left _ ((h _ ⟨_, hpath⟩ hedge).2.2 _ hpath)
  exact hb.dominates_iff.mpr hmem

/-! ### Valid graphs -/

/-- A valid graph has no defect at any of its blocks. -/
theorem blockDefects_of_validate (h : g.validate = .ok ()) {id : Nat} {b : Block}
    (hb : g.block? id = some b) : g.blockDefects id b = [] := by
  have hnil := validate_eq_ok_iff.mp h
  rw [defects, List.append_eq_nil_iff, List.flatMap_eq_nil_iff] at hnil
  exact hnil.2 (b, id) (List.mem_zipIdx_iff_getElem?.mpr hb)

/-- In a valid graph every edge leads to a block that knows of it. -/
theorem mem_preds_of_validate (h : g.validate = .ok ()) {u v : Nat} (hv : v ∈ g.succs u) :
    v < g.size ∧ u ∈ g.preds v := by
  obtain ⟨b, hb⟩ := exists_block? (lt_size_of_mem_succs hv)
  have hdefects := blockDefects_of_validate h hb
  simp only [blockDefects, List.append_eq_nil_iff, List.filterMap_eq_nil_iff] at hdefects
  have hsucc := hdefects.1.1 v (by simpa [succs, hb] using hv)
  rw [succDefect?] at hsucc
  split at hsucc
  · simp at hsucc
  · rename_i target htarget
    refine ⟨lt_size_of_block? htarget, ?_⟩
    simp only [preds, htarget]
    by_contra hmem
    simp [hmem] at hsucc

/-- In a valid graph every known edge comes from a block that lists it. -/
theorem mem_succs_of_validate (h : g.validate = .ok ()) {u v : Nat} (hu : u ∈ g.preds v) :
    u < g.size ∧ v ∈ g.succs u := by
  obtain ⟨b, hb⟩ := exists_block? (lt_size_of_mem_preds hu)
  have hdefects := blockDefects_of_validate h hb
  simp only [blockDefects, List.append_eq_nil_iff, List.filterMap_eq_nil_iff] at hdefects
  have hpred := hdefects.1.2 u (by simpa [preds, hb] using hu)
  rw [predDefect?] at hpred
  split at hpred
  · simp at hpred
  · rename_i source hsource
    refine ⟨lt_size_of_block? hsource, ?_⟩
    simp only [succs, hsource]
    by_contra hmem
    simp [hmem] at hpred

/-- **The notes of a valid graph agree.** -/
theorem edgesAgree_of_validate (h : g.validate = .ok ()) : g.EdgesAgree := fun _ _ _ _ =>
  ⟨fun hv => (mem_preds_of_validate h hv).2, fun hu => (mem_succs_of_validate h hu).2⟩

end FlowForm.FlowGraph
