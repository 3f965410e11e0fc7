import Mathlib
import FlowForm.Proofs.Graph.Validity

/-!
# Edges Are the Flow of Items

Blocks and their edges say neither more nor less than the items they are made of: an item can be
followed by another one if and only if the two stand next to each other in a block, or an edge
leads from the block that the first one ends to the block that the second one starts
(`canFollow_iff_leads`).

Membership in the notes of a block comes from `Blocks`. What is added here is their order. Noting
edges appends to the notes, so those of a block are the targets and the sources of its edges in the
order in which edges are listed (`succs_foldl` and `preds_foldl`): the target of a jump comes before
the next block, and sources ascend.

## Main results

* `notedInOrder_ofSorted`: the order of the notes of a block.
* `consistent_ofSorted`: a graph that has been built is valid.
* `canFollow_iff_leads`: items follow each other along blocks and edges.
* `build_edges_eq_flow`: all that edges say.
-/

namespace FlowForm.FlowGraph

variable {g : FlowGraph}

/-! ### Sorted items -/

/-- Sorting puts items in ascending order. -/
theorem pairwise_sortItems (items : List Item) :
    (sortItems items).Pairwise fun a b => a.address ≤ b.address := by
  have hpairwise := @List.pairwise_mergeSort _ (fun a b : Item => a.address ≤ b.address)
    (fun a b c => by simpa using Nat.le_trans) (fun a b => by simpa using Nat.le_total ..) items
  simpa [sortItems] using hpairwise

/-- Sorting keeps the items. -/
theorem perm_sortItems (items : List Item) : (sortItems items).Perm items :=
  List.mergeSort_perm ..

/-- Items at addresses of their own are put in **strictly ascending** order. -/
theorem ascending_sortItems {items : List Item} (hnodup : (items.map (·.address)).Nodup) :
    (sortItems items).Pairwise fun a b => a.address < b.address := by
  have hsorted : ((sortItems items).map (·.address)).Nodup :=
    ((perm_sortItems items).map _).nodup_iff.mpr hnodup
  rw [List.Nodup, List.pairwise_map] at hsorted
  exact (pairwise_sortItems items).imp₂ (fun a b hle hne => by omega) hsorted

/-- A graph has items at addresses of their own. -/
theorem nodup_of_ofSorted {policy : UnresolvedTargets} {items : List Item}
    (h : ofSorted policy items = .ok g) : (items.map (·.address)).Nodup := by
  simp only [ofSorted] at h
  split at h
  · cases h
  · rename_i hrepeat
    exact (firstRepeat?_eq_none_iff.mp hrepeat).1

/-- What a graph is built from are the items in strictly ascending order. -/
theorem ofSorted_of_build {policy : UnresolvedTargets} {items : List Item}
    (h : build policy items = .ok g) : ofSorted policy (sortItems items) = .ok g ∧
      (sortItems items).Pairwise fun a b => a.address < b.address := by
  have hbuild : ofSorted policy (sortItems items) = .ok g := by
    cases items with
    | nil => cases h
    | cons first rest =>
        simp only [build] at h
        split at h
        · exact h
        · cases h
  have hnodup : (items.map (·.address)).Nodup :=
    ((perm_sortItems items).map _).nodup_iff.mp (nodup_of_ofSorted hbuild)
  exact ⟨hbuild, ascending_sortItems hnodup⟩

/-! ### Notes in order -/

/-- The successors noted at a block, in the order of the edges that leave it. -/
theorem succs_foldl (id : Nat) (b : Block) (es : List Edge) :
    (es.foldl (noteEdge id) b).succs =
      ((es.filter (·.source = id)).map (·.target)).foldl Block.pushNew b.succs := by
  induction es generalizing b with
  | nil => rfl
  | cons e es ih =>
      rw [List.foldl_cons, ih, noteEdge]
      by_cases hsource : e.source = id <;> by_cases htarget : e.target = id <;>
        simp [hsource, htarget, Block.addSucc, Block.addPred]

/-- The predecessors noted at a block, in the order of the edges that enter it. -/
theorem preds_foldl (id : Nat) (b : Block) (es : List Edge) :
    (es.foldl (noteEdge id) b).preds =
      ((es.filter (·.target = id)).map (·.source)).foldl Block.pushNew b.preds := by
  induction es generalizing b with
  | nil => rfl
  | cons e es ih =>
      rw [List.foldl_cons, ih, noteEdge]
      by_cases hsource : e.source = id <;> by_cases htarget : e.target = id <;>
        simp [hsource, htarget, Block.addSucc, Block.addPred]

/-- No id is noted twice. -/
theorem nodup_foldl_pushNew {ids : List Nat} (news : List Nat) (h : ids.Nodup) :
    (news.foldl Block.pushNew ids).Nodup := by
  induction news generalizing ids with
  | nil => exact h
  | cons new news ih =>
      refine ih ?_
      rw [Block.pushNew]
      split
      · exact h
      · rename_i hnew
        exact List.nodup_append'.mpr ⟨h, List.nodup_singleton new, by simpa using hnew⟩

/-- Ids that are noted in **ascending** order stay so. -/
theorem pairwise_foldl_pushNew {ids news : List Nat} (hids : ids.Pairwise (· < ·))
    (hnews : news.Pairwise (· ≤ ·)) (hle : ∀ i ∈ ids, ∀ n ∈ news, i ≤ n) :
    (news.foldl Block.pushNew ids).Pairwise (· < ·) := by
  induction news generalizing ids with
  | nil => exact hids
  | cons new news ih =>
      obtain ⟨hfirst, hrest⟩ := List.pairwise_cons.mp hnews
      refine ih ?_ hrest fun i hi n hn => ?_
      · rw [Block.pushNew]
        split
        · exact hids
        · rename_i hnew
          refine List.pairwise_append.mpr ⟨hids, List.pairwise_singleton .., fun i hi n hn => ?_⟩
          obtain rfl : n = new := List.mem_singleton.mp hn
          have hne : i ≠ n := fun heq => hnew (heq ▸ hi)
          have := hle i hi n (List.mem_cons_self ..)
          omega
      · rcases mem_pushNew.mp hi with hi | rfl
        · exact hle i hi n (List.mem_cons_of_mem _ hn)
        · exact hfirst n hn

/-- What is noted first stays in front. -/
theorem head?_foldl_pushNew (first : Nat) (ids news : List Nat) :
    (news.foldl Block.pushNew (first :: ids)).head? = some first := by
  induction news generalizing ids with
  | nil => rfl
  | cons new news ih =>
      rw [List.foldl_cons, Block.pushNew]
      split
      · exact ih ids
      · exact ih (ids ++ [new])

/-- The edges that leave any other block than the one asked for do not count. -/
theorem filter_source_edgesFrom {i id : Nat} (c : Block) (hne : i ≠ id) :
    (g.edgesFrom i c).filter (·.source = id) = [] := by
  refine List.filter_eq_nil_iff.mpr fun e he => ?_
  rw [source_of_mem_edgesFrom he]
  simpa using hne

/-- Of the edges of several blocks, those that leave one of them. -/
theorem filter_source_flatMap (blocks : List Block) (k n : Nat) {b : Block}
    (hb : blocks[n]? = some b) :
    ((blocks.zipIdx k).flatMap fun (c, i) => g.edgesFrom i c).filter (·.source = k + n) =
      g.edgesFrom (k + n) b := by
  induction blocks generalizing k n with
  | nil => simp at hb
  | cons c blocks ih =>
      rw [List.zipIdx_cons, List.flatMap_cons, List.filter_append]
      cases n with
      | zero =>
          obtain rfl : c = b := by simpa using hb
          have hfirst : (g.edgesFrom k c).filter (·.source = k + 0) = g.edgesFrom k c :=
            List.filter_eq_self.mpr fun e he => decide_eq_true (source_of_mem_edgesFrom he)
          have hrest : ((blocks.zipIdx (k + 1)).flatMap fun (c, i) => g.edgesFrom i c).filter
              (·.source = k + 0) = [] := by
            rw [List.filter_flatMap, List.flatMap_eq_nil_iff]
            rintro ⟨d, i⟩ hmem
            have := (List.mem_zipIdx hmem).1
            exact filter_source_edgesFrom d (by omega)
          rw [hfirst, hrest, List.append_nil]
          rfl
      | succ n =>
          rw [filter_source_edgesFrom c (by omega), List.nil_append]
          have hrest := ih (k + 1) n (by simpa using hb)
          rwa [show k + 1 + n = k + (n + 1) by omega] at hrest

/-- Of the edges of a graph, those that leave a block are the block's own. -/
theorem filter_source_edges {id : Nat} {b : Block} (hb : g.block? id = some b) :
    g.edges.filter (·.source = id) = g.edgesFrom id b := by
  have hfilter := filter_source_flatMap (g := g) g.blocks 0 id hb
  rwa [Nat.zero_add] at hfilter

/-- Edges are listed in the order of the blocks that they leave. -/
theorem pairwise_source_edges (g : FlowGraph) :
    (g.edges.map (·.source)).Pairwise (· ≤ ·) := by
  rw [edges, List.pairwise_map, List.pairwise_flatMap]
  constructor
  · rintro ⟨b, id⟩ -
    refine List.pairwise_iff_forall_sublist.mpr fun {e e'} hsub => ?_
    rw [source_of_mem_edgesFrom (hsub.subset (by simp)),
      source_of_mem_edgesFrom (hsub.subset (by simp))]
  · refine List.pairwise_iff_getElem.mpr fun i j hi hj hij e he e' he' => ?_
    rw [List.getElem_zipIdx] at he he'
    rw [source_of_mem_edgesFrom he, source_of_mem_edgesFrom he']
    omega

/-- Every block has a last item. -/
theorem Blocks.exists_getLast? {items : List Item} (h : Blocks items g) {id : Nat} {b : Block}
    (hb : g.block? id = some b) : ∃ last, b.items.getLast? = some last :=
  ⟨_, List.getLast?_eq_some_getLast (h.items_ne_nil hb)⟩

/-- **The notes of a block in order**: no successor is listed twice, the block at the target of a
jump is listed first and the one reached without a jump last, and predecessors ascend. -/
structure NotedInOrder (g : FlowGraph) (b : Block) : Prop where
  nodup_succs : b.succs.Nodup
  head?_succs : ∀ last t s, b.items.getLast? = some last → last.flow.target? = some t →
    g.blockAt? t = some s → b.succs.head? = some s
  getLast?_succs : ∀ f, b.fall = some f → b.succs.getLast? = some f
  pairwise_preds : b.preds.Pairwise (· < ·)

/-- The notes of every block of a graph of sorted items are in order. -/
theorem notedInOrder_ofSorted {policy : UnresolvedTargets} {items : List Item}
    (h : ofSorted policy items = .ok g) {id : Nat} {b : Block} (hb : g.block? id = some b) :
    NotedInOrder g b := by
  have hblocks := blocks_ofSorted h
  obtain ⟨g₁, jumps, hofBlocks, rfl⟩ := ofSorted_eq_ok h
  obtain ⟨hpieces, -⟩ := ofBlocks_eq_ok hofBlocks
  obtain ⟨piece, -, hb₁, hitems, -, hnoted⟩ := exists_piece hpieces hb
  obtain ⟨last, hlast⟩ := hblocks.exists_getLast? hb
  have hfall := hblocks.fall_eq id b last hb hlast
  have hsize : ((g₁.addEdges g₁.edges).recordUnresolved jumps).size = g₁.size := size_addEdges ..
  have hat : ∀ t, ((g₁.addEdges g₁.edges).recordUnresolved jumps).blockAt? t = g₁.blockAt? t :=
    fun t => congrArg (List.idxOf? t) (keys_addEdges ..)
  have hsuccs : b.succs = ((g₁.edgesFrom id (Block.ofItems piece)).map (·.target)).foldl
      Block.pushNew [] := by
    rw [hnoted, succs_foldl, filter_source_edges hb₁]
    rfl
  have hedges : (g₁.edgesFrom id (Block.ofItems piece)).map (·.target) =
      (last.flow.target?.bind g₁.blockAt?).toList ++ b.fall.toList := by
    have hpiece : (Block.ofItems piece).items.getLast? = some last := hitems ▸ hlast
    rw [hfall, hsize]
    simp only [edgesFrom, hpiece, List.map_append, List.map_map, Bool.and_eq_true,
      decide_eq_true_eq]
    congr 1
    · exact List.map_id _
    · split <;> rfl
  rw [hedges] at hsuccs
  refine ⟨hsuccs ▸ nodup_foldl_pushNew _ List.nodup_nil, ?_, ?_, ?_⟩
  · intro last' t s hlast' ht hs
    obtain rfl : last' = last := Option.some.inj (hlast'.symm.trans hlast)
    rw [hat] at hs
    rw [hsuccs, ht, Option.bind_some, hs]
    exact head?_foldl_pushNew s [] _
  · intro f hf
    rw [hsuccs, hf]
    cases last.flow.target?.bind g₁.blockAt? with
    | none => rfl
    | some s =>
        by_cases heq : f = s <;> simp [Block.pushNew, heq]
  · rw [hnoted, preds_foldl]
    refine pairwise_foldl_pushNew List.Pairwise.nil ?_ fun i hi => absurd hi List.not_mem_nil
    exact (pairwise_source_edges g₁).sublist (List.filter_sublist.map _)

/-! ### Validity -/

/-- A graph that has been built is **consistent**. -/
theorem consistent_ofSorted {policy : UnresolvedTargets} {items : List Item}
    (h : ofSorted policy items = .ok g) : Consistent g := by
  have hblocks := blocks_ofSorted h
  have hagree : g.EdgesAgree := by
    obtain ⟨g₁, jumps, hofBlocks, rfl⟩ := ofSorted_eq_ok h
    obtain ⟨hpieces, -⟩ := ofBlocks_eq_ok hofBlocks
    refine edgesAgree_addEdges _ fun id b hb => ?_
    obtain ⟨piece, -, rfl⟩ := mem_partition (hpieces ▸ List.mem_of_getElem? hb)
    exact ⟨rfl, rfl⟩
  have hsucc : ∀ id, ∀ s ∈ g.succs id, id < g.size ∧ s < g.size := by
    intro id s hs
    have hid := lt_size_of_mem_succs hs
    obtain ⟨b, hb⟩ := exists_block? hid
    obtain ⟨last, hlast⟩ := hblocks.exists_getLast? hb
    rw [succs, hb] at hs
    rcases (hblocks.mem_succs id b last hb hlast s).mp hs with ⟨t, -, hat⟩ | ⟨-, hlt, rfl⟩
    · obtain ⟨hlt, -⟩ := List.idxOf?_eq_some_iff.mp hat
      rw [g.length_keys] at hlt
      exact ⟨hid, hlt⟩
    · exact ⟨hid, hlt⟩
  have hpred : ∀ id, ∀ p ∈ g.preds id, p < g.size := by
    intro id p hp
    obtain ⟨g₁, jumps, hofBlocks, rfl⟩ := ofSorted_eq_ok h
    obtain ⟨hpieces, -⟩ := ofBlocks_eq_ok hofBlocks
    rw [preds] at hp
    split at hp
    · rename_i b hb
      obtain ⟨piece, -, -, -, -, rfl⟩ := exists_piece hpieces hb
      rcases mem_preds_foldl.mp hp with hp | ⟨e, he, -, rfl⟩
      · cases hp
      · obtain ⟨i, c, hc, he⟩ := mem_edges.mp he
        rw [source_of_mem_edgesFrom he]
        exact (size_addEdges g₁ _).symm ▸ lt_size_of_block? hc
    · cases hp
  constructor
  case keys_eq => exact hblocks.keys_eq
  case succ_known =>
    intro id s hs
    obtain ⟨hid, hlt⟩ := hsucc id s hs
    exact ⟨hlt, (hagree id hid s hlt).mp hs⟩
  case pred_known =>
    intro id p hp
    have hlt := hpred id p hp
    exact ⟨hlt, (hagree p hlt id (lt_size_of_mem_preds hp)).mpr hp⟩
  case fall_mem =>
    intro id b f hb hfall
    exact List.mem_of_getLast? ((notedInOrder_ofSorted h hb).getLast?_succs f hfall)

/-! ### Items -/

/-- The second of two items stands directly **behind** the first one. -/
def Next (items : List Item) (p q : Item) : Prop :=
  ∃ k, items[k]? = some p ∧ items[k + 1]? = some q

/-- An item **can follow** another one: a plain item is followed by the next one, a jump by the
item at its target, and a branch by either of the two. -/
def CanFollow (items : List Item) (p q : Item) : Prop :=
  match p.flow with
  | .plain => Next items p q
  | .jump t => q.address = t
  | .conditional t => q.address = t ∨ Next items p q
  | .terminal => False

/-- A graph **leads** from an item to another one: inside a block, from a plain item to the one
behind it, or along an edge, from the last item of a block to the first one of another. -/
def Leads (g : FlowGraph) (p q : Item) : Prop :=
  (∃ id b, g.block? id = some b ∧ Next b.items p q ∧ p.flow = .plain) ∨
    ∃ a A b B, g.block? a = some A ∧ A.items.getLast? = some p ∧ g.block? b = some B ∧
      B.items.head? = some q ∧ b ∈ A.succs

/-- What it means to follow, by the two ways in which control can go on. -/
theorem canFollow_iff {items : List Item} {p q : Item} :
    CanFollow items p q ↔
      p.flow.target? = some q.address ∨ p.flow.fallsThrough = true ∧ Next items p q := by
  cases hflow : p.flow <;> simp [CanFollow, hflow, Flow.target?, Flow.fallsThrough, eq_comm]

namespace Blocks

variable {items : List Item}

/-- The first item of a block stands at the start of the block. -/
theorem getElem?_head (h : Blocks items g) {id : Nat} {b : Block} (hb : g.block? id = some b) :
    items[g.start id]? = b.items.head? := by
  have hpos := List.length_pos_iff.mpr (h.items_ne_nil hb)
  rw [List.head?_eq_getElem?]
  exact h.getElem?_start hb hpos

/-- The last item of a block stands before the start of the next one. -/
theorem getElem?_last (h : Blocks items g) {id : Nat} {b : Block} (hb : g.block? id = some b) :
    ∃ k, items[k]? = b.items.getLast? ∧ k + 1 = g.start (id + 1) := by
  have hpos := List.length_pos_iff.mpr (h.items_ne_nil hb)
  refine ⟨g.start id + (b.items.length - 1), ?_, ?_⟩
  · rw [List.getLast?_eq_getElem?]
    exact h.getElem?_start hb (by omega)
  · rw [start_succ hb]
    omega

/-- The first item of a block stands at the address of the block. -/
theorem address_of_head? (h : Blocks items g) {id : Nat} {b : Block} (hb : g.block? id = some b)
    {q : Item} (hq : b.items.head? = some q) : q.address = b.address := by
  have haddress := h.address_eq id b hb
  rw [hq] at haddress
  exact Option.some.inj haddress

/-- An item that is **not plain** is the last one of its block. -/
theorem exists_last (h : Blocks items g) {p : Item} (hp : p ∈ items) (hflow : p.flow ≠ .plain) :
    ∃ id b, g.block? id = some b ∧ b.items.getLast? = some p := by
  obtain ⟨k, hk⟩ := List.getElem?_of_mem hp
  obtain ⟨id, b, j, hb, hj, rfl⟩ := h.exists_position (List.getElem?_eq_some_iff.mp hk).1
  rw [h.getElem?_start hb hj] at hk
  refine ⟨id, b, hb, ?_⟩
  by_cases hnext : j + 1 < b.items.length
  · exact absurd (h.continues_inside hb hnext hk (List.getElem?_eq_getElem hnext)).1 hflow
  · rw [List.getLast?_eq_getElem?, show b.items.length - 1 = j by omega, hk]

/-- **The next item** stands behind an item in the same block, or starts the next block. -/
theorem next_cases (h : Blocks items g) {p q : Item} (hnext : Next items p q) :
    ∃ id b, g.block? id = some b ∧
      (Next b.items p q ∨ b.items.getLast? = some p ∧
        ∃ c, g.block? (id + 1) = some c ∧ c.items.head? = some q) := by
  obtain ⟨k, hp, hq⟩ := hnext
  obtain ⟨id, b, j, hb, hj, rfl⟩ := h.exists_position (List.getElem?_eq_some_iff.mp hp).1
  rw [h.getElem?_start hb hj] at hp
  refine ⟨id, b, hb, ?_⟩
  by_cases hinside : j + 1 < b.items.length
  · rw [Nat.add_assoc, h.getElem?_start hb hinside] at hq
    exact .inl ⟨j, hp, hq⟩
  · have hend : g.start (id + 1) = g.start id + j + 1 := by
      rw [start_succ hb]
      omega
    have hsize : id + 1 < g.size := by
      by_contra hsize
      have := lt_size_of_block? hb
      have hlength := h.start_size
      rw [show g.size = id + 1 by omega, hend] at hlength
      rw [List.getElem?_eq_none (by omega)] at hq
      cases hq
    obtain ⟨c, hc⟩ := exists_block? hsize
    refine .inr ⟨?_, c, hc, ?_⟩
    · rw [List.getLast?_eq_getElem?, show b.items.length - 1 = j by omega, hp]
    · rw [← h.getElem?_head hc, hend, hq]

/-- **Items follow each other along blocks and edges.** -/
theorem canFollow_iff_leads (h : Blocks items g) {p q : Item} (hp : p ∈ items) (hq : q ∈ items) :
    CanFollow items p q ↔ g.Leads p q := by
  rw [canFollow_iff]
  constructor
  · rintro (htarget | ⟨hfalls, hnext⟩)
    · -- The item jumped to starts a block, and the jump ends one.
      obtain ⟨k, hk⟩ := List.getElem?_of_mem hq
      obtain ⟨s, c, hc, haddress, rfl⟩ := h.exists_block_at_target hk rfl
        (List.mem_filterMap.mpr ⟨p, hp, htarget⟩)
      obtain ⟨id, b, hb, hlast⟩ := h.exists_last hp fun hplain => by
        rw [hplain] at htarget
        cases htarget
      refine .inr ⟨id, b, s, c, hb, hlast, hc, h.getElem?_head hc ▸ hk, ?_⟩
      exact (h.mem_succs id b p hb hlast s).mpr (.inl ⟨_, htarget, haddress ▸ h.blockAt?_eq hc⟩)
    · obtain ⟨id, b, hb, hinside | ⟨hlast, c, hc, hhead⟩⟩ := h.next_cases hnext
      · obtain ⟨j, hpj, hqj⟩ := hinside
        have hj := (List.getElem?_eq_some_iff.mp hqj).1
        exact .inl ⟨id, b, hb, ⟨j, hpj, hqj⟩, (h.continues_inside hb hj hpj hqj).1⟩
      · refine .inr ⟨id, b, id + 1, c, hb, hlast, hc, hhead, ?_⟩
        exact (h.mem_succs id b p hb hlast _).mpr (.inr ⟨hfalls, lt_size_of_block? hc, rfl⟩)
  · rintro (⟨id, b, hb, ⟨j, hpj, hqj⟩, hplain⟩ | ⟨a, A, b, B, hA, hlast, hB, hhead, hmem⟩)
    · have hj := (List.getElem?_eq_some_iff.mp hqj).1
      refine .inr ⟨by rw [hplain]; rfl, g.start id + j, ?_, ?_⟩
      · rw [h.getElem?_start hb (by omega), hpj]
      · rw [Nat.add_assoc, h.getElem?_start hb hj, hqj]
    · rcases (h.mem_succs a A p hA hlast b).mp hmem with ⟨t, ht, hat⟩ | ⟨hfalls, -, rfl⟩
      · -- The block registered at the target stands there.
        have haddress : B.address = t := by
          have hget := blockAt?_eq_some_iff.mp hat
          rw [h.keys_eq, List.getElem?_map, show g.blocks[b]? = some B from hB] at hget
          exact Option.some.inj hget
        exact .inl (by rw [ht, ← haddress, h.address_of_head? hB hhead])
      · obtain ⟨k, hk, hnext⟩ := h.getElem?_last hA
        exact .inr ⟨hfalls, k, hk.trans hlast, by rw [hnext, h.getElem?_head hB, hhead]⟩

/-- Blocks are numbered in **ascending** order of their addresses. -/
theorem pairwise_address (h : Blocks items g)
    (hascending : items.Pairwise fun a b => a.address < b.address) :
    g.blocks.Pairwise fun a b => a.address < b.address := by
  rw [← h.flatten_eq, List.pairwise_flatten, List.pairwise_map] at hascending
  have hmem : ∀ b ∈ g.blocks, ∃ item ∈ b.items, item.address = b.address := by
    intro b hb
    obtain ⟨id, hid⟩ := List.getElem?_of_mem hb
    have hhead := List.head?_eq_some_head (h.items_ne_nil hid)
    exact ⟨_, List.mem_of_head? hhead, h.address_of_head? hid hhead⟩
  refine hascending.2.imp_of_mem fun {a b} ha hb hlt => ?_
  obtain ⟨x, hx, hxa⟩ := hmem a ha
  obtain ⟨y, hy, hyb⟩ := hmem b hb
  rw [← hxa, ← hyb]
  exact hlt x hx y hy

end Blocks

/-- **Edges are the flow of items.** In every graph that has been built, whatever the order of the
items and the policy, items can follow each other exactly as the graph leads from one to the other.
Blocks are the sorted items cut into pieces and are numbered by address. No block lists a successor
twice; the block that starts with the item jumped to is listed first, and the one reached without a
jump last, which is the next block if there is one and the last item is plain or a branch.
Predecessors ascend and are the blocks that list the block as a successor, and the graph is
valid. -/
theorem build_edges_eq_flow {policy : UnresolvedTargets} {items : List Item}
    (h : build policy items = .ok g) :
    (∀ p ∈ sortItems items, ∀ q ∈ sortItems items,
      CanFollow (sortItems items) p q ↔ g.Leads p q) ∧
    (g.blocks.map (·.items)).flatten = sortItems items ∧
    g.blocks.Pairwise (fun a b => a.address < b.address) ∧
    (∀ id b, g.block? id = some b → ∃ last, b.items.getLast? = some last ∧
      b.succs.Nodup ∧
      (∀ q ∈ sortItems items, last.flow.target? = some q.address →
        ∃ s c, g.block? s = some c ∧ c.items.head? = some q ∧ b.succs.head? = some s) ∧
      (∀ f, b.fall = some f → b.succs.getLast? = some f) ∧
      (∀ f, b.fall = some f ↔ f = id + 1 ∧ f < g.size ∧
        (last.flow = .plain ∨ ∃ t, last.flow = .conditional t)) ∧
      b.preds.Pairwise (· < ·) ∧
      ∀ a, a ∈ b.preds ↔ ∃ A, g.block? a = some A ∧ id ∈ A.succs) ∧
    g.validate = .ok () := by
  obtain ⟨hsorted, hascending⟩ := ofSorted_of_build h
  have hblocks := blocks_ofSorted hsorted
  have hconsistent := consistent_ofSorted hsorted
  refine ⟨fun p hp q hq => hblocks.canFollow_iff_leads hp hq, hblocks.flatten_eq,
    hblocks.pairwise_address hascending, fun id b hb => ?_, hconsistent.validate⟩
  obtain ⟨last, hlast⟩ := hblocks.exists_getLast? hb
  have hnoted := notedInOrder_ofSorted hsorted hb
  have hfall := hblocks.fall_eq id b last hb hlast
  refine ⟨last, hlast, hnoted.nodup_succs, fun q hq htarget => ?_, hnoted.getLast?_succs,
    fun f => ?_, hnoted.pairwise_preds, fun a => ?_⟩
  · obtain ⟨k, hk⟩ := List.getElem?_of_mem hq
    obtain ⟨j, hj, -⟩ := hblocks.getElem?_last hb
    have hmem : last ∈ sortItems items := List.mem_of_getElem? (hj.trans hlast)
    obtain ⟨s, c, hc, haddress, rfl⟩ := hblocks.exists_block_at_target hk rfl
      (List.mem_filterMap.mpr ⟨last, hmem, htarget⟩)
    refine ⟨s, c, hc, hblocks.getElem?_head hc ▸ hk, ?_⟩
    exact hnoted.head?_succs last _ s hlast htarget (haddress ▸ hblocks.blockAt?_eq hc)
  · have hflow : last.flow.fallsThrough = true ↔
        last.flow = .plain ∨ ∃ t, last.flow = .conditional t := by
      cases last.flow <;> simp [Flow.fallsThrough]
    rw [hfall, ← hflow]
    constructor
    · intro hf
      split at hf
      · rename_i hcond
        cases hf
        exact ⟨rfl, hcond.2, hcond.1⟩
      · cases hf
    · rintro ⟨rfl, hlt, hfalls⟩
      exact if_pos ⟨hfalls, hlt⟩
  · have hpreds : g.preds id = b.preds := by rw [preds, hb]
    constructor
    · intro ha
      obtain ⟨hlt, hmem⟩ := hconsistent.pred_known id a (hpreds ▸ ha)
      obtain ⟨A, hA⟩ := exists_block? hlt
      rw [succs, hA] at hmem
      exact ⟨A, hA, hmem⟩
    · rintro ⟨A, hA, hmem⟩
      rw [← hpreds]
      exact (hconsistent.succ_known a id (by rw [succs, hA]; exact hmem)).2

/-- Items out of order: a jump back into the middle of what would be one block, a branch to the
next item, a jump to an address without an item, and a branch to itself behind which nothing
stands. -/
def tangle : List Item := [
  { address := 0 },
  { address := 12, terminator := .jump 4 },
  { address := 4, statements := [⟨⟨"x", none⟩, .imm 1⟩] },
  { address := 20, terminator := .branch (.var ⟨"x", none⟩) 20 },
  { address := 8, terminator := .branch (.var ⟨"x", none⟩) 12 },
  { address := 16, terminator := .jump 99 }]

/-- The jump at 12 leads to the item at 4, that at 16 leads nowhere, and the branch at 8 is followed
by the block that starts at 12 only once. -/
theorem build_edges_eq_flow_tangle :
    ∃ g, build .record tangle = .ok g ∧
      g.Leads { address := 12, terminator := .jump 4 }
        { address := 4, statements := [⟨⟨"x", none⟩, .imm 1⟩] } ∧
      ¬ g.Leads { address := 16, terminator := .jump 99 }
        { address := 20, terminator := .branch (.var ⟨"x", none⟩) 20 } ∧
      (g.block? 1).map (·.succs) = some [2] ∧ g.validate = .ok () := by
  have hsorted : ∀ item ∈ tangle, item ∈ sortItems tangle := fun item =>
    List.mem_mergeSort.mpr
  have heval : (build .record tangle).map (fun g => (g.block? 1).map (·.succs)) =
      .ok (some [2]) := by decide_cbv
  cases hbuild : build .record tangle with
  | error e =>
      rw [hbuild] at heval
      cases heval
  | ok g =>
      rw [hbuild] at heval
      obtain ⟨hflow, -, -, -, hvalid⟩ := build_edges_eq_flow hbuild
      refine ⟨g, rfl, ?_, ?_, Except.ok.inj heval, hvalid⟩
      · rw [← hflow _ (hsorted _ (by decide)) _ (hsorted _ (by decide))]
        exact rfl
      · rw [← hflow _ (hsorted _ (by decide)) _ (hsorted _ (by decide))]
        exact (by decide : ¬ (20 : Nat) = 99)

end FlowForm.FlowGraph
