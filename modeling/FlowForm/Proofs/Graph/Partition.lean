import FlowForm.Proofs.Graph.Flow

/-!
# Blocks Are Cut Where They Have to Be

A block starts at the lowest item, at every item that is jumped to and behind every item that is not
plain (`Leader`), and it starts nowhere else. That blocks are cut at all these places is part of
`Blocks`: inside a block everything falls through, and nothing is jumped to. That they are cut
nowhere else is added here. Where one block ends and the next one starts, the two items in between
do not go on with each other (`continues_boundary`), so that one of the reasons to cut applies.

## Main results

* `continues_boundary`: there is a reason for every cut.
* `Blocks.exists_head_of_leader` and `leader_of_head`: blocks start at leaders.
* `build_partitions_items`: how items are cut into blocks.
-/

namespace FlowForm.FlowGraph

variable {g : FlowGraph}

/-- An item **leads** a block if it stands lowest, if it is jumped to, or if the item before it is
not plain. -/
def Leader (items : List Item) (item : Item) : Prop :=
  (∀ other ∈ items, item.address ≤ other.address) ∨
  (∃ p ∈ items, p.flow.target? = some item.address) ∨
  ∃ previous, Next items previous item ∧ previous.flow ≠ .plain

/-- Of two items in ascending order the one behind the other stands **higher**. -/
theorem address_lt_of_getElem? {items : List Item}
    (hascending : items.Pairwise fun a b => a.address < b.address) {i j : Nat} {p q : Item}
    (hp : items[i]? = some p) (hq : items[j]? = some q) (hij : i < j) : p.address < q.address := by
  obtain ⟨hi, rfl⟩ := List.getElem?_eq_some_iff.mp hp
  obtain ⟨hj, rfl⟩ := List.getElem?_eq_some_iff.mp hq
  exact List.pairwise_iff_getElem.mp hascending i j hi hj hij

/-- An item stands at **one place** only. -/
theorem eq_of_getElem?_eq_some {items : List Item}
    (hascending : items.Pairwise fun a b => a.address < b.address) {i j : Nat} {p : Item}
    (hi : items[i]? = some p) (hj : items[j]? = some p) : i = j := by
  rcases Nat.lt_trichotomy i j with hlt | heq | hlt
  · exact absurd (address_lt_of_getElem? hascending hi hj hlt) (Nat.lt_irrefl _)
  · exact heq
  · exact absurd (address_lt_of_getElem? hascending hj hi hlt) (Nat.lt_irrefl _)

/-- Two items that do not go on with each other: the first is not plain, or the second is jumped
to. -/
theorem continues_eq_false_iff {items : List Item} {previous item : Item} :
    continues (targets items) previous item = false ↔
      previous.flow ≠ .plain ∨ ∃ p ∈ items, p.flow.target? = some item.address := by
  have hends : previous.flow.endsBlock = true ↔ previous.flow ≠ .plain := by
    cases previous.flow <;> simp [Flow.endsBlock]
  rw [continues, Bool.and_eq_false_iff, Bool.not_eq_false', Bool.not_eq_false', hends,
    List.contains_iff_mem, targets, List.mem_filterMap]

/-- **There is a reason for every cut**: the last item of a block does not go on with the first one
of the next block. -/
theorem continues_boundary {policy : UnresolvedTargets} {items : List Item}
    (h : ofSorted policy items = .ok g) {id : Nat} {a b : Block} (ha : g.block? id = some a)
    (hb : g.block? (id + 1) = some b) {last first : Item} (hlast : a.items.getLast? = some last)
    (hfirst : b.items.head? = some first) : continues (targets items) last first = false := by
  have hpieces := List.isChain_getLast_head_splitBy (continues (targets items)) items
  rw [← map_items_ofSorted h] at hpieces
  obtain ⟨hlt, hget⟩ := List.getElem?_eq_some_iff.mp (getElem?_map_items hb)
  obtain ⟨hlt', hget'⟩ := List.getElem?_eq_some_iff.mp (getElem?_map_items ha)
  obtain ⟨hne, hne', hcut⟩ := List.isChain_iff_getElem.mp hpieces id hlt
  simp only [hget, hget'] at hne hne' hcut
  rw [List.getLast?_eq_some_getLast hne] at hlast
  rw [List.head?_eq_some_head hne'] at hfirst
  rwa [Option.some.inj hlast, Option.some.inj hfirst] at hcut

namespace Blocks

variable {items : List Item}

/-- **Leaders start blocks**: an item inside a block stands behind a plain one and is not jumped
to. -/
theorem exists_head_of_leader (h : Blocks items g)
    (hascending : items.Pairwise fun a b => a.address < b.address) {item : Item}
    (hitem : item ∈ items) (hleader : Leader items item) :
    ∃ b ∈ g.blocks, b.items.head? = some item := by
  obtain ⟨k, hk⟩ := List.getElem?_of_mem hitem
  obtain ⟨id, b, j, hb, hj, rfl⟩ := h.exists_position (List.getElem?_eq_some_iff.mp hk).1
  have hinside := hk
  rw [h.getElem?_start hb hj] at hinside
  cases j with
  | zero => exact ⟨b, List.mem_of_getElem? hb, by rw [List.head?_eq_getElem?, hinside]⟩
  | succ j =>
      obtain ⟨previous, hprevious⟩ : ∃ previous, b.items[j]? = some previous :=
        ⟨_, List.getElem?_eq_getElem (Nat.lt_of_succ_lt hj)⟩
      obtain ⟨hplain, hnot⟩ := h.continues_inside hb hj hprevious hinside
      have hbefore : items[g.start id + j]? = some previous := by
        rw [h.getElem?_start hb (Nat.lt_of_succ_lt hj), hprevious]
      rcases hleader with hlowest | ⟨p, hp, htarget⟩ | ⟨q, ⟨i, hq, hi⟩, hends⟩
      · -- The item before it stands lower.
        have hlt := address_lt_of_getElem? hascending hbefore hk (by omega)
        have hle := hlowest previous (List.mem_of_getElem? hbefore)
        omega
      · exact absurd (List.mem_filterMap.mpr ⟨p, hp, htarget⟩) hnot
      · -- The item that it stands behind is the one before it in the block.
        have hsame := eq_of_getElem?_eq_some hascending hi hk
        obtain rfl : i = g.start id + j := by omega
        rw [hbefore] at hq
        exact absurd (Option.some.inj hq ▸ hplain) hends

/-- **Only the last item** of a block can be other than plain. -/
theorem plain_of_mem_dropLast (h : Blocks items g) {b : Block} (hb : b ∈ g.blocks) {item : Item}
    (hitem : item ∈ b.items.dropLast) : item.flow = .plain := by
  obtain ⟨id, hid⟩ := List.getElem?_of_mem hb
  obtain ⟨j, hj⟩ := List.getElem?_of_mem hitem
  have hlt : j + 1 < b.items.length := by
    have := (List.getElem?_eq_some_iff.mp hj).1
    rw [List.length_dropLast] at this
    omega
  rw [List.getElem?_dropLast, if_pos (by omega)] at hj
  exact (h.continues_inside hid hlt hj (List.getElem?_eq_getElem hlt)).1

end Blocks

/-- **Blocks start at leaders**: the first block with the lowest item, any other one where there is
a reason to cut. -/
theorem leader_of_head {policy : UnresolvedTargets} {items : List Item}
    (h : ofSorted policy items = .ok g)
    (hascending : items.Pairwise fun a b => a.address < b.address) {b : Block} (hb : b ∈ g.blocks)
    {item : Item} (hitem : b.items.head? = some item) : Leader items item := by
  have hblocks := blocks_ofSorted h
  obtain ⟨id, hid⟩ := List.getElem?_of_mem hb
  have hstart := hblocks.getElem?_head hid
  rw [hitem] at hstart
  cases id with
  | zero =>
      refine .inl fun other hother => ?_
      obtain ⟨k, hk⟩ := List.getElem?_of_mem hother
      change items[0]? = some item at hstart
      rcases Nat.eq_zero_or_pos k with rfl | hpos
      · rw [hstart] at hk
        rw [Option.some.inj hk]
      · exact Nat.le_of_lt (address_lt_of_getElem? hascending hstart hk hpos)
  | succ id =>
      obtain ⟨a, ha⟩ := exists_block? (Nat.lt_of_succ_lt (lt_size_of_block? hid))
      obtain ⟨last, hlast⟩ := hblocks.exists_getLast? ha
      rcases continues_eq_false_iff.mp (continues_boundary h ha hid hlast hitem) with
        hends | htarget
      · obtain ⟨k, hk, hnext⟩ := hblocks.getElem?_last ha
        exact .inr (.inr ⟨last, ⟨k, hk.trans hlast, hnext ▸ hstart⟩, hends⟩)
      · exact .inr (.inl htarget)

/-- **Items are cut into blocks.** In every graph that has been built, whatever the order of the
items and the policy, the blocks one after the other hold the items in ascending order, each once
and as it was given. No block is empty, each stands at the address of its first item, and only its
last item can be other than plain. An item is the first of a block if and only if it stands lowest,
some item jumps or branches to it, or the item before it in this order is a jump, a branch or a
return. -/
theorem build_partitions_items {policy : UnresolvedTargets} {items : List Item}
    (h : build policy items = .ok g) :
    (g.blocks.map (·.items)).flatten = sortItems items ∧
    (sortItems items).Perm items ∧
    (sortItems items).Pairwise (fun a b => a.address < b.address) ∧
    (∀ b ∈ g.blocks, b.items ≠ [] ∧ b.items.head?.map (·.address) = some b.address ∧
      ∀ item ∈ b.items.dropLast, item.flow = .plain) ∧
    ∀ item ∈ items, (∃ b ∈ g.blocks, b.items.head? = some item) ↔
      (∀ other ∈ items, item.address ≤ other.address) ∨
      (∃ p ∈ items, p.flow.target? = some item.address) ∨
      ∃ previous, Next (sortItems items) previous item ∧ previous.flow ≠ .plain := by
  obtain ⟨hsorted, hascending⟩ := ofSorted_of_build h
  have hblocks := blocks_ofSorted hsorted
  have hperm : (sortItems items).Perm items := List.mergeSort_perm ..
  have hmem : ∀ item, item ∈ sortItems items ↔ item ∈ items := fun _ => hperm.mem_iff
  refine ⟨hblocks.flatten_eq, hperm, hascending, fun b hb => ?_, fun item hitem => ?_⟩
  · obtain ⟨id, hid⟩ := List.getElem?_of_mem hb
    exact ⟨hblocks.items_ne_nil hid, hblocks.address_eq id b hid,
      fun item => hblocks.plain_of_mem_dropLast hb⟩
  · have hleader : (∃ b ∈ g.blocks, b.items.head? = some item) ↔ Leader (sortItems items) item := by
      constructor
      · rintro ⟨b, hb, hhead⟩
        exact leader_of_head hsorted hascending hb hhead
      · exact hblocks.exists_head_of_leader hascending ((hmem item).mpr hitem)
    simpa only [Leader, hmem] using hleader

/-- The item at 4 starts a block since the one at 12 jumps to it, and that at 16 since it stands
behind this jump; the jump to 99 starts none. -/
theorem build_partitions_items_tangle :
    ∃ g, build .record tangle = .ok g ∧ (g.blocks.map (·.items)).flatten.Perm tangle ∧
      g.blocks.map (·.items.map (·.address)) = [[0], [4, 8], [12], [16], [20]] ∧
      (∃ b ∈ g.blocks,
        b.items.head? = some { address := 4, statements := [⟨⟨"x", none⟩, .imm 1⟩] }) ∧
      ∃ b ∈ g.blocks, b.items.head? = some { address := 16, terminator := .jump 99 } := by
  have heval : (build .record tangle).map (fun g => g.blocks.map (·.items.map (·.address))) =
      .ok [[0], [4, 8], [12], [16], [20]] := by decide_cbv
  have hnext : Next (sortItems tangle) { address := 12, terminator := .jump 4 }
      { address := 16, terminator := .jump 99 } := ⟨3, by decide_cbv, by decide_cbv⟩
  cases hbuild : build .record tangle with
  | error e =>
      rw [hbuild] at heval
      cases heval
  | ok g =>
      rw [hbuild] at heval
      obtain ⟨hflatten, hperm, -, -, hfirst⟩ := build_partitions_items hbuild
      refine ⟨g, rfl, hflatten ▸ hperm, Except.ok.inj heval, ?_, ?_⟩
      · refine (hfirst _ (by decide)).mpr (.inr (.inl ?_))
        exact ⟨{ address := 12, terminator := .jump 4 }, by decide, rfl⟩
      · exact (hfirst _ (by decide)).mpr (.inr (.inr ⟨_, hnext, by decide⟩))

end FlowForm.FlowGraph
