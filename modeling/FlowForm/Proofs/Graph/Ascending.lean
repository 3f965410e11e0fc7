import Mathlib.Order.Bounds.Basic
import FlowForm.Proofs.Graph.Build

/-!
# Graphs of Items in Order

If the first of some items stands lowest, building goes on from the sorted items
(`build_eq_ofSorted_sortItems`). Items in ascending order that are not empty are sorted from the
start, and they always have a graph, with one exception: a jump to an address without an item, if
such jumps are rejected. Their order gives each block an address of its own, which rules out every
other error of building.

## Main results

* `isLeast_lowestAddress`: what the entry is compared with.
* `exists_build`: items in order have a graph, which records the jumps without a target.
* `build_reject`: the first of these jumps is what is reported if they are rejected.
-/

namespace FlowForm.FlowGraph

variable {g : FlowGraph} {items : List Item} {policy : UnresolvedTargets}

/-! ### The entry -/

/-- The first item stands **lowest**. -/
def EntryLowest (items : List Item) : Prop :=
  ∃ first, items.head? = some first ∧ ∀ item ∈ items, first.address ≤ item.address

/-- The least of a number and the addresses of items. -/
theorem isLeast_foldl_min (items : List Item) (m : Nat) :
    IsLeast {a | m = a ∨ ∃ item ∈ items, item.address = a}
      (items.foldl (fun lowest item => min lowest item.address) m) := by
  induction items generalizing m with
  | nil => simp [IsLeast, lowerBounds]
  | cons item items ih =>
      obtain ⟨hmem, hle⟩ := ih (min m item.address)
      constructor
      · rcases hmem with hmem | ⟨other, hother, haddress⟩
        · rw [List.foldl_cons, ← hmem]
          rcases Nat.le_total m item.address with h | h
          · exact .inl (Nat.min_eq_left h).symm
          · exact .inr ⟨item, List.mem_cons_self .., (Nat.min_eq_right h).symm⟩
        · exact .inr ⟨other, List.mem_cons_of_mem _ hother, haddress⟩
      · rintro a (rfl | ⟨other, hother, rfl⟩)
        · exact (hle (.inl rfl)).trans (Nat.min_le_left ..)
        · rcases List.mem_cons.mp hother with rfl | hother
          · exact (hle (.inl rfl)).trans (Nat.min_le_right ..)
          · exact hle (.inr ⟨other, hother, rfl⟩)

/-- **The lowest address** is what it is called. -/
theorem isLeast_lowestAddress (first : Item) (rest : List Item) :
    IsLeast {a | ∃ item ∈ first :: rest, item.address = a} (lowestAddress first rest) := by
  simp only [List.exists_mem_cons_iff]
  exact isLeast_foldl_min rest first.address

/-- If the entry stands lowest, building **goes on from sorted items**. -/
theorem build_eq_ofSorted_sortItems (h : EntryLowest items) :
    build policy items = ofSorted policy (sortItems items) := by
  obtain ⟨first, hfirst, hle⟩ := h
  cases items with
  | nil => cases hfirst
  | cons head rest =>
      obtain rfl : head = first := Option.some.inj hfirst
      have hleast : IsLeast {a | ∃ item ∈ head :: rest, item.address = a} head.address := by
        refine ⟨⟨head, List.mem_cons_self .., rfl⟩, ?_⟩
        rintro a ⟨item, hitem, rfl⟩
        exact hle item hitem
      rw [build]
      simp only [(isLeast_lowestAddress head rest).unique hleast, if_true]

/-- Items in ascending order are **built as they stand**. -/
theorem build_eq_ofSorted (hne : items ≠ [])
    (hascending : items.Pairwise fun a b => a.address < b.address) :
    build policy items = ofSorted policy items := by
  have hentry : EntryLowest items := by
    cases items with
    | nil => exact absurd rfl hne
    | cons first rest =>
        refine ⟨first, rfl, List.forall_mem_cons.mpr ⟨Nat.le_refl _, fun item hitem => ?_⟩⟩
        exact Nat.le_of_lt ((List.pairwise_cons.mp hascending).1 item hitem)
  rw [build_eq_ofSorted_sortItems hentry, sortItems_of_ascending hascending]

/-! ### Addresses -/

/-- No address occurs twice among items in ascending order. -/
theorem nodup_addresses (hascending : items.Pairwise fun a b => a.address < b.address) :
    (items.map (·.address)).Nodup :=
  List.pairwise_map.mpr (hascending.imp Nat.ne_of_lt)

/-- No address is reported as occurring twice. -/
theorem firstRepeat?_addresses (hascending : items.Pairwise fun a b => a.address < b.address) :
    firstRepeat? [] (items.map (·.address)) = none :=
  firstRepeat?_eq_none_iff.mpr ⟨nodup_addresses hascending, fun _ _ => List.not_mem_nil⟩

/-! ### Blocks -/

/-- Pieces of items have the addresses of their first items. -/
theorem sublist_address_ofItems {pieces : List (List Item)} (h : ∀ piece ∈ pieces, piece ≠ []) :
    ((pieces.map Block.ofItems).map (·.address)).Sublist (pieces.flatten.map (·.address)) := by
  induction pieces with
  | nil => exact .slnil
  | cons piece pieces ih =>
      have hrest := ih fun other hother => h other (List.mem_cons_of_mem _ hother)
      cases piece with
      | nil => exact absurd rfl (h [] (List.mem_cons_self ..))
      | cons first rest =>
          rw [List.flatten_cons, List.cons_append, List.map_cons]
          refine .cons_cons _ (hrest.trans ?_)
          rw [List.map_append]
          exact List.sublist_append_right ..

/-- The pieces of items in ascending order **make a graph**. -/
theorem exists_ofBlocks_partition (hne : items ≠ [])
    (hascending : items.Pairwise fun a b => a.address < b.address) :
    ∃ g, ofBlocks (partition items) = .ok g ∧ g.unresolved = [] := by
  have hflatten := List.flatten_splitBy (continues (targets items)) items
  have hblocks : partition items ≠ [] := by
    intro hnil
    rw [List.map_eq_nil_iff.mp hnil] at hflatten
    exact hne hflatten.symm
  have hnodup : ((partition items).map (·.address)).Nodup := by
    have hsublist := sublist_address_ofItems fun piece hpiece =>
      List.ne_nil_of_mem_splitBy (r := continues (targets items)) (l := items) hpiece
    rw [hflatten] at hsublist
    exact (nodup_addresses hascending).sublist hsublist
  have hrepeat : firstRepeat? [] ((partition items).map (·.address)) = none :=
    firstRepeat?_eq_none_iff.mpr ⟨hnodup, fun _ _ => List.not_mem_nil⟩
  rw [ofBlocks, dif_neg hblocks]
  split
  · rename_i address haddress
    rw [hrepeat] at haddress
    cases haddress
  · exact ⟨_, rfl, rfl⟩

/-! ### Building -/

/-- **Items in ascending order have a graph** if jumps without a target are recorded or there are
none, and the graph records these jumps. -/
theorem exists_build (hne : items ≠ [])
    (hascending : items.Pairwise fun a b => a.address < b.address)
    (hjumps : policy = .reject → dangling items = []) :
    ∃ g, build policy items = .ok g ∧ g.unresolved = dangling items := by
  obtain ⟨g, hg, hunresolved⟩ := exists_ofBlocks_partition hne hascending
  refine ⟨(g.addEdges g.edges).recordUnresolved (dangling items), ?_, ?_⟩
  · rw [build_eq_ofSorted hne hascending]
    simp only [ofSorted, firstRepeat?_addresses hascending, hg]
    cases policy with
    | reject => simp only [hjumps rfl]; rfl
    | record => rfl
  · rw [recordUnresolved, unresolved_addEdges, hunresolved, List.nil_append]

/-- If jumps without a target are **rejected**, the first of them is reported. -/
theorem build_reject (hne : items ≠ [])
    (hascending : items.Pairwise fun a b => a.address < b.address) {source target : Nat}
    {jumps : List (Nat × Nat)} (hjumps : dangling items = (source, target) :: jumps) :
    build .reject items = .error (.unresolvedTarget source target) := by
  rw [build_eq_ofSorted hne hascending]
  simp only [ofSorted, firstRepeat?_addresses hascending, hjumps]

/-- The jumps without a target. -/
theorem mem_dangling {source target : Nat} :
    (source, target) ∈ dangling items ↔ ∃ item ∈ items, item.address = source ∧
      item.flow.target? = some target ∧ ∀ other ∈ items, other.address ≠ target := by
  rw [dangling, List.mem_filterMap]
  refine exists_congr fun item => and_congr_right fun _ => ?_
  cases item.flow.target? with
  | none => simp
  | some t =>
      by_cases hany : items.any (·.address == t) = true
      · obtain ⟨other, hother, haddress⟩ := List.any_eq_true.mp hany
        simp only [hany, if_true, reduceCtorEq, Option.some.injEq, false_iff]
        rintro ⟨-, rfl, hnone⟩
        exact hnone other hother (by simpa using haddress)
      · simp only [hany, Bool.false_eq_true, if_false, Option.some.injEq, Prod.mk.injEq]
        have hnone : ∀ other ∈ items, other.address ≠ t := by simpa using hany
        constructor
        · rintro ⟨rfl, rfl⟩
          exact ⟨rfl, rfl, hnone⟩
        · rintro ⟨rfl, rfl, -⟩
          exact ⟨rfl, rfl⟩

/-- The jumps without a target stand in ascending order. -/
theorem pairwise_dangling (hascending : items.Pairwise fun a b => a.address < b.address) :
    (dangling items).Pairwise fun j k => j.1 < k.1 := by
  refine List.pairwise_filterMap.mpr (hascending.imp fun hab j hj k hk => ?_)
  -- Either jump has the address of the item that it comes from.
  split at hj
  · split at hj
    · cases hj
    · cases hj
      split at hk
      · split at hk
        · cases hk
        · cases hk
          exact hab
      · cases hk
  · cases hj

/-! ### Graphs that have been built -/

/-- A graph that has been built has no placeholders, and its definitions are those of the items. -/
theorem ofSorted_kept (h : ofSorted policy items = .ok g) {b : Block} (hb : b ∈ g.blocks) :
    b.phis = [] ∧ ∀ v ∈ b.defs, ∃ item ∈ items, v ∈ item.defs := by
  have hblocks := blocks_ofSorted h
  obtain ⟨id, hid⟩ := List.getElem?_of_mem hb
  constructor
  · obtain ⟨g₁, jumps, hofBlocks, rfl⟩ := ofSorted_eq_ok h
    obtain ⟨piece, -, -, -, -, rfl⟩ := exists_piece (ofBlocks_eq_ok hofBlocks).1 hid
    exact (foldl_noteEdge_kept ..).2.2
  · intro v hv
    obtain ⟨item, hitem, hv⟩ := List.mem_flatMap.mp hv
    refine ⟨item, ?_, hv⟩
    rw [← hblocks.flatten_eq]
    exact List.mem_flatten.mpr ⟨b.items, List.mem_map.mpr ⟨b, hb, rfl⟩, hitem⟩

end FlowForm.FlowGraph
