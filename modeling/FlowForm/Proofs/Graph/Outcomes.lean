import Mathlib
import FlowForm.Proofs.Graph.Ascending
import FlowForm.Proofs.Graph.Flow

/-!
# What Building Comes To

Items may be given in any order, with addresses that repeat and jumps that lead nowhere. Building
checks for one fault after the other and reports the first that it finds, and `Verdict` says which
one that is without sorting anything: each fault is named by the **lowest** address that shows it.
After the entry has been found to be the lowest item, building goes on from sorted items
(`build_sortItems`), where the first address that repeats and the first jump without a target are
the lowest ones. The further check for repeated addresses, when blocks are registered, never fails.

The order in which items are given matters only for which of them is the entry
(`build_eq_of_perm`): sorting leaves a choice only between items at the same address, and then the
address is all that is reported.

## Main results

* `verdict_build`: the fault that building reports, or that there is none.
* `build_eq_of_perm`: building does not depend on the order of the items after the entry.
-/

namespace FlowForm

/-- What comes before the first element that equals an earlier one has no repetitions. -/
theorem firstRepeat?_eq_some {α : Type} [DecidableEq α] {seen xs : List α} {a : α}
    (h : firstRepeat? seen xs = some a) :
    ∃ before after, xs = before ++ a :: after ∧ before.Nodup ∧ (∀ x ∈ before, x ∉ seen) ∧
      (a ∈ seen ∨ a ∈ before) := by
  induction xs generalizing seen with
  | nil => cases h
  | cons x xs ih =>
      rw [firstRepeat?] at h
      split at h
      · rename_i hseen
        obtain rfl := Option.some.inj h
        exact ⟨[], xs, rfl, List.nodup_nil, by simp, .inl hseen⟩
      · rename_i hseen
        obtain ⟨before, after, rfl, hnodup, hfresh, ha⟩ := ih h
        refine ⟨x :: before, after, rfl, List.nodup_cons.mpr ⟨fun hx => ?_, hnodup⟩, ?_, ?_⟩
        · exact hfresh x hx (List.mem_cons_self ..)
        · rintro y (_ | ⟨_, hy⟩)
          · exact hseen
          · exact fun hmem => hfresh y hy (List.mem_cons_of_mem _ hmem)
        · rcases ha with ha | ha
          · rcases List.mem_cons.mp ha with rfl | ha
            · exact .inr (List.mem_cons_self ..)
            · exact .inl ha
          · exact .inr (List.mem_cons_of_mem _ ha)

/-- In a list in ascending order the first number that repeats is **the lowest** one. -/
theorem isLeast_firstRepeat? {l : List Nat} (hsorted : l.Pairwise (· ≤ ·)) {a : Nat}
    (h : firstRepeat? [] l = some a) : IsLeast {a | 1 < l.count a} a := by
  obtain ⟨before, after, rfl, hnodup, -, ha⟩ := firstRepeat?_eq_some h
  have hmem : a ∈ before := ha.resolve_left List.not_mem_nil
  constructor
  · have hbefore := List.count_pos_iff.mpr hmem
    rw [Set.mem_ofPred_eq, List.count_append, List.count_cons_self]
    omega
  · intro b hb
    by_contra hlt
    -- A lower number that repeats has all its places before this one, where nothing repeats.
    have hnot : b ∉ a :: after := by
      intro hb
      have habove := (List.pairwise_append.mp hsorted).2.1
      rcases List.mem_cons.mp hb with rfl | hb
      · exact hlt (Nat.le_refl _)
      · exact hlt ((List.pairwise_cons.mp habove).1 b hb)
    rw [Set.mem_ofPred_eq, List.count_append, List.count_eq_zero.mpr hnot] at hb
    have hone := List.nodup_iff_count_le_one.mp hnodup b
    omega

namespace FlowGraph

variable {policy : UnresolvedTargets} {items : List Item}

/-- The item at `source` **dangles**: it jumps or branches to `target`, where no item stands. -/
def Dangles (items : List Item) (source target : Nat) : Prop :=
  ∃ item ∈ items, item.address = source ∧ item.flow.target? = some target ∧
    ∀ other ∈ items, other.address ≠ target

/-- What has to come of items, check by check: a later fault counts only where the earlier ones are
ruled out. -/
inductive Verdict (policy : UnresolvedTargets) (items : List Item) :
    Except GraphError FlowGraph → Prop
  | empty : items = [] → Verdict policy items (.error .emptyFunction)
  | entry {first lowest : Nat} : items.head?.map (·.address) = some first →
      IsLeast {a | ∃ item ∈ items, item.address = a} lowest → lowest < first →
      Verdict policy items (.error (.entryNotFirst first lowest))
  | repeated {a : Nat} : EntryLowest items →
      IsLeast {a | 1 < (items.map (·.address)).count a} a →
      Verdict policy items (.error (.duplicateAddress a))
  | dangling {source target : Nat} : EntryLowest items → (items.map (·.address)).Nodup →
      policy = .reject → Dangles items source target → (∀ s t, Dangles items s t → source ≤ s) →
      Verdict policy items (.error (.unresolvedTarget source target))
  | graph {g : FlowGraph} : EntryLowest items → (items.map (·.address)).Nodup →
      (policy = .reject → ∀ s t, ¬ Dangles items s t) → Verdict policy items (.ok g)

/-! ### Faults -/

/-- An item **below the entry** is an error. -/
theorem build_eq_entryNotFirst {first lowest : Nat}
    (hfirst : items.head?.map (·.address) = some first)
    (hlowest : IsLeast {a | ∃ item ∈ items, item.address = a} lowest) (hlt : lowest < first) :
    build policy items = .error (.entryNotFirst first lowest) := by
  cases items with
  | nil => cases hfirst
  | cons head rest =>
      obtain rfl : head.address = first := Option.some.inj hfirst
      obtain rfl := hlowest.unique (isLeast_lowestAddress head rest)
      rw [build]
      simp only [if_neg (Nat.ne_of_lt hlt)]

/-- Items with an entry are not empty, however they are sorted. -/
theorem EntryLowest.sortItems_ne_nil (h : EntryLowest items) : sortItems items ≠ [] := by
  obtain ⟨first, hfirst, -⟩ := h
  intro hnil
  have hmem := (perm_sortItems items).mem_iff.mpr (List.mem_of_head? hfirst)
  rw [hnil] at hmem
  cases hmem

/-- Items at addresses of their own are built **as if they had been sorted** in the first place. -/
theorem build_sortItems (h : EntryLowest items) (hnodup : (items.map (·.address)).Nodup) :
    build policy items = build policy (sortItems items) := by
  rw [build_eq_ofSorted_sortItems h,
    build_eq_ofSorted h.sortItems_ne_nil (ascending_sortItems hnodup)]

/-- The addresses of sorted items are in ascending order. -/
theorem pairwise_addresses (items : List Item) :
    ((sortItems items).map (·.address)).Pairwise (· ≤ ·) :=
  List.pairwise_map.mpr (pairwise_sortItems items)

/-- **The lowest address that repeats** is an error. -/
theorem build_eq_duplicateAddress (h : EntryLowest items) {a : Nat}
    (ha : IsLeast {a | 1 < (items.map (·.address)).count a} a) :
    build policy items = .error (.duplicateAddress a) := by
  have hperm := (perm_sortItems items).map (·.address)
  simp only [← hperm.count_eq] at ha
  have hrepeat : firstRepeat? [] ((sortItems items).map (·.address)) = some a := by
    cases hfirst : firstRepeat? [] ((sortItems items).map (·.address)) with
    | none =>
        have hnodup := (firstRepeat?_eq_none_iff.mp hfirst).1
        exact absurd (List.nodup_iff_count_le_one.mp hnodup a) (Nat.not_le.mpr ha.1)
    | some b => rw [ha.unique (isLeast_firstRepeat? (pairwise_addresses items) hfirst)]
  rw [build_eq_ofSorted_sortItems h]
  simp only [ofSorted, hrepeat]

/-- The jumps without a target, by the items in any order. -/
theorem mem_dangling_sortItems {source target : Nat} :
    (source, target) ∈ dangling (sortItems items) ↔ Dangles items source target := by
  simp only [mem_dangling, Dangles, (perm_sortItems items).mem_iff]

/-- **The lowest jump without a target** is an error if there must be none. -/
theorem build_eq_unresolvedTarget (h : EntryLowest items)
    (hnodup : (items.map (·.address)).Nodup) {source target : Nat}
    (hdangles : Dangles items source target) (hfirst : ∀ s t, Dangles items s t → source ≤ s) :
    build .reject items = .error (.unresolvedTarget source target) := by
  have hascending := ascending_sortItems hnodup
  obtain ⟨before, jumps, hjumps⟩ := List.append_of_mem (mem_dangling_sortItems.mpr hdangles)
  -- Jumps are listed in ascending order, so nothing can come before the lowest.
  have hnil : before = [] := by
    refine List.eq_nil_iff_forall_not_mem.mpr fun jump hjump => ?_
    have hlt : jump.1 < source := by
      have hpairwise := pairwise_dangling hascending
      rw [hjumps] at hpairwise
      exact (List.pairwise_append.mp hpairwise).2.2 jump hjump _ (List.mem_cons_self ..)
    have hmem : jump ∈ dangling (sortItems items) := by
      rw [hjumps]
      exact List.mem_append_left _ hjump
    have hle := hfirst jump.1 jump.2 (mem_dangling_sortItems.mp hmem)
    omega
  rw [hnil, List.nil_append] at hjumps
  rw [build_sortItems h hnodup]
  exact build_reject h.sortItems_ne_nil hascending hjumps

/-- Where nothing is wrong there is **a graph**, which records the jumps without a target. -/
theorem exists_build_of_entryLowest (h : EntryLowest items)
    (hnodup : (items.map (·.address)).Nodup)
    (hnone : policy = .reject → ∀ s t, ¬ Dangles items s t) :
    ∃ g, build policy items = .ok g ∧ g.unresolved = dangling (sortItems items) := by
  rw [build_sortItems h hnodup]
  refine exists_build h.sortItems_ne_nil (ascending_sortItems hnodup) fun hreject => ?_
  refine List.eq_nil_iff_forall_not_mem.mpr fun jump hjump => ?_
  exact hnone hreject jump.1 jump.2 (mem_dangling_sortItems.mp hjump)

/-! ### Verdicts -/

/-- **Building comes to what the checks say.** -/
theorem verdict_build (policy : UnresolvedTargets) (items : List Item) :
    Verdict policy items (build policy items) := by
  cases items with
  | nil => exact .empty rfl
  | cons first rest =>
      have hlowest := isLeast_lowestAddress first rest
      by_cases hentry : EntryLowest (first :: rest)
      · by_cases hnodup : ((first :: rest).map (·.address)).Nodup
        · by_cases hfaulty : policy = .reject ∧ ∃ s t, Dangles (first :: rest) s t
          · obtain ⟨rfl, hdangles⟩ := hfaulty
            obtain ⟨⟨t, hleast⟩, hfirst⟩ := isLeast_csInf hdangles
            have hall : ∀ s t, Dangles (first :: rest) s t → _ ≤ s := fun s t hs => hfirst ⟨t, hs⟩
            rw [build_eq_unresolvedTarget hentry hnodup hleast hall]
            exact .dangling hentry hnodup rfl hleast hall
          · have hnone : policy = .reject → ∀ s t, ¬ Dangles (first :: rest) s t :=
              fun hreject s t hs => hfaulty ⟨hreject, s, t, hs⟩
            obtain ⟨g, hg, -⟩ := exists_build_of_entryLowest hentry hnodup hnone
            rw [hg]
            exact .graph hentry hnodup hnone
        · have hrepeat : {a | 1 < ((first :: rest).map (·.address)).count a}.Nonempty := by
            simpa [List.nodup_iff_count_le_one, Set.Nonempty] using hnodup
          have hleast := isLeast_csInf hrepeat
          rw [build_eq_duplicateAddress hentry hleast]
          exact .repeated hentry hleast
      · have hlt : lowestAddress first rest < first.address := by
          refine Nat.lt_of_not_le fun hle => hentry ⟨first, rfl, fun item hitem => ?_⟩
          exact hle.trans (hlowest.2 ⟨item, hitem, rfl⟩)
        rw [build_eq_entryNotFirst rfl hlowest hlt]
        exact .entry rfl hlowest hlt

/-! ### The order of items -/

/-- Sorted items that are the same up to order have **the same graph or the same error**. -/
theorem ofSorted_sortItems_of_perm {items' : List Item} (hperm : items'.Perm items) :
    ofSorted policy (sortItems items') = ofSorted policy (sortItems items) := by
  have hsorted : (sortItems items').Perm (sortItems items) :=
    ((perm_sortItems items').trans hperm).trans (perm_sortItems items).symm
  have haddresses : (sortItems items').map (·.address) = (sortItems items).map (·.address) :=
    (hsorted.map _).eq_of_pairwise (fun _ _ _ _ => Nat.le_antisymm) (pairwise_addresses items')
      (pairwise_addresses items)
  cases hrepeat : firstRepeat? [] ((sortItems items).map (·.address)) with
  | some a => simp only [ofSorted, haddresses, hrepeat]
  | none =>
      have hnodup := (firstRepeat?_eq_none_iff.mp hrepeat).1
      -- Without repeated addresses there is one sorted list only.
      have hsame : sortItems items' = sortItems items := by
        refine hsorted.eq_of_pairwise (fun a b ha hb hab hba => ?_) (pairwise_sortItems items')
          (pairwise_sortItems items)
        exact List.inj_on_of_nodup_map hnodup (hsorted.mem_iff.mp ha) hb (Nat.le_antisymm hab hba)
      rw [hsame]

/-- **The order of items does not matter**, as long as the entry stays at its address. -/
theorem build_eq_of_perm {items' : List Item} (hperm : items'.Perm items)
    (hfirst : items'.head?.map (·.address) = items.head?.map (·.address)) :
    build policy items' = build policy items := by
  cases items with
  | nil => rw [hperm.eq_nil]
  | cons first rest =>
      cases items' with
      | nil => cases hfirst
      | cons first' rest' =>
          have haddress : first'.address = first.address := Option.some.inj hfirst
          have hlowest : lowestAddress first' rest' = lowestAddress first rest := by
            refine (isLeast_lowestAddress first' rest').unique ?_
            simp only [hperm.mem_iff]
            exact isLeast_lowestAddress first rest
          simp only [build, haddress, hlowest, ofSorted_sortItems_of_perm hperm]

/-- **Building reports the first check that fails.** There are no items if and only if that is what
it says; else an item lies below the entry, and it names the entry and the lowest address; else
addresses repeat, and it names the lowest that does; else jumps without a target are rejected, and
it names the lowest of them. Otherwise there is a graph. And items that are given in another order,
with an entry at the same address, come to the same. -/
theorem build_reports_first_fault (policy : UnresolvedTargets) (items : List Item) :
    (build policy items = .error .emptyFunction ↔ items = []) ∧
    (∀ first lowest, build policy items = .error (.entryNotFirst first lowest) ↔
      items.head?.map (·.address) = some first ∧
      IsLeast {a | ∃ item ∈ items, item.address = a} lowest ∧ lowest < first) ∧
    (∀ a, build policy items = .error (.duplicateAddress a) ↔
      EntryLowest items ∧ IsLeast {a | 1 < (items.map (·.address)).count a} a) ∧
    (∀ source target, build policy items = .error (.unresolvedTarget source target) ↔
      EntryLowest items ∧ (items.map (·.address)).Nodup ∧ policy = .reject ∧
      Dangles items source target ∧ ∀ s t, Dangles items s t → source ≤ s) ∧
    ((∃ g, build policy items = .ok g) ↔
      EntryLowest items ∧ (items.map (·.address)).Nodup ∧
      (policy = .reject → ∀ s t, ¬ Dangles items s t)) ∧
    ∀ items' : List Item, items'.Perm items →
      items'.head?.map (·.address) = items.head?.map (·.address) →
      build policy items' = build policy items := by
  have hverdict := verdict_build policy items
  refine ⟨⟨fun h => ?_, ?_⟩, fun first lowest => ⟨fun h => ?_, ?_⟩, fun a => ⟨fun h => ?_, ?_⟩,
    fun source target => ⟨fun h => ?_, ?_⟩, ⟨?_, ?_⟩, fun items' => build_eq_of_perm⟩
  · rw [h] at hverdict
    cases hverdict with
    | empty hnil => exact hnil
  · rintro rfl
    rfl
  · rw [h] at hverdict
    cases hverdict with
    | entry hfirst hlowest hlt => exact ⟨hfirst, hlowest, hlt⟩
  · rintro ⟨hfirst, hlowest, hlt⟩
    exact build_eq_entryNotFirst hfirst hlowest hlt
  · rw [h] at hverdict
    cases hverdict with
    | repeated hentry ha => exact ⟨hentry, ha⟩
  · rintro ⟨hentry, ha⟩
    exact build_eq_duplicateAddress hentry ha
  · rw [h] at hverdict
    cases hverdict with
    | dangling hentry hnodup hreject hdangles hfirst =>
        exact ⟨hentry, hnodup, hreject, hdangles, hfirst⟩
  · rintro ⟨hentry, hnodup, rfl, hdangles, hfirst⟩
    exact build_eq_unresolvedTarget hentry hnodup hdangles hfirst
  · rintro ⟨g, hg⟩
    rw [hg] at hverdict
    cases hverdict with
    | graph hentry hnodup hnone => exact ⟨hentry, hnodup, hnone⟩
  · rintro ⟨hentry, hnodup, hnone⟩
    obtain ⟨g, hg, -⟩ := exists_build_of_entryLowest hentry hnodup hnone
    exact ⟨g, hg⟩

/-- Items out of order, two of which jump to nowhere. -/
def stray : List Item := [
  { address := 40 },
  { address := 46, terminator := .jump 90 },
  { address := 43, terminator := .branch (.var ⟨"a", none⟩) 91 },
  { address := 44, terminator := .ret none }]

/-- Of the two jumps to nowhere the lower one is reported, in whatever order items are given after
the entry. If every item is given twice, the lowest address is reported for it, and neither of the
jumps. If another item is the entry, that is reported. The policy that puts up with jumps to nowhere
builds a graph, with one edge, from the branch to what follows it. -/
theorem build_reports_first_fault_stray :
    build .reject stray = .error (.unresolvedTarget 43 91) ∧
    (∀ items', items'.Perm stray → items'.head?.map (·.address) = some 40 →
      build .reject items' = .error (.unresolvedTarget 43 91)) ∧
    build .reject (stray ++ stray) = .error (.duplicateAddress 40) ∧
    build .reject stray.reverse = .error (.entryNotFirst 44 40) ∧
    ∃ g, build .record stray = .ok g ∧ g.blocks.map (·.succs) = [[1], [], []] ∧
      g.blocks.map (·.preds) = [[], [0], []] := by
  have hlower : ∀ item ∈ stray, item.flow.target? = none ∨ 43 ≤ item.address := by decide
  have hfirst : build .reject stray = .error (.unresolvedTarget 43 91) := by
    refine ((build_reports_first_fault .reject stray).2.2.2.1 43 91).mpr ⟨⟨_, rfl, by decide⟩,
      by decide, rfl, ⟨_, List.mem_of_getElem? (i := 2) rfl, rfl, rfl, by decide⟩, ?_⟩
    rintro s t ⟨item, hitem, rfl, htarget, -⟩
    refine (hlower item hitem).resolve_left fun hnone => ?_
    rw [hnone] at htarget
    cases htarget
  refine ⟨hfirst, fun items' hperm hentry => ?_, ?_, ?_, ?_⟩
  · rw [(build_reports_first_fault .reject stray).2.2.2.2.2 items' hperm hentry, hfirst]
  · refine ((build_reports_first_fault .reject (stray ++ stray)).2.2.1 40).mpr
      ⟨⟨_, rfl, by decide⟩, by decide, fun a ha => ?_⟩
    have hall : ∀ a ∈ (stray ++ stray).map (·.address), 40 ≤ a := by decide
    exact hall a (List.count_pos_iff.mp (Nat.lt_of_succ_lt ha))
  · refine ((build_reports_first_fault .reject stray.reverse).2.1 44 40).mpr
      ⟨rfl, ⟨⟨{ address := 40 }, by decide, rfl⟩, ?_⟩, by decide⟩
    rintro a ⟨item, hitem, rfl⟩
    have hall : ∀ item ∈ stray.reverse, 40 ≤ item.address := by decide
    exact hall item hitem
  · obtain ⟨g, hg⟩ := (build_reports_first_fault .record stray).2.2.2.2.1.mpr
      ⟨⟨_, rfl, by decide⟩, by decide, nofun⟩
    have heval : (build .record stray).map (fun g =>
        (g.blocks.map (·.succs), g.blocks.map (·.preds))) =
          .ok ([[1], [], []], [[], [0], []]) := by decide_cbv
    rw [hg] at heval
    exact ⟨g, hg, Prod.mk.inj (Except.ok.inj heval)⟩

end FlowGraph

end FlowForm
