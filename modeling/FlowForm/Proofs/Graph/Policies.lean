import Mathlib
import FlowForm.Proofs.Graph.Outcomes
import FlowForm.Proofs.Graph.Partition

/-!
# Jumps to Nowhere, Rejected or Recorded

The two policies for jumps without a target differ in nothing else. Where there are no such jumps,
both build the same graph. Where there are some, recording them leaves the graph that rejecting
builds from items which have been **settled**: a jump to nowhere becomes a return, and a branch to
nowhere gets the item after it as its target, or becomes a return if there is none.

Settling changes no address, and every item ends its block as it did before. The only new target is
the item behind a branch, which starts a block anyway. So items are cut at the same places
(`Settles.partition_eq`). The edges are the same but for one that is added twice, by a branch and
by falling through, which is noted once (`noteEdge_twice`).

## Main results

* `settles_sortItems`: what settling does to each item.
* `Settles.blocks_eq`: the blocks of settled items are the blocks of the items, settled.
* `policies_agree`: rejecting and recording compared.
-/

namespace FlowForm

/-- A list is cut at the **same places** after a map that does not matter to the cuts. -/
theorem splitBy_map {α β : Type} {f : α → β} {r : α → α → Bool} {r' : β → β → Bool} {l : List α}
    (h : l.IsChain fun a b => r' (f a) (f b) = r a b) :
    (l.map f).splitBy r' = (l.splitBy r).map (List.map f) := by
  have hloop : ∀ (l : List α) (a : α) (piece : List α) (pieces : List (List α)),
      (a :: l).IsChain (fun a b => r' (f a) (f b) = r a b) →
      List.splitBy.loop r' (l.map f) (f a) (piece.map f) (pieces.map (List.map f)) =
        (List.splitBy.loop r l a piece pieces).map (List.map f) := by
    intro l
    -- The loop compares neighbours only, so what it has collected may be anything.
    induction l with
    | nil => simp [List.splitBy.loop]
    | cons b l ih =>
        intro a piece pieces hchain
        rw [List.isChain_cons_cons] at hchain
        rw [List.map_cons, List.splitBy.loop, List.splitBy.loop, hchain.1]
        cases r a b with
        | true => exact ih b (a :: piece) pieces hchain.2
        | false =>
            have hnext := ih b [] ((a :: piece).reverse :: pieces) hchain.2
            rwa [List.map_nil, List.map_cons, List.map_reverse] at hnext
  cases l with
  | nil => rfl
  | cons a l => exact hloop l a [] [] h

namespace Block

/-- What can be told of a block without looking into its items. -/
def layout (b : Block) : Nat × List Nat × List Nat × List Nat × Option Nat :=
  (b.address, b.items.map (·.address), b.succs, b.preds, b.fall)

/-- A block with every item replaced. -/
def mapItems (f : Item → Item) (b : Block) : Block :=
  { b with items := b.items.map f }

variable {f : Item → Item}

/-- Items at the same addresses make the same layout. -/
theorem layout_mapItems (hf : ∀ item, (f item).address = item.address) (b : Block) :
    (b.mapItems f).layout = b.layout := by
  simp [layout, mapItems, hf]

/-- A run of items at the same addresses makes the same block. -/
theorem ofItems_map (hf : ∀ item, (f item).address = item.address) (items : List Item) :
    ofItems (items.map f) = (ofItems items).mapItems f := by
  simp [ofItems, mapItems, Function.comp_def, hf]

end Block

namespace FlowGraph

variable {items : List Item} {f : Item → Item} {g g' : FlowGraph}

/-! ### Settling items -/

/-- The item after another one in address order. -/
def nextAbove? (items : List Item) (item : Item) : Option Item :=
  (sortItems items).find? fun other => item.address < other.address

/-- How an item ends once it does not jump to nowhere. -/
def settledTerminator (items : List Item) (item : Item) : Terminator :=
  let resolves target := items.any (·.address == target)
  match item.terminator with
  | .jump target => if resolves target then .jump target else .ret none
  | .branch condition target =>
    if resolves target then .branch condition target
    else
      match nextAbove? items item with
      | some next => .branch condition next.address
      | none => .ret none
  | .ret value => .ret value
  | .fall => .fall

/-- An item **settled** among others: instead of jumping to nowhere it returns, and instead of
branching to nowhere it goes to the item after it either way, or returns if it is the last. -/
def settle (items : List Item) (item : Item) : Item :=
  { item with terminator := settledTerminator items item }

/-- What settling does to the flow of the `k`-th of some items. -/
inductive Settled (items : List Item) (k : Nat) (before after : Flow) : Prop
  | kept : after = before → (∀ t, before.target? = some t → ∃ q ∈ items, q.address = t) →
      Settled items k before after
  | stopped {t : Nat} : before = .jump t → (∀ q ∈ items, q.address ≠ t) → after = .terminal →
      Settled items k before after
  | turned {t : Nat} {next : Item} : before = .conditional t → (∀ q ∈ items, q.address ≠ t) →
      items[k + 1]? = some next → after = .conditional next.address → Settled items k before after
  | ended {t : Nat} : before = .conditional t → (∀ q ∈ items, q.address ≠ t) →
      items[k + 1]? = none → after = .terminal → Settled items k before after

/-- A map **settles** items in ascending order if it keeps their addresses and settles the flow of
each. -/
structure Settles (f : Item → Item) (items : List Item) : Prop where
  ascending : items.Pairwise fun a b => a.address < b.address
  address : ∀ item, (f item).address = item.address
  settled : ∀ k p, items[k]? = some p → Settled items k p.flow (f p).flow

/-- The item after another one is **the next of the sorted items**. -/
theorem nextAbove?_eq (hnodup : (items.map (·.address)).Nodup) {k : Nat} {p : Item}
    (hp : (sortItems items)[k]? = some p) : nextAbove? items p = (sortItems items)[k + 1]? := by
  have hascending := ascending_sortItems hnodup
  have hbelow : ((sortItems items).take (k + 1)).find?
      (fun other => p.address < other.address) = none := by
    rw [List.find?_eq_none]
    intro q hq
    obtain ⟨i, hi, rfl⟩ := List.mem_take_iff_getElem.mp hq
    have hi' : i < (sortItems items).length := by omega
    rcases Nat.lt_or_eq_of_le (show i ≤ k by omega) with hlt | rfl
    · have := address_lt_of_getElem? hascending (List.getElem?_eq_getElem hi') hp hlt
      simp only [decide_eq_true_eq]
      omega
    · obtain rfl := Option.some.inj ((List.getElem?_eq_getElem hi').symm.trans hp)
      simp
  have hsplit := List.take_append_drop (k + 1) (sortItems items)
  have hnext : (sortItems items)[k + 1]? = ((sortItems items).drop (k + 1)).head? := by
    rw [List.head?_drop]
  rw [nextAbove?, ← hsplit, List.find?_append, hbelow, Option.none_or, hsplit, hnext]
  cases hdrop : (sortItems items).drop (k + 1) with
  | nil => rfl
  | cons q rest =>
      rw [hdrop, List.head?_cons] at hnext
      have hlt := address_lt_of_getElem? hascending hp hnext (Nat.lt_succ_self k)
      rw [List.find?_cons_of_pos (by simpa using hlt), List.head?_cons]

/-- **Settling settles**: what it does to each of the sorted items. -/
theorem settles_sortItems (hnodup : (items.map (·.address)).Nodup) :
    Settles (settle items) (sortItems items) where
  ascending := ascending_sortItems hnodup
  address _ := rfl
  settled k p hp := by
    have hmem : ∀ t, items.any (·.address == t) = true ↔ ∃ q ∈ sortItems items, q.address = t := by
      simp [(perm_sortItems items).mem_iff]
    have hfound : ∀ {t}, items.any (·.address == t) = true →
        ∀ u, some t = some u → ∃ q ∈ sortItems items, q.address = u := by
      rintro t hany u ⟨⟩
      exact (hmem t).mp hany
    have hnone : ∀ {t}, ¬ items.any (·.address == t) = true →
        ∀ q ∈ sortItems items, q.address ≠ t :=
      fun {t} hany q hq haddress => hany ((hmem t).mpr ⟨q, hq, haddress⟩)
    have hnext := nextAbove?_eq hnodup hp
    change Settled _ k p.terminator.flow (settledTerminator items p).flow
    rw [settledTerminator]
    cases p.terminator with
    | fall | ret value => exact .kept rfl fun t ht => by cases ht
    | jump t =>
        by_cases hany : items.any (·.address == t) = true
        · simp only [hany, if_true]
          exact .kept rfl (hfound hany)
        · simp only [hany, Bool.false_eq_true, if_false]
          exact .stopped rfl (hnone hany) rfl
    | branch c t =>
        by_cases hany : items.any (·.address == t) = true
        · simp only [hany, if_true]
          exact .kept rfl (hfound hany)
        · simp only [hany, Bool.false_eq_true, if_false, hnext]
          cases hq : (sortItems items)[k + 1]? with
          | some q => exact .turned rfl (hnone hany) hq rfl
          | none => exact .ended rfl (hnone hany) hq rfl

/-! ### Cuts -/

namespace Settled

variable {k : Nat} {before after : Flow}

/-- Settling makes no item plain that was not. -/
theorem plain_iff (h : Settled items k before after) : after = .plain ↔ before = .plain := by
  cases h with
  | kept heq _ => rw [heq]
  | stopped hbefore _ hafter | turned hbefore _ _ hafter | ended hbefore _ _ hafter =>
      simp [hbefore, hafter]

/-- A settled item jumps to **somewhere**, if at all. -/
theorem exists_target (h : Settled items k before after) {t : Nat}
    (ht : after.target? = some t) : ∃ q ∈ items, q.address = t := by
  cases h with
  | kept heq hfound => exact hfound t (heq ▸ ht)
  | stopped _ _ hafter | ended _ _ _ hafter =>
      rw [hafter] at ht
      cases ht
  | turned _ _ hnext hafter =>
      rw [hafter] at ht
      exact ⟨_, List.mem_of_getElem? hnext, Option.some.inj ht⟩

/-- An item that jumps to somewhere is left as it is. -/
theorem eq_of_target (h : Settled items k before after) {q : Item} (hq : q ∈ items)
    (ht : before.target? = some q.address) : after = before := by
  cases h with
  | kept heq _ => exact heq
  | stopped hbefore hnone _ | turned hbefore hnone _ _ | ended hbefore hnone _ _ =>
      rw [hbefore] at ht
      exact absurd (Option.some.inj ht).symm (hnone q hq)

end Settled

namespace Settles

/-- No settled item jumps to nowhere. -/
theorem dangling_eq_nil (h : Settles f items) : dangling (items.map f) = [] := by
  refine List.eq_nil_iff_forall_not_mem.mpr ?_
  rintro ⟨source, t⟩ hjump
  obtain ⟨item, hitem, -, ht, hnone⟩ := mem_dangling.mp hjump
  obtain ⟨p, hp, rfl⟩ := List.mem_map.mp hitem
  obtain ⟨k, hk⟩ := List.getElem?_of_mem hp
  obtain ⟨q, hq, rfl⟩ := (h.settled k p hk).exists_target ht
  exact hnone (f q) (List.mem_map_of_mem hq) (h.address q)

/-- The settled items that jump to the item behind a plain one are those that did so before: only
branches get new targets, and only right behind themselves. -/
theorem exists_jump_iff (h : Settles f items) {k : Nat} {p q : Item} (hp : items[k]? = some p)
    (hq : items[k + 1]? = some q) (hplain : p.flow = .plain) :
    (∃ r ∈ items.map f, r.flow.target? = some q.address) ↔
      ∃ r ∈ items, r.flow.target? = some q.address := by
  have hmem := List.mem_of_getElem? hq
  constructor
  · rintro ⟨_, hsettled, ht⟩
    obtain ⟨r, hr, rfl⟩ := List.mem_map.mp hsettled
    obtain ⟨j, hj⟩ := List.getElem?_of_mem hr
    cases h.settled j r hj with
    | kept heq _ => exact ⟨r, hr, heq ▸ ht⟩
    | stopped _ _ hafter | ended _ _ _ hafter =>
        rw [hafter] at ht
        cases ht
    | @turned _ next hbefore _ hnext hafter =>
        -- The item behind this branch is the one behind the plain item, so they are the same.
        rw [hafter] at ht
        obtain rfl : next = q := List.inj_on_of_nodup_map (nodup_addresses h.ascending)
          (List.mem_of_getElem? hnext) hmem (Option.some.inj ht)
        obtain rfl : j = k := Nat.succ.inj (eq_of_getElem?_eq_some h.ascending hnext hq)
        obtain rfl := Option.some.inj (hj.symm.trans hp)
        rw [hplain] at hbefore
        cases hbefore
  · rintro ⟨r, hr, ht⟩
    obtain ⟨j, hj⟩ := List.getElem?_of_mem hr
    refine ⟨f r, List.mem_map_of_mem hr, ?_⟩
    rw [(h.settled j r hj).eq_of_target hmem ht, ht]

/-- Two items go on with each other after settling **if and only if they did before**. -/
theorem continues_eq (h : Settles f items) {k : Nat} {p q : Item} (hp : items[k]? = some p)
    (hq : items[k + 1]? = some q) :
    continues (targets (items.map f)) (f p) (f q) = continues (targets items) p q := by
  rw [Bool.eq_iff_iff, ← not_iff_not, Bool.not_eq_true, Bool.not_eq_true, continues_eq_false_iff,
    continues_eq_false_iff, h.address, ne_eq, ne_eq, (h.settled k p hp).plain_iff]
  by_cases hplain : p.flow = .plain
  · rw [h.exists_jump_iff hp hq hplain]
  · simp only [hplain, not_false_eq_true, true_or]

/-- Settled items are cut **at the same places**. -/
theorem partition_eq (h : Settles f items) :
    partition (items.map f) = (partition items).map (Block.mapItems f) := by
  have hcuts : (items.map f).splitBy (continues (targets (items.map f))) =
      (items.splitBy (continues (targets items))).map (List.map f) := by
    refine splitBy_map (List.isChain_iff_getElem.mpr fun k hk => ?_)
    exact h.continues_eq (List.getElem?_eq_getElem (Nat.lt_of_succ_lt hk))
      (List.getElem?_eq_getElem hk)
  rw [partition, hcuts, partition, List.map_map, List.map_map]
  exact List.map_congr_left fun piece _ => Block.ofItems_map h.address piece

end Settles

/-! ### Edges -/

/-- An id is appended at most once. -/
theorem pushNew_pushNew (ids : List Nat) (i : Nat) :
    Block.pushNew (Block.pushNew ids i) i = Block.pushNew ids i := by
  rw [Block.pushNew, if_pos (mem_pushNew.mpr (.inr rfl))]

/-- An edge that is noted once more, **as falling through**, might as well be noted only then. -/
theorem noteEdge_twice (id : Nat) (b : Block) (i j : Nat) :
    noteEdge id (noteEdge id b { source := i, target := j })
      { source := i, target := j, fall := true } =
    noteEdge id b { source := i, target := j, fall := true } := by
  by_cases hi : i = id <;> by_cases hj : j = id <;>
    simp [noteEdge, hi, hj, Block.addSucc, Block.addPred, pushNew_pushNew]

/-- Noting edges has nothing to do with items. -/
theorem foldl_noteEdge_mapItems (f : Item → Item) (id : Nat) (b : Block) (es : List Edge) :
    es.foldl (noteEdge id) (b.mapItems f) = (es.foldl (noteEdge id) b).mapItems f := by
  induction es generalizing b with
  | nil => rfl
  | cons e es ih =>
      have hstep : noteEdge id (b.mapItems f) e = (noteEdge id b e).mapItems f := by
        rw [noteEdge, noteEdge]
        split <;> split <;> rfl
      rw [List.foldl_cons, hstep, ih, List.foldl_cons]

namespace Blocks

/-- Behind the last item of a block stands the first one of **the next block**. -/
theorem exists_after_last (h : Blocks items g) {id : Nat} {b : Block} (hb : g.block? id = some b)
    {last : Item} (hlast : b.items.getLast? = some last) : ∃ k, items[k]? = some last ∧
      items[k + 1]?.map (·.address) = (g.block? (id + 1)).map (·.address) := by
  obtain ⟨k, hk, hstart⟩ := h.getElem?_last hb
  refine ⟨k, hk.trans hlast, ?_⟩
  rw [hstart]
  cases hc : g.block? (id + 1) with
  | some c => rw [h.getElem?_head hc, h.address_eq (id + 1) c hc, Option.map_some]
  | none =>
      have hsize : g.size = id + 1 := by
        have hlt := lt_size_of_block? hb
        have hle : g.size ≤ id + 1 := List.getElem?_eq_none_iff.mp hc
        omega
      rw [← hsize, h.start_size, List.getElem?_eq_none (Nat.le_refl _)]
      rfl

/-- No block stands where no item does. -/
theorem blockAt?_eq_none (h : Blocks items g) {t : Nat} (hnone : ∀ q ∈ items, q.address ≠ t) :
    g.blockAt? t = none := by
  refine List.idxOf?_eq_none_iff.mpr fun hkey => ?_
  rw [h.keys_eq] at hkey
  obtain ⟨b, hb, rfl⟩ := List.mem_map.mp hkey
  obtain ⟨id, hid⟩ := List.getElem?_of_mem hb
  obtain ⟨q, hq, haddress⟩ := Option.map_eq_some_iff.mp (h.address_eq id b hid)
  exact hnone q (List.mem_of_getElem? ((h.getElem?_head hid).trans hq)) haddress

end Blocks

namespace Settles

/-- The edges that leave a block are **noted alike** after settling. -/
theorem foldl_edgesFrom (h : Settles f items) (hblocks : Blocks items g) {g₁ g₂ : FlowGraph}
    (hkeys₁ : g₁.keys = g.keys) (hkeys₂ : g₂.keys = g.keys) {i : Nat} {c d : Block}
    (hc : g.block? i = some c) (hitems : d.items = c.items) (id : Nat) (b : Block) :
    (g₂.edgesFrom i (d.mapItems f)).foldl (noteEdge id) b =
      (g₁.edgesFrom i d).foldl (noteEdge id) b := by
  obtain ⟨last, hlast⟩ := hblocks.exists_getLast? hc
  obtain ⟨k, hk, hbehind⟩ := hblocks.exists_after_last hc hlast
  have hlast₁ : d.items.getLast? = some last := hitems ▸ hlast
  have hlast₂ : (d.mapItems f).items.getLast? = some (f last) := by
    rw [Block.mapItems, List.getLast?_map, hlast₁, Option.map_some]
  have hat₁ : ∀ t, g₁.blockAt? t = g.blockAt? t := fun t => congrArg (List.idxOf? t) hkeys₁
  have hat₂ : ∀ t, g₂.blockAt? t = g.blockAt? t := fun t => congrArg (List.idxOf? t) hkeys₂
  simp only [edgesFrom, hlast₁, hlast₂, size_eq_of_keys hkeys₁, size_eq_of_keys hkeys₂,
    funext hat₁, funext hat₂]
  cases h.settled k last hk with
  | kept heq _ => rw [heq]
  | stopped hbefore hnone hafter =>
      simp [hbefore, hafter, Flow.target?, Flow.fallsThrough, hblocks.blockAt?_eq_none hnone]
  | @turned t next hbefore hnone hnext hafter =>
      -- The branch now takes the edge that falling through takes, too.
      rw [hnext, Option.map_some, eq_comm, Option.map_eq_some_iff] at hbehind
      obtain ⟨e, he, haddress⟩ := hbehind
      have hat : g.blockAt? next.address = some (i + 1) := haddress ▸ hblocks.blockAt?_eq he
      simp [hbefore, hafter, Flow.target?, Flow.fallsThrough, hblocks.blockAt?_eq_none hnone, hat,
        lt_size_of_block? he, noteEdge_twice]
  | ended hbefore hnone hnext hafter =>
      rw [hnext, Option.map_none, eq_comm, Option.map_eq_none_iff] at hbehind
      have hlast : ¬ i + 1 < g.size := Nat.not_lt.mpr (List.getElem?_eq_none_iff.mp hbehind)
      simp [hbefore, hafter, Flow.target?, Flow.fallsThrough, hblocks.blockAt?_eq_none hnone, hlast]

/-- **The blocks of settled items** are the blocks of the items, with the items settled. -/
theorem blocks_eq (h : Settles f items) {policy policy' : UnresolvedTargets}
    (hg : ofSorted policy items = .ok g) (hg' : ofSorted policy' (items.map f) = .ok g') :
    g'.blocks = g.blocks.map (Block.mapItems f) := by
  have hblocks := blocks_ofSorted hg
  obtain ⟨g₁, jumps, hofBlocks, rfl⟩ := ofSorted_eq_ok hg
  obtain ⟨g₂, jumps', hofBlocks', rfl⟩ := ofSorted_eq_ok hg'
  obtain ⟨hpieces₁, hkeys₁⟩ := ofBlocks_eq_ok hofBlocks
  obtain ⟨hpieces₂, hkeys₂⟩ := ofBlocks_eq_ok hofBlocks'
  rw [h.partition_eq, ← hpieces₁] at hpieces₂
  have hkeys : g₂.keys = g₁.keys := by
    rw [hkeys₂, hkeys₁, h.partition_eq, List.map_map]
    rfl
  have hfinished : ∀ i, ((g₁.addEdges g₁.edges).recordUnresolved jumps).block? i =
      (g₁.block? i).map fun b => g₁.edges.foldl (noteEdge i) b := block?_addEdges g₁ g₁.edges
  have hedges : ∀ id b, g₂.edges.foldl (noteEdge id) b = g₁.edges.foldl (noteEdge id) b := by
    intro id b
    rw [edges, edges, hpieces₂, List.zipIdx_map, List.flatMap_map, List.foldl_flatMap,
      List.foldl_flatMap]
    refine List.foldl_ext _ _ _ ?_
    rintro b ⟨d, i⟩ hd
    -- The block as it is in the finished graph has the same items, and `Blocks` speaks of that one.
    have hd : g₁.block? i = some d := List.mem_zipIdx_iff_getElem?.mp hd
    have hc := hfinished i
    rw [hd, Option.map_some] at hc
    have hkept := (foldl_noteEdge_kept i d g₁.edges).1
    exact h.foldl_edgesFrom hblocks (keys_addEdges ..).symm
      (hkeys.trans (keys_addEdges ..).symm) hc hkept.symm id b
  refine List.ext_getElem? fun id => ?_
  have hblock : g₂.block? id = (g₁.block? id).map (Block.mapItems f) := by
    rw [block?, hpieces₂, List.getElem?_map]
    rfl
  rw [List.getElem?_map]
  change (g₂.addEdges g₂.edges).block? id =
    ((g₁.addEdges g₁.edges).block? id).map (Block.mapItems f)
  rw [block?_addEdges, block?_addEdges, hblock, Option.map_map, Option.map_map]
  refine Option.map_congr fun b _ => ?_
  exact (hedges id _).trans (foldl_noteEdge_mapItems f id b g₁.edges)

end Settles

/-! ### The two policies -/

/-- Where every jump has a target, the policies **do the same**. -/
theorem build_reject_eq_record (hentry : EntryLowest items)
    (hnone : dangling (sortItems items) = []) : build .reject items = build .record items := by
  rw [build_eq_ofSorted_sortItems hentry, build_eq_ofSorted_sortItems hentry]
  simp only [ofSorted, hnone]

/-- A graph that is built with jumps recorded has its entry first and addresses that do not repeat,
and **records what dangles**. -/
theorem build_record_eq_ok (h : build .record items = .ok g) : EntryLowest items ∧
    (items.map (·.address)).Nodup ∧ g.unresolved = dangling (sortItems items) := by
  have hverdict := verdict_build .record items
  rw [h] at hverdict
  cases hverdict with
  | graph hentry hnodup hnone =>
      obtain ⟨g₀, hg₀, hunresolved⟩ := exists_build_of_entryLowest hentry hnodup hnone
      obtain rfl := Except.ok.inj (h.symm.trans hg₀)
      exact ⟨hentry, hnodup, hunresolved⟩

/-- Items stay in ascending order where they keep their addresses. -/
theorem ascending_map (hf : ∀ item, (f item).address = item.address)
    (h : items.Pairwise fun a b => a.address < b.address) :
    (items.map f).Pairwise fun a b => a.address < b.address := by
  simpa [List.pairwise_map, hf] using h

/-- Items at the same addresses as others are built from **what has become of the sorted ones**. -/
theorem build_map {policy : UnresolvedTargets} (hf : ∀ item, (f item).address = item.address)
    (hentry : EntryLowest items) (hnodup : (items.map (·.address)).Nodup) :
    build policy (items.map f) = ofSorted policy ((sortItems items).map f) := by
  have hentry' : EntryLowest (items.map f) := by
    obtain ⟨first, hfirst, hle⟩ := hentry
    refine ⟨f first, by rw [List.head?_map, hfirst, Option.map_some], ?_⟩
    simpa [hf] using hle
  rw [build_eq_ofSorted_sortItems hentry',
    ofSorted_sortItems_of_perm ((perm_sortItems items).symm.map f),
    sortItems_of_ascending (ascending_map hf (ascending_sortItems hnodup))]

/-- **Settled items have a graph** with nothing to record, whose blocks are laid out as those of the
graph in which their jumps to nowhere are recorded. -/
theorem exists_build_settled (h : build .record items = .ok g) :
    ∃ g', build .reject (items.map (settle items)) = .ok g' ∧
      g'.blocks.map Block.layout = g.blocks.map Block.layout := by
  obtain ⟨hentry, hnodup, -⟩ := build_record_eq_ok h
  have hsettles := settles_sortItems hnodup
  have hascending := ascending_map hsettles.address hsettles.ascending
  have hne : (sortItems items).map (settle items) ≠ [] :=
    mt List.map_eq_nil_iff.mp hentry.sortItems_ne_nil
  obtain ⟨g', hg', -⟩ := exists_build hne hascending fun _ => hsettles.dangling_eq_nil
  rw [build_eq_ofSorted hne hascending] at hg'
  refine ⟨g', (build_map hsettles.address hentry hnodup).trans hg', ?_⟩
  rw [build_eq_ofSorted_sortItems hentry] at h
  rw [hsettles.blocks_eq h hg', List.map_map]
  exact List.map_congr_left fun b _ => Block.layout_mapItems hsettles.address b

/-- **The two policies agree.** What is built with jumps to nowhere rejected is built with them
recorded, and nothing is recorded. What is built with them recorded has recorded exactly them, in
ascending order, and if they are rejected, the first of them is what is reported. And its blocks are
laid out as those of the settled items, which can be built with jumps to nowhere rejected. -/
theorem policies_agree (items : List Item) :
    (∀ g, build .reject items = .ok g → build .record items = .ok g ∧ g.unresolved = []) ∧
    ∀ g, build .record items = .ok g →
      (∀ s t, (s, t) ∈ g.unresolved ↔ Dangles items s t) ∧
      g.unresolved.Pairwise (fun j k => j.1 < k.1) ∧
      (∀ s t, build .reject items = .error (.unresolvedTarget s t) ↔
        g.unresolved.head? = some (s, t)) ∧
      ∃ g', build .reject (items.map (settle items)) = .ok g' ∧
        g'.blocks.map Block.layout = g.blocks.map Block.layout := by
  constructor
  · intro g hg
    have hverdict := verdict_build .reject items
    rw [hg] at hverdict
    cases hverdict with
    | graph hentry hnodup hnone =>
        have hnil : dangling (sortItems items) = [] :=
          List.eq_nil_iff_forall_not_mem.mpr fun jump hjump =>
            hnone rfl jump.1 jump.2 (mem_dangling_sortItems.mp hjump)
        rw [build_reject_eq_record hentry hnil] at hg
        exact ⟨hg, (build_record_eq_ok hg).2.2.trans hnil⟩
  · intro g hg
    obtain ⟨hentry, hnodup, hunresolved⟩ := build_record_eq_ok hg
    have hascending := ascending_sortItems hnodup
    refine ⟨fun s t => ?_, ?_, fun s t => ?_, exists_build_settled hg⟩
    · rw [hunresolved, mem_dangling_sortItems]
    · rw [hunresolved]
      exact pairwise_dangling hascending
    · rw [hunresolved]
      cases hjumps : dangling (sortItems items) with
      | nil => simp [build_reject_eq_record hentry hjumps, hg]
      | cons jump jumps =>
          rw [build_sortItems hentry hnodup,
            build_reject hentry.sortItems_ne_nil hascending hjumps, List.head?_cons]
          simp [Prod.ext_iff]

/-- Items of which a branch and a jump lead to nowhere in the middle, and a branch at the end. -/
def frayed : List Item := [
  { address := 50, terminator := .branch (.var ⟨"a", none⟩) 58 },
  { address := 58, terminator := .branch (.var ⟨"b", none⟩) 99 },
  { address := 52, terminator := .branch (.var ⟨"c", none⟩) 97 },
  { address := 54, terminator := .jump 98 },
  { address := 56, statements := [⟨⟨"d", none⟩, .imm 1⟩] }]

/-- All three are recorded, the lowest first, which is the one that is reported. A branch to nowhere
keeps its edge to what follows. The other policy builds the same layout once the branch in the
middle leads to `54` and the others return. -/
theorem policies_agree_frayed :
    ∃ g, build .record frayed = .ok g ∧ g.unresolved = [(52, 97), (54, 98), (58, 99)] ∧
      g.blocks.map (·.succs) = [[4, 1], [2], [], [4], []] ∧
      g.blocks.map (·.preds) = [[], [0], [1], [], [0, 3]] ∧
      build .reject frayed = .error (.unresolvedTarget 52 97) ∧
      (frayed.map (settle frayed)).map (·.terminator) =
        [.branch (.var ⟨"a", none⟩) 58, .ret none, .branch (.var ⟨"c", none⟩) 54, .ret none,
          .fall] ∧
      ∃ g', build .reject (frayed.map (settle frayed)) = .ok g' ∧
        g'.blocks.map Block.layout = g.blocks.map Block.layout := by
  have heval : (build .record frayed).map (fun g =>
      (g.unresolved, g.blocks.map (·.succs), g.blocks.map (·.preds))) =
        .ok ([(52, 97), (54, 98), (58, 99)], [[4, 1], [2], [], [4], []],
          [[], [0], [1], [], [0, 3]]) := by decide_cbv
  cases hg : build .record frayed with
  | error e =>
      rw [hg] at heval
      cases heval
  | ok g =>
      rw [hg] at heval
      obtain ⟨hunresolved, hedges⟩ := Prod.mk.inj (Except.ok.inj heval)
      obtain ⟨hsuccs, hpreds⟩ := Prod.mk.inj hedges
      obtain ⟨-, -, hreported, hsettled⟩ := (policies_agree frayed).2 g hg
      refine ⟨g, rfl, hunresolved, hsuccs, hpreds, (hreported 52 97).mpr ?_, by decide_cbv,
        hsettled⟩
      rw [hunresolved]
      rfl

end FlowGraph

end FlowForm
