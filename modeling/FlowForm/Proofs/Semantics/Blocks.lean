import FlowForm.Listing.Source
import FlowForm.Proofs.Graph.Build
import FlowForm.Proofs.Semantics.Machine

/-!
# Blocks Keep the Meaning of a Listing

A listing and the flow graph that has been built from it have the same runs, as long as the graph
is run by names (`run_byName_eq_run_listing`). The two walk side by side: an item of a block
corresponds to the item of the listing that stands as many places behind the entry as there are
items before it in the graph. Control falls from one block into the next exactly where it falls
from an item to the next one, because the end of a block is the start of the next. Where an item
jumps it is the last one of its block, and the item at the target starts a block of its own, to
which there is an edge.

Running by names does not see versions and placeholders, so any other graph with the same outline
has the same runs (`run_byName_congr`).

## Main results

* `run_byName_eq_run_listing`: a listing and the graph built from it have the same runs.
* `run_byName_congr`: graphs with the same outline have the same runs by names.
-/

namespace FlowForm

variable {V : Type} {I : Interpretation V}

/-! ### Listings from an entry on -/

namespace Source

/-- A listing in ascending order is accepted as a source. -/
theorem ofListing_eq_ok {items : List Item} (h : items.Pairwise fun a b => a.address < b.address) :
    ofListing items = .ok { name := "listing", itemsFrom := suffixAt items } := by
  have hdescent : firstDescent? items = none := by
    rw [firstDescent?, List.find?_eq_none]
    rintro ⟨previous, item⟩ hmem
    obtain ⟨i, hi, heq⟩ := List.mem_iff_getElem.mp hmem
    rw [List.getElem_zip, List.getElem_tail] at heq
    cases heq
    simpa using List.pairwise_iff_getElem.mp h i (i + 1) _ _ (Nat.lt_succ_self i)
  rw [ofListing, hdescent]

/-- The items from an entry on, and what stands before them. -/
theorem suffixAt_eq_ok {items suffix : List Item} {entry : Nat}
    (h : suffixAt items entry = .ok suffix) :
    ∃ front first rest, items = front ++ suffix ∧ suffix = first :: rest ∧
      first.address = entry := by
  rw [suffixAt] at h
  split at h
  · cases h
  · rename_i first rest hdrop
    cases h
    refine ⟨items.takeWhile (·.address != entry), first, rest, ?_, rfl, ?_⟩
    · rw [← hdrop, List.takeWhile_append_dropWhile]
    · have hhead := List.head?_dropWhile_not (·.address != entry) items
      rw [hdrop] at hhead
      simpa using hhead

end Source

namespace FlowGraph

variable {g : FlowGraph}

section Listing

variable {front suffix : List Item} {entry : Nat}

/-- In an ascending listing, a jump finds its target among the items from the entry on. -/
theorem findIdx?_target (hlow : ∀ item ∈ front, item.address < entry)
    (hhigh : ∀ item ∈ suffix, entry ≤ item.address) (t : Nat) :
    (if entry ≤ t then (front ++ suffix).findIdx? (·.address == t) else none) =
      (suffix.findIdx? (·.address == t)).map (· + front.length) := by
  by_cases ht : entry ≤ t
  · have hfront : front.findIdx? (·.address == t) = none := by
      refine List.findIdx?_eq_none_iff.mpr fun item hitem => ?_
      have := hlow item hitem
      simp only [beq_eq_false_iff_ne]
      omega
    rw [if_pos ht, List.findIdx?_append, hfront, Option.none_or]
  · have hsuffix : suffix.findIdx? (·.address == t) = none := by
      refine List.findIdx?_eq_none_iff.mpr fun item hitem => ?_
      have := hhigh item hitem
      simp only [beq_eq_false_iff_ne]
      omega
    rw [if_neg ht, hsuffix, Option.map_none]

/-- **Along an edge to the target of a jump** control reaches the block that starts with the item
jumped to; without such an item there is no edge. -/
theorem Blocks.succAt?_target (h : Blocks suffix g) {id : Nat} {b : Block} {last : Item} {t : Nat}
    (hb : g.block? id = some b) (hlast : b.items.getLast? = some last)
    (ht : last.flow.target? = some t) :
    match suffix.findIdx? (·.address == t) with
    | some k => ∃ s c, g.succAt? id t = some s ∧ g.block? s = some c ∧ k = g.start s
    | none => g.succAt? id t = none := by
  have hsuccs := succs_of_block? hb
  have hmem : last ∈ suffix := by
    obtain ⟨j, hj⟩ := List.getElem?_of_mem (List.mem_of_getLast? hlast)
    rw [← h.getElem?_start hb (List.getElem?_eq_some_iff.mp hj).1] at hj
    exact List.mem_of_getElem? hj
  cases hk : suffix.findIdx? (·.address == t) with
  | some k =>
      obtain ⟨hlt, haddress, -⟩ := List.findIdx?_eq_some_iff_getElem.mp hk
      obtain ⟨s, c, hc, hct, hstart⟩ := h.exists_block_at_target
        (List.getElem?_eq_getElem hlt) (by simpa using haddress)
        (List.mem_filterMap.mpr ⟨last, hmem, ht⟩)
      have hedge : s ∈ b.succs :=
        (h.mem_succs id b last hb hlast s).mpr (.inl ⟨t, ht, hct ▸ h.blockAt?_eq hc⟩)
      refine ⟨s, c, ?_, hc, hstart⟩
      rw [succAt?, hsuccs]
      cases hfind : b.succs.find? fun s => (g.block? s).any (·.address == t) with
      | none =>
          have hnot := List.find?_eq_none.mp hfind s hedge
          simp [hc, hct] at hnot
      | some s' =>
          -- The registered addresses tell blocks apart.
          have hat := List.find?_some hfind
          rw [Option.any_eq_true] at hat
          obtain ⟨c', hc', hct'⟩ := hat
          have hsame := h.blockAt?_eq hc'
          rw [show c'.address = t by simpa using hct', ← hct, h.blockAt?_eq hc] at hsame
          exact hsame.symm
  | none =>
      rw [succAt?, List.find?_eq_none]
      intro s _ hat
      rw [Option.any_eq_true] at hat
      obtain ⟨c, hc, hct⟩ := hat
      have hhead := h.address_eq s c hc
      rw [show c.address = t by simpa using hct, List.head?_eq_getElem?] at hhead
      obtain ⟨item, hitem, haddress⟩ := Option.map_eq_some_iff.mp hhead
      rw [← h.getElem?_start hc (List.getElem?_eq_some_iff.mp hitem).1] at hitem
      have hnot := List.findIdx?_eq_none_iff.mp hk item (List.mem_of_getElem? hitem)
      simp [haddress] at hnot

/-- A place in a listing and a place in a graph **correspond** if as many items stand before the
one, from the entry on, as before the other, and the memory is the same. -/
def Corresponds (g : FlowGraph) (offset : Nat) (s : Nat × (String → V))
    (s' : (Nat × Nat) × (String → V)) : Prop :=
  s.2 = s'.2 ∧ ∃ b, g.block? s'.1.1 = some b ∧ s'.1.2 < b.items.length ∧
    s.1 = offset + g.start s'.1.1 + s'.1.2

/-- Where control **goes on**, corresponding places lead to corresponding places. -/
theorem Blocks.rel_onward (h : Blocks suffix g) {id j : Nat} {b : Block} {item : Item}
    (hb : g.block? id = some b) (hj : j < b.items.length) (hitem : b.items[j]? = some item)
    (hfalls : item.flow.fallsThrough = true) (store : String → V) :
    Option.Rel (Corresponds g front.length)
      ((Listing.program (front ++ suffix) entry).onward? (front.length + g.start id + j) store)
      (g.byName.onward? (id, j) store) := by
  have hlength : (front ++ suffix).length = front.length + suffix.length := List.length_append
  simp only [Listing.program, byName, program, hb, Option.bind_some]
  by_cases hnext : j + 1 < b.items.length
  · have hinside : g.start id + (j + 1) < suffix.length := by
      have hget := h.getElem?_start hb hnext
      rw [List.getElem?_eq_getElem hnext] at hget
      exact (List.getElem?_eq_some_iff.mp hget).1
    rw [if_pos (by omega), if_pos hnext]
    exact .some ⟨rfl, b, hb, hnext, by simp only; omega⟩
  · -- The item is the last one of its block.
    have hend : j + 1 = b.items.length := by omega
    have hlast : b.items.getLast? = some item := by
      rw [List.getLast?_eq_getElem?, ← hend, Nat.add_sub_cancel, hitem]
    have hstart := Blocks.start_succ hb
    rw [if_neg hnext, h.fall_eq id b item hb hlast]
    by_cases hsize : id + 1 < g.size
    · obtain ⟨c, hc⟩ := exists_block? hsize
      have hc0 : 0 < c.items.length := List.length_pos_iff.mpr (h.items_ne_nil hc)
      have hinside : g.start (id + 1) + 0 < suffix.length := by
        have hget := h.getElem?_start hc hc0
        rw [List.getElem?_eq_getElem hc0] at hget
        exact (List.getElem?_eq_some_iff.mp hget).1
      rw [if_pos (by omega), if_pos ⟨hfalls, hsize⟩, Option.map_some]
      exact .some ⟨rfl, c, hc, hc0, by simp only; omega⟩
    · have hsize : id + 1 = g.size := by
        have := lt_size_of_block? hb
        omega
      have htotal := h.start_size
      rw [hsize] at hstart
      rw [if_neg (by omega), if_neg (by omega), Option.map_none]
      exact .none

/-- Where control **jumps**, corresponding places lead to corresponding places. -/
theorem Blocks.rel_target (h : Blocks suffix g) (hlow : ∀ item ∈ front, item.address < entry)
    (hhigh : ∀ item ∈ suffix, entry ≤ item.address) {id j t : Nat} {b : Block} {item : Item}
    (hb : g.block? id = some b) (hj : j < b.items.length) (hitem : b.items[j]? = some item)
    (ht : item.flow.target? = some t) (store : String → V) :
    Option.Rel (Corresponds g front.length)
      ((Listing.program (front ++ suffix) entry).target? (front.length + g.start id + j) t store)
      (g.byName.target? (id, j) t store) := by
  have hend : j + 1 = b.items.length := by
    by_contra hne
    have hnext : j + 1 < b.items.length := by omega
    obtain ⟨hplain, -⟩ := h.continues_inside hb hnext hitem (List.getElem?_eq_getElem hnext)
    rw [hplain] at ht
    cases ht
  have hlast : b.items.getLast? = some item := by
    rw [List.getLast?_eq_getElem?, ← hend, Nat.add_sub_cancel, hitem]
  have hlisting : (Listing.program (front ++ suffix) entry).target?
      (front.length + g.start id + j) t store =
      ((suffix.findIdx? (·.address == t)).map (· + front.length)).map (·, store) := by
    rw [← findIdx?_target hlow hhigh]
    simp only [Listing.program]
    split
    · rfl
    · rfl
  have htarget := h.succAt?_target hb hlast ht
  rw [hlisting]
  simp only [byName, program]
  cases hk : suffix.findIdx? (·.address == t) with
  | none =>
      rw [hk] at htarget
      rw [htarget]
      exact .none
  | some k =>
      rw [hk] at htarget
      obtain ⟨s, c, hs, hc, rfl⟩ := htarget
      rw [hs]
      exact .some ⟨rfl, c, hc, List.length_pos_iff.mpr (h.items_ne_nil hc), by simp only; omega⟩

/-- **A listing and the graph built from it have the same runs.** -/
theorem run_byName_eq_run_listing {first : Item} {rest : List Item}
    (h : Blocks (first :: rest) g) (hentry : first.address = entry)
    (hascending : (front ++ first :: rest).Pairwise fun a b => a.address < b.address)
    (store : String → V) (n : Nat) :
    g.byName.run I n ((g.entry, 0), store) =
      Listing.run I (front ++ first :: rest) entry store n := by
  obtain ⟨-, hsuffix, hcross⟩ := List.pairwise_append.mp hascending
  have hlow : ∀ item ∈ front, item.address < entry := fun item hitem =>
    hentry ▸ hcross item hitem first (List.mem_cons_self ..)
  have hhigh : ∀ item ∈ first :: rest, entry ≤ item.address := by
    intro item hitem
    rcases List.mem_cons.mp hitem with rfl | hitem
    · exact Nat.le_of_eq hentry.symm
    · exact Nat.le_of_lt (hentry ▸ (List.pairwise_cons.mp hsuffix).1 item hitem)
  have hfind : (front ++ first :: rest).findIdx? (·.address == entry) = some front.length := by
    have htarget := findIdx?_target hlow hhigh entry
    rw [if_pos (Nat.le_refl entry)] at htarget
    rw [htarget, List.findIdx?_cons, hentry]
    simp
  rw [Listing.run, hfind]
  refine (Program.run_eq_of_simulation (R := Corresponds g front.length) ?_ n ?_).symm
  · rintro ⟨i, m⟩ ⟨⟨id, j⟩, m'⟩ ⟨hm, b, hb, hj, hi⟩
    simp only at hm hb hj hi
    subst hm hi
    obtain ⟨item, hitem⟩ : ∃ item, b.items[j]? = some item := ⟨_, List.getElem?_eq_getElem hj⟩
    have hplace : (front ++ first :: rest)[front.length + g.start id + j]? = some item := by
      rw [Nat.add_assoc, List.getElem?_append_right (Nat.le_add_right ..),
        Nat.add_sub_cancel_left, h.getElem?_start hb hj, hitem]
    have hplace' : (g.byName : Program _ (String → V) V).item? (id, j) = some item := by
      simp only [byName, program, hb, Option.bind_some]
      exact hitem
    exact Program.matches_step hplace hplace' rfl rfl rfl rfl
      (fun hfalls => h.rel_onward hb hj hitem hfalls _)
      (fun t ht => h.rel_target hlow hhigh hb hj hitem ht _)
  · obtain ⟨b, hb⟩ := exists_block? g.entry_lt_size
    exact ⟨rfl, b, hb, List.length_pos_iff.mpr (h.items_ne_nil hb), rfl⟩

end Listing

/-! ### Graphs with the same outline -/

/-- By names, an expression without versions has the same value. -/
theorem eval_erase (store : String → V) (e : Expr) :
    e.erase.eval I (Memory.named.read store) = e.eval I (Memory.named.read store) := by
  rw [Expr.erase, Expr.eval_mapVars]
  rfl

/-- By names, statements without versions do the same. -/
theorem exec_erase (store : String → V) (statements : List Assignment) :
    Memory.named.exec I store (statements.map Assignment.erase) =
      Memory.named.exec I store statements := by
  induction statements generalizing store with
  | nil => rfl
  | cons s statements ih =>
      have hvalue : s.erase.value.eval I (Memory.named.read store) =
          s.value.eval I (Memory.named.read store) := eval_erase store s.value
      have hwrite : ∀ value, Memory.named.write store s.erase.target value =
          Memory.named.write store s.target value := fun _ => rfl
      rw [List.map_cons, Memory.exec, Memory.exec, hvalue, hwrite, ih]
      rfl

/-- By names, a terminator without versions sends control to the same place. -/
theorem move_erase (store : String → V) (t : Terminator) :
    t.erase.move I (Memory.named.read store) = t.move I (Memory.named.read store) := by
  cases t with
  | fall => rfl
  | jump target => rfl
  | branch e target =>
      have heval : (e.mapVars Var.erase).eval I (Memory.named.read store) = _ := eval_erase store e
      rw [Terminator.erase, Terminator.mapVars, Terminator.move, Terminator.move, heval]
  | ret value =>
      cases value with
      | none => rfl
      | some e => exact congrArg (fun v => Move.leave (some v)) (eval_erase store e)

/-- By names, a terminator without versions looks at the same value. -/
theorem operand_erase (store : String → V) (t : Terminator) :
    t.erase.operand?.map (·.eval I (Memory.named.read store)) =
      t.operand?.map (·.eval I (Memory.named.read store)) := by
  cases t with
  | fall => rfl
  | jump target => rfl
  | branch e target => exact congrArg some (eval_erase store e)
  | ret value =>
      cases value with
      | none => rfl
      | some e => exact congrArg some (eval_erase store e)

/-- Jumps lead to the same places. -/
theorem SameOutline.succAt?_eq {g' : FlowGraph} (h : g.SameOutline g') (id t : Nat) :
    g'.succAt? id t = g.succAt? id t := by
  have hany : ∀ s, (g'.block? s).any (·.address == t) = (g.block? s).any (·.address == t) := by
    intro s
    have haddress : ∀ g₀ : FlowGraph, (g₀.block? s).any (·.address == t) =
        ((g₀.block? s).map Block.outline).any (·.address == t) := by
      intro g₀
      cases g₀.block? s with
      | none => rfl
      | some b => rfl
    rw [haddress, haddress, h.outline_eq]
  rw [succAt?, succAt?, h.succs_eq]
  simp only [hany]

/-- The items at a place differ in versions only. -/
theorem SameOutline.item?_erase {g' : FlowGraph} (h : g.SameOutline g') (p : Nat × Nat) :
    ((g'.byName : Program _ (String → V) V).item? p).map Item.erase =
      ((g.byName : Program _ (String → V) V).item? p).map Item.erase := by
  simp only [byName, program]
  cases hb : g.block? p.1 with
  | none => rw [h.block?_eq_none hb]
  | some b =>
      obtain ⟨b', hb', houtline⟩ := h.exists_block hb
      rw [hb']
      exact Block.erase_getElem?_of_outline_eq houtline p.2

/-- Going on leads to the same place. -/
theorem SameOutline.onward?_eq {g' : FlowGraph} (h : g.SameOutline g') (p : Nat × Nat)
    (store : String → V) : g'.byName.onward? p store = g.byName.onward? p store := by
  simp only [byName, program]
  cases hb : g.block? p.1 with
  | none => rw [h.block?_eq_none hb]
  | some b =>
      obtain ⟨b', hb', houtline⟩ := h.exists_block hb
      have hfall : b'.outline.fall = b.outline.fall := congrArg Block.fall houtline
      simp only [hb', Option.bind_some, Block.length_items_of_outline_eq houtline,
        show b'.fall = b.fall from hfall]

/-- Every option is related to itself by equality. -/
theorem rel_eq_refl {α : Type} (a : Option α) : Option.Rel Eq a a := by
  cases a with
  | none => exact .none
  | some a => exact .some rfl

/-- **Graphs with the same outline have the same runs by names.** -/
theorem run_byName_congr {g' : FlowGraph} (h : g.SameOutline g') (n : Nat)
    (s : (Nat × Nat) × (String → V)) : g'.byName.run I n s = g.byName.run I n s := by
  refine Program.run_eq_of_simulation (R := Eq) ?_ n rfl
  rintro ⟨p, store⟩ _ rfl
  have hitem := h.item?_erase (V := V) p
  cases hp : (g.byName : Program _ (String → V) V).item? p with
  | none =>
      rw [hp, Option.map_none, Option.map_eq_none_iff] at hitem
      exact Program.matches_none hitem hp
  | some item =>
      rw [hp, Option.map_some, Option.map_eq_some_iff] at hitem
      obtain ⟨item', hp', herase⟩ := hitem
      have hstatements : item'.statements.map Assignment.erase =
          item.statements.map Assignment.erase := congrArg Item.statements herase
      have hterminator : item'.terminator.erase = item.terminator.erase :=
        congrArg Item.terminator herase
      have hexec : g'.byName.exec I store item'.statements =
          g.byName.exec I store item.statements :=
        (exec_erase store _).symm.trans (hstatements ▸ exec_erase store _)
      have haddress : item'.erase.address = item.erase.address := congrArg Item.address herase
      refine Program.matches_step hp' hp haddress (congrArg Prod.snd hexec) ?_ ?_ (fun _ => ?_)
        (fun t _ => ?_)
      · rw [hexec]
        exact (operand_erase _ _).symm.trans (hterminator ▸ operand_erase _ _)
      · rw [hexec]
        exact (move_erase _ _).symm.trans (hterminator ▸ move_erase _ _)
      · rw [hexec, h.onward?_eq]
        exact rel_eq_refl _
      · have htarget : ∀ m : String → V,
            g'.byName.target? p t m = g.byName.target? p t m := fun m => by
          simp only [byName, program, h.succAt?_eq]
        rw [hexec, htarget]
        exact rel_eq_refl _

end FlowGraph

end FlowForm
