import Mathlib.Order.Bounds.Defs
import FlowForm.Proofs.Dominance.Frontier
import FlowForm.Proofs.Ssa.Operands
import FlowForm.Ssa.Construction

/-!
# Where Placeholders Stand

A block **needs** a placeholder for a variable if one of the sites says so. Sites are closed
under frontiers: a block in the frontier of one that assigns the variable or needs a placeholder
for it needs one as well (`needs_of_assigns`, `needs_of_needs`). Nothing else about the search
that finds them matters for what is reached by which definition. All of them are reachable
(`Needs.reachable`), so that the other blocks stay as they are. And there are no more sites than
that takes: the blocks that need a placeholder are the least set with this closure
(`isLeast_needs`).

## Main results

* `needs_of_assigns` and `needs_of_needs`: sites are closed under frontiers.
* `isLeast_needs`: sites are the iterated frontier.
* `mem_phis_placePhis_iff`: the placeholders of a graph in which they have been placed.
-/

namespace FlowForm.Ssa

open DominatorTree Dominance

variable {g : FlowGraph}

/-- A block **assigns** a variable if one of its statements does. -/
def Assigns (g : FlowGraph) (id : Nat) (x : String) : Prop :=
  ∃ b, g.block? id = some b ∧ ∃ v ∈ b.defs, v.name = x

/-- A block **needs** a placeholder for a variable. -/
def Needs (g : FlowGraph) (id : Nat) (x : String) : Prop :=
  ∃ site ∈ sites g (compute g), site.name = x ∧ id ∈ site.blocks

/-! ### Sites -/

/-- The reachable blocks. -/
theorem mem_reachableBlocks {id : Nat} {b : Block} :
    (id, b) ∈ reachableBlocks g (compute g) ↔ g.Reachable id ∧ g.block? id = some b := by
  rw [reachableBlocks, List.mem_filterMap]
  constructor
  · rintro ⟨i, -, hi⟩
    split at hi
    · rename_i hreach
      obtain ⟨c, hc, hpair⟩ := Option.map_eq_some_iff.mp hi
      cases hpair
      exact ⟨(isReachable_compute g id).mp hreach, hc⟩
    · simp at hi
  · rintro ⟨hreach, hb⟩
    refine ⟨id, FlowGraph.mem_ids.mpr hreach.lt_size, ?_⟩
    rw [if_pos ((isReachable_compute g id).mpr hreach), hb]
    rfl

/-- The variables with a site are those assigned in a reachable block. -/
theorem mem_assignedNames {x : String} :
    x ∈ assignedNames (reachableBlocks g (compute g)) ↔ ∃ id, g.Reachable id ∧ Assigns g id x := by
  rw [assignedNames, List.mem_eraseDups, List.mem_flatMap]
  constructor
  · rintro ⟨⟨id, b⟩, hmem, hx⟩
    obtain ⟨hreach, hb⟩ := mem_reachableBlocks.mp hmem
    obtain ⟨v, hv, rfl⟩ := List.mem_map.mp hx
    exact ⟨id, hreach, b, hb, v, hv, rfl⟩
  · rintro ⟨id, hreach, b, hb, v, hv, rfl⟩
    exact ⟨(id, b), mem_reachableBlocks.mpr ⟨hreach, hb⟩, List.mem_map.mpr ⟨v, hv, rfl⟩⟩

/-- The blocks that a search for sites starts from. -/
theorem mem_assigning {id : Nat} {x : String} :
    id ∈ assigning (reachableBlocks g (compute g)) x ↔ g.Reachable id ∧ Assigns g id x := by
  rw [assigning, List.mem_map]
  constructor
  · rintro ⟨⟨i, b⟩, hmem, rfl⟩
    obtain ⟨hmem, hany⟩ := List.mem_filter.mp hmem
    obtain ⟨hreach, hb⟩ := mem_reachableBlocks.mp hmem
    obtain ⟨v, hv, hname⟩ := List.any_eq_true.mp hany
    exact ⟨hreach, b, hb, v, hv, by simpa using hname⟩
  · rintro ⟨hreach, b, hb, v, hv, hname⟩
    refine ⟨(id, b), List.mem_filter.mpr ⟨mem_reachableBlocks.mpr ⟨hreach, hb⟩, ?_⟩, rfl⟩
    exact List.any_eq_true.mpr ⟨v, hv, by simpa using hname⟩

/-- The frontier of a block, as the search for sites sees it. -/
abbrev frontier (g : FlowGraph) (id : Nat) : List Nat :=
  frontierOf (frontiers g (compute g)) id

/-- What it means to need a placeholder: the variable is assigned somewhere, and **frontiers
lead** from a block that assigns it to the block. -/
theorem needs_iff {id : Nat} {x : String} :
    Needs g id x ↔ ∃ a, g.Reachable a ∧ Assigns g a x ∧ ∃ r ∈ frontier g a, r ∈ g.ids ∧
      Search.Reaches (frontier g) g.ids r id := by
  rw [Needs, sites]
  constructor
  · rintro ⟨site, hsite, rfl, hid⟩
    obtain ⟨x, -, rfl⟩ := List.mem_map.mp hsite
    obtain ⟨r, hr, hscope, hreaches⟩ := Search.mem_preorder_iff.mp hid
    obtain ⟨a, ha, hr⟩ := List.mem_flatMap.mp hr
    obtain ⟨hreach, hassigns⟩ := mem_assigning.mp ha
    exact ⟨a, hreach, hassigns, r, hr, hscope, hreaches⟩
  · rintro ⟨a, hreach, hassigns, r, hr, hscope, hreaches⟩
    refine ⟨_, List.mem_map.mpr ⟨x, mem_assignedNames.mpr ⟨a, hreach, hassigns⟩, rfl⟩, rfl, ?_⟩
    refine Search.mem_preorder_iff.mpr ⟨r, List.mem_flatMap.mpr ⟨a, ?_, hr⟩, hscope, hreaches⟩
    exact mem_assigning.mpr ⟨hreach, hassigns⟩

/-- Frontiers hold blocks only. -/
theorem mem_ids_of_mem_frontier (hagree : g.EdgesAgree) {a b : Nat} (h : b ∈ frontier g a) :
    b ∈ g.ids := by
  obtain ⟨p, -, hedge, -⟩ := (mem_frontierOf_iff hagree).mp h
  exact FlowGraph.mem_ids.mpr hedge.2

/-- The frontier of a block that **assigns** a variable needs placeholders for it. -/
theorem needs_of_assigns (hagree : g.EdgesAgree) {a b : Nat} {x : String} (ha : g.Reachable a)
    (hx : Assigns g a x) (hb : b ∈ frontier g a) : Needs g b x :=
  needs_iff.mpr ⟨a, ha, hx, b, hb, mem_ids_of_mem_frontier hagree hb, .refl⟩

/-- The frontier of a block that **needs** a placeholder needs placeholders as well. -/
theorem needs_of_needs (hagree : g.EdgesAgree) {a b : Nat} {x : String} (ha : Needs g a x)
    (hb : b ∈ frontier g a) : Needs g b x := by
  obtain ⟨c, hc, hassigns, r, hr, hscope, hreaches⟩ := needs_iff.mp ha
  exact needs_iff.mpr ⟨c, hc, hassigns, r, hr, hscope,
    hreaches.tail ⟨hb, mem_ids_of_mem_frontier hagree hb⟩⟩

/-- Placeholders are needed in reachable blocks only. -/
theorem Needs.reachable (hagree : g.EdgesAgree) {b : Nat} {x : String} (h : Needs g b x) :
    g.Reachable b := by
  have hfrontier : ∀ {a c}, c ∈ frontier g a → g.Reachable c := by
    intro a c hc
    obtain ⟨p, hp, hedge, -⟩ := (mem_frontierOf_iff hagree).mp hc
    exact hp.step hedge
  obtain ⟨a, -, -, r, hr, -, hreaches⟩ := needs_iff.mp h
  cases hreaches with
  | refl => exact hfrontier hr
  | tail _ hlast => exact hfrontier hlast.1

/-- A set of blocks is **closed under frontiers** for a variable if the frontier of every reachable
block that assigns the variable lies in it, and so does the frontier of each of its members. -/
def FrontierClosed (g : FlowGraph) (x : String) (S : Set Nat) : Prop :=
  ∀ c, g.Reachable c ∧ Assigns g c x ∨ c ∈ S → ∀ y, g.InFrontier c y → y ∈ S

/-- **The blocks that need a placeholder are the iterated frontier** of those that assign the
variable: the least set that is closed under frontiers. -/
theorem isLeast_needs (hagree : g.EdgesAgree) (x : String) :
    IsLeast {S : Set Nat | FrontierClosed g x S} {b | Needs g b x} := by
  constructor
  · rintro c (⟨hc, hassigns⟩ | hneeds) y hy
    · exact needs_of_assigns hagree hc hassigns ((mem_frontierOf_iff hagree).mpr hy)
    · exact needs_of_needs hagree hneeds ((mem_frontierOf_iff hagree).mpr hy)
  · intro S hclosed b hb
    obtain ⟨a, ha, hassigns, r, hr, -, hreaches⟩ := needs_iff.mp hb
    clear hb
    -- The search walks along frontiers, none of which leads out of the set.
    induction hreaches with
    | refl => exact hclosed a (.inl ⟨ha, hassigns⟩) r ((mem_frontierOf_iff hagree).mp hr)
    | tail _ hlast ih => exact hclosed _ (.inr ih) _ ((mem_frontierOf_iff hagree).mp hlast.1)

/-! ### The graph with placeholders -/

/-- Placing placeholders changes nothing but placeholders. -/
theorem block?_placePhis (sites : List Site) {id : Nat} {b : Block} (hb : g.block? id = some b) :
    ∃ phis, (placePhis g sites).block? id = some { b with phis } := by
  rw [placePhis, FlowGraph.block?_mapBlocks, hb]
  exact ⟨_, rfl⟩

/-- **The placeholders of a graph** in which they have been placed where they are needed. -/
theorem mem_phis_placePhis_iff {id : Nat} {b : Block} (hb : g.block? id = some b)
    (hphis : b.phis = []) {phi : Phi} :
    phi ∈ phisOf (placePhis g (sites g (compute g))) id ↔
      ∃ x, Needs g id x ∧ phi = Phi.unversioned x (phiSources g id b) := by
  simp only [phisOf, placePhis, FlowGraph.block?_mapBlocks, hb, Option.map_some, hphis,
    List.nil_append, List.mem_map, List.mem_filter, List.contains_iff_mem]
  constructor
  · rintro ⟨x, ⟨site, ⟨hsite, hid⟩, hname⟩, rfl⟩
    exact ⟨x, ⟨site, hsite, hname, hid⟩, rfl⟩
  · rintro ⟨x, ⟨site, hsite, hname, hid⟩, rfl⟩
    exact ⟨x, ⟨site, ⟨hsite, hid⟩, hname⟩, rfl⟩

/-- Dropping repetitions leaves none. -/
theorem nodup_eraseDups (names : List String) : names.eraseDups.Nodup := by
  generalize hn : names.length = n
  induction n using Nat.strong_induction_on generalizing names with
  | _ n ih =>
      cases names with
      | nil => exact List.nodup_nil
      | cons x xs =>
          rw [List.eraseDups_cons, List.nodup_cons]
          refine ⟨fun hmem => ?_, ih _ ?_ _ rfl⟩
          · have hx := (List.mem_filter.mp (List.mem_eraseDups.mp hmem)).2
            simp at hx
          · have hle := List.length_filter_le (fun y => !y == x) xs
            rw [List.length_cons] at hn
            omega

/-- No variable has two sites. -/
theorem nodup_names_sites (g : FlowGraph) : ((sites g (compute g)).map (·.name)).Nodup := by
  rw [sites, List.map_map]
  exact (List.map_id _).symm ▸ nodup_eraseDups _

/-- No variable has two placeholders in one block. -/
theorem nodup_names_placePhis {id : Nat} {b : Block} (hb : g.block? id = some b)
    (hphis : b.phis = []) :
    ((phisOf (placePhis g (sites g (compute g))) id).map (·.var.name)).Nodup := by
  have hnames : (phisOf (placePhis g (sites g (compute g))) id).map (·.var.name) =
      ((sites g (compute g)).filter (·.blocks.contains id)).map (·.name) := by
    simp only [phisOf, placePhis, FlowGraph.block?_mapBlocks, hb, Option.map_some, hphis,
      List.nil_append, List.map_map]
    exact List.map_congr_left fun _ _ => rfl
  rw [hnames]
  exact (nodup_names_sites g).sublist (List.filter_sublist.map _)

/-- A placeholder has an operand for each of its sources. -/
theorem operand?_unversioned {x : String} {sources : List (Option Nat)} {source : Option Nat}
    (h : source ∈ sources) :
    (Phi.unversioned x sources).operand? source =
      some { pred := source, var := { name := x } } := by
  rw [Phi.operand?, Phi.unversioned]
  induction sources with
  | nil => simp at h
  | cons s sources ih =>
      by_cases hs : s = source
      · simp [hs]
      · have hne : (s == source) = false := by simpa using hs
        have hmem : source ∈ sources := by
          rcases List.mem_cons.mp h with rfl | h
          · exact absurd rfl hs
          · exact h
        simp only [List.map_cons, List.find?_cons, hne]
        exact ih hmem

end FlowForm.Ssa
