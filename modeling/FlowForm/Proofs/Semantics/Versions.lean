import FlowForm.Proofs.Semantics.Blocks
import FlowForm.Proofs.Ssa.Liveness

/-!
# Versions Keep the Meaning of Names

A graph in single-assignment form, with or without the placeholders that nothing reads, has the
same runs by versions as by names (`run_eq_run_byName`).

At every point of a run an environment says which version of each name is in force, and the two
memories **agree** if the cell of that version holds what the store holds under the name, while a
name without a version still has the value it had on entry. Agreement is kept by an assignment,
because it writes both to the name and to the version that is in force from then on, and along an
edge, because a variable either stays in force as it is or goes through a placeholder whose
operand for the edge is the version that was in force.

Dropped placeholders leave cells without a value. The agreement therefore speaks only of versions
that are **kept**, and what makes it enough is that whatever is read, by an item or by a
placeholder that is kept, is kept itself (`Trimmed`).

## Main results

* `Agrees.exec`: agreement is kept by statements.
* `Trimmed.agrees_takePhis`: agreement is kept when a block is entered.
* `run_eq_run_byName`: runs by versions are runs by names.
-/

namespace FlowForm

open Ssa

variable {V : Type} {I : Interpretation V} {g f : FlowGraph} {entering leaving : Nat → Env}
  {kept : Phi → Bool} {store σ : String → V} {κ : Var → V} {env : Env}

/-! ### Keeping placeholders -/

/-- The graph `f` is `g` with some of its placeholders **dropped**, and whatever is read by an
item or by a placeholder that is kept is kept. -/
structure Trimmed (g f : FlowGraph) (kept : Phi → Bool) : Prop where
  keys_eq : f.keys = g.keys
  block?_eq : ∀ id, f.block? id = (g.block? id).map fun b => { b with phis := b.phis.filter kept }
  read : ∀ b, ∀ phi ∈ phisOf g b, ∀ n, phi.var.version = some n → n ∈ readVersions g →
    kept phi = true
  operand : ∀ a b, ∀ phi ∈ phisOf g a, ∀ psi ∈ phisOf g b, ∀ n, phi.var.version = some n →
    kept psi = true → (∃ op ∈ psi.operands, op.var.version = some n) → kept phi = true

/-- A version is **kept** unless a placeholder that defines it is dropped. -/
def KeptVersion (g : FlowGraph) (kept : Phi → Bool) (n : Nat) : Prop :=
  ∀ b, ∀ phi ∈ phisOf g b, phi.var.version = some n → kept phi = true

/-- The placeholders that are left. -/
theorem Trimmed.phisOf_eq (h : Trimmed g f kept) (id : Nat) :
    phisOf f id = (phisOf g id).filter kept := by
  rw [phisOf, phisOf, h.block?_eq]
  cases g.block? id with
  | none => rfl
  | some b => rfl

/-- The blocks that are left. -/
theorem Trimmed.block?_eq_some (h : Trimmed g f kept) {id : Nat} {b : Block}
    (hb : g.block? id = some b) : f.block? id = some { b with phis := b.phis.filter kept } := by
  rw [h.block?_eq, hb, Option.map_some]

/-- Placeholders are no part of the outline. -/
theorem Trimmed.sameOutline (h : Trimmed g f kept) : g.SameOutline f := by
  refine ⟨h.keys_eq, fun id => ?_⟩
  rw [h.block?_eq, Option.map_map]
  rfl

/-- A graph from which nothing is dropped. -/
theorem trimmed_self (g : FlowGraph) : Trimmed g g fun _ => true := by
  refine ⟨rfl, fun id => ?_, fun _ _ _ _ _ _ => rfl, fun _ _ _ _ _ _ _ _ _ _ => rfl⟩
  have hblock : ∀ b : Block, { b with phis := b.phis.filter fun _ => true } = b := fun b => by
    rw [List.filter_true]
  simp only [hblock]
  exact Option.map_id'.symm

/-- **Pruning drops nothing that is read.** -/
theorem trimmed_prune (h : Reaching g entering leaving) :
    Trimmed g (prune g).1 (keeps (liveVersions g)) := by
  have hkeeps : ∀ {phi : Phi} {n}, phi.var.version = some n →
      (keeps (liveVersions g) phi = true ↔ n ∈ liveVersions g) := by
    intro phi n hn
    rw [keeps, hn, List.contains_iff_mem]
  refine ⟨rfl, fun id => ?_, ?_, ?_⟩
  · rw [prune, FlowGraph.block?_mapBlocks]
  · intro b phi hphi n hn hread
    exact (hkeeps hn).mpr
      (mem_liveVersions_of_read hread (mem_phiVersions.mpr ⟨b, phi, hphi, hn⟩))
  · rintro a b phi hphi psi hpsi n hn hkept ⟨op, hop, hopn⟩
    obtain ⟨m, hm⟩ := h.exists_version hpsi
    refine (hkeeps hn).mpr (mem_liveVersions_of_operand ((hkeeps hm).mp hkept) ?_
      (mem_phiVersions.mpr ⟨a, phi, hphi, hn⟩))
    rw [h.operandVersions_eq hpsi hm]
    exact List.mem_filterMap.mpr ⟨op, hop, hopn⟩

/-! ### Agreement -/

/-- Store and cells **agree** under an environment: names without a version have the value they
had on entry, and the cells of versions that are kept hold the value of their name. -/
def Agrees (keptVersion : Nat → Prop) (store σ : String → V) (κ : Var → V) (env : Env) : Prop :=
  ∀ x, match env x with
    | none => σ x = store x
    | some n => keptVersion n → κ ⟨x, some n⟩ = σ x

variable {keptVersion : Nat → Prop}

/-- A use that carries the version in force is read from the cells as from the store. -/
theorem Agrees.read_eq (h : Agrees keptVersion store σ κ env) {v : Var}
    (hv : v.version = env v.name) (hkept : ∀ n, v.version = some n → keptVersion n) :
    (Memory.versioned store).read κ v = Memory.named.read σ v := by
  obtain ⟨x, version⟩ := v
  have hx := h x
  rw [← show version = env x from hv] at hx
  cases version with
  | none => exact hx.symm
  | some n => exact hx (hkept n rfl)

/-- An assignment keeps the agreement: it writes to the version that is in force from then on. -/
theorem Agrees.write (h : Agrees keptVersion store σ κ env) {v : Var}
    (hv : v.isVersioned = true) (value : V) :
    Agrees keptVersion store (Memory.named.write σ v value)
      ((Memory.versioned store).write κ v value) (env.step (.define v)) := by
  intro x
  obtain ⟨m, hm⟩ := Option.isSome_iff_exists.mp hv
  by_cases hx : x = v.name
  · simp only [Env.step, hx, if_true, hm, Memory.named, Memory.versioned]
    intro _
    obtain ⟨name, version⟩ := v
    obtain rfl : version = some m := hm
    rw [if_pos rfl]
  · have hkeep := h x
    simp only [Env.step, hx, if_false, Memory.named, Memory.versioned]
    cases hn : env x with
    | none =>
        rw [hn] at hkeep
        exact hkeep
    | some n =>
        rw [hn] at hkeep
        have hne : (⟨x, some n⟩ : Var) ≠ v := by
          rintro rfl
          exact hx rfl
        simp only [hne, if_false]
        exact hkeep

/-- **Statements keep the agreement**, and assign the same values on both sides. -/
theorem Agrees.exec {statements : List Assignment} (h : Agrees keptVersion store σ κ env)
    (hresolves : env.Resolves (statements.flatMap Assignment.events))
    (hkept : ∀ v, .use v ∈ statements.flatMap Assignment.events →
      ∀ n, v.version = some n → keptVersion n) :
    (Memory.named.exec I σ statements).2 = ((Memory.versioned store).exec I κ statements).2 ∧
      Agrees keptVersion store (Memory.named.exec I σ statements).1
        ((Memory.versioned store).exec I κ statements).1
        (env.after (statements.flatMap Assignment.events)) := by
  induction statements generalizing σ κ env with
  | nil => exact ⟨rfl, h⟩
  | cons s statements ih =>
      rw [List.flatMap_cons, Env.resolves_append, Assignment.events, Env.resolves_append,
        Env.after_append, Env.after_uses] at hresolves
      obtain ⟨⟨huses, hdefine, -⟩, hrest⟩ := hresolves
      have hvalue : s.value.eval I ((Memory.versioned store).read κ) =
          s.value.eval I (Memory.named.read σ) := by
        refine Expr.eval_congr fun v hv => ?_
        refine h.read_eq (Env.resolves_uses.mp huses v hv) (hkept v ?_)
        rw [List.flatMap_cons, Assignment.events, List.append_assoc]
        exact List.mem_append_left _ (List.mem_map.mpr ⟨v, hv, rfl⟩)
      have hafter : env.after ((s :: statements).flatMap Assignment.events) =
          (env.step (.define s.target)).after (statements.flatMap Assignment.events) := by
        rw [List.flatMap_cons, Env.after_append, Assignment.events, Env.after_append,
          Env.after_uses]
        rfl
      rw [hafter, Memory.exec, Memory.exec, hvalue]
      obtain ⟨hassigned, hagrees⟩ := ih (h.write hdefine _) hrest fun v hv =>
        hkept v (by rw [List.flatMap_cons]; exact List.mem_append_right _ hv)
      exact ⟨congrArg _ hassigned, hagrees⟩

/-! ### Entering blocks -/

namespace Trimmed

/-- What a placeholder that is kept leaves in its cell. -/
theorem takePhis_of_mem (h : Trimmed g f kept) (hreach : Reaching g entering leaving)
    {id : Nat} {phi : Phi} {source : Option Nat} {op : Operand} (hphi : phi ∈ phisOf g id)
    (hkept : kept phi = true) (hop : phi.operand? source = some op) :
    takePhis store κ source (phisOf f id) phi.var = (Memory.versioned store).read κ op.var := by
  have hfind : (phisOf f id).find? (·.var == phi.var) = some phi := by
    have hmem : phi ∈ phisOf f id := by
      rw [h.phisOf_eq]
      exact List.mem_filter.mpr ⟨hphi, hkept⟩
    cases hpsi : (phisOf f id).find? (·.var == phi.var) with
    | none =>
        have hne := List.find?_eq_none.mp hpsi phi hmem
        simp at hne
    | some psi =>
        have hvar : psi.var = phi.var := by simpa using List.find?_some hpsi
        have hpsi := List.mem_of_find?_eq_some hpsi
        rw [h.phisOf_eq] at hpsi
        rw [List.inj_on_of_nodup_map (hreach.nodup_names id) (List.mem_filter.mp hpsi).1 hphi
          (congrArg Var.name hvar)]
  simp only [takePhis, hfind, Option.bind_some, hop]

/-- Cells of names without a placeholder stay as they are. -/
theorem takePhis_of_forall_ne (h : Trimmed g f kept) {id : Nat} {source : Option Nat} {w : Var}
    (hne : ∀ phi ∈ phisOf g id, phi.var.name ≠ w.name) :
    takePhis store κ source (phisOf f id) w = κ w := by
  have hfind : (phisOf f id).find? (·.var == w) = none := by
    refine List.find?_eq_none.mpr fun phi hphi hvar => ?_
    rw [h.phisOf_eq] at hphi
    refine hne phi (List.mem_filter.mp hphi).1 ?_
    rw [show phi.var = w by simpa using hvar]
  simp only [takePhis, hfind, Option.bind_none]

/-- **Entering a block keeps the agreement**, if the environment that control comes from agrees
with the start of the block wherever there is no placeholder, and is what the operands have. -/
theorem agrees_takePhis (h : Trimmed g f kept) (hreach : Reaching g entering leaving)
    {id : Nat} {source : Option Nat}
    (hsame : ∀ x, (∃ phi ∈ phisOf g id, phi.var.name = x) ∨ env x = entering id x)
    (hoperand : ∀ phi ∈ phisOf g id, ∃ op, phi.operand? source = some op ∧
      op.var = ⟨phi.var.name, env phi.var.name⟩)
    (hagrees : Agrees (KeptVersion g kept) store σ κ env) :
    Agrees (KeptVersion g kept) store σ (takePhis store κ source (phisOf f id))
      ((entering id).after ((phisOf g id).flatMap Phi.events)) := by
  intro x
  by_cases hphi : ∃ phi ∈ phisOf g id, phi.var.name = x
  · obtain ⟨phi, hphi, rfl⟩ := hphi
    obtain ⟨n, hn⟩ := hreach.exists_version hphi
    obtain ⟨op, hop, hvar⟩ := hoperand phi hphi
    rw [hreach.after_phis hphi, hn]
    intro hkept
    have hkeptPhi := hkept id phi hphi hn
    have hcell : (⟨phi.var.name, some n⟩ : Var) = phi.var := by rw [← hn]
    rw [hcell, h.takePhis_of_mem hreach hphi hkeptPhi hop]
    have hopName : op.var.name = phi.var.name := by rw [hvar]
    have hopVersion : op.var.version = env op.var.name := by rw [hvar]
    refine (hagrees.read_eq hopVersion fun m hm a psi hpsi hpsim => ?_).trans ?_
    · exact h.operand a id psi hpsi phi hphi m hpsim hkeptPhi
        ⟨op, List.mem_of_find?_eq_some hop, hm⟩
    · exact congrArg σ hopName
  · have hfree : ¬ Defines ((phisOf g id).flatMap Phi.events) x := by
      rintro ⟨v, hv, hname⟩
      obtain ⟨phi, hmem, rfl⟩ := define_mem_phis.mp hv
      exact hphi ⟨phi, hmem, hname⟩
    have hx := hagrees x
    rw [Env.after_of_not_defines hfree, ← (hsame x).resolve_left hphi]
    cases hn : env x with
    | none =>
        rw [hn] at hx
        exact hx
    | some n =>
        rw [hn] at hx
        intro hkept
        rw [h.takePhis_of_forall_ne fun phi hmem hname => hphi ⟨phi, hmem, hname⟩]
        exact hx hkept

end Trimmed

/-! ### Runs -/

/-- What the edges and the items of a graph have to do with each other: the edge without a jump is
one of the edges, and an item that jumps is the last one of its block. -/
structure Wired (g : FlowGraph) : Prop where
  fall_mem : ∀ id b s, g.block? id = some b → b.fall = some s → s ∈ b.succs
  jump_last : ∀ id b j item t, g.block? id = some b → b.items[j]? = some item →
    item.flow.target? = some t → j + 1 = b.items.length

/-- A graph that has been built from items is wired. -/
theorem FlowGraph.Blocks.wired {items : List Item} (h : Blocks items g) : Wired g := by
  refine ⟨fun id b s hb hfall => ?_, fun id b j item t hb hitem ht => ?_⟩
  · have hlast := List.getLast?_eq_some_getLast (h.items_ne_nil hb)
    rw [h.fall_eq id b _ hb hlast] at hfall
    split at hfall
    · rename_i hfalls
      exact (h.mem_succs id b _ hb hlast s).mpr
        (.inr ⟨hfalls.1, hfalls.2, (Option.some.inj hfall).symm⟩)
    · cases hfall
  · have hj := (List.getElem?_eq_some_iff.mp hitem).1
    refine Nat.le_antisymm hj (Nat.le_of_not_lt fun hnext => ?_)
    obtain ⟨hplain, -⟩ := h.continues_inside hb hnext hitem (List.getElem?_eq_getElem hnext)
    rw [hplain] at ht
    cases ht

/-- Whether a graph is wired depends on its outline only. -/
theorem Wired.of_sameOutline {g' : FlowGraph} (hwired : Wired g) (h : g.SameOutline g') :
    Wired g' := by
  refine ⟨fun id b' s hb' hfall => ?_, fun id b' j item' t hb' hitem' ht => ?_⟩
  · obtain ⟨b, hb, houtline⟩ := h.symm.exists_block hb'
    have hfall' : b.outline.fall = b'.outline.fall := congrArg Block.fall houtline
    have hsuccs' : b.outline.succs = b'.outline.succs := congrArg Block.succs houtline
    exact hsuccs' ▸ hwired.fall_mem id b s hb (hfall'.trans hfall)
  · obtain ⟨b, hb, houtline⟩ := h.symm.exists_block hb'
    have hitem := Block.erase_getElem?_of_outline_eq houtline j
    rw [hitem', Option.map_some, Option.map_eq_some_iff] at hitem
    obtain ⟨item, hitem, herase⟩ := hitem
    rw [← Item.flow_erase, ← herase, Item.flow_erase] at ht
    rw [← Block.length_items_of_outline_eq houtline]
    exact hwired.jump_last id b j item t hb hitem ht

/-- The environment in front of an item of a block. -/
def envAt (g : FlowGraph) (entering : Nat → Env) (id : Nat) (b : Block) (j : Nat) : Env :=
  (entering id).after ((phisOf g id).flatMap Phi.events ++ (b.items.take j).flatMap Item.events)

/-- The environment behind an item is that in front of the next one. -/
theorem envAt_succ {id j : Nat} {b : Block} {item : Item} (hitem : b.items[j]? = some item) :
    envAt g entering id b (j + 1) =
      (envAt g entering id b j).after (item.statements.flatMap Assignment.events) := by
  rw [envAt, envAt, ← Env.after_append, List.take_add_one, hitem, List.flatMap_append,
    ← List.append_assoc, Env.after_append, Option.toList_some, List.flatMap_singleton, Item.events,
    Env.after_append, Env.after_uses, ← Env.after_append]

/-- The environment behind the last item is that at the end of the block. -/
theorem Ssa.Reaching.envAt_length (h : Reaching g entering leaving) {id : Nat} {b : Block}
    (hb : g.block? id = some b) (hid : g.Reachable id) :
    envAt g entering id b b.items.length = leaving id := by
  rw [envAt, List.take_length, h.leaving_eq id hid, FlowGraph.eventsOf_eq_append,
    FlowGraph.itemEventsOf_eq hb]
  rfl

/-- The environment in front of an item resolves the events of the item. -/
theorem Ssa.Reaching.resolves_item (h : Reaching g entering leaving) {id j : Nat} {b : Block}
    {item : Item} (hb : g.block? id = some b) (hid : g.Reachable id)
    (hitem : b.items[j]? = some item) : (envAt g entering id b j).Resolves item.events := by
  have hresolves := h.resolves id hid
  have hsplit : b.itemEvents = (b.items.take j).flatMap Item.events ++
      (item.events ++ (b.items.drop (j + 1)).flatMap Item.events) := by
    obtain ⟨hj, rfl⟩ := List.getElem?_eq_some_iff.mp hitem
    rw [← List.flatMap_cons, ← List.drop_eq_getElem_cons hj, ← List.flatMap_append,
      List.take_append_drop]
    rfl
  rw [FlowGraph.eventsOf_eq_append, FlowGraph.itemEventsOf_eq hb, hsplit, ← List.append_assoc]
    at hresolves
  exact (Env.resolves_append.mp (Env.resolves_append.mp hresolves).2).1

/-- The states of a run by names and of a run by versions that **belong together**: they are at
the same place, which is reachable, and their memories agree there. -/
def Together (g : FlowGraph) (entering : Nat → Env) (kept : Phi → Bool) (store : String → V)
    (s : (Nat × Nat) × (String → V)) (s' : (Nat × Nat) × (Var → V)) : Prop :=
  s.1 = s'.1 ∧ ∀ b, g.block? s.1.1 = some b → g.Reachable s.1.1 ∧
    Agrees (KeptVersion g kept) store s.2 s'.2 (envAt g entering s.1.1 b s.1.2)

/-- Entering a block along an edge leads to states that belong together. -/
theorem Trimmed.together_edge (h : Trimmed g f kept) (hreach : Reaching g entering leaving)
    {u s : Nat} (hu : g.Reachable u) (hsucc : s ∈ g.succs u)
    (hagrees : Agrees (KeptVersion g kept) store σ κ (leaving u)) :
    Together g entering kept store ((s, 0), σ)
      ((s, 0), takePhis store κ (some u) (phisOf f s)) := by
  refine ⟨rfl, fun b hb => ?_⟩
  have hedge : g.HasEdge u s := ⟨hsucc, FlowGraph.lt_size_of_block? hb⟩
  refine ⟨hu.step hedge, ?_⟩
  rw [envAt, List.take_zero, List.flatMap_nil, List.append_nil]
  exact h.agrees_takePhis hreach (hreach.edge u s hu hedge)
    (fun phi hphi => ⟨_, hreach.operand u s hu hedge phi hphi, rfl⟩) hagrees

/-- The entry is entered from outside, with the store as it is on entry. -/
theorem Trimmed.together_entry (h : Trimmed g f kept) (hreach : Reaching g entering leaving)
    (cells : Var → V) : Together g entering kept store ((g.entry, 0), store)
      ((g.entry, 0), takePhis store cells none (phisOf f g.entry)) := by
  refine ⟨rfl, fun b _ => ⟨g.reachable_entry, ?_⟩⟩
  rw [envAt, List.take_zero, List.flatMap_nil, List.append_nil]
  have hempty : Agrees (KeptVersion g kept) store store cells Env.empty := fun _ => rfl
  refine h.agrees_takePhis hreach (fun x => ?_) (fun phi hphi => ?_) hempty
  · rw [hreach.entry]
    exact .inr rfl
  · exact ⟨_, hreach.entry_operand phi hphi, rfl⟩

/-- Uses of an item carry versions that are kept. -/
theorem Trimmed.keptVersion_of_use (h : Trimmed g f kept) {id j : Nat} {b : Block} {item : Item}
    (hb : g.block? id = some b) (hitem : b.items[j]? = some item) {v : Var}
    (hv : .use v ∈ item.events) {n : Nat} (hn : v.version = some n) : KeptVersion g kept n := by
  intro a phi hphi hphin
  refine h.read a phi hphi n hphin (mem_readVersions.mpr ⟨id, v, ?_, hn⟩)
  rw [FlowGraph.itemEventsOf_eq hb]
  exact List.mem_flatMap.mpr ⟨item, List.mem_of_getElem? hitem, hv⟩

/-- Control goes on to states that belong together. -/
theorem Trimmed.rel_onward (h : Trimmed g f kept) (hreach : Reaching g entering leaving)
    (hwired : Wired g) {id j : Nat} {b : Block} (hb : g.block? id = some b)
    (hid : g.Reachable id) (hj : j < b.items.length)
    (hagrees : Agrees (KeptVersion g kept) store σ κ (envAt g entering id b (j + 1))) :
    Option.Rel (Together g entering kept store) (f.byName.onward? (id, j) σ)
      ((f.byVersion store).onward? (id, j) κ) := by
  simp only [FlowGraph.byName, FlowGraph.byVersion, FlowGraph.program, h.block?_eq_some hb,
    Option.bind_some]
  by_cases hnext : j + 1 < b.items.length
  · rw [if_pos hnext, if_pos hnext]
    refine .some ⟨rfl, fun c hc => ?_⟩
    obtain rfl : b = c := Option.some.inj (hb.symm.trans hc)
    exact ⟨hid, hagrees⟩
  · -- Behind the last item the environment is that at the end of the block.
    obtain hend : j + 1 = b.items.length := Nat.le_antisymm hj (Nat.le_of_not_lt hnext)
    rw [hend, hreach.envAt_length hb hid] at hagrees
    rw [if_neg hnext, if_neg hnext]
    cases hfall : b.fall with
    | none => exact .none
    | some s =>
        have hsucc : s ∈ g.succs id := by
          rw [FlowGraph.succs, hb]
          exact hwired.fall_mem id b s hb hfall
        exact .some (h.together_edge hreach hid hsucc hagrees)

/-- Control jumps to states that belong together. -/
theorem Trimmed.rel_target (h : Trimmed g f kept) (hreach : Reaching g entering leaving)
    (hwired : Wired g) {id j t : Nat} {b : Block} {item : Item} (hb : g.block? id = some b)
    (hid : g.Reachable id) (hitem : b.items[j]? = some item) (ht : item.flow.target? = some t)
    (hagrees : Agrees (KeptVersion g kept) store σ κ (envAt g entering id b (j + 1))) :
    Option.Rel (Together g entering kept store) (f.byName.target? (id, j) t σ)
      ((f.byVersion store).target? (id, j) t κ) := by
  rw [hwired.jump_last id b j item t hb hitem ht, hreach.envAt_length hb hid] at hagrees
  simp only [FlowGraph.byName, FlowGraph.byVersion, FlowGraph.program]
  cases hs : f.succAt? id t with
  | none => exact .none
  | some s =>
      have hsucc := List.mem_of_find?_eq_some hs
      rw [h.sameOutline.succs_eq] at hsucc
      exact .some (h.together_edge hreach hid hsucc hagrees)

/-- The items at a place are those of the graph from which placeholders have been dropped. -/
theorem Trimmed.exists_item (h : Trimmed g f kept) {id j : Nat} {item : Item}
    (hitem : (f.byName : Program _ (String → V) V).item? (id, j) = some item) :
    ∃ b, g.block? id = some b ∧ b.items[j]? = some item := by
  obtain ⟨c, hc, hitem⟩ := Option.bind_eq_some_iff.mp hitem
  rw [h.block?_eq, Option.map_eq_some_iff] at hc
  obtain ⟨b, hb, rfl⟩ := hc
  exact ⟨b, hb, hitem⟩

/-- **Runs by versions are runs by names**, for a graph in single-assignment form from which
placeholders have been dropped that nothing reads, whatever the cells hold before the run. -/
theorem run_eq_run_byName (h : Trimmed g f kept) (hreach : Reaching g entering leaving)
    (hwired : Wired g) (store : String → V) (cells : Var → V) (n : Nat) :
    f.run I store cells n = f.byName.run I n ((f.entry, 0), store) := by
  refine (Program.run_eq_of_simulation (R := Together g entering kept store) ?_ n
    (h.together_entry hreach cells)).symm
  rintro ⟨⟨id, j⟩, σ⟩ ⟨_, κ⟩ ⟨rfl, htogether⟩
  cases hplace : (f.byName : Program _ (String → V) V).item? (id, j) with
  | none => exact Program.matches_none hplace hplace
  | some item =>
      obtain ⟨b, hb, hitem⟩ := h.exists_item hplace
      obtain ⟨hid, hagrees⟩ := htogether b hb
      have hresolves := hreach.resolves_item hb hid hitem
      rw [Item.events, Env.resolves_append] at hresolves
      obtain ⟨hassigned, hagrees⟩ := hagrees.exec (I := I) hresolves.1 fun v hv n hn =>
        h.keptVersion_of_use hb hitem (List.mem_append_left _ hv) hn
      have hread : ∀ v ∈ item.terminator.vars,
          (f.byName.read (f.byName.exec I σ item.statements).1 v) =
          ((f.byVersion store).read ((f.byVersion store).exec I κ item.statements).1 v) := by
        intro v hv
        refine (hagrees.read_eq (Env.resolves_uses.mp hresolves.2 v hv) fun n hn => ?_).symm
        exact h.keptVersion_of_use hb hitem
          (List.mem_append_right _ (List.mem_map.mpr ⟨v, hv, rfl⟩)) hn
      rw [← envAt_succ hitem] at hagrees
      have hj := (List.getElem?_eq_some_iff.mp hitem).1
      exact Program.matches_step hplace hplace rfl hassigned
        (Terminator.operand_congr hread) (Terminator.move_congr hread)
        (fun _ => h.rel_onward hreach hwired hb hid hj hagrees)
        (fun t ht => h.rel_target hreach hwired hb hid hitem ht hagrees)

end FlowForm
