import FlowForm.Proofs.Paths
import FlowForm.Proofs.Ssa.Environments

/-!
# What Code Does to Its Variables

Running through a block reads and defines variables in a fixed order: the placeholders define
theirs, then every statement reads those of its right side and defines its target, and the
terminator reads last. These are the **events** of the block, and the events along a path are
those of its blocks one after the other.

An environment is moved forward by events, each definition hiding the one before. It **resolves**
a list of events if every use carries the version that the environment has at that point, and
every definition a version at all. What an environment says in the end is what the last
definition of the variable says (`Env.after_eq`), so an environment that resolves the events of
a path answers the question which definition a use is reached by.

Versions can be **erased**, and erasure is what relates code before and after renaming.

## Main results

* `Env.after_eq`: the environment behind some events, by the last definition among them.
* `Env.resolves_append`: resolving one list of events after the other.
* `Env.Resolves.use` and `Env.Resolves.define`: what resolving says about one event.
-/

namespace FlowForm

/-- One thing that code does to a variable. -/
inductive Event where
  | use (v : Var)
  | define (v : Var)
deriving DecidableEq

namespace Event

/-- The variable defined, if it is called `x`. -/
def definition? (x : String) : Event → Option Var
  | define v => if v.name = x then some v else none
  | use _ => none

/-- The version that is defined, if there is one. -/
def version? : Event → Option Nat
  | define v => v.version
  | use _ => none

/-- Whether a variable is read at a version. -/
def isBoundUse : Event → Bool
  | use v => v.isVersioned
  | define _ => false

end Event

/-- The **last definition** of a variable among some events. -/
def lastDefinition? (x : String) (events : List Event) : Option Var :=
  (events.filterMap (Event.definition? x)).getLast?

/-- The versions defined by some events, in order. -/
def definedVersions (events : List Event) : List Nat :=
  events.filterMap Event.version?

/-- The number of uses among some events that are **bound** to a version. -/
def boundUses (events : List Event) : Nat :=
  events.countP Event.isBoundUse

/-- A statement reads the variables of its right side and then defines its target. -/
def Assignment.events (s : Assignment) : List Event :=
  s.value.vars.map .use ++ [.define s.target]

/-- The events of an item: those of its statements, then the reads of its terminator. -/
def Item.events (item : Item) : List Event :=
  item.statements.flatMap Assignment.events ++ item.terminator.vars.map .use

/-- A placeholder defines its variable. -/
def Phi.events (phi : Phi) : List Event :=
  [.define phi.var]

/-- The events of the items of a block. -/
def Block.itemEvents (b : Block) : List Event :=
  b.items.flatMap Item.events

/-- The events of a block, placeholders first. -/
def Block.events (b : Block) : List Event :=
  b.phis.flatMap Phi.events ++ b.itemEvents

namespace FlowGraph

/-- The events of the block with the given id. -/
def eventsOf (g : FlowGraph) (id : Nat) : List Event :=
  match g.block? id with
  | some b => b.events
  | none => []

/-- The events along a path. -/
def eventsAlong (g : FlowGraph) (π : List Nat) : List Event :=
  π.flatMap g.eventsOf

/-- The events of a block that is there. -/
theorem eventsOf_eq {g : FlowGraph} {id : Nat} {b : Block} (h : g.block? id = some b) :
    g.eventsOf id = b.events := by
  rw [eventsOf, h]

/-- The events along a path and one more block. -/
theorem eventsAlong_concat (g : FlowGraph) (π : List Nat) (b : Nat) :
    g.eventsAlong (π ++ [b]) = g.eventsAlong π ++ g.eventsOf b := by
  simp [eventsAlong]

end FlowGraph

/-! ### Last definitions -/

/-- A variable is defined among some events if one of them defines it. -/
def Defines (events : List Event) (x : String) : Prop :=
  ∃ v, .define v ∈ events ∧ v.name = x

/-- Definitions among two lists of events. -/
theorem defines_append {es fs : List Event} {x : String} :
    Defines (es ++ fs) x ↔ Defines es x ∨ Defines fs x := by
  simp only [Defines, List.mem_append]
  constructor
  · rintro ⟨v, hv | hv, hx⟩
    · exact .inl ⟨v, hv, hx⟩
    · exact .inr ⟨v, hv, hx⟩
  · rintro (⟨v, hv, hx⟩ | ⟨v, hv, hx⟩)
    · exact ⟨v, .inl hv, hx⟩
    · exact ⟨v, .inr hv, hx⟩

/-- The last definition among two lists of events is that among the second if it has one. -/
theorem lastDefinition?_append (x : String) (es fs : List Event) :
    lastDefinition? x (es ++ fs) = (lastDefinition? x fs).or (lastDefinition? x es) := by
  rw [lastDefinition?, List.filterMap_append, List.getLast?_append]
  rfl

/-- A last definition is one of the events, and of the variable in question. -/
theorem mem_of_lastDefinition? {x : String} {es : List Event} {d : Var}
    (h : lastDefinition? x es = some d) : .define d ∈ es ∧ d.name = x := by
  obtain ⟨e, he, hd⟩ := List.mem_filterMap.mp (List.mem_of_getLast? h)
  cases e with
  | use v => simp [Event.definition?] at hd
  | define v =>
      rw [Event.definition?] at hd
      split at hd
      · rename_i hx
        obtain rfl := Option.some.inj hd
        exact ⟨he, hx⟩
      · simp at hd

/-- There is no last definition exactly if there is none at all. -/
theorem lastDefinition?_eq_none_iff {x : String} {es : List Event} :
    lastDefinition? x es = none ↔ ¬ Defines es x := by
  rw [lastDefinition?, List.getLast?_eq_none_iff, List.filterMap_eq_nil_iff]
  constructor
  · rintro h ⟨v, hv, rfl⟩
    simpa [Event.definition?] using h _ hv
  · intro h e he
    cases e with
    | use v => rfl
    | define v =>
        have hx : v.name ≠ x := fun hx => h ⟨v, he, hx⟩
        simp [Event.definition?, hx]

/-- The versions defined by some events are those of their definitions. -/
theorem mem_definedVersions {es : List Event} {n : Nat} :
    n ∈ definedVersions es ↔ ∃ v, .define v ∈ es ∧ v.version = some n := by
  rw [definedVersions, List.mem_filterMap]
  constructor
  · rintro ⟨e, he, hn⟩
    cases e with
    | use v => simp [Event.version?] at hn
    | define v => exact ⟨v, he, hn⟩
  · rintro ⟨v, hv, hn⟩
    exact ⟨_, hv, hn⟩

/-! ### Environments -/

namespace Ssa.Env

/-- How an event moves an environment forward. -/
def step (env : Env) : Event → Env
  | .define v => fun x => if x = v.name then v.version else env x
  | .use _ => env

/-- The environment behind some events. -/
def after (env : Env) (events : List Event) : Env :=
  events.foldl step env

/-- What an environment asks of an event: a use carries the version that reaches it, and a
definition has a version. -/
def Allows (env : Env) : Event → Prop
  | .use v => v.version = env v.name
  | .define v => v.isVersioned = true

/-- An environment **resolves** a list of events if each is allowed where it happens. -/
def Resolves (env : Env) : List Event → Prop
  | [] => True
  | e :: es => env.Allows e ∧ (env.step e).Resolves es

/-- Moving forward over two lists of events. -/
theorem after_append (env : Env) (es fs : List Event) :
    env.after (es ++ fs) = (env.after es).after fs :=
  List.foldl_append

/-- Uses move nothing. -/
theorem after_uses (env : Env) (vs : List Var) : env.after (vs.map .use) = env := by
  induction vs with
  | nil => rfl
  | cons v vs ih => exact ih

/-- Resolving one list of events after the other. -/
theorem resolves_append {env : Env} {es fs : List Event} :
    env.Resolves (es ++ fs) ↔ env.Resolves es ∧ (env.after es).Resolves fs := by
  induction es generalizing env with
  | nil => exact ⟨fun h => ⟨trivial, h⟩, fun h => h.2⟩
  | cons e es ih =>
      rw [List.cons_append, Resolves, Resolves, ih, and_assoc]
      rfl

/-- Uses are resolved if each carries the version that the environment has. -/
theorem resolves_uses {env : Env} {vs : List Var} :
    env.Resolves (vs.map .use) ↔ ∀ v ∈ vs, v.version = env v.name := by
  induction vs with
  | nil => simp [Resolves]
  | cons v vs ih =>
      rw [List.map_cons, Resolves, List.forall_mem_cons]
      exact and_congr Iff.rfl ih

/-- The environment behind some events, **by the last definition** among them. -/
theorem after_eq (env : Env) (es : List Event) (x : String) :
    env.after es x = match lastDefinition? x es with
      | some d => d.version
      | none => env x := by
  induction es generalizing env with
  | nil => rfl
  | cons e es ih =>
      rw [show e :: es = [e] ++ es from rfl, after_append, ih, lastDefinition?_append]
      cases lastDefinition? x es with
      | some d => rfl
      | none =>
          cases e with
          | use v => rfl
          | define v =>
              by_cases hx : v.name = x
              · simp [lastDefinition?, Event.definition?, after, step, hx]
              · simp [lastDefinition?, Event.definition?, after, step, hx, Ne.symm hx]

/-- Where a variable is not defined, the environment keeps what it said. -/
theorem after_of_not_defines {env : Env} {es : List Event} {x : String} (h : ¬ Defines es x) :
    env.after es x = env x := by
  rw [after_eq, lastDefinition?_eq_none_iff.mpr h]

/-- A version in force behind some events was defined by one of them, or was in force before and
nothing has been defined since. -/
theorem after_eq_some {env : Env} {es : List Event} {x : String} {n : Nat}
    (h : env.after es x = some n) :
    (∃ d, .define d ∈ es ∧ d.name = x ∧ d.version = some n) ∨
      ¬ Defines es x ∧ env x = some n := by
  rw [after_eq] at h
  cases hlast : lastDefinition? x es with
  | some d =>
      rw [hlast] at h
      obtain ⟨hmem, hname⟩ := mem_of_lastDefinition? hlast
      exact .inl ⟨d, hmem, hname, h⟩
  | none =>
      rw [hlast] at h
      exact .inr ⟨lastDefinition?_eq_none_iff.mp hlast, h⟩

/-- Where a variable is defined, it no longer matters what the environment said. -/
theorem after_of_defines (env env' : Env) {es : List Event} {x : String} (h : Defines es x) :
    env.after es x = env'.after es x := by
  rw [after_eq, after_eq]
  cases hd : lastDefinition? x es with
  | some d => rfl
  | none => exact absurd h (lastDefinition?_eq_none_iff.mp hd)

/-- What resolving says about a use. -/
theorem Resolves.use {env : Env} {pre post : List Event} {v : Var}
    (h : env.Resolves (pre ++ .use v :: post)) : v.version = env.after pre v.name :=
  (resolves_append.mp h).2.1

/-- What resolving says about a definition. -/
theorem Resolves.define {env : Env} {es : List Event} {v : Var} (h : env.Resolves es)
    (hv : .define v ∈ es) : v.isVersioned = true := by
  obtain ⟨pre, post, rfl⟩ := List.append_of_mem hv
  exact (resolves_append.mp h).2.1

end Ssa.Env

/-! ### Erasing versions -/

/-- The variable without its version. -/
def Var.erase (v : Var) : Var :=
  v.withVersion none

/-- The event without its version. -/
def Event.erase : Event → Event
  | use v => use v.erase
  | define v => define v.erase

/-- The expression without versions. -/
def Expr.erase (e : Expr) : Expr :=
  e.mapVars Var.erase

/-- The statement without versions. -/
def Assignment.erase (s : Assignment) : Assignment where
  target := s.target.erase
  value := s.value.erase

/-- The terminator without versions. -/
def Terminator.erase (t : Terminator) : Terminator :=
  t.mapVars Var.erase

/-- The item without versions. -/
def Item.erase (item : Item) : Item where
  address := item.address
  statements := item.statements.map Assignment.erase
  terminator := item.terminator.erase

/-- The placeholder without the version of its variable; operands are left as they are. -/
def Phi.erase (phi : Phi) : Phi where
  var := phi.var.erase
  operands := phi.operands

/-- The block without the versions of its placeholders and items. -/
def Block.erase (b : Block) : Block :=
  { b with phis := b.phis.map Phi.erase, items := b.items.map Item.erase }

/-- A version that is replaced is erased all the same. -/
theorem Var.erase_withVersion (v : Var) (n : Option Nat) : (v.withVersion n).erase = v.erase :=
  rfl

/-- Replacing variables twice. -/
theorem Expr.mapVars_mapVars (f h : Var → Var) (e : Expr) :
    (e.mapVars f).mapVars h = e.mapVars fun v => h (f v) := by
  induction e with
  | imm n => rfl
  | var v => rfl
  | unary op e ih => rw [mapVars, mapVars, mapVars, ih]
  | binary op l r ihl ihr => rw [mapVars, mapVars, mapVars, ihl, ihr]

/-- Replacing the variables of a terminator twice. -/
theorem Terminator.mapVars_mapVars (f h : Var → Var) (t : Terminator) :
    (t.mapVars f).mapVars h = t.mapVars fun v => h (f v) := by
  cases t with
  | fall => rfl
  | jump a => rfl
  | branch e a => rw [mapVars, mapVars, mapVars, Expr.mapVars_mapVars]
  | ret value =>
      cases value with
      | none => rfl
      | some e => simp only [mapVars, Option.map_some, Expr.mapVars_mapVars]

/-- The events of a statement without versions. -/
theorem Assignment.events_erase (s : Assignment) : s.erase.events = s.events.map Event.erase := by
  simp only [events, erase, Expr.erase, Expr.vars_mapVars, List.map_append, List.map_map]
  rfl

/-- The events of an item without versions. -/
theorem Item.events_erase (item : Item) : item.erase.events = item.events.map Event.erase := by
  have hstatements : (item.statements.map Assignment.erase).flatMap Assignment.events =
      (item.statements.flatMap Assignment.events).map Event.erase := by
    rw [List.flatMap_map, List.map_flatMap]
    exact List.flatMap_congr fun s _ => s.events_erase
  rw [events, events, List.map_append, ← hstatements]
  simp only [erase, Terminator.erase, Terminator.vars_mapVars, List.map_map]
  rfl

/-- The flow class does not depend on versions. -/
theorem Item.flow_erase (item : Item) : item.erase.flow = item.flow :=
  Terminator.flow_mapVars Var.erase item.terminator

/-- Items that differ in versions only have events that differ in versions only. -/
theorem Block.itemEvents_erase {b b' : Block}
    (h : b'.items.map Item.erase = b.items.map Item.erase) :
    b'.itemEvents.map Event.erase = b.itemEvents.map Event.erase := by
  have hevents : ∀ c : Block,
      c.itemEvents.map Event.erase = (c.items.map Item.erase).flatMap Item.events := by
    intro c
    rw [itemEvents, List.map_flatMap, List.flatMap_map]
    exact List.flatMap_congr fun item _ => item.events_erase.symm
  rw [hevents, hevents, h]

/-- Versions have no say in which variables are defined. -/
theorem defines_map_erase {es : List Event} {x : String} :
    Defines (es.map Event.erase) x ↔ Defines es x := by
  constructor
  · rintro ⟨v, hv, rfl⟩
    obtain ⟨e, he, heq⟩ := List.mem_map.mp hv
    cases e with
    | use w => simp [Event.erase] at heq
    | define w =>
        obtain rfl : w.erase = v := Event.define.inj heq
        exact ⟨w, he, rfl⟩
  · rintro ⟨v, hv, rfl⟩
    exact ⟨v.erase, List.mem_map.mpr ⟨_, hv, rfl⟩, rfl⟩

/-- The items of a block define what its statements assign. -/
theorem Block.defines_itemEvents {b : Block} {x : String} :
    Defines b.itemEvents x ↔ ∃ v ∈ b.defs, v.name = x := by
  simp only [Defines, itemEvents, defs, Item.events, Item.defs, Assignment.events,
    List.mem_flatMap, List.mem_append, List.mem_map, List.mem_singleton, Event.define.injEq]
  constructor
  · rintro ⟨v, ⟨item, hitem, ⟨s, hs, ⟨w, -, hw⟩ | rfl⟩ | ⟨w, -, hw⟩⟩, rfl⟩
    · simp at hw
    · exact ⟨s.target, ⟨item, hitem, s, hs, rfl⟩, rfl⟩
    · simp at hw
  · rintro ⟨v, ⟨item, hitem, s, hs, rfl⟩, rfl⟩
    exact ⟨s.target, ⟨item, hitem, .inl ⟨s, hs, .inr rfl⟩⟩, rfl⟩

/-! ### Outlines -/

/-- The **outline** of a block: what is left when versions and placeholders are left out. -/
def Block.outline (b : Block) : Block :=
  { b with phis := [], items := b.items.map Item.erase }

/-- The items of blocks with the same outline differ in versions only. -/
theorem Block.erase_getElem?_of_outline_eq {b b' : Block} (h : b'.outline = b.outline) (j : Nat) :
    (b'.items[j]?).map Item.erase = (b.items[j]?).map Item.erase := by
  have hitems : b'.items.map Item.erase = b.items.map Item.erase := congrArg Block.items h
  rw [← List.getElem?_map, ← List.getElem?_map, hitems]

/-- Blocks with the same outline have as many items. -/
theorem Block.length_items_of_outline_eq {b b' : Block} (h : b'.outline = b.outline) :
    b'.items.length = b.items.length := by
  have hitems : b'.items.map Item.erase = b.items.map Item.erase := congrArg Block.items h
  rw [← List.length_map Item.erase, hitems, List.length_map]

namespace FlowGraph

/-- Graphs with the **same outline** differ in placeholders and versions only. -/
structure SameOutline (g g' : FlowGraph) : Prop where
  keys_eq : g'.keys = g.keys
  outline_eq : ∀ id, (g'.block? id).map Block.outline = (g.block? id).map Block.outline

namespace SameOutline

variable {g g' g'' : FlowGraph}

/-- Every block has its counterpart. -/
theorem exists_block (h : g.SameOutline g') {id : Nat} {b : Block} (hb : g.block? id = some b) :
    ∃ b', g'.block? id = some b' ∧ b'.outline = b.outline := by
  have heq := h.outline_eq id
  rw [hb, Option.map_some] at heq
  exact Option.map_eq_some_iff.mp heq

/-- A block that is missing has none. -/
theorem block?_eq_none (h : g.SameOutline g') {id : Nat} (hb : g.block? id = none) :
    g'.block? id = none := by
  have heq := h.outline_eq id
  rw [hb, Option.map_none] at heq
  exact Option.map_eq_none_iff.mp heq

/-- The relation is symmetric. -/
theorem symm (h : g.SameOutline g') : g'.SameOutline g :=
  ⟨h.keys_eq.symm, fun id => (h.outline_eq id).symm⟩

/-- The relation is transitive. -/
theorem trans (h : g.SameOutline g') (h' : g'.SameOutline g'') : g.SameOutline g'' :=
  ⟨h'.keys_eq.trans h.keys_eq, fun id => (h'.outline_eq id).trans (h.outline_eq id)⟩

/-- The number of blocks is the same. -/
theorem size_eq (h : g.SameOutline g') : g'.size = g.size := by
  rw [size, size, ← g'.length_keys, ← g.length_keys, h.keys_eq]

/-- Successors are the same. -/
theorem succs_eq (h : g.SameOutline g') (id : Nat) : g'.succs id = g.succs id := by
  have hsuccs : ∀ g₀ : FlowGraph,
      g₀.succs id = (((g₀.block? id).map Block.outline).map Block.succs).getD [] := by
    intro g₀
    rw [succs]
    cases g₀.block? id with
    | none => rfl
    | some b => rfl
  rw [hsuccs, hsuccs, h.outline_eq]

/-- Predecessors are the same. -/
theorem preds_eq (h : g.SameOutline g') (id : Nat) : g'.preds id = g.preds id := by
  rw [preds, preds]
  cases hb : g.block? id with
  | none => rw [h.block?_eq_none hb]
  | some b =>
      obtain ⟨b', hb', houtline⟩ := h.exists_block hb
      have hpreds : b'.outline.preds = b.outline.preds := congrArg Block.preds houtline
      rw [hb']
      exact hpreds

/-- Edges are the same. -/
theorem hasEdge_iff (h : g.SameOutline g') {u v : Nat} : g'.HasEdge u v ↔ g.HasEdge u v := by
  rw [HasEdge, HasEdge, h.succs_eq, h.size_eq]

/-- A path through one graph is a path through the other. -/
theorem path (h : g.SameOutline g') {a b : Nat} {π : List Nat} (hpath : g.Path a π b) :
    g'.Path a π b := by
  induction hpath with
  | start => exact .start
  | step _ hedge ih => exact ih.step (h.hasEdge_iff.mpr hedge)

/-- The same blocks are reachable. -/
theorem reachable_iff (h : g.SameOutline g') {b : Nat} : g'.Reachable b ↔ g.Reachable b :=
  ⟨fun ⟨π, hπ⟩ => ⟨π, h.symm.path hπ⟩, fun ⟨π, hπ⟩ => ⟨π, h.path hπ⟩⟩

/-- Dominance is the same. -/
theorem dominates_iff (h : g.SameOutline g') {a b : Nat} : g'.Dominates a b ↔ g.Dominates a b := by
  rw [Dominates, Dominates, h.reachable_iff, h.reachable_iff]
  refine and_congr_right fun _ => and_congr_right fun _ => forall_congr' fun π => ?_
  exact ⟨fun hmem hπ => hmem (h.path hπ), fun hmem hπ => hmem (h.symm.path hπ)⟩

end SameOutline

end FlowGraph

end FlowForm
