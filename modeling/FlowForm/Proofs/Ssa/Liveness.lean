import FlowForm.Proofs.Ssa.Reaching
import FlowForm.Ssa.Pruning

/-!
# Live Placeholders

A variable is **live** at the start of a block if some path from there leads to a use of it that
no assignment comes before. Pruning never sees such paths: it goes backwards from the versions
that items read, through the operands of placeholders. Both come to the same.

A version that a placeholder defines is in force exactly along the paths that leave its block
without an assignment of the variable. Going back along an edge on which it is in force, one ends
up at the placeholder's block (`Reaching.wanted_of_entering`), so a placeholder that is read,
directly or through operands, belongs to a live variable (`Reaching.wanted_of_mem_liveVersions`).
Going forward from the placeholder, the version is read in the end, either by the use itself or as
an operand of the next placeholder on the way (`Reaching.mem_liveVersions_of_wanted`).

## Main results

* `liveAt_iff_wanted`: liveness by paths and by single steps.
* `Reaching.wanted_of_mem_liveVersions` and `Reaching.mem_liveVersions_of_wanted`: a placeholder is
  read, directly or through operands, if and only if its variable is wanted.
-/

namespace FlowForm

namespace FlowGraph

/-- The events of the items of a block. -/
def itemEventsOf (g : FlowGraph) (id : Nat) : List Event :=
  match g.block? id with
  | some b => b.itemEvents
  | none => []

/-- A variable is **live** at the start of a block if a path leads from there to a use of it
before which no statement of the path assigns it. -/
def LiveAt (g : FlowGraph) (id : Nat) (x : String) : Prop :=
  ∃ π c, g.Path id (π ++ [c]) c ∧ ∃ pre v post, g.itemEventsOf c = pre ++ .use v :: post ∧
    v.name = x ∧ ¬ Defines (π.flatMap g.itemEventsOf ++ pre) x

/-- Liveness by single steps: the block itself uses the variable before it assigns it, or does not
assign it and a successor wants it. -/
inductive Wanted (g : FlowGraph) (x : String) : Nat → Prop
  | use {id : Nat} {pre post : List Event} {v : Var} :
      g.itemEventsOf id = pre ++ .use v :: post → v.name = x → ¬ Defines pre x → Wanted g x id
  | pass {id c : Nat} :
      ¬ Defines (g.itemEventsOf id) x → g.HasEdge id c → Wanted g x c → Wanted g x id

variable {g : FlowGraph}

/-- The events of the items of a block that is there. -/
theorem itemEventsOf_eq {id : Nat} {b : Block} (h : g.block? id = some b) :
    g.itemEventsOf id = b.itemEvents := by
  rw [itemEventsOf, h]

/-- The events of a block are those of its placeholders and those of its items. -/
theorem eventsOf_eq_append (g : FlowGraph) (id : Nat) :
    g.eventsOf id = (Ssa.phisOf g id).flatMap Phi.events ++ g.itemEventsOf id := by
  rw [eventsOf, Ssa.phisOf, itemEventsOf]
  cases g.block? id with
  | none => rfl
  | some b => rfl

/-- What is wanted at the end of a path without assignments is wanted at its start. -/
theorem Wanted.of_path {a b : Nat} {x : String} {π : List Nat} (hpath : g.Path a (π ++ [b]) b)
    (hfree : ¬ Defines (π.flatMap g.itemEventsOf) x) (hb : g.Wanted x b) : g.Wanted x a := by
  generalize hσ : π ++ [b] = σ at hpath
  induction hpath generalizing π with
  | start => exact hb
  | @step σ u v hpath hedge ih =>
      obtain rfl : π = σ := (List.append_inj' hσ rfl).1
      obtain ⟨ρ, rfl⟩ := hpath.exists_concat
      rw [List.flatMap_append, defines_append, not_or] at hfree
      refine ih hfree.1 (.pass ?_ hedge hb) rfl
      simpa using hfree.2

/-- **Liveness by paths and by single steps.** -/
theorem liveAt_iff_wanted {id : Nat} {x : String} : g.LiveAt id x ↔ g.Wanted x id := by
  constructor
  · rintro ⟨π, c, hpath, pre, v, post, hevents, hname, hfree⟩
    rw [defines_append, not_or] at hfree
    exact Wanted.of_path hpath hfree.1 (.use hevents hname hfree.2)
  · intro h
    induction h with
    | @use id pre post v hevents hname hfree =>
        exact ⟨[], id, .start, pre, v, post, hevents, hname, hfree⟩
    | @pass id c hfree hedge _ ih =>
        obtain ⟨π, d, hpath, pre, v, post, hevents, hname, hrest⟩ := ih
        refine ⟨id :: π, d, hpath.cons hedge, pre, v, post, hevents, hname, ?_⟩
        rw [List.flatMap_cons, List.append_assoc, defines_append, not_or]
        exact ⟨hfree, hrest⟩

/-- Graphs with the same outline differ in the versions of their items only. -/
theorem SameOutline.map_erase_itemEventsOf {g' : FlowGraph} (h : g.SameOutline g') (id : Nat) :
    (g'.itemEventsOf id).map Event.erase = (g.itemEventsOf id).map Event.erase := by
  rw [itemEventsOf, itemEventsOf]
  cases hb : g.block? id with
  | none => rw [h.block?_eq_none hb]
  | some b =>
      obtain ⟨b', hb', houtline⟩ := h.exists_block hb
      rw [hb']
      exact Block.itemEvents_erase (congrArg Block.items houtline)

/-- Versions and placeholders have no say in what is wanted. -/
theorem Wanted.of_sameOutline {g' : FlowGraph} (h : g.SameOutline g') {id : Nat} {x : String}
    (hwanted : g.Wanted x id) : g'.Wanted x id := by
  induction hwanted with
  | @use id pre post v hevents hname hfree =>
      have hmap := h.map_erase_itemEventsOf id
      rw [hevents, List.map_append, List.map_cons] at hmap
      obtain ⟨pre', rest, hsplit, hpre, hrest⟩ := List.map_eq_append_iff.mp hmap
      obtain ⟨e, post', rfl, he, -⟩ := List.map_eq_cons_iff.mp hrest
      cases e with
      | define w => simp [Event.erase] at he
      | use w =>
          have hw : w.erase = v.erase := Event.use.inj he
          refine .use hsplit ((congrArg (fun w : Var => w.name) hw).trans hname) fun hdefines => ?_
          rw [← defines_map_erase, hpre, defines_map_erase] at hdefines
          exact hfree hdefines
  | @pass id c hfree hedge _ ih =>
      refine .pass (fun hdefines => ?_) (h.hasEdge_iff.mpr hedge) ih
      rw [← defines_map_erase, h.map_erase_itemEventsOf, defines_map_erase] at hdefines
      exact hfree hdefines

end FlowGraph

namespace Ssa

variable {g : FlowGraph} {entering leaving : Nat → Env} {x : String} {n : Nat}

/-! ### Versions of placeholders -/

/-- The definitions of placeholders. -/
theorem define_mem_phis {phis : List Phi} {v : Var} :
    .define v ∈ phis.flatMap Phi.events ↔ ∃ phi ∈ phis, phi.var = v := by
  simp only [List.mem_flatMap, Phi.events, List.mem_singleton, Event.define.injEq, eq_comm]

/-- The versions that placeholders define. -/
theorem definedVersions_phis (phis : List Phi) :
    definedVersions (phis.flatMap Phi.events) = phis.filterMap (·.var.version) := by
  induction phis with
  | nil => rfl
  | cons phi phis ih =>
      rw [List.flatMap_cons, definedVersions_append, ih]
      cases hv : phi.var.version with
      | none => simp [definedVersions, Phi.events, Event.version?, hv]
      | some m => simp [definedVersions, Phi.events, Event.version?, hv]

/-- Things that are told apart by what is drawn from them. -/
theorem eq_of_nodup_filterMap {α : Type} {f : α → Option Nat} {l : List α}
    (hnodup : (l.filterMap f).Nodup) {a b : α} (ha : a ∈ l) (hb : b ∈ l) (hfa : f a = some n)
    (hfb : f b = some n) : a = b := by
  induction l with
  | nil => simp at ha
  | cons c l ih =>
      cases hc : f c with
      | none =>
          rw [List.filterMap_cons_none hc] at hnodup
          have hne : ∀ {d}, d ∈ c :: l → f d = some n → d ∈ l := by
            intro d hd hfd
            refine (List.mem_cons.mp hd).resolve_left ?_
            rintro rfl
            rw [hc] at hfd
            cases hfd
          exact ih hnodup (hne ha hfa) (hne hb hfb)
      | some m =>
          rw [List.filterMap_cons_some hc, List.nodup_cons] at hnodup
          have hlater : ∀ {d}, d ∈ l → f d = some n → m ≠ n := by
            rintro d hd hfd rfl
            exact hnodup.1 (List.mem_filterMap.mpr ⟨d, hd, hfd⟩)
          rw [List.mem_cons] at ha hb
          rcases ha with rfl | ha
          · rcases hb with rfl | hb
            · rfl
            · exact absurd (Option.some.inj (hc.symm.trans hfa)) (hlater hb hfb)
          · rcases hb with rfl | hb
            · exact absurd (Option.some.inj (hc.symm.trans hfb)) (hlater ha hfa)
            · exact ih hnodup.2 ha hb

namespace Reaching

/-- A placeholder has a version. -/
theorem exists_version (h : Reaching g entering leaving) {b : Nat} {phi : Phi}
    (hphi : phi ∈ phisOf g b) : ∃ n, phi.var.version = some n := by
  have hevent : .define phi.var ∈ g.eventsOf b := by
    rw [FlowGraph.eventsOf_eq_append]
    exact List.mem_append_left _ (define_mem_phis.mpr ⟨phi, hphi, rfl⟩)
  exact Option.isSome_iff_exists.mp
    ((h.resolves b (h.reachable_of_phi b phi hphi)).define hevent)

/-- The version of a placeholder is defined in its block. -/
theorem mem_definedVersions_phi {b : Nat} {phi : Phi} (hphi : phi ∈ phisOf g b)
    (hversion : phi.var.version = some n) :
    n ∈ definedVersions ((phisOf g b).flatMap Phi.events) :=
  mem_definedVersions.mpr ⟨phi.var, define_mem_phis.mpr ⟨phi, hphi, rfl⟩, hversion⟩

/-- A definition with the version of a placeholder stands in the **same block**. -/
theorem block_unique (h : Reaching g entering leaving) {a b : Nat} {phi : Phi}
    (ha : g.Reachable a) (hn : n ∈ definedVersions (g.eventsOf a)) (hphi : phi ∈ phisOf g b)
    (hversion : phi.var.version = some n) : a = b := by
  refine h.owner a b ha (h.reachable_of_phi b phi hphi) n hn ?_
  rw [FlowGraph.eventsOf_eq_append, definedVersions_append]
  exact List.mem_append_left _ (mem_definedVersions_phi hphi hversion)

/-- No two placeholders have **the same version**. -/
theorem phi_unique (h : Reaching g entering leaving) {a b : Nat} {phi psi : Phi}
    (hphi : phi ∈ phisOf g a) (hpsi : psi ∈ phisOf g b) (hphiVersion : phi.var.version = some n)
    (hpsiVersion : psi.var.version = some n) : a = b ∧ phi = psi := by
  have ha := h.reachable_of_phi a phi hphi
  have hmem : n ∈ definedVersions (g.eventsOf a) := by
    rw [FlowGraph.eventsOf_eq_append, definedVersions_append]
    exact List.mem_append_left _ (mem_definedVersions_phi hphi hphiVersion)
  obtain rfl := h.block_unique ha hmem hpsi hpsiVersion
  refine ⟨rfl, ?_⟩
  have hnodup := h.nodup a ha
  rw [FlowGraph.eventsOf_eq_append, definedVersions_append, definedVersions_phis] at hnodup
  exact eq_of_nodup_filterMap (List.nodup_append.mp hnodup).1 hphi hpsi hphiVersion hpsiVersion

/-- No item has the version of a placeholder. -/
theorem not_mem_definedVersions_items (h : Reaching g entering leaving) {a b : Nat} {phi : Phi}
    (ha : g.Reachable a) (hphi : phi ∈ phisOf g b) (hversion : phi.var.version = some n) :
    n ∉ definedVersions (g.itemEventsOf a) := by
  intro hn
  have hmem : n ∈ definedVersions (g.eventsOf a) := by
    rw [FlowGraph.eventsOf_eq_append, definedVersions_append]
    exact List.mem_append_right _ hn
  obtain rfl := h.block_unique ha hmem hphi hversion
  have hnodup := h.nodup a ha
  rw [FlowGraph.eventsOf_eq_append, definedVersions_append] at hnodup
  exact (List.nodup_append.mp hnodup).2.2 n (mem_definedVersions_phi hphi hversion) n hn rfl

/-! ### Back to the placeholder -/

/-- A version of a placeholder that is **in force inside a block** was not overtaken in it, and
comes either from a placeholder of the block or from before it. -/
theorem phi_in_force (h : Reaching g entering leaving) {c b : Nat} {pre post : List Event}
    {phi : Phi} (hc : g.Reachable c) (hevents : g.itemEventsOf c = pre ++ post)
    (hphi : phi ∈ phisOf g b) (hversion : phi.var.version = some n)
    (hforce : (entering c).after ((phisOf g c).flatMap Phi.events ++ pre) x = some n) :
    ¬ Defines pre x ∧ (c = b ∧ phi.var.name = x ∨
      (∀ psi ∈ phisOf g c, psi.var.name ≠ x) ∧ entering c x = some n) := by
  rw [Env.after_append] at hforce
  rcases Env.after_eq_some hforce with ⟨d, hd, -, hdn⟩ | ⟨hfree, hforce⟩
  · refine absurd (mem_definedVersions.mpr ⟨d, ?_, hdn⟩)
      (h.not_mem_definedVersions_items hc hphi hversion)
    rw [hevents]
    exact List.mem_append_left _ hd
  · refine ⟨hfree, ?_⟩
    rcases Env.after_eq_some hforce with ⟨d, hd, hname, hdn⟩ | ⟨hnone, hforce⟩
    · obtain ⟨psi, hpsi, rfl⟩ := define_mem_phis.mp hd
      obtain ⟨rfl, rfl⟩ := h.phi_unique hpsi hphi hdn hversion
      exact .inl ⟨rfl, hname⟩
    · refine .inr ⟨fun psi hpsi hname => hnone ⟨psi.var, ?_, hname⟩, hforce⟩
      exact define_mem_phis.mpr ⟨psi, hpsi, rfl⟩

/-- Where a placeholder's version is in force at the **start** of a block, what the block wants is
wanted at the placeholder: there is a way back to it without assignments. -/
theorem wanted_of_entering (h : Reaching g entering leaving) {c b : Nat} {π : List Nat}
    {phi : Phi} (hphi : phi ∈ phisOf g b) (hversion : phi.var.version = some n)
    (hpath : g.Path g.entry π c) (hnone : ∀ psi ∈ phisOf g c, psi.var.name ≠ x)
    (hforce : entering c x = some n) :
    phi.var.name = x ∧ (g.Wanted x c → g.Wanted x b) := by
  induction hpath with
  | start =>
      rw [h.entry] at hforce
      cases hforce
  | @step π u c hpath hedge ih =>
      have hu : g.Reachable u := ⟨_, hpath⟩
      rcases h.edge u c hu hedge x with ⟨psi, hpsi, hname⟩ | hsame
      · exact absurd hname (hnone psi hpsi)
      · rw [← hsame, h.leaving_eq u hu, FlowGraph.eventsOf_eq_append] at hforce
        obtain ⟨hfree, ⟨rfl, hname⟩ | ⟨hnone, hforce⟩⟩ :=
          h.phi_in_force hu (List.append_nil _).symm hphi hversion hforce
        · exact ⟨hname, .pass hfree hedge⟩
        · obtain ⟨hname, hback⟩ := ih hnone hforce
          exact ⟨hname, fun hwanted => hback (.pass hfree hedge hwanted)⟩

/-- The same at any point of a block: what is wanted at that point is wanted at the
placeholder. -/
theorem wanted_of_in_force (h : Reaching g entering leaving) {c b : Nat} {pre post : List Event}
    {phi : Phi} (hphi : phi ∈ phisOf g b) (hversion : phi.var.version = some n)
    (hc : g.Reachable c) (hevents : g.itemEventsOf c = pre ++ post)
    (hforce : (entering c).after ((phisOf g c).flatMap Phi.events ++ pre) x = some n)
    (hwanted : ¬ Defines pre x → g.Wanted x c) : phi.var.name = x ∧ g.Wanted x b := by
  obtain ⟨hfree, ⟨rfl, hname⟩ | ⟨hnone, hforce⟩⟩ :=
    h.phi_in_force hc hevents hphi hversion hforce
  · exact ⟨hname, hwanted hfree⟩
  · obtain ⟨π, hpath⟩ := hc
    obtain ⟨hname, hback⟩ := h.wanted_of_entering hphi hversion hpath hnone hforce
    exact ⟨hname, hback (hwanted hfree)⟩

end Reaching

/-! ### Live versions -/

/-- The placeholders of a graph are those of its blocks. -/
theorem mem_allPhis {phi : Phi} : phi ∈ allPhis g ↔ ∃ b, phi ∈ phisOf g b := by
  rw [allPhis, List.mem_flatMap]
  constructor
  · rintro ⟨block, hblock, hphi⟩
    obtain ⟨b, hb⟩ := List.getElem?_of_mem hblock
    exact ⟨b, by rw [phisOf_eq hb]; exact hphi⟩
  · rintro ⟨b, hphi⟩
    rw [phisOf] at hphi
    split at hphi
    · rename_i block hblock
      exact ⟨block, List.mem_of_getElem? hblock, hphi⟩
    · simp at hphi

/-- The versions of placeholders. -/
theorem mem_phiVersions :
    n ∈ phiVersions g ↔ ∃ b, ∃ phi ∈ phisOf g b, phi.var.version = some n := by
  rw [phiVersions, List.mem_filterMap]
  constructor
  · rintro ⟨phi, hphi, hversion⟩
    obtain ⟨b, hb⟩ := mem_allPhis.mp hphi
    exact ⟨b, phi, hb, hversion⟩
  · rintro ⟨b, phi, hphi, hversion⟩
    exact ⟨phi, mem_allPhis.mpr ⟨b, hphi⟩, hversion⟩

/-- What the items of a block read are the uses among their events. -/
theorem use_mem_itemEvents {b : Block} {v : Var} : .use v ∈ b.itemEvents ↔ v ∈ b.uses := by
  simp only [Block.itemEvents, Block.uses, Item.events, Item.uses, Assignment.events,
    List.mem_flatMap, List.mem_append, List.mem_map, List.mem_singleton, Event.use.injEq,
    exists_eq_right, reduceCtorEq, or_false]

/-- The versions that are read. -/
theorem mem_readVersions :
    n ∈ readVersions g ↔ ∃ c v, .use v ∈ g.itemEventsOf c ∧ v.version = some n := by
  rw [readVersions, List.mem_flatMap]
  constructor
  · rintro ⟨block, hblock, hn⟩
    obtain ⟨c, hc⟩ := List.getElem?_of_mem hblock
    obtain ⟨v, hv, hversion⟩ := List.mem_filterMap.mp hn
    exact ⟨c, v, by rw [FlowGraph.itemEventsOf_eq hc]; exact use_mem_itemEvents.mpr hv, hversion⟩
  · rintro ⟨c, v, hv, hversion⟩
    rw [FlowGraph.itemEventsOf] at hv
    split at hv
    · rename_i block hblock
      exact ⟨block, List.mem_of_getElem? hblock,
        List.mem_filterMap.mpr ⟨v, use_mem_itemEvents.mp hv, hversion⟩⟩
    · simp at hv

/-- If every version is that of one placeholder at most, the operands that pruning looks at are
those of **the** placeholder with the version. -/
theorem operandVersions_eq (hnodup : (phiVersions g).Nodup) {phi : Phi} (hphi : phi ∈ allPhis g)
    (hversion : phi.var.version = some n) :
    operandVersions g n = phi.operands.filterMap (·.var.version) := by
  rw [operandVersions]
  cases hfind : (allPhis g).reverse.find? fun phi => phi.var.version == some n with
  | none =>
      have hne := List.find?_eq_none.mp hfind phi (List.mem_reverse.mpr hphi)
      simp [hversion] at hne
  | some psi =>
      have hpsi := List.mem_reverse.mp (List.mem_of_find?_eq_some hfind)
      have hsame : psi.var.version = some n := by simpa using List.find?_some hfind
      obtain rfl := eq_of_nodup_filterMap hnodup hphi hpsi hversion hsame
      rfl

namespace Reaching

/-- The versions of placeholders are pairwise distinct, within a block and across blocks. -/
theorem nodup_phiVersions (h : Reaching g entering leaving) : (phiVersions g).Nodup := by
  rw [phiVersions, allPhis, List.filterMap_flatMap, List.nodup_iff_pairwise_ne,
    List.pairwise_flatMap]
  constructor
  · intro block hblock
    obtain ⟨b, hb⟩ := List.getElem?_of_mem hblock
    rw [← phisOf_eq hb, ← definedVersions_phis]
    cases hphis : phisOf g b with
    | nil => exact List.nodup_nil
    | cons phi phis =>
        have hreach := h.reachable_of_phi b phi (hphis ▸ List.mem_cons_self ..)
        have hnodup := h.nodup b hreach
        rw [FlowGraph.eventsOf_eq_append, definedVersions_append, hphis] at hnodup
        exact (List.nodup_append.mp hnodup).1
  · rw [List.pairwise_iff_getElem]
    rintro a b ha hb hlt m hm _ hn rfl
    obtain ⟨phi, hphi, hversion⟩ := List.mem_filterMap.mp hm
    obtain ⟨psi, hpsi, hsame⟩ := List.mem_filterMap.mp hn
    rw [← phisOf_eq (List.getElem?_eq_getElem ha)] at hphi
    rw [← phisOf_eq (List.getElem?_eq_getElem hb)] at hpsi
    exact absurd (h.phi_unique hphi hpsi hversion hsame).1 (Nat.ne_of_lt hlt)

/-- The operands that pruning looks at are those of the placeholder with the version. -/
theorem operandVersions_eq (h : Reaching g entering leaving) {b : Nat} {phi : Phi}
    (hphi : phi ∈ phisOf g b) (hversion : phi.var.version = some n) :
    operandVersions g n = phi.operands.filterMap (·.var.version) :=
  Ssa.operandVersions_eq h.nodup_phiVersions (mem_allPhis.mpr ⟨b, hphi⟩) hversion

end Reaching

/-- A placeholder's version that is read is live. -/
theorem mem_liveVersions_of_read (hread : n ∈ readVersions g) (hn : n ∈ phiVersions g) :
    n ∈ liveVersions g :=
  Search.mem_preorder_iff.mpr ⟨n, hread, hn, .refl⟩

/-- A placeholder's version among the operands of a live one is live. -/
theorem mem_liveVersions_of_operand {m : Nat} (hm : m ∈ liveVersions g)
    (hop : n ∈ operandVersions g m) (hn : n ∈ phiVersions g) : n ∈ liveVersions g := by
  obtain ⟨r, hr, hscope, hreaches⟩ := Search.mem_preorder_iff.mp hm
  exact Search.mem_preorder_iff.mpr ⟨r, hr, hscope, hreaches.tail ⟨hop, hn⟩⟩

namespace Reaching

/-- **Live versions belong to live variables.** The induction is along the way on which pruning
has found the version: from one that an item reads through the operands of placeholders. -/
theorem wanted_of_mem_liveVersions (h : Reaching g entering leaving)
    (hreads : ∀ c v, .use v ∈ g.itemEventsOf c → v.isVersioned = true → g.Reachable c)
    (hlive : n ∈ liveVersions g) {b : Nat} {phi : Phi} (hphi : phi ∈ phisOf g b)
    (hversion : phi.var.version = some n) : g.Wanted phi.var.name b := by
  obtain ⟨r, hr, hscope, hreaches⟩ := Search.mem_preorder_iff.mp hlive
  induction hreaches generalizing b phi with
  | refl =>
      obtain ⟨c, v, hv, hread⟩ := mem_readVersions.mp hr
      have hc := hreads c v hv (by rw [Var.isVersioned, hread]; rfl)
      obtain ⟨pre, post, hevents⟩ := List.append_of_mem hv
      have hresolves := h.resolves c hc
      rw [FlowGraph.eventsOf_eq_append, hevents, ← List.append_assoc] at hresolves
      obtain ⟨hname, hwanted⟩ := h.wanted_of_in_force hphi hversion hc hevents
        (hresolves.use.symm.trans hread) (.use hevents rfl)
      rw [hname]
      exact hwanted
  | @tail m n hm hstep ih =>
      obtain ⟨a, psi, hpsi, hpsiVersion⟩ := mem_phiVersions.mp (Search.Reaches.mem_scope hscope hm)
      have hpsiWanted := ih (Search.mem_preorder_iff.mpr ⟨r, hr, hscope, hm⟩) hpsi hpsiVersion
      have hop := hstep.1
      rw [h.operandVersions_eq hpsi hpsiVersion] at hop
      obtain ⟨op, hop, hopVersion⟩ := List.mem_filterMap.mp hop
      obtain ⟨-, hsource⟩ := h.operand_sound a psi hpsi op hop
      rcases hsource with hnone | ⟨u, -, hu, hedge, hleaving⟩
      · rw [hnone] at hopVersion
        cases hopVersion
      · have hforce := hleaving.symm.trans hopVersion
        rw [h.leaving_eq u hu, FlowGraph.eventsOf_eq_append] at hforce
        obtain ⟨hname, hwanted⟩ := h.wanted_of_in_force hphi hversion hu (List.append_nil _).symm
          hforce fun hfree => .pass hfree hedge hpsiWanted
        rw [hname]
        exact hwanted

/-- Behind the placeholders of a block, the version of each of them is in force. -/
theorem after_phis (h : Reaching g entering leaving) {b : Nat} {phi : Phi}
    (hphi : phi ∈ phisOf g b) (env : Env) :
    env.after ((phisOf g b).flatMap Phi.events) phi.var.name = phi.var.version := by
  have hdefines : Defines ((phisOf g b).flatMap Phi.events) phi.var.name :=
    ⟨phi.var, define_mem_phis.mpr ⟨phi, hphi, rfl⟩, rfl⟩
  rw [Env.after_eq]
  cases hlast : lastDefinition? phi.var.name ((phisOf g b).flatMap Phi.events) with
  | none => exact absurd hdefines (lastDefinition?_eq_none_iff.mp hlast)
  | some d =>
      obtain ⟨hmem, hname⟩ := mem_of_lastDefinition? hlast
      obtain ⟨psi, hpsi, rfl⟩ := define_mem_phis.mp hmem
      obtain rfl := List.inj_on_of_nodup_map (h.nodup_names b) hpsi hphi hname
      rfl

/-- **A version in force where its variable is wanted is live**, if it belongs to a placeholder.
The induction is along the path to the use. -/
theorem mem_liveVersions_of_wanted (h : Reaching g entering leaving) {c : Nat}
    (hwanted : g.Wanted x c) (hc : g.Reachable c)
    (hforce : (entering c).after ((phisOf g c).flatMap Phi.events) x = some n)
    (hn : n ∈ phiVersions g) : n ∈ liveVersions g := by
  induction hwanted generalizing n with
  | @use c pre post v hevents hname hfree =>
      refine mem_liveVersions_of_read (mem_readVersions.mpr ⟨c, v, ?_, ?_⟩) hn
      · rw [hevents]
        exact List.mem_append_right _ (List.mem_cons_self ..)
      · have hresolves := h.resolves c hc
        rw [FlowGraph.eventsOf_eq_append, hevents, ← List.append_assoc] at hresolves
        rw [hresolves.use, hname, Env.after_append, Env.after_of_not_defines hfree, hforce]
  | @pass c d hfree hedge _ ih =>
      have hleaving : leaving c x = some n := by
        rw [h.leaving_eq c hc, FlowGraph.eventsOf_eq_append, Env.after_append,
          Env.after_of_not_defines hfree, hforce]
      have hd := hc.step hedge
      by_cases hphi : ∃ phi ∈ phisOf g d, phi.var.name = x
      · -- The next placeholder on the way takes the version as an operand.
        obtain ⟨phi, hphi, rfl⟩ := hphi
        obtain ⟨m, hm⟩ := h.exists_version hphi
        have hlive : m ∈ liveVersions g :=
          ih hd ((h.after_phis hphi _).trans hm) (mem_phiVersions.mpr ⟨d, phi, hphi, hm⟩)
        refine mem_liveVersions_of_operand hlive ?_ hn
        rw [h.operandVersions_eq hphi hm]
        have hop := h.operand c d hc hedge phi hphi
        exact List.mem_filterMap.mpr ⟨_, List.mem_of_find?_eq_some hop, hleaving⟩
      · refine ih hd ?_ hn
        rw [Env.after_of_not_defines]
        · rw [← (h.edge c d hc hedge x).resolve_left hphi, hleaving]
        · rintro ⟨v, hv, hname⟩
          obtain ⟨phi, hmem, rfl⟩ := define_mem_phis.mp hv
          exact hphi ⟨phi, hmem, hname⟩

end Reaching

/-- If uses have no versions before construction, those that have one afterwards are in reachable
blocks. -/
theorem Rebuilt.reachable_of_read {g' : FlowGraph} {exits : Exits} (h : Rebuilt g g' exits)
    (huses : ∀ block ∈ g.blocks, ∀ v ∈ block.uses, v.version = none) {c : Nat} {v : Var}
    (hv : .use v ∈ g'.itemEventsOf c) (hversioned : v.isVersioned = true) : g'.Reachable c := by
  by_contra hc
  rw [h.sameOutline.reachable_iff] at hc
  rw [FlowGraph.itemEventsOf, h.unreachable c hc] at hv
  split at hv
  · rename_i block hblock
    have hnone := huses block (List.mem_of_getElem? hblock) v (use_mem_itemEvents.mp hv)
    rw [Var.isVersioned, hnone] at hversioned
    cases hversioned
  · simp at hv

/-- The placeholders that are left after pruning. -/
theorem phisOf_prune (g : FlowGraph) (b : Nat) :
    phisOf (prune g).1 b = (phisOf g b).filter (keeps (liveVersions g)) := by
  rw [phisOf, phisOf, prune, FlowGraph.block?_mapBlocks]
  cases g.block? b with
  | none => rfl
  | some block => rfl

end Ssa

end FlowForm
