import Mathlib
import FlowForm.Proofs.Graph.Ascending
import FlowForm.Proofs.Graph.Flow
import FlowForm.Proofs.Listing.RoundTrip
import FlowForm.Proofs.Pipeline.Staging
import FlowForm.Proofs.Ssa.Frame
import FlowForm.Proofs.Ssa.Supply

/-!
# When Runs Succeed

Of all errors that the steps of a run can report, three are left once the code comes from a listing:
there is no item at the entry, a jump leads to before the entry while such jumps are rejected, or
the versions give out (`outcome_of_parse`). Everything else is ruled out by what an earlier stage
guarantees.

* A parsed listing is well formed, so that its items from an entry on are in order, start at the
  entry, and jump to items of the listing (`Listing.WellFormed`).
* Items in order have a graph, which is consistent and not in single-assignment form.
* Construction has enough versions if the count says so, and like pruning it keeps the outline of
  the graph. Validity depends on nothing else (`FlowGraph.SameOutline.validate_eq`), so the
  check at the end goes through.

## Main results

* `Listing.WellFormed.mem_dangling_drop`: the jumps without a target are those to before the entry.
* `Decompiler.ends_ssa` and `Decompiler.ends_ssa_exhausted`: what becomes of a graph.
* `Decompiler.outcome_of_parse`: what becomes of a listing.
-/

namespace FlowForm

/-! ### Graphs on their way -/

namespace FlowGraph

variable {g : FlowGraph}

/-- A graph of items whose definitions have no versions is **not yet in single-assignment
form**. -/
theorem isInSsa_ofSorted {policy : UnresolvedTargets} {items : List Item}
    (h : ofSorted policy items = .ok g)
    (hdefs : ∀ item ∈ items, ∀ v ∈ item.defs, v.version = none) : Ssa.isInSsa g = false := by
  refine List.any_eq_false.mpr fun b hb => ?_
  obtain ⟨hphis, hitems⟩ := ofSorted_kept h hb
  rw [hphis, Bool.not_eq_true]
  refine List.any_eq_false.mpr fun v hv => ?_
  obtain ⟨item, hitem, hv⟩ := hitems v hv
  simp [Var.isVersioned, hdefs item hitem v hv]

end FlowGraph

/-! ### Listings from an entry on -/

/-- An item at or behind the entry **jumps below** it. -/
def Item.JumpsBelow (entry : Nat) (item : Item) (target : Nat) : Prop :=
  entry ≤ item.address ∧ item.flow.target? = some target ∧ target < entry

instance (entry : Nat) (item : Item) (target : Nat) : Decidable (item.JumpsBelow entry target) :=
  inferInstanceAs (Decidable (_ ∧ _ ∧ _))

/-- What a well-formed item jumps to and defines. -/
theorem Item.WellFormed.target_lt_and_unversioned {count : Nat} {item : Item}
    (h : item.WellFormed count) :
    (∀ target, item.flow.target? = some target → target < count) ∧
      ∀ v ∈ item.defs, v.version = none := by
  obtain ⟨s, ⟨-, hlabel⟩, hitem⟩ := Listing.wellFormed_item_iff.mp h
  rw [← hitem]
  cases s with
  | assign target value =>
      refine ⟨nofun, fun v hv => ?_⟩
      rw [List.mem_singleton.mp hv]
  | goto label | branch condition label =>
      refine ⟨fun target ht => ?_, nofun⟩
      cases ht
      exact hlabel _ rfl
  | ret value => exact ⟨nofun, nofun⟩

/-- A source without an item at the entry says so. -/
theorem Source.suffixAt_of_forall_ne {items : List Item} {entry : Nat}
    (h : ∀ item ∈ items, item.address ≠ entry) :
    suffixAt items entry = .error (.entryNotFound entry) := by
  have hdrop : items.dropWhile (·.address != entry) = [] :=
    List.dropWhile_eq_nil_iff.mpr fun item hitem => bne_iff_ne.mpr (h item hitem)
  rw [suffixAt, hdrop]

namespace Listing.WellFormed

variable {items : List Item} {entry : Nat}

/-- Items stand at their positions. -/
theorem address_eq (h : WellFormed items) {i : Nat} {item : Item} (hi : items[i]? = some item) :
    item.address = i :=
  (h (item, i) (List.mem_zipIdx_iff_getElem?.mpr hi)).1

/-- Items are well formed each for itself. -/
theorem wellFormed_item (h : WellFormed items) {item : Item} (hitem : item ∈ items) :
    item.WellFormed items.length := by
  obtain ⟨i, hi⟩ := List.getElem?_of_mem hitem
  exact (h (item, i) (List.mem_zipIdx_iff_getElem?.mpr hi)).2

/-- Items stand in ascending order. -/
theorem pairwise (h : WellFormed items) : items.Pairwise fun a b => a.address < b.address := by
  refine List.pairwise_iff_getElem.mpr fun i j hi hj hlt => ?_
  rw [h.address_eq (List.getElem?_eq_getElem hi), h.address_eq (List.getElem?_eq_getElem hj)]
  exact hlt

/-- There are items at the addresses below their number. -/
theorem exists_address_iff (h : WellFormed items) :
    (∃ item ∈ items, item.address = entry) ↔ entry < items.length := by
  constructor
  · rintro ⟨item, hitem, rfl⟩
    obtain ⟨i, hi⟩ := List.getElem?_of_mem hitem
    rw [h.address_eq hi]
    exact (List.getElem?_eq_some_iff.mp hi).1
  · intro hlt
    exact ⟨items[entry], List.getElem_mem hlt, h.address_eq (List.getElem?_eq_getElem hlt)⟩

/-- The items from an entry on are those that do not stand before it. -/
theorem mem_drop_iff (h : WellFormed items) {item : Item} :
    item ∈ items.drop entry ↔ item ∈ items ∧ entry ≤ item.address := by
  constructor
  · intro hmem
    obtain ⟨i, hi⟩ := List.getElem?_of_mem hmem
    rw [List.getElem?_drop] at hi
    exact ⟨List.mem_of_getElem? hi, by rw [h.address_eq hi]; omega⟩
  · rintro ⟨hmem, hle⟩
    obtain ⟨i, hi⟩ := List.getElem?_of_mem hmem
    rw [h.address_eq hi] at hle
    refine List.mem_of_getElem? (i := i - entry) ?_
    rw [List.getElem?_drop, Nat.add_sub_cancel' hle, hi]

/-- The source of a listing gives the items **from the entry on**. -/
theorem suffixAt_eq (h : WellFormed items) (hentry : entry < items.length) :
    Source.suffixAt items entry = .ok (items.drop entry) := by
  have hfront : ∀ item ∈ items.take entry, (item.address != entry) = true := by
    intro item hitem
    obtain ⟨i, hi⟩ := List.getElem?_of_mem hitem
    rw [List.getElem?_take] at hi
    split at hi
    · rename_i hlt
      rw [bne_iff_ne, h.address_eq hi]
      omega
    · cases hi
  have hfirst := h.address_eq (List.getElem?_eq_getElem hentry)
  have hdrop : items.dropWhile (·.address != entry) = items.drop entry := by
    rw [← List.take_append_drop entry items, List.dropWhile_append_of_pos hfront,
      List.take_append_drop, List.drop_eq_getElem_cons hentry, List.dropWhile_cons_of_neg]
    simp [hfirst]
  rw [Source.suffixAt, hdrop, List.drop_eq_getElem_cons hentry]

/-- From an entry on, the jumps without a target are **those to before the entry**. -/
theorem mem_dangling_drop (h : WellFormed items) {source target : Nat} :
    (source, target) ∈ FlowGraph.dangling (items.drop entry) ↔
      ∃ item ∈ items, item.address = source ∧ item.JumpsBelow entry target := by
  rw [FlowGraph.mem_dangling]
  constructor
  · rintro ⟨item, hmem, rfl, htarget, hnone⟩
    obtain ⟨hitem, hle⟩ := h.mem_drop_iff.mp hmem
    refine ⟨item, hitem, rfl, hle, htarget, ?_⟩
    -- Otherwise the target would be an item of the listing that does not stand before the entry.
    by_contra hge
    have hlt := (h.wellFormed_item hitem).target_lt_and_unversioned.1 target htarget
    obtain ⟨other, hother, rfl⟩ := h.exists_address_iff.mpr hlt
    exact hnone other (h.mem_drop_iff.mpr ⟨hother, Nat.le_of_not_lt hge⟩) rfl
  · rintro ⟨item, hitem, rfl, hle, htarget, hlt⟩
    refine ⟨item, h.mem_drop_iff.mpr ⟨hitem, hle⟩, rfl, htarget, fun other hother heq => ?_⟩
    have := (h.mem_drop_iff.mp hother).2
    omega

/-- The first jump without a target is the one of **the lowest item** that jumps below the
entry. -/
theorem exists_lowest (h : WellFormed items) {source target : Nat} {jumps : List (Nat × Nat)}
    (hjumps : FlowGraph.dangling (items.drop entry) = (source, target) :: jumps) :
    ∃ item ∈ items, item.address = source ∧ item.JumpsBelow entry target ∧
      ∀ other ∈ items, ∀ t, other.JumpsBelow entry t → item.address ≤ other.address := by
  have hfirst : (source, target) ∈ FlowGraph.dangling (items.drop entry) := by
    rw [hjumps]
    exact List.mem_cons_self ..
  obtain ⟨item, hitem, rfl, hbelow⟩ := h.mem_dangling_drop.mp hfirst
  refine ⟨item, hitem, rfl, hbelow, fun other hother t ht => ?_⟩
  have hmem := h.mem_dangling_drop.mpr ⟨other, hother, rfl, ht⟩
  have hpairwise := FlowGraph.pairwise_dangling (h.pairwise.drop (i := entry))
  rw [hjumps] at hmem hpairwise
  rcases List.mem_cons.mp hmem with heq | hlater
  · exact (Prod.mk.inj heq).1.ge
  · exact ((List.pairwise_cons.mp hpairwise).1 _ hlater).le

/-- The items of a listing from an entry on, which is an address of it, are in order. -/
theorem drop_ascending (h : WellFormed items) (hentry : entry < items.length) :
    items.drop entry ≠ [] ∧
      (items.drop entry).Pairwise fun a b => a.address < b.address :=
  ⟨by simpa using hentry, h.pairwise.drop⟩

/-- If jumps without a target are rejected and there are **jumps below the entry**, building reports
the one of the lowest item. -/
theorem exists_build_error (h : WellFormed items) (hentry : entry < items.length)
    (hbelow : ∃ item ∈ items, ∃ target, item.JumpsBelow entry target) :
    ∃ item ∈ items, ∃ target, item.JumpsBelow entry target ∧
      (∀ other ∈ items, ∀ t, other.JumpsBelow entry t → item.address ≤ other.address) ∧
      FlowGraph.build .reject (items.drop entry) =
        .error (.unresolvedTarget item.address target) := by
  obtain ⟨item, hitem, target, hbelow⟩ := hbelow
  obtain ⟨hne, hascending⟩ := h.drop_ascending hentry
  have hmem := h.mem_dangling_drop.mpr ⟨item, hitem, rfl, hbelow⟩
  obtain ⟨⟨source, target⟩, jumps, hdangling⟩ :=
    List.exists_cons_of_ne_nil (List.ne_nil_of_mem hmem)
  obtain ⟨item, hitem, rfl, hbelow, hlowest⟩ := h.exists_lowest hdangling
  exact ⟨item, hitem, target, hbelow, hlowest, FlowGraph.build_reject hne hascending hdangling⟩

/-- Otherwise the items from an entry on **have a graph**, to which construction can be applied. -/
theorem exists_graph (h : WellFormed items) (hentry : entry < items.length)
    {policy : UnresolvedTargets} (hnone : policy = .reject →
      ∀ item ∈ items, ∀ target, ¬ item.JumpsBelow entry target) :
    ∃ g, FlowGraph.build policy (items.drop entry) = .ok g ∧ (entry = 0 → g.unresolved = []) ∧
      g.Consistent ∧ Ssa.isInSsa g = false := by
  obtain ⟨hne, hascending⟩ := h.drop_ascending hentry
  have hdangling : (∀ item ∈ items, ∀ target, ¬ item.JumpsBelow entry target) →
      FlowGraph.dangling (items.drop entry) = [] := by
    intro hnone
    refine List.eq_nil_iff_forall_not_mem.mpr ?_
    rintro ⟨source, target⟩ hmem
    obtain ⟨item, hitem, -, hbelow⟩ := h.mem_dangling_drop.mp hmem
    exact hnone item hitem target hbelow
  obtain ⟨g, hbuild, hunresolved⟩ :=
    FlowGraph.exists_build hne hascending fun hreject => hdangling (hnone hreject)
  have hsorted := (FlowGraph.build_eq_ofSorted hne hascending).symm.trans hbuild
  refine ⟨g, hbuild, fun hzero => ?_, FlowGraph.consistent_ofSorted hsorted, ?_⟩
  · rw [hunresolved]
    refine hdangling fun item _ target hbelow => ?_
    have := hbelow.2.2
    omega
  · refine FlowGraph.isInSsa_ofSorted hsorted fun item hitem => ?_
    exact (h.wellFormed_item (h.mem_drop_iff.mp hitem).1).target_lt_and_unversioned.2

end Listing.WellFormed

/-! ### Runs -/

namespace Decompiler

variable (σ : Type) [Stopwatch (StateM σ)]

/-- A run through the built-in passes that has come to the state `r` **ends** with the given
answer, whatever the metrics and the clock. -/
def Ends (source : Source) (r : RunState) (answer : Except RunError Unit) : Prop :=
  ∀ (metrics : Metrics) (c : σ), ∃ w,
    RunsTo 4 ({ source, session := { state := r, metrics } }, c) (answer, w)

variable {σ} [LawfulStopwatch σ] {source : Source} {r : RunState} {pass : Pass} {g : FlowGraph}

/-- A pass starts in the state to which the run has come. -/
theorem sessionBefore_eq (hcounter : r.nextStep = 0 → r.counter = Counter.fresh)
    (metrics : Metrics) :
    sessionBefore { source, session := { state := r, metrics } } = ⟨r, metrics⟩ := by
  rw [sessionBefore]
  split
  · rename_i hzero
    rw [← hcounter hzero]
  · rfl

/-- What **the next pass** makes of a run. -/
theorem perform_next (hpass : (Pass.builtIn source)[r.nextStep]? = some pass)
    (hcounter : r.nextStep = 0 → r.counter = Counter.fresh) (metrics : Metrics) (c : σ) :
    ∃ nanos c', perform runStep ({ source, session := { state := r, metrics } }, c) =
      match pass.run.run.run ⟨r, metrics⟩ with
      | (.ok (), session) =>
        (.ok (), { source, session := sessionAfter session pass.name nanos }, c')
      | (.error cause, session) =>
        (.error (.stepFailed pass.name cause),
          { source, session, failed := some pass.name }, c') := by
  obtain ⟨nanos, c', hstep⟩ :=
    perform_runStep { source, session := { state := r, metrics } } c
  refine ⟨nanos, c', ?_⟩
  have hnext : ({ source, session := { state := r, metrics } } : Decompiler).passes[
    r.nextStep]? = some pass := hpass
  rw [hstep, stepped, sessionBefore_eq hcounter metrics]
  simp only [state, hnext]
  rcases pass.run.run.run ⟨r, metrics⟩ with ⟨_ | _, session⟩
  · rfl
  · rfl

/-- If the next pass **succeeds**, the run goes on from the state that it leaves. -/
theorem Ends.of_ok {r' : RunState} {answer : Except RunError Unit}
    (hpass : (Pass.builtIn source)[r.nextStep]? = some pass)
    (hrun : ∀ metrics, ∃ metrics', pass.run.run.run ⟨r, metrics⟩ = (.ok (), ⟨r', metrics'⟩))
    (hcounter : r.nextStep = 0 → r.counter = Counter.fresh)
    (hrest : Ends σ source { r' with
      completed := r'.completed ++ [pass.name], nextStep := r'.nextStep + 1 } answer) :
    Ends σ source r answer := by
  intro metrics c
  obtain ⟨nanos, c', hstep⟩ := perform_next hpass hcounter metrics c
  obtain ⟨metrics', hrun⟩ := hrun metrics
  rw [hrun] at hstep
  obtain ⟨w, hruns⟩ := hrest (metrics'.recordStep pass.name nanos) c'
  exact ⟨w, .step (List.getElem?_eq_some_iff.mp hpass).1 hstep hruns⟩

/-- If the next pass **fails**, so does the run. -/
theorem Ends.of_error {cause : RunError}
    (hpass : (Pass.builtIn source)[r.nextStep]? = some pass)
    (hrun : ∀ metrics, pass.run.run.run ⟨r, metrics⟩ = (.error cause, ⟨r, metrics⟩))
    (hcounter : r.nextStep = 0 → r.counter = Counter.fresh) :
    Ends σ source r (.error (.stepFailed pass.name cause)) := by
  intro metrics c
  obtain ⟨nanos, c', hstep⟩ := perform_next hpass hcounter metrics c
  rw [hrun] at hstep
  exact ⟨_, .fail (List.getElem?_eq_some_iff.mp hpass).1 hstep⟩

/-- The flow graph can be asked for if it is there. -/
theorem flowGraph_eq_ok (hflow : r.flow = some g) : r.flowGraph = .ok g := by
  rw [RunState.flowGraph, hflow]

/-- **The last step** goes through with a valid graph. -/
theorem ends_finalize (hnext : r.nextStep = 3) (hflow : r.flow = some g)
    (hvalid : g.validate = .ok ()) : Ends σ source r (.ok ()) := by
  have hpass : (Pass.builtIn source)[r.nextStep]? = some Pass.finalize := by rw [hnext]; rfl
  have hrun : ∀ metrics, ∃ metrics',
      Pass.finalize.run.run.run ⟨r, metrics⟩ = (.ok (), ⟨r, metrics'⟩) := by
    intro metrics
    simp only [Pass.runState_finalize, flowGraph_eq_ok hflow, hvalid]
    exact ⟨_, rfl⟩
  refine .of_ok hpass hrun (by omega) fun metrics c => ⟨_, .done ?_⟩
  exact Nat.succ_le_succ hnext.ge

/-- **Pruning** goes through, and leaves a valid graph for the last step. -/
theorem ends_pruned {stats : Ssa.Stats} (hnext : r.nextStep = 2) (hflow : r.flow = some g)
    (hstats : r.stats = some stats) (hvalid : g.validate = .ok ()) :
    Ends σ source r (.ok ()) := by
  have hpass : (Pass.builtIn source)[r.nextStep]? = some Pass.pruned := by rw [hnext]; rfl
  have hrun : ∀ metrics, Pass.pruned.run.run.run ⟨r, metrics⟩ = (.ok (), ⟨{ r with
      flow := some (if r.config.prunePhis then Ssa.prune g else (g, 0)).1,
      prunedPhis := some (if r.config.prunePhis then Ssa.prune g else (g, 0)).2 }, metrics⟩) := by
    intro metrics
    simp only [Pass.runState_pruned, hstats, flowGraph_eq_ok hflow]
  have hpruned : (if r.config.prunePhis then Ssa.prune g else (g, 0)).1.validate = .ok () := by
    split
    · exact (FlowGraph.sameOutline_prune g).validate_eq.trans hvalid
    · exact hvalid
  refine .of_ok hpass (fun metrics => ⟨metrics, hrun metrics⟩) (by omega) ?_
  exact ends_finalize (by simp only [hnext]) rfl hpruned

/-- **Construction** goes through if there are enough versions, and so does the rest of the run. -/
theorem ends_ssa (hnext : r.nextStep = 1) (hflow : r.flow = some g) (hg : g.Consistent)
    (hssa : Ssa.isInSsa g = false) (henough : Ssa.versionsNeeded g ≤ r.counter.remaining) :
    Ends σ source r (.ok ()) := by
  have hpass : (Pass.builtIn source)[r.nextStep]? = some Pass.ssa := by rw [hnext]; rfl
  obtain ⟨result, -, hresult, -⟩ := Ssa.exists_construct hg.validate hssa henough
  obtain ⟨exits, hrebuilt⟩ := Ssa.rebuilt_construct hresult
  have hrun := fun metrics => Pass.runState_ssa ⟨r, metrics⟩
  simp only [flowGraph_eq_ok hflow, hresult] at hrun
  refine .of_ok hpass (fun metrics => ⟨metrics, hrun metrics⟩) (by omega) ?_
  exact ends_pruned (by simp only [hnext]) rfl rfl
    (hrebuilt.sameOutline.validate_eq.trans hg.validate)

/-- Construction **fails** if there are not enough versions. -/
theorem ends_ssa_exhausted (hnext : r.nextStep = 1) (hflow : r.flow = some g)
    (hg : g.Consistent) (hssa : Ssa.isInSsa g = false)
    (hless : r.counter.remaining < Ssa.versionsNeeded g) :
    Ends σ source r (.error (.stepFailed Step.ssa (.ssa .versionsExhausted))) := by
  have hpass : (Pass.builtIn source)[r.nextStep]? = some Pass.ssa := by rw [hnext]; rfl
  have hresult := Ssa.construct_eq_versionsExhausted hg.validate hssa hless
  have hrun := fun metrics => Pass.runState_ssa ⟨r, metrics⟩
  simp only [flowGraph_eq_ok hflow, hresult] at hrun
  exact .of_error hpass hrun (by omega)

/-- What a run **answers** is what it ends with. -/
theorem Ends.answer_eq {entry : Nat} {config : Config} {answer : Except RunError Unit}
    (h : Ends σ source { entry, config } answer) (metrics : Metrics) (c : σ) :
    (perform runToCompletion (start source entry config metrics, c)).1 = answer := by
  obtain ⟨w, hruns⟩ := h metrics c
  have hsteady : (start source entry config metrics).Steady := fun p hp =>
    (Pass.tidy_of_mem_builtIn ((mem_passes.mp hp).resolve_right List.not_mem_nil)).keepsProgress
  have hlimit : Request.completion.limit? (start source entry config metrics) = some 4 := rfl
  have hserve := runsTo_serve (w := (start source entry config metrics, c)) hsteady rfl hlimit
  exact congrArg Prod.fst (hserve.unique hruns)

/-! ### The first step -/

variable {items : List Item} {entry : Nat} {config : Config}

/-- The first step fails if the source has **no items** to give. -/
theorem ends_of_itemsFrom_error {e : ListingError} (hitems : source.itemsFrom entry = .error e) :
    Ends σ source { entry, config } (.error (.stepFailed Step.basicBlocks (.listing e))) := by
  have hpass : (Pass.builtIn source)[0]? = some (Pass.basicBlocks source) := rfl
  have hrun := fun metrics => Pass.runState_basicBlocks source ⟨{ entry, config }, metrics⟩
  simp only [hitems] at hrun
  exact .of_error hpass hrun fun _ => rfl

/-- The first step fails if the items have **no graph**. -/
theorem ends_of_build_error {e : GraphError} (hitems : source.itemsFrom entry = .ok items)
    (hbuild : FlowGraph.build config.unresolvedTargets items = .error e) :
    Ends σ source { entry, config } (.error (.stepFailed Step.basicBlocks (.graph e))) := by
  have hpass : (Pass.builtIn source)[0]? = some (Pass.basicBlocks source) := rfl
  have hrun := fun metrics => Pass.runState_basicBlocks source ⟨{ entry, config }, metrics⟩
  simp only [hitems, hbuild] at hrun
  exact .of_error hpass hrun fun _ => rfl

/-- Otherwise the run goes on with **the graph** of the items. -/
theorem ends_of_build {answer : Except RunError Unit} (hitems : source.itemsFrom entry = .ok items)
    (hbuild : FlowGraph.build config.unresolvedTargets items = .ok g)
    (hrest : Ends σ source
      { entry, config, flow := some g, completed := [Step.basicBlocks], nextStep := 1 } answer) :
    Ends σ source { entry, config } answer := by
  have hpass : (Pass.builtIn source)[0]? = some (Pass.basicBlocks source) := rfl
  have hrun := fun metrics => Pass.runState_basicBlocks source ⟨{ entry, config }, metrics⟩
  simp only [hitems, hbuild] at hrun
  exact .of_ok hpass (fun metrics => ⟨metrics, hrun metrics⟩) (fun _ => rfl) hrest

/-! ### Runs over listings -/

/-- **The outcome of a run over a listing**, on any clock. If no item stands at the entry, the first
step says so. Otherwise, if jumps without a target are rejected and some item at or behind the entry
jumps below it, the first step reports the lowest of these items. Otherwise the items from the entry
on have a graph, in which every jump has its edge if the entry is the start of the listing. If the
definitions in its reachable blocks and the placeholders to be placed are more than there are
versions, the second step says so, and in all other cases the run comes through. -/
theorem outcome_of_parse {text : String} (h : Listing.parse text = .ok items) (entry : Nat)
    (config : Config) (metrics : Metrics) (c : σ) :
    let outcome :=
      (perform runToCompletion (start (Source.ofItems items) entry config metrics, c)).1
    (∀ item ∈ items, item.address ≠ entry) ∧
      outcome = .error (.stepFailed Step.basicBlocks (.listing (.entryNotFound entry))) ∨
    (∃ item ∈ items, item.address = entry) ∧
      ((config.unresolvedTargets = .reject ∧ ∃ item ∈ items, ∃ target,
          item.JumpsBelow entry target ∧
          (∀ other ∈ items, ∀ t, other.JumpsBelow entry t → item.address ≤ other.address) ∧
          outcome = .error (.stepFailed Step.basicBlocks
            (.graph (.unresolvedTarget item.address target)))) ∨
        (config.unresolvedTargets = .reject →
          ∀ item ∈ items, ∀ target, ¬ item.JumpsBelow entry target) ∧
        ∃ g, FlowGraph.build config.unresolvedTargets (items.drop entry) = .ok g ∧
          (entry = 0 → g.unresolved = []) ∧
          (maxVersion < Ssa.versionsNeeded g ∧
              outcome = .error (.stepFailed Step.ssa (.ssa .versionsExhausted)) ∨
            Ssa.versionsNeeded g ≤ maxVersion ∧ outcome = .ok ())) := by
  intro outcome
  have hlisting := Listing.wellFormed_of_parse h
  by_cases hentry : ∃ item ∈ items, item.address = entry
  case neg =>
    have hmissing : ∀ item ∈ items, item.address ≠ entry := by simpa using hentry
    have hitems : (Source.ofItems items).itemsFrom entry = .error (.entryNotFound entry) :=
      Source.suffixAt_of_forall_ne hmissing
    exact .inl ⟨hmissing, (ends_of_itemsFrom_error hitems).answer_eq metrics c⟩
  refine .inr ⟨hentry, ?_⟩
  have hlt := hlisting.exists_address_iff.mp hentry
  have hitems : (Source.ofItems items).itemsFrom entry = .ok (items.drop entry) :=
    hlisting.suffixAt_eq hlt
  by_cases hjumps : config.unresolvedTargets = .reject ∧
      ∃ item ∈ items, ∃ target, item.JumpsBelow entry target
  · obtain ⟨hreject, hbelow⟩ := hjumps
    obtain ⟨item, hitem, target, hbelow, hlowest, hbuild⟩ := hlisting.exists_build_error hlt hbelow
    rw [← hreject] at hbuild
    exact .inl ⟨hreject, item, hitem, target, hbelow, hlowest,
      (ends_of_build_error hitems hbuild).answer_eq metrics c⟩
  · have hnone : config.unresolvedTargets = .reject →
        ∀ item ∈ items, ∀ target, ¬ item.JumpsBelow entry target :=
      fun hreject item hitem target hbelow => hjumps ⟨hreject, item, hitem, target, hbelow⟩
    obtain ⟨g, hbuild, hunresolved, hg, hssa⟩ := hlisting.exists_graph hlt hnone
    refine .inr ⟨hnone, g, hbuild, hunresolved, ?_⟩
    rcases Nat.lt_or_ge maxVersion (Ssa.versionsNeeded g) with hless | henough
    · exact .inl ⟨hless, (ends_of_build hitems hbuild
        (ends_ssa_exhausted rfl rfl hg hssa hless)).answer_eq metrics c⟩
    · exact .inr ⟨henough, (ends_of_build hitems hbuild
        (ends_ssa rfl rfl hg hssa henough)).answer_eq metrics c⟩

/-- The branch of the listing below. -/
def windingBranch : Item :=
  { address := 2, terminator := .branch (.var ⟨"y", none⟩) 0 }

/-- A listing with two jumps back, of which the first goes further. -/
def winding : List Item := [
  { address := 0, statements := [⟨⟨"x", none⟩, .imm 1⟩] },
  { address := 1, statements := [⟨⟨"y", none⟩, .var ⟨"x", none⟩⟩] },
  windingBranch,
  { address := 3, terminator := .jump 1 }]

/-- From its start the listing comes through, with both jumps among the edges of its graph. From its
branch on it jumps below the entry, and behind its end there is no entry. -/
theorem outcome_of_parse_winding :
    let text := "0: x = 1;\n1: y = x;\n2: if (y) goto 0;\n3: goto 1;\n"
    let outcome := fun entry =>
      (perform runToCompletion (start (Source.ofItems winding) entry, Ticks.mk 0)).1
    Listing.parse text = .ok winding ∧
    (∃ g, FlowGraph.build .reject winding = .ok g ∧ g.blocks.map (·.address) = [0, 1, 3] ∧
      g.blocks.map (·.succs) = [[1], [0, 2], [1]] ∧ g.blocks.map (·.preds) = [[1], [0, 2], [1]]) ∧
    outcome 0 = .ok () ∧
    outcome 2 = .error (.stepFailed Step.basicBlocks (.graph (.unresolvedTarget 2 0))) ∧
    outcome 4 = .error (.stepFailed Step.basicBlocks (.listing (.entryNotFound 4))) := by
  intro text outcome
  have htext : Listing.print winding = text := by decide +kernel
  have h : Listing.parse text = .ok winding := htext ▸ Listing.parse_print (by decide) (by decide)
  have hall := fun entry => outcome_of_parse h entry {} {} (Ticks.mk 0)
  -- The first outcome comes with the graph that has been built.
  rcases hall 0 with ⟨hmissing, -⟩ | ⟨-, ⟨-, item, -, target, hbelow, -⟩ | ⟨-, g, hg, -, hend⟩⟩
  · exact absurd hmissing (by decide)
  · exact absurd hbelow.2.2 (Nat.not_lt_zero target)
  have hbuild : FlowGraph.build .reject winding = .ok g := hg
  have heval : (FlowGraph.build .reject winding).map (fun g => (Ssa.versionsNeeded g,
      g.blocks.map (·.address), g.blocks.map (·.succs), g.blocks.map (·.preds))) =
        .ok (5, [0, 1, 3], [[1], [0, 2], [1]], [[1], [0, 2], [1]]) := by decide_cbv
  rw [hbuild] at heval
  obtain ⟨hneeded, hgraph⟩ := Prod.mk.inj (Except.ok.inj heval)
  obtain ⟨haddresses, hedges⟩ := Prod.mk.inj hgraph
  refine ⟨h, ⟨g, hbuild, haddresses, Prod.mk.inj hedges⟩, ?_, ?_, ?_⟩
  · rcases hend with ⟨hless, -⟩ | ⟨-, hok⟩
    · rw [hneeded] at hless
      exact absurd hless (by decide)
    · exact hok
  · have hbranch : windingBranch ∈ winding ∧ windingBranch.JumpsBelow 2 0 := by decide
    have honly : ∀ item ∈ winding, item.address = 2 → item = windingBranch := by decide
    rcases hall 2 with
      ⟨hmissing, -⟩ | ⟨-, ⟨-, item, hitem, target, hbelow, hlowest, herror⟩ | ⟨hnone, -⟩⟩
    · exact absurd hmissing (by decide)
    · have hle := hlowest windingBranch hbranch.1 0 hbranch.2
      obtain rfl := honly item hitem (Nat.le_antisymm hle hbelow.1)
      cases hbelow.2.1
      exact herror
    · exact absurd hbranch.2 (hnone rfl windingBranch hbranch.1 0)
  · rcases hall 4 with ⟨-, herror⟩ | ⟨hentry, -⟩
    · exact herror
    · exact absurd hentry (by decide)

end Decompiler

end FlowForm
