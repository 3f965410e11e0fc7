import Mathlib
import FlowForm.Proofs.Graph.Ascending
import FlowForm.Proofs.Pipeline.Staging
import FlowForm.Proofs.Ssa.Pruning

/-!
# What a Pass Takes for Granted

The built-in passes can be applied to a session in any order and any number of times, from whatever
sources, and some of them fail. Pruning is meant for a graph that construction has brought into
single-assignment form. It goes by the statistics of construction, which are there once construction
has succeeded, and which a new graph **does not take away**: building one replaces the graph and
nothing else.

So pruning succeeds if and only if construction has ever succeeded, not if and only if it has
succeeded since the graph was built. The two differ where the graph has been built anew after
construction (`Stale`). There the graph has no placeholders, and pruning reports that it has dropped
none of them.

What the session is like follows from the **attempts** made on it, by an invariant (`Describes`)
that each pass keeps (`Describes.after_pass`), whether it succeeds or fails.

## Main results

* `Describes.after_passes`: the session by the attempts made on it.
* `pruned_succeeds_iff`: when pruning succeeds, what it works on, and where this is not what it is
  meant for.
* `pruned_succeeds_rebuilt`: a graph that construction has not seen is pruned.
-/

namespace FlowForm

/-! ### Graphs that have been built -/

/-- A graph that has just been built has **no placeholders**. -/
theorem FlowGraph.allPhis_build {policy : UnresolvedTargets} {items : List Item} {g : FlowGraph}
    (h : build policy items = .ok g) : Ssa.allPhis g = [] := by
  cases items with
  | nil => cases h
  | cons first rest =>
      rw [build] at h
      split at h
      · exact List.flatMap_eq_nil_iff.mpr fun b hb => (ofSorted_kept h hb).1
      · cases h

/-- Pruning a graph without placeholders drops nothing. -/
theorem Ssa.prune_eq_of_allPhis {g : FlowGraph} (h : allPhis g = []) : prune g = (g, 0) :=
  prune_eq_of_keeps fun phi hphi => by simp [h] at hphi

/-! ### Attempts -/

/-- The **built-in passes**, the first of them with a source of its own. -/
inductive BuiltIn where
  | basicBlocks (source : Source)
  | ssa
  | pruned
  | finalize

/-- The pass itself. -/
def BuiltIn.pass : BuiltIn → Pass
  | basicBlocks source => .basicBlocks source
  | ssa => .ssa
  | pruned => .pruned
  | finalize => .finalize

/-- An **attempt** to apply a pass. -/
structure Attempt where
  pass : BuiltIn
  succeeded : Bool

/-- Applies a pass. -/
def Session.apply (s : Session) (p : BuiltIn) : Except RunError Unit × Session :=
  p.pass.run.run.run s

/-- What passes applied one after the other leave behind, and the attempts that this has taken. -/
def Session.applyAll (s : Session) : List BuiltIn → Session × List Attempt
  | [] => (s, [])
  | p :: ps =>
    let (outcome, next) := s.apply p
    let (last, attempts) := next.applyAll ps
    (last, ⟨p, outcome.isOk⟩ :: attempts)

/-- Construction **has succeeded**. -/
def Constructed (attempts : List Attempt) : Prop :=
  ⟨.ssa, true⟩ ∈ attempts

/-- Construction has succeeded **since** a graph was last built. -/
def Current (attempts : List Attempt) : Prop :=
  ∃ earlier later, attempts = earlier ++ ⟨.ssa, true⟩ :: later ∧
    ∀ source, ⟨.basicBlocks source, true⟩ ∉ later

/-- A graph **has been built anew** since construction has last succeeded. -/
def Stale (attempts : List Attempt) : Prop :=
  ∃ earlier later source, attempts = earlier ++ ⟨.basicBlocks source, true⟩ :: later ∧
    Constructed earlier ∧ ¬ Constructed later

section Attempts

variable {attempts : List Attempt} {a : Attempt}

/-- An attempt among those made and one more is the last one, or one of those before it. -/
theorem concat_eq_append_cons {earlier later : List Attempt} {b : Attempt}
    (h : attempts ++ [a] = earlier ++ b :: later) :
    later = [] ∧ attempts = earlier ∧ a = b ∨
      ∃ before, later = before ++ [a] ∧ attempts = earlier ++ b :: before := by
  rcases List.eq_nil_or_concat later with rfl | ⟨before, last, rfl⟩
  · obtain ⟨hinit, hlast⟩ := List.append_inj' h rfl
    exact .inl ⟨rfl, hinit, List.singleton_inj.mp hlast⟩
  · rw [List.concat_eq_append, ← List.cons_append, ← List.append_assoc] at h
    obtain ⟨hinit, hlast⟩ := List.append_inj' h rfl
    rw [List.concat_eq_append, ← List.singleton_inj.mp hlast]
    exact .inr ⟨before, rfl, hinit⟩

/-- Whether construction has succeeded, after one more attempt. -/
theorem constructed_concat :
    Constructed (attempts ++ [a]) ↔ Constructed attempts ∨ a = ⟨.ssa, true⟩ := by
  rw [Constructed, List.mem_append, List.mem_singleton, Constructed, @eq_comm _ a]

/-- Whether construction has succeeded since a graph was built, after one more attempt. -/
theorem current_concat : Current (attempts ++ [a]) ↔
    a = ⟨.ssa, true⟩ ∨ Current attempts ∧ ∀ source, a ≠ ⟨.basicBlocks source, true⟩ := by
  constructor
  · rintro ⟨earlier, later, heq, hnone⟩
    rcases concat_eq_append_cons heq with ⟨-, -, hlast⟩ | ⟨before, rfl, hattempts⟩
    · exact .inl hlast
    · refine .inr ⟨⟨earlier, before, hattempts, fun source hmem => ?_⟩, fun source hlast => ?_⟩
      · exact hnone source (List.mem_append_left _ hmem)
      · exact hnone source (List.mem_append_right _ (List.mem_singleton.mpr hlast.symm))
  · rintro (rfl | ⟨⟨earlier, later, rfl, hnone⟩, hne⟩)
    · exact ⟨attempts, [], rfl, fun _ => List.not_mem_nil⟩
    · refine ⟨earlier, later ++ [a], by simp, fun source hmem => ?_⟩
      rcases List.mem_append.mp hmem with hmem | hmem
      · exact hnone source hmem
      · exact hne source (List.mem_singleton.mp hmem).symm

/-- Whether a graph has been built anew since construction, after one more attempt. -/
theorem stale_concat : Stale (attempts ++ [a]) ↔
    (Constructed attempts ∧ ∃ source, a = ⟨.basicBlocks source, true⟩) ∨
      Stale attempts ∧ a ≠ ⟨.ssa, true⟩ := by
  constructor
  · rintro ⟨earlier, later, source, heq, hconstructed, hnone⟩
    rcases concat_eq_append_cons heq with ⟨-, rfl, hlast⟩ | ⟨before, rfl, hattempts⟩
    · exact .inl ⟨hconstructed, source, hlast⟩
    · rw [constructed_concat, not_or] at hnone
      exact .inr ⟨⟨earlier, before, source, hattempts, hconstructed, hnone.1⟩, hnone.2⟩
  · rintro (⟨hconstructed, source, rfl⟩ | ⟨⟨earlier, later, source, rfl, hconstructed, hnone⟩, hne⟩)
    · exact ⟨attempts, [], source, rfl, hconstructed, List.not_mem_nil⟩
    · refine ⟨earlier, later ++ [a], source, by simp, hconstructed, ?_⟩
      rw [constructed_concat, not_or]
      exact ⟨hnone, hne⟩

/-- **A graph has been built anew** if and only if construction has succeeded, and not since a graph
was last built. -/
theorem stale_iff (attempts : List Attempt) :
    Stale attempts ↔ Constructed attempts ∧ ¬ Current attempts := by
  induction attempts using List.reverseRecOn with
  | nil =>
      constructor
      · rintro ⟨earlier, later, source, heq, -⟩
        simp at heq
      · rintro ⟨hconstructed, -⟩
        cases hconstructed
  | append_singleton attempts a ih =>
      rw [stale_concat, constructed_concat, current_concat, ih]
      by_cases hssa : a = ⟨.ssa, true⟩
      · simp [hssa]
      · by_cases hblocks : ∃ source, a = ⟨.basicBlocks source, true⟩
        · simp [hssa, hblocks]
          tauto
        · push Not at hblocks
          simp [hssa, hblocks]

end Attempts

/-! ### What attempts say about a session -/

/-- The passes do what built-in passes do. -/
theorem BuiltIn.tidy (p : BuiltIn) : p.pass.Tidy := by
  obtain ⟨source, hmem⟩ : ∃ source, p.pass ∈ Pass.builtIn source := by
    cases p with
    | basicBlocks source => exact ⟨source, by simp [pass, Pass.builtIn]⟩
    | ssa | pruned | finalize => exact ⟨.ofItems [], by simp [pass, Pass.builtIn]⟩
  exact Pass.tidy_of_mem_builtIn hmem

/-- A graph that construction has made, **pruned or not**. -/
def Rewritten (g : FlowGraph) : Prop :=
  ∃ before counter result, Ssa.construct before counter = .ok result ∧
    (g = result.graph ∨ g = (Ssa.prune result.graph).1)

/-- Pruning a graph that construction has made leaves one, pruned or not. -/
theorem Rewritten.prune {g : FlowGraph} (h : Rewritten g) : Rewritten (Ssa.prune g).1 := by
  obtain ⟨before, counter, result, hresult, rfl | rfl⟩ := h
  · exact ⟨before, counter, result, hresult, .inr rfl⟩
  · refine ⟨before, counter, result, hresult, .inr ?_⟩
    rw [Ssa.prune_prune (Ssa.distinct_construct hresult)]

/-- A graph **as it has been built**. -/
def Built (g : FlowGraph) : Prop :=
  ∃ policy items, FlowGraph.build policy items = .ok g

/-- Attempts **describe** a session if there are statistics once construction has succeeded, and the
graph is what the last success of building or of construction has left behind. -/
structure Describes (attempts : List Attempt) (s : Session) : Prop where
  stats_iff : s.state.stats.isSome = true ↔ Constructed attempts
  flow_isSome : Constructed attempts → s.state.flow.isSome = true
  rewritten : Current attempts → ∀ g, s.state.flow = some g → Rewritten g
  built : ¬ Current attempts → ∀ g, s.state.flow = some g → Built g

/-- Nothing has been attempted on a new session. -/
theorem describes_nil (entry : Nat) (config : Config) (metrics : Metrics) :
    Describes [] ⟨{ entry, config }, metrics⟩ where
  stats_iff := ⟨fun h => (by cases h), fun h => (by cases h)⟩
  flow_isSome := fun h => by cases h
  rewritten := fun _ _ h => by cases h
  built := fun _ _ h => by cases h

namespace Describes

variable {attempts : List Attempt} {s s' : Session}

/-- An attempt that neither builds a graph nor constructs one is of no account. -/
theorem concat {a : Attempt} (h : Describes attempts s) (hssa : a ≠ ⟨.ssa, true⟩)
    (hblocks : ∀ source, a ≠ ⟨.basicBlocks source, true⟩) : Describes (attempts ++ [a]) s := by
  have hconstructed : Constructed (attempts ++ [a]) ↔ Constructed attempts := by
    simp [constructed_concat, hssa]
  have hcurrent : Current (attempts ++ [a]) ↔ Current attempts := by
    simp [current_concat, hssa, hblocks]
  constructor
  · rw [hconstructed]
    exact h.stats_iff
  · rw [hconstructed]
    exact h.flow_isSome
  · rw [hcurrent]
    exact h.rewritten
  · rw [hcurrent]
    exact h.built

/-- **Building** a graph is noted, and leaves the statistics alone. -/
theorem after_basicBlocks {source : Source} (h : Describes attempts s)
    (hrun : s.apply (.basicBlocks source) = (.ok (), s')) :
    Describes (attempts ++ [⟨.basicBlocks source, true⟩]) s' := by
  obtain ⟨items, g, -, hg, rfl⟩ := Pass.run_basicBlocks hrun
  have hcurrent : ¬ Current (attempts ++ [⟨.basicBlocks source, true⟩]) := by
    simp [current_concat]
  refine ⟨?_, fun _ => rfl, fun hnow => absurd hnow hcurrent, fun _ g' hg' => ?_⟩
  · simpa [constructed_concat] using h.stats_iff
  · cases hg'
    exact ⟨_, items, hg⟩

/-- **Construction** is noted with its statistics. -/
theorem after_ssa (hrun : s.apply .ssa = (.ok (), s')) :
    Describes (attempts ++ [⟨.ssa, true⟩]) s' := by
  obtain ⟨g, result, -, hresult, rfl⟩ := Pass.run_ssa hrun
  refine ⟨?_, fun _ => rfl, fun _ g' hg' => ?_, fun hnow => ?_⟩
  · simp [constructed_concat]
  · cases hg'
    exact ⟨g, _, result, hresult, .inl rfl⟩
  · exact absurd (current_concat.mpr (.inl rfl)) hnow

/-- **Pruning** leaves a graph that construction has made, if it was one, and else the graph as it
was. -/
theorem after_pruned (h : Describes attempts s) (hrun : s.apply .pruned = (.ok (), s')) :
    Describes attempts s' := by
  obtain ⟨g, dropped, hflow, rfl⟩ := Pass.run_pruned hrun
  refine ⟨h.stats_iff, fun _ => rfl, fun hcurrent g' hg' => ?_, fun hcurrent g' hg' => ?_⟩
  · cases hg'
    have hbefore := h.rewritten hcurrent g hflow
    split
    · exact hbefore.prune
    · exact hbefore
  · cases hg'
    obtain ⟨policy, items, hg⟩ := h.built hcurrent g hflow
    rw [Ssa.prune_eq_of_allPhis (FlowGraph.allPhis_build hg), ite_self]
    exact ⟨policy, items, hg⟩

/-- **A pass** is noted, whether it succeeds or fails. -/
theorem after_pass (h : Describes attempts s) (p : BuiltIn) :
    Describes (attempts ++ [⟨p, (s.apply p).1.isOk⟩]) (s.apply p).2 := by
  rcases hrun : s.apply p with ⟨cause | _, next⟩
  · obtain rfl := p.tidy.failsCleanly _ _ _ hrun
    exact h.concat (by simp [Except.isOk, Except.toBool]) (by simp [Except.isOk, Except.toBool])
  · cases p with
    | basicBlocks source => exact h.after_basicBlocks hrun
    | ssa => exact after_ssa hrun
    | pruned => exact (h.after_pruned hrun).concat (by simp) (by simp)
    | finalize =>
        obtain ⟨g, -, -, hstate⟩ := Pass.run_finalize hrun
        have hsame : Describes attempts next :=
          ⟨hstate ▸ h.stats_iff, hstate ▸ h.flow_isSome, hstate ▸ h.rewritten, hstate ▸ h.built⟩
        exact hsame.concat (by simp) (by simp)

/-- **Attempts describe the session** that they leave behind. -/
theorem after_passes (h : Describes attempts s) (ps : List BuiltIn) :
    Describes (attempts ++ (s.applyAll ps).2) (s.applyAll ps).1 := by
  induction ps generalizing attempts s with
  | nil =>
      rw [Session.applyAll, List.append_nil]
      exact h
  | cons p ps ih =>
      have hrest := ih (h.after_pass p)
      rw [List.append_assoc] at hrest
      exact hrest

/-- **Pruning fails** where construction has not succeeded. -/
theorem apply_pruned_of_not_constructed (h : Describes attempts s)
    (hnone : ¬ Constructed attempts) :
    s.apply .pruned = (.error (.stepNotReached Step.ssa), s) := by
  have hstats : s.state.stats = none := Option.not_isSome_iff_eq_none.mp (mt h.stats_iff.mp hnone)
  rw [Session.apply, BuiltIn.pass, Pass.runState_pruned, hstats]

/-- **Pruning succeeds** where construction has succeeded. -/
theorem apply_pruned_of_constructed (h : Describes attempts s) (hssa : Constructed attempts) :
    ∃ g, s.state.flow = some g ∧ s.apply .pruned = (.ok (), { s with
      state.flow := some (if s.state.config.prunePhis then Ssa.prune g else (g, 0)).1,
      state.prunedPhis := some (if s.state.config.prunePhis then Ssa.prune g else (g, 0)).2 }) := by
  obtain ⟨stats, hstats⟩ := Option.isSome_iff_exists.mp (h.stats_iff.mpr hssa)
  obtain ⟨g, hflow⟩ := Option.isSome_iff_exists.mp (h.flow_isSome hssa)
  refine ⟨g, hflow, ?_⟩
  rw [Session.apply, BuiltIn.pass, Pass.runState_pruned, hstats, RunState.flowGraph, hflow]

end Describes

/-- **When pruning succeeds.** Apply built-in passes to a new session, in any order and from any
sources. After that pruning succeeds if and only if construction has succeeded at some time, and
otherwise says that this step has not been reached and changes nothing. It keeps to graphs that
construction has succeeded on since they were built, and fails on all others, if and only if none
has been built anew after construction. If construction has succeeded since, the graph is one that
it has made. If a graph has been built anew, pruning succeeds on just this graph, and notes that it
has dropped no placeholder. -/
theorem pruned_succeeds_iff {entry : Nat} {config : Config} {metrics : Metrics} {ps : List BuiltIn}
    {s : Session} {attempts : List Attempt}
    (h : Session.applyAll ⟨{ entry, config }, metrics⟩ ps = (s, attempts)) :
    ((s.apply .pruned).1 = .ok () ↔ Constructed attempts) ∧
    (¬ Constructed attempts → s.apply .pruned = (.error (.stepNotReached Step.ssa), s)) ∧
    (((s.apply .pruned).1 = .ok () → Current attempts) ∧
        (¬ Current attempts → (s.apply .pruned).1 = .error (.stepNotReached Step.ssa)) ↔
      ¬ Stale attempts) ∧
    (Current attempts → ∃ g, s.state.flow = some g ∧ Rewritten g) ∧
    (Stale attempts → ∃ g, s.state.flow = some g ∧ Built g ∧
      s.apply .pruned = (.ok (), { s with state.prunedPhis := some 0 })) := by
  have hdescribes : Describes attempts s := by
    have hall := (describes_nil entry config metrics).after_passes ps
    rw [h] at hall
    exact hall
  have hiff : (s.apply .pruned).1 = .ok () ↔ Constructed attempts := by
    constructor
    · intro hok
      by_contra hnone
      rw [hdescribes.apply_pruned_of_not_constructed hnone] at hok
      cases hok
    · intro hssa
      obtain ⟨g, -, hrun⟩ := hdescribes.apply_pruned_of_constructed hssa
      rw [hrun]
  refine ⟨hiff, hdescribes.apply_pruned_of_not_constructed, ⟨?_, ?_⟩, fun hcurrent => ?_,
    fun hstale => ?_⟩
  · rintro ⟨honly, -⟩ hstale
    obtain ⟨hssa, hnot⟩ := (stale_iff attempts).mp hstale
    exact hnot (honly (hiff.mpr hssa))
  · intro hfresh
    rw [stale_iff, not_and, not_not] at hfresh
    refine ⟨fun hok => hfresh (hiff.mp hok), fun hnot => ?_⟩
    rw [hdescribes.apply_pruned_of_not_constructed (mt hfresh hnot)]
  · have hssa : Constructed attempts := by
      obtain ⟨earlier, later, rfl, -⟩ := hcurrent
      exact List.mem_append_right _ (List.mem_cons_self ..)
    obtain ⟨g, hflow, -⟩ := hdescribes.apply_pruned_of_constructed hssa
    exact ⟨g, hflow, hdescribes.rewritten hcurrent g hflow⟩
  · obtain ⟨hssa, hnot⟩ := (stale_iff attempts).mp hstale
    obtain ⟨g, hflow, hrun⟩ := hdescribes.apply_pruned_of_constructed hssa
    obtain ⟨policy, items, hg⟩ := hdescribes.built hnot g hflow
    refine ⟨g, hflow, ⟨policy, items, hg⟩, ?_⟩
    rw [hrun, Ssa.prune_eq_of_allPhis (FlowGraph.allPhis_build hg), ite_self, ← hflow]

/-- A function that returns what it has assigned. -/
def twoLines : Source := .ofItems [
  { address := 0, statements := [⟨⟨"x", none⟩, .imm 1⟩] },
  { address := 1, terminator := .ret (some (.var ⟨"x", none⟩)) }]

/-- Passes that fail before and after that make no difference: construction has succeeded on the
graph that is there, and pruning succeeds. -/
theorem pruned_succeeds_iff_twoLines :
    ∃ s attempts, Session.applyAll ⟨{ entry := 0 }, {}⟩
        [.pruned, .basicBlocks twoLines, .ssa, .basicBlocks (.ofItems [])] = (s, attempts) ∧
      attempts.map (·.succeeded) = [false, true, true, false] ∧
      (s.apply .pruned).1 = .ok () ∧ ∃ g, s.state.flow = some g ∧ Rewritten g := by
  have hflags : (Session.applyAll ⟨{ entry := 0 }, {}⟩ [.pruned, .basicBlocks twoLines, .ssa,
      .basicBlocks (.ofItems [])]).2.map (·.succeeded) = [false, true, true, false] := by decide_cbv
  obtain ⟨s, a, b, c, d, hrun⟩ : ∃ s a b c d, Session.applyAll ⟨{ entry := 0 }, {}⟩
      [.pruned, .basicBlocks twoLines, .ssa, .basicBlocks (.ofItems [])] =
        (s, [⟨.pruned, a⟩, ⟨.basicBlocks twoLines, b⟩, ⟨.ssa, c⟩,
          ⟨.basicBlocks (.ofItems []), d⟩]) :=
    ⟨_, _, _, _, _, rfl⟩
  rw [hrun] at hflags
  simp only [List.map_cons, List.map_nil, List.cons.injEq, and_true] at hflags
  obtain ⟨rfl, rfl, rfl, rfl⟩ := hflags
  obtain ⟨hiff, -, -, hrewritten, -⟩ := pruned_succeeds_iff hrun
  refine ⟨s, _, hrun, rfl, hiff.mpr (by simp [Constructed]), hrewritten ?_⟩
  exact ⟨[⟨.pruned, false⟩, ⟨.basicBlocks twoLines, true⟩], [⟨.basicBlocks (.ofItems []), false⟩],
    rfl, by simp⟩

/-- After construction the graph is **built once more**, and pruning succeeds on it although
construction has not. -/
theorem pruned_succeeds_rebuilt :
    ∃ s attempts, Session.applyAll ⟨{ entry := 0 }, {}⟩
        [.basicBlocks twoLines, .ssa, .basicBlocks twoLines] = (s, attempts) ∧
      ¬ Current attempts ∧ (s.apply .pruned).1 = .ok () := by
  have heval : (fun r : Session × List Attempt =>
      (r.2.map (·.succeeded), (r.1.apply .pruned).1)) (Session.applyAll ⟨{ entry := 0 }, {}⟩
        [.basicBlocks twoLines, .ssa, .basicBlocks twoLines]) = ([true, true, true], .ok ()) := by
    decide_cbv
  obtain ⟨s, a, b, c, hrun⟩ : ∃ s a b c, Session.applyAll ⟨{ entry := 0 }, {}⟩
      [.basicBlocks twoLines, .ssa, .basicBlocks twoLines] =
        (s, [⟨.basicBlocks twoLines, a⟩, ⟨.ssa, b⟩, ⟨.basicBlocks twoLines, c⟩]) :=
    ⟨_, _, _, _, rfl⟩
  rw [hrun] at heval
  obtain ⟨hflags, hok⟩ := Prod.mk.inj heval
  simp only [List.map_cons, List.map_nil, List.cons.injEq, and_true] at hflags
  obtain ⟨rfl, rfl, rfl⟩ := hflags
  refine ⟨s, _, hrun, ?_, hok⟩
  rw [show ([⟨.basicBlocks twoLines, true⟩, ⟨.ssa, true⟩, ⟨.basicBlocks twoLines, true⟩] :
    List Attempt) = [⟨.basicBlocks twoLines, true⟩, ⟨.ssa, true⟩] ++
      [⟨.basicBlocks twoLines, true⟩] from rfl, current_concat]
  simp

end FlowForm
