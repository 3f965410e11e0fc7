import FlowForm.Pipeline.Decompiler
import FlowForm.Proofs.Ssa.Supply

/-!
# What Passes Do

Each of the built-in passes fails and leaves the session as it is, or succeeds and has done one
thing to it. The equations here say which, and from them follows what a run through all passes has
done to the flow graph (`runToCompletion_eq_ok`).

## Main results

* `runState_basicBlocks`, `runState_ssa`, `runState_pruned` and `runState_finalize`: the four
  passes.
* `runToCompletion_eq_ok`: a run through all of them.
-/

namespace FlowForm

/-! ### Steps that succeed -/

section Steps

variable {ε σ α β : Type} {s s' : σ}

/-- A sequence of two steps succeeds if both do. -/
theorem runState_bind_eq_ok {x : ExceptT ε (StateT σ Id) α} {f : α → ExceptT ε (StateT σ Id) β}
    {b : β} : (x >>= f).run.run s = (.ok b, s') ↔
      ∃ a t, x.run.run s = (.ok a, t) ∧ (f a).run.run t = (.ok b, s') := by
  rw [runState_bind]
  rcases x.run.run s with ⟨e | a, t⟩
  · constructor
    · intro h
      cases h
    · rintro ⟨a, t', heq, -⟩
      cases heq
  · constructor
    · intro h
      exact ⟨a, t, rfl, h⟩
    · rintro ⟨a', t', heq, h⟩
      cases heq
      exact h

end Steps

/-! ### Passes -/

namespace Pass

variable {s s' : Session}

/-- Going on with the value of a computation changes nothing. -/
theorem runState_ofExcept {ε α : Type} (wrap : ε → RunError) (x : Except ε α) (s : Session) :
    (ofExcept wrap x).run.run s = (x.mapError wrap, s) := by
  cases x with
  | error e => rfl
  | ok a => rfl

/-- Asking for the flow graph changes nothing. -/
theorem runState_flowGraph (s : Session) : flowGraph.run.run s = (s.state.flowGraph, s) := by
  rw [flowGraph, runState_bind]
  change (ofExcept id s.state.flowGraph).run.run s = _
  rw [runState_ofExcept]
  cases s.state.flowGraph with
  | error e => rfl
  | ok g => rfl

/-- There is a flow graph if it can be asked for. -/
theorem flow_eq_some {r : RunState} {g : FlowGraph} (h : r.flowGraph = .ok g) :
    r.flow = some g := by
  rw [RunState.flowGraph] at h
  split at h
  · rename_i g' hg
    rw [hg, Except.ok.inj h]
  · cases h

/-- **The first pass** builds the flow graph of the items from the entry on. -/
theorem runState_basicBlocks (source : Source) (s : Session) :
    (basicBlocks source).run.run.run s =
      match source.itemsFrom s.state.entry with
      | .error e => (.error (.listing e), s)
      | .ok items =>
        match FlowGraph.build s.state.config.unresolvedTargets items with
        | .error e => (.error (.graph e), s)
        | .ok g => (.ok (), { s with state.flow := some g }) := by
  have hstate : state.run.run s = (.ok s.state, s) := rfl
  simp only [basicBlocks, runState_bind, hstate, runState_ofExcept]
  cases hitems : source.itemsFrom s.state.entry with
  | error e => rfl
  | ok items =>
      have hok : Except.mapError RunError.listing (.ok items) = .ok items := rfl
      simp only [hok]
      cases hbuild : FlowGraph.build s.state.config.unresolvedTargets items with
      | error e => rfl
      | ok g => rfl

/-- **The second pass** brings the graph into single-assignment form. It keeps whatever the build
has changed, which is nothing if the build fails (`Ssa.run_build_eq`). -/
theorem runState_ssa (s : Session) :
    ssa.run.run.run s =
      match s.state.flowGraph with
      | .error e => (.error e, s)
      | .ok g =>
        match Ssa.construct g s.state.counter with
        | .error e => (.error (.ssa e), s)
        | .ok result =>
          (.ok (), { s with state.flow := some result.graph, state.counter := result.counter,
                            state.stats := some result.stats }) := by
  have hstate : state.run.run s = (.ok s.state, s) := rfl
  simp only [ssa, runState_bind, runState_flowGraph]
  cases hflow : s.state.flowGraph with
  | error e => rfl
  | ok g =>
      have hsame : { s with state.flow := some g, state.counter := s.state.counter } = s := by
        rw [← flow_eq_some hflow]
      simp only [hstate, Ssa.run_build_eq]
      cases hconstruct : Ssa.construct g s.state.counter with
      | error e => exact congrArg (Prod.mk _) hsame
      | ok result => rfl

/-- **The third pass** drops the placeholders that nothing reads, if it is asked to. -/
theorem runState_pruned (s : Session) :
    pruned.run.run.run s =
      match s.state.stats, s.state.flowGraph with
      | none, _ => (.error (.stepNotReached Step.ssa), s)
      | some _, .error e => (.error e, s)
      | some _, .ok g =>
        let kept := if s.state.config.prunePhis then Ssa.prune g else (g, 0)
        (.ok (), { s with state.flow := some kept.1, state.prunedPhis := some kept.2 }) := by
  obtain ⟨⟨entry, config, flow, counter, stats, prunedPhis, completed, nextStep⟩, metrics⟩ := s
  cases stats with
  | none => rfl
  | some _ =>
      cases flow with
      | none => rfl
      | some _ => rfl

/-- **The last pass** checks the graph and leaves the state of the run as it is. -/
theorem runState_finalize (s : Session) :
    finalize.run.run.run s =
      match s.state.flowGraph with
      | .error e => (.error e, s)
      | .ok g =>
        match g.validate with
        | .error defect => (.error (.graph (.malformed defect)), s)
        | .ok () =>
          (.ok (), { s with metrics := s.metrics.recordRun g.size (Ssa.allPhis g).length }) := by
  simp only [finalize, runState_bind, runState_flowGraph]
  cases hflow : s.state.flowGraph with
  | error e => rfl
  | ok g =>
      simp only [runState_ofExcept]
      cases hvalid : g.validate with
      | error defect => rfl
      | ok _ => rfl

/-- What the first pass has done if it succeeds. -/
theorem run_basicBlocks {source : Source} {u : Unit}
    (h : (basicBlocks source).run.run.run s = (.ok u, s')) :
    ∃ items g, source.itemsFrom s.state.entry = .ok items ∧
      FlowGraph.build s.state.config.unresolvedTargets items = .ok g ∧
      s' = { s with state.flow := some g } := by
  rw [runState_basicBlocks] at h
  split at h
  · cases h
  · rename_i items hitems
    split at h
    · cases h
    · rename_i g hg
      cases h
      exact ⟨items, g, hitems, hg, rfl⟩

/-- What the second pass has done if it succeeds. -/
theorem run_ssa {u : Unit} (h : ssa.run.run.run s = (.ok u, s')) :
    ∃ g result, s.state.flow = some g ∧ Ssa.construct g s.state.counter = .ok result ∧
      s' = { s with state.flow := some result.graph, state.counter := result.counter,
                    state.stats := some result.stats } := by
  rw [runState_ssa] at h
  split at h
  · cases h
  · rename_i g hg
    split at h
    · cases h
    · rename_i result hresult
      cases h
      exact ⟨g, result, flow_eq_some hg, hresult, rfl⟩

/-- What the third pass has done if it succeeds. -/
theorem run_pruned {u : Unit} (h : pruned.run.run.run s = (.ok u, s')) :
    ∃ g removed, s.state.flow = some g ∧
      s' = { s with
        state.flow := some (if s.state.config.prunePhis then (Ssa.prune g).1 else g),
        state.prunedPhis := some removed } := by
  rw [runState_pruned] at h
  split at h
  · cases h
  · cases h
  · rename_i g _ hg
    cases h
    refine ⟨g, (if s.state.config.prunePhis then Ssa.prune g else (g, 0)).2, flow_eq_some hg, ?_⟩
    rw [apply_ite Prod.fst]

/-- What the last pass has done if it succeeds. -/
theorem run_finalize {u : Unit} (h : finalize.run.run.run s = (.ok u, s')) :
    ∃ g, s.state.flow = some g ∧ g.validate = .ok () ∧ s'.state = s.state := by
  rw [runState_finalize] at h
  split at h
  · cases h
  · rename_i g hg
    split at h
    · cases h
    · rename_i hvalid
      cases h
      exact ⟨g, flow_eq_some hg, hvalid, rfl⟩

end Pass

/-! ### Runs -/

namespace Decompiler

/-- A step that succeeds has run the next pass. -/
theorem run_runStep {d d' : Decompiler} {pass : Pass} {u : Unit}
    (hpass : d.passes[d.state.nextStep]? = some pass)
    (h : (runStep : RunM Id Unit).run.run d = (.ok u, d')) :
    ∃ session, pass.run.run.run d.sessionBefore = (.ok (), session) ∧
      d' = { d with session := sessionAfter session pass.name 0 } := by
  rw [runStep, runState_bind_eq_ok] at h
  obtain ⟨_, _, hget, h⟩ := h
  cases hget
  simp only [hpass] at h
  rw [runState_bind_eq_ok] at h
  obtain ⟨⟨⟨outcome, session⟩, nanos⟩, t, hmeasure, h⟩ := h
  have hmeasured : ((.ok (pass.run.run.run d.sessionBefore, 0), d) :
      Except RunError ((Except RunError Unit × Session) × Nat) × Decompiler) =
        (.ok ((outcome, session), nanos), t) := hmeasure
  simp only [Prod.mk.injEq, Except.ok.injEq] at hmeasured
  obtain ⟨⟨hpassed, rfl⟩, rfl⟩ := hmeasured
  cases outcome with
  | error cause => cases h
  | ok _ =>
      cases h
      exact ⟨session, hpassed, rfl⟩

/-- Below its limit, a run has run the next pass and then goes on. -/
theorem run_runBelow {d d' : Decompiler} {limit bound : Nat} {pass : Pass} {u : Unit} (k : Nat)
    (hnext : d.state.nextStep = k) (hpass : d.passes[k]? = some pass) (hlimit : k < limit)
    (h : (runBelow limit (bound + 1) : RunM Id Unit).run.run d = (.ok u, d')) :
    ∃ session, pass.run.run.run d.sessionBefore = (.ok (), session) ∧
      (runBelow limit bound : RunM Id Unit).run.run
        { d with session := sessionAfter session pass.name 0 } = (.ok u, d') := by
  subst hnext
  rw [runBelow, runState_bind_eq_ok] at h
  obtain ⟨_, _, hget, h⟩ := h
  cases hget
  rw [if_pos hlimit, runState_bind_eq_ok] at h
  obtain ⟨_, d₁, hstep, h⟩ := h
  obtain ⟨session, hrun, rfl⟩ := run_runStep hpass hstep
  exact ⟨session, hrun, h⟩

/-- A run through the built-in passes builds the graph of the items from the entry on, brings it
into single-assignment form with a new counter, and drops the placeholders that nothing reads if it
is asked to. -/
theorem runToCompletion_eq_ok {source : Source} {entry : Nat} {config : Config}
    {metrics : Metrics} {d : Decompiler}
    (h : (runToCompletion : RunM Id Unit).run.run (start source entry config metrics) =
      (.ok (), d)) :
    ∃ items g result, source.itemsFrom entry = .ok items ∧
      FlowGraph.build config.unresolvedTargets items = .ok g ∧
      Ssa.construct g Counter.fresh = .ok result ∧
      d.state.flow =
        some (if config.prunePhis then (Ssa.prune result.graph).1 else result.graph) := by
  rw [runToCompletion, runState_bind_eq_ok] at h
  obtain ⟨_, _, hcheck, h⟩ := h
  cases hcheck
  rw [runState_bind_eq_ok] at h
  obtain ⟨_, _, hget, h⟩ := h
  cases hget
  change (runBelow 4 (3 + 1) : RunM Id Unit).run.run _ = _ at h
  obtain ⟨s₁, hblocks, h⟩ := run_runBelow 0 rfl rfl (by decide) h
  obtain ⟨items, g, hitems, hg, rfl⟩ := Pass.run_basicBlocks hblocks
  obtain ⟨s₂, hssa, h⟩ := run_runBelow 1 rfl rfl (by decide) h
  obtain ⟨g', result, hg', hresult, rfl⟩ := Pass.run_ssa hssa
  cases hg'
  obtain ⟨s₃, hpruned, h⟩ := run_runBelow 2 rfl rfl (by decide) h
  obtain ⟨g', removed, hg', rfl⟩ := Pass.run_pruned hpruned
  cases hg'
  obtain ⟨s₄, hfinalize, h⟩ := run_runBelow 3 rfl rfl (by decide) h
  obtain ⟨_, -, -, hstate⟩ := Pass.run_finalize hfinalize
  cases h
  refine ⟨items, g, result, hitems, hg, hresult, ?_⟩
  exact congrArg RunState.flow hstate

end Decompiler

end FlowForm
