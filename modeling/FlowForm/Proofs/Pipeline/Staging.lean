import Mathlib
import FlowForm.Proofs.Pipeline.Passes

/-!
# Runs in Stages

A run can be taken through its steps by any number of requests, each up to some named step, or by
one request for all of them. The outcome is the same (`staging_keeps_outcome`).

Runs take place on a **clock**, which is a state of its own, and the decompiler with its clock is
all that a request can change (`perform`). A step is described once, by the pass that it runs and
the time that this takes (`stepped` and `step_cases`). `RunsTo` describes a run up to some limit
step by step, without the bound on the number of steps, and leads to the two laws of stages: a run
that has come through up to a limit goes on as if it had never stopped, and one that fails below a
limit fails below every larger one (`RunsTo.resume` and `RunsTo.stop`).

What a request does then follows from an invariant (`OnTrack`): a decompiler that has not failed has
the outcome of the single run still before it, and one that has failed is where the single run
ends.

## Main results

* `RunsTo.resume` and `RunsTo.stop`: stopping on the way makes no difference.
* `OnTrack.after_request`: requests keep the invariant.
* `RunsTo.exists_failing_step`: where a run fails.
* `staging_keeps_outcome`: staging does not change the outcome.
-/

namespace FlowForm

/-- A clock **keeps to what it measures**: it hands over the result of a computation together with
some duration. -/
class LawfulStopwatch (σ : Type) [Stopwatch (StateM σ)] : Prop where
  exists_nanos : ∀ {α : Type} (f : Unit → α) (c : σ), ∃ nanos c',
    (Stopwatch.measure f : StateM σ (α × Nat)).run c = ((f (), nanos), c')

/-! ### What passes leave alone -/

namespace Pass

/-- A pass **keeps the progress** of a run if it writes neither the steps that have been completed
nor the position of the next one. -/
def KeepsProgress (p : Pass) : Prop :=
  ∀ s : Session, (p.run.run.run s).2.state.completed = s.state.completed ∧
    (p.run.run.run s).2.state.nextStep = s.state.nextStep

/-- A pass **ignores metrics** if they have no say in whether it fails and in what it does to the
state of the run. -/
def IgnoresMetrics (p : Pass) : Prop :=
  ∀ (s : Session) (metrics : Metrics),
    (p.run.run.run { s with metrics }).1 = (p.run.run.run s).1 ∧
      (p.run.run.run { s with metrics }).2.state = (p.run.run.run s).2.state

/-- A pass **fails cleanly** if it changes nothing when it fails. -/
def FailsCleanly (p : Pass) : Prop :=
  ∀ (s s' : Session) (e : RunError), p.run.run.run s = (.error e, s') → s' = s

/-- A pass is **tidy** if the state of the run alone decides what it does: either it fails and
changes nothing, or it succeeds and leaves a state with the same progress, whatever the metrics. -/
def Tidy (p : Pass) : Prop :=
  ∀ r : RunState,
    (∃ e, ∀ metrics, p.run.run.run ⟨r, metrics⟩ = (.error e, ⟨r, metrics⟩)) ∨
      ∃ r', (∀ metrics, ∃ metrics', p.run.run.run ⟨r, metrics⟩ = (.ok (), ⟨r', metrics'⟩)) ∧
        r'.completed = r.completed ∧ r'.nextStep = r.nextStep

/-- A tidy pass keeps the progress of a run. -/
theorem Tidy.keepsProgress {p : Pass} (h : p.Tidy) : p.KeepsProgress := by
  rintro ⟨r, metrics⟩
  rcases h r with ⟨e, hrun⟩ | ⟨r', hrun, hcompleted, hnext⟩
  · rw [hrun]
    exact ⟨rfl, rfl⟩
  · obtain ⟨metrics', hrun⟩ := hrun metrics
    rw [hrun]
    exact ⟨hcompleted, hnext⟩

/-- A tidy pass ignores metrics. -/
theorem Tidy.ignoresMetrics {p : Pass} (h : p.Tidy) : p.IgnoresMetrics := by
  rintro ⟨r, metrics⟩ other
  rcases h r with ⟨e, hrun⟩ | ⟨r', hrun, -, -⟩
  · simp only [hrun, and_self]
  · obtain ⟨metrics', hrun₁⟩ := hrun metrics
    obtain ⟨other', hrun₂⟩ := hrun other
    simp only [hrun₁, hrun₂, and_self]

/-- A tidy pass fails cleanly. -/
theorem Tidy.failsCleanly {p : Pass} (h : p.Tidy) : p.FailsCleanly := by
  rintro ⟨r, metrics⟩ s' e heq
  rcases h r with ⟨e', hrun⟩ | ⟨r', hrun, -, -⟩
  · rw [hrun] at heq
    exact (Prod.mk.inj heq).2.symm
  · obtain ⟨metrics', hrun⟩ := hrun metrics
    rw [hrun] at heq
    cases heq

/-- The passes that every run has. -/
def builtIn (source : Source) : List Pass :=
  [basicBlocks source, ssa, pruned, finalize]

/-- **The built-in passes are tidy.** -/
theorem tidy_of_mem_builtIn {source : Source} {p : Pass} (hp : p ∈ builtIn source) : p.Tidy := by
  simp only [builtIn, List.mem_cons, List.not_mem_nil, or_false] at hp
  intro r
  rcases hp with rfl | rfl | rfl | rfl
  · simp only [runState_basicBlocks]
    cases source.itemsFrom r.entry with
    | error e => exact .inl ⟨_, fun _ => rfl⟩
    | ok items =>
        simp only
        cases FlowGraph.build r.config.unresolvedTargets items with
        | error e => exact .inl ⟨_, fun _ => rfl⟩
        | ok g => exact .inr ⟨_, fun _ => ⟨_, rfl⟩, rfl, rfl⟩
  · simp only [runState_ssa]
    cases r.flowGraph with
    | error e => exact .inl ⟨_, fun _ => rfl⟩
    | ok g =>
        simp only
        cases Ssa.construct g r.counter with
        | error e => exact .inl ⟨_, fun _ => rfl⟩
        | ok result => exact .inr ⟨_, fun _ => ⟨_, rfl⟩, rfl, rfl⟩
  · cases hstats : r.stats with
    | none => exact .inl ⟨.stepNotReached Step.ssa, fun _ => by rw [runState_pruned, hstats]⟩
    | some _ =>
        cases hflow : r.flowGraph with
        | error e => exact .inl ⟨e, fun _ => by simp only [runState_pruned, hstats, hflow]⟩
        | ok g =>
            refine .inr ⟨{ r with
                flow := some (if r.config.prunePhis then Ssa.prune g else (g, 0)).1,
                prunedPhis := some (if r.config.prunePhis then Ssa.prune g else (g, 0)).2 },
              fun metrics => ⟨metrics, ?_⟩, rfl, rfl⟩
            simp only [runState_pruned, hstats, hflow]
  · simp only [runState_finalize]
    cases r.flowGraph with
    | error e => exact .inl ⟨_, fun _ => rfl⟩
    | ok g =>
        simp only
        cases g.validate with
        | error defect => exact .inl ⟨_, fun _ => rfl⟩
        | ok _ => exact .inr ⟨_, fun _ => ⟨_, rfl⟩, rfl, rfl⟩

end Pass

namespace Decompiler

variable {σ α β : Type}

/-! ### Decompilers on a clock -/

/-- What a request makes of a decompiler and its clock, and the answer. -/
def perform (x : RunM (StateM σ) α) (w : Decompiler × σ) : Except RunError α × Decompiler × σ :=
  let ((answer, d), c) := (x.run.run w.1).run w.2
  (answer, d, c)

/-- A sequence of two requests, by the answer to the first. -/
theorem perform_bind (x : RunM (StateM σ) α) (f : α → RunM (StateM σ) β) (w : Decompiler × σ) :
    perform (x >>= f) w = match perform x w with
      | (.ok a, w') => perform (f a) w'
      | (.error e, w') => (.error e, w') := by
  simp only [perform, ExceptT.run_bind, StateT.run_bind]
  rcases (x.run.run w.1).run w.2 with ⟨⟨_ | a, d⟩, c⟩
  · rfl
  · rfl

/-- Asking for the decompiler changes nothing. -/
theorem perform_get (w : Decompiler × σ) : perform get w = (.ok w.1, w) :=
  rfl

/-- A request stops at once if a step has failed before. -/
theorem perform_checkAborted (w : Decompiler × σ) :
    perform checkAborted w = match w.1.failed with
      | some step => (.error (.aborted step), w)
      | none => (.ok (), w) := by
  rw [checkAborted, perform_bind, perform_get]
  cases hfailed : w.1.failed with
  | some step =>
      simp only [hfailed]
      rfl
  | none =>
      simp only [hfailed]
      rfl

variable [Stopwatch (StateM σ)]

/-- Running **to completion** is running below the number of passes. -/
theorem perform_runToCompletion (w : Decompiler × σ) :
    perform runToCompletion w = match w.1.failed with
      | some step => (.error (.aborted step), w)
      | none => perform (runBelow w.1.passes.length w.1.passes.length) w := by
  rw [runToCompletion, perform_bind, perform_checkAborted]
  cases w.1.failed with
  | some step => rfl
  | none => simp only [perform_bind, perform_get]

/-- Running **up to a step** is running below the position behind it. -/
theorem perform_runUntil (step : String) (w : Decompiler × σ) :
    perform (runUntil step) w = match w.1.failed with
      | some failed => (.error (.aborted failed), w)
      | none => match w.1.steps.idxOf? step with
        | some position => perform (runBelow (position + 1) w.1.steps.length) w
        | none => (.error (.unknownStep step), w) := by
  rw [runUntil, perform_bind, perform_checkAborted]
  cases w.1.failed with
  | some failed => rfl
  | none =>
      simp only [perform_bind, perform_get]
      cases w.1.steps.idxOf? step with
      | some position => rfl
      | none => rfl

/-- Running below a limit, step by step. -/
theorem perform_runBelow (limit bound : Nat) (w : Decompiler × σ) :
    perform (runBelow limit (bound + 1)) w =
      if w.1.state.nextStep < limit then
        match perform runStep w with
        | (.ok _, w') => perform (runBelow limit bound) w'
        | (.error e, w') => (.error e, w')
      else (.ok (), w) := by
  rw [runBelow, perform_bind, perform_get]
  simp only
  split
  · rw [perform_bind]
    rcases perform runStep w with ⟨_ | _, w'⟩
    · rfl
    · rfl
  · rfl

/-! ### Steps -/

/-- What the next pass makes of a decompiler if it takes the given time. -/
def stepped (d : Decompiler) (nanos : Nat) : Except RunError Unit × Decompiler :=
  match d.passes[d.state.nextStep]? with
  | none => (.ok (), d)
  | some pass =>
    match pass.run.run.run d.sessionBefore with
    | (.ok (), session) => (.ok (), { d with session := sessionAfter session pass.name nanos })
    | (.error cause, session) =>
      (.error (.stepFailed pass.name cause), { d with session, failed := some pass.name })

variable [LawfulStopwatch σ]

/-- Measuring a computation hands over its result. -/
theorem perform_measure (f : Unit → α) (d : Decompiler) (c : σ) : ∃ nanos c',
    perform (liftM (Stopwatch.measure f : StateM σ (α × Nat))) (d, c) =
      (.ok (f (), nanos), d, c') := by
  obtain ⟨nanos, c', h⟩ := LawfulStopwatch.exists_nanos f c
  have hlift : perform (liftM (Stopwatch.measure f : StateM σ (α × Nat))) (d, c) =
      (fun r : (α × Nat) × σ => ((.ok r.1, d, r.2) : Except RunError (α × Nat) × Decompiler × σ))
        ((Stopwatch.measure f : StateM σ (α × Nat)).run c) := rfl
  exact ⟨nanos, c', by rw [hlift, h]⟩

/-- **A step runs the next pass**, and takes some time. -/
theorem perform_runStep (d : Decompiler) (c : σ) : ∃ nanos c',
    perform runStep (d, c) = ((d.stepped nanos).1, (d.stepped nanos).2, c') := by
  simp only [runStep, perform_bind, perform_get]
  cases hpass : d.passes[d.state.nextStep]? with
  | none =>
      refine ⟨0, c, ?_⟩
      simp only [stepped, hpass]
      rfl
  | some pass =>
      obtain ⟨nanos, c', h⟩ := perform_measure (fun _ => pass.run.run d.sessionBefore) d c
      refine ⟨nanos, c', ?_⟩
      simp only [stepped, hpass, perform_bind, h]
      rw [StateT.run]
      rcases pass.run.run d.sessionBefore with ⟨_ | _, session⟩
      · rfl
      · rfl

/-- A decompiler is **steady** if all its passes keep the progress of the run. -/
def Steady (d : Decompiler) : Prop :=
  ∀ p ∈ d.passes, p.KeepsProgress

/-- What is the same in a decompiler throughout a run. -/
structure SamePasses (d d' : Decompiler) : Prop where
  source_eq : d'.source = d.source
  added_eq : d'.added = d.added

/-- The passes are the same throughout a run. -/
theorem SamePasses.passes_eq {d d' : Decompiler} (h : SamePasses d d') : d'.passes = d.passes := by
  rw [passes, passes, h.source_eq, h.added_eq]

/-- The names of the steps are the same throughout a run. -/
theorem SamePasses.steps_eq {d d' : Decompiler} (h : SamePasses d d') : d'.steps = d.steps := by
  rw [steps, steps, h.passes_eq]

/-- A decompiler stays steady throughout a run. -/
theorem SamePasses.steady {d d' : Decompiler} (h : SamePasses d d') (hsteady : d.Steady) :
    d'.Steady := by
  rw [Steady, h.passes_eq]
  exact hsteady

/-- One decompiler has the passes of another if it has those of a third that has them. -/
theorem SamePasses.trans {d d' d'' : Decompiler} (h : SamePasses d d') (h' : SamePasses d' d'') :
    SamePasses d d'' :=
  ⟨h'.source_eq.trans h.source_eq, h'.added_eq.trans h.added_eq⟩

/-- Whatever pass comes next, the session in which it starts has the progress of the run. -/
theorem sessionBefore_progress (d : Decompiler) :
    d.sessionBefore.state.completed = d.state.completed ∧
      d.sessionBefore.state.nextStep = d.state.nextStep := by
  rw [sessionBefore]
  split <;> exact ⟨rfl, rfl⟩

/-- **What a step can do**: the next pass succeeds, and the run is one step further, or it fails,
and its name is what the decompiler has failed at. -/
theorem step_cases {d : Decompiler} (hsteady : d.Steady) (hlt : d.state.nextStep < d.passes.length)
    (c : σ) :
    (∃ d' c', perform runStep (d, c) = (.ok (), d', c') ∧ SamePasses d d' ∧
      d'.failed = d.failed ∧ d'.state.nextStep = d.state.nextStep + 1) ∨
    ∃ pass cause session c', d.passes[d.state.nextStep]? = some pass ∧
      pass.run.run.run d.sessionBefore = (.error cause, session) ∧
      perform runStep (d, c) = (.error (.stepFailed pass.name cause),
        { d with session, failed := some pass.name }, c') := by
  have hpass := List.getElem?_eq_getElem hlt
  generalize d.passes[d.state.nextStep] = pass at hpass
  obtain ⟨nanos, c', hstep⟩ := perform_runStep d c
  have hkeeps := (hsteady pass (List.mem_of_getElem? hpass) d.sessionBefore).2
  rw [(sessionBefore_progress d).2] at hkeeps
  simp only [stepped, hpass] at hstep
  rcases hrun : pass.run.run.run d.sessionBefore with ⟨cause | _, session⟩
  · rw [hrun] at hstep
    exact .inr ⟨pass, cause, session, c', hpass, hrun, hstep⟩
  · rw [hrun] at hstep hkeeps
    exact .inl ⟨_, c', hstep, ⟨rfl, rfl⟩, rfl, congrArg (· + 1) hkeeps⟩

/-! ### Runs up to a limit -/

/-- A **run** up to a limit, step by step: it ends when the limit is reached, or with the first step
that fails. -/
inductive RunsTo (limit : Nat) : Decompiler × σ → Except RunError Unit × Decompiler × σ → Prop
  | done {w : Decompiler × σ} : limit ≤ w.1.state.nextStep → RunsTo limit w (.ok (), w)
  | step {w w₁ : Decompiler × σ} {r : Except RunError Unit × Decompiler × σ} :
      w.1.state.nextStep < limit → perform runStep w = (.ok (), w₁) → RunsTo limit w₁ r →
      RunsTo limit w r
  | fail {w w₁ : Decompiler × σ} {e : RunError} :
      w.1.state.nextStep < limit → perform runStep w = (.error e, w₁) →
      RunsTo limit w (.error e, w₁)

omit [LawfulStopwatch σ] in
/-- A run has one outcome. -/
theorem RunsTo.unique {limit : Nat} {w : Decompiler × σ}
    {r r' : Except RunError Unit × Decompiler × σ} (h : RunsTo limit w r)
    (h' : RunsTo limit w r') : r = r' := by
  induction h with
  | done hle =>
      cases h' with
      | done => rfl
      | step hlt => omega
      | fail hlt => omega
  | step hlt hstep _ ih =>
      cases h' with
      | done hle => omega
      | step _ hstep' h' =>
          rw [hstep] at hstep'
          cases hstep'
          exact ih h'
      | fail _ hstep' =>
          rw [hstep] at hstep'
          cases hstep'
  | fail hlt hstep =>
      cases h' with
      | done hle => omega
      | step _ hstep' =>
          rw [hstep] at hstep'
          cases hstep'
      | fail _ hstep' =>
          rw [hstep] at hstep'
          cases hstep'
          rfl

omit [LawfulStopwatch σ] in
/-- **Stopping on the way makes no difference**: where a run up to a limit has come through, going
on from there leads to where the run up to a larger limit leads. -/
theorem RunsTo.resume {limit larger : Nat} (hle : limit ≤ larger) {w w₁ : Decompiler × σ}
    {u : Unit} {r : Except RunError Unit × Decompiler × σ} (h : RunsTo limit w (.ok u, w₁))
    (hrest : RunsTo larger w₁ r) : RunsTo larger w r := by
  generalize hr : ((.ok u, w₁) : Except RunError Unit × Decompiler × σ) = reached at h
  induction h with
  | done _ =>
      cases hr
      exact hrest
  | step hlt hstep _ ih => exact .step (by omega) hstep (ih hr)
  | fail _ _ => cases hr

omit [LawfulStopwatch σ] in
/-- A run that **fails** below a limit fails below every larger one. -/
theorem RunsTo.stop {limit larger : Nat} (hle : limit ≤ larger) {w w₁ : Decompiler × σ}
    {e : RunError} (h : RunsTo limit w (.error e, w₁)) : RunsTo larger w (.error e, w₁) := by
  generalize hr : ((.error e, w₁) : Except RunError Unit × Decompiler × σ) = reached at h
  induction h with
  | done _ => cases hr
  | step hlt hstep _ ih => exact .step (by omega) hstep (ih hr)
  | fail hlt hstep => exact .fail (by omega) hstep

/-- **Running below a limit runs up to the limit**, if there are enough rounds. -/
theorem runsTo_runBelow {limit bound : Nat} {d : Decompiler} (hsteady : d.Steady)
    (hlimit : limit ≤ d.passes.length) (hbound : limit ≤ d.state.nextStep + bound) (c : σ) :
    RunsTo limit (d, c) (perform (runBelow limit bound) (d, c)) := by
  induction bound generalizing d c with
  | zero => exact .done hbound
  | succ bound ih =>
      rw [perform_runBelow]
      split
      · rename_i hlt
        obtain ⟨d', c', hstep, hsame, -, hnext⟩ | ⟨pass, cause, session, c', -, -, hstep⟩ :=
          step_cases hsteady (Nat.lt_of_lt_of_le hlt hlimit) c
        · rw [hstep]
          rw [← hsame.passes_eq] at hlimit
          exact .step hlt hstep (ih (hsame.steady hsteady) hlimit (by omega) c')
        · rw [hstep]
          exact .fail hlt hstep
      · rename_i hle
        exact .done (Nat.le_of_not_lt hle)

/-- **What a run leaves behind** if nothing has failed before: a run that comes through reaches its
limit, and one that does not ends with the error of the step that has failed. -/
theorem RunsTo.outcome {limit : Nat} {w : Decompiler × σ} (hsteady : w.1.Steady)
    (hlimit : limit ≤ w.1.passes.length) (hfailed : w.1.failed = none)
    {r : Except RunError Unit × Decompiler × σ} (h : RunsTo limit w r) :
    SamePasses w.1 r.2.1 ∧
      (r.1 = .ok () ∧ r.2.1.failed = none ∧
          r.2.1.state.nextStep = max limit w.1.state.nextStep ∨
        ∃ step cause, r.1 = .error (.stepFailed step cause) ∧ r.2.1.failed = some step) := by
  induction h with
  | done hle => exact ⟨⟨rfl, rfl⟩, .inl ⟨rfl, hfailed, (Nat.max_eq_right hle).symm⟩⟩
  | @step w w₁ r hlt hstep _ ih =>
      obtain ⟨d, c⟩ := w
      obtain ⟨d', c', hstep', hsame, hfailed', hnext⟩ | ⟨pass, cause, session, c', -, -, hstep'⟩ :=
        step_cases hsteady (Nat.lt_of_lt_of_le hlt hlimit) c
      · rw [hstep'] at hstep
        cases hstep
        rw [← hsame.passes_eq] at hlimit
        obtain ⟨hsame', houtcome⟩ := ih (hsame.steady hsteady) hlimit (hfailed'.trans hfailed)
        refine ⟨hsame.trans hsame', houtcome.imp_left ?_⟩
        rintro ⟨hok, hnone, hposition⟩
        simp only at hnext hposition hlt ⊢
        exact ⟨hok, hnone, by omega⟩
      · rw [hstep'] at hstep
        cases hstep
  | @fail w w₁ e hlt hstep =>
      obtain ⟨d, c⟩ := w
      obtain ⟨d', c', hstep', -⟩ | ⟨pass, cause, session, c', -, -, hstep'⟩ :=
        step_cases hsteady (Nat.lt_of_lt_of_le hlt hlimit) c
      · rw [hstep'] at hstep
        cases hstep
      · rw [hstep'] at hstep
        cases hstep
        exact ⟨⟨rfl, rfl⟩, .inr ⟨pass.name, cause, rfl, rfl⟩⟩

/-! ### Requests -/

/-- A **request** to a decompiler: to run up to a step, or to run all steps that are left. -/
inductive Request where
  | upTo (step : String)
  | completion
deriving DecidableEq

/-- The answer to a request, and what it makes of the decompiler and its clock. -/
def serve (w : Decompiler × σ) : Request → Except RunError Unit × Decompiler × σ
  | .upTo step => perform (runUntil step) w
  | .completion => perform runToCompletion w

/-- What requests to run up to the given steps, made one after the other, leave behind. -/
def afterStages (w : Decompiler × σ) (steps : List String) : Decompiler × σ :=
  steps.foldl (fun w step => (serve w (.upTo step)).2) w

/-- Where a request **leads** a decompiler that has not failed: nowhere if it names an unknown step,
and else up to a limit. -/
def Request.limit? (d : Decompiler) : Request → Option Nat
  | .upTo step => (d.steps.idxOf? step).map (· + 1)
  | .completion => some d.passes.length

omit [LawfulStopwatch σ] in
/-- A request to a decompiler that **has failed** is refused and changes nothing. -/
theorem serve_of_failed {w : Decompiler × σ} {step : String} (h : w.1.failed = some step)
    (request : Request) : serve w request = (.error (.aborted step), w) := by
  cases request with
  | upTo name => rw [serve, perform_runUntil, h]
  | completion => rw [serve, perform_runToCompletion, h]

omit [LawfulStopwatch σ] in
/-- A request for an **unknown** step is refused and changes nothing. -/
theorem serve_of_unknown {w : Decompiler × σ} (h : w.1.failed = none) {step : String}
    (hstep : step ∉ w.1.steps) :
    serve w (.upTo step) = (.error (.unknownStep step), w) := by
  rw [serve, perform_runUntil, h, List.idxOf?_eq_none_iff.mpr hstep]

/-- A request leads no further than there are passes. -/
theorem Request.limit?_le {d : Decompiler} {request : Request} {limit : Nat}
    (h : request.limit? d = some limit) : limit ≤ d.passes.length := by
  cases request with
  | upTo step =>
      obtain ⟨position, hposition, rfl⟩ := Option.map_eq_some_iff.mp h
      have hlt := (List.idxOf?_eq_some_iff.mp hposition).1
      rw [steps, List.length_map] at hlt
      exact hlt
  | completion =>
      cases h
      exact Nat.le_refl _

/-- Any other request **runs** up to its limit. -/
theorem runsTo_serve {w : Decompiler × σ} (hsteady : w.1.Steady) (h : w.1.failed = none)
    {request : Request} {limit : Nat} (hlimit : request.limit? w.1 = some limit) :
    RunsTo limit w (serve w request) := by
  have hle := Request.limit?_le hlimit
  cases request with
  | upTo step =>
      obtain ⟨position, hposition, rfl⟩ := Option.map_eq_some_iff.mp hlimit
      rw [serve, perform_runUntil, h, hposition]
      refine runsTo_runBelow hsteady hle ?_ w.2
      rw [steps, List.length_map]
      omega
  | completion =>
      cases hlimit
      rw [serve, perform_runToCompletion, h]
      exact runsTo_runBelow hsteady hle (Nat.le_add_left ..) w.2

/-- A decompiler with its clock is **on track** towards the outcome of a single run: if it has not
failed, that outcome still lies before it, and if it has, this is where the single run has ended. -/
structure OnTrack (d : Decompiler) (single : Except RunError Unit × Decompiler × σ)
    (w : Decompiler × σ) : Prop where
  samePasses : SamePasses d w.1
  ahead : w.1.failed = none → RunsTo d.passes.length w single
  ended : ∀ step, w.1.failed = some step →
    ∃ cause, single = (.error (.stepFailed step cause), w)

/-- **Requests keep on track.** If the request comes through nothing has failed, and otherwise its
answer is that of the single run. -/
theorem OnTrack.after_request {d : Decompiler} (hsteady : d.Steady)
    {single : Except RunError Unit × Decompiler × σ} {w : Decompiler × σ}
    (h : OnTrack d single w) (hnone : w.1.failed = none) (request : Request) {limit : Nat}
    (hlimit : request.limit? d = some limit) :
    OnTrack d single (serve w request).2 ∧
      ((serve w request).1 = .ok () ∧ (serve w request).2.1.failed = none ∨
        (∃ step cause, (serve w request).1 = .error (.stepFailed step cause) ∧
          (serve w request).2.1.failed = some step) ∧ serve w request = single) := by
  have hsteady₁ := h.samePasses.steady hsteady
  have hle := Request.limit?_le hlimit
  have hlimit₁ : request.limit? w.1 = some limit := by
    cases request with
    | upTo step => rw [Request.limit?, h.samePasses.steps_eq]; exact hlimit
    | completion => rw [Request.limit?, h.samePasses.passes_eq]; exact hlimit
  have hruns := runsTo_serve hsteady₁ hnone hlimit₁
  obtain ⟨hsame, houtcome⟩ := hruns.outcome hsteady₁ (Request.limit?_le hlimit₁) hnone
  generalize serve w request = r at hruns hsame houtcome
  obtain ⟨answer, w₁⟩ := r
  rcases houtcome with ⟨rfl, hfailed, -⟩ | ⟨step, cause, rfl, hfailed⟩
  · -- What lies ahead of the decompiler now is what lay ahead of it before.
    have hrest : RunsTo d.passes.length w₁ (serve w₁ .completion) := by
      have hpasses := (h.samePasses.trans hsame).passes_eq
      refine runsTo_serve (hsame.steady hsteady₁) hfailed ?_
      rw [Request.limit?, hpasses]
    have hsingle := (hruns.resume hle hrest).unique (h.ahead hnone)
    refine ⟨⟨h.samePasses.trans hsame, fun _ => hsingle ▸ hrest, fun step hstep => ?_⟩,
      .inl ⟨rfl, hfailed⟩⟩
    rw [hfailed] at hstep
    cases hstep
  · have hsingle := (hruns.stop hle).unique (h.ahead hnone)
    refine ⟨⟨h.samePasses.trans hsame, fun hnone => ?_, fun step' hstep => ?_⟩,
      .inr ⟨⟨step, cause, rfl, hfailed⟩, hsingle⟩⟩
    · rw [hfailed] at hnone
      cases hnone
    · rw [hfailed] at hstep
      cases hstep
      exact ⟨cause, hsingle.symm⟩

/-- Requests that are refused keep on track as well, so **any sequence of stages** does. -/
theorem OnTrack.after_stages {d : Decompiler} (hsteady : d.Steady)
    {single : Except RunError Unit × Decompiler × σ} {w : Decompiler × σ}
    (h : OnTrack d single w) (steps : List String) : OnTrack d single (afterStages w steps) := by
  induction steps generalizing w with
  | nil => exact h
  | cons step steps ih =>
      refine ih ?_
      change OnTrack d single (serve w (.upTo step)).2
      cases hfailed : w.1.failed with
      | some name => rw [serve_of_failed hfailed]; exact h
      | none =>
          by_cases hstep : step ∈ d.steps
          · obtain ⟨position, hposition⟩ := Option.isSome_iff_exists.mp
              (List.isSome_idxOf?.mpr hstep)
            exact (h.after_request hsteady hfailed (.upTo step)
              (by rw [Request.limit?, hposition]; rfl)).1
          · rw [serve_of_unknown hfailed (by rw [h.samePasses.steps_eq]; exact hstep)]
            exact h

/-! ### Where a run fails -/

/-- **A run that fails** has come through up to some step, and it is this step that fails. -/
theorem RunsTo.exists_failing_step {limit : Nat} {w w' : Decompiler × σ} {e : RunError}
    (hsteady : w.1.Steady) (hlimit : limit ≤ w.1.passes.length)
    (h : RunsTo limit w (.error e, w')) :
    ∃ w₁, RunsTo w₁.1.state.nextStep w (.ok (), w₁) ∧ w.1.state.nextStep ≤ w₁.1.state.nextStep ∧
      w₁.1.state.nextStep < limit ∧ SamePasses w.1 w₁.1 ∧ perform runStep w₁ = (.error e, w') := by
  generalize hr : ((.error e, w') : Except RunError Unit × Decompiler × σ) = reached at h
  induction h with
  | done _ => cases hr
  | @step w w₁ r hlt hstep _ ih =>
      obtain ⟨d, c⟩ := w
      obtain ⟨d', c', hstep', hsame, -, hnext⟩ | ⟨pass, cause, session, c', -, -, hstep'⟩ :=
        step_cases hsteady (Nat.lt_of_lt_of_le hlt hlimit) c
      · rw [hstep'] at hstep
        cases hstep
        rw [← hsame.passes_eq] at hlimit
        obtain ⟨w₂, hruns, hle, hlt₂, hsame', hfail⟩ := ih (hsame.steady hsteady) hlimit hr
        simp only at hnext hle ⊢
        exact ⟨w₂, .step (by simp only; omega) hstep' hruns, by omega, hlt₂,
          hsame.trans hsame', hfail⟩
      · rw [hstep'] at hstep
        cases hstep
  | @fail w w₁ e hlt hstep =>
      cases hr
      exact ⟨w, .done (Nat.le_refl _), Nat.le_refl _, hlt, ⟨rfl, rfl⟩, hstep⟩

/-- A step that runs a pass which **fails cleanly** leaves the session in which the pass has
started. -/
theorem session_of_failed_step {d d' : Decompiler} {c c' : σ} {e : RunError} (hsteady : d.Steady)
    (hlt : d.state.nextStep < d.passes.length)
    (h : perform runStep (d, c) = (.error e, d', c')) :
    ∃ pass cause, d.passes[d.state.nextStep]? = some pass ∧ e = .stepFailed pass.name cause ∧
      (pass.FailsCleanly → d'.session = d.sessionBefore) := by
  obtain ⟨d₁, c₁, hstep, -⟩ | ⟨pass, cause, session, c₁, hpass, hrun, hstep⟩ :=
    step_cases hsteady hlt c
  · rw [hstep] at h
    cases h
  · rw [hstep] at h
    cases h
    exact ⟨pass, cause, hpass, rfl, fun hclean => hclean _ _ _ hrun⟩

/-- A request for the step at some position leads behind this position. -/
theorem limit?_upTo {d : Decompiler} (hnodup : d.steps.Nodup) {step : String} {position : Nat}
    (h : d.steps[position]? = some step) :
    (Request.upTo step).limit? d = some (position + 1) := by
  obtain ⟨hlt, rfl⟩ := List.getElem?_eq_some_iff.mp h
  rw [Request.limit?, List.idxOf?_eq_some_iff.mpr ⟨hlt, rfl, fun j hj heq => ?_⟩]
  · rfl
  · have := (hnodup.getElem_inj_iff).mp heq
    omega

/-- **What a failure leaves behind.** If the step that fails in a run of a new decompiler fails
cleanly, the session is the one in which the decompiler was before this step: the new one if the
step is the first, and else the one that a request for the step before it leads to. -/
theorem RunsTo.session_before_failure {d : Decompiler} {c : σ} (hsteady : d.Steady)
    (hnodup : d.steps.Nodup) (hnone : d.failed = none)
    (hcounter : d.state.counter = Counter.fresh) {step : String} {cause : RunError}
    {w : Decompiler × σ}
    (h : RunsTo d.passes.length (d, c) (.error (.stepFailed step cause), w))
    (hclean : ∀ p ∈ d.passes, p.name = step → p.FailsCleanly) :
    d.steps[0]? = some step ∧ w.1.session = d.session ∨
      ∃ k previous, d.steps[k]? = some previous ∧ d.steps[k + 1]? = some step ∧
        (serve (d, c) (.upTo previous)).1 = .ok () ∧
        (serve (d, c) (.upTo previous)).2.1.session = w.1.session := by
  obtain ⟨⟨d₁, c₁⟩, hruns, -, hlt, hsame, hfail⟩ :=
    RunsTo.exists_failing_step (w := (d, c)) hsteady (Nat.le_refl _) h
  simp only at hruns hlt hsame
  obtain ⟨pass, cause', hpass, herror, hsession⟩ := session_of_failed_step (hsame.steady hsteady)
    (by rw [hsame.passes_eq]; exact hlt) hfail
  obtain ⟨rfl, rfl⟩ : step = pass.name ∧ cause = cause' := by
    injection herror with hstep hcause
    exact ⟨hstep, hcause⟩
  rw [hsame.passes_eq] at hpass
  have hstep : d.steps[d₁.state.nextStep]? = some pass.name := by
    rw [steps, List.getElem?_map, hpass]
    rfl
  rw [hsession (hclean pass (List.mem_of_getElem? hpass) rfl)]
  rw [sessionBefore]
  cases hk : d₁.state.nextStep with
  | zero =>
      -- The run has failed at once, and a new counter is what the decompiler has.
      rw [hk] at hruns hstep
      cases hruns with
      | step hlt => cases hlt
      | done _ =>
          refine .inl ⟨hstep, ?_⟩
          rw [if_pos rfl, ← hcounter]
          rfl
  | succ k =>
      rw [hk] at hruns hstep hlt
      have hk' : k < d.steps.length := by rw [steps, List.length_map]; omega
      have hprevious := List.getElem?_eq_getElem hk'
      have hserve := (runsTo_serve (w := (d, c)) hsteady hnone
        (limit?_upTo hnodup hprevious)).unique hruns
      refine .inr ⟨k, _, hprevious, hstep, ?_, ?_⟩
      · rw [hserve]
      · rw [hserve, if_neg (Nat.succ_ne_zero k)]

/-! ### New decompilers -/

/-- Adding a pass succeeds under a new name. -/
theorem withPass_eq_ok {d d' : Decompiler} {pass : Pass} (h : d.withPass pass = .ok d') :
    pass.name ∉ d.steps ∧ d' = { d with added := d.added ++ [pass] } := by
  rw [withPass] at h
  split at h
  · cases h
  · split at h
    · cases h
    · rename_i hname
      cases h
      exact ⟨hname, rfl⟩

/-- The steps of a decompiler to which a pass has been added. -/
theorem perm_steps_added (d : Decompiler) (pass : Pass) :
    ({ d with added := d.added ++ [pass] } : Decompiler).steps.Perm (pass.name :: d.steps) := by
  simp only [steps, passes, List.map_append, List.map_cons, List.map_nil]
  rw [← List.append_assoc, List.append_assoc _ [pass.name]]
  exact List.perm_middle

/-- **A new decompiler** with passes of its own: they are added in order, and all steps have names
of their own. -/
theorem foldlM_withPass {d d' : Decompiler} {added : List Pass} (hnodup : d.steps.Nodup)
    (h : added.foldlM withPass d = .ok d') :
    d' = { d with added := d.added ++ added } ∧ d'.steps.Nodup := by
  induction added generalizing d with
  | nil =>
      cases h
      rw [List.append_nil]
      exact ⟨rfl, hnodup⟩
  | cons pass added ih =>
      rw [List.foldlM_cons] at h
      cases hpass : d.withPass pass with
      | error e =>
          rw [hpass] at h
          cases h
      | ok d₁ =>
          rw [hpass] at h
          obtain ⟨hname, rfl⟩ := withPass_eq_ok hpass
          have hperm := perm_steps_added d pass
          obtain ⟨rfl, hnodup'⟩ := ih (hperm.nodup_iff.mpr (List.nodup_cons.mpr ⟨hname, hnodup⟩)) h
          refine ⟨?_, hnodup'⟩
          simp only [List.append_assoc, List.singleton_append]

/-- The built-in steps have names of their own. -/
theorem nodup_steps_start (source : Source) (entry : Nat) (config : Config) (metrics : Metrics) :
    (start source entry config metrics).steps.Nodup := by
  change ["basic_blocks", "ssa", "pruned", "finalize"].Nodup
  decide

/-! ### Clocks have no say -/

/-- Decompilers that are **in the same run**: they differ in metrics only. -/
structure SameRun (d d' : Decompiler) : Prop extends SamePasses d d' where
  state_eq : d'.state = d.state
  failed_eq : d'.failed = d.failed

/-- A pass starts in sessions that differ in metrics only. -/
theorem SameRun.sessionBefore_eq {d d' : Decompiler} (h : SameRun d d') :
    d'.sessionBefore = { d.sessionBefore with metrics := d'.session.metrics } := by
  have hsession : d'.session = ⟨d.session.state, d'.session.metrics⟩ := by
    rw [← show d'.session.state = d.session.state from h.state_eq]
  rw [sessionBefore, sessionBefore, h.state_eq]
  split
  · rw [hsession]
  · rw [hsession]

/-- If passes ignore metrics, **a step** makes the same of decompilers in the same run, however long
it takes. -/
theorem SameRun.stepped {d d' : Decompiler} (h : SameRun d d')
    (hignores : ∀ p ∈ d.passes, p.IgnoresMetrics) (nanos nanos' : Nat) :
    (d'.stepped nanos').1 = (d.stepped nanos).1 ∧
      SameRun (d.stepped nanos).2 (d'.stepped nanos').2 := by
  rw [Decompiler.stepped, Decompiler.stepped, h.toSamePasses.passes_eq, h.state_eq]
  cases hpass : d.passes[d.state.nextStep]? with
  | none => exact ⟨rfl, h⟩
  | some pass =>
      obtain ⟨hanswer, hstate⟩ := hignores pass (List.mem_of_getElem? hpass) d.sessionBefore
        d'.session.metrics
      rw [← h.sessionBefore_eq] at hanswer hstate
      simp only
      generalize pass.run.run.run d.sessionBefore = left at hanswer hstate
      generalize pass.run.run.run d'.sessionBefore = right at hanswer hstate
      obtain ⟨answer, session⟩ := left
      obtain ⟨answer', session'⟩ := right
      obtain rfl : answer' = answer := hanswer
      have hsession : session'.state = session.state := hstate
      cases answer' with
      | error cause => exact ⟨rfl, ⟨h.source_eq, h.added_eq⟩, hsession, rfl⟩
      | ok _ =>
          refine ⟨rfl, ⟨h.source_eq, h.added_eq⟩, ?_, h.failed_eq⟩
          simp only [state, sessionAfter, hsession]

/-- A step keeps the passes. -/
theorem samePasses_stepped (d : Decompiler) (nanos : Nat) : SamePasses d (d.stepped nanos).2 := by
  rw [stepped]
  split
  · exact ⟨rfl, rfl⟩
  · split <;> exact ⟨rfl, rfl⟩

/-- If passes ignore metrics, **a run** has the same outcome on every clock. -/
theorem RunsTo.sameRun {limit : Nat} {w w' : Decompiler × σ}
    (hignores : ∀ p ∈ w.1.passes, p.IgnoresMetrics) (hsame : SameRun w.1 w'.1)
    {r r' : Except RunError Unit × Decompiler × σ} (h : RunsTo limit w r)
    (h' : RunsTo limit w' r') : r'.1 = r.1 ∧ SameRun r.2.1 r'.2.1 := by
  induction h generalizing w' with
  | done hle =>
      cases h' with
      | done _ => exact ⟨rfl, hsame⟩
      | step hlt => rw [hsame.state_eq] at hlt; omega
      | fail hlt => rw [hsame.state_eq] at hlt; omega
  | @step w w₁ r hlt hstep _ ih =>
      obtain ⟨nanos, c, hstepped⟩ := perform_runStep w.1 w.2
      obtain ⟨nanos', c', hstepped'⟩ := perform_runStep w'.1 w'.2
      obtain ⟨hanswer, hsame'⟩ := hsame.stepped hignores nanos nanos'
      obtain ⟨hok, rfl⟩ := Prod.mk.inj (hstepped.symm.trans hstep)
      cases h' with
      | done hle => rw [hsame.state_eq] at hle; omega
      | step _ hstep' h' =>
          obtain ⟨-, rfl⟩ := Prod.mk.inj (hstepped'.symm.trans hstep')
          refine ih ?_ hsame' h'
          rw [(samePasses_stepped w.1 nanos).passes_eq]
          exact hignores
      | fail _ hstep' =>
          obtain ⟨herror, -⟩ := Prod.mk.inj (hstepped'.symm.trans hstep')
          rw [hanswer, hok] at herror
          cases herror
  | @fail w w₁ e hlt hstep =>
      obtain ⟨nanos, c, hstepped⟩ := perform_runStep w.1 w.2
      obtain ⟨nanos', c', hstepped'⟩ := perform_runStep w'.1 w'.2
      obtain ⟨hanswer, hsame'⟩ := hsame.stepped hignores nanos nanos'
      obtain ⟨herror, rfl⟩ := Prod.mk.inj (hstepped.symm.trans hstep)
      cases h' with
      | done hle => rw [hsame.state_eq] at hle; omega
      | step _ hstep' =>
          obtain ⟨hok, -⟩ := Prod.mk.inj (hstepped'.symm.trans hstep')
          rw [hanswer, herror] at hok
          cases hok
      | fail _ hstep' =>
          obtain ⟨herror', rfl⟩ := Prod.mk.inj (hstepped'.symm.trans hstep')
          rw [hanswer, herror] at herror'
          exact ⟨herror'.symm, hsame'⟩

/-! ### Staging -/

/-- The passes of a decompiler are the built-in ones and those added to them. -/
theorem mem_passes {d : Decompiler} {p : Pass} :
    p ∈ d.passes ↔ p ∈ Pass.builtIn d.source ∨ p ∈ d.added := by
  simp only [passes, Pass.builtIn, List.mem_append, List.mem_cons, List.not_mem_nil]
  tauto

/-- Steps with names of their own have passes of their own. -/
theorem eq_of_name_eq {d : Decompiler} (hnodup : d.steps.Nodup) {p q : Pass} (hp : p ∈ d.passes)
    (hq : q ∈ d.passes) (h : p.name = q.name) : p = q :=
  List.inj_on_of_nodup_map hnodup hp hq h

/-- A request that names known steps only leads somewhere. -/
theorem exists_limit? {d : Decompiler} {request : Request}
    (h : ∀ step, request = .upTo step → step ∈ d.steps) :
    ∃ limit, request.limit? d = some limit := by
  cases request with
  | completion => exact ⟨_, rfl⟩
  | upTo step =>
      obtain ⟨position, hposition⟩ := Option.isSome_iff_exists.mp
        (List.isSome_idxOf?.mpr (h step rfl))
      exact ⟨position + 1, by rw [Request.limit?, hposition]; rfl⟩

/-- **Staging does not change the outcome.** Take any new decompiler, with any passes added that
keep the progress of a run, on any clock, and make any requests to run up to some step or other.
Running to completion then leaves the decompiler, its clock and its metrics as a single run does.
From a decompiler that has failed every request is refused under the name of the step that has
failed, and changes nothing; from one that has not, a request for an unknown step is refused and
changes nothing, while any other request comes through or ends with the error, and everything else,
of the single run. If the step that fails is a built-in one, the state is the one that the step
before it has left. And unless an added pass looks at metrics, no other clock leads to another
answer or another state. -/
theorem staging_keeps_outcome {source : Source} {entry : Nat} {config : Config} {metrics : Metrics}
    {added : List Pass} {d : Decompiler}
    (hd : added.foldlM withPass (start source entry config metrics) = .ok d)
    (hadded : ∀ p ∈ added, p.KeepsProgress) (c : σ) (stages : List String) :
    let single := serve (d, c) .completion
    let w := afterStages (d, c) stages
    (serve w .completion).2 = single.2 ∧
    (∀ step, w.1.failed = some step →
      ∀ request, serve w request = (.error (.aborted step), w)) ∧
    (w.1.failed = none →
      (∀ step, step ∉ d.steps → serve w (.upTo step) = (.error (.unknownStep step), w)) ∧
      ∀ request, (∀ step, request = .upTo step → step ∈ d.steps) →
        (serve w request).1 = .ok () ∧ (serve w request).2.1.failed = none ∨
        (∃ step cause, (serve w request).1 = .error (.stepFailed step cause) ∧
          (serve w request).2.1.failed = some step) ∧ serve w request = single) ∧
    (∀ step cause, single.1 = .error (.stepFailed step cause) →
      step ∈ (Pass.builtIn source).map (·.name) →
      d.steps[0]? = some step ∧ single.2.1.session = d.session ∨
      ∃ k previous, d.steps[k]? = some previous ∧ d.steps[k + 1]? = some step ∧
        (serve (d, c) (.upTo previous)).1 = .ok () ∧
        (serve (d, c) (.upTo previous)).2.1.session = single.2.1.session) ∧
    ((∀ p ∈ added, p.IgnoresMetrics) → ∀ c' : σ,
      (serve (d, c') .completion).1 = single.1 ∧
        (serve (d, c') .completion).2.1.state = single.2.1.state) := by
  obtain ⟨rfl, hnodup⟩ := foldlM_withPass (nodup_steps_start source entry config metrics) hd
  generalize hnew : ({ start source entry config metrics with
    added := (start source entry config metrics).added ++ added } : Decompiler) = d at hd hnodup
  have hmem : ∀ p, p ∈ d.passes ↔ p ∈ Pass.builtIn source ∨ p ∈ added := fun p => by
    rw [mem_passes, ← hnew]
    rfl
  have hsteady : d.Steady := fun p hp =>
    ((hmem p).mp hp).elim (fun hp => (Pass.tidy_of_mem_builtIn hp).keepsProgress) (hadded p)
  have hnone : d.failed = none := by rw [← hnew]; rfl
  have hruns : ∀ c : σ, RunsTo d.passes.length (d, c) (serve (d, c) .completion) :=
    fun c => runsTo_serve (w := (d, c)) hsteady hnone rfl
  intro single w
  have htrack : OnTrack d single w := by
    refine OnTrack.after_stages hsteady ⟨⟨rfl, rfl⟩, fun _ => hruns c, fun step hstep => ?_⟩ stages
    rw [hnone] at hstep
    cases hstep
  refine ⟨?_, fun step hfailed => serve_of_failed hfailed, fun hfailed => ⟨?_, ?_⟩, ?_, ?_⟩
  · cases hfailed : w.1.failed with
    | some step =>
        obtain ⟨cause, hsingle⟩ := htrack.ended step hfailed
        rw [serve_of_failed hfailed, hsingle]
    | none =>
        have hlimit : Request.completion.limit? w.1 = some w.1.passes.length := rfl
        have hrest := runsTo_serve (htrack.samePasses.steady hsteady) hfailed hlimit
        rw [htrack.samePasses.passes_eq] at hrest
        rw [hrest.unique (htrack.ahead hfailed)]
  · intro step hstep
    exact serve_of_unknown hfailed (by rw [htrack.samePasses.steps_eq]; exact hstep)
  · intro request hknown
    obtain ⟨limit, hlimit⟩ := exists_limit? hknown
    exact (htrack.after_request hsteady hfailed request hlimit).2
  · intro step cause herror hbuiltIn
    have hfails : RunsTo d.passes.length (d, c) (.error (.stepFailed step cause), single.2) := by
      rw [← herror]
      exact hruns c
    refine hfails.session_before_failure hsteady hnodup hnone (by rw [← hnew]; rfl)
      fun p hp hname => ?_
    obtain ⟨q, hq, rfl⟩ := List.mem_map.mp hbuiltIn
    rw [eq_of_name_eq hnodup hp ((hmem q).mpr (.inl hq)) hname]
    exact (Pass.tidy_of_mem_builtIn hq).failsCleanly
  · intro hignores c'
    have hignores' : ∀ p ∈ d.passes, p.IgnoresMetrics := fun p hp =>
      ((hmem p).mp hp).elim (fun hp => (Pass.tidy_of_mem_builtIn hp).ignoresMetrics) (hignores p)
    have hsame : SameRun d d := ⟨⟨rfl, rfl⟩, rfl, rfl⟩
    obtain ⟨hanswer, hsame⟩ :=
      RunsTo.sameRun (w := (d, c)) hignores' hsame (hruns c) (hruns c')
    exact ⟨hanswer, hsame.state_eq⟩

/-- A clock on which every measurement takes longer than the one before. -/
structure Ticks where
  count : Nat

instance : Stopwatch (StateM Ticks) where
  measure f := fun c => ((f (), c.count), ⟨c.count + 1⟩)

instance : LawfulStopwatch Ticks where
  exists_nanos _ c := ⟨c.count, ⟨c.count + 1⟩, rfl⟩

/-- A pass that loses the flow graph. -/
def dropGraph : Pass where
  name := "drop_graph"
  run := Pass.modifyState ({ · with flow := none })

/-- A decompiler that loses its graph before the last step. -/
def forgetful : Decompiler :=
  { start (Source.ofItems [{ address := 0, terminator := .ret none }]) 0 with added := [dropGraph] }

/-- A decompiler for a listing in which a version has been given already. -/
def premature : Decompiler :=
  start (Source.ofItems
    [{ address := 0, statements := [⟨⟨"x", some 3⟩, .imm 1⟩], terminator := .ret none }]) 0

/-- The last step misses the graph that the pass before it has lost, however the run comes to it. A
graph with a version is refused by the second step, and is left as the first one has built it, with
the counter where it was. -/
theorem staging_keeps_outcome_forgetful :
    let w := afterStages (forgetful, Ticks.mk 0) ["nowhere", "ssa"]
    [dropGraph].foldlM withPass (start forgetful.source 0) = .ok forgetful ∧
    dropGraph.KeepsProgress ∧ w.1.failed = none ∧
    serve w .completion = serve (forgetful, Ticks.mk 0) .completion ∧
    (serve w .completion).1 =
      .error (.stepFailed Step.finalize (.stepNotReached Step.basicBlocks)) ∧
    (serve (forgetful, Ticks.mk 0) (.upTo "drop_graph")).2.1.session =
      (serve w .completion).2.1.session ∧
    let single := serve (premature, Ticks.mk 0) .completion
    single.1 = .error (.stepFailed Step.ssa (.ssa .alreadyInSsa)) ∧
    (serve (premature, Ticks.mk 0) (.upTo "basic_blocks")).2.1.session = single.2.1.session ∧
    single.2.1.state.flow.map (·.blocks.map (·.defs)) = some [[⟨"x", some 3⟩]] ∧
    single.2.1.state.counter = .fresh := by
  have hd : [dropGraph].foldlM withPass (start forgetful.source 0) = .ok forgetful := rfl
  have hkeeps : dropGraph.KeepsProgress := fun _ => ⟨rfl, rfl⟩
  have hsteps : forgetful.steps = ["basic_blocks", "ssa", "pruned", "drop_graph", "finalize"] := rfl
  have hfailed : (afterStages (forgetful, Ticks.mk 0) ["nowhere", "ssa"]).1.failed = none := by
    decide_cbv
  have hsingle : Prod.map id (·.1.failed) (serve (forgetful, Ticks.mk 0) .completion) =
      (.error (.stepFailed Step.finalize (.stepNotReached Step.basicBlocks)),
        some Step.finalize) := by decide_cbv
  obtain ⟨herror, hstep⟩ := Prod.mk.inj hsingle
  obtain ⟨hsame, -, hrest, hleft, -⟩ :=
    staging_keeps_outcome hd (by simpa using hkeeps) (Ticks.mk 0) ["nowhere", "ssa"]
  have heq : serve (afterStages (forgetful, Ticks.mk 0) ["nowhere", "ssa"]) .completion =
      serve (forgetful, Ticks.mk 0) .completion := by
    rcases (hrest hfailed).2 .completion (by rintro _ ⟨⟩) with ⟨-, hnone⟩ | ⟨-, heq⟩
    · rw [hsame] at hnone
      cases hstep.symm.trans hnone
    · exact heq
  refine ⟨hd, hkeeps, hfailed, heq, heq ▸ herror, ?_, ?_⟩
  · rw [heq]
    rcases hleft _ _ herror (by decide) with
      ⟨hfirst, -⟩ | ⟨k, previous, hprevious, hnext, -, hsession⟩
    · rw [hsteps] at hfirst
      exact absurd hfirst (by decide)
    · rw [hsteps] at hprevious hnext
      have hk := (List.getElem?_eq_some_iff.mp hnext).1
      obtain rfl : k = 3 :=
        Nat.succ.inj ((List.getElem?_inj (j := 4) hk (by decide)).mp hnext)
      cases hprevious
      exact hsession
  · have hsteps : premature.steps = ["basic_blocks", "ssa", "pruned", "finalize"] := rfl
    have hrefused : Prod.map id (fun w => (w.1.state.flow.map (·.blocks.map (·.defs)),
        w.1.state.counter)) (serve (premature, Ticks.mk 0) .completion) =
          (.error (.stepFailed Step.ssa (.ssa .alreadyInSsa)), some [[⟨"x", some 3⟩]], .fresh) := by
      decide_cbv
    obtain ⟨herror, hstate⟩ := Prod.mk.inj hrefused
    have hd : [].foldlM withPass (start premature.source 0) = .ok premature := rfl
    obtain ⟨-, -, -, hleft, -⟩ := staging_keeps_outcome hd (by simp) (Ticks.mk 0) []
    refine ⟨herror, ?_, Prod.mk.inj hstate⟩
    rcases hleft _ _ herror (by decide) with
      ⟨hfirst, -⟩ | ⟨k, previous, hprevious, hnext, -, hsession⟩
    · rw [hsteps] at hfirst
      exact absurd hfirst (by decide)
    · rw [hsteps] at hprevious hnext
      have hk := (List.getElem?_eq_some_iff.mp hnext).1
      obtain rfl : k = 0 :=
        Nat.succ.inj ((List.getElem?_inj (j := 1) hk (by decide)).mp hnext)
      cases hprevious
      exact hsession

end Decompiler

end FlowForm
