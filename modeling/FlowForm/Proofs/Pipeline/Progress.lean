import FlowForm.Proofs.Pipeline.Staging

/-!
# Steps Run Once and in Order

A decompiler is configured, given passes and run by **calls**, in whatever sequence they are made.
A run that fails leaves a decompiler behind on which calls can still be made; a pass that is refused
does not, and ends the sequence (`afterCalls`).

Two things hold however the calls are mixed. Every decompiler is **in order** (`InOrder`): the steps
it has completed are the first ones of all its steps, as many as its position says, and a step that
has failed stands at that position. And what has been done stays done (`Precedes`): completed steps
remain so, once a run has started its steps are fixed, and after a failure nothing but the
configuration ever changes. Both are shown for one step (`InOrder.stepped`), for a run up to a limit
(`RunsTo.inOrder`), for one call (`InOrder.after_call`) and for any sequence of calls
(`InOrder.after_calls`).

## Main results

* `stepped_cases`: what a step writes down.
* `InOrder.after_calls`: any sequence of calls keeps a decompiler in order.
* `calls_keep_order`: all that calls keep.
-/

namespace FlowForm.Decompiler

variable {σ : Type}

/-! ### Decompilers in order -/

/-- A decompiler is **in order** if its passes leave its progress alone, its steps have names of
their own, the completed ones are the first ones up to its position, and a step that has failed
stands at this position. -/
structure InOrder (d : Decompiler) : Prop where
  steady : d.Steady
  nodup_steps : d.steps.Nodup
  nextStep_le : d.state.nextStep ≤ d.steps.length
  completed_eq : d.state.completed = d.steps.take d.state.nextStep
  failed_at : ∀ step, d.failed = some step → d.steps[d.state.nextStep]? = some step

/-- The names of all steps: the built-in ones, with the added ones just before the last. -/
theorem steps_eq (d : Decompiler) : d.steps =
    [Step.basicBlocks, Step.ssa, Step.pruned] ++ d.added.map (·.name) ++ [Step.finalize] := by
  simp only [steps, passes, List.map_append]
  rfl

namespace InOrder

variable {d : Decompiler}

/-- The completed steps are the first ones. -/
theorem isPrefix_completed (h : InOrder d) : d.state.completed <+: d.steps :=
  h.completed_eq ▸ List.take_prefix ..

/-- There are as many completed steps as the position says. -/
theorem length_completed (h : InOrder d) : d.state.completed.length = d.state.nextStep := by
  rw [h.completed_eq, List.length_take, Nat.min_eq_left h.nextStep_le]

/-- **A step has been completed** if and only if it stands before the position. -/
theorem hasRun_iff (h : InOrder d) (step : String) :
    d.state.hasRun step = true ↔ d.steps.idxOf step < d.state.nextStep := by
  rw [RunState.hasRun, List.contains_iff_mem, h.isPrefix_completed.mem_iff_idxOf_lt_length,
    h.length_completed]

/-- A step that has **failed** is one of the steps, and has not been completed. -/
theorem failed_not_completed (h : InOrder d) {step : String} (hfailed : d.failed = some step) :
    d.state.nextStep < d.steps.length ∧ step ∉ d.state.completed := by
  obtain ⟨hlt, hget⟩ := List.getElem?_eq_some_iff.mp (h.failed_at step hfailed)
  refine ⟨hlt, fun hmem => ?_⟩
  rw [h.isPrefix_completed.mem_iff_idxOf_lt_length, h.length_completed, ← hget,
    h.nodup_steps.idxOf_getElem] at hmem
  exact Nat.lt_irrefl _ hmem

end InOrder

/-- A new decompiler is in order. -/
theorem inOrder_start (source : Source) (entry : Nat) (config : Config) (metrics : Metrics) :
    InOrder (start source entry config metrics) where
  steady := fun p hp => (Pass.tidy_of_mem_builtIn
    ((mem_passes.mp hp).resolve_right List.not_mem_nil)).keepsProgress
  nodup_steps := nodup_steps_start source entry config metrics
  nextStep_le := Nat.zero_le _
  completed_eq := rfl
  failed_at := fun _ h => by cases h

/-! ### Steps -/

/-- **What a step writes down**: nothing if no pass is left, its name and the next position if the
pass succeeds, and its name as the one that has failed if it does not. -/
theorem stepped_cases {d : Decompiler} (hsteady : d.Steady) (nanos : Nat) :
    d.stepped nanos = (.ok (), d) ∨
    ∃ step, d.steps[d.state.nextStep]? = some step ∧
      ((d.stepped nanos).1 = .ok () ∧ (d.stepped nanos).2.failed = d.failed ∧
          (d.stepped nanos).2.state.nextStep = d.state.nextStep + 1 ∧
          (d.stepped nanos).2.state.completed = d.state.completed ++ [step] ∨
        (d.stepped nanos).1 ≠ .ok () ∧ (d.stepped nanos).2.failed = some step ∧
          (d.stepped nanos).2.state.nextStep = d.state.nextStep ∧
          (d.stepped nanos).2.state.completed = d.state.completed) := by
  rw [stepped]
  cases hpass : d.passes[d.state.nextStep]? with
  | none => exact .inl rfl
  | some pass =>
      obtain ⟨hcompleted, hnext⟩ := hsteady pass (List.mem_of_getElem? hpass) d.sessionBefore
      rw [(sessionBefore_progress d).1] at hcompleted
      rw [(sessionBefore_progress d).2] at hnext
      refine .inr ⟨pass.name, by rw [steps, List.getElem?_map, hpass]; rfl, ?_⟩
      simp only
      generalize pass.run.run.run d.sessionBefore = outcome at hcompleted hnext
      obtain ⟨cause | _, session⟩ := outcome
      · exact .inr ⟨by simp, rfl, hnext, hcompleted⟩
      · exact .inl ⟨rfl, rfl, congrArg (· + 1) hnext, congrArg (· ++ [pass.name]) hcompleted⟩

/-- **A step keeps a decompiler in order** that has not failed, and what has been completed. -/
theorem InOrder.stepped {d : Decompiler} (h : InOrder d) (hnone : d.failed = none) (nanos : Nat) :
    InOrder (d.stepped nanos).2 ∧
      d.state.completed <+: (d.stepped nanos).2.state.completed ∧
      ((d.stepped nanos).1 = .ok () → (d.stepped nanos).2.failed = none) := by
  have hsame := samePasses_stepped d nanos
  have hnodup : (d.stepped nanos).2.steps.Nodup := by
    rw [hsame.steps_eq]
    exact h.nodup_steps
  rcases stepped_cases h.steady nanos with heq | ⟨step, hstep, hcases⟩
  · rw [heq]
    exact ⟨h, List.prefix_rfl, fun _ => hnone⟩
  · have hlt := (List.getElem?_eq_some_iff.mp hstep).1
    rcases hcases with ⟨-, hfailed, hnext, hcompleted⟩ | ⟨herror, hfailed, hnext, hcompleted⟩
    · rw [hnone] at hfailed
      refine ⟨⟨hsame.steady h.steady, hnodup, ?_, ?_, fun step' hstep' => ?_⟩, ?_, fun _ => hfailed⟩
      · rw [hsame.steps_eq, hnext]
        exact hlt
      · rw [hsame.steps_eq, hnext, hcompleted, h.completed_eq, List.take_add_one, hstep,
          Option.toList_some]
      · rw [hfailed] at hstep'
        cases hstep'
      · rw [hcompleted]
        exact List.prefix_append ..
    · refine ⟨⟨hsame.steady h.steady, hnodup, ?_, ?_, fun step' hstep' => ?_⟩, ?_,
        fun hok => absurd hok herror⟩
      · rw [hsame.steps_eq, hnext]
        exact h.nextStep_le
      · rw [hsame.steps_eq, hnext, hcompleted]
        exact h.completed_eq
      · rw [hsame.steps_eq, hnext, hstep, ← hfailed, hstep']
      · rw [hcompleted]

variable [Stopwatch (StateM σ)]

/-- **A run keeps a decompiler in order** that has not failed, and what has been completed. -/
theorem RunsTo.inOrder [LawfulStopwatch σ] {limit : Nat} {w : Decompiler × σ}
    {r : Except RunError Unit × Decompiler × σ} (hruns : RunsTo limit w r) (h : InOrder w.1)
    (hnone : w.1.failed = none) :
    InOrder r.2.1 ∧ SamePasses w.1 r.2.1 ∧ w.1.state.completed <+: r.2.1.state.completed := by
  induction hruns with
  | done _ => exact ⟨h, ⟨rfl, rfl⟩, List.prefix_rfl⟩
  | @step w w₁ r _ hstep _ ih =>
      obtain ⟨nanos, c, hstepped⟩ := perform_runStep w.1 w.2
      obtain ⟨hok, rfl⟩ := Prod.mk.inj (hstepped.symm.trans hstep)
      obtain ⟨hnext, hkept, hfailed⟩ := h.stepped hnone nanos
      obtain ⟨hlast, hsame, hkept'⟩ := ih hnext (hfailed hok)
      exact ⟨hlast, (samePasses_stepped w.1 nanos).trans hsame, hkept.trans hkept'⟩
  | @fail w w₁ e _ hstep =>
      obtain ⟨nanos, c, hstepped⟩ := perform_runStep w.1 w.2
      obtain ⟨-, rfl⟩ := Prod.mk.inj (hstepped.symm.trans hstep)
      obtain ⟨hnext, hkept, -⟩ := h.stepped hnone nanos
      exact ⟨hnext, samePasses_stepped w.1 nanos, hkept⟩

/-! ### Calls -/

/-- A **call** on a decompiler. -/
inductive Call where
  | addPass (pass : Pass)
  | setConfig (config : Config)
  | run (request : Request)

/-- What a call makes of a decompiler and its clock. The answer to a request is dropped. -/
def call (w : Decompiler × σ) : Call → Except RunError (Decompiler × σ)
  | .addPass pass => (w.1.withPass pass).map fun d => (d, w.2)
  | .setConfig config => .ok (w.1.withConfig config, w.2)
  | .run request => .ok (serve w request).2

/-- What calls made one after the other leave behind. -/
def afterCalls (w : Decompiler × σ) (calls : List Call) : Except RunError (Decompiler × σ) :=
  calls.foldlM call w

/-- A run has **started** if a step has been completed or has failed. -/
def Started (d : Decompiler) : Prop :=
  0 < d.state.nextStep ∨ d.failed.isSome = true

/-- **What has been done stays done**: completed steps remain completed and in place, a run that has
started goes on with the same steps, and one that has failed never changes again, but for its
configuration. -/
structure Precedes (w w' : Decompiler × σ) : Prop where
  isPrefix_completed : w.1.state.completed <+: w'.1.state.completed
  started : w.1.Started → w'.1.Started
  steps_eq : w.1.Started → w'.1.steps = w.1.steps
  halted : w.1.failed.isSome = true → w' = (w.1.withConfig w'.1.state.config, w.2)

omit [Stopwatch (StateM σ)] in
/-- Nothing is undone by doing nothing. -/
theorem Precedes.refl (w : Decompiler × σ) : Precedes w w :=
  ⟨List.prefix_rfl, id, fun _ => rfl, fun _ => rfl⟩

omit [Stopwatch (StateM σ)] in
/-- What stays done at first and stays done later stays done. -/
theorem Precedes.trans {w w' w'' : Decompiler × σ} (h : Precedes w w') (h' : Precedes w' w'') :
    Precedes w w'' where
  isPrefix_completed := h.isPrefix_completed.trans h'.isPrefix_completed
  started := fun hw => h'.started (h.started hw)
  steps_eq := fun hw => (h'.steps_eq (h.started hw)).trans (h.steps_eq hw)
  halted := fun hw => by
    have hfirst := h.halted hw
    have hfailed : w'.1.failed.isSome = true := by
      rw [hfirst]
      exact hw
    rw [h'.halted hfailed, hfirst]
    rfl

/-- A pass is added only **before a run has started**. -/
theorem not_started_of_withPass {d d' : Decompiler} {pass : Pass} (h : d.withPass pass = .ok d') :
    ¬ d.Started := by
  intro hstarted
  rw [withPass, if_pos (by simpa [Started] using hstarted)] at h
  cases h

/-- Adding a pass keeps a decompiler in order. -/
theorem InOrder.after_withPass {d d' : Decompiler} (h : InOrder d) {pass : Pass}
    (hkeeps : pass.KeepsProgress) (hadd : d.withPass pass = .ok d') : InOrder d' := by
  have hnot := not_started_of_withPass hadd
  obtain ⟨hname, rfl⟩ := withPass_eq_ok hadd
  have hzero : d.state.nextStep = 0 := Nat.eq_zero_of_not_pos fun hpos => hnot (.inl hpos)
  refine ⟨fun p hp => ?_, ?_, ?_, ?_, fun step hstep => ?_⟩
  · rcases mem_passes.mp hp with hbuiltIn | hadded
    · exact h.steady p (mem_passes.mpr (.inl hbuiltIn))
    · rcases List.mem_append.mp hadded with hadded | hpass
      · exact h.steady p (mem_passes.mpr (.inr hadded))
      · obtain rfl : p = pass := List.mem_singleton.mp hpass
        exact hkeeps
  · exact (perm_steps_added d pass).nodup_iff.mpr (List.nodup_cons.mpr ⟨hname, h.nodup_steps⟩)
  · exact hzero.le.trans (Nat.zero_le _)
  · have hnone := h.completed_eq
    rw [hzero, List.take_zero] at hnone
    change d.state.completed = List.take d.state.nextStep _
    rw [hnone, hzero, List.take_zero]
  · exact absurd (.inr (Option.isSome_iff_exists.mpr ⟨step, hstep⟩)) hnot

variable [LawfulStopwatch σ]

/-- **A request keeps a decompiler in order**, whatever becomes of it. -/
theorem InOrder.after_request {w : Decompiler × σ} (h : InOrder w.1) (request : Request) :
    InOrder (serve w request).2.1 ∧ Precedes w (serve w request).2 := by
  cases hfailed : w.1.failed with
  | some step =>
      rw [serve_of_failed hfailed]
      exact ⟨h, .refl w⟩
  | none =>
      cases hlimit : request.limit? w.1 with
      | some limit =>
          obtain ⟨horder, hsame, hkept⟩ := (runsTo_serve h.steady hfailed hlimit).inOrder h hfailed
          refine ⟨horder, hkept, fun hstarted => .inl ?_, fun _ => hsame.steps_eq, fun hsome => ?_⟩
          · have hle := hkept.length_le
            rw [h.length_completed, horder.length_completed] at hle
            rcases hstarted with hpos | hsome
            · omega
            · rw [hfailed] at hsome
              cases hsome
          · rw [hfailed] at hsome
            cases hsome
      | none =>
          cases request with
          | completion => cases hlimit
          | upTo step =>
              have hunknown : step ∉ w.1.steps := by
                rw [Request.limit?, Option.map_eq_none_iff] at hlimit
                exact List.idxOf?_eq_none_iff.mp hlimit
              rw [serve_of_unknown hfailed hunknown]
              exact ⟨h, .refl w⟩

/-- **A call keeps a decompiler in order.** -/
theorem InOrder.after_call {w w' : Decompiler × σ} (h : InOrder w.1) {c : Call}
    (hkeeps : ∀ pass, c = .addPass pass → pass.KeepsProgress) (hcall : call w c = .ok w') :
    InOrder w'.1 ∧ Precedes w w' := by
  cases c with
  | addPass pass =>
      cases hadd : w.1.withPass pass with
      | error e =>
          rw [call, hadd] at hcall
          cases hcall
      | ok d =>
          rw [call, hadd] at hcall
          cases hcall
          have hnot := not_started_of_withPass hadd
          refine ⟨h.after_withPass (hkeeps pass rfl) hadd, ?_, ?_, ?_, ?_⟩
          · obtain ⟨-, rfl⟩ := withPass_eq_ok hadd
            exact List.prefix_rfl
          · exact fun hstarted => absurd hstarted hnot
          · exact fun hstarted => absurd hstarted hnot
          · exact fun hsome => absurd (.inr hsome) hnot
  | setConfig config =>
      cases hcall
      exact ⟨⟨h.steady, h.nodup_steps, h.nextStep_le, h.completed_eq, h.failed_at⟩,
        List.prefix_rfl, id, fun _ => rfl, fun _ => rfl⟩
  | run request =>
      cases hcall
      exact h.after_request request

/-- **Any sequence of calls keeps a decompiler in order**, as long as it lasts. -/
theorem InOrder.after_calls {w w' : Decompiler × σ} (h : InOrder w.1) {calls : List Call}
    (hkeeps : ∀ pass, .addPass pass ∈ calls → pass.KeepsProgress)
    (hcalls : afterCalls w calls = .ok w') : InOrder w'.1 ∧ Precedes w w' := by
  induction calls generalizing w with
  | nil =>
      cases hcalls
      exact ⟨h, .refl _⟩
  | cons c calls ih =>
      rw [afterCalls, List.foldlM_cons] at hcalls
      cases hcall : call w c with
      | error e =>
          rw [hcall] at hcalls
          cases hcalls
      | ok w₁ =>
          rw [hcall] at hcalls
          obtain ⟨h₁, hfirst⟩ := h.after_call
            (fun pass hpass => hkeeps pass (hpass ▸ List.mem_cons_self ..)) hcall
          obtain ⟨h', hrest⟩ := ih h₁
            (fun pass hpass => hkeeps pass (List.mem_cons_of_mem _ hpass)) hcalls
          exact ⟨h', hfirst.trans hrest⟩

/-- **Steps run once and in order.** Make any sequence of calls on a new decompiler, with passes
that keep the progress of a run, on any clock. All steps have names of their own, the first three
and the last being built in. The completed ones are the first ones, as many as the position says, so
that none is completed twice, and a step has been completed if and only if it stands before that
position. A step that has failed stands at the position and is not completed. A pass can be added
only while no step has been completed and none has failed. Whatever calls are made later, completed
steps stay completed; once one has been completed or has failed, the steps stay as they are; and
after a failure nothing but the configuration changes. -/
theorem calls_keep_order {source : Source} {entry : Nat} {config : Config} {metrics : Metrics}
    {c : σ} {calls : List Call} {w : Decompiler × σ}
    (hcalls : afterCalls (start source entry config metrics, c) calls = .ok w)
    (hkeeps : ∀ pass, .addPass pass ∈ calls → pass.KeepsProgress) :
    w.1.steps.Nodup ∧
    [Step.basicBlocks, Step.ssa, Step.pruned] <+: w.1.steps ∧
    w.1.steps.getLast? = some Step.finalize ∧
    w.1.state.nextStep ≤ w.1.steps.length ∧
    w.1.state.completed = w.1.steps.take w.1.state.nextStep ∧
    w.1.state.completed.Nodup ∧
    (∀ step, w.1.state.hasRun step = true ↔ w.1.steps.idxOf step < w.1.state.nextStep) ∧
    (∀ step, w.1.failed = some step →
      w.1.state.nextStep < w.1.steps.length ∧ w.1.steps[w.1.state.nextStep]? = some step ∧
        step ∉ w.1.state.completed) ∧
    (∀ pass d, w.1.withPass pass = .ok d → w.1.state.completed = [] ∧ w.1.failed = none) ∧
    ∀ later w', afterCalls w later = .ok w' →
      (∀ pass, .addPass pass ∈ later → pass.KeepsProgress) →
      w.1.state.completed <+: w'.1.state.completed ∧
      (w.1.state.completed ≠ [] ∨ w.1.failed.isSome = true → w'.1.steps = w.1.steps) ∧
      (w.1.failed.isSome = true → w' = (w.1.withConfig w'.1.state.config, w.2)) := by
  obtain ⟨h, -⟩ := (inOrder_start source entry config metrics).after_calls hkeeps hcalls
  have hpos : w.1.state.completed ≠ [] ↔ 0 < w.1.state.nextStep := by
    rw [← h.length_completed, List.length_pos_iff]
  refine ⟨h.nodup_steps, ?_, ?_, h.nextStep_le, h.completed_eq,
    h.nodup_steps.sublist h.isPrefix_completed.sublist, h.hasRun_iff, fun step hstep => ?_,
    fun pass d hadd => ?_, fun later w' hlater hkeeps' => ?_⟩
  · rw [steps_eq, List.append_assoc]
    exact List.prefix_append ..
  · rw [steps_eq, List.getLast?_append, List.getLast?_singleton, Option.some_or]
  · obtain ⟨hlt, hnot⟩ := h.failed_not_completed hstep
    exact ⟨hlt, h.failed_at step hstep, hnot⟩
  · have hnot := not_started_of_withPass hadd
    refine ⟨not_not.mp fun hne => hnot (.inl (hpos.mp hne)), ?_⟩
    exact Option.not_isSome_iff_eq_none.mp fun hsome => hnot (.inr hsome)
  · obtain ⟨-, hprecedes⟩ := h.after_calls hkeeps' hlater
    refine ⟨hprecedes.isPrefix_completed, fun hstarted => hprecedes.steps_eq ?_, hprecedes.halted⟩
    exact hstarted.imp_left hpos.mp

/-- Calls that add a pass, ask for a step that is not there, and change the configuration on the
way. -/
def mixedCalls : List Call := [
  .setConfig { unresolvedTargets := .record },
  .addPass dropGraph,
  .run (.upTo "nowhere"),
  .run (.upTo Step.ssa),
  .setConfig {},
  .run .completion]

/-- The run fails at its last step, after which no pass can be added and no call completes
anything. -/
theorem calls_keep_order_mixedCalls :
    dropGraph.KeepsProgress ∧
    ∃ w, afterCalls (start forgetful.source 0, Ticks.mk 0) mixedCalls = .ok w ∧
      w.1.failed = some Step.finalize ∧
      w.1.steps[w.1.state.nextStep]? = some Step.finalize ∧
      (∀ pass d, w.1.withPass pass ≠ .ok d) ∧
      ∀ w', afterCalls w [.run .completion, .setConfig { prunePhis := false }] = .ok w' →
        w'.1.state.completed = ["basic_blocks", "ssa", "pruned", "drop_graph"] := by
  have hkeeps : dropGraph.KeepsProgress := fun _ => ⟨rfl, rfl⟩
  have heval : (afterCalls (start forgetful.source 0, Ticks.mk 0) mixedCalls).map
      (fun w => (w.1.failed, w.1.state.completed)) =
      .ok (some Step.finalize, ["basic_blocks", "ssa", "pruned", "drop_graph"]) := by decide_cbv
  refine ⟨hkeeps, ?_⟩
  cases hcalls : afterCalls (start forgetful.source 0, Ticks.mk 0) mixedCalls with
  | error e =>
      rw [hcalls] at heval
      cases heval
  | ok w =>
      rw [hcalls] at heval
      obtain ⟨hfailed, hcompleted⟩ := Prod.mk.inj (Except.ok.inj heval)
      obtain ⟨-, -, -, -, -, -, -, hstep, hadd, hlater⟩ :=
        calls_keep_order hcalls (by simpa [mixedCalls] using hkeeps)
      refine ⟨w, rfl, hfailed, (hstep _ hfailed).2.1, fun pass d hok => ?_, fun w' hw' => ?_⟩
      · rw [(hadd pass d hok).2] at hfailed
        cases hfailed
      · obtain ⟨-, -, hhalted⟩ := hlater _ w' hw' (by simp)
        rw [hhalted (by rw [hfailed]; rfl)]
        exact hcompleted

end FlowForm.Decompiler
