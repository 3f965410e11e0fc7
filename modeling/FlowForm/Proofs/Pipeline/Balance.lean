import Mathlib
import FlowForm.Proofs.Pipeline.Progress
import FlowForm.Proofs.Ssa.Pruning
import FlowForm.Proofs.Ssa.Statistics

/-!
# Counts and the Graph They Describe

The statistics of construction say what the graph is like when construction is done
(`FlowForm.Proofs.Ssa.Statistics`), and are kept for the rest of the run. The graph goes on to be
pruned, and the number of placeholders that this has dropped is kept as well. The two **balance**
the placeholders that are left: this holds from construction on, if nothing counts as dropped before
pruning (`Balanced`).

Passes that have been added may do what they like to a run, so the balance is kept where there are
none. It is shown for one pass (`Balanced.after_pass`), for a step, for a run up to a limit and for
any sequence of calls. The last two hold for whatever a step preserves (`RunsTo.preserves` and
`afterCalls_preserves`).

## Main results

* `afterCalls_preserves`: calls preserve what steps preserve.
* `Balanced.stepped`: the balance is kept by a step.
* `counts_describe_graph`: all counts of construction, and the balance of a run.
-/

namespace FlowForm

/-! ### The balance of a run -/

/-- A run is **balanced** if nothing is noted as dropped before pruning, something is noted from
then on, and from construction on the placeholders dropped and those left are as many as have been
counted. -/
structure Balanced (r : RunState) : Prop where
  unpruned : r.nextStep < 3 → r.prunedPhis = none
  pruned : 3 ≤ r.nextStep → r.prunedPhis.isSome = true
  balance : 2 ≤ r.nextStep → ∃ g stats, r.flow = some g ∧ r.stats = some stats ∧
    stats.phis = r.prunedPhis.getD 0 + (Ssa.allPhis g).length

/-- What is dropped and what is left are as many as there were, whether the graph is pruned or
not. -/
theorem add_length_allPhis (g : FlowGraph) (prunes : Bool) :
    (if prunes then Ssa.prune g else (g, 0)).2 +
      (Ssa.allPhis (if prunes then Ssa.prune g else (g, 0)).1).length =
        (Ssa.allPhis g).length := by
  cases prunes with
  | false => exact Nat.zero_add _
  | true => exact Ssa.removed_add_length_prune g

/-- **A built-in pass that succeeds keeps the balance**, at the position it has among them. -/
theorem Balanced.after_pass {source : Source} {s s' : Session} {pass : Pass}
    (h : Balanced s.state) (hpass : (Pass.builtIn source)[s.state.nextStep]? = some pass)
    (hrun : pass.run.run.run s = (.ok (), s')) (completed : List String) :
    Balanced { s'.state with completed, nextStep := s'.state.nextStep + 1 } := by
  have hlt : s.state.nextStep < 4 := (List.getElem?_eq_some_iff.mp hpass).1
  obtain hnext | hnext | hnext | hnext : s.state.nextStep = 0 ∨ s.state.nextStep = 1 ∨
      s.state.nextStep = 2 ∨ s.state.nextStep = 3 := by omega
  · rw [hnext] at hpass
    cases hpass
    obtain ⟨items, g, -, -, rfl⟩ := Pass.run_basicBlocks hrun
    have hnone := h.unpruned (by omega)
    exact ⟨fun _ => hnone, fun hle => by simp [hnext] at hle, fun hle => by simp [hnext] at hle⟩
  · rw [hnext] at hpass
    cases hpass
    obtain ⟨g, result, -, hresult, rfl⟩ := Pass.run_ssa hrun
    have hnone := h.unpruned (by omega)
    refine ⟨fun _ => hnone, fun hle => by simp [hnext] at hle, fun _ => ?_⟩
    refine ⟨result.graph, result.stats, rfl, rfl, ?_⟩
    rw [Ssa.phis_construct hresult]
    simp [hnone]
  · rw [hnext] at hpass
    cases hpass
    have hnone := h.unpruned (by omega)
    obtain ⟨g, stats, hflow, hstats, hbalance⟩ := h.balance (by omega)
    rw [Pass.runState_pruned, hstats, RunState.flowGraph, hflow] at hrun
    cases hrun
    refine ⟨fun hlt => by simp [hnext] at hlt, fun _ => rfl, fun _ => ⟨_, stats, rfl, hstats, ?_⟩⟩
    rw [hbalance, hnone, ← add_length_allPhis g s.state.config.prunePhis]
    exact Nat.zero_add _
  · rw [hnext] at hpass
    cases hpass
    obtain ⟨g, -, -, hstate⟩ := Pass.run_finalize hrun
    rw [hstate]
    exact ⟨fun hlt => by simp [hnext] at hlt, fun _ => h.pruned (by omega),
      fun _ => h.balance (by omega)⟩

namespace Decompiler

variable {σ : Type}

/-- If no passes have been added, all are built in. -/
theorem passes_eq_builtIn {d : Decompiler} (h : d.added = []) :
    d.passes = Pass.builtIn d.source := by
  rw [passes, h]
  rfl

/-- A decompiler to which no passes have been added is steady. -/
theorem steady_of_added_eq {d : Decompiler} (h : d.added = []) : d.Steady := by
  intro p hp
  rw [passes_eq_builtIn h] at hp
  exact (Pass.tidy_of_mem_builtIn hp).keepsProgress

/-- A decompiler **without added passes** whose run is balanced. -/
structure InBalance (d : Decompiler) : Prop where
  added_eq : d.added = []
  balanced : Balanced d.state

/-- It is steady. -/
theorem InBalance.steady {d : Decompiler} (h : InBalance d) : d.Steady :=
  steady_of_added_eq h.added_eq

/-- **A step keeps the balance**, whether its pass succeeds or fails. -/
theorem InBalance.stepped {d : Decompiler} (h : InBalance d) (nanos : Nat) :
    InBalance (d.stepped nanos).2 := by
  have hbefore : Balanced d.sessionBefore.state := by
    rw [sessionBefore]
    split
    · exact ⟨h.balanced.unpruned, h.balanced.pruned, h.balanced.balance⟩
    · exact h.balanced
  rw [Decompiler.stepped]
  cases hpass : d.passes[d.state.nextStep]? with
  | none => exact h
  | some pass =>
      rw [passes_eq_builtIn h.added_eq] at hpass
      simp only
      rcases hrun : pass.run.run.run d.sessionBefore with ⟨cause | _, session⟩
      · have hclean := (Pass.tidy_of_mem_builtIn (List.mem_of_getElem? hpass)).failsCleanly
        obtain rfl := hclean _ _ _ hrun
        exact ⟨h.added_eq, hbefore⟩
      · rw [← (sessionBefore_progress d).2] at hpass
        exact ⟨h.added_eq, hbefore.after_pass hpass hrun _⟩

/-- A new decompiler is in balance. -/
theorem inBalance_start (source : Source) (entry : Nat) (config : Config) (metrics : Metrics) :
    InBalance (start source entry config metrics) where
  added_eq := rfl
  balanced := ⟨fun _ => rfl, fun h => absurd h (Nat.not_succ_le_zero 2),
    fun h => absurd h (Nat.not_succ_le_zero 1)⟩

/-! ### What calls preserve -/

variable [Stopwatch (StateM σ)] [LawfulStopwatch σ] {P : Decompiler → Prop}

/-- A run preserves what each of its steps preserves. -/
theorem RunsTo.preserves (hstep : ∀ d nanos, P d → P (d.stepped nanos).2) {limit : Nat}
    {w : Decompiler × σ} {r : Except RunError Unit × Decompiler × σ} (hruns : RunsTo limit w r)
    (h : P w.1) : P r.2.1 := by
  induction hruns with
  | done _ => exact h
  | @step w w₁ r _ hperform _ ih =>
      obtain ⟨nanos, c, hstepped⟩ := perform_runStep w.1 w.2
      obtain ⟨-, rfl⟩ := Prod.mk.inj (hstepped.symm.trans hperform)
      exact ih (hstep w.1 nanos h)
  | @fail w w₁ e _ hperform =>
      obtain ⟨nanos, c, hstepped⟩ := perform_runStep w.1 w.2
      obtain ⟨-, rfl⟩ := Prod.mk.inj (hstepped.symm.trans hperform)
      exact hstep w.1 nanos h

/-- A request preserves what steps preserve. -/
theorem serve_preserves (hstep : ∀ d nanos, P d → P (d.stepped nanos).2)
    (hsteady : ∀ d, P d → d.Steady) {w : Decompiler × σ} (h : P w.1) (request : Request) :
    P (serve w request).2.1 := by
  cases hfailed : w.1.failed with
  | some step =>
      rw [serve_of_failed hfailed]
      exact h
  | none =>
      cases hlimit : request.limit? w.1 with
      | some limit =>
          exact (runsTo_serve (hsteady w.1 h) hfailed hlimit).preserves hstep h
      | none =>
          cases request with
          | completion => cases hlimit
          | upTo step =>
              rw [Request.limit?, Option.map_eq_none_iff] at hlimit
              rw [serve_of_unknown hfailed (List.idxOf?_eq_none_iff.mp hlimit)]
              exact h

/-- **Calls preserve what steps preserve**, if they add no pass and the configuration has no say
in it. -/
theorem afterCalls_preserves (hstep : ∀ d nanos, P d → P (d.stepped nanos).2)
    (hsteady : ∀ d, P d → d.Steady) (hconfig : ∀ d config, P d → P (d.withConfig config))
    {calls : List Call} (hadds : ∀ pass, .addPass pass ∉ calls) {w w' : Decompiler × σ}
    (hcalls : afterCalls w calls = .ok w') (h : P w.1) : P w'.1 := by
  induction calls generalizing w with
  | nil =>
      cases hcalls
      exact h
  | cons c calls ih =>
      have hrest : ∀ pass, .addPass pass ∉ calls := fun pass hpass =>
        hadds pass (List.mem_cons_of_mem _ hpass)
      rw [afterCalls, List.foldlM_cons] at hcalls
      cases c with
      | addPass pass => exact absurd (List.mem_cons_self ..) (hadds pass)
      | setConfig config => exact ih hrest hcalls (hconfig w.1 config h)
      | run request => exact ih hrest hcalls (serve_preserves hstep hsteady h request)

/-- **Counts agree with the graph.** Whenever construction succeeds on a graph in which no block
lists a successor twice, it reports as definitions those of the result's statements that have a
version, as placeholders all of the result, and as uses what has a version among the uses in
reachable blocks and the operands of placeholders. And whatever calls are made on a new decompiler,
on any clock, as long as they add no pass: if the run is finished, the placeholders dropped and
those left in the graph are as many as construction has reported. -/
theorem counts_describe_graph :
    (∀ (g : FlowGraph) (counter : Counter) (result : Ssa.Result), (∀ id, (g.succs id).Nodup) →
      Ssa.construct g counter = .ok result →
        result.stats.definitions =
          (result.graph.blocks.flatMap Block.defs).countP Var.isVersioned ∧
        result.stats.phis = (Ssa.allPhis result.graph).length ∧
        result.stats.renamedUses =
          ((result.graph.ids.filter fun id => result.graph.Reachable id).flatMap
            (Ssa.usesOf result.graph)).countP Var.isVersioned +
          ((Ssa.allPhis result.graph).flatMap (·.operands)).countP (·.var.isVersioned)) ∧
    ∀ (σ : Type) [Stopwatch (StateM σ)] [LawfulStopwatch σ] (source : Source) (entry : Nat)
      (config : Config) (metrics : Metrics) (c : σ) (calls : List Call) (w : Decompiler × σ),
      (∀ pass, .addPass pass ∉ calls) →
      afterCalls (start source entry config metrics, c) calls = .ok w → w.1.isFinished = true →
        ∃ g stats dropped, w.1.state.flow = some g ∧ w.1.state.stats = some stats ∧
          w.1.state.prunedPhis = some dropped ∧
          stats.phis = dropped + (Ssa.allPhis g).length := by
  refine ⟨fun g counter result hsuccs h => ?_, ?_⟩
  · exact ⟨Ssa.definitions_construct h, Ssa.phis_construct h,
      Ssa.renamedUses_construct hsuccs h⟩
  · intro σ _ _ source entry config metrics c calls w hadds hcalls hfinished
    obtain ⟨hadded, hbalanced⟩ := afterCalls_preserves (fun _ nanos h => h.stepped nanos)
      (fun _ h => h.steady) (fun _ _ h => ⟨h.added_eq, ⟨h.balanced.1, h.balanced.2, h.balanced.3⟩⟩)
      hadds hcalls (inBalance_start source entry config metrics)
    have hnext : 4 ≤ w.1.state.nextStep := by
      rw [isFinished, steps_eq, hadded, decide_eq_true_eq] at hfinished
      exact hfinished
    obtain ⟨dropped, hdropped⟩ := Option.isSome_iff_exists.mp (hbalanced.pruned (by omega))
    obtain ⟨g, stats, hflow, hstats, hbalance⟩ := hbalanced.balance (by omega)
    rw [hdropped] at hbalance
    exact ⟨g, stats, dropped, hflow, hstats, hdropped, hbalance⟩

/-- Two blocks that lead to each other and are both entered from the first one, and a block that
leads into them and cannot be reached. -/
def eddy : FlowGraph where
  blocks := [
    { address := 70,
      items := [{ address := 70, statements := [⟨⟨"a", none⟩, .imm 1⟩] },
        { address := 71, terminator := .branch (.var ⟨"b", none⟩) 73 }],
      succs := [2, 1], fall := some 1 },
    { address := 72,
      items := [{ address := 72, statements := [⟨⟨"a", none⟩, .var ⟨"a", none⟩⟩] }],
      preds := [0, 2], succs := [2], fall := some 2 },
    { address := 73,
      items := [
        { address := 73, statements := [⟨⟨"b", none⟩, .var ⟨"a", none⟩⟩],
          terminator := .branch (.var ⟨"a", none⟩) 72 }],
      preds := [0, 1, 4], succs := [1, 3], fall := some 3 },
    { address := 74, items := [{ address := 74, terminator := .ret (some (.var ⟨"b", none⟩)) }],
      preds := [2] },
    { address := 75,
      items := [{ address := 75, statements := [⟨⟨"a", none⟩, .imm 4⟩], terminator := .jump 73 }],
      succs := [2] }]
  keys := [70, 72, 73, 74, 75]
  blocks_ne_nil := by decide
  length_keys := by decide
  nodup_keys := by decide

/-- A loop with a variable that is read in it and one that is not. -/
def idling : Source := .ofItems [
  { address := 80, statements := [⟨⟨"i", none⟩, .imm 1⟩] },
  { address := 81,
    statements := [⟨⟨"t", none⟩, .var ⟨"i", none⟩⟩, ⟨⟨"i", none⟩, .var ⟨"i", none⟩⟩],
    terminator := .branch (.var ⟨"i", none⟩) 81 },
  { address := 82, terminator := .ret (some (.var ⟨"i", none⟩)) }]

/-- Calls that take a run to the middle and change their mind about pruning there. -/
def wavering : List Call := [
  .setConfig { prunePhis := false }, .run (.upTo Step.ssa), .setConfig {}, .run .completion]

/-- Of what construction counts in the first graph, six uses are operands. In the run one of two
placeholders is dropped. -/
theorem counts_describe_graph_eddy :
    (∃ result, Ssa.construct eddy .fresh = .ok result ∧
      (result.graph.blocks.flatMap Block.defs).countP Var.isVersioned = 3 ∧
      (Ssa.allPhis result.graph).length = 4 ∧
      ((result.graph.ids.filter fun id => result.graph.Reachable id).flatMap
          (Ssa.usesOf result.graph)).countP Var.isVersioned +
        ((Ssa.allPhis result.graph).flatMap (·.operands)).countP (·.var.isVersioned) = 10) ∧
    ∃ w, afterCalls (start idling 80, Ticks.mk 0) wavering = .ok w ∧ w.1.isFinished = true ∧
      w.1.state.prunedPhis = some 1 ∧
      ∃ g, w.1.state.flow = some g ∧ (Ssa.allPhis g).length = 1 := by
  constructor
  · have hsuccs : ∀ id, (eddy.succs id).Nodup := by
      intro id
      rcases Nat.lt_or_ge id 5 with hlt | hge
      · interval_cases id <;> decide
      · have hnone : eddy.block? id = none := List.getElem?_eq_none hge
        rw [FlowGraph.succs, hnone]
        exact List.nodup_nil
    have heval : (Ssa.construct eddy .fresh).map (·.stats) =
        .ok { definitions := 3, phis := 4, renamedUses := 10 } := by decide_cbv
    obtain ⟨result, hresult, hstats⟩ := Ssa.exists_of_map_construct heval
    obtain ⟨hdefinitions, hphis, huses⟩ := counts_describe_graph.1 eddy .fresh result hsuccs hresult
    rw [hstats] at hdefinitions hphis huses
    exact ⟨result, hresult, hdefinitions.symm, hphis.symm, huses.symm⟩
  · have heval : (afterCalls (start idling 80, Ticks.mk 0) wavering).map
        (fun w => (w.1.isFinished, w.1.state.stats.map (·.phis), w.1.state.prunedPhis)) =
        .ok (true, some 2, some 1) := by decide_cbv
    cases hcalls : afterCalls (start idling 80, Ticks.mk 0) wavering with
    | error e =>
        rw [hcalls] at heval
        cases heval
    | ok w =>
        rw [hcalls] at heval
        obtain ⟨hfinished, hpair⟩ := Prod.mk.inj (Except.ok.inj heval)
        obtain ⟨hphis, hdropped⟩ := Prod.mk.inj hpair
        obtain ⟨g, stats, dropped, hflow, hstats, hdropped', hbalance⟩ :=
          counts_describe_graph.2 Ticks idling 80 {} {} ⟨0⟩ wavering w (by simp [wavering]) hcalls
            hfinished
        refine ⟨w, rfl, hfinished, hdropped, g, hflow, ?_⟩
        rw [hstats, Option.map_some, Option.some.injEq] at hphis
        rw [hdropped, Option.some.injEq] at hdropped'
        omega

end Decompiler

end FlowForm
