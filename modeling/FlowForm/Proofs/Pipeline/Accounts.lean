import Mathlib
import FlowForm.Proofs.Pipeline.Balance

/-!
# Metrics Are Sums over Runs

Several decompilers can be run in turns, each of them by requests of any kind, and all of them add
to the same metrics (`Fleet`). What is recorded in the end is no more and no less than what the runs
have done, however they have been mixed.

What metrics **account for** is a list of graphs, those that finished runs have ended with, and a
list of completed steps (`Metrics.Accounts`); in both the order does not matter. Recording a run
enters a graph, and recording a step enters the step. A decompiler whose own graph and steps are in
the accounts is **booked** (`Booked`), next to whatever the others have contributed. A step keeps it
booked: if its pass succeeds it is entered, the last one together with the graph, and if its pass
fails nothing is. So requests do (`serve_preserves`), and with them any sequence of requests to a
fleet (`Fleet.Booked.after_requests`).

## Main results

* `Metrics.Accounts.recordRun` and `Metrics.Accounts.recordStep`: what recording enters.
* `Booked.stepped`: a step enters what it has done.
* `Fleet.metrics_sum_runs`: what is recorded after any sequence of requests.
-/

namespace FlowForm

/-! ### What metrics account for -/

namespace Metrics

/-- A counter after another or the same one has been incremented. -/
theorem counter?_increment (m : Metrics) (key : String) (n : Nat) (other : String) :
    (m.increment key n).counter? other =
      if key = other then some (((m.counter? key).getD 0 + n) % Numeral.wordBound)
      else m.counter? other := by
  simp only [counter?, increment, Std.TreeMap.getElem?_insert, Std.LawfulEqCmp.compare_eq_iff_eq]

/-- The samples under a key after one has been added there or elsewhere. -/
theorem samples?_addSample (m : Metrics) (key : String) (nanos : Nat) (other : String) :
    (m.addSample key nanos).samples? other =
      if key = other then some ((m.samples? key).getD [] ++ [nanos]) else m.samples? other := by
  simp only [samples?, addSample, Std.TreeMap.getElem?_insert, Std.LawfulEqCmp.compare_eq_iff_eq]

/-- Steps have keys of their own. -/
theorem stepKey_injective : Function.Injective stepKey := by
  intro step other h
  simpa [stepKey, key] using h

/-- What a run that ends with some graph **adds** to each counter. -/
def amounts : List (String × (FlowGraph → Nat)) := [
  (runsKey, fun _ => 1),
  (blocksKey, FlowGraph.size),
  (phisKey, fun g => (Ssa.allPhis g).length)]

/-- A counter after a run has been recorded. -/
theorem counter?_recordRun (m : Metrics) (g : FlowGraph) (key : String) :
    (m.recordRun g.size (Ssa.allPhis g).length).counter? key =
      (amounts.lookup key).elim (m.counter? key) fun amount =>
        some (((m.counter? key).getD 0 + amount g) % Numeral.wordBound) := by
  have hruns : runsKey ≠ blocksKey ∧ runsKey ≠ phisKey := by decide +kernel
  have hblocks : blocksKey ≠ phisKey := by decide +kernel
  simp only [recordRun, counter?_increment, amounts, List.lookup_cons, List.lookup_nil]
  by_cases hkey₁ : key = runsKey
  · simp [hkey₁, hruns.1.symm, hruns.2.symm]
  · by_cases hkey₂ : key = blocksKey
    · simp [hkey₂, hruns.1, hblocks.symm, beq_false_of_ne hruns.1.symm]
    · by_cases hkey₃ : key = phisKey
      · simp [hkey₃, hruns.2, hblocks, beq_false_of_ne hruns.2.symm,
          beq_false_of_ne hblocks.symm]
      · simp [beq_false_of_ne hkey₁, beq_false_of_ne hkey₂, beq_false_of_ne hkey₃, Ne.symm hkey₁,
          Ne.symm hkey₂, Ne.symm hkey₃]

/-- Metrics **account for** runs that have ended with the given graphs and for the given completed
steps: the counters are sums over the runs, as words, and there is a sample for every step. What
has no share in this is absent. -/
structure Accounts (m : Metrics) (graphs : List FlowGraph) (steps : List String) : Prop where
  counter?_eq : ∀ key, m.counter? key = if graphs = [] then none else
    (amounts.lookup key).map fun amount => (graphs.map amount).sum % Numeral.wordBound
  samples?_eq : ∀ key, (m.samples? key).map List.length =
    if steps.countP (stepKey · = key) = 0 then none else some (steps.countP (stepKey · = key))

namespace Accounts

variable {m : Metrics} {graphs graphs' : List FlowGraph} {steps steps' : List String}

/-- New metrics account for nothing. -/
theorem empty : Accounts {} [] [] where
  counter?_eq key := by simp [counter?]
  samples?_eq key := by simp [samples?]

/-- The **order** in which runs have ended and steps have been completed has no say. -/
theorem perm (h : m.Accounts graphs steps) (hgraphs : graphs.Perm graphs')
    (hsteps : steps.Perm steps') : m.Accounts graphs' steps' where
  counter?_eq key := by
    have hempty : graphs' = [] ↔ graphs = [] := ⟨fun h => (h ▸ hgraphs).eq_nil,
      fun h => (h ▸ hgraphs.symm).eq_nil⟩
    have hsum : ∀ amount : FlowGraph → Nat, (graphs'.map amount).sum = (graphs.map amount).sum :=
      fun amount => (hgraphs.map amount).symm.sum_eq
    simp only [hempty, hsum]
    exact h.counter?_eq key
  samples?_eq key := by
    rw [← hsteps.countP_eq]
    exact h.samples?_eq key

/-- A counter that runs add to is the sum over them, while there is room for it. -/
theorem counter?_eq_some (h : m.Accounts graphs steps) (hne : graphs ≠ []) {key : String}
    {amount : FlowGraph → Nat} (hkey : amounts.lookup key = some amount)
    (hlt : (graphs.map amount).sum < Numeral.wordBound) :
    m.counter? key = some (graphs.map amount).sum := by
  rw [h.counter?_eq, if_neg hne, hkey, Option.map_some, Nat.mod_eq_of_lt hlt]

/-- There is no counter that runs do not add to. -/
theorem counter?_eq_none (h : m.Accounts graphs steps) {key : String}
    (hkey : key ∉ amounts.map Prod.fst) : m.counter? key = none := by
  have hlookup : amounts.lookup key = none := List.lookup_eq_none_iff.mpr fun entry hentry =>
    bne_iff_ne.mpr fun heq => hkey (heq ▸ List.mem_map_of_mem hentry)
  rw [h.counter?_eq, hlookup]
  exact ite_self _

/-- **Recording a run** enters its graph. -/
theorem recordRun (h : m.Accounts graphs steps) (g : FlowGraph) :
    (m.recordRun g.size (Ssa.allPhis g).length).Accounts (g :: graphs) steps where
  counter?_eq key := by
    rw [counter?_recordRun, if_neg (List.cons_ne_nil g graphs), h.counter?_eq]
    cases amounts.lookup key with
    | none => exact ite_self _
    | some amount =>
        rw [Option.elim_some, Option.map_some, Option.map_some, List.map_cons, List.sum_cons]
        by_cases hempty : graphs = []
        · simp [hempty]
        · simp [hempty, Nat.add_comm]
  samples?_eq key := h.samples?_eq key

/-- **Recording a step** enters it. -/
theorem recordStep (h : m.Accounts graphs steps) (step : String) (nanos : Nat) :
    (m.recordStep step nanos).Accounts graphs (step :: steps) where
  counter?_eq key := h.counter?_eq key
  samples?_eq key := by
    have hlength := h.samples?_eq key
    rw [Metrics.recordStep, samples?_addSample, List.countP_cons]
    by_cases hkey : stepKey step = key
    · subst hkey
      have hcount : ((m.samples? (stepKey step)).getD []).length =
          steps.countP (stepKey · = stepKey step) := by
        cases hsamples : m.samples? (stepKey step) with
        | none =>
            rw [hsamples] at hlength
            split at hlength
            · rename_i hzero
              exact hzero.symm
            · cases hlength
        | some samples =>
            rw [hsamples] at hlength
            split at hlength
            · cases hlength
            · exact Option.some.inj hlength
      simp [hcount]
    · simpa [hkey] using hlength

end Accounts

end Metrics

/-! ### Decompilers and their share -/

/-- What a built-in pass that succeeds **records**: nothing, but for the last one, which records the
graph. -/
theorem Pass.metrics_of_run {source : Source} {k : Nat} {pass : Pass} {s s' : Session}
    (hpass : (builtIn source)[k]? = some pass) (hrun : pass.run.run.run s = (.ok (), s')) :
    k < 3 ∧ s'.metrics = s.metrics ∨
      k = 3 ∧ ∃ g, s'.state.flow = some g ∧
        s'.metrics = s.metrics.recordRun g.size (Ssa.allPhis g).length := by
  have hlt : k < 4 := (List.getElem?_eq_some_iff.mp hpass).1
  obtain rfl | rfl | rfl | rfl : k = 0 ∨ k = 1 ∨ k = 2 ∨ k = 3 := by omega
  · cases hpass
    obtain ⟨items, g, -, -, rfl⟩ := run_basicBlocks hrun
    exact .inl ⟨by decide, rfl⟩
  · cases hpass
    obtain ⟨g, result, -, -, rfl⟩ := run_ssa hrun
    exact .inl ⟨by decide, rfl⟩
  · cases hpass
    obtain ⟨g, removed, -, rfl⟩ := run_pruned hrun
    exact .inl ⟨by decide, rfl⟩
  · cases hpass
    obtain ⟨g, hflow, hvalid, -⟩ := run_finalize hrun
    rw [runState_finalize, RunState.flowGraph, hflow] at hrun
    simp only [hvalid] at hrun
    cases hrun
    exact .inr ⟨rfl, g, hflow, rfl⟩

namespace Decompiler

/-- The graph that a decompiler has ended with, if it has completed its last step. -/
def lastGraphs (d : Decompiler) : List FlowGraph :=
  if d.state.hasRun Step.finalize then d.state.flow.toList else []

/-- A decompiler is **plain** if it has built-in passes only and the completed ones are the first
ones. -/
structure Plain (d : Decompiler) : Prop where
  added_eq : d.added = []
  completed_eq : d.state.completed = d.steps.take d.state.nextStep

namespace Plain

variable {d : Decompiler}

/-- All its steps are built in. -/
theorem steps_eq (h : Plain d) :
    d.steps = [Step.basicBlocks, Step.ssa, Step.pruned, Step.finalize] := by
  rw [Decompiler.steps_eq, h.added_eq]
  rfl

/-- No step is completed twice. -/
theorem nodup_completed (h : Plain d) : d.state.completed.Nodup := by
  rw [h.completed_eq, h.steps_eq]
  exact (List.take_sublist ..).nodup (by decide)

/-- The last step has been completed if the position is behind it. -/
theorem hasRun_finalize (h : Plain d) :
    d.state.hasRun Step.finalize = true ↔ 3 < d.state.nextStep := by
  have hindex : d.steps.idxOf Step.finalize = 3 := by
    rw [h.steps_eq]
    decide
  have hlength : d.steps.length = 4 := by
    rw [h.steps_eq]
    rfl
  rw [RunState.hasRun, List.contains_iff_mem, h.completed_eq,
    (List.take_prefix ..).mem_iff_idxOf_lt_length, hindex, List.length_take, hlength]
  omega

/-- It has ended with no graph before that. -/
theorem lastGraphs_eq_nil (h : Plain d) (hle : d.state.nextStep ≤ 3) : d.lastGraphs = [] :=
  if_neg fun hrun => absurd (h.hasRun_finalize.mp hrun) (Nat.not_lt.mpr hle)

end Plain

/-- A decompiler is **booked**, next to other runs with the given last graphs and completed steps,
if its metrics account for these and for its own. -/
structure Booked (graphs : List FlowGraph) (steps : List String) (d : Decompiler) : Prop
    extends Plain d where
  isSome_flow : d.state.hasRun Step.finalize = true → d.state.flow.isSome = true
  accounts : d.session.metrics.Accounts (d.lastGraphs ++ graphs) (d.state.completed ++ steps)

namespace Booked

variable {graphs : List FlowGraph} {steps : List String} {d : Decompiler}

/-- The session in which the next pass starts is booked as well, even if the pass fails. -/
theorem before_pass (h : Booked graphs steps d) (failed : Option String) :
    Booked graphs steps { d with session := d.sessionBefore, failed } := by
  rw [sessionBefore]
  split
  · exact ⟨⟨h.added_eq, h.completed_eq⟩, h.isSome_flow, h.accounts⟩
  · exact ⟨⟨h.added_eq, h.completed_eq⟩, h.isSome_flow, h.accounts⟩

/-- **A pass that succeeds is entered**, and the last one together with its graph. -/
theorem after_pass (h : Booked graphs steps d) {pass : Pass} {session : Session}
    (hpass : (Pass.builtIn d.source)[d.state.nextStep]? = some pass)
    (hrun : pass.run.run.run d.session = (.ok (), session)) (nanos : Nat) :
    Booked graphs steps { d with session := sessionAfter session pass.name nanos } := by
  have hkeeps := (Pass.tidy_of_mem_builtIn (List.mem_of_getElem? hpass)).keepsProgress d.session
  rw [hrun] at hkeeps
  obtain ⟨hcompleted, hnext⟩ : session.state.completed = d.state.completed ∧
    session.state.nextStep = d.state.nextStep := hkeeps
  have hstep : d.steps[d.state.nextStep]? = some pass.name := by
    rw [Decompiler.steps, List.getElem?_map, passes_eq_builtIn h.added_eq, hpass]
    rfl
  have hplain : Plain { d with session := sessionAfter session pass.name nanos } := by
    refine ⟨h.added_eq, ?_⟩
    change session.state.completed ++ [pass.name] = d.steps.take (session.state.nextStep + 1)
    rw [hcompleted, hnext, List.take_add_one, hstep, h.completed_eq]
    rfl
  have hlt : d.state.nextStep < 4 := (List.getElem?_eq_some_iff.mp hpass).1
  have haccounts := h.accounts
  rw [h.lastGraphs_eq_nil (by omega), List.nil_append] at haccounts
  have hsteps : (pass.name :: (d.state.completed ++ steps)).Perm
      (session.state.completed ++ [pass.name] ++ steps) := by
    rw [hcompleted, List.append_assoc]
    exact List.perm_middle.symm
  rcases Pass.metrics_of_run hpass hrun with ⟨hbefore, hmetrics⟩ | ⟨hlast, g, hflow, hmetrics⟩
  · have hle : session.state.nextStep + 1 ≤ 3 := by
      rw [hnext]
      exact hbefore
    refine ⟨hplain, fun hfinished => absurd (hplain.hasRun_finalize.mp hfinished) ?_, ?_⟩
    · exact Nat.not_lt.mpr hle
    · have hentered := (haccounts.recordStep pass.name nanos).perm .rfl hsteps
      rw [← hmetrics] at hentered
      rw [hplain.lastGraphs_eq_nil hle]
      exact hentered
  · have hentered := ((haccounts.recordRun g).recordStep pass.name nanos).perm .rfl hsteps
    rw [← hmetrics] at hentered
    have hgraphs : lastGraphs { d with session := sessionAfter session pass.name nanos } = [g] := by
      rw [lastGraphs, if_pos (hplain.hasRun_finalize.mpr ?_)]
      · exact congrArg Option.toList hflow
      · change 3 < session.state.nextStep + 1
        omega
    refine ⟨hplain, fun _ => Option.isSome_iff_exists.mpr ⟨g, hflow⟩, ?_⟩
    rw [hgraphs]
    exact hentered

/-- **A step enters what it has done**, and nothing if it fails. -/
theorem stepped (h : Booked graphs steps d) (nanos : Nat) :
    Booked graphs steps (d.stepped nanos).2 := by
  rw [Decompiler.stepped]
  cases hpass : d.passes[d.state.nextStep]? with
  | none => exact h
  | some pass =>
      rw [passes_eq_builtIn h.added_eq] at hpass
      simp only
      rcases hrun : pass.run.run.run d.sessionBefore with ⟨cause | _, session⟩
      · have hclean := (Pass.tidy_of_mem_builtIn (List.mem_of_getElem? hpass)).failsCleanly
        obtain rfl := hclean _ _ _ hrun
        exact h.before_pass _
      · rw [← (sessionBefore_progress d).2] at hpass
        exact (h.before_pass d.failed).after_pass hpass hrun nanos

end Booked

/-! ### Fleets -/

variable {σ : Type}

/-- Decompilers that are run in turns, with the metrics that all of them add to and the clock that
all of them are on. -/
structure Fleet (σ : Type) where
  members : List Decompiler
  metrics : Metrics
  clock : σ

namespace Fleet

/-- Metrics and completed runs of a fleet **agree** if its members are plain and the metrics account
for the graphs that they have ended with and for the steps that they have completed. -/
structure Booked (f : Fleet σ) : Prop where
  plain : ∀ d ∈ f.members, d.Plain ∧
    (d.state.hasRun Step.finalize = true → d.state.flow.isSome = true)
  accounts : f.metrics.Accounts (f.members.flatMap lastGraphs)
    (f.members.flatMap (·.state.completed))

/-- What one of the members contributes can be taken to the front. -/
theorem perm_flatMap_middle {α : Type} (share : Decompiler → List α)
    (before after : List Decompiler) (d : Decompiler) :
    ((before ++ d :: after).flatMap share).Perm (share d ++ (before ++ after).flatMap share) := by
  simp only [List.flatMap_append, List.flatMap_cons]
  rw [← List.append_assoc, ← List.append_assoc]
  exact List.perm_append_comm.append_right _

/-- The graphs that decompilers have ended with are those of the ones that have completed the last
step. -/
theorem map_flow_filter {members : List Decompiler}
    (hflow : ∀ d ∈ members, d.state.hasRun Step.finalize = true → d.state.flow.isSome = true) :
    (members.filter (·.state.hasRun Step.finalize)).map (·.state.flow) =
      (members.flatMap lastGraphs).map some := by
  induction members with
  | nil => rfl
  | cons d members ih =>
      have hrest := ih fun d' hd' => hflow d' (List.mem_cons_of_mem _ hd')
      rw [List.flatMap_cons, List.map_append, ← hrest, lastGraphs, List.filter_cons]
      by_cases hfinished : d.state.hasRun Step.finalize = true
      · obtain ⟨g, hg⟩ := Option.isSome_iff_exists.mp (hflow d (List.mem_cons_self ..) hfinished)
        rw [if_pos hfinished, if_pos hfinished, List.map_cons, hg]
        rfl
      · rw [if_neg hfinished, if_neg hfinished]
        rfl

/-- A step has been completed as often as there are decompilers that have completed it, if none
completes a step twice. -/
theorem countP_stepKey {members : List Decompiler}
    (hnodup : ∀ d ∈ members, d.state.completed.Nodup) (step : String) :
    (members.flatMap (·.state.completed)).countP (Metrics.stepKey · = Metrics.stepKey step) =
      members.countP (·.state.hasRun step) := by
  induction members with
  | nil => rfl
  | cons d members ih =>
      have hrest := ih fun d' hd' => hnodup d' (List.mem_cons_of_mem _ hd')
      have hcount : d.state.completed.countP (Metrics.stepKey · = Metrics.stepKey step) =
          if d.state.hasRun step then 1 else 0 := by
        simp only [Metrics.stepKey_injective.eq_iff, RunState.hasRun, List.contains_iff_mem]
        exact (hnodup d (List.mem_cons_self ..)).count
      rw [List.flatMap_cons, List.countP_append, hrest, List.countP_cons, hcount, Nat.add_comm]

variable [Stopwatch (StateM σ)]

/-- What a request to the member at some position makes of a fleet, and nothing if there is none. -/
def serve (f : Fleet σ) (position : Nat) (request : Request) : Fleet σ :=
  match f.members[position]? with
  | none => f
  | some d =>
    let w := (Decompiler.serve ({ d with session.metrics := f.metrics }, f.clock) request).2
    { members := f.members.set position w.1, metrics := w.1.session.metrics, clock := w.2 }

/-- What requests to members of a fleet, made one after the other, leave behind. -/
def afterRequests (f : Fleet σ) (requests : List (Nat × Request)) : Fleet σ :=
  requests.foldl (fun f request => f.serve request.1 request.2) f

variable [LawfulStopwatch σ]

/-- **A request keeps a fleet booked.** -/
theorem Booked.after_request {f : Fleet σ} (h : f.Booked) (position : Nat) (request : Request) :
    (f.serve position request).Booked := by
  rw [serve]
  cases hmember : f.members[position]? with
  | none => exact h
  | some d =>
      obtain ⟨hlt, rfl⟩ := List.getElem?_eq_some_iff.mp hmember
      obtain ⟨hplain, hflow⟩ := h.plain _ (List.getElem_mem hlt)
      generalize hserved : Decompiler.serve
        ({ f.members[position] with session.metrics := f.metrics }, f.clock) request = r
      obtain ⟨before, after, hmembers, -, hset⟩ : ∃ before after,
          f.members = before ++ f.members[position] :: after ∧ before.length = position ∧
            f.members.set position r.2.1 = before ++ r.2.1 :: after := List.exists_of_set hlt
      have haccounts := h.accounts
      rw [hmembers] at haccounts
      have hbefore : Decompiler.Booked ((before ++ after).flatMap lastGraphs)
          ((before ++ after).flatMap (·.state.completed))
          { f.members[position] with session.metrics := f.metrics } :=
        ⟨⟨hplain.added_eq, hplain.completed_eq⟩, hflow,
          haccounts.perm (perm_flatMap_middle ..) (perm_flatMap_middle ..)⟩
      have hafter := serve_preserves (fun _ nanos h => h.stepped nanos)
        (fun _ h => steady_of_added_eq h.added_eq) (w := (_, f.clock)) hbefore request
      rw [hserved] at hafter
      simp only [hserved]
      refine ⟨fun member hmem => ?_, ?_⟩
      · rcases List.mem_or_eq_of_mem_set hmem with hmem | rfl
        · exact h.plain member hmem
        · exact ⟨hafter.toPlain, hafter.isSome_flow⟩
      · rw [hset]
        exact hafter.accounts.perm (perm_flatMap_middle ..).symm
          (perm_flatMap_middle (·.state.completed) ..).symm

/-- **Any sequence of requests keeps a fleet booked.** -/
theorem Booked.after_requests {f : Fleet σ} (h : f.Booked) (requests : List (Nat × Request)) :
    (f.afterRequests requests).Booked := by
  induction requests generalizing f with
  | nil => exact h
  | cons request requests ih => exact ih (h.after_request request.1 request.2)

omit [Stopwatch (StateM σ)] [LawfulStopwatch σ] in
/-- A fleet of new decompilers is booked. -/
theorem booked_of_new {members : List Decompiler}
    (hnew : ∀ d ∈ members, ∃ source entry config, d = start source entry config) (clock : σ) :
    Booked ⟨members, {}, clock⟩ := by
  have hgraphs : members.flatMap lastGraphs = [] := List.flatMap_eq_nil_iff.mpr fun d hd => by
    obtain ⟨source, entry, config, rfl⟩ := hnew d hd
    rfl
  have hsteps : members.flatMap (·.state.completed) = [] := List.flatMap_eq_nil_iff.mpr
    fun d hd => by
      obtain ⟨source, entry, config, rfl⟩ := hnew d hd
      rfl
  refine ⟨fun d hd => ?_, ?_⟩
  · obtain ⟨source, entry, config, rfl⟩ := hnew d hd
    exact ⟨⟨rfl, rfl⟩, fun hfinished => by cases hfinished⟩
  · rw [hgraphs, hsteps]
    exact .empty

/-- **Metrics are sums over runs.** Take any new decompilers that share their metrics, which are
new as well, on any clock, and make any requests to them in any order. In the end, the counter of
runs is the number of decompilers that have completed the last step, and each of these has a last
graph; the counters of blocks and of placeholders are the sums over these graphs, as long as they
fit into words. If there is no such decompiler there are no counters, and there never are others.
Under the key of a step there are as many samples as there are decompilers that have completed it,
or none at all if there is none, and under other keys there are no samples. -/
theorem metrics_sum_runs {members : List Decompiler}
    (hnew : ∀ d ∈ members, ∃ source entry config, d = start source entry config) (clock : σ)
    (requests : List (Nat × Request)) :
    let f := afterRequests ⟨members, {}, clock⟩ requests
    let finished := f.members.filter (·.state.hasRun Step.finalize)
    (∃ graphs : List FlowGraph, finished.map (·.state.flow) = graphs.map some ∧
      (finished = [] → ∀ key, f.metrics.counter? key = none) ∧
      (finished ≠ [] →
        (finished.length < Numeral.wordBound →
          f.metrics.counter? Metrics.runsKey = some finished.length) ∧
        ((graphs.map FlowGraph.size).sum < Numeral.wordBound →
          f.metrics.counter? Metrics.blocksKey = some (graphs.map FlowGraph.size).sum) ∧
        ((graphs.map fun g => (Ssa.allPhis g).length).sum < Numeral.wordBound →
          f.metrics.counter? Metrics.phisKey =
            some (graphs.map fun g => (Ssa.allPhis g).length).sum))) ∧
    (∀ key, key ∉ [Metrics.runsKey, Metrics.blocksKey, Metrics.phisKey] →
      f.metrics.counter? key = none) ∧
    (∀ step, (∀ d ∈ f.members, d.state.hasRun step = false) →
      f.metrics.samples? (Metrics.stepKey step) = none) ∧
    (∀ step, (∃ d ∈ f.members, d.state.hasRun step = true) →
      ∃ samples, f.metrics.samples? (Metrics.stepKey step) = some samples ∧
        samples.length = f.members.countP (·.state.hasRun step)) ∧
    ∀ key, (∀ step, Metrics.stepKey step ≠ key) → f.metrics.samples? key = none := by
  intro f finished
  have hbooked : f.Booked := (booked_of_new hnew clock).after_requests requests
  have hgraphs := map_flow_filter fun d hd => (hbooked.plain d hd).2
  have hlength := congrArg List.length hgraphs
  rw [List.length_map, List.length_map] at hlength
  have hempty : finished = [] ↔ f.members.flatMap lastGraphs = [] := by
    rw [← List.length_eq_zero_iff, ← List.length_eq_zero_iff, hlength]
  have hsamples := hbooked.accounts.samples?_eq
  have hcount := countP_stepKey fun d hd => (hbooked.plain d hd).1.nodup_completed
  refine ⟨⟨f.members.flatMap lastGraphs, hgraphs, fun hnone key => ?_, fun hsome => ?_⟩,
    fun key hkey => ?_, fun step hstep => ?_, fun step hstep => ?_, fun key hkey => ?_⟩
  · rw [hbooked.accounts.counter?_eq, if_pos (hempty.mp hnone)]
  · have hne := mt hempty.mpr hsome
    have hruns : ((f.members.flatMap lastGraphs).map fun _ => 1).sum = finished.length := by
      rw [List.map_const', List.sum_replicate_nat, Nat.mul_one, ← hlength]
    rw [← hruns]
    exact ⟨hbooked.accounts.counter?_eq_some hne rfl, hbooked.accounts.counter?_eq_some hne rfl,
      hbooked.accounts.counter?_eq_some hne rfl⟩
  · exact hbooked.accounts.counter?_eq_none hkey
  · have hzero : f.members.countP (·.state.hasRun step) = 0 := by
      rw [List.countP_eq_zero]
      exact fun d hd => by simp [hstep d hd]
    have hnone := hsamples (Metrics.stepKey step)
    rw [hcount, if_pos hzero] at hnone
    exact Option.map_eq_none_iff.mp hnone
  · obtain ⟨d, hd, hrun⟩ := hstep
    have hpos : f.members.countP (·.state.hasRun step) ≠ 0 := by
      exact (List.countP_pos_iff.mpr ⟨d, hd, hrun⟩).ne'
    have hsome := hsamples (Metrics.stepKey step)
    rw [hcount, if_neg hpos] at hsome
    exact Option.map_eq_some_iff.mp hsome
  · have hnone := hsamples key
    rw [if_pos (List.countP_eq_zero.mpr fun step _ => by simp [hkey step])] at hnone
    exact Option.map_eq_none_iff.mp hnone

/-- A run with a loop, a run without, a run with a jump to nowhere and another one with a loop. -/
def convoy : List Decompiler := [
  start idling 80,
  start (.ofItems [{ address := 110, terminator := .ret none }]) 110,
  start (.ofItems [{ address := 111, terminator := .jump 119 }]) 111,
  start idling 80 { prunePhis := false }]

/-- Requests by which the first run is stopped and resumed, the third one fails, and the last one
is not finished. -/
def turns : List (Nat × Request) := [
  (0, .upTo Step.ssa), (1, .completion), (2, .completion), (0, .completion), (3, .upTo Step.pruned),
  (0, .completion), (2, .upTo Step.ssa), (4, .completion)]

/-- Two runs are finished, and they have four blocks and one placeholder. -/
theorem metrics_sum_runs_convoy :
    let f := afterRequests ⟨convoy, {}, Ticks.mk 0⟩ turns
    (∀ d ∈ convoy, ∃ source entry config, d = start source entry config) ∧
    f.metrics.counter? Metrics.runsKey = some 2 ∧
    f.metrics.counter? Metrics.blocksKey = some 4 ∧
    f.metrics.counter? Metrics.phisKey = some 1 ∧
    (∃ samples, f.metrics.samples? (Metrics.stepKey Step.pruned) = some samples ∧
      samples.length = 3) ∧
    f.metrics.samples? (Metrics.stepKey "nowhere") = none := by
  intro f
  have hnew : ∀ d ∈ convoy, ∃ source entry config, d = start source entry config := by
    simp only [convoy, List.forall_mem_cons, List.not_mem_nil, false_implies, implies_true]
    exact ⟨⟨_, _, _, rfl⟩, ⟨_, _, _, rfl⟩, ⟨_, _, _, rfl⟩, ⟨_, _, _, rfl⟩, trivial⟩
  have heval : (f.members.map (·.state.completed),
      (f.members.filter (·.state.hasRun Step.finalize)).map fun d =>
        d.state.flow.map fun g => (g.size, (Ssa.allPhis g).length)) =
      ([["basic_blocks", "ssa", "pruned", "finalize"],
        ["basic_blocks", "ssa", "pruned", "finalize"], [], ["basic_blocks", "ssa", "pruned"]],
        [some (3, 1), some (1, 0)]) := by decide_cbv
  obtain ⟨hcompleted, hflows⟩ := Prod.mk.inj heval
  obtain ⟨⟨graphs, hgraphs, -, hcounters⟩, -, hnone, hsamples, -⟩ :=
    metrics_sum_runs hnew (Ticks.mk 0) turns
  have hcount : ∀ step, f.members.countP (·.state.hasRun step) =
      (f.members.map (·.state.completed)).countP (·.contains step) :=
    fun step => List.countP_map.symm
  have hpruned : f.members.countP (·.state.hasRun Step.pruned) = 3 := by
    rw [hcount, hcompleted]
    decide
  have hnowhere : f.members.countP (·.state.hasRun "nowhere") = 0 := by
    rw [hcount, hcompleted]
    decide
  have hpairs : graphs.map (fun g => (g.size, (Ssa.allPhis g).length)) = [(3, 1), (1, 0)] := by
    refine List.map_injective_iff.mpr (Option.some_injective _) (Eq.trans ?_ hflows)
    have hmap := congrArg (List.map (Option.map fun g => (g.size, (Ssa.allPhis g).length))) hgraphs
    rw [List.map_map, List.map_map] at hmap
    rw [List.map_map]
    exact hmap.symm
  have hlength := congrArg List.length hflows
  rw [List.length_map] at hlength
  have hsizes := congrArg (List.map Prod.fst) hpairs
  have hphis := congrArg (List.map Prod.snd) hpairs
  rw [List.map_map] at hsizes hphis
  obtain ⟨hruns, hblocks, hplaceholders⟩ := hcounters fun hnil => by
    rw [hnil] at hlength
    cases hlength
  refine ⟨hnew, ?_, ?_, ?_, ?_, ?_⟩
  · rw [hruns (hlength ▸ by decide), hlength]
    rfl
  · have hsum : (graphs.map FlowGraph.size).sum = 4 := congrArg List.sum hsizes
    rw [hblocks (hsum ▸ by decide), hsum]
  · have hsum : (graphs.map fun g => (Ssa.allPhis g).length).sum = 1 := congrArg List.sum hphis
    rw [hplaceholders (hsum ▸ by decide), hsum]
  · obtain ⟨samples, heq, hthree⟩ := hsamples Step.pruned
      (List.countP_pos_iff.mp (hpruned ▸ by decide))
    exact ⟨samples, heq, hthree.trans hpruned⟩
  · exact hnone "nowhere" fun d hd => by
      simpa using List.countP_eq_zero.mp hnowhere d hd

end Fleet

end Decompiler

end FlowForm
