import Mathlib
import FlowForm.Proofs.Pipeline.Passes
import FlowForm.Proofs.Semantics.Versions

/-!
# The Pipeline Keeps the Meaning of Code

What comes out of a run through all passes does what the listing does that went in, step by step
and whatever constants and operators mean (`Decompiler.runToCompletion_preserves_meaning`).

The proof follows the passes. Blocks have the runs of the listing they are made of, by names. The
single-assignment form and the graph without the placeholders that nothing reads have the outline
of those blocks, so by names they have the same runs. And by versions they run as by names.

## Main results

* `Ssa.Reaching.exists_trimmed`: pruned or not, nothing is missing that is read.
* `Decompiler.runToCompletion_preserves_meaning`: the pipeline keeps the meaning of code.
-/

namespace FlowForm

/-- Whether or not a graph is pruned, nothing is missing from it that is read. -/
theorem Ssa.Reaching.exists_trimmed {g : FlowGraph} {entering leaving : Nat → Ssa.Env}
    (h : Ssa.Reaching g entering leaving) (prunes : Bool) :
    ∃ kept, Trimmed g (if prunes then (Ssa.prune g).1 else g) kept := by
  cases prunes with
  | true => exact ⟨_, trimmed_prune h⟩
  | false => exact ⟨_, trimmed_self g⟩

namespace Decompiler

/-- **The pipeline keeps the meaning of code.** A listing in ascending order is accepted as a
source. If the decompiler takes it through all passes, from any entry and in any configuration,
it ends with a flow graph whose runs are those of the listing from that entry: in any number of
steps the same items are visited, with the same values assigned and looked at, and the run ends in
the same way, whatever constants and operators mean and whatever the cells of versions hold before
something is written to them. -/
theorem runToCompletion_preserves_meaning (items : List Item)
    (hascending : items.Pairwise fun a b => a.address < b.address) :
    ∃ source, Source.ofListing items = .ok source ∧
      ∀ (entry : Nat) (config : Config) (metrics : Metrics) (d : Decompiler),
        (runToCompletion : RunM Id Unit).run.run (start source entry config metrics) =
            (.ok (), d) →
          ∃ g, d.state.flow = some g ∧
            ∀ {V : Type} (I : Interpretation V) (store : String → V) (cells : Var → V) (n : Nat),
              g.run I store cells n = Listing.run I items entry store n := by
  refine ⟨_, Source.ofListing_eq_ok hascending, fun entry config metrics d hrun => ?_⟩
  obtain ⟨suffix, g, result, hsuffix, hbuild, hconstruct, hflow⟩ := runToCompletion_eq_ok hrun
  obtain ⟨front, first, rest, rfl, rfl, hentry⟩ := Source.suffixAt_eq_ok hsuffix
  have hblocks := FlowGraph.blocks_build (List.pairwise_append.mp hascending).2.1 hbuild
  obtain ⟨hsame, entering, leaving, hreach⟩ := Ssa.reaching_construct hconstruct
  obtain ⟨kept, htrimmed⟩ := hreach.exists_trimmed config.prunePhis
  generalize (if config.prunePhis then (Ssa.prune result.graph).1 else result.graph) = f
    at hflow htrimmed
  have hwired := hblocks.wired.of_sameOutline hsame
  have houtline := hsame.trans htrimmed.sameOutline
  refine ⟨f, hflow, fun I store cells n => ?_⟩
  calc
    f.run I store cells n = f.byName.run I n ((f.entry, 0), store) :=
      run_eq_run_byName htrimmed hreach hwired store cells n
    _ = g.byName.run I n ((g.entry, 0), store) := FlowGraph.run_byName_congr houtline n _
    _ = Listing.run I (front ++ first :: rest) entry store n :=
      FlowGraph.run_byName_eq_run_listing hblocks hentry hascending store n

/-- Counts one variable down in a loop, from the item at 20 on, and keeps another one up to date
that nothing reads. -/
def idleLoop : List Item := [
  { address := 10, statements := [⟨⟨"n", none⟩, .imm 9⟩] },
  { address := 20, statements := [⟨⟨"k", none⟩, .imm 0⟩] },
  { address := 30, terminator := .branch (.var ⟨"n", none⟩) 50 },
  { address := 40, terminator := .ret (some (.var ⟨"n", none⟩)) },
  { address := 50,
    statements := [⟨⟨"n", none⟩, .binary .sub (.var ⟨"n", none⟩) (.imm 1)⟩,
      ⟨⟨"k", none⟩, .var ⟨"n", none⟩⟩],
    terminator := .jump 30 }]

/-- Integers, on which every operator with two operands takes the difference. -/
def differences : Interpretation Int where
  constant n := n
  unary _ x := -x
  binary _ x y := x - y
  isZero x := x == 0

/-- From 2 the loop is left with 0 after seven steps, and so is the graph. -/
theorem runToCompletion_preserves_meaning_idleLoop :
    ∃ source d g, Source.ofListing idleLoop = .ok source ∧
      (runToCompletion : RunM Id Unit).run.run (start source 20) = (.ok (), d) ∧
      d.state.flow = some g ∧
      ∀ cells, (g.run differences (fun _ => 2) cells 7).2 = .returned (some 0) := by
  obtain ⟨source, hsource, hmeaning⟩ := runToCompletion_preserves_meaning idleLoop (by decide)
  have hcompleted : (Source.ofListing idleLoop).map (fun source =>
      ((runToCompletion : RunM Id Unit).run.run (start source 20)).1.isOk) = .ok true := by
    decide_cbv
  rw [hsource] at hcompleted
  obtain ⟨result, d, hrun⟩ : ∃ result d,
      (runToCompletion : RunM Id Unit).run.run (start source 20) = (result, d) := ⟨_, _, rfl⟩
  cases result with
  | error e =>
      rw [Except.map, hrun] at hcompleted
      cases hcompleted
  | ok _ =>
      obtain ⟨g, hflow, hsame⟩ := hmeaning 20 {} {} d hrun
      refine ⟨source, d, g, hsource, hrun, hflow, fun cells => ?_⟩
      rw [hsame]
      decide

end Decompiler

end FlowForm
