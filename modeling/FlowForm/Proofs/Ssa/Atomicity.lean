import Mathlib
import FlowForm.Proofs.Ssa.Counts

/-!
# Builds Are All or Nothing

A build changes the graph and the counter in place, and it keeps no copy of either. That it leaves
both alone when it fails is therefore a matter of order. It is refused for one of three reasons,
which are looked for before anything is changed: the graph is not valid, it is in single-assignment
form already, or the counter has fewer versions left than there are places for placeholders and
definitions. Behind these checks nothing fails any more.

The last step takes the argument. Renaming draws versions along the dominator tree, and if it ran
out of them halfway it would leave placeholders that have been inserted and blocks that have been
renamed. But the walk draws exactly one version for each place. So renaming fails if and only if the
check beforehand would have refused to start it, and it is started only with the versions that it
costs.

## Main results

* `construct_cases`: the four ways in which construction can end.
* `build_all_or_nothing`: when a build fails, and that it has changed nothing if it does.
-/

namespace FlowForm.Ssa

open DominatorTree

variable {g : FlowGraph} {counter : Counter}

/-- A graph is **marked** if some block, reachable or not, has a placeholder or a definition with a
version. -/
def Marked (g : FlowGraph) : Prop :=
  ∃ b ∈ g.blocks, b.phis ≠ [] ∨ ∃ v ∈ b.defs, v.isVersioned = true

/-- Graphs are in single-assignment form by their marks. -/
theorem isInSsa_iff_marked : isInSsa g = true ↔ Marked g := by
  rw [isInSsa, List.any_eq_true, Marked]
  simp only [Bool.or_eq_true, Bool.not_eq_true', List.isEmpty_eq_false_iff, List.any_eq_true]

/-- A graph without marks is not in single-assignment form. -/
theorem isInSsa_eq_false_iff : isInSsa g = false ↔ ¬ Marked g := by
  rw [← isInSsa_iff_marked, Bool.not_eq_true]

/-- A valid graph that is in single-assignment form **already** is refused. -/
theorem construct_eq_alreadyInSsa (hvalid : g.validate = .ok ()) (hssa : isInSsa g = true) :
    construct g counter = .error .alreadyInSsa := by
  simp [construct_eq_error_iff, run_build, hvalid, hssa]

/-- **The ways in which construction ends**: refused with a defect, as marked already or for lack of
versions, or gone through on exactly the versions needed. -/
theorem construct_cases (g : FlowGraph) (counter : Counter) :
    (∃ defect, g.validate = .error defect ∧ construct g counter = .error (.malformed defect)) ∨
    g.validate = .ok () ∧ Marked g ∧ construct g counter = .error .alreadyInSsa ∨
    g.validate = .ok () ∧ ¬ Marked g ∧ counter.remaining < versionsNeeded g ∧
      construct g counter = .error .versionsExhausted ∨
    g.validate = .ok () ∧ ¬ Marked g ∧ versionsNeeded g ≤ counter.remaining ∧
      ∃ result, construct g counter = .ok result := by
  cases hvalid : g.validate with
  | error defect => exact .inl ⟨defect, rfl, by simp [construct_eq_error_iff, run_build, hvalid]⟩
  | ok _ =>
      cases hssa : isInSsa g with
      | true =>
          exact .inr (.inl ⟨rfl, isInSsa_iff_marked.mp hssa, construct_eq_alreadyInSsa hvalid hssa⟩)
      | false =>
          have hmarked := isInSsa_eq_false_iff.mp hssa
          rcases Nat.lt_or_ge counter.remaining (versionsNeeded g) with hless | henough
          · exact .inr (.inr (.inl ⟨rfl, hmarked, hless,
              construct_eq_versionsExhausted hvalid hssa hless⟩))
          · obtain ⟨result, -, hresult, -⟩ := exists_construct hvalid hssa henough
            exact .inr (.inr (.inr ⟨rfl, hmarked, henough, result, hresult⟩))

/-- **A build is all or nothing.** One that fails leaves the graph and the counter exactly as they
were. It reports the defect of a graph that is not valid; else that the graph is in
single-assignment form already, if and only if it is marked; else that versions have run out, if and
only if fewer are left than there are places for placeholders and definitions, which is what it has
counted beforehand. Renaming the graph with its placeholders would fail in just these cases, and the
build goes on to it in the others. In the end the counter has moved on by the number of places. -/
theorem build_all_or_nothing (g : FlowGraph) (counter : Counter) :
    (∀ e s, build.run.run (g, counter) = (.error e, s) → s = (g, counter)) ∧
    (∀ defect, (build.run.run (g, counter)).1 = .error (.malformed defect) ↔
      g.validate = .error defect) ∧
    (g.validate = .ok () →
      siteCount (sites g (compute g)) + definitionCount g (compute g) = placeCount g ∧
      ((build.run.run (g, counter)).1 = .error .alreadyInSsa ↔ Marked g) ∧
      (¬ Marked g →
        let renamed := (rename (compute g) { phis := siteCount (sites g (compute g)) }).run.run
          (placed g, counter)
        ((build.run.run (g, counter)).1 = .error .versionsExhausted ↔
          maxVersion - counter.current < placeCount g) ∧
        ((∃ e, renamed.1 = .error e) ↔ maxVersion - counter.current < placeCount g) ∧
        (placeCount g ≤ maxVersion - counter.current →
          build.run.run (g, counter) = renamed))) ∧
    ∀ stats g' counter', build.run.run (g, counter) = (.ok stats, g', counter') →
      counter'.current = counter.current + placeCount g := by
  refine ⟨fun e s => state_of_build_error, fun defect => ?_, fun hvalid => ⟨?_, ?_, ?_⟩, ?_⟩
  · rw [← construct_eq_error_iff]
    rcases construct_cases g counter with ⟨d, hvalid, h⟩ | ⟨hvalid, -, h⟩ | ⟨hvalid, -, -, h⟩ |
      ⟨hvalid, -, -, result, h⟩ <;> simp [h, hvalid]
  · exact versionsNeeded_eq (FlowGraph.edgesAgree_of_validate hvalid)
  · rw [← construct_eq_error_iff]
    rcases construct_cases g counter with ⟨d, hdefect, -⟩ | ⟨-, hmarked, h⟩ | ⟨-, hmarked, -, h⟩ |
      ⟨-, hmarked, -, result, h⟩
    · simp [hvalid] at hdefect
    all_goals simp [h, hmarked]
  · intro hmarked renamed
    have hssa := isInSsa_eq_false_iff.mpr hmarked
    have hfails : ∀ e, renamed.1 = .error e ↔
        e = .versionsExhausted ∧ counter.remaining < versionsNeeded g := fun e =>
      rename_eq_error_iff hvalid hssa
    rw [← versionsNeeded_eq (FlowGraph.edgesAgree_of_validate hvalid), ← construct_eq_error_iff]
    refine ⟨?_, ?_, fun henough => ?_⟩
    · rcases construct_cases g counter with ⟨d, hdefect, -⟩ | ⟨-, habsurd, -⟩ | ⟨-, -, hless, h⟩ |
        ⟨-, -, henough, result, h⟩
      · simp [hvalid] at hdefect
      · exact absurd habsurd hmarked
      · exact ⟨fun _ => hless, fun _ => h⟩
      · simp only [h, reduceCtorEq, false_iff, Nat.not_lt]
        exact henough
    · exact ⟨fun ⟨e, he⟩ => ((hfails e).mp he).2, fun hless => ⟨_, (hfails _).mpr ⟨rfl, hless⟩⟩⟩
    · rw [run_build, hvalid]
      simp only [hssa, Bool.false_eq_true, if_false]
      exact if_neg (Nat.not_lt.mpr henough)
  · intro stats g' counter' h
    rw [run_build_eq] at h
    cases hresult : construct g counter with
    | error e =>
        rw [hresult] at h
        cases h
    | ok result =>
        rw [hresult] at h
        cases h
        obtain ⟨hvalid, -⟩ := construct_eq_ok hresult
        rw [advance_construct hresult, versionsNeeded_eq (FlowGraph.edgesAgree_of_validate hvalid)]

/-- Two ways to the end, of which one assigns `a` anew. -/
def fork : FlowGraph where
  blocks := [
    { address := 0,
      items := [{ address := 0, statements := [⟨⟨"a", none⟩, .imm 1⟩] },
        { address := 1, terminator := .branch (.var ⟨"b", none⟩) 3 }],
      succs := [2, 1], fall := some 1 },
    { address := 2, items := [{ address := 2, statements := [⟨⟨"a", none⟩, .imm 2⟩] }],
      preds := [0], succs := [2], fall := some 2 },
    { address := 3, items := [{ address := 3, terminator := .ret (some (.var ⟨"a", none⟩)) }],
      preds := [0, 1] }]
  keys := [0, 2, 3]
  blocks_ne_nil := by decide
  length_keys := by decide
  nodup_keys := by decide

/-- Two definitions and a placeholder need three versions. With three of them left the counter is
used up, and with two of them nothing happens. Had renaming been started on the two, it would have
failed at the placeholder, with both definitions renamed. -/
theorem build_all_or_nothing_fork :
    placeCount fork = 3 ∧
    (∃ stats g counter, build.run.run (fork, .startingAt (maxVersion - 3)) =
      (.ok stats, g, counter) ∧ counter.current = maxVersion) ∧
    build.run.run (fork, .startingAt (maxVersion - 2)) =
      (.error .versionsExhausted, fork, .startingAt (maxVersion - 2)) ∧
    (let renamed := (rename (compute fork) { phis := 1 }).run.run
      (placed fork, .startingAt (maxVersion - 2))
    renamed.1 = .error .versionsExhausted ∧
      renamed.2.1.blocks.map (·.defs.map Var.isVersioned) = [[true], [true], []] ∧
      renamed.2.1.blocks.map (·.phis.map (·.var.isVersioned)) = [[], [], [false]]) := by
  have hvalid : fork.validate = .ok () := by decide
  have hmarked : ¬ Marked fork := isInSsa_eq_false_iff.mp (by decide)
  obtain ⟨hkept, -, hshort, -⟩ := build_all_or_nothing fork (.startingAt (maxVersion - 2))
  obtain ⟨-, -, hlong, hadvance⟩ := build_all_or_nothing fork (.startingAt (maxVersion - 3))
  have hcount : placeCount fork = 3 := by
    rw [← (hshort hvalid).1]
    decide_cbv
  have hfail := ((hshort hvalid).2.2 hmarked).1.mpr (by rw [hcount]; decide)
  have hrefused : build.run.run (fork, .startingAt (maxVersion - 2)) =
      (.error .versionsExhausted, fork, .startingAt (maxVersion - 2)) :=
    Prod.ext hfail (hkept _ _ (Prod.ext hfail rfl))
  have hgoes : ¬ ∃ e, (build.run.run (fork, .startingAt (maxVersion - 3))).1 = .error e := by
    rw [((hlong hvalid).2.2 hmarked).2.2 (by rw [hcount]; decide),
      ((hlong hvalid).2.2 hmarked).2.1, hcount]
    decide
  refine ⟨hcount, ?_, hrefused, by decide_cbv, by decide_cbv, by decide_cbv⟩
  rcases hout : build.run.run (fork, .startingAt (maxVersion - 3)) with ⟨e | stats, g, counter⟩
  · exact absurd ⟨e, congrArg Prod.fst hout⟩ hgoes
  · refine ⟨stats, g, counter, rfl, ?_⟩
    rw [hadvance stats g counter hout, hcount]
    rfl

end FlowForm.Ssa
