import FlowForm.Proofs.Ssa.Construction

/-!
# Reaching Definitions

The environment at the end of a block is what the definitions along **any path** from the entry
leave behind, those of placeholders included (`Reaching.leaving_eq_after`): at the start of a
block two paths can differ in a variable only if the block has a placeholder for it, and then the
placeholder hides the difference. Every use therefore carries the version of the last definition
before it, on whichever path control got there.

## Main results

* `Reaching.leaving_eq_after`: environments by paths.
* `Reaching.use_eq_after`: uses carry the version that is left behind.
-/

namespace FlowForm

/-- A use **carries** the version of a definition, which has one, or none if there is no
definition. -/
def Var.Carries (v : Var) : Option Var → Prop
  | some d => d.isVersioned = true ∧ v.version = d.version
  | none => v.version = none

namespace Ssa

variable {g : FlowGraph} {entering leaving : Nat → Env}

/-- Environments that agree on a variable still do so after the same events. -/
theorem Env.after_congr {env env' : Env} {x : String} (h : env x = env' x) (es : List Event) :
    env.after es x = env'.after es x := by
  rw [after_eq, after_eq, h]

/-- Placeholders define their variables. -/
theorem defines_eventsOf {id : Nat} {phi : Phi} (hphi : phi ∈ phisOf g id) :
    Defines (g.eventsOf id) phi.var.name := by
  rw [phisOf] at hphi
  split at hphi
  · rename_i b hb
    rw [FlowGraph.eventsOf_eq hb, Block.events, defines_append]
    exact .inl ⟨phi.var, List.mem_flatMap.mpr ⟨phi, hphi, List.mem_singleton.mpr rfl⟩, rfl⟩
  · simp at hphi

/-- Placeholders are defined before anything is used. -/
theorem defines_of_use {id : Nat} {phi : Phi} (hphi : phi ∈ phisOf g id) {pre post : List Event}
    {v : Var} (h : g.eventsOf id = pre ++ .use v :: post) : Defines pre phi.var.name := by
  rw [phisOf] at hphi
  split at hphi
  · rename_i b hb
    rw [FlowGraph.eventsOf_eq hb, Block.events] at h
    have hevent : Event.define phi.var ∈ b.phis.flatMap Phi.events :=
      List.mem_flatMap.mpr ⟨phi, hphi, List.mem_singleton.mpr rfl⟩
    rcases List.append_eq_append_iff.mp h with ⟨rest, hpre, -⟩ | ⟨rest, hphis, hrest⟩
    · rw [hpre, defines_append]
      exact .inl ⟨phi.var, hevent, rfl⟩
    · -- A use among the placeholders is impossible, so the uses start behind them.
      cases rest with
      | nil =>
          rw [List.append_nil] at hphis
          exact ⟨phi.var, hphis ▸ hevent, rfl⟩
      | cons e rest =>
          obtain rfl : Event.use v = e := (List.cons.inj hrest).1
          have hmem : Event.use v ∈ b.phis.flatMap Phi.events := by
            rw [hphis]
            simp
          obtain ⟨psi, -, hpsi⟩ := List.mem_flatMap.mp hmem
          simp [Phi.events] at hpsi
  · simp at hphi

namespace Reaching

/-- **Environments by paths**: what a block ends with is what any path to it leaves behind. -/
theorem leaving_eq_after (h : Reaching g entering leaving) {π : List Nat} {b : Nat}
    (hpath : g.Path g.entry π b) : leaving b = Env.empty.after (g.eventsAlong π) := by
  induction hpath with
  | start =>
      rw [h.leaving_eq _ g.reachable_entry, h.entry, FlowGraph.eventsAlong, List.flatMap_cons,
        List.flatMap_nil, List.append_nil]
  | @step π u v hpath hedge ih =>
      funext x
      rw [h.leaving_eq v ⟨_, hpath.step hedge⟩, FlowGraph.eventsAlong_concat, Env.after_append,
        ← ih]
      rcases h.edge u v ⟨_, hpath⟩ hedge x with ⟨phi, hphi, rfl⟩ | hsame
      · exact Env.after_of_defines _ _ (defines_eventsOf hphi)
      · exact Env.after_congr hsame.symm _

/-- At the start of a block, whatever has no placeholder there is as the path has left it. -/
theorem entering_eq_after (h : Reaching g entering leaving) {π : List Nat} {b : Nat}
    (hpath : g.Path g.entry (π ++ [b]) b) (x : String) :
    (∃ phi ∈ phisOf g b, phi.var.name = x) ∨
      entering b x = Env.empty.after (g.eventsAlong π) x := by
  generalize hσ : π ++ [b] = σ at hpath
  cases hpath with
  | start =>
      obtain rfl : π = [] := (List.append_eq_singleton_iff.mp hσ).elim (·.1) (fun h => by simp at h)
      rw [h.entry]
      exact .inr rfl
  | @step σ u _ hpath hedge =>
      obtain rfl : π = σ := (List.append_inj' hσ rfl).1
      rw [← h.leaving_eq_after hpath]
      exact (h.edge u b ⟨_, hpath⟩ hedge x).imp_right Eq.symm

/-- Definitions along a path from the entry have versions. -/
theorem isVersioned_of_mem (h : Reaching g entering leaving) {π : List Nat} {b : Nat}
    (hpath : g.Path g.entry π b) {v : Var} (hv : .define v ∈ g.eventsAlong π) :
    v.isVersioned = true := by
  obtain ⟨c, hc, hv⟩ := List.mem_flatMap.mp hv
  exact (h.resolves c (hpath.reachable_of_mem hc)).define hv

/-- A variable at the version that the events before it leave behind carries the version of the
last definition among them. -/
theorem carries_lastDefinition? {v : Var} {es : List Event}
    (hversioned : ∀ d, .define d ∈ es → d.isVersioned = true)
    (hv : v.version = Env.empty.after es v.name) : v.Carries (lastDefinition? v.name es) := by
  rw [Env.after_eq] at hv
  cases hlast : lastDefinition? v.name es with
  | none =>
      rw [hlast] at hv
      exact hv
  | some d =>
      rw [hlast] at hv
      exact ⟨hversioned d (mem_of_lastDefinition? hlast).1, hv⟩

/-- A use has the version that the events before it **on any path** leave behind. -/
theorem use_eq_after (h : Reaching g entering leaving) {π : List Nat} {b : Nat}
    (hpath : g.Path g.entry (π ++ [b]) b) {pre post : List Event} {v : Var}
    (hevents : g.eventsOf b = pre ++ .use v :: post) :
    v.version = Env.empty.after (g.eventsAlong π ++ pre) v.name := by
  have huse := (hevents ▸ h.resolves b ⟨_, hpath⟩).use
  rw [huse, Env.after_append]
  rcases h.entering_eq_after hpath v.name with ⟨phi, hphi, hname⟩ | hsame
  · exact Env.after_of_defines _ _ (hname ▸ defines_of_use hphi hevents)
  · exact Env.after_congr hsame _

end Reaching

end Ssa

end FlowForm
