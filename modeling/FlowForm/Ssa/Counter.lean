import FlowForm.Graph.Validity

/-!
# Version counters

Versions are given out in ascending order by a **counter**, which belongs to one run and never
gives out the largest number it can hold. `Counter.next` fails when the counter stands there.
-/

namespace FlowForm

/-- Why a graph cannot be brought into single-assignment form. -/
inductive SsaError where
  | malformed (defect : Defect)
  | alreadyInSsa
  | versionsExhausted
deriving DecidableEq

/-- The wording of such an error. -/
def SsaError.message : SsaError → String
  | malformed defect => defect.report
  | alreadyInSsa => "Flow graph is already in SSA form"
  | versionsExhausted => "No SSA versions left in this run"

/-- Counters are words of 32 bits, and this is the largest of them. -/
def maxVersion : Nat := 0xffffffff

/-- A **version counter**. -/
structure Counter where
  /-- The version given out next. -/
  current : Nat := 0
  current_le : current ≤ maxVersion := by decide
deriving DecidableEq

namespace Counter

/-- The counter of a new run. -/
def fresh : Counter := {}

/-- The counter that stands at `n`, or as far as counters go. -/
def startingAt (n : Nat) : Counter where
  current := min n maxVersion
  current_le := Nat.min_le_right _ _

/-- How many versions are left. -/
def remaining (c : Counter) : Nat :=
  maxVersion - c.current

/-- Gives out a version. -/
def next (c : Counter) : Except SsaError (Nat × Counter) :=
  if h : c.current < maxVersion then .ok (c.current, { current := c.current + 1, current_le := h })
  else .error .versionsExhausted

theorem next_eq_ok_iff {c c' : Counter} {v : Nat} :
    c.next = .ok (v, c') ↔ v = c.current ∧ c'.current = c.current + 1 := by
  unfold next
  split
  · simp only [Except.ok.injEq, Prod.mk.injEq]
    constructor
    · rintro ⟨rfl, rfl⟩; exact ⟨rfl, rfl⟩
    · rintro ⟨rfl, h⟩; cases c'; simp_all
  · rename_i h
    have := c'.current_le
    simp only [reduceCtorEq, false_iff, not_and]
    intro _ step
    omega

end Counter

end FlowForm
