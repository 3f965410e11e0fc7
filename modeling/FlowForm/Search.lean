/-!
# Depth-first search

Two depth-first searches over a finite set of vertices, both with an explicit stack. Edges are
given by a function from a vertex to its successors; successors outside the set are skipped, as
are those that have been seen before.

* `preorder` lists the vertices in the order in which they are first reached.
* `reversePostorder` lists them in the opposite of the order in which they are left for good, so
  that a vertex stands before its successors except along cycles.

Each round either sees a vertex for the first time or shortens the stack, which is why both
searches end.
-/

namespace FlowForm.Search

variable {α : Type} [DecidableEq α]

/-- The number of vertices not seen so far. -/
def unseen (scope seen : List α) : Nat :=
  scope.countP (· ∉ seen)

/-- Seeing a new vertex leaves fewer to be seen. -/
theorem unseen_cons_lt {scope seen : List α} {v : α} (hv : v ∈ scope) (hs : v ∉ seen) :
    unseen scope (v :: seen) < unseen scope seen := by
  have sub : ∀ x ∈ scope, decide (x ∉ v :: seen) = true → decide (x ∉ seen) = true := by
    intro x _ hx
    simp only [decide_eq_true_eq, List.mem_cons, not_or] at hx ⊢
    exact hx.2
  unfold unseen
  induction scope with
  | nil => simp at hv
  | cons x xs ih =>
    have le : xs.countP (· ∉ v :: seen) ≤ xs.countP (· ∉ seen) :=
      List.countP_mono_left fun y hy => sub y (List.mem_cons_of_mem _ hy)
    by_cases hx : x = v
    · subst hx
      simp only [List.countP_cons, List.mem_cons, true_or, not_true_eq_false, decide_false,
        hs, not_false_eq_true, decide_true]
      simp only [List.mem_cons] at le
      simp only [Bool.false_eq_true, if_false, if_true]
      omega
    · have hv' : v ∈ xs := by
        cases hv with
        | head => exact absurd rfl hx
        | tail _ h => exact h
      have lt := ih hv' fun y hy => sub y (List.mem_cons_of_mem _ hy)
      simp only [List.countP_cons, List.mem_cons, hx, false_or]
      simp only [List.mem_cons] at lt
      omega

/-- The vertices reached from a stack of vertices, in the order in which they are first reached.
`seen` holds those reached before, the latest first. -/
def explore (next : α → List α) (scope : List α) : (stack seen : List α) → List α
  | [], seen => seen.reverse
  | v :: stack, seen =>
    if _h : v ∈ scope ∧ v ∉ seen then
      explore next scope (next v ++ stack) (v :: seen)
    else
      explore next scope stack seen
termination_by stack seen => (unseen scope seen, stack.length)
decreasing_by
  · exact Prod.Lex.left _ _ (unseen_cons_lt _h.1 _h.2)
  · exact Prod.Lex.right _ (by simp)

/-- The vertices reachable from `roots`, each before its successors, which are visited from left
to right. -/
def preorder (next : α → List α) (scope roots : List α) : List α :=
  explore next scope roots []

/-- The work left in a search that keeps, for each vertex on its stack, the successors still to
be looked at. -/
def openWork : List (α × List α) → Nat
  | [] => 0
  | (_, ws) :: frames => ws.length + 1 + openWork frames

/-- Runs a search whose stack holds vertices with the successors still to be looked at. A vertex
without any left is done, and joins the front of `done`. -/
def finish (next : α → List α) (scope : List α) :
    (frames : List (α × List α)) → (seen done : List α) → List α
  | [], _, done => done
  | (v, []) :: frames, seen, done => finish next scope frames seen (v :: done)
  | (v, w :: ws) :: frames, seen, done =>
    if _h : w ∈ scope ∧ w ∉ seen then
      finish next scope ((w, next w) :: (v, ws) :: frames) (w :: seen) done
    else
      finish next scope ((v, ws) :: frames) seen done
termination_by frames seen => (unseen scope seen, openWork frames)
decreasing_by
  · exact Prod.Lex.right _ (by simp [openWork])
  · exact Prod.Lex.left _ _ (unseen_cons_lt _h.1 _h.2)
  · exact Prod.Lex.right _ (by simp [openWork])

/-- The vertices reachable from `root`, the last one to be left first. -/
def reversePostorder (next : α → List α) (scope : List α) (root : α) : List α :=
  finish next scope [(root, next root)] [root] []

end FlowForm.Search
