import FlowForm.Proofs.Search

/-!
# Searching by Recursion

The searches of `FlowForm.Search` keep a stack. What they stand for is a recursion: to **visit** a
vertex is to enter it, to visit its successors from left to right, and to leave it for good, where
vertices outside the scope and vertices that have been entered before are passed over. `visit` is
that recursion, for a list of vertices one after the other. It notes the order in which vertices are
entered and the order in which they are left, and both searches are read off these notes.

A stack entry of the first search is a vertex that the recursion has still to come to, and it may
have been entered by the time it is taken up. What is on the stack is therefore compared with the
recursion all at once: the vertices on top are exhausted when `visit` returns from them, whatever
lies below (`explore_append`). A stack entry of the second search is a vertex that the recursion is
inside of, with the successors that it has not come to (`finish_cons`).

## Main results

* `preorder_eq_visit`: the preorder search lists vertices as they are entered.
* `reversePostorder_eq_visit`: the other search lists vertices in the opposite of the order in
  which they are left.
* `returning_reversePostorder`: an edge leads to a vertex that is left earlier, or closes a cycle.
-/

namespace FlowForm.Search

variable {α : Type}

/-! ### The recursion -/

/-- The vertices that a recursive search has **entered** and those that it has **left** for good,
the latest ones first. -/
structure Trail (α : Type) where
  entered : List α := []
  left : List α := []

/-- Enters a vertex. -/
def Trail.enter (t : Trail α) (v : α) : Trail α :=
  { t with entered := v :: t.entered }

/-- Leaves a vertex. -/
def Trail.leave (t : Trail α) (v : α) : Trail α :=
  { t with left := v :: t.left }

section

variable [DecidableEq α]

/-- More vertices seen leave no more to be seen. -/
theorem unseen_le_of_suffix {scope seen seen' : List α} (h : seen <:+ seen') :
    unseen scope seen' ≤ unseen scope seen := by
  refine List.countP_mono_left fun v _ hv => ?_
  simp only [decide_eq_true_eq] at hv ⊢
  exact fun hmem => hv (h.subset hmem)

/-- The recursion, with the proof that nothing is forgotten that has been entered. -/
def descend (next : α → List α) (scope : List α) :
    (todo : List α) → (t : Trail α) → { t' : Trail α // t.entered <:+ t'.entered }
  | [], t => ⟨t, List.suffix_rfl⟩
  | v :: todo, t =>
    if _h : v ∈ scope ∧ v ∉ t.entered then
      let inside := descend next scope (next v) (t.enter v)
      let after := descend next scope todo (inside.1.leave v)
      ⟨after.1, ((List.suffix_cons v t.entered).trans inside.2).trans after.2⟩
    else
      descend next scope todo t
termination_by todo t => (unseen scope t.entered, todo.length)
decreasing_by
  · exact Prod.Lex.left _ _ (unseen_cons_lt _h.1 _h.2)
  · exact Prod.Lex.left _ _
      (Nat.lt_of_le_of_lt (unseen_le_of_suffix inside.2) (unseen_cons_lt _h.1 _h.2))
  · exact Prod.Lex.right _ (by simp)

/-- **Visits** vertices from left to right: each one that lies in the scope and has not been entered
is entered, its successors are visited, and it is left. -/
def visit (next : α → List α) (scope todo : List α) (t : Trail α) : Trail α :=
  (descend next scope todo t).1

variable {next : α → List α} {scope : List α}

@[simp]
theorem visit_nil (t : Trail α) : visit next scope [] t = t := by
  rw [visit, descend]

/-- A new vertex is visited with everything below it before the vertices behind it. -/
theorem visit_cons_of_new {v : α} {t : Trail α} (h : v ∈ scope ∧ v ∉ t.entered) (todo : List α) :
    visit next scope (v :: todo) t =
      visit next scope todo ((visit next scope (next v) (t.enter v)).leave v) := by
  rw [visit, descend, dif_pos h]
  rfl

/-- A vertex that is outside the scope or has been entered is passed over. -/
theorem visit_cons_of_not_new {v : α} {t : Trail α} (h : ¬ (v ∈ scope ∧ v ∉ t.entered))
    (todo : List α) : visit next scope (v :: todo) t = visit next scope todo t := by
  rw [visit, descend, dif_neg h]
  rfl

/-- What has been entered stays so. -/
theorem entered_suffix_visit (todo : List α) (t : Trail α) :
    t.entered <:+ (visit next scope todo t).entered :=
  (descend next scope todo t).2

/-- Induction along the recursion: what holds of no vertices, and of a new vertex once it holds of
its successors and of the vertices behind it, holds of all visits. -/
theorem visit_induction {P : List α → Trail α → Prop} (next : α → List α) (scope : List α)
    (nil : ∀ t, P [] t)
    (new : ∀ v todo t, v ∈ scope ∧ v ∉ t.entered → P (next v) (t.enter v) →
      P todo ((visit next scope (next v) (t.enter v)).leave v) → P (v :: todo) t)
    (skip : ∀ v todo t, ¬ (v ∈ scope ∧ v ∉ t.entered) → P todo t → P (v :: todo) t)
    (todo : List α) (t : Trail α) : P todo t := by
  induction todo, t using descend.induct next scope with
  | case1 t => exact nil t
  | case2 v todo t h _ ih_inside ih_after => exact new v todo t h ih_inside ih_after
  | case3 v todo t h ih => exact skip v todo t h ih

/-! ### The stacks -/

/-- **The preorder search exhausts what is on top of its stack** as the recursion does. -/
theorem explore_append (todo stack : List α) (t : Trail α) :
    explore next scope (todo ++ stack) t.entered =
      explore next scope stack (visit next scope todo t).entered := by
  induction todo, t using visit_induction next scope generalizing stack with
  | nil t => rw [List.nil_append, visit_nil]
  | new v todo t h ih_inside ih_after =>
      -- The vertices behind `v` lie below its successors, like the rest of the stack.
      rw [List.cons_append, explore, dif_pos h, visit_cons_of_new h, ← ih_after]
      exact ih_inside (todo ++ stack)
  | skip v todo t h ih =>
      rw [List.cons_append, explore, dif_neg h, visit_cons_of_not_new h]
      exact ih stack

/-- The preorder search lists vertices in the order in which the recursion **enters** them. -/
theorem preorder_eq_visit (roots : List α) :
    preorder next scope roots = (visit next scope roots {}).entered.reverse := by
  calc preorder next scope roots
    _ = explore next scope (roots ++ []) [] := by rw [List.append_nil, preorder]
    _ = explore next scope [] (visit next scope roots {}).entered := explore_append roots [] {}
    _ = (visit next scope roots {}).entered.reverse := by rw [explore]

/-- A root of the scope is entered first. -/
theorem head?_preorder {root : α} (hroot : root ∈ scope) :
    (preorder next scope [root]).head? = some root := by
  have hnew : root ∈ scope ∧ root ∉ ({} : Trail α).entered := ⟨hroot, List.not_mem_nil⟩
  obtain ⟨later, hlater⟩ : [root] <:+ (visit next scope [root] {}).entered := by
    rw [visit_cons_of_new hnew, visit_nil]
    exact entered_suffix_visit (next root) (Trail.enter {} root)
  rw [preorder_eq_visit, ← hlater, List.reverse_append]
  rfl

/-- **The search by leaving time leaves the top of its stack** once the recursion has visited the
successors that it had not come to. -/
theorem finish_cons (v : α) (todo : List α) (frames : List (α × List α)) (t : Trail α) :
    finish next scope ((v, todo) :: frames) t.entered t.left =
      finish next scope frames (visit next scope todo t).entered
        (v :: (visit next scope todo t).left) := by
  induction todo, t using visit_induction next scope generalizing v frames with
  | nil t => rw [finish, visit_nil]
  | new w todo t h ih_inside ih_after =>
      -- The frame of `v` waits below that of `w` until the recursion returns from `w`.
      rw [finish, dif_pos h, visit_cons_of_new h, ← ih_after]
      exact ih_inside w ((v, todo) :: frames)
  | skip w todo t h ih =>
      rw [finish, dif_neg h, visit_cons_of_not_new h]
      exact ih v frames

/-- The search by leaving time lists vertices in the opposite of the order in which the recursion
**leaves** them. -/
theorem reversePostorder_eq_visit {root : α} (hroot : root ∈ scope) :
    reversePostorder next scope root = (visit next scope [root] {}).left := by
  have hnew : root ∈ scope ∧ root ∉ ({} : Trail α).entered := ⟨hroot, List.not_mem_nil⟩
  let inside := visit next scope (next root) (Trail.enter {} root)
  calc reversePostorder next scope root
    _ = finish next scope [] inside.entered (root :: inside.left) :=
        finish_cons root (next root) [] (Trail.enter {} root)
    _ = (inside.leave root).left := by rw [finish, Trail.leave]
    _ = (visit next scope [root] {}).left := by rw [visit_cons_of_new hnew, visit_nil]

end

/-! ### Edges -/

variable {next : α → List α} {scope : List α}

/-- An edge leads from every vertex of the list to one that stands behind it, or to one from which
there is a way **back**. -/
def Returning (next : α → List α) (scope : List α) : List α → Prop
  | [] => True
  | u :: vs => (∀ w ∈ next u, w ∈ scope → w ∈ vs ∨ Reaches next scope w u) ∧
      Returning next scope vs

/-- What stands behind a vertex of such a list. -/
theorem Returning.exists_after {vs : List α} {u w : α} (h : Returning next scope vs) (hu : u ∈ vs)
    (hedge : w ∈ next u) (hscope : w ∈ scope) :
    ∃ as bs, vs = as ++ u :: bs ∧ (w ∈ bs ∨ Reaches next scope w u) := by
  induction vs with
  | nil => simp at hu
  | cons v vs ih =>
      rcases List.mem_cons.mp hu with rfl | hu
      · exact ⟨[], vs, rfl, h.1 w hedge hscope⟩
      · obtain ⟨as, bs, rfl, hafter⟩ := ih h.2 hu
        exact ⟨v :: as, bs, rfl, hafter⟩

/-- A vertex is **open** while the recursion is inside of it. -/
def Trail.Open (t : Trail α) (v : α) : Prop :=
  v ∈ t.entered ∧ v ∉ t.left

variable [DecidableEq α]

/-- **Edges of the recursion.** If the open vertices lead to all that is to be visited, then visits
enter all of it and open nothing for longer than they last; and when a vertex is left, each of its
successors has been left before or is still open, so that it leads back to the vertex. -/
theorem visit_spec {todo : List α} {t : Trail α}
    (hopen : ∀ v, t.Open v → ∀ w ∈ todo, w ∈ scope → Reaches next scope v w)
    (hleft : Returning next scope t.left) :
    (∀ w ∈ todo, w ∈ scope → w ∈ (visit next scope todo t).entered) ∧
      (∀ v, (visit next scope todo t).Open v → t.Open v) ∧
      Returning next scope (visit next scope todo t).left := by
  induction todo, t using visit_induction next scope with
  | nil t =>
      rw [visit_nil]
      exact ⟨fun w hw => absurd hw List.not_mem_nil, fun v hv => hv, hleft⟩
  | new v todo t h ih_inside ih_after =>
      -- Inside of `v` the open vertices are those before and `v` itself. All of them lead to `v`.
      have hopen_enter : ∀ u, (t.enter v).Open u → u = v ∨ t.Open u := fun u hu =>
        (List.mem_cons.mp hu.1).imp_right fun hmem => ⟨hmem, hu.2⟩
      have hreach : ∀ u, (t.enter v).Open u → Reaches next scope u v := by
        intro u hu
        rcases hopen_enter u hu with rfl | hu
        · exact .refl
        · exact hopen u hu v (List.mem_cons_self ..) h.1
      obtain ⟨hentered, hinside, hreturning⟩ := ih_inside
        (fun u hu w hw hscope => (hreach u hu).tail ⟨hw, hscope⟩) hleft
      have hopen_leave : ∀ u, ((visit next scope (next v) (t.enter v)).leave v).Open u →
          t.Open u := by
        rintro u ⟨hmem, hnot⟩
        have hu := hinside u ⟨hmem, fun hleft => hnot (List.mem_cons_of_mem _ hleft)⟩
        exact (hopen_enter u hu).resolve_left fun heq => hnot (heq ▸ List.mem_cons_self ..)
      -- When `v` is left its successors have been entered: those not left by then are open.
      have hsuccs : ∀ w ∈ next v, w ∈ scope →
          w ∈ (visit next scope (next v) (t.enter v)).left ∨ Reaches next scope w v := by
        intro w hw hscope
        by_cases hmem : w ∈ (visit next scope (next v) (t.enter v)).left
        · exact .inl hmem
        · exact .inr (hreach w (hinside w ⟨hentered w hw hscope, hmem⟩))
      obtain ⟨hentered_after, hafter, hreturning_after⟩ := ih_after
        (fun u hu w hw => hopen u (hopen_leave u hu) w (List.mem_cons_of_mem _ hw))
        ⟨hsuccs, hreturning⟩
      rw [visit_cons_of_new h]
      refine ⟨fun w hw hscope => ?_, fun u hu => hopen_leave u (hafter u hu), hreturning_after⟩
      rcases List.mem_cons.mp hw with rfl | hw
      · refine (entered_suffix_visit todo _).subset ((entered_suffix_visit (next w) _).subset ?_)
        exact List.mem_cons_self ..
      · exact hentered_after w hw hscope
  | skip v todo t h ih =>
      obtain ⟨hentered, hvisit, hreturning⟩ := ih
        (fun u hu w hw => hopen u hu w (List.mem_cons_of_mem _ hw)) hleft
      rw [visit_cons_of_not_new h]
      refine ⟨fun w hw hscope => ?_, hvisit, hreturning⟩
      rcases List.mem_cons.mp hw with rfl | hw
      · exact (entered_suffix_visit todo t).subset (by_contra fun hmem => h ⟨hscope, hmem⟩)
      · exact hentered w hw hscope

/-- **An edge leads to a vertex that is left earlier, or closes a cycle.** -/
theorem returning_reversePostorder {root : α} (hroot : root ∈ scope) :
    Returning next scope (reversePostorder next scope root) := by
  have hstart : Returning next scope ({} : Trail α).left := trivial
  rw [reversePostorder_eq_visit hroot]
  exact (visit_spec (fun v hv => absurd hv.1 List.not_mem_nil) hstart).2.2

end FlowForm.Search
