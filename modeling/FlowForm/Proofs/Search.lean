import Mathlib.Data.List.Nodup
import Mathlib.Logic.Relation
import Mathlib.Tactic.Tauto
import FlowForm.Search

/-!
# What the Searches Find

Both searches of `FlowForm.Search` list exactly the vertices that can be reached inside the
scope, each once. For the preorder search this is `mem_preorder_iff` and `nodup_preorder`; for
the search that lists vertices by the time they are left it is `mem_reversePostorder_iff` and
`nodup_reversePostorder`.

The second search also has a property of order on which the dominator computation rests: the
root comes first, and every other vertex stands behind some vertex that has an edge to it
(`reversePostorder_eq_cons` and `Led.exists_before`). The invariant behind it is about the
stack and the finished vertices read as **one** list, from the bottom of the stack to its top
and on into the finished vertices. Leaving a vertex does not change that list at all, and
seeing a vertex inserts it right behind the one it was seen from.

## Main results

* `mem_preorder_iff`, `mem_reversePostorder_iff`: the vertices listed are those reachable.
* `nodup_preorder`, `nodup_reversePostorder`: no vertex is listed twice.
* `reversePostorder_eq_cons`: every listed vertex but the root is led by an earlier one.
-/

namespace FlowForm.Search

variable {α : Type} {next : α → List α} {scope : List α}

/-- An edge that a search follows: it leads to a vertex of the scope. -/
def Leads (next : α → List α) (scope : List α) (u v : α) : Prop :=
  v ∈ next u ∧ v ∈ scope

/-- Reachability along the edges that a search follows. -/
def Reaches (next : α → List α) (scope : List α) : α → α → Prop :=
  Relation.ReflTransGen (Leads next scope)

/-- A set that no followed edge leaves keeps everything reachable from its members. -/
theorem Reaches.mem_of_closed {s : List α}
    (hclosed : ∀ u ∈ s, ∀ w ∈ next u, w ∈ scope → w ∈ s)
    {u v : α} (hu : u ∈ s) (h : Reaches next scope u v) : v ∈ s := by
  induction h with
  | refl => exact hu
  | tail _ hstep ih => exact hclosed _ ih _ hstep.1 hstep.2

/-- Whatever is reachable from a vertex of the scope lies in the scope. -/
theorem Reaches.mem_scope {u v : α} (hu : u ∈ scope) (h : Reaches next scope u v) :
    v ∈ scope := by
  cases h with
  | refl => exact hu
  | tail _ hstep => exact hstep.2

/-! ### The preorder search -/

section

variable [DecidableEq α]

/-- Nothing that has been seen is lost. -/
theorem mem_explore_of_mem_seen {stack seen : List α} {v : α} (hv : v ∈ seen) :
    v ∈ explore next scope stack seen := by
  fun_induction explore next scope stack seen with
  | case1 seen => exact List.mem_reverse.mpr hv
  | case2 w stack seen h ih => exact ih (List.mem_cons_of_mem w hv)
  | case3 w stack seen h ih => exact ih hv

/-- The vertices of the stack are seen, as far as they lie in the scope. -/
theorem mem_explore_of_mem_stack {stack seen : List α} {v : α} (hv : v ∈ stack)
    (hscope : v ∈ scope) : v ∈ explore next scope stack seen := by
  fun_induction explore next scope stack seen with
  | case1 seen => simp at hv
  | case2 w stack seen h ih =>
      rcases List.mem_cons.mp hv with rfl | hv
      · exact mem_explore_of_mem_seen (List.mem_cons_self ..)
      · exact ih (List.mem_append_right _ hv)
  | case3 w stack seen h ih =>
      rcases List.mem_cons.mp hv with rfl | hv
      · exact mem_explore_of_mem_seen (by_contra fun hs => h ⟨hscope, hs⟩)
      · exact ih hv

/-- **Soundness of a round.** Whatever is listed has been seen before or is reachable from the
stack. -/
theorem explore_sound {stack seen : List α} {v : α} (hv : v ∈ explore next scope stack seen) :
    v ∈ seen ∨ ∃ r ∈ stack, r ∈ scope ∧ Reaches next scope r v := by
  fun_induction explore next scope stack seen with
  | case1 seen => exact .inl (List.mem_reverse.mp hv)
  | case2 w stack seen h ih =>
      rcases ih hv with hseen | ⟨r, hr, hscope, hreach⟩
      · rcases List.mem_cons.mp hseen with rfl | hseen
        · exact .inr ⟨v, List.mem_cons_self .., h.1, .refl⟩
        · exact .inl hseen
      · rcases List.mem_append.mp hr with hr | hr
        · exact .inr ⟨w, List.mem_cons_self .., h.1, .head ⟨hr, hscope⟩ hreach⟩
        · exact .inr ⟨r, List.mem_cons_of_mem _ hr, hscope, hreach⟩
  | case3 w stack seen h ih =>
      rcases ih hv with hseen | ⟨r, hr, hscope, hreach⟩
      · exact .inl hseen
      · exact .inr ⟨r, List.mem_cons_of_mem _ hr, hscope, hreach⟩

/-- **Completeness of a round.** If the stack accounts for every edge out of the vertices seen,
no edge leaves what is listed. -/
theorem explore_closed {stack seen : List α}
    (hseen : ∀ u ∈ seen, ∀ w ∈ next u, w ∈ scope → w ∈ seen ∨ w ∈ stack) :
    ∀ u ∈ explore next scope stack seen, ∀ w ∈ next u, w ∈ scope →
      w ∈ explore next scope stack seen := by
  fun_induction explore next scope stack seen with
  | case1 seen =>
      intro u hu w hw hscope
      simpa using hseen u (List.mem_reverse.mp hu) w hw hscope
  | case2 v stack seen h ih =>
      refine ih fun u hu w hw hscope => ?_
      rcases List.mem_cons.mp hu with rfl | hu
      · exact .inr (List.mem_append_left _ hw)
      · rcases hseen u hu w hw hscope with hs | hs
        · exact .inl (List.mem_cons_of_mem _ hs)
        · rcases List.mem_cons.mp hs with rfl | hs
          · exact .inl (List.mem_cons_self ..)
          · exact .inr (List.mem_append_right _ hs)
  | case3 v stack seen h ih =>
      refine ih fun u hu w hw hscope => ?_
      rcases hseen u hu w hw hscope with hs | hs
      · exact .inl hs
      · rcases List.mem_cons.mp hs with rfl | hs
        · exact .inl (by_contra fun hs => h ⟨hscope, hs⟩)
        · exact .inr hs

/-- A vertex is listed only when it has not been seen. -/
theorem nodup_explore {stack seen : List α} (hseen : seen.Nodup) :
    (explore next scope stack seen).Nodup := by
  fun_induction explore next scope stack seen with
  | case1 seen => exact List.nodup_reverse.mpr hseen
  | case2 v stack seen h ih => exact ih (List.nodup_cons.mpr ⟨h.2, hseen⟩)
  | case3 v stack seen h ih => exact ih hseen

/-- **The preorder search finds exactly what is reachable** from its roots. -/
theorem mem_preorder_iff {roots : List α} {v : α} :
    v ∈ preorder next scope roots ↔
      ∃ r ∈ roots, r ∈ scope ∧ Reaches next scope r v := by
  constructor
  · intro hv
    rcases explore_sound hv with hnil | hreach
    · simp at hnil
    · exact hreach
  · rintro ⟨r, hr, hscope, hreach⟩
    exact hreach.mem_of_closed (explore_closed (by simp))
      (mem_explore_of_mem_stack hr hscope)

/-- The preorder search lists no vertex twice. -/
theorem nodup_preorder (roots : List α) : (preorder next scope roots).Nodup :=
  nodup_explore List.nodup_nil

end

/-! ### Lists in which earlier vertices lead to later ones -/

/-- Every vertex of the list has an edge from one that stands before it, either in the list or
among the vertices in `before`. -/
def Led (next : α → List α) : (before : List α) → List α → Prop
  | _, [] => True
  | before, v :: vs => (∃ u ∈ before, v ∈ next u) ∧ Led next (v :: before) vs

/-- More vertices before a list lead it as well. -/
theorem Led.mono {before before' vs : List α} (hsub : before ⊆ before')
    (h : Led next before vs) : Led next before' vs := by
  induction vs generalizing before before' with
  | nil => trivial
  | cons v vs ih =>
      obtain ⟨⟨u, hu, hedge⟩, hrest⟩ := h
      exact ⟨⟨u, hsub hu, hedge⟩, ih (List.cons_subset_cons v hsub) hrest⟩

/-- The first part of a list stands before the second. -/
theorem led_append {before vs ws : List α} :
    Led next before (vs ++ ws) ↔ Led next before vs ∧ Led next (vs.reverse ++ before) ws := by
  induction vs generalizing before with
  | nil => simp [Led]
  | cons v vs ih => simp [Led, ih, and_assoc]

/-- A vertex can be inserted anywhere behind one that has an edge to it. -/
theorem Led.insert {before vs ws : List α} {u v : α} (h : Led next before (vs ++ ws))
    (hu : u ∈ vs ∨ u ∈ before) (hedge : v ∈ next u) : Led next before (vs ++ v :: ws) := by
  obtain ⟨hvs, hws⟩ := led_append.mp h
  refine led_append.mpr ⟨hvs, ⟨u, ?_, hedge⟩, hws.mono (List.subset_cons_self ..)⟩
  rcases hu with hu | hu
  · exact List.mem_append_left _ (List.mem_reverse.mpr hu)
  · exact List.mem_append_right _ hu

/-- A vertex of such a list has an edge from a vertex that stands before it. -/
theorem Led.exists_before {before vs : List α} {v : α} (h : Led next before vs)
    (hv : v ∈ vs) : ∃ as bs, vs = as ++ v :: bs ∧ ∃ u, (u ∈ as ∨ u ∈ before) ∧ v ∈ next u := by
  obtain ⟨as, bs, rfl⟩ := List.append_of_mem hv
  obtain ⟨-, ⟨u, hu, hedge⟩, -⟩ := led_append.mp h
  refine ⟨as, bs, rfl, u, ?_, hedge⟩
  simpa using hu

/-! ### The search by leaving time -/

/-- The stack from its bottom to its top, and on into the vertices that are done. -/
def layout (frames : List (α × List α)) (done : List α) : List α :=
  (frames.map Prod.fst).reverse ++ done

/-- Leaving a vertex does not change the layout. -/
theorem layout_leave (v : α) (ws : List α) (frames : List (α × List α)) (done : List α) :
    layout ((v, ws) :: frames) done = layout frames (v :: done) := by
  simp [layout]

/-- The layout tells which vertices are on the stack, not what is left to be looked at. -/
theorem layout_skip (v : α) (ws ws' : List α) (frames : List (α × List α)) (done : List α) :
    layout ((v, ws) :: frames) done = layout ((v, ws') :: frames) done := by
  simp [layout]

/-- A vertex that is seen comes right behind the stack. -/
theorem layout_see (w : α) (ws : List α) (frames : List (α × List α)) (done : List α) :
    layout ((w, ws) :: frames) done = (frames.map Prod.fst).reverse ++ w :: done := by
  simp [layout]

/-- What holds **throughout a search** from `root`. -/
structure Searching (next : α → List α) (scope : List α) (root : α)
    (frames : List (α × List α)) (seen done : List α) : Prop where
  nodup : (layout frames done).Nodup
  mem_seen : ∀ v, v ∈ seen ↔ v ∈ layout frames done
  reaches : ∀ v ∈ layout frames done, Reaches next scope root v
  /-- The successors of a vertex on the stack have been seen or are still to be looked at. -/
  frames_closed : ∀ f ∈ frames, ∀ w ∈ next f.1, w ∈ scope → w ∈ seen ∨ w ∈ f.2
  pending : ∀ f ∈ frames, f.2 ⊆ next f.1
  done_closed : ∀ u ∈ done, ∀ w ∈ next u, w ∈ scope → w ∈ seen
  led : ∃ rest, layout frames done = root :: rest ∧ Led next [root] rest

namespace Searching

variable {root v w : α} {ws seen done : List α} {frames : List (α × List α)}

/-- A search starts with its root on the stack. -/
theorem start (next : α → List α) (scope : List α) (root : α) :
    Searching next scope root [(root, next root)] [root] [] where
  nodup := by simp [layout]
  mem_seen := by simp [layout]
  reaches := by
    intro v hv
    obtain rfl : v = root := by simpa [layout] using hv
    exact .refl
  frames_closed := by
    intro f hf w hw _
    obtain rfl : f = (root, next root) := by simpa using hf
    exact .inr hw
  pending := by simp
  done_closed := by simp
  led := ⟨[], by simp [layout], trivial⟩

/-- Leaving a vertex that has no successor left to be looked at. -/
theorem leave (h : Searching next scope root ((v, []) :: frames) seen done) :
    Searching next scope root frames seen (v :: done) where
  nodup := by simpa only [layout_leave] using h.nodup
  mem_seen := by simpa only [layout_leave] using h.mem_seen
  reaches := by simpa only [layout_leave] using h.reaches
  frames_closed := fun f hf => h.frames_closed f (List.mem_cons_of_mem _ hf)
  pending := fun f hf => h.pending f (List.mem_cons_of_mem _ hf)
  done_closed := by
    intro u hu w hw hscope
    rcases List.mem_cons.mp hu with rfl | hu
    · rcases h.frames_closed _ (List.mem_cons_self ..) w hw hscope with hs | hs
      · exact hs
      · simp at hs
    · exact h.done_closed u hu w hw hscope
  led := by simpa only [layout_leave] using h.led

/-- Passing over a successor that is outside the scope or has been seen. -/
theorem skip (h : Searching next scope root ((v, w :: ws) :: frames) seen done)
    (hw : w ∈ scope → w ∈ seen) : Searching next scope root ((v, ws) :: frames) seen done where
  nodup := by simpa only [layout_skip v ws (w :: ws)] using h.nodup
  mem_seen := by simpa only [layout_skip v ws (w :: ws)] using h.mem_seen
  reaches := by simpa only [layout_skip v ws (w :: ws)] using h.reaches
  frames_closed := by
    intro f hf x hx hscope
    rcases List.mem_cons.mp hf with rfl | hf
    · rcases h.frames_closed _ (List.mem_cons_self ..) x hx hscope with hs | hs
      · exact .inl hs
      · rcases List.mem_cons.mp hs with rfl | hs
        · exact .inl (hw hscope)
        · exact .inr hs
    · exact h.frames_closed f (List.mem_cons_of_mem _ hf) x hx hscope
  pending := by
    intro f hf
    rcases List.mem_cons.mp hf with rfl | hf
    · exact fun x hx => h.pending _ (List.mem_cons_self ..) (List.mem_cons_of_mem _ hx)
    · exact h.pending f (List.mem_cons_of_mem _ hf)
  done_closed := h.done_closed
  led := by simpa only [layout_skip v ws (w :: ws)] using h.led

/-- Seeing a successor for the first time. -/
theorem see (h : Searching next scope root ((v, w :: ws) :: frames) seen done)
    (hscope : w ∈ scope) (hw : w ∉ seen) :
    Searching next scope root ((w, next w) :: (v, ws) :: frames) (w :: seen) done := by
  have hfresh : w ∉ layout ((v, w :: ws) :: frames) done := fun hmem =>
    hw ((h.mem_seen w).mpr hmem)
  have hedge : w ∈ next v := h.pending _ (List.mem_cons_self ..) (List.mem_cons_self ..)
  have hsplit : layout ((w, next w) :: (v, ws) :: frames) done =
      (((v, ws) :: frames).map Prod.fst).reverse ++ w :: done := layout_see ..
  have hmem : ∀ x, x ∈ layout ((w, next w) :: (v, ws) :: frames) done ↔
      x = w ∨ x ∈ layout ((v, w :: ws) :: frames) done := by
    intro x
    simp only [layout, List.map_cons, List.mem_append, List.mem_reverse, List.mem_cons]
    tauto
  refine ⟨?_, ?_, ?_, ?_, ?_, ?_, ?_⟩
  · rw [hsplit]
    exact List.nodup_middle.mpr (List.nodup_cons.mpr ⟨hfresh, h.nodup⟩)
  · intro x
    rw [hmem, List.mem_cons, h.mem_seen]
  · intro x hx
    rcases (hmem x).mp hx with rfl | hx
    · refine .tail (h.reaches v ?_) ⟨hedge, hscope⟩
      simp [layout]
    · exact h.reaches x hx
  · intro f hf x hx hxs
    rcases List.mem_cons.mp hf with rfl | hf
    · exact .inr hx
    · rcases List.mem_cons.mp hf with rfl | hf
      · rcases h.frames_closed _ (List.mem_cons_self ..) x hx hxs with hs | hs
        · exact .inl (List.mem_cons_of_mem _ hs)
        · rcases List.mem_cons.mp hs with rfl | hs
          · exact .inl (List.mem_cons_self ..)
          · exact .inr hs
      · exact (h.frames_closed f (List.mem_cons_of_mem _ hf) x hx hxs).imp_left
          (List.mem_cons_of_mem _)
  · intro f hf
    rcases List.mem_cons.mp hf with rfl | hf
    · exact fun x hx => hx
    · rcases List.mem_cons.mp hf with rfl | hf
      · exact fun x hx => h.pending _ (List.mem_cons_self ..) (List.mem_cons_of_mem _ hx)
      · exact h.pending f (List.mem_cons_of_mem _ hf)
  · exact fun u hu x hx hxs => List.mem_cons_of_mem _ (h.done_closed u hu x hx hxs)
  · -- The bottom of the stack is the root, so the vertex is inserted behind it.
    obtain ⟨rest, hlayout, hled⟩ := h.led
    obtain ⟨stack, hstack⟩ : ∃ stack,
        (((v, ws) :: frames).map Prod.fst).reverse = root :: stack := by
      cases hrev : (((v, ws) :: frames).map Prod.fst).reverse with
      | nil => simp at hrev
      | cons r stack =>
          simp only [layout, List.map_cons] at hlayout hrev
          rw [hrev, List.cons_append, List.cons.injEq] at hlayout
          exact ⟨stack, by rw [hlayout.1]⟩
    have hrest : rest = stack ++ done := by
      simp only [layout, List.map_cons] at hlayout hstack
      rw [hstack, List.cons_append, List.cons.injEq] at hlayout
      exact hlayout.2.symm
    have hv : v ∈ stack ∨ v ∈ [root] := by
      have : v ∈ (((v, ws) :: frames).map Prod.fst).reverse := by simp
      rw [hstack, List.mem_cons] at this
      exact this.symm.imp_right fun hv => by simp [hv]
    refine ⟨stack ++ w :: done, by rw [hsplit, hstack, List.cons_append], ?_⟩
    exact Led.insert (hrest ▸ hled) hv hedge

end Searching

section

variable [DecidableEq α]

/-- **A search stays a search** to its end, where the stack is empty. -/
theorem searching_finish {root : α} {frames : List (α × List α)} {seen done : List α}
    (h : Searching next scope root frames seen done) :
    ∃ seen', Searching next scope root [] seen' (finish next scope frames seen done) := by
  fun_induction finish next scope frames seen done with
  | case1 seen done => exact ⟨seen, h⟩
  | case2 v frames seen done ih => exact ih h.leave
  | case3 v w ws frames seen done hw ih => exact ih (h.see hw.1 hw.2)
  | case4 v w ws frames seen done hw ih =>
      exact ih (h.skip fun hscope => by_contra fun hs => hw ⟨hscope, hs⟩)

/-- **The search by leaving time finds exactly what is reachable** from its root. -/
theorem mem_reversePostorder_iff {root v : α} :
    v ∈ reversePostorder next scope root ↔ Reaches next scope root v := by
  obtain ⟨seen, h⟩ := searching_finish (Searching.start next scope root)
  have hseen : ∀ u, u ∈ seen ↔ u ∈ reversePostorder next scope root := h.mem_seen
  constructor
  · exact h.reaches v
  · intro hreach
    refine hreach.mem_of_closed ?_ ?_
    · intro u hu w hw hscope
      exact (hseen w).mp (h.done_closed u hu w hw hscope)
    · obtain ⟨rest, hlayout, -⟩ := h.led
      have : reversePostorder next scope root = root :: rest := hlayout
      simp [this]

/-- The search by leaving time lists no vertex twice. -/
theorem nodup_reversePostorder (root : α) : (reversePostorder next scope root).Nodup := by
  obtain ⟨seen, h⟩ := searching_finish (Searching.start next scope root)
  exact h.nodup

/-- **The root comes first**, and every other vertex has an edge from one before it. -/
theorem reversePostorder_eq_cons (root : α) :
    ∃ rest, reversePostorder next scope root = root :: rest ∧ Led next [root] rest := by
  obtain ⟨seen, h⟩ := searching_finish (Searching.start next scope root)
  exact h.led

end

end FlowForm.Search
