import Mathlib.Data.List.Basic

/-!
# Noninterference by unwinding

Some inputs of a machine are seen by a part of its state, others are not: `obs a` is what is seen
of the input `a`, and `none` if nothing is. If no unseen input leaves the view of the state, and
seen inputs with the same observation take equal views to equal views, then the view after a run
is a function of the view before it and of what was seen (`unwinding`).
-/

namespace MemoryHierarchy.Lib

variable {σ α β : Type*} {step : σ → α → σ} {obs : α → Option β} {R : σ → σ → Prop}

/-- A run in which nothing is seen. -/
theorem unwinding_unseen (hunseen : ∀ s s' a, obs a = none → R s s' → R s (step s' a))
    {s s' : σ} (h : R s s') {as : List α} (has : ∀ a ∈ as, obs a = none) :
    R s (as.foldl step s') := by
  induction as generalizing s' with
  | nil => exact h
  | cons a as ih =>
    rw [List.foldl_cons]
    exact ih (hunseen s s' a (has a (by simp)) h) fun b hb => has b (List.mem_cons_of_mem a hb)

/-- **Unwinding.** Runs in which the same is seen keep related states related, whatever unseen
inputs come between. -/
theorem unwinding (hsymm : ∀ s s', R s s' → R s' s)
    (hunseen : ∀ s s' a, obs a = none → R s s' → R s (step s' a))
    (hseen : ∀ s s' a a' b, obs a = some b → obs a' = some b → R s s' →
      R (step s a) (step s' a'))
    {s s' : σ} (h : R s s') {as as' : List α} (hobs : as.filterMap obs = as'.filterMap obs) :
    R (as.foldl step s) (as'.foldl step s') := by
  induction as generalizing s s' as' with
  | nil =>
    exact unwinding_unseen hunseen h (List.filterMap_eq_nil_iff.mp hobs.symm)
  | cons a as ih =>
    rw [List.foldl_cons]
    cases ha : obs a with
    | none =>
      rw [List.filterMap_cons_none ha] at hobs
      exact ih (hsymm _ _ (hunseen s' s a ha (hsymm _ _ h))) hobs
    | some b =>
      -- the second run first passes what is unseen, then sees the same
      rw [List.filterMap_cons_some ha] at hobs
      obtain ⟨unseen, a', rest, rfl, hnone, ha', hrest⟩ :=
        List.filterMap_eq_cons_iff.mp hobs.symm
      rw [List.foldl_append, List.foldl_cons]
      exact ih (hseen _ _ a a' b ha ha' (unwinding_unseen hunseen h hnone)) hrest.symm

end MemoryHierarchy.Lib
