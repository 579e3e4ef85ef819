import Mathlib.Logic.Function.Basic
import Mathlib.Data.Set.Insert
import Mathlib.Data.Sum.Basic
import Mathlib.Tactic.SplitIfs

/-!
# Placements

A placement says what is kept at each location, if anything; it is exclusive when nothing is
kept at two locations. Emptying a location keeps a placement exclusive, and so does putting
there something not kept anywhere, so a move, in this order, does too.

Whether or not a placement is exclusive, putting something at a location loses at most what was
kept there (`mem_kept_update`), so a move loses at most what it lands on
(`eq_some_of_lost_by_move`).
-/

namespace MemoryHierarchy.Lib

open Function

variable {ι κ β : Type*} [DecidableEq ι] [DecidableEq κ]

/-- Nothing is kept at two locations. -/
def Exclusive (f : ι → Option β) : Prop := ∀ a a' b, f a = some b → f a' = some b → a = a'

variable {f : ι → Option β} {g : κ → Option β} {a : ι} {b : β}

theorem Exclusive.update_none (h : Exclusive f) (a : ι) : Exclusive (update f a none) := by
  intro x x' b hx hx'
  rw [update_apply] at hx hx'
  split_ifs at hx hx'
  exact h x x' b hx hx'

/-- After emptying its location a thing is kept nowhere. -/
theorem Exclusive.update_none_ne (h : Exclusive f) (hb : f a = some b) (x : ι) :
    update f a none x ≠ some b := by
  rw [update_apply]
  split_ifs with hx
  · simp
  · exact fun hxb => hx (h x a b hxb hb)

/-- Putting something new anywhere. -/
theorem Exclusive.update_some (h : Exclusive f) (hb : ∀ x, f x ≠ some b) (a : ι) :
    Exclusive (update f a (some b)) := by
  intro x x' c hx hx'
  rw [update_apply] at hx hx'
  split_ifs at hx hx' with h1 h2 h2
  · rw [h1, h2]
  · exact absurd (hx'.trans hx.symm) (hb x')
  · exact absurd (hx.trans hx'.symm) (hb x)
  · exact h x x' c hx hx'

/-- **Moving down.** What is kept at `a` on the left makes room for something new and goes to
`k` on the right. -/
theorem Exclusive.replace_and_move (h : Exclusive (Sum.elim f g)) {c : β} (hc : f a = some c)
    (hb : ∀ x, Sum.elim f g x ≠ some b) (k : κ) :
    Exclusive (Sum.elim (update f a (some b)) (update g k (some c))) := by
  have hne : b ≠ c := fun heq => hb (.inl a) (heq ▸ hc)
  have hnew : Exclusive (Sum.elim (update f a (some b)) g) := by
    rw [← Sum.update_elim_inl]
    exact h.update_some hb _
  rw [← Sum.update_elim_inr]
  refine hnew.update_some ?_ _
  rintro (x | y) hx
  · rw [Sum.elim_inl, update_apply] at hx
    split_ifs at hx with hxa
    · exact hne (Option.some_inj.mp hx)
    · exact hxa (Sum.inl.inj (h (.inl x) (.inl a) c hx hc))
  · exact Sum.inr_ne_inl (h (.inr y) (.inl a) c hx hc)

/-! ### What is kept -/

/-- The things kept somewhere. -/
def kept (f : ι → Option β) : Set β := {b | ∃ a, f a = some b}

theorem mem_kept_update_some (f : ι → Option β) (a : ι) (b : β) :
    b ∈ kept (update f a (some b)) :=
  ⟨a, update_self a (some b) f⟩

/-- Putting something at a location keeps nothing else new. -/
theorem kept_update_some_subset : kept (update f a (some b)) ⊆ insert b (kept f) := by
  rintro c ⟨x, hx⟩
  rw [update_apply] at hx
  split_ifs at hx with hxa
  · exact .inl (Option.some_inj.mp hx).symm
  · exact .inr ⟨x, hx⟩

theorem kept_update_none_subset : kept (update f a none) ⊆ kept f := by
  rintro c ⟨x, hx⟩
  rw [update_apply] at hx
  split_ifs at hx
  exact ⟨x, hx⟩

/-- A change at one location loses at most what was kept there. -/
theorem mem_kept_update {c : β} (hc : c ∈ kept f) (hne : f a ≠ some c) (x : Option β) :
    c ∈ kept (update f a x) := by
  obtain ⟨a', ha'⟩ := hc
  have haa' : a' ≠ a := fun h => hne (h ▸ ha')
  exact ⟨a', by rw [update_of_ne haa', ha']⟩

/-- **Moving down.** When what was kept at `a` makes room for `b` and goes to `k`, only what was
kept at `k` can be lost. -/
theorem eq_some_of_lost_by_move {c d : β} (hc : f a = some c) {k : κ}
    (hd : d ∈ kept f ∪ kept g)
    (hlost : d ∉ kept (update f a (some b)) ∪ kept (update g k (some c))) : g k = some d := by
  by_contra hk
  refine hlost ?_
  cases hd with
  | inl hf =>
    by_cases hdc : f a = some d
    · obtain rfl : c = d := Option.some_inj.mp (hc.symm.trans hdc)
      exact .inr (mem_kept_update_some g k c)
    · exact .inl (mem_kept_update hf hdc _)
  | inr hg => exact .inr (mem_kept_update hg hk _)

end MemoryHierarchy.Lib
