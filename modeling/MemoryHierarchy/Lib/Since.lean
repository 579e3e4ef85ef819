import Mathlib.Data.List.Induction

/-!
# Since

What is put in place by one event of a history and kept by the events behind it. A property of
histories that one event more either starts or keeps holds exactly when it was started once and
has been kept ever since (`iff_since`), so that a state component given step by step is given in
closed form by the history. Both what starts it and what keeps it may look at the events before.
-/

namespace MemoryHierarchy.Lib

variable {α : Type*} {starts keeps : List α → α → Prop}

/-- Some event of the history has started it, and the events behind that one have kept it. -/
def Since (starts keeps : List α → α → Prop) (history : List α) : Prop :=
  ∃ before a after, history = before ++ a :: after ∧ starts before a ∧
    ∀ between b rest, after = between ++ b :: rest → keeps (before ++ a :: between) b

theorem not_since_nil : ¬ Since starts keeps [] := by
  rintro ⟨before, a, after, hhistory, -⟩
  exact absurd hhistory.symm (by simp)

/-- One more event starts it, or keeps it. -/
theorem since_concat {history : List α} {a : α} :
    Since starts keeps (history ++ [a]) ↔
      starts history a ∨ Since starts keeps history ∧ keeps history a := by
  constructor
  · rintro ⟨before, b, after, hhistory, hstarts, hkeeps⟩
    rcases List.eq_nil_or_concat after with rfl | ⟨after, c, rfl⟩
    · obtain ⟨rfl, hab⟩ := List.append_inj' hhistory rfl
      obtain rfl := List.singleton_inj.mp hab
      exact .inl hstarts
    · rw [List.concat_eq_append, ← List.cons_append, ← List.append_assoc] at hhistory
      obtain ⟨rfl, hca⟩ := List.append_inj' hhistory rfl
      obtain rfl := List.singleton_inj.mp hca
      refine .inr ⟨⟨before, b, after, rfl, hstarts, fun between d rest hafter => ?_⟩, ?_⟩
      · exact hkeeps between d (rest ++ [a]) (by simp [hafter])
      · exact hkeeps after a [] List.concat_eq_append
  · rintro (hstarts | ⟨⟨before, b, after, rfl, hstarts, hkeeps⟩, hkept⟩)
    · exact ⟨history, a, [], rfl, hstarts, fun between b rest hnil => absurd hnil.symm (by simp)⟩
    · refine ⟨before, b, after ++ [a], by simp, hstarts, fun between c rest hafter => ?_⟩
      rcases List.eq_nil_or_concat rest with rfl | ⟨rest, d, rfl⟩
      · obtain ⟨rfl, hac⟩ := List.append_inj' hafter rfl
        obtain rfl := List.singleton_inj.mp hac
        exact hkept
      · rw [List.concat_eq_append, ← List.cons_append, ← List.append_assoc] at hafter
        exact hkeeps between c rest (List.append_inj' hafter rfl).1

/-- **Closed form.** A property of histories given event by event. -/
theorem iff_since {P : List α → Prop} (hnil : ¬ P [])
    (hconcat : ∀ history a, P (history ++ [a]) ↔ starts history a ∨ P history ∧ keeps history a)
    (history : List α) : P history ↔ Since starts keeps history := by
  induction history using List.reverseRecOn with
  | nil => exact iff_of_false hnil not_since_nil
  | append_singleton history a ih => rw [hconcat, since_concat, ih]

end MemoryHierarchy.Lib
