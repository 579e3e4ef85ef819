import Mathlib.Logic.Relation
import Mathlib.Data.Nat.Notation

/-!
# While loops

A pass through the body of a loop leaves it with a result or goes on in a new state. A loop
whose measure falls with every pass that goes on is a total function (`loop`), and a result about
it is one about a single pass: `loop_of_invariant` carries an invariant to the result, and
`loop_iff` says exactly when a property holds of it, as a condition on the states the loop goes
through (`Reaches`). A loop can be made to have no result where it comes to a state that does not
meet a condition (`loop_guarded_eq_some_iff`).
-/

namespace MemoryHierarchy.Lib

/-- What one pass through the body of a loop does. -/
inductive Pass (σ ρ : Type*)
  | leave (result : ρ)
  | again (state : σ)

variable {σ ρ : Type*}

/-- The loop with the given body. Every pass that goes on must make the measure smaller. -/
def loop (body : σ → Pass σ ρ) (measure : σ → ℕ)
    (hmeasure : ∀ s t, body s = .again t → measure t < measure s) (s : σ) : ρ :=
  match _hbody : body s with
  | .leave result => result
  | .again t => loop body measure hmeasure t
termination_by measure s
decreasing_by exact hmeasure s t ‹body s = .again t›

/-- The loop goes through `t` if it is started in `s`. -/
def Reaches (body : σ → Pass σ ρ) : σ → σ → Prop :=
  Relation.ReflTransGen fun s t => body s = .again t

variable {body : σ → Pass σ ρ} {measure : σ → ℕ}
  {hmeasure : ∀ s t, body s = .again t → measure t < measure s} {s t : σ}

theorem loop_leave {result : ρ} (h : body s = .leave result) :
    loop body measure hmeasure s = result := by
  rw [loop]
  split
  · next hbody => exact Pass.leave.inj (hbody.symm.trans h)
  · next hbody => cases hbody.symm.trans h

theorem loop_again (h : body s = .again t) :
    loop body measure hmeasure s = loop body measure hmeasure t := by
  rw [loop]
  split
  · next hbody => cases hbody.symm.trans h
  · next hbody => rw [Pass.again.inj (hbody.symm.trans h)]

/-- The states a loop goes through are the first one and those from the next one on. -/
theorem forall_reaches_again {C : σ → Prop} (h : body s = .again t) :
    (∀ u, Reaches body s u → C u) ↔ C s ∧ ∀ u, Reaches body t u → C u := by
  refine ⟨fun hC => ⟨hC s .refl, fun u hu => hC u (.head h hu)⟩, fun hC u hu => ?_⟩
  rcases hu.cases_head with rfl | ⟨v, hv, hvu⟩
  · exact hC.1
  · exact hC.2 u (Pass.again.inj (hv.symm.trans h) ▸ hvu)

theorem forall_reaches_leave {C : σ → Prop} {result : ρ} (h : body s = .leave result) :
    (∀ u, Reaches body s u → C u) ↔ C s := by
  refine ⟨fun hC => hC s .refl, fun hC u hu => ?_⟩
  rcases hu.cases_head with rfl | ⟨v, hv, -⟩
  · exact hC
  · cases hv.symm.trans h

/-- **Exact conditions.** Let `I` be an invariant. If, in a state of `I`, a pass that goes on keeps
`P` exactly when it meets `C`, and one that leaves does so with a result in `Q` exactly when it
meets `C` from a state in `P`, then the result is in `Q` exactly when the loop starts in `P` and
meets `C` in all the states it goes through. -/
theorem loop_iff {I P C : σ → Prop} {Q : ρ → Prop}
    (hagain : ∀ s t, I s → body s = .again t → I t ∧ (P t ↔ P s ∧ C s))
    (hleave : ∀ s result, I s → body s = .leave result → (Q result ↔ P s ∧ C s)) (hs : I s) :
    Q (loop body measure hmeasure s) ↔ P s ∧ ∀ t, Reaches body s t → C t := by
  induction hn : measure s using Nat.strongRecOn generalizing s with
  | _ n ih =>
    subst hn
    rcases hbody : body s with result | t
    · rw [loop_leave hbody, hleave s result hs hbody, forall_reaches_leave hbody]
    · obtain ⟨ht, hP⟩ := hagain s t hs hbody
      rw [loop_again hbody, ih _ (hmeasure s t hbody) ht rfl, hP, and_assoc,
        forall_reaches_again hbody]

/-- **Invariant rule.** An invariant kept by every pass that goes on, from which every pass that
leaves does so with a result in `Q`. -/
theorem loop_of_invariant {I : σ → Prop} {Q : ρ → Prop}
    (hagain : ∀ s t, I s → body s = .again t → I t)
    (hleave : ∀ s result, I s → body s = .leave result → Q result) (hs : I s) :
    Q (loop body measure hmeasure s) := by
  induction hn : measure s using Nat.strongRecOn generalizing s with
  | _ n ih =>
    subst hn
    rcases hbody : body s with result | t
    · rw [loop_leave hbody]
      exact hleave s result hs hbody
    · rw [loop_again hbody]
      exact ih _ (hmeasure s t hbody) (hagain s t hs hbody) rfl

/-! ### Guards -/

/-- The body that leaves without a result from a state that does not meet the condition. -/
def guarded (C : σ → Prop) [DecidablePred C] (body : σ → Pass σ ρ) : σ → Pass σ (Option ρ) :=
  fun s =>
    if C s then
      match body s with
      | .leave result => .leave (some result)
      | .again t => .again t
    else .leave none

section Guarded

variable {C : σ → Prop} [DecidablePred C]

theorem guarded_again_iff : guarded C body s = .again t ↔ C s ∧ body s = .again t := by
  rw [guarded]
  by_cases hC : C s
  · rw [if_pos hC]
    rcases body s with result | u
    · exact iff_of_false (fun h => nomatch h) fun h => nomatch h.2
    · exact ⟨fun h => ⟨hC, congrArg Pass.again (Pass.again.inj h)⟩,
        fun h => congrArg Pass.again (Pass.again.inj h.2)⟩
  · rw [if_neg hC]
    exact iff_of_false (fun h => nomatch h) fun h => hC h.1

theorem guarded_leave (hC : C s) {result : ρ} (h : body s = .leave result) :
    guarded C body s = .leave (some result) := by
  rw [guarded, if_pos hC, h]

/-- **A guarded loop** has the result of the loop if all states on the way meet the condition. -/
theorem loop_guarded_eq_some_iff
    {hguarded : ∀ s t, guarded C body s = .again t → measure t < measure s} {result : ρ} :
    loop (guarded C body) measure hguarded s = some result ↔
      loop body measure hmeasure s = result ∧ ∀ t, Reaches body s t → C t := by
  induction hn : measure s using Nat.strongRecOn generalizing s with
  | _ n ih =>
    subst hn
    by_cases hC : C s
    · rcases hbody : body s with result' | t
      · rw [loop_leave (guarded_leave hC hbody), loop_leave hbody, forall_reaches_leave hbody,
          Option.some_inj]
        exact (and_iff_left hC).symm
      · rw [loop_again (guarded_again_iff.mpr ⟨hC, hbody⟩), loop_again hbody,
          forall_reaches_again hbody, ih _ (hmeasure s t hbody) rfl]
        exact and_congr_right fun _ => (and_iff_right hC).symm
    · rw [loop_leave (show guarded C body s = .leave none from if_neg hC)]
      exact iff_of_false (fun h => nomatch h) fun h => hC (h.2 s .refl)

end Guarded

end MemoryHierarchy.Lib
