import Mathlib.Data.List.Induction

/-!
# Runs of a deterministic step

A run of a step function over a list of inputs is a left fold. The rules here are the ones
every result about whole runs is an instance of: an invariant that may mention the inputs so
far, and the same with a condition every step is assumed to meet.
-/

namespace MemoryHierarchy.Lib

variable {σ α : Type*} (step : σ → α → σ)

/-- Every step of the run from `s` meets the condition `C` in the state it starts from. -/
def StepsMeet (C : σ → α → Prop) : σ → List α → Prop
  | _, [] => True
  | s, a :: as => C s a ∧ StepsMeet C (step s a) as

variable {step}

instance StepsMeet.decidable {C : σ → α → Prop} [∀ s a, Decidable (C s a)] :
    ∀ (s : σ) (as : List α), Decidable (StepsMeet step C s as)
  | _, [] => isTrue trivial
  | s, a :: as =>
    haveI : Decidable (StepsMeet step C (step s a) as) := StepsMeet.decidable _ as
    inferInstanceAs (Decidable (C s a ∧ StepsMeet step C (step s a) as))

theorem stepsMeet_append {C : σ → α → Prop} {s : σ} {as bs : List α} :
    StepsMeet step C s (as ++ bs) ↔
      StepsMeet step C s as ∧ StepsMeet step C (as.foldl step s) bs := by
  induction as generalizing s with
  | nil => simp [StepsMeet]
  | cons a as ih => simp [StepsMeet, ih, and_assoc]

theorem stepsMeet_concat {C : σ → α → Prop} {s : σ} {as : List α} {a : α} :
    StepsMeet step C s (as ++ [a]) ↔ StepsMeet step C s as ∧ C (as.foldl step s) a := by
  simp [stepsMeet_append, StepsMeet]

/-- A condition every step meets whatever the state. -/
theorem stepsMeet_of_forall {C : σ → α → Prop} {as : List α} (h : ∀ s, ∀ a ∈ as, C s a)
    (s : σ) : StepsMeet step C s as := by
  induction as generalizing s with
  | nil => trivial
  | cons a as ih =>
    exact ⟨h s a (by simp), ih (fun s b hb => h s b (List.mem_cons_of_mem a hb)) _⟩

/-- **Invariant rule.** An invariant relating the inputs so far to the state, true at the
start and kept by every step that meets the condition, holds at the end of every run whose
steps all meet it. -/
theorem run_invariant {C : σ → α → Prop} {I : List α → σ → Prop} {s : σ} (hinit : I [] s)
    (hstep : ∀ as a t, I as t → C t a → I (as ++ [a]) (step t a)) {as : List α}
    (h : StepsMeet step C s as) : I as (as.foldl step s) := by
  induction as using List.reverseRecOn with
  | nil => exact hinit
  | append_singleton as a ih =>
    rw [stepsMeet_concat] at h
    rw [List.foldl_append, List.foldl_cons, List.foldl_nil]
    exact hstep as a _ (ih h.1) h.2

/-- The invariant rule for a property of the state alone, kept by every step. -/
theorem run_invariant_of_step {I : σ → Prop} {s : σ} (hinit : I s)
    (hstep : ∀ t a, I t → I (step t a)) (as : List α) : I (as.foldl step s) :=
  run_invariant (C := fun _ _ => True) (I := fun _ => I) hinit
    (fun _ a t ht _ => hstep t a ht) (stepsMeet_of_forall (fun _ _ _ => trivial) s)

/-- Every step of the run from `s` meets the condition `C` in the state it starts from, as far as
the steps before it have a result. -/
def StepsMeetM (step : σ → α → Option σ) (C : σ → α → Prop) : σ → List α → Prop
  | _, [] => True
  | s, a :: as => C s a ∧ ∀ t, step s a = some t → StepsMeetM step C t as

theorem stepsMeetM_concat {step : σ → α → Option σ} {C : σ → α → Prop} {s : σ} {as : List α}
    {a : α} : StepsMeetM step C s (as ++ [a]) ↔
      StepsMeetM step C s as ∧ ∀ t, as.foldlM step s = some t → C t a := by
  induction as generalizing s with
  | nil => simp [StepsMeetM]
  | cons b as ih =>
    simp only [List.cons_append, StepsMeetM, ih, List.foldlM_cons, Option.bind_eq_bind,
      Option.bind_eq_some_iff]
    constructor
    · rintro ⟨hb, has⟩
      refine ⟨⟨hb, fun t ht => (has t ht).1⟩, ?_⟩
      rintro u ⟨t, ht, hu⟩
      exact (has t ht).2 u hu
    · rintro ⟨⟨hb, has⟩, ha⟩
      exact ⟨hb, fun t ht => ⟨has t ht, fun u hu => ha u ⟨t, ht, hu⟩⟩⟩

/-- **Invariant rule for a step that may have no result**, with a condition every step is assumed
to meet. -/
theorem runM_invariant_of_meet {step : σ → α → Option σ} {C : σ → α → Prop}
    {I : List α → σ → Prop} {s : σ} {as : List α} (hinit : I [] s)
    (hstep : ∀ bs a t, bs ++ [a] <+: as → I bs t → C t a →
      ∃ t', step t a = some t' ∧ I (bs ++ [a]) t')
    (h : StepsMeetM step C s as) : ∃ t, as.foldlM step s = some t ∧ I as t := by
  induction as using List.reverseRecOn with
  | nil => exact ⟨s, rfl, hinit⟩
  | append_singleton as a ih =>
    obtain ⟨has, ha⟩ := stepsMeetM_concat.mp h
    obtain ⟨t, hrun, ht⟩ := ih (fun bs b t hbs => hstep bs b t
      (hbs.trans (List.prefix_append as [a]))) has
    obtain ⟨t', hlast, ht'⟩ := hstep as a t List.prefix_rfl ht (ha t hrun)
    refine ⟨t', ?_, ht'⟩
    rw [List.foldlM_append, hrun, Option.bind_eq_bind, Option.bind_some, List.foldlM_cons, hlast]
    rfl

theorem stepsMeetM_true {step : σ → α → Option σ} (s : σ) (as : List α) :
    StepsMeetM step (fun _ _ => True) s as := by
  induction as generalizing s with
  | nil => trivial
  | cons a as ih => exact ⟨trivial, fun t _ => ih t⟩

/-- **Invariant rule for a step that may have no result.** Where the invariant makes every step
have one, so has the whole run. -/
theorem runM_invariant {step : σ → α → Option σ} {I : List α → σ → Prop} {s : σ}
    (hinit : I [] s)
    (hstep : ∀ as a t, I as t → ∃ t', step t a = some t' ∧ I (as ++ [a]) t') (as : List α) :
    ∃ t, as.foldlM step s = some t ∧ I as t :=
  runM_invariant_of_meet (C := fun _ _ => True) hinit (fun bs a t _ ht _ => hstep bs a t ht)
    (stepsMeetM_true s as)

/-- **Exact conditions.** If, from the states where `P` and an invariant `J` hold, a step leads
back to `P` exactly when it meets `C`, then `P` holds all along a run exactly when its steps
meet `C`. -/
theorem always_iff {C : σ → α → Prop} {J P : σ → Prop} {s : σ} {as : List α}
    (hJ : ∀ t, ∀ a ∈ as, J t → J (step t a))
    (hstep : ∀ t, ∀ a ∈ as, J t → P t → (P (step t a) ↔ C t a)) (hs : J s) (hP : P s) :
    (∀ k, P ((as.take k).foldl step s)) ↔ StepsMeet step C s as := by
  induction as generalizing s with
  | nil => exact iff_of_true (fun k => by simpa using hP) trivial
  | cons a as ih =>
    have ih' := fun hPa => ih (s := step s a) (fun t b hb => hJ t b (List.mem_cons_of_mem a hb))
      (fun t b hb => hstep t b (List.mem_cons_of_mem a hb)) (hJ s a (by simp) hs) hPa
    constructor
    · intro h
      have hPa : P (step s a) := h 1
      exact ⟨(hstep s a (by simp) hs hP).mp hPa, (ih' hPa).mp fun k => h (k + 1)⟩
    · rintro ⟨hC, hmeet⟩ k
      have hPa : P (step s a) := (hstep s a (by simp) hs hP).mpr hC
      cases k with
      | zero => exact hP
      | succ k => exact (ih' hPa).mpr hmeet k

end MemoryHierarchy.Lib
