import Mathlib.Data.Option.Basic
import Mathlib.Data.List.Basic

/-!
# Machines with replies

A machine takes inputs one at a time; a step hands back the next state and a reply, or is stuck. A
simulation relates the states of two machines so that their steps stay in lockstep with equal
replies, as long as the first machine meets a condition; then so do their runs
(`Simulates.run`). A machine can be made to be stuck where it does not meet a condition
(`run_guarded`).
-/

namespace MemoryHierarchy.Lib

variable {σ τ α ρ : Type*}

/-- A step takes a state and an input. -/
abbrev Machine (σ α ρ : Type*) := σ → α → Option (σ × ρ)

namespace Machine

variable {m : Machine σ α ρ} {m' : Machine τ α ρ} {C : σ → α → Prop} {R : σ → τ → Prop}

/-- The last state and the replies of a run, unless it gets stuck. -/
def run (m : Machine σ α ρ) : σ → List α → Option (σ × List ρ)
  | s, [] => some (s, [])
  | s, a :: as => (m s a).bind fun x => (run m x.1 as).map fun y => (y.1, x.2 :: y.2)

@[simp]
theorem run_nil (s : σ) : m.run s [] = some (s, []) := rfl

theorem run_cons (s : σ) (a : α) (as : List α) :
    m.run s (a :: as) =
      (m s a).bind fun x => (m.run x.1 as).map fun y => (y.1, x.2 :: y.2) := rfl

/-- A run, from its first step and the rest. -/
theorem run_cons_eq_some_iff {s u : σ} {a : α} {as : List α} {rs : List ρ} :
    m.run s (a :: as) = some (u, rs) ↔
      ∃ t r rs', m s a = some (t, r) ∧ m.run t as = some (u, rs') ∧ rs = r :: rs' := by
  simp only [run_cons, Option.bind_eq_some_iff, Option.map_eq_some_iff, Prod.exists, Prod.mk.injEq]
  constructor
  · rintro ⟨t, r, hstep, u', rs', hrun, rfl, rfl⟩
    exact ⟨t, r, rs', hstep, hrun, rfl⟩
  · rintro ⟨t, r, rs', hstep, hrun, rfl⟩
    exact ⟨t, r, hstep, u, rs', hrun, rfl, rfl⟩

/-- There is a reply for every input. -/
theorem length_of_run {s t : σ} {as : List α} {rs : List ρ} (h : m.run s as = some (t, rs)) :
    rs.length = as.length := by
  induction as generalizing s rs with
  | nil =>
    obtain ⟨-, rfl⟩ := Prod.mk.inj (Option.some.inj h)
    rfl
  | cons a as ih =>
    obtain ⟨u, r, rs', -, hrun, rfl⟩ := run_cons_eq_some_iff.mp h
    exact congrArg (· + 1) (ih hrun)

/-- The machine that replies with what can be seen of its states. -/
def observe {ω : Type*} (m : Machine σ α ρ) (obs : σ → ω) : Machine σ α ω := fun s a =>
  (m s a).map fun x => (x.1, obs x.1)

/-- What is seen along a run is seen of the states it goes through. -/
theorem run_observe {ω : Type*} (m : Machine σ α ρ) (obs : σ → ω) (s : σ) (as : List α) :
    (m.observe obs).run s as = ((m.observe id).run s as).map fun x => (x.1, x.2.map obs) := by
  induction as generalizing s with
  | nil => rfl
  | cons a as ih =>
    rw [run_cons, run_cons, observe, observe]
    rcases m s a with _ | ⟨t, r⟩
    · rfl
    · simp only [Option.map_some, Option.bind_some, ih, id_eq, Option.map_map]
      rfl

/-- Every step of the run from `s` meets the condition `C` in the state it starts from. -/
def Meets (m : Machine σ α ρ) (C : σ → α → Prop) : σ → List α → Prop
  | _, [] => True
  | s, a :: as => C s a ∧ ∀ t r, m s a = some (t, r) → Meets m C t as

instance Meets.decidable {C : σ → α → Prop} [∀ s a, Decidable (C s a)] :
    ∀ (s : σ) (as : List α), Decidable (m.Meets C s as)
  | _, [] => isTrue trivial
  | s, a :: as =>
    haveI : ∀ x : Option (σ × ρ), Decidable (∀ t r, x = some (t, r) → m.Meets C t as) := fun x =>
      match x with
      | none => isTrue nofun
      | some (t, r) =>
        haveI := Meets.decidable (C := C) t as
        decidable_of_iff (m.Meets C t as)
          ⟨fun h _ _ heq => (Prod.mk.inj (Option.some.inj heq)).1 ▸ h, fun h => h t r rfl⟩
    inferInstanceAs (Decidable (C s a ∧ ∀ t r, m s a = some (t, r) → m.Meets C t as))

/-- A condition every step meets whatever the state. -/
theorem meets_of_forall {as : List α} (h : ∀ s, ∀ a ∈ as, C s a) (s : σ) : m.Meets C s as := by
  induction as generalizing s with
  | nil => trivial
  | cons a as ih =>
    exact ⟨h s a List.mem_cons_self, fun t _ _ =>
      ih (fun s b hb => h s b (List.mem_cons_of_mem a hb)) t⟩

/-- The machine that is stuck where a step does not meet the condition. -/
def guarded (m : Machine σ α ρ) (C : σ → α → Prop) [∀ s a, Decidable (C s a)] : Machine σ α ρ :=
  fun s a => if C s a then m s a else none

/-- **A guarded run** is the run itself if all its steps meet the condition, and else is stuck. -/
theorem run_guarded [∀ s a, Decidable (C s a)] (s : σ) (as : List α) :
    (m.guarded C).run s as = if m.Meets C s as then m.run s as else none := by
  induction as generalizing s with
  | nil => exact (if_pos trivial).symm
  | cons a as ih =>
    rw [run_cons, run_cons, guarded]
    by_cases hC : C s a
    · rw [if_pos hC]
      rcases hstep : m s a with _ | ⟨t, r⟩
      · exact (ite_self _).symm
      · have hmeets : m.Meets C s (a :: as) ↔ m.Meets C t as := by
          refine ⟨fun h => h.2 t r hstep, fun h => ⟨hC, fun u r' hu => ?_⟩⟩
          cases hstep.symm.trans hu
          exact h
        simp only [Option.bind_some, ih, hmeets]
        split_ifs
        · rfl
        · rfl
    · rw [if_neg hC, if_neg fun h => hC h.1]
      rfl

/-- Where both machines are, `R` holds, and the replies are the same. -/
abbrev InStep (R : σ → τ → Prop) {ω : Type*} : Option (σ × ω) → Option (τ × ω) → Prop :=
  Option.Rel fun x y => R x.1 y.1 ∧ x.2 = y.2

/-- Steps that meet the condition keep the two machines in step. -/
def Simulates (m : Machine σ α ρ) (m' : Machine τ α ρ) (C : σ → α → Prop) (R : σ → τ → Prop) :
    Prop :=
  ∀ s t a, R s t → C s a → InStep R (m s a) (m' t a)

/-- **Simulation.** Runs whose steps all meet the condition stay in step. -/
theorem Simulates.run (h : Simulates m m' C R) {s : σ} {t : τ} (hst : R s t) {as : List α}
    (hmeets : m.Meets C s as) : InStep R (m.run s as) (m'.run t as) := by
  induction as generalizing s t with
  | nil => exact .some ⟨hst, rfl⟩
  | cons a as ih =>
    have hstep := h s t a hst hmeets.1
    have hrest := hmeets.2
    rw [run_cons, run_cons]
    revert hstep hrest
    rcases m s a with _ | ⟨s', r⟩ <;> rcases m' t a with _ | ⟨t', r'⟩
    · exact fun _ _ => .none
    · exact fun hstep => nomatch hstep
    · exact fun hstep => nomatch hstep
    · rintro (⟨hnext, rfl⟩ | _) hrest
      have hrun := ih hnext (hrest s' r rfl)
      rw [Option.bind_some, Option.bind_some]
      revert hrun
      rcases m.run s' as with _ | ⟨u, rs⟩ <;> rcases m'.run t' as with _ | ⟨v, rs'⟩
      · exact fun _ => .none
      · exact fun hrun => nomatch hrun
      · exact fun hrun => nomatch hrun
      · rintro (⟨huv, rfl⟩ | _)
        exact .some ⟨huv, rfl⟩

/-- Where the first machine always stays in step, a condition on its run is one on the other's. -/
theorem Simulates.meets_iff {D : τ → α → Prop} (h : Simulates m m' (fun _ _ => True) R)
    (hcond : ∀ s t a, R s t → (C s a ↔ D t a)) {s : σ} {t : τ} (hst : R s t) {as : List α} :
    m.Meets C s as ↔ m'.Meets D t as := by
  induction as generalizing s t with
  | nil => exact Iff.rfl
  | cons a as ih =>
    refine and_congr (hcond s t a hst) ?_
    have hstep := h s t a hst trivial
    revert hstep
    rcases m s a with _ | ⟨s', r⟩ <;> rcases m' t a with _ | ⟨t', r'⟩
    · exact fun _ => iff_of_true (fun _ _ h => nomatch h) fun _ _ h => nomatch h
    · exact fun hstep => nomatch hstep
    · exact fun hstep => nomatch hstep
    · rintro (⟨hnext, -⟩ | _)
      constructor
      · rintro hmeets _ _ ⟨⟩
        exact (ih hnext).mp (hmeets s' r rfl)
      · rintro hmeets _ _ ⟨⟩
        exact (ih hnext).mpr (hmeets t' r' rfl)

/-- **Progress.** A machine that an invariant keeps from getting stuck runs to the end, with
replies that all satisfy what the invariant gives. -/
theorem exists_run {I : σ → Prop} {P : ρ → Prop} {as : List α}
    (hstep : ∀ s, ∀ a ∈ as, I s → ∃ t r, m s a = some (t, r) ∧ I t ∧ P r) {s : σ} (hs : I s) :
    ∃ t rs, m.run s as = some (t, rs) ∧ I t ∧ rs.length = as.length ∧ ∀ r ∈ rs, P r := by
  induction as generalizing s with
  | nil => exact ⟨s, [], rfl, hs, rfl, fun r hr => nomatch hr⟩
  | cons a as ih =>
    obtain ⟨t, r, hr, ht, hP⟩ := hstep s a List.mem_cons_self hs
    obtain ⟨u, rs, hrun, hu, hlength, hall⟩ :=
      ih (fun s b hb => hstep s b (List.mem_cons_of_mem a hb)) ht
    refine ⟨u, r :: rs, run_cons_eq_some_iff.mpr ⟨t, r, rs, hr, hrun, rfl⟩, hu,
      congrArg (· + 1) hlength, ?_⟩
    exact List.forall_mem_cons.mpr ⟨hP, hall⟩

end Machine

end MemoryHierarchy.Lib
