import Mathlib.Logic.Basic

/-!
# Local steps

A state made of parts, `part k s` for each `k`. A step is local to part `k` when it leaves every
other part alone and when what it does to part `k`, and what it returns, depends on that part
only. Steps in sequence are local to the part each is local to, and steps local to different
parts commute as soon as the parts determine the state (`LocalTo.comm`). In a run of local steps
each part runs on its own (`part_run_filter`, `transcript_filter`), so that runs with the same
steps in every part agree, however these are interleaved (`run_eq_of_filter_eq`).
-/

namespace MemoryHierarchy.Lib

variable {σ κ ρ ρ' : Type*} {π : κ → Type*}

/-- The step `f` lives in part `k` of the state. -/
structure LocalTo (part : (k : κ) → σ → π k) (k : κ) (f : σ → σ × ρ) : Prop where
  frame : ∀ s k', k' ≠ k → part k' (f s).1 = part k' s
  determined : ∀ s s', part k s = part k s' →
    part k (f s).1 = part k (f s').1 ∧ (f s).2 = (f s').2

variable {part : (k : κ) → σ → π k} {k k' : κ} {f : σ → σ × ρ}

/-- A step that does nothing is local to every part. -/
theorem localTo_refused (part : (k : κ) → σ → π k) (k : κ) (r : ρ) :
    LocalTo part k fun s => (s, r) where
  frame _ _ _ := rfl
  determined _ _ h := ⟨h, rfl⟩

/-- Only the reply is changed. -/
theorem LocalTo.reply (h : LocalTo part k f) (φ : ρ → ρ') :
    LocalTo part k fun s => ((f s).1, φ (f s).2) where
  frame s k' hk' := h.frame s k' hk'
  determined s s' hs := by
    obtain ⟨hpart, hreply⟩ := h.determined s s' hs
    exact ⟨hpart, congrArg φ hreply⟩

/-- A second step, which may use the reply of the first. -/
theorem LocalTo.andThen {g : ρ → σ → σ × ρ'} (h : LocalTo part k f)
    (hg : ∀ r, LocalTo part k (g r)) : LocalTo part k fun s => g (f s).2 (f s).1 where
  frame s k' hk' := ((hg _).frame _ k' hk').trans (h.frame s k' hk')
  determined s s' hs := by
    obtain ⟨hpart, hreply⟩ := h.determined s s' hs
    rw [hreply]
    exact (hg _).determined _ _ hpart

/-- A step chosen by what only that part decides. -/
theorem LocalTo.choose {β : Type*} {φ : σ → β} {f : β → σ → σ × ρ}
    (hφ : ∀ s s', part k s = part k s' → φ s = φ s') (hf : ∀ b, LocalTo part k (f b)) :
    LocalTo part k fun s => f (φ s) s where
  frame s k' hk' := (hf _).frame s k' hk'
  determined s s' hs := by
    rw [hφ s s' hs]
    exact (hf _).determined s s' hs

/-- **Steps local to different parts commute**, and neither sees the other. -/
theorem LocalTo.comm {g : σ → σ × ρ'} (hf : LocalTo part k f) (hg : LocalTo part k' g)
    (hk : k ≠ k') (hpart : ∀ s s', (∀ i, part i s = part i s') → s = s') (s : σ) :
    (g (f s).1).1 = (f (g s).1).1 ∧ (f (g s).1).2 = (f s).2 ∧ (g (f s).1).2 = (g s).2 := by
  have hfs := hf.frame s
  have hgs := hg.frame s
  refine ⟨hpart _ _ fun i => ?_, (hf.determined _ s (hgs k hk)).2,
    (hg.determined _ s (hfs k' hk.symm)).2⟩
  by_cases hik : i = k
  · subst hik
    calc part i (g (f s).1).1
        = part i (f s).1 := hg.frame _ i hk
      _ = part i (f (g s).1).1 := ((hf.determined _ s (hgs i hk)).1).symm
  · rw [hf.frame _ i hik]
    by_cases hik' : i = k'
    · subst hik'
      exact (hg.determined _ s (hfs i hk.symm)).1
    · rw [hg.frame _ i hik', hg.frame _ i hik', hf.frame _ i hik]

/-! ### Runs -/

section Runs

variable {α : Type*} {step : σ → α → σ × ρ} {key : α → κ} [DecidableEq κ] {s s' : σ}
  {as bs : List α}

/-- The inputs of a run, each with its reply. -/
def transcript (step : σ → α → σ × ρ) : σ → List α → List (α × ρ)
  | _, [] => []
  | s, a :: as => (a, (step s a).2) :: transcript step (step s a).1 as

variable (h : ∀ a, LocalTo part (key a) fun s => step s a)
include h

/-- **Each part runs on its own**: it ends as after the inputs that are local to it. -/
theorem part_run_filter (hs : part k s = part k s') (as : List α) :
    part k (as.foldl (fun s a => (step s a).1) s) =
      part k ((as.filter fun a => key a = k).foldl (fun s a => (step s a).1) s') := by
  induction as generalizing s s' with
  | nil => exact hs
  | cons a as ih =>
    rw [List.foldl_cons, List.filter_cons]
    by_cases ha : key a = k
    · rw [if_pos (decide_eq_true ha), List.foldl_cons]
      subst ha
      exact ih ((h a).determined _ _ hs).1
    · rw [if_neg (decide_eq_true_iff.not.mpr ha)]
      exact ih (((h a).frame s k fun hk => ha hk.symm).trans hs)

/-- The inputs local to a part get the replies they get on their own. -/
theorem transcript_filter (hs : part k s = part k s') (as : List α) :
    (transcript step s as).filter (fun x => key x.1 = k) =
      transcript step s' (as.filter fun a => key a = k) := by
  induction as generalizing s s' with
  | nil => rfl
  | cons a as ih =>
    rw [transcript, List.filter_cons, List.filter_cons]
    by_cases ha : key a = k
    · rw [if_pos (decide_eq_true ha), if_pos (decide_eq_true ha), transcript]
      subst ha
      obtain ⟨hpart, hreply⟩ := (h a).determined _ _ hs
      rw [hreply, ih hpart]
    · rw [if_neg (decide_eq_true_iff.not.mpr ha), if_neg (decide_eq_true_iff.not.mpr ha)]
      exact ih (((h a).frame s k fun hk => ha hk.symm).trans hs)

/-- **Interleavings agree**: runs with the same inputs in every part, in the same order, end in the
same state. -/
theorem run_eq_of_filter_eq (hpart : ∀ s s', (∀ i, part i s = part i s') → s = s')
    (hfilter : ∀ k, (as.filter fun a => key a = k) = bs.filter fun a => key a = k) (s : σ) :
    as.foldl (fun s a => (step s a).1) s = bs.foldl (fun s a => (step s a).1) s :=
  hpart _ _ fun i => by
    rw [part_run_filter h (k := i) rfl as, hfilter, ← part_run_filter h rfl bs]

end Runs

end MemoryHierarchy.Lib
