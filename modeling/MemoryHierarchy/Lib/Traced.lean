import Mathlib.Data.Nat.Notation
import Mathlib.Tactic.SplitIfs

/-!
# Computations that log what they access

A fallible computation over a state of type `σ` that also logs the indices it accesses. Three
judgments are enough for results about such computations, and each goes through a sequence of
steps: `Yields`, that a run succeeds with a value and a final state, `ErrorsIn`, that it fails with
no error but those with a given property, and `AccessesIn`, that a run, whether it succeeds or
fails, makes no access but to indices with a given property.
-/

namespace MemoryHierarchy.Lib

/-- What a run leaves: a value or an error, a state, and the indices accessed. -/
structure TracedRun (σ ε α : Type) where
  result : Except ε α
  state : σ
  accesses : List ℕ

/-- A fallible computation that logs its accesses. -/
def Traced (σ ε α : Type) : Type := σ → TracedRun σ ε α

variable {σ ε α β : Type}

namespace Traced

instance : Monad (Traced σ ε) where
  pure a := fun s => ⟨.ok a, s, []⟩
  bind x g := fun s =>
    match (x s).result with
    | .error err => ⟨.error err, (x s).state, (x s).accesses⟩
    | .ok a =>
      let run := g a (x s).state
      ⟨run.result, run.state, (x s).accesses ++ run.accesses⟩

/-- Failure. -/
def fail (err : ε) : Traced σ ε α := fun s => ⟨.error err, s, []⟩

/-- Failure unless the test holds. -/
def require (test : Prop) [Decidable test] (err : ε) : Traced σ ε Unit :=
  if test then pure () else fail err

/-- Accesses to the given indices, one after the other. -/
def touchAll (is : List ℕ) : Traced σ ε Unit := fun s => ⟨.ok (), s, is⟩

/-- Access to an index. -/
def touch (i : ℕ) : Traced σ ε Unit := touchAll [i]

/-- A loop that tests the given indices in order and answers whether `passed` held before it and
all tests hold. After a test that fails no index is accessed. -/
def testAll (test : ℕ → Bool) (is : List ℕ) (passed : Bool) : Traced σ ε Bool :=
  is.foldlM (fun passed i =>
    if passed then do
      touch i
      return test i
    else return false) passed

/-- The run of `x` from `s` succeeds with `a` and leaves `t`. -/
def Yields (x : Traced σ ε α) (s : σ) (a : α) (t : σ) : Prop :=
  (x s).result = .ok a ∧ (x s).state = t

/-- If the run of `x` from `s` fails, it does so with an error with property `E`. -/
def ErrorsIn (E : ε → Prop) (x : Traced σ ε α) (s : σ) : Prop :=
  ∀ err, (x s).result = .error err → E err

/-- The run of `x` from `s` accesses only indices with property `P`. -/
def AccessesIn (P : ℕ → Prop) (x : Traced σ ε α) (s : σ) : Prop := ∀ i ∈ (x s).accesses, P i

variable {x : Traced σ ε α} {g : α → Traced σ ε β} {s t u : σ} {a : α} {b : β} {err : ε}
  {E : ε → Prop} {P : ℕ → Prop} {test : Prop} [Decidable test] {i : ℕ}

/-! ### Success -/

@[simp]
theorem yields_pure {a' : α} : Yields (pure a' : Traced σ ε α) s a t ↔ a = a' ∧ t = s := by
  constructor
  · rintro ⟨h, rfl⟩
    exact ⟨(Except.ok.inj h).symm, rfl⟩
  · rintro ⟨rfl, rfl⟩
    exact ⟨rfl, rfl⟩

@[simp]
theorem yields_bind :
    Yields (x >>= g) s b u ↔ ∃ a t, Yields x s a t ∧ Yields (g a) t b u := by
  have hrun : (x >>= g) s =
      match (x s).result with
      | .error err => ⟨.error err, (x s).state, (x s).accesses⟩
      | .ok a =>
        ⟨(g a (x s).state).result, (g a (x s).state).state,
          (x s).accesses ++ (g a (x s).state).accesses⟩ := rfl
  constructor
  · intro h
    rw [Yields, hrun] at h
    rcases hx : (x s).result with err | a
    · rw [hx] at h
      cases h.1
    · rw [hx] at h
      exact ⟨a, (x s).state, ⟨hx, rfl⟩, h⟩
  · rintro ⟨a, t, ⟨hx, rfl⟩, hg⟩
    rw [Yields, hrun, hx]
    exact hg

@[simp]
theorem yields_fail : ¬ Yields (fail err : Traced σ ε α) s a t := fun h => nomatch h.1

@[simp]
theorem yields_require {v : Unit} : Yields (require test err) s v t ↔ test ∧ t = s := by
  rw [require]
  split_ifs with htest
  · simp [htest]
  · simp [htest]

@[simp]
theorem yields_touchAll {is : List ℕ} {v : Unit} :
    Yields (touchAll is : Traced σ ε Unit) s v t ↔ t = s :=
  ⟨fun h => h.2.symm, fun h => ⟨rfl, h.symm⟩⟩

@[simp]
theorem yields_touch {v : Unit} : Yields (touch i : Traced σ ε Unit) s v t ↔ t = s :=
  yields_touchAll

theorem testAll_cons {test : ℕ → Bool} {is : List ℕ} {passed : Bool} :
    (testAll test (i :: is) passed : Traced σ ε Bool) =
      (if passed then do
        touch i
        return test i
      else return false) >>= testAll test is := rfl

theorem yields_testAll {test : ℕ → Bool} {is : List ℕ} {passed result : Bool} :
    Yields (testAll test is passed : Traced σ ε Bool) s result t ↔
      t = s ∧ result = (passed && is.all test) := by
  induction is generalizing passed s with
  | nil => simp [testAll, and_comm]
  | cons i is ih =>
    rw [testAll_cons, yields_bind]
    rcases passed with _ | _
    · simp [ih]
    · simp only [if_true, yields_bind, yields_touch, yields_pure, ih, List.all_cons, Bool.true_and]
      constructor
      · rintro ⟨_, _, ⟨-, _, rfl, rfl, rfl⟩, rfl, rfl⟩
        exact ⟨rfl, rfl⟩
      · rintro ⟨rfl, rfl⟩
        exact ⟨_, _, ⟨(), _, rfl, rfl, rfl⟩, rfl, rfl⟩

/-- A run succeeds in one way. -/
theorem Yields.unique {a' : α} {t' : σ} (h : Yields x s a t) (h' : Yields x s a' t') :
    a = a' ∧ t = t' :=
  ⟨Except.ok.inj (h.1.symm.trans h'.1), h.2.symm.trans h'.2⟩

/-! ### Failure -/

@[simp]
theorem errorsIn_pure : ErrorsIn E (pure a : Traced σ ε α) s := nofun

/-- A sequence fails where its first part fails and, where this succeeds, where the second does. -/
theorem errorsIn_bind : ErrorsIn E (x >>= g) s ↔
    ErrorsIn E x s ∧ ∀ a t, Yields x s a t → ErrorsIn E (g a) t := by
  have hrun : ((x >>= g) s).result =
      match (x s).result with
      | .error err => .error err
      | .ok a => (g a (x s).state).result := by
    change (match (x s).result with
      | .error err => (⟨.error err, (x s).state, (x s).accesses⟩ : TracedRun σ ε β)
      | .ok a => ⟨(g a (x s).state).result, (g a (x s).state).state,
          (x s).accesses ++ (g a (x s).state).accesses⟩).result = _
    rcases (x s).result with err | a <;> rfl
  rw [ErrorsIn, ErrorsIn, hrun]
  rcases hx : (x s).result with err | a
  · exact ⟨fun h => ⟨fun e he => h e (congrArg Except.error (Except.error.inj he)),
      fun a t ha => nomatch hx.symm.trans ha.1⟩,
      fun h e he => h.1 e (congrArg Except.error (Except.error.inj he))⟩
  · refine ⟨fun h => ⟨nofun, ?_⟩, fun h => h.2 a _ ⟨hx, rfl⟩⟩
    rintro a' t ⟨ha', rfl⟩
    cases hx.symm.trans ha'
    exact h

@[simp]
theorem errorsIn_fail : ErrorsIn E (fail err : Traced σ ε α) s ↔ E err :=
  ⟨fun h => h err rfl, fun h _ he => Except.error.inj he ▸ h⟩

theorem errorsIn_ite {p : Prop} [Decidable p] {y : Traced σ ε α} (hx : ErrorsIn E x s)
    (hy : ErrorsIn E y s) : ErrorsIn E (if p then x else y) s := by
  split_ifs
  · exact hx
  · exact hy

theorem errorsIn_require (herr : E err) : ErrorsIn E (require test err) s := by
  rw [require]
  split_ifs
  · exact errorsIn_pure
  · exact errorsIn_fail.mpr herr

@[simp]
theorem errorsIn_touchAll {is : List ℕ} : ErrorsIn E (touchAll is : Traced σ ε Unit) s := nofun

@[simp]
theorem errorsIn_touch : ErrorsIn E (touch i : Traced σ ε Unit) s := nofun

theorem errorsIn_testAll {test : ℕ → Bool} {is : List ℕ} {passed : Bool} :
    ErrorsIn E (testAll test is passed : Traced σ ε Bool) s := by
  induction is generalizing passed s with
  | nil => exact errorsIn_pure
  | cons i is ih =>
    rw [testAll_cons, errorsIn_bind]
    exact ⟨errorsIn_ite (errorsIn_bind.mpr ⟨errorsIn_touch, fun _ _ _ => errorsIn_pure⟩)
      errorsIn_pure, fun _ _ _ => ih⟩

/-! ### Accesses -/

theorem AccessesIn.mono {Q : ℕ → Prop} (h : AccessesIn P x s) (hPQ : ∀ i, P i → Q i) :
    AccessesIn Q x s := fun i hi => hPQ i (h i hi)

@[simp]
theorem accessesIn_pure : AccessesIn P (pure a : Traced σ ε α) s := nofun

/-- The accesses of a sequence are those of its first part and, where this succeeds, those of the
second. -/
theorem accessesIn_bind : AccessesIn P (x >>= g) s ↔
    AccessesIn P x s ∧ ∀ a t, Yields x s a t → AccessesIn P (g a) t := by
  have hrun : (x >>= g) s =
      match (x s).result with
      | .error err => ⟨.error err, (x s).state, (x s).accesses⟩
      | .ok a =>
        ⟨(g a (x s).state).result, (g a (x s).state).state,
          (x s).accesses ++ (g a (x s).state).accesses⟩ := rfl
  rw [AccessesIn, hrun]
  rcases hx : (x s).result with err | a
  · exact ⟨fun h => ⟨h, fun a t ha => nomatch hx.symm.trans ha.1⟩, And.left⟩
  · simp only [List.forall_mem_append]
    refine and_congr_right fun _ => ⟨?_, fun h => h a _ ⟨hx, rfl⟩⟩
    rintro h a' t ⟨ha', rfl⟩
    cases hx.symm.trans ha'
    exact h

@[simp]
theorem accessesIn_fail : AccessesIn P (fail err : Traced σ ε α) s := nofun

@[simp]
theorem accessesIn_require : AccessesIn P (require test err) s := by
  rw [require]
  split_ifs
  · exact accessesIn_pure
  · exact accessesIn_fail

@[simp]
theorem accessesIn_touch : AccessesIn P (touch i : Traced σ ε Unit) s ↔ P i :=
  List.forall_mem_singleton

theorem accessesIn_testAll {test : ℕ → Bool} {is : List ℕ} {passed : Bool}
    (h : ∀ i ∈ is, P i) : AccessesIn P (testAll test is passed : Traced σ ε Bool) s := by
  induction is generalizing passed s with
  | nil => exact accessesIn_pure
  | cons i is ih =>
    rw [testAll_cons, accessesIn_bind]
    refine ⟨?_, fun _ _ _ => ih fun j hj => h j (List.mem_cons_of_mem i hj)⟩
    split_ifs
    · exact accessesIn_bind.mpr ⟨accessesIn_touch.mpr (h i List.mem_cons_self),
        fun _ _ _ => accessesIn_pure⟩
    · exact accessesIn_pure

end Traced

end MemoryHierarchy.Lib
