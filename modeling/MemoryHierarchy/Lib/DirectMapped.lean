import Mathlib.Data.List.Basic
import Mathlib.Logic.Function.Basic

/-!
# Direct-mapped tables

A direct-mapped table has one place for each class of elements, so after every element of a
history has been put in its place the table holds the last element of each class (`lastIn`,
`lastIn_concat`). Of two such tables the upper one is `Included` in the lower one when the lower
one holds, in its own places, all that the upper one holds. Putting an element into the lower
table displaces another; inclusion survives when the upper table gives up its own place for the
element (`Included.fill`) or gives up what was displaced (`Included.drop`).
-/

namespace MemoryHierarchy.Lib

open Function

variable {α κ ι : Type*}

section LastIn

variable [DecidableEq κ]

/-- The last element of a history that belongs to a class. -/
def lastIn (place : α → κ) (history : List α) (k : κ) : Option α :=
  (history.filter fun a => place a = k).getLast?

@[simp]
theorem lastIn_nil (place : α → κ) (k : κ) : lastIn place [] k = none := rfl

theorem mem_of_lastIn {place : α → κ} {history : List α} {k : κ} {a : α}
    (h : lastIn place history k = some a) : a ∈ history :=
  List.mem_of_mem_filter (List.mem_of_getLast? h)

/-- One more element takes the place of its class. -/
theorem lastIn_concat (place : α → κ) (history : List α) (a : α) :
    lastIn place (history ++ [a]) = update (lastIn place history) (place a) (some a) := by
  funext k
  rw [lastIn, List.filter_append]
  rcases eq_or_ne k (place a) with rfl | hk
  · simp
  · rw [update_of_ne hk]
    simp [lastIn, hk.symm]

/-- A table that already holds an element does not change when it is put in its place. -/
theorem lastIn_concat_of_eq {place : α → κ} {history : List α} {a : α}
    (h : lastIn place history (place a) = some a) :
    lastIn place (history ++ [a]) = lastIn place history := by
  rw [lastIn_concat, ← h, update_eq_self]

end LastIn

/-! ### Inclusion -/

/-- What the upper table holds, the lower table holds in its own place for it. -/
def Included (place : α → κ) (upper : ι → Option α) (lower : κ → Option α) : Prop :=
  ∀ i a, upper i = some a → lower (place a) = some a

variable {place : α → κ} {upper upper' : ι → Option α} {lower : κ → Option α} {a : α}

/-- The upper table may take in what the lower table holds. -/
theorem Included.promote [DecidableEq ι] (h : Included place upper lower)
    (ha : lower (place a) = some a) (i : ι) : Included place (update upper i (some a)) lower := by
  intro j b hb
  rcases eq_or_ne j i with rfl | hj
  · rw [update_self, Option.some_inj] at hb
    rw [← hb, ha]
  · rw [update_of_ne hj] at hb
    exact h j b hb

/-- Both tables take in an element, if everything that shares its place below shares its place
above. -/
theorem Included.fill [DecidableEq κ] [DecidableEq ι] (h : Included place upper lower) {i : ι}
    (hplace : ∀ j b, upper j = some b → place b = place a → j = i) :
    Included place (update upper i (some a)) (update lower (place a) (some a)) := by
  intro j b hb
  rcases eq_or_ne j i with rfl | hj
  · rw [update_self, Option.some_inj] at hb
    rw [← hb, update_self]
  · rw [update_of_ne hj] at hb
    rw [update_of_ne fun heq => hj (hplace j b hb heq)]
    exact h j b hb

/-- The lower table takes in an element, if the upper table keeps nothing that shares its place
below. -/
theorem Included.drop [DecidableEq κ] (h : Included place upper lower)
    (hkept : ∀ j b, upper' j = some b → upper j = some b ∧ place b ≠ place a) :
    Included place upper' (update lower (place a) (some a)) := by
  intro j b hb
  obtain ⟨hold, hne⟩ := hkept j b hb
  rw [update_of_ne hne]
  exact h j b hold

end MemoryHierarchy.Lib
