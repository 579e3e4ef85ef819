import Mathlib.Data.List.Basic
import Mathlib.Data.List.Nodup
import Mathlib.Data.List.Pairwise
import Mathlib.Order.Nat

/-!
# Recency kept in ages

A table may keep its recency order in small numbers, one per place, instead of a list. `Ordered
age r` says that the ages increase strictly along `r`, the places in use from the most to the
least recently used. Using a place (`touch`) keeps the order and moves the place to the front;
ageing every place (`increase`) up to a bound keeps it too, unless two places in use are at
the bound together afterwards. When the ages of `n` places are all below `n` they are exactly
`0, …, n - 1` (`Ordered.map_eq_range`).
-/

namespace MemoryHierarchy.Lib

variable {ι : Type*} [DecidableEq ι]

/-- The ages after place `w` is used: it gets age `0`, and those younger than it age by one. -/
def touch (age : ι → ℕ) (w : ι) : ι → ℕ := fun u =>
  if u = w then 0 else if age u < age w then age u + 1 else age u

/-- The ages after a new entry in place `w`: all the others age by one, up to `bound`. -/
def increase (bound : ℕ) (age : ι → ℕ) (w : ι) : ι → ℕ := fun u =>
  if u = w then 0 else if age u < bound then age u + 1 else age u

/-- The ages increase strictly along `r`, from the most to the least recently used place. -/
def Ordered (age : ι → ℕ) (r : List ι) : Prop := r.Pairwise fun u u' => age u < age u'

variable {age : ι → ℕ} {r : List ι} {w : ι} {bound : ℕ}

omit [DecidableEq ι] in
theorem Ordered.nodup (h : Ordered age r) : r.Nodup :=
  h.imp fun hlt heq => absurd (congrArg age heq) hlt.ne

omit [DecidableEq ι] in
/-- Places in use have distinct ages. -/
theorem Ordered.inj (h : Ordered age r) {u u' : ι} (hu : u ∈ r) (hu' : u' ∈ r)
    (heq : age u = age u') : u = u' := by
  by_contra hne
  have hsymm : Std.Symm fun u u' => age u ≠ age u' := ⟨fun _ _ hne => hne.symm⟩
  exact (h.imp fun hlt => hlt.ne : r.Pairwise fun u u' => age u ≠ age u').forall hu hu' hne heq

omit [DecidableEq ι] in
/-- The ages leave no choice in the order. -/
theorem Ordered.unique {r' : List ι} (h : Ordered age r) (h' : Ordered age r')
    (hmem : ∀ u, u ∈ r ↔ u ∈ r') : r = r' :=
  ((List.perm_ext_iff_of_nodup h.nodup h'.nodup).mpr fun u => hmem u).eq_of_pairwise
    (fun _ _ _ _ hlt hgt => absurd hlt hgt.not_gt) h h'

/-- Using a place in use moves it to the front. -/
theorem Ordered.touch (h : Ordered age r) (hw : w ∈ r) :
    Ordered (touch age w) (w :: r.erase w) := by
  have hsub : ∀ u ∈ r.erase w, u ≠ w ∧ u ∈ r := fun u hu =>
    ⟨fun heq => h.nodup.not_mem_erase (heq ▸ hu), List.mem_of_mem_erase hu⟩
  refine List.pairwise_cons.mpr ⟨fun u hu => ?_, ?_⟩
  · have hne := (hsub u hu).1
    have hage : age u ≠ age w := fun heq => hne (h.inj (hsub u hu).2 hw heq)
    simp only [Lib.touch, if_true, if_neg hne]
    split_ifs with hlt <;> omega
  · refine (List.Pairwise.sublist List.erase_sublist h).imp_of_mem fun {u u'} hu hu' hlt => ?_
    have hage : age u' ≠ age w := fun heq => (hsub u' hu').1 (h.inj (hsub u' hu').2 hw heq)
    simp only [Lib.touch, if_neg (hsub u hu).1, if_neg (hsub u' hu').1]
    split_ifs <;> omega

/-- Using a place and then giving it up leaves the others in order. -/
theorem Ordered.touch_erase (h : Ordered age r) (hw : w ∈ r) :
    Ordered (Lib.touch age w) (r.erase w) :=
  (List.pairwise_cons.mp (h.touch hw)).2

/-- A new entry in a place not in use goes to the front, as long as ageing does not bring two
places to the bound. -/
theorem Ordered.increase (h : Ordered age r) (hw : w ∉ r)
    (hbound : ∀ u ∈ r, ∀ u' ∈ r, age u < age u' → age u' = bound → age u + 1 < bound)
    (hle : ∀ u ∈ r, age u ≤ bound) (hpos : r ≠ [] → 0 < bound) :
    Ordered (increase bound age w) (w :: r) := by
  have hne : ∀ u ∈ r, u ≠ w := fun u hu heq => hw (heq ▸ hu)
  refine List.pairwise_cons.mpr ⟨fun u hu => ?_, h.imp_of_mem fun {u u'} hu hu' hlt => ?_⟩
  · have hpos' := hpos (List.ne_nil_of_mem hu)
    simp only [Lib.increase, if_true, if_neg (hne u hu)]
    split_ifs <;> omega
  · have hle' := hle u' hu'
    have htie := hbound u hu u' hu' hlt
    simp only [Lib.increase, if_neg (hne u hu), if_neg (hne u' hu')]
    split_ifs <;> omega

omit [DecidableEq ι] in
/-- The last place is the oldest. -/
theorem Ordered.le_getLast (h : Ordered age r) (hr : r ≠ []) :
    ∀ u ∈ r, age u ≤ age (r.getLast hr) := by
  intro u hu
  rcases eq_or_ne u (r.getLast hr) with heq | hne
  · exact heq ▸ le_rfl
  · rw [← List.dropLast_append_getLast hr] at h hu
    rcases List.mem_append.mp hu with hu | hu
    · exact ((List.pairwise_append.mp h).2.2 u hu _ (List.mem_singleton.mpr rfl)).le
    · exact absurd (List.mem_singleton.mp hu) hne

/-- A strictly increasing list between `k` and `k` plus its length has no gaps. -/
private theorem eq_range'_of_pairwise_lt {l : List ℕ} {k : ℕ} (h : l.Pairwise (· < ·))
    (hb : ∀ a ∈ l, k ≤ a ∧ a < k + l.length) : l = List.range' k l.length := by
  induction l generalizing k with
  | nil => rfl
  | cons a l ih =>
    obtain ⟨ha, hl⟩ := List.pairwise_cons.mp h
    obtain ⟨hka, hak⟩ := hb a (by simp)
    have hl' : l = List.range' (k + 1) l.length := ih hl fun b hb' => by
      have hab := ha b hb'
      have hbound := (hb b (List.mem_cons_of_mem a hb')).2
      rw [List.length_cons] at hbound
      omega
    have hak' : a = k := by
      cases hlen : l.length with
      | zero => rw [List.length_cons, hlen] at hak; omega
      | succ m =>
        have hmem : k + 1 ∈ l := by
          rw [hl', hlen, List.mem_range'_1]
          omega
        have := ha _ hmem
        omega
    rw [List.length_cons, List.range'_succ, ← hl', hak']

omit [DecidableEq ι] in
/-- **Ages without gaps are ranks.** -/
theorem Ordered.map_eq_range (h : Ordered age r) (hlt : ∀ u ∈ r, age u < r.length) :
    r.map age = List.range r.length := by
  rw [List.range_eq_range']
  have hmap : (r.map age).Pairwise (· < ·) := List.pairwise_map.mpr h
  have heq := eq_range'_of_pairwise_lt (k := 0) hmap fun a ha => by
    obtain ⟨u, hu, rfl⟩ := List.mem_map.mp ha
    simpa using hlt u hu
  rwa [List.length_map] at heq

/-- Ranks stay below the number of places in use. -/
theorem touch_lt {n : ℕ} (hlt : ∀ u ∈ r, age u < n) (hw : w ∈ r) :
    ∀ u ∈ r, touch age w u < n := by
  intro u hu
  have hage := hlt u hu
  have hagew := hlt w hw
  simp only [touch]
  split_ifs <;> omega

theorem touch_le (hle : ∀ u, age u ≤ bound) (u : ι) : touch age w u ≤ bound := by
  have hage := hle u
  have hagew := hle w
  simp only [touch]
  split_ifs <;> omega

theorem increase_le (hle : ∀ u, age u ≤ bound) (u : ι) : increase bound age w u ≤ bound := by
  have hage := hle u
  simp only [increase]
  split_ifs <;> omega

end MemoryHierarchy.Lib
