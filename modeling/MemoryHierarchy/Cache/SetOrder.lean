import MemoryHierarchy.Cache.Contents
import MemoryHierarchy.Lib.Ages
import MemoryHierarchy.Lib.Recency

/-!
# Valid ways and their ages

The two facts about a set that the operations rely on and do not check. `Packed`: the valid
ways are a prefix of the set, which is what makes it right for the lookup to stop at the first
invalid way (`lookup_eq_none_iff_of_packed`). `Ordered`: the ages increase from the most to the
least recently used way, which is what makes the oldest way the right victim
(`victimWay_eq_getLast`).

On the ages an insertion is one of two things, ageing all ways into a free way or taking over
the age of the victim (`ages_insertSet_of_free`, `ages_insertSet_of_full`).
-/

namespace MemoryHierarchy

open Lib Function

variable {g : Geometry}

/-! ### Packed sets -/

/-- The valid ways are a prefix of the set. -/
def Packed (set : CacheSet g) : Prop := ∀ w u, u < w → (set w).v = true → (set u).v = true

instance (set : CacheSet g) : Decidable (Packed set) := by
  unfold Packed
  infer_instance

theorem packed_cacheFlush (i : Fin g.lines) : Packed (cacheFlush g i) := by
  intro w u _ hv
  simp [cacheFlush] at hv

/-- In a packed set the lookup misses a line only if no way holds it. -/
theorem lookup_eq_none_iff_of_packed {cache : Cache g} {phyAddr : BitVec 32}
    (h : Packed (cache (extractLineIndex g phyAddr))) :
    lookup cache phyAddr = none ↔
      ∀ w, ¬ Holds cache (lineOf phyAddr) (extractLineIndex g phyAddr) w := by
  rw [lookup_eq_none_iff]
  refine forall_congr' fun w => ⟨fun hbehind hw => ?_, fun hnot hw => absurd hw hnot⟩
  obtain ⟨u, hlt, hu⟩ := hbehind hw
  exact absurd (h w u hlt hw.1) (by simp [hu])

/-- A set stays packed when the valid bits of its ways do not change. -/
theorem Packed.congr {set set' : CacheSet g} (h : Packed set)
    (hv : ∀ w, (set' w).v = (set w).v) : Packed set' := by
  intro w u hlt hw
  rw [hv] at hw ⊢
  exact h w u hlt hw

/-- An insertion into a packed set leaves it packed: the first free way extends the prefix. -/
protected theorem Packed.insertSet {set : CacheSet g} (h : Packed set) {entry : CacheEntry g}
    (hentry : entry.v = true) : Packed (insertSet set entry) := by
  intro w u hlt hw
  obtain ⟨way, hway⟩ := exists_insertWay set
  rcases eq_or_ne u way with rfl | hu
  · rw [(insertSet_self hway entry).1, hentry]
  · rw [(insertSet_of_ne hway entry hu).1]
    rcases eq_or_ne w way with rfl | hw'
    · exact valid_of_lt_insertWay hway hlt
    · rw [(insertSet_of_ne hway entry hw').1] at hw
      exact h w u hlt hw

/-! ### Ages -/

/-- The ages of a set. -/
def ages (set : CacheSet g) : Fin g.ways → ℕ := fun w => (set w).age

@[simp]
theorem ages_lruAgeUpdate (set : CacheSet g) (w : Fin g.ways) :
    ages (lruAgeUpdate set w) = touch (ages set) w := by
  funext u
  simp only [ages, lruAgeUpdate, touch, apply_ite CacheEntry.age]
  rfl

@[simp]
theorem ages_lruAgeIncrease (set : CacheSet g) (w : Fin g.ways) :
    ages (lruAgeIncrease set w) = increase (g.ways - 1) (ages set) w := by
  funext u
  simp only [ages, lruAgeIncrease, increase, apply_ite CacheEntry.age]
  rfl

/-- Replacing an entry by one of the same age leaves the ages alone. -/
theorem ages_update {set : CacheSet g} {w : Fin g.ways} {entry : CacheEntry g}
    (h : entry.age = (set w).age) : ages (update set w entry) = ages set := by
  funext u
  rcases eq_or_ne u w with rfl | hu
  · simp [ages, h]
  · simp [ages, update_of_ne hu]

theorem ages_touchSet (set : CacheSet g) (w : Fin g.ways) (line : Line) :
    ages (touchSet set w line) = touch (ages set) w := by
  rw [← ages_lruAgeUpdate]
  exact ages_update rfl

theorem ages_dropSet (set : CacheSet g) (w : Fin g.ways) (line : Line) :
    ages (dropSet set w line) = touch (ages set) w := by
  rw [← ages_lruAgeUpdate]
  exact ages_update rfl

/-- An insertion into a free way ages every other way. -/
theorem ages_insertSet_of_free {set : CacheSet g} {w : Fin g.ways} (h : emptyWay set = some w)
    (entry : CacheEntry g) :
    ages (insertSet set entry) = increase (g.ways - 1) (ages set) w := by
  rw [insertSet, h]
  funext u
  simp only [ages_lruAgeIncrease, increase]
  rcases eq_or_ne u w with rfl | hu
  · rw [if_pos rfl, if_pos rfl]
  · simp only [if_neg hu, ages, update_of_ne hu]
    rfl

/-- An insertion into a full set ages it as a use of the victim would. -/
theorem ages_insertSet_of_full {set : CacheSet g} {w : Fin g.ways} (h : emptyWay set = none)
    (hw : victimWay set = some w) (entry : CacheEntry g) :
    ages (insertSet set entry) = touch (ages set) w := by
  have hages : ages (update set w { entry with age := (set w).age }) = ages set :=
    ages_update rfl
  rw [insertSet, h]
  simp only [hw, ages_lruAgeUpdate, hages]

/-- **The victim is the least recently used way.** -/
theorem victimWay_eq_getLast {set : CacheSet g} {r : List (Fin g.ways)}
    (hmem : ∀ w, w ∈ r ↔ (set w).v = true) (hord : Ordered (ages set) r) (hr : r ≠ []) :
    victimWay set = some (r.getLast hr) := by
  have hlast : r.getLast hr ∈ r := List.getLast_mem hr
  obtain ⟨w, hw⟩ := exists_victimWay ((hmem _).mp hlast)
  obtain ⟨hv, hmax, -⟩ := victimWay_spec hw
  have hle : ages set w ≤ ages set (r.getLast hr) := hord.le_getLast hr w ((hmem w).mpr hv)
  have hge : ages set (r.getLast hr) ≤ ages set w := hmax _ ((hmem _).mp hlast)
  rw [hw, hord.inj ((hmem w).mpr hv) hlast (le_antisymm hle hge)]

end MemoryHierarchy
