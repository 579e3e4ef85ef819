import MemoryHierarchy.Lib.Recency
import Mathlib.Logic.Function.Basic

/-!
# Slots in order of use

A least-recently-used cache that does not move what it holds: a list of places in order of use, the
least recently used first, each with the element it holds. Using an element that some place holds
moves that place to the end; using another one puts it into the first place, which then moves to
the end (`use`). Read along the list, the elements are those of `lruOrder` (`map_snd_uses`), and
read by place they are a table of which one use changes one entry at most (`contents_use_of_mem`,
`contents_use_of_not_mem`).
-/

namespace MemoryHierarchy.Lib

open Function

variable {ι α : Type*}

/-- The slots after a use of `a`. -/
def use [DecidableEq ι] [DecidableEq α] (slots : List (ι × Option α)) (a : α) :
    List (ι × Option α) :=
  match slots.find? fun slot => slot.2 = some a with
  | some slot => slots.erase slot ++ [slot]
  | none =>
    match slots with
    | [] => []
    | slot :: rest => rest ++ [(slot.1, some a)]

/-- What the place `i` holds. -/
def contents [DecidableEq ι] (slots : List (ι × Option α)) (i : ι) : Option α :=
  (slots.find? fun slot => slot.1 = i).bind Prod.snd

/-- No place is listed twice, and no two hold the same element. -/
structure Distinct (slots : List (ι × Option α)) : Prop where
  places : (slots.map Prod.fst).Nodup
  elements : (slots.map Prod.snd).Pairwise fun x y => ∀ a, x = some a → y ≠ some a

variable {slots pre post rest : List (ι × Option α)} {slot : ι × Option α} {i : ι} {a : α}

/-- The place that holds an element is the only one. -/
theorem Distinct.ne_some (h : Distinct (pre ++ (i, some a) :: post)) :
    (∀ slot ∈ pre, slot.2 ≠ some a) ∧ ∀ slot ∈ post, slot.2 ≠ some a := by
  have helements := h.elements
  rw [List.map_append, List.map_cons, List.pairwise_append, List.pairwise_cons] at helements
  obtain ⟨-, ⟨hpost, -⟩, hpre⟩ := helements
  refine ⟨fun slot hslot hheld => ?_, fun slot hslot => ?_⟩
  · exact hpre _ (List.mem_map_of_mem hslot) _ List.mem_cons_self a hheld rfl
  · exact hpost _ (List.mem_map_of_mem hslot) a rfl

variable [DecidableEq ι]

/-! ### By place -/

/-- What a listed place holds. -/
theorem contents_of_mem (h : (slots.map Prod.fst).Nodup) (hslot : slot ∈ slots) :
    contents slots slot.1 = slot.2 := by
  induction slots with
  | nil => exact nomatch hslot
  | cons s slots ih =>
    rw [List.map_cons, List.nodup_cons] at h
    rcases List.mem_cons.mp hslot with rfl | hslot
    · rw [contents, List.find?_cons_of_pos (by simp), Option.bind_some]
    · have hne : s.1 ≠ slot.1 := fun heq => h.1 (heq ▸ List.mem_map_of_mem hslot)
      rw [contents, List.find?_cons_of_neg (by simpa using hne)]
      exact ih h.2 hslot

/-- A place that is not listed holds nothing. -/
theorem contents_of_not_mem (h : i ∉ slots.map Prod.fst) : contents slots i = none := by
  rw [contents, List.find?_eq_none.mpr, Option.bind_none]
  intro slot hslot
  simp only [decide_eq_true_eq]
  exact fun heq => h (heq ▸ List.mem_map_of_mem hslot)

/-- The order of the places does not matter. -/
theorem contents_perm {slots' : List (ι × Option α)} (h : (slots.map Prod.fst).Nodup)
    (hperm : slots'.Perm slots) : contents slots' = contents slots := by
  have h' : (slots'.map Prod.fst).Nodup := (hperm.map Prod.fst).nodup_iff.mpr h
  funext i
  by_cases hi : i ∈ slots.map Prod.fst
  · obtain ⟨slot, hslot, rfl⟩ := List.mem_map.mp hi
    rw [contents_of_mem h hslot, contents_of_mem h' (hperm.mem_iff.mpr hslot)]
  · rw [contents_of_not_mem hi,
      contents_of_not_mem (mt ((hperm.map Prod.fst).mem_iff.mp ·) hi)]

/-! ### One use -/

variable [DecidableEq α]

/-- **Using an element that is held** moves its place to the end. -/
theorem use_of_mem (h : Distinct (pre ++ (i, some a) :: post)) :
    use (pre ++ (i, some a) :: post) a = pre ++ post ++ [(i, some a)] := by
  have hpre := h.ne_some.1
  have hfind : (pre ++ (i, some a) :: post).find? (fun slot => slot.2 = some a) =
      some (i, some a) := by
    rw [List.find?_append, List.find?_eq_none.mpr (by simpa using hpre), Option.none_or,
      List.find?_cons_of_pos (by simp)]
  have hnot : (i, some a) ∉ pre := fun hmem => hpre _ hmem rfl
  simp only [use, hfind]
  rw [List.erase_append_right _ hnot, List.erase_cons_head]

/-- **Using an element that is not held** puts it into the first place. -/
theorem use_of_not_mem (h : ∀ s ∈ slot :: rest, s.2 ≠ some a) :
    use (slot :: rest) a = rest ++ [(slot.1, some a)] := by
  simp only [use]
  rw [List.find?_eq_none.mpr (by simpa using h)]

/-- The places listed are the same. -/
theorem perm_places_use (h : Distinct slots) (a : α) :
    ((use slots a).map Prod.fst).Perm (slots.map Prod.fst) := by
  by_cases hheld : ∃ slot ∈ slots, slot.2 = some a
  · obtain ⟨⟨i, held⟩, hslot, rfl⟩ := hheld
    obtain ⟨pre, post, rfl⟩ := List.append_of_mem hslot
    rw [use_of_mem h]
    refine List.Perm.map _ ((List.perm_append_singleton _ _).trans List.perm_middle.symm)
  · cases slots with
    | nil => exact .refl _
    | cons slot rest =>
      rw [use_of_not_mem fun s hs heq => hheld ⟨s, hs, heq⟩, List.map_append, List.map_singleton,
        List.map_cons]
      exact List.perm_append_singleton _ _

/-- One use keeps the places, and the elements, apart. -/
theorem Distinct.use (h : Distinct slots) (a : α) : Distinct (use slots a) := by
  refine ⟨(perm_places_use h a).nodup_iff.mpr h.places, ?_⟩
  by_cases hheld : ∃ slot ∈ slots, slot.2 = some a
  · obtain ⟨⟨i, held⟩, hslot, rfl⟩ := hheld
    obtain ⟨pre, post, rfl⟩ := List.append_of_mem hslot
    obtain ⟨hpre, hpost⟩ := h.ne_some
    have helements := h.elements.sublist
      (((List.sublist_cons_self (i, some a) post).append_left pre).map Prod.snd)
    rw [use_of_mem h, List.map_append, List.pairwise_append]
    refine ⟨helements, List.pairwise_singleton _ _, ?_⟩
    intro x hx y hy b hxb hyb
    obtain ⟨slot, hslot, rfl⟩ := List.mem_map.mp hx
    obtain rfl := List.mem_singleton.mp hy
    obtain rfl := Option.some_injective _ hyb
    rcases List.mem_append.mp hslot with hslot | hslot
    · exact hpre slot hslot hxb
    · exact hpost slot hslot hxb
  · cases slots with
    | nil => exact h.elements
    | cons slot rest =>
      have hnot : ∀ s ∈ slot :: rest, s.2 ≠ some a := fun s hs heq => hheld ⟨s, hs, heq⟩
      rw [use_of_not_mem hnot, List.map_append, List.pairwise_append]
      refine ⟨h.elements.sublist ((List.sublist_cons_self slot rest).map Prod.snd),
        List.pairwise_singleton _ _, ?_⟩
      intro x hx y hy b hxb hyb
      obtain ⟨s, hs, rfl⟩ := List.mem_map.mp hx
      obtain rfl := List.mem_singleton.mp hy
      obtain rfl := Option.some_injective _ hyb
      exact hnot s (List.mem_cons_of_mem slot hs) hxb

/-- **The table stays** when an element is used that it holds. -/
theorem contents_use_of_mem (h : Distinct (pre ++ (i, some a) :: post)) :
    contents (use (pre ++ (i, some a) :: post) a) = contents (pre ++ (i, some a) :: post) := by
  rw [use_of_mem h]
  exact contents_perm h.places
    ((List.perm_append_singleton _ _).trans List.perm_middle.symm)

/-- **The first place is filled** when an element is used that the table does not hold. -/
theorem contents_use_of_not_mem (h : Distinct (slot :: rest))
    (hnot : ∀ s ∈ slot :: rest, s.2 ≠ some a) :
    contents (use (slot :: rest) a) = update (contents (slot :: rest)) slot.1 (some a) := by
  have h' := (h.use a).places
  rw [use_of_not_mem hnot] at h' ⊢
  funext i
  rcases eq_or_ne i slot.1 with rfl | hi
  · rw [update_self]
    exact contents_of_mem h' (List.mem_append_right rest (List.mem_singleton_self _))
  · rw [update_of_ne hi]
    by_cases hmem : i ∈ rest.map Prod.fst
    · obtain ⟨s, hs, rfl⟩ := List.mem_map.mp hmem
      rw [contents_of_mem h' (List.mem_append_left _ hs),
        contents_of_mem h.places (List.mem_cons_of_mem slot hs)]
    · rw [contents_of_not_mem (by simp [hmem, hi]), contents_of_not_mem (by simpa [hi] using hmem)]

/-! ### Many uses -/

/-- The slots of the given places, after a history of uses. -/
def uses (places : List ι) (history : List α) : List (ι × Option α) :=
  history.foldl use (places.map fun i => (i, none))

theorem uses_concat (places : List ι) (history : List α) (a : α) :
    uses places (history ++ [a]) = use (uses places history) a := by
  rw [uses, List.foldl_append]
  rfl

theorem distinct_uses {places : List ι} (h : places.Nodup) (history : List α) :
    Distinct (uses places history) := by
  induction history using List.reverseRecOn with
  | nil =>
    refine ⟨?_, ?_⟩
    · rw [uses, List.foldl_nil, List.map_map]
      exact (List.map_id places).symm ▸ h
    · rw [uses, List.foldl_nil, List.map_map, List.pairwise_map]
      exact List.pairwise_of_forall fun _ _ _ hnone => nomatch hnone
  | append_singleton history a ih =>
    rw [uses_concat]
    exact ih.use a

/-- The places are those given. -/
theorem length_uses {places : List ι} (h : places.Nodup) (history : List α) :
    (uses places history).length = places.length := by
  induction history using List.reverseRecOn with
  | nil => exact List.length_map _
  | append_singleton history a ih =>
    have hperm := (perm_places_use (distinct_uses h history) a).length_eq
    rw [List.length_map, List.length_map] at hperm
    rw [uses_concat, hperm, ih]

/-- **Along the list** stand the elements from the least to the most recently used. -/
theorem map_snd_uses {places : List ι} (h : places.Nodup) (hpos : 0 < places.length)
    (history : List α) : (uses places history).map Prod.snd = lruOrder places.length history := by
  induction history using List.reverseRecOn with
  | nil =>
    rw [uses, List.foldl_nil, List.map_map, lruOrder_nil]
    exact List.map_const'
  | append_singleton history a ih =>
    have hdistinct := distinct_uses h history
    rw [uses_concat]
    by_cases hheld : ∃ slot ∈ uses places history, slot.2 = some a
    · obtain ⟨⟨i, held⟩, hslot, rfl⟩ := hheld
      obtain ⟨pre, post, hsplit⟩ := List.append_of_mem hslot
      rw [hsplit] at hdistinct ih ⊢
      rw [use_of_mem hdistinct]
      rw [List.map_append, List.map_cons] at ih
      rw [lruOrder_concat_of_mem ih.symm, List.map_append, List.map_append, List.map_singleton]
    · have hmem : a ∉ recent places.length history := by
        rw [← some_mem_lruOrder, ← ih]
        exact fun hmem => hheld (List.mem_map.mp hmem)
      cases hslots : uses places history with
      | nil =>
        rw [hslots] at ih
        have hlength := congrArg List.length ih
        rw [length_lruOrder] at hlength
        exact absurd hlength.symm hpos.ne'
      | cons slot rest =>
        rw [hslots] at ih hheld
        rw [use_of_not_mem fun s hs heq => hheld ⟨s, hs, heq⟩,
          lruOrder_concat_of_not_mem hmem ih.symm, List.map_append]
        rfl

/-- So an element is held exactly if it is recent. -/
theorem exists_held_uses_iff {places : List ι} (h : places.Nodup) (hpos : 0 < places.length)
    {history : List α} : (∃ slot ∈ uses places history, slot.2 = some a) ↔
      a ∈ recent places.length history := by
  rw [← some_mem_lruOrder, ← map_snd_uses h hpos, List.mem_map]

end MemoryHierarchy.Lib
