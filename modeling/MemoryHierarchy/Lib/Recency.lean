import Mathlib.Data.List.Dedup
import Mathlib.Data.List.FinRange
import Mathlib.Data.List.Induction
import Mathlib.Data.List.Pairwise

/-!
# Recency

The order least-recently-used replacement goes by: the distinct elements of a history, most
recently used first (`recency`), and the first `k` of them (`recent`). One more use moves an
element to the front (`recency_concat`) and drops what falls behind the first `k`
(`recent_concat`), so a table of `k` places that is kept in this order need never look at the
history again.
-/

namespace MemoryHierarchy.Lib

variable {α : Type*} [DecidableEq α]

/-- The distinct elements of a history, most recently used first. -/
def recency (history : List α) : List α := history.dedup.reverse

/-- The `k` most recently used elements. -/
def recent (k : ℕ) (history : List α) : List α := (recency history).take k

@[simp]
theorem recency_nil : recency ([] : List α) = [] := rfl

@[simp]
theorem recent_nil (k : ℕ) : recent k ([] : List α) = [] := by simp [recent]

@[simp]
theorem mem_recency {history : List α} {a : α} : a ∈ recency history ↔ a ∈ history := by
  simp [recency]

theorem nodup_recency (history : List α) : (recency history).Nodup :=
  List.nodup_reverse.mpr (List.nodup_dedup history)

theorem nodup_recent (k : ℕ) (history : List α) : (recent k history).Nodup :=
  (nodup_recency history).sublist (List.take_sublist _ _)

theorem length_recent_le (k : ℕ) (history : List α) : (recent k history).length ≤ k :=
  List.length_take_le _ _

private theorem dedup_concat (history : List α) (a : α) :
    (history ++ [a]).dedup = history.dedup.erase a ++ [a] := by
  induction history with
  | nil => rfl
  | cons b history ih =>
    rw [List.cons_append]
    by_cases hb : b ∈ history
    · rw [List.dedup_cons_of_mem (List.mem_append_left _ hb), ih, List.dedup_cons_of_mem hb]
    · rw [List.dedup_cons_of_notMem hb]
      by_cases hba : b = a
      · subst hba
        have hnot : b ∉ history.dedup := mt List.mem_dedup.mp hb
        rw [List.dedup_cons_of_mem (by simp), ih, List.erase_cons_head,
          List.erase_of_not_mem hnot]
      · rw [List.dedup_cons_of_notMem (by simp [hb, hba]), ih,
          List.erase_cons_tail (by simpa using hba), List.cons_append]

/-- One more use moves an element to the front. -/
theorem recency_concat (history : List α) (a : α) :
    recency (history ++ [a]) = a :: (recency history).erase a := by
  have hnodup := List.nodup_dedup history
  rw [recency, dedup_concat, List.reverse_append, List.reverse_singleton, recency,
    List.singleton_append, hnodup.erase_eq_filter, (List.nodup_reverse.mpr hnodup).erase_eq_filter,
    List.filter_reverse]

/-- One more use, seen through a filter that may change its mind about the used element: the
element is moved to the front, or left out. -/
theorem filter_recency_concat {p q : α → Bool} (history : List α) {a : α}
    (h : ∀ b ≠ a, q b = p b) :
    (recency (history ++ [a])).filter q =
      if q a then a :: ((recency history).filter p).erase a
      else ((recency history).filter p).erase a := by
  have hnodup := nodup_recency history
  have hrest : ((recency history).erase a).filter q = ((recency history).filter p).erase a := by
    rw [hnodup.erase_eq_filter, (hnodup.filter p).erase_eq_filter, List.filter_filter,
      List.filter_filter]
    refine List.filter_congr fun b _ => ?_
    rcases eq_or_ne b a with rfl | hb
    · simp
    · rw [h b hb, Bool.and_comm]
  rw [recency_concat, List.filter_cons, hrest]

/-- Using an element twice in a row is using it once. -/
theorem recency_concat_concat (history : List α) (a : α) :
    recency (history ++ [a] ++ [a]) = recency (history ++ [a]) := by
  rw [recency_concat, recency_concat, List.erase_cons_head]

/-- Erasing and taking one less depends on the first `k + 1` elements only. -/
private theorem take_erase (k : ℕ) (l : List α) (a : α) :
    (l.erase a).take k = ((l.take (k + 1)).erase a).take k := by
  induction l generalizing k with
  | nil => simp
  | cons b l ih =>
    rw [List.take_succ_cons]
    by_cases hba : b = a
    · subst hba
      rw [List.erase_cons_head, List.erase_cons_head, List.take_take, Nat.min_self]
    · rw [List.erase_cons_tail (by simpa using hba), List.erase_cons_tail (by simpa using hba)]
      cases k with
      | zero => rfl
      | succ k => rw [List.take_succ_cons, List.take_succ_cons, ih]

/-- **The table after one more use** is determined by the table before it. -/
theorem recent_concat (k : ℕ) (history : List α) (a : α) :
    recent k (history ++ [a]) = (a :: (recent k history).erase a).take k := by
  rw [recent, recency_concat, recent]
  cases k with
  | zero => rfl
  | succ k => rw [List.take_succ_cons, List.take_succ_cons, ← take_erase]

/-- A longer table holds what a shorter one does. -/
theorem mem_recent_of_le {k k' : ℕ} (hk : k ≤ k') {history : List α} {a : α}
    (h : a ∈ recent k history) : a ∈ recent k' history :=
  (List.take_subset_take_left _ hk) h

/-- The first element is the one just used. -/
theorem head?_recent {k : ℕ} (hk : 0 < k) (history : List α) :
    (recent k history).head? = history.getLast? := by
  rw [recent, List.head?_take, if_neg hk.ne']
  induction history using List.reverseRecOn with
  | nil => rfl
  | append_singleton history a _ => rw [recency_concat, List.head?_cons, List.getLast?_concat]

/-- Using a recent element does not make the table longer. -/
theorem recent_concat_of_mem {k : ℕ} {history : List α} {a : α} (h : a ∈ recent k history) :
    recent k (history ++ [a]) = a :: (recent k history).erase a := by
  rw [recent_concat, List.take_of_length_le]
  have hlen := length_recent_le k history
  have hpos := List.length_pos_of_mem h
  rw [List.length_cons, List.length_erase_of_mem h]
  omega

/-- A new element enters a table that is not full at the front. -/
theorem recent_concat_of_lt {k : ℕ} {history : List α} {a : α} (h : a ∉ recent k history)
    (hlt : (recent k history).length < k) :
    recent k (history ++ [a]) = a :: recent k history := by
  rw [recent_concat, List.erase_of_not_mem h, List.take_of_length_le hlt]

/-- A new element entering a full table drives out the last one. -/
theorem recent_concat_of_full {k : ℕ} {history : List α} {a : α} (h : a ∉ recent k history)
    (hfull : (recent k history).length = k) (hk : 0 < k) :
    recent k (history ++ [a]) = a :: (recent k history).dropLast := by
  obtain ⟨k, rfl⟩ := Nat.exists_eq_add_of_lt hk
  rw [recent_concat, List.erase_of_not_mem h, List.take_succ_cons, List.dropLast_eq_take, hfull]
  simp

/-! ### A list kept in order of use

A list of `k` places, the least recently used first, holds the places never used and then the
`k` most recently used elements backwards. Moving a place to the end is all it takes to keep it so,
whether its element was found there (`lruOrder_concat_of_mem`) or replaces what the first place
held (`lruOrder_concat_of_not_mem`). -/

/-- What `k` places hold, from the least to the most recently used. -/
def lruOrder (k : ℕ) (history : List α) : List (Option α) :=
  List.replicate (k - (recent k history).length) none ++ (recent k history).reverse.map some

theorem lruOrder_nil (k : ℕ) : lruOrder k ([] : List α) = List.replicate k none := by
  simp [lruOrder]

theorem some_mem_lruOrder {k : ℕ} {history : List α} {a : α} :
    some a ∈ lruOrder k history ↔ a ∈ recent k history := by
  simp [lruOrder]

theorem length_lruOrder (k : ℕ) (history : List α) : (lruOrder k history).length = k := by
  have hlen := length_recent_le k history
  simp [lruOrder]
  omega

/-- No element is held twice. -/
theorem pairwise_lruOrder (k : ℕ) (history : List α) :
    (lruOrder k history).Pairwise fun x y => ∀ a, x = some a → y ≠ some a := by
  refine List.pairwise_append.mpr ⟨?_, ?_, ?_⟩
  · refine List.pairwise_replicate.mpr (.inr ?_)
    rintro a ⟨⟩
  · rw [List.pairwise_map]
    refine (List.nodup_reverse.mpr (nodup_recent k history)).imp ?_
    rintro x y hne a ⟨⟩ ⟨⟩
    exact hne rfl
  · intro x hx y _ a hxa
    rw [List.eq_of_mem_replicate hx] at hxa
    exact absurd hxa (by simp)

/-- Two places of a list in this order that hold the same element are one. -/
theorem eq_of_map_eq_lruOrder {β : Type*} {k : ℕ} {history : List α} {l : List β}
    {f : β → Option α} (h : l.map f = lruOrder k history) {x y : β} (hx : x ∈ l) (hy : y ∈ l)
    {a : α} (hxa : f x = some a) (hya : f y = some a) : x = y := by
  have hpairwise := h ▸ pairwise_lruOrder k history
  rw [List.pairwise_map] at hpairwise
  by_contra hne
  have : Std.Symm fun x y => ∀ a, f x = some a → f y ≠ some a :=
    ⟨fun _ _ hxy a hy hx => hxy a hx hy⟩
  exact hpairwise.forall hx hy hne a hxa hya

/-- Using an element that is held moves its place to the end. -/
theorem lruOrder_concat_of_mem {k : ℕ} {history : List α} {a : α} {pre post : List (Option α)}
    (h : lruOrder k history = pre ++ some a :: post) :
    lruOrder k (history ++ [a]) = pre ++ post ++ [some a] := by
  have ha : a ∈ recent k history := some_mem_lruOrder.mp (by rw [h]; simp)
  have hpre : some a ∉ pre := by
    intro hmem
    have hpairwise := h ▸ pairwise_lruOrder k history
    exact (List.pairwise_append.mp hpairwise).2.2 _ hmem _ List.mem_cons_self a rfl rfl
  -- erasing the element from the held ones is taking its place out of the list
  have herase : List.replicate (k - (recent k history).length) none ++
      ((recent k history).erase a).reverse.map some = pre ++ post := by
    have hrest : (lruOrder k history).erase (some a) = pre ++ post := by
      rw [h, List.erase_append_right _ hpre, List.erase_cons_head]
    rw [← hrest, lruOrder, List.erase_append_right _ (by simp),
      ← List.map_erase (Option.some_injective α), (nodup_recent k history).erase_eq_filter,
      (List.nodup_reverse.mpr (nodup_recent k history)).erase_eq_filter, List.filter_reverse]
  have hlen : ((recent k history).erase a).length + 1 = (recent k history).length :=
    List.length_erase_add_one ha
  rw [lruOrder, recent_concat_of_mem ha, List.length_cons, hlen, List.reverse_cons,
    List.map_append, ← List.append_assoc, herase]
  rfl

/-- Using an element that is not held puts it in the first place, which moves to the end. -/
theorem lruOrder_concat_of_not_mem {k : ℕ} {history : List α} {a : α} (ha : a ∉ recent k history)
    {x : Option α} {rest : List (Option α)} (h : lruOrder k history = x :: rest) :
    lruOrder k (history ++ [a]) = rest ++ [some a] := by
  have hk : 0 < k := by
    rw [← length_lruOrder k history, h]
    exact Nat.succ_pos _
  obtain hlt | hfull := (length_recent_le k history).lt_or_eq
  · obtain ⟨j, hj⟩ := Nat.exists_eq_add_of_lt hlt
    have hnow : k - (recent k history).length = j + 1 := by omega
    have hthen : k - ((recent k history).length + 1) = j := by omega
    rw [lruOrder, hnow, List.replicate_succ, List.cons_append, List.cons_eq_cons] at h
    rw [lruOrder, recent_concat_of_lt ha hlt, List.length_cons, hthen, List.reverse_cons,
      List.map_append, ← List.append_assoc, h.2]
    rfl
  · have hlen : (a :: (recent k history).dropLast).length = k := by
      rw [List.length_cons, List.length_dropLast, hfull, Nat.sub_add_cancel hk]
    rw [lruOrder, hfull, Nat.sub_self, List.replicate_zero, List.nil_append] at h
    rw [lruOrder, recent_concat_of_full ha hfull hk, hlen, Nat.sub_self, List.replicate_zero,
      List.nil_append, List.reverse_cons, List.map_append, ← List.tail_reverse, List.map_tail, h]
    rfl

/-! ### Counting -/

/-- A table of `n` places that uses all of them has `n` entries. -/
theorem length_eq_of_forall_mem {n : ℕ} {l : List (Fin n)} (hnodup : l.Nodup)
    (h : ∀ a, a ∈ l) : l.length = n := by
  have hperm : l.Perm (List.finRange n) :=
    (List.perm_ext_iff_of_nodup hnodup (List.nodup_finRange n)).mpr fun a =>
      iff_of_true (h a) (List.mem_finRange a)
  rw [hperm.length_eq, List.length_finRange]

end MemoryHierarchy.Lib
