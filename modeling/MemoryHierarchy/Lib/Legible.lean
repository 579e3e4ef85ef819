import MemoryHierarchy.Lib.CText

/-!
# Legible texts

A printer `f` is legible up to `E` when its texts can be told apart, and their ends found, whatever
is printed behind them: two texts with something behind them are only equal when what they were
printed for is related by `E`. Printers that are legible stay so when they are put one behind the
other, so that a format is legible because its fields are: constant texts, texts of fixed length,
and numerals that end before a character that is no digit.
-/

namespace MemoryHierarchy.Lib

variable {α β ι : Type*} {E F : α → α → Prop} {f g : α → List β}

/-- The text `f a`, wherever it stands, shows `a` up to `E`, and where it ends. -/
def Legible (E : α → α → Prop) (f : α → List β) : Prop :=
  ∀ ⦃a b r s⦄, f a ++ r = f b ++ s → E a b ∧ r = s

/-- Nothing needs to stand behind the text. -/
theorem Legible.related (h : Legible E f) {a b : α} (hab : f a = f b) : E a b :=
  (h (congrArg (· ++ []) hab)).1

/-- A printer that prints the same texts. -/
theorem Legible.congr (h : Legible E f) (hfg : ∀ a, g a = f a) : Legible E g := by
  intro a b r s heq
  rw [hfg, hfg] at heq
  exact h heq

theorem Legible.mono (h : Legible E f) (hEF : ∀ a b, E a b → F a b) : Legible F f :=
  fun _ _ _ _ heq => (h heq).imp_left (hEF _ _)

/-- A text that shows what `a` is mapped to. -/
theorem Legible.comp (h : Legible E f) {γ : Type*} (φ : γ → α) :
    Legible (fun a b => E (φ a) (φ b)) (f ∘ φ) := fun _ _ _ _ heq => h heq

/-- A text that is always the same shows nothing but its end. -/
theorem legible_const (t : List β) : Legible (fun _ _ : α => True) fun _ => t :=
  fun _ _ _ _ heq => ⟨trivial, List.append_cancel_left heq⟩

/-- Two texts, one behind the other. -/
theorem Legible.append (hf : Legible E f) (hg : Legible F g) :
    Legible (fun a b => E a b ∧ F a b) fun a => f a ++ g a := by
  intro a b r s heq
  rw [List.append_assoc, List.append_assoc] at heq
  obtain ⟨hE, hrest⟩ := hf heq
  obtain ⟨hF, hrs⟩ := hg hrest
  exact ⟨⟨hE, hF⟩, hrs⟩

/-- Texts for the items of a list, one behind the other. -/
theorem legible_flatMap {G : ι → α → α → Prop} {f : ι → α → List β} (items : List ι)
    (h : ∀ i ∈ items, Legible (G i) (f i)) :
    Legible (fun a b => ∀ i ∈ items, G i a b) fun a => items.flatMap fun i => f i a := by
  induction items with
  | nil => exact (legible_const []).mono fun _ _ _ i hi => nomatch hi
  | cons i items ih =>
    simp only [List.flatMap_cons, List.forall_mem_cons] at h ⊢
    exact h.1.append (ih h.2)

/-- Texts of one length that differ where they should. -/
theorem legible_of_length {n : ℕ} (hlength : ∀ a, (f a).length = n)
    (hf : ∀ a b, f a = f b → E a b) : Legible E f := by
  intro a b r s heq
  obtain ⟨hab, hrs⟩ := List.append_inj heq ((hlength a).trans (hlength b).symm)
  exact ⟨hf a b hab, hrs⟩

/-- A text that ends before the first character that `p` does not hold of. -/
theorem legible_of_terminated {p : β → Bool} {c : β} {t : List β}
    (hp : ∀ a, ∀ x ∈ f a, p x = true) (hc : p c = false) (hf : ∀ a b, f a = f b → E a b) :
    Legible E fun a => f a ++ c :: t := by
  have htake : ∀ a r, (f a ++ c :: t ++ r).takeWhile p = f a := by
    intro a r
    rw [List.append_assoc, List.takeWhile_append_of_pos (hp a), List.cons_append,
      List.takeWhile_cons_of_neg (by rw [hc]; exact Bool.false_ne_true), List.append_nil]
  intro a b r s heq
  have hab : f a = f b := by
    rw [← htake a r, ← htake b s]
    exact congrArg _ heq
  change f a ++ c :: t ++ r = f b ++ c :: t ++ s at heq
  rw [hab] at heq
  exact ⟨hf a b hab, List.append_cancel_left heq⟩

/-- Texts for the items of two lists of one length, one behind the other. -/
theorem Legible.forall₂ (h : Legible E f) {as bs : List α} (hlength : as.length = bs.length)
    {r s : List β} (heq : as.flatMap f ++ r = bs.flatMap f ++ s) :
    List.Forall₂ E as bs ∧ r = s := by
  induction as generalizing bs with
  | nil =>
    obtain rfl := List.length_eq_zero_iff.mp hlength.symm
    exact ⟨.nil, heq⟩
  | cons a as ih =>
    obtain ⟨b, bs, rfl⟩ := List.exists_cons_of_length_eq_add_one hlength.symm
    rw [List.flatMap_cons, List.flatMap_cons, List.append_assoc, List.append_assoc] at heq
    obtain ⟨hab, hrest⟩ := h heq
    obtain ⟨hall, hrs⟩ := ih (Nat.succ.inj hlength) hrest
    exact ⟨.cons hab hall, hrs⟩

/-! ### Numerals -/

/-- The characters of a literal. -/
def chars (s : String) : List (BitVec 8) := s.toList.map ch

/-- Upper-case numerals in front of a character that is no digit. -/
theorem legible_printHex (width : ℕ) {c : BitVec 8} {t : List (BitVec 8)} (hc : ¬ IsHex c) :
    Legible Eq fun n : ℕ => printHex width n ++ c :: t :=
  legible_of_terminated (p := fun b => isxdigit b.toNat) (fun _ _ => isHex_of_mem_printHex)
    (Bool.eq_false_iff.mpr hc)
    fun m n h => by rw [← numeral_printHex width m, h, numeral_printHex]

/-- Decimal numerals in front of a character that is no digit. -/
theorem legible_printDec {c : BitVec 8} {t : List (BitVec 8)} (hc : ¬ IsHex c) :
    Legible Eq fun n : ℕ => printDec n ++ c :: t :=
  legible_of_terminated (p := fun b => isxdigit b.toNat) (fun _ _ => isHex_of_mem_printDec)
    (Bool.eq_false_iff.mpr hc) fun m n h => by rw [← numeral_printDec m, h, numeral_printDec]

/-- Upper-case numerals of exactly `width` digits, for numbers that have no more. -/
theorem legible_printHex_width (width : ℕ) {φ : α → ℕ} (hφ : ∀ a, φ a < 16 ^ width) :
    Legible (fun a b => φ a = φ b) fun a => printHex width (φ a) :=
  legible_of_length (fun a => le_antisymm (length_printHex_le le_rfl (hφ a))
    (le_length_printHex _ _)) fun a b h => by
      rw [← numeral_printHex width (φ a), h, numeral_printHex]

/-- `tolower`, for letters and digits. -/
def tolower (b : BitVec 8) : BitVec 8 :=
  if 65 ≤ b.toNat ∧ b.toNat ≤ 90 then b + 32 else b

/-- `"%0<width>x"`: the digits of `"%0<width>X"`, in lower case. -/
def printHexLower (width n : ℕ) : List (BitVec 8) := (printHex width n).map tolower

/-- A digit is a digit in lower case too, of the same value. -/
theorem digit_tolower {b : BitVec 8} (h : IsHex b) :
    IsHex (tolower b) ∧ digitValue (tolower b) = digitValue b := by
  revert b
  decide

theorem isHex_of_mem_printHexLower {width n : ℕ} {b : BitVec 8} (hb : b ∈ printHexLower width n) :
    IsHex b := by
  obtain ⟨c, hc, rfl⟩ := List.mem_map.mp hb
  exact (digit_tolower (isHex_of_mem_printHex hc)).1

theorem numeral_printHexLower (width n : ℕ) : numeral 16 (printHexLower width n) = n := by
  have hmap : ∀ ds : List (BitVec 8), (∀ d ∈ ds, IsHex d) →
      numeral 16 (ds.map tolower) = numeral 16 ds := by
    intro ds
    induction ds using List.reverseRecOn with
    | nil => exact fun _ => rfl
    | append_singleton ds d ih =>
      intro hds
      rw [List.map_append, List.map_singleton, numeral_concat, numeral_concat,
        ih fun e he => hds e (List.mem_append_left _ he), (digit_tolower (hds d (by simp))).2]
  rw [printHexLower, hmap _ fun _ => isHex_of_mem_printHex, numeral_printHex]

/-- Lower-case numerals in front of a character that is no digit. -/
theorem legible_printHexLower (width : ℕ) {c : BitVec 8} {t : List (BitVec 8)} (hc : ¬ IsHex c) :
    Legible Eq fun n : ℕ => printHexLower width n ++ c :: t :=
  legible_of_terminated (p := fun b => isxdigit b.toNat)
    (fun _ _ => isHex_of_mem_printHexLower) (Bool.eq_false_iff.mpr hc)
    fun m n h => by rw [← numeral_printHexLower width m, h, numeral_printHexLower]

end MemoryHierarchy.Lib
