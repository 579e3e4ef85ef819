import Mathlib.Logic.Function.Basic

/-!
# Flat memory

A total map from addresses to values, changed by one write at a time. A log of writes is
applied in order; what an address holds afterwards is the value of the latest write to it, or
the initial value if there was none (`applyWrites_apply`).
-/

namespace MemoryHierarchy.Lib

open Function

variable {α β : Type*} [DecidableEq α]

/-- The memory after a log of writes, applied in order. -/
def applyWrites (m : α → β) (ws : List (α × β)) : α → β :=
  ws.foldl (fun m w => update m w.1 w.2) m

/-- The value of the latest write to an address, if there was one. -/
def latestWrite (ws : List (α × β)) (a : α) : Option β :=
  (ws.reverse.find? (·.1 = a)).map (·.2)

@[simp]
theorem applyWrites_nil (m : α → β) : applyWrites m [] = m := rfl

@[simp]
theorem applyWrites_cons (m : α → β) (w : α × β) (ws : List (α × β)) :
    applyWrites m (w :: ws) = applyWrites (update m w.1 w.2) ws := rfl

theorem applyWrites_append (m : α → β) (ws ws' : List (α × β)) :
    applyWrites m (ws ++ ws') = applyWrites (applyWrites m ws) ws' :=
  List.foldl_append

theorem latestWrite_cons (w : α × β) (ws : List (α × β)) (a : α) :
    latestWrite (w :: ws) a = (latestWrite ws a).or (if w.1 = a then some w.2 else none) := by
  simp only [latestWrite, List.reverse_cons, List.find?_append, Option.map_or]
  by_cases h : w.1 = a <;> simp [h]

/-- **What a log leaves at an address.** -/
theorem applyWrites_apply (m : α → β) (ws : List (α × β)) (a : α) :
    applyWrites m ws a = (latestWrite ws a).getD (m a) := by
  induction ws generalizing m with
  | nil => rfl
  | cons w ws ih =>
    rw [applyWrites_cons, ih, latestWrite_cons]
    cases latestWrite ws a with
    | some b => rfl
    | none =>
      by_cases h : w.1 = a
      · simp [h]
      · simp [h, update_of_ne (Ne.symm h)]

/-- Writing what is already there changes nothing. -/
theorem applyWrites_eq_self {m : α → β} {ws : List (α × β)} (h : ∀ w ∈ ws, m w.1 = w.2) :
    applyWrites m ws = m := by
  induction ws with
  | nil => rfl
  | cons w ws ih =>
    rw [applyWrites_cons, ← h w (by simp), update_eq_self]
    exact ih fun w' hw' => h w' (List.mem_cons_of_mem w hw')

/-! ### Blocks of writes -/

section Overlay

variable {α β : Type*} {m : α → β} {block : α → Option β} {blocks : List (α → Option β)} {a : α}

/-- The memory after a block of values has been laid over it. -/
def overlay (m : α → β) (block : α → Option β) : α → β := fun a => (block a).getD (m a)

/-- The blocks share no address. -/
def Apart (block block' : α → Option β) : Prop := ∀ a, block a = none ∨ block' a = none

theorem overlay_of_none (h : block a = none) : overlay m block a = m a := by
  rw [overlay, h, Option.getD_none]

/-- Where no block lies the memory is as it was. -/
theorem overlays_of_none (h : ∀ block ∈ blocks, block a = none) :
    blocks.foldl overlay m a = m a := by
  induction blocks generalizing m with
  | nil => rfl
  | cons block blocks ih =>
    rw [List.foldl_cons, ih fun block' hblock' => h block' (List.mem_cons_of_mem block hblock'),
      overlay_of_none (h block List.mem_cons_self)]

/-- **Blocks that share no address** are all there. -/
theorem overlays_of_some (h : blocks.Pairwise Apart) (hblock : block ∈ blocks) {b : β}
    (hb : block a = some b) : blocks.foldl overlay m a = b := by
  induction blocks generalizing m with
  | nil => cases hblock
  | cons block' blocks ih =>
    obtain ⟨hapart, hblocks⟩ := List.pairwise_cons.mp h
    rw [List.foldl_cons]
    rcases List.mem_cons.mp hblock with rfl | hblock
    · rw [overlays_of_none fun other hother => (hapart other hother a).resolve_left (by simp [hb]),
        overlay, hb, Option.getD_some]
    · exact ih hblocks hblock

end Overlay

end MemoryHierarchy.Lib
