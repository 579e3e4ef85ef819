import Mathlib.Data.List.Nodup
import Mathlib.Logic.Function.Basic

/-!
# Doubly linked segments in a heap

A heap maps addresses to nodes; an address with no node may not be dereferenced. `Linked` says
that the nodes of a list stand in the heap, each at its address and linked both ways, between
two outer neighbours. A segment splits at every point (`linked_append`) and depends on its own
addresses only (`Linked.congr`), so pointer surgery is done on the two ends that meet: a write
to the `next` of the last node changes the neighbour after a segment
(`Linked.exists_setNext`), a write to the `previous` of the first node the one before it
(`Linked.exists_setPrevious`).
-/

namespace MemoryHierarchy.Lib

open Function

/-- A node of a doubly linked list. A null pointer is `none`. -/
structure Node (P α : Type*) where
  value : α
  previous : Option P
  next : Option P
  deriving DecidableEq

variable {P α : Type*}

/-! ### The ends of a segment -/

/-- The address a segment starts at, or its neighbour if it is empty. -/
def firstAddr : List (P × α) → Option P → Option P
  | [], after => after
  | n :: _, _ => some n.1

/-- The address a segment ends at, or its neighbour if it is empty. -/
def lastAddr : Option P → List (P × α) → Option P
  | before, [] => before
  | _, n :: l => lastAddr (some n.1) l

@[simp]
theorem firstAddr_nil (after : Option P) : firstAddr ([] : List (P × α)) after = after := rfl

@[simp]
theorem firstAddr_cons (n : P × α) (l : List (P × α)) (after : Option P) :
    firstAddr (n :: l) after = some n.1 := rfl

@[simp]
theorem lastAddr_nil (before : Option P) : lastAddr before ([] : List (P × α)) = before := rfl

@[simp]
theorem lastAddr_cons (before : Option P) (n : P × α) (l : List (P × α)) :
    lastAddr before (n :: l) = lastAddr (some n.1) l := rfl

@[simp]
theorem firstAddr_append (l₁ l₂ : List (P × α)) (after : Option P) :
    firstAddr (l₁ ++ l₂) after = firstAddr l₁ (firstAddr l₂ after) := by
  cases l₁ <;> rfl

@[simp]
theorem lastAddr_append (before : Option P) (l₁ l₂ : List (P × α)) :
    lastAddr before (l₁ ++ l₂) = lastAddr (lastAddr before l₁) l₂ := by
  induction l₁ generalizing before with
  | nil => rfl
  | cons n l₁ ih => exact ih (some n.1)

/-- Distinct addresses, one node taken out of the middle. -/
theorem nodup_addrs_middle {l₁ l₂ : List (P × α)} {n : P × α} :
    ((l₁ ++ n :: l₂).map Prod.fst).Nodup ↔
      n.1 ∉ (l₁ ++ l₂).map Prod.fst ∧ ((l₁ ++ l₂).map Prod.fst).Nodup := by
  rw [List.map_append, List.map_cons, List.nodup_middle, List.nodup_cons, List.map_append]

/-- Distinct addresses, one node taken off the end. -/
theorem nodup_addrs_concat {l : List (P × α)} {n : P × α} :
    ((l ++ [n]).map Prod.fst).Nodup ↔ n.1 ∉ l.map Prod.fst ∧ (l.map Prod.fst).Nodup := by
  rw [nodup_addrs_middle, List.append_nil]

/-! ### Segments -/

/-- The nodes of a list, each at its address, linked both ways between `before` and
`after`. -/
def Linked (heap : P → Option (Node P α)) : Option P → List (P × α) → Option P → Prop
  | _, [], _ => True
  | before, n :: l, after =>
    heap n.1 = some ⟨n.2, before, firstAddr l after⟩ ∧ Linked heap (some n.1) l after

variable {heap heap' : P → Option (Node P α)} {before after : Option P} {l l₁ l₂ : List (P × α)}
  {n : P × α}

@[simp]
theorem linked_nil : Linked heap before ([] : List (P × α)) after := trivial

theorem linked_cons :
    Linked heap before (n :: l) after ↔
      heap n.1 = some ⟨n.2, before, firstAddr l after⟩ ∧ Linked heap (some n.1) l after :=
  Iff.rfl

theorem linked_singleton :
    Linked heap before [n] after ↔ heap n.1 = some ⟨n.2, before, after⟩ :=
  and_iff_left trivial

/-- **A segment splits** at every point, each part being the other's neighbour. -/
theorem linked_append :
    Linked heap before (l₁ ++ l₂) after ↔
      Linked heap before l₁ (firstAddr l₂ after) ∧ Linked heap (lastAddr before l₁) l₂ after := by
  induction l₁ generalizing before with
  | nil => simp
  | cons n l₁ ih =>
    rw [List.cons_append, linked_cons, linked_cons, ih, firstAddr_append, lastAddr_cons,
      and_assoc]

/-- The node in the middle of a segment knows both its neighbours. -/
theorem Linked.lookup (h : Linked heap before (l₁ ++ n :: l₂) after) :
    heap n.1 = some ⟨n.2, lastAddr before l₁, firstAddr l₂ after⟩ :=
  (linked_cons.mp (linked_append.mp h).2).1

/-- **Frame.** A segment depends on the nodes at its own addresses only. -/
theorem Linked.congr (h : Linked heap before l after) (heq : ∀ n ∈ l, heap' n.1 = heap n.1) :
    Linked heap' before l after := by
  induction l generalizing before with
  | nil => trivial
  | cons n l ih =>
    obtain ⟨hn, hl⟩ := linked_cons.mp h
    refine linked_cons.mpr ⟨?_, ih hl fun m hm => heq m (List.mem_cons_of_mem n hm)⟩
    rw [heq n List.mem_cons_self, hn]

/-! ### Following the links -/

/-- Following `link` from an address comes by the nodes of a list, in that order, and then to a
null pointer. -/
inductive Visits (heap : P → Option (Node P α)) (link : Node P α → Option P) :
    Option P → List (P × α) → Prop
  | null : Visits heap link none []
  | node {n : P × α} {cell : Node P α} {l : List (P × α)} (hcell : heap n.1 = some cell)
      (hvalue : cell.value = n.2) (hl : Visits heap link (link cell) l) :
      Visits heap link (some n.1) (n :: l)

theorem Visits.eq_none_iff {link : Node P α → Option P} {p : Option P}
    (h : Visits heap link p l) : p = none ↔ l = [] := by
  cases h <;> simp

/-- From an address there is one way to go. -/
theorem Visits.unique {link : Node P α → Option P} {p : Option P} (h₁ : Visits heap link p l₁)
    (h₂ : Visits heap link p l₂) : l₁ = l₂ := by
  induction h₁ generalizing l₂ with
  | null =>
    cases h₂
    rfl
  | @node n cell l hcell hvalue _ ih =>
    obtain ⟨p, a⟩ := n
    cases h₂ with
    | @node m cell' _ hcell' hvalue' hl =>
      obtain rfl : cell' = cell := Option.some.inj (hcell'.symm.trans hcell)
      rw [ih hl]
      exact congrArg (· :: _) (Prod.ext rfl (hvalue.symm.trans hvalue'))

/-- A segment that nothing comes after is visited from its front. -/
theorem Linked.visits_next (h : Linked heap before l none) :
    Visits heap Node.next (firstAddr l none) l := by
  induction l generalizing before with
  | nil => exact .null
  | cons n l ih =>
    obtain ⟨hn, hl⟩ := linked_cons.mp h
    exact .node hn rfl (ih hl)

/-! ### Mirror images

Seen from the back, a segment is a segment whose nodes have their two links exchanged. What is
done at one end is done at the other end of the mirror image. -/

/-- The node with its links exchanged. -/
def Node.mirror (n : Node P α) : Node P α :=
  { value := n.value, previous := n.next, next := n.previous }

/-- The heap with the links of every node exchanged. -/
def mirror (heap : P → Option (Node P α)) : P → Option (Node P α) := fun p =>
  (heap p).map Node.mirror

@[simp]
theorem mirror_mirror (heap : P → Option (Node P α)) : mirror (mirror heap) = heap := by
  funext p
  rw [mirror, mirror, Option.map_map]
  exact congrFun Option.map_id (heap p)

theorem mirror_eq_some {p : P} {a : α} {x y : Option P} :
    mirror heap p = some ⟨a, x, y⟩ ↔ heap p = some ⟨a, y, x⟩ := by
  rw [mirror, Option.map_eq_some_iff]
  constructor
  · rintro ⟨⟨b, x', y'⟩, hp, heq⟩
    cases heq
    exact hp
  · intro hp
    exact ⟨_, hp, rfl⟩

theorem firstAddr_reverse (l : List (P × α)) (x : Option P) :
    firstAddr l.reverse x = lastAddr x l := by
  induction l generalizing x with
  | nil => rfl
  | cons n l ih => rw [List.reverse_cons, firstAddr_append, ih, lastAddr_cons, firstAddr_cons]

theorem lastAddr_reverse (l : List (P × α)) (x : Option P) :
    lastAddr x l.reverse = firstAddr l x := by
  rw [← firstAddr_reverse, List.reverse_reverse]

/-- **The mirror image of a segment** has its nodes the other way round. -/
theorem linked_mirror :
    Linked (mirror heap) after l.reverse before ↔ Linked heap before l after := by
  induction l generalizing before with
  | nil => exact Iff.rfl
  | cons n l ih =>
    rw [List.reverse_cons, linked_append, firstAddr_cons, ih, lastAddr_reverse, linked_singleton,
      mirror_eq_some, linked_cons, and_comm]

theorem visits_mirror {p : Option P} (h : Visits (mirror heap) Node.next p l) :
    Visits heap Node.previous p l := by
  induction h with
  | null => exact .null
  | @node n cell l hcell hvalue _ ih => exact .node (mirror_eq_some.mp hcell) hvalue ih

/-- A segment that nothing comes before is visited from its back, the other way round. -/
theorem Linked.visits_previous (h : Linked heap none l after) :
    Visits heap Node.previous (lastAddr none l) l.reverse := by
  rw [← firstAddr_reverse]
  exact visits_mirror (linked_mirror.mpr h).visits_next

/-! ### Writing the links -/

variable [DecidableEq P]

/-- `p->next = next`, if `p` may be dereferenced. -/
def setNext (heap : P → Option (Node P α)) (p : P) (next : Option P) :
    Option (P → Option (Node P α)) :=
  (heap p).map fun node => update heap p (some { node with next := next })

/-- `p->previous = previous`, if `p` may be dereferenced. -/
def setPrevious (heap : P → Option (Node P α)) (p : P) (previous : Option P) :
    Option (P → Option (Node P α)) :=
  (heap p).map fun node => update heap p (some { node with previous := previous })

/-- Writing `next` of the last node changes the neighbour after the segment. -/
theorem Linked.exists_setNext (h : Linked heap before (l ++ [n]) after)
    (hn : n.1 ∉ l.map Prod.fst) (next : Option P) :
    ∃ heap', setNext heap n.1 next = some heap' ∧ Linked heap' before (l ++ [n]) next ∧
      ∀ q ≠ n.1, heap' q = heap q := by
  obtain ⟨hl, hlast⟩ := linked_append.mp h
  rw [linked_singleton] at hlast
  refine ⟨_, by rw [setNext, hlast, Option.map_some], linked_append.mpr ⟨?_, ?_⟩, fun q hq =>
    update_of_ne hq _ _⟩
  · refine hl.congr fun m hm => update_of_ne ?_ _ _
    intro heq
    exact hn (heq ▸ List.mem_map_of_mem hm)
  · rw [linked_singleton, update_self]

/-- Writing `previous` of the first node changes the neighbour before the segment. -/
theorem Linked.exists_setPrevious (h : Linked heap before (n :: l) after)
    (hn : n.1 ∉ l.map Prod.fst) (previous : Option P) :
    ∃ heap', setPrevious heap n.1 previous = some heap' ∧ Linked heap' previous (n :: l) after ∧
      ∀ q ≠ n.1, heap' q = heap q := by
  obtain ⟨hfirst, hl⟩ := linked_cons.mp h
  refine ⟨_, by rw [setPrevious, hfirst, Option.map_some], linked_cons.mpr ⟨?_, ?_⟩, fun q hq =>
    update_of_ne hq _ _⟩
  · rw [update_self]
  · refine hl.congr fun m hm => update_of_ne ?_ _ _
    intro heq
    exact hn (heq ▸ List.mem_map_of_mem hm)

theorem mirror_update (heap : P → Option (Node P α)) (p : P) (cell : Option (Node P α)) :
    mirror (update heap p cell) = update (mirror heap) p (cell.map Node.mirror) := by
  funext q
  rw [mirror, apply_update fun _ => Option.map Node.mirror]
  rfl

/-- Writing `next` in the mirror image is writing `previous`. -/
theorem setNext_mirror (heap : P → Option (Node P α)) (p : P) (next : Option P) :
    setNext (mirror heap) p next = (setPrevious heap p next).map mirror := by
  rw [setNext, setPrevious, mirror, Option.map_map, Option.map_map]
  refine congrArg (fun f => (heap p).map f) (funext fun node => ?_)
  rw [Function.comp_apply, Function.comp_apply, mirror_update, Option.map_some]
  rfl

end MemoryHierarchy.Lib
