import MemoryHierarchy.Lib.Linked
import MemoryHierarchy.Addr.Addr

/-!
# Doubly linked lists

The list operations of `list.c` that the replacement policy of the fully associative TLB is made
of. Nodes live in a heap; dereferencing an address that holds no node is undefined behaviour, so
every operation that follows a pointer may have no result (`none`). What `malloc` returns is an
argument of the operations that allocate.

`ListT.Represents` is well-formedness and contents at once: the nodes of the list, front to back,
linked both ways. On a represented list `move_back` always has a result and moves one occurrence
to the end (`ListT.Represents.moveBack`), and `push_back` appends
(`ListT.Represents.pushBack`).
-/

namespace MemoryHierarchy

open Lib Function

/-- `list_content_t`. -/
abbrev ListContent := BitVec 32

/-- The address of a node. A null pointer is `none`. -/
abbrev Ptr := ℕ

/-- `node_t`. -/
abbrev NodeT := Node Ptr ListContent

/-- The allocated nodes. -/
abbrev Heap := Ptr → Option NodeT

/-- `list_t`. -/
structure ListT where
  front : Option Ptr
  back : Option Ptr
  deriving DecidableEq

/-- `is_empty_list`. -/
def isEmptyList (this : ListT) : Bool := this.front == none && this.back == none

/-- `init_list`. -/
def initList : ListT := { front := none, back := none }

/-- `createNode`; `malloc` is the address the allocation returned, or `NULL`. -/
def createNode (heap : Heap) (malloc : Option Ptr) (value : ListContent)
    (previous last : Option Ptr) : Heap × Option Ptr :=
  match malloc with
  | none => (heap, none)
  | some newNode =>
    (update heap newNode (some { value := value, previous := previous, next := last }),
      some newNode)

/-- `push_back`, with the expansion of `push_helper`. The last component is the node returned,
`NULL` if the allocation failed. -/
def pushBack (heap : Heap) (malloc : Option Ptr) (this : ListT) (value : ListContent) :
    Option (Heap × ListT × Option Ptr) :=
  match createNode heap malloc value this.back none with
  | (heap, none) => some (heap, this, none)
  | (heap, some newNode) =>
    if isEmptyList this then
      some (heap, { front := some newNode, back := some newNode }, some newNode)
    else do
      let back ← this.back
      let heap ← setNext heap back (some newNode)
      some (heap, { this with back := some newNode }, some newNode)

/-- The first half of unlinking a node: its predecessor, or the front of the list, is made to
point at its successor. -/
def linkPast (heap : Heap) (this : ListT) (previous : Option Ptr) (next : Ptr) :
    Option (Heap × ListT) :=
  match previous with
  | none => some (heap, { this with front := some next })
  | some previous => (setNext heap previous (some next)).map fun heap => (heap, this)

/-- `move_back`. -/
def moveBack (heap : Heap) (this : ListT) (n : Option Ptr) : Option (Heap × ListT) :=
  match n with
  | none => some (heap, this)
  | some n =>
    if isEmptyList this || this.front == this.back then some (heap, this)
    else if some n = this.back then some (heap, this)
    else do
      let node ← heap n
      match node.next with
      | none => some (heap, this)
      | some next => do
        let (heap, this) ← linkPast heap this node.previous next
        let heap ← setPrevious heap next node.previous
        let endNode ← this.back
        let heap ← setNext heap endNode (some n)
        let heap ← setPrevious heap n (some endNode)
        let heap ← setNext heap n none
        some (heap, { this with back := some n })

/-! ### What a list represents -/

/-- The list is well formed and its nodes, front to back, are `nodes`. -/
structure ListT.Represents (this : ListT) (heap : Heap) (nodes : List (Ptr × ListContent)) :
    Prop where
  front_eq : this.front = firstAddr nodes none
  back_eq : this.back = lastAddr none nodes
  linked : Linked heap none nodes none
  nodup : (nodes.map Prod.fst).Nodup

variable {heap : Heap} {this : ListT} {nodes pre post : List (Ptr × ListContent)}
  {n m : Ptr × ListContent}

theorem represents_initList (heap : Heap) : initList.Represents heap [] :=
  ⟨rfl, rfl, linked_nil, List.nodup_nil⟩

/-- A node in the list may be dereferenced. -/
theorem ListT.Represents.lookup (h : this.Represents heap (pre ++ n :: post)) :
    heap n.1 = some ⟨n.2, lastAddr none pre, firstAddr post none⟩ :=
  h.linked.lookup

/-- A list of at least one node has a front. -/
theorem ListT.Represents.front_eq_cons (h : this.Represents heap (n :: nodes)) :
    this.front = some n.1 := by
  rw [h.front_eq, firstAddr_cons]

/-! ### `push_back` -/

theorem isEmptyList_concat (h : this.Represents heap (pre ++ [n])) : isEmptyList this = false := by
  have hback : this.back = some n.1 := by rw [h.back_eq, lastAddr_append]; rfl
  simp [isEmptyList, hback]

/-- **`push_back` appends**, when the allocation returns an address not in use. -/
protected theorem ListT.Represents.pushBack (h : this.Represents heap nodes) {newNode : Ptr}
    (hfree : newNode ∉ nodes.map Prod.fst) (value : ListContent) :
    ∃ heap' this', pushBack heap (some newNode) this value = some (heap', this', some newNode) ∧
      this'.Represents heap' (nodes ++ [(newNode, value)]) ∧
      ∀ q ∉ newNode :: nodes.map Prod.fst, heap' q = heap q := by
  have hnodup : ((nodes ++ [(newNode, value)]).map Prod.fst).Nodup :=
    nodup_addrs_concat.mpr ⟨hfree, h.nodup⟩
  -- the new node points back before anything points at it
  have hold : ∀ p ∈ nodes.map Prod.fst,
      update heap newNode (some ⟨value, this.back, none⟩) p = heap p := by
    intro p hp
    refine update_of_ne ?_ _ _
    rintro rfl
    exact hfree hp
  rcases List.eq_nil_or_concat' nodes with rfl | ⟨init, n, rfl⟩
  · refine ⟨update heap newNode (some ⟨value, this.back, none⟩),
      { front := some newNode, back := some newNode }, ?_, ⟨rfl, rfl, ?_, hnodup⟩, fun q hq =>
      update_of_ne (List.ne_of_not_mem_cons hq) _ _⟩
    · have hempty : isEmptyList this = true := by simp [isEmptyList, h.front_eq, h.back_eq]
      simp only [pushBack, createNode, if_pos hempty]
    · rw [List.nil_append, linked_singleton, update_self, h.back_eq]
      rfl
  · have hback : this.back = some n.1 := by rw [h.back_eq, lastAddr_append]; rfl
    have hlinked : Linked (update heap newNode (some ⟨value, this.back, none⟩)) none
        (init ++ [n]) none :=
      h.linked.congr fun m hm => hold m.1 (List.mem_map_of_mem hm)
    obtain ⟨heap', hset, hlinked', hframe⟩ :=
      hlinked.exists_setNext (nodup_addrs_concat.mp h.nodup).1 (some newNode)
    refine ⟨heap', { this with back := some newNode }, ?_, ⟨?_, ?_, ?_, hnodup⟩, fun q hq => ?_⟩
    · simp only [pushBack, createNode, isEmptyList_concat h, hback]
      rw [hback] at hset
      simp [hset]
    · rw [h.front_eq, firstAddr_append, firstAddr_append, firstAddr_append]
      rfl
    · rw [lastAddr_append]
      rfl
    · refine linked_append.mpr ⟨hlinked', ?_⟩
      have hne : newNode ≠ n.1 := by
        rintro rfl
        exact hfree (by simp)
      rw [linked_singleton, hframe newNode hne, update_self, hback, lastAddr_append]
      rfl
    · rw [hframe q (by rintro rfl; exact hq (by simp)), update_of_ne (by rintro rfl; simp at hq)]

/-! ### `move_back` -/

/-- Linking past `n` joins what is before it to what is after it, seen from the front. -/
theorem exists_linkPast (h : this.Represents heap (pre ++ n :: m :: post)) :
    ∃ heap' this', linkPast heap this (lastAddr none pre) m.1 = some (heap', this') ∧
      this'.front = firstAddr pre (some m.1) ∧ this'.back = this.back ∧
      Linked heap' none pre (some m.1) ∧ ∀ q ∉ pre.map Prod.fst, heap' q = heap q := by
  have hpre : Linked heap none pre (some n.1) := (linked_append.mp h.linked).1
  rcases List.eq_nil_or_concat' pre with rfl | ⟨init, p, rfl⟩
  · exact ⟨heap, _, rfl, rfl, rfl, linked_nil, fun _ _ => rfl⟩
  · have hp : p.1 ∉ init.map Prod.fst := by
      have hnodup := h.nodup
      rw [List.map_append] at hnodup
      exact (nodup_addrs_concat.mp hnodup.of_append_left).1
    obtain ⟨heap', hset, hlinked, hframe⟩ := hpre.exists_setNext hp (some m.1)
    refine ⟨heap', this, ?_, ?_, rfl, hlinked, fun q hq => hframe q ?_⟩
    · rw [lastAddr_append, lastAddr_cons, lastAddr_nil, linkPast, hset, Option.map_some]
    · rw [h.front_eq, firstAddr_append, firstAddr_append, firstAddr_append]
      rfl
    · rintro rfl
      exact hq (by simp)

/-- Both links past `n`: the list without it, whose own cell is as it was. -/
theorem exists_unlink (h : this.Represents heap (pre ++ n :: m :: post)) :
    ∃ heap₁ this' heap₂, linkPast heap this (lastAddr none pre) m.1 = some (heap₁, this') ∧
      setPrevious heap₁ m.1 (lastAddr none pre) = some heap₂ ∧
      this'.front = firstAddr (pre ++ m :: post) none ∧ this'.back = this.back ∧
      Linked heap₂ none (pre ++ m :: post) none ∧
      ∀ q ∉ (pre ++ m :: post).map Prod.fst, heap₂ q = heap q := by
  have hnodup := (nodup_addrs_middle.mp h.nodup).2
  rw [List.map_append] at hnodup
  have hdisjoint : ∀ q ∈ (m :: post).map Prod.fst, q ∉ pre.map Prod.fst := by
    intro q hq hqpre
    exact List.disjoint_of_nodup_append hnodup hqpre hq
  obtain ⟨heap₁, this', hpast, hfront, hback, hpre, hframe₁⟩ := exists_linkPast h
  have hpost : Linked heap₁ (some n.1) (m :: post) none :=
    (linked_cons.mp (linked_append.mp h.linked).2).2.congr fun q hq =>
      hframe₁ q.1 (hdisjoint q.1 (List.mem_map_of_mem hq))
  obtain ⟨heap₂, hprev, hpost, hframe₂⟩ := hpost.exists_setPrevious
    (List.nodup_cons.mp hnodup.of_append_right).1 (lastAddr none pre)
  refine ⟨heap₁, this', heap₂, hpast, hprev, ?_, hback, linked_append.mpr ⟨?_, hpost⟩, ?_⟩
  · rw [hfront, firstAddr_append, firstAddr_cons]
  · refine hpre.congr fun q hq => hframe₂ q.1 ?_
    intro heq
    exact hdisjoint m.1 List.mem_cons_self (heq ▸ List.mem_map_of_mem hq)
  · intro q hq
    rw [List.map_append, List.mem_append, not_or, List.map_cons, List.mem_cons, not_or] at hq
    rw [hframe₂ q hq.2.1, hframe₁ q hq.1]

/-- The three writes that put a node, wherever its cell points, after the last one. -/
theorem exists_linkLast {before after : Option Ptr} (h : Linked heap none (pre ++ [m]) none)
    (hnode : heap n.1 = some ⟨n.2, before, after⟩)
    (hnodup : ((pre ++ [m] ++ [n]).map Prod.fst).Nodup) :
    ∃ heap₁ heap₂ heap₃, setNext heap m.1 (some n.1) = some heap₁ ∧
      setPrevious heap₁ n.1 (some m.1) = some heap₂ ∧ setNext heap₂ n.1 none = some heap₃ ∧
      Linked heap₃ none (pre ++ [m] ++ [n]) none ∧
      ∀ q ∉ (pre ++ [m] ++ [n]).map Prod.fst, heap₃ q = heap q := by
  obtain ⟨hn, hnodup⟩ := nodup_addrs_concat.mp hnodup
  obtain ⟨heap₁, hset₁, hlinked₁, hframe₁⟩ :=
    h.exists_setNext (nodup_addrs_concat.mp hnodup).1 (some n.1)
  have hnode₁ : Linked heap₁ before [n] after := by
    refine linked_singleton.mpr ((hframe₁ n.1 ?_).trans hnode)
    intro heq
    exact hn (heq ▸ by simp)
  obtain ⟨heap₂, hset₂, hnode₂, hframe₂⟩ := hnode₁.exists_setPrevious List.not_mem_nil (some m.1)
  obtain ⟨heap₃, hset₃, hnode₃, hframe₃⟩ :=
    Linked.exists_setNext (l := []) hnode₂ List.not_mem_nil none
  refine ⟨heap₁, heap₂, heap₃, hset₁, hset₂, hset₃, linked_append.mpr ⟨?_, ?_⟩, fun q hq => ?_⟩
  · refine hlinked₁.congr fun q hq => ?_
    have hne : q.1 ≠ n.1 := fun heq => hn (heq ▸ List.mem_map_of_mem hq)
    rw [hframe₃ _ hne, hframe₂ _ hne]
  · rw [lastAddr_append]
    exact hnode₃
  · have hout : ∀ p ∈ pre ++ [m] ++ [n], q ≠ p.1 := by
      intro p hp heq
      exact hq (heq ▸ List.mem_map_of_mem hp)
    rw [hframe₃ q (hout n (by simp)), hframe₂ q (hout n (by simp)), hframe₁ q (hout m (by simp))]

/-- A list of two nodes or more has two different ends. -/
theorem front_ne_back (h : this.Represents heap (n :: nodes ++ [m])) :
    this.front ≠ this.back := by
  have hm : m.1 ∉ (n :: nodes).map Prod.fst := (nodup_addrs_concat.mp h.nodup).1
  have hback : this.back = some m.1 := by rw [h.back_eq, lastAddr_append]; rfl
  rw [h.front_eq, hback]
  intro heq
  have heq : n.1 = m.1 := Option.some.inj heq
  exact hm (heq ▸ List.mem_cons_self)

/-- `move_back` leaves the last node where it is. -/
theorem moveBack_last (h : this.Represents heap (pre ++ [n])) :
    moveBack heap this (some n.1) = some (heap, this) := by
  have hback : this.back = some n.1 := by rw [h.back_eq, lastAddr_append]; rfl
  simp only [moveBack, hback, if_true, ite_self]

/-- **`move_back` moves one occurrence to the end.** It follows no dangling pointer, and the nodes
of other lists are untouched. -/
protected theorem ListT.Represents.moveBack (h : this.Represents heap (pre ++ n :: post)) :
    ∃ heap' this', moveBack heap this (some n.1) = some (heap', this') ∧
      this'.Represents heap' (pre ++ post ++ [n]) ∧
      ∀ q ∉ (pre ++ n :: post).map Prod.fst, heap' q = heap q := by
  rcases post with _ | ⟨m, post⟩
  · refine ⟨heap, this, moveBack_last h, ?_, fun _ _ => rfl⟩
    rwa [List.append_nil]
  obtain ⟨mid, e, hlast⟩ := (List.eq_nil_or_concat' (m :: post)).resolve_left (List.cons_ne_nil _ _)
  have hjoin : pre ++ m :: post = pre ++ mid ++ [e] := by rw [hlast, List.append_assoc]
  obtain ⟨hn, hnodup⟩ := nodup_addrs_middle.mp h.nodup
  have hnodup' : ((pre ++ m :: post ++ [n]).map Prod.fst).Nodup :=
    nodup_addrs_concat.mpr ⟨hn, hnodup⟩
  have hback : this.back = some e.1 := by
    rw [h.back_eq, hlast, lastAddr_append, lastAddr_cons, lastAddr_append]
    rfl
  -- none of the early returns is taken
  have hends : this.front ≠ this.back := by
    obtain ⟨p, init, hinit⟩ := List.exists_cons_of_ne_nil (l := pre ++ n :: mid) (by simp)
    have hnodes : pre ++ n :: m :: post = p :: init ++ [e] := by
      rw [hlast, ← hinit, List.append_assoc, List.cons_append]
    exact front_ne_back (hnodes ▸ h)
  have hmoved : some n.1 ≠ this.back := by
    intro heq
    rw [hback, Option.some_inj] at heq
    exact hn (by rw [hjoin, heq]; simp)
  have hnode : heap n.1 = some ⟨n.2, lastAddr none pre, some m.1⟩ := h.lookup
  obtain ⟨heap₁, this', heap₂, hpast, hprev, hfront, hback', hlinked, hframe⟩ := exists_unlink h
  rw [hjoin] at hlinked hnodup'
  obtain ⟨heap₃, heap₄, heap₅, hset₃, hset₄, hset₅, hlinked', hframe'⟩ :=
    exists_linkLast hlinked ((hframe n.1 hn).trans hnode) hnodup'
  refine ⟨heap₅, { this' with back := some n.1 }, ?_, ⟨?_, ?_, hjoin ▸ hlinked', hjoin ▸ hnodup'⟩,
    fun q hq => ?_⟩
  · rw [moveBack, if_neg (by simpa [isEmptyList, hback] using hends), if_neg hmoved]
    simp [hnode, hpast, hprev, hback', hback, hset₃, hset₄, hset₅]
  · rw [hfront, firstAddr_append, firstAddr_append, firstAddr_append, firstAddr_cons]
    rfl
  · rw [lastAddr_append]
    rfl
  · have hq' : q ∉ (pre ++ m :: post ++ [n]).map Prod.fst := by
      simp only [List.map_append, List.map_cons, List.mem_append, List.mem_cons] at hq ⊢
      tauto
    rw [hframe' q (hjoin ▸ hq'), hframe q fun hmem => hq' (by
      rw [List.map_append]
      exact List.mem_append_left _ hmem)]

end MemoryHierarchy
