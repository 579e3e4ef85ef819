import MemoryHierarchy.Lib.Run
import MemoryHierarchy.Lib.CText
import MemoryHierarchy.Tlb.LinkedList

/-!
# Lists as sequences

The rest of `list.c`, and what a whole run of its operations does. `push_front` and `pop_front`
are `push_back` and `pop_back` of the mirror image (`pushFront_mirror`, `popFront_mirror`), so
each pair is one argument. Every operation acts on the represented sequence as `ListOp.apply`
says (`exists_listStep`), hence a list built from `init_list` by any run is well formed in both
directions and its two printouts are of opposite orders (`list_sequence`).

The loops that follow the links are bounded by `fuel`; a bound that is no smaller than the number
of nodes is enough.
-/

namespace MemoryHierarchy

open Lib Function

/-! ### The operations -/

/-- `freeNode`. -/
def freeNode (heap : Heap) : Option Ptr → Option Heap
  | none => some heap
  | some n => (heap n).map fun _ => update heap n none

/-- The loop of `clear_list`. -/
def clearNodes : ℕ → Heap → Option Ptr → Option Heap
  | _, heap, none => some heap
  | 0, _, some _ => none
  | fuel + 1, heap, some current => do
    let next := (← heap current).next
    let heap ← setNext heap current none
    let heap ← setPrevious heap current none
    let heap ← freeNode heap (some current)
    clearNodes fuel heap next

/-- `clear_list`. -/
def clearList (fuel : ℕ) (heap : Heap) (this : ListT) : Option (Heap × ListT) :=
  if isEmptyList this then some (heap, this)
  else (clearNodes fuel heap this.front).map fun heap => (heap, { front := none, back := none })

/-- `push_front`, with the expansion of `push_helper`. The last component is the node returned,
`NULL` if the allocation failed. -/
def pushFront (heap : Heap) (malloc : Option Ptr) (this : ListT) (value : ListContent) :
    Option (Heap × ListT × Option Ptr) :=
  match createNode heap malloc value none this.front with
  | (heap, none) => some (heap, this, none)
  | (heap, some newNode) =>
    if isEmptyList this then
      some (heap, { front := some newNode, back := some newNode }, some newNode)
    else do
      let front ← this.front
      let heap ← setPrevious heap front (some newNode)
      some (heap, { this with front := some newNode }, some newNode)

/-- `pop_back`, with the expansion of `pop_helper`. -/
def popBack (fuel : ℕ) (heap : Heap) (this : ListT) : Option (Heap × ListT) :=
  if isEmptyList this then some (heap, this)
  else if this.front = this.back then clearList fuel heap this
  else do
    let newExtremity ← (← heap (← this.back)).previous
    let heap ← setNext heap newExtremity none
    let heap ← freeNode heap this.back
    some (heap, { this with back := some newExtremity })

/-- `pop_front`, with the expansion of `pop_helper`. -/
def popFront (fuel : ℕ) (heap : Heap) (this : ListT) : Option (Heap × ListT) :=
  if isEmptyList this then some (heap, this)
  else if this.front = this.back then clearList fuel heap this
  else do
    let newExtremity ← (← heap (← this.front)).next
    let heap ← setPrevious heap newExtremity none
    let heap ← freeNode heap this.front
    some (heap, { this with front := some newExtremity })

/-- What has been printed, and the number of characters that `fprintf` says it was. The count is
an `int` in `list.c` and a natural number here: from 2³¹ characters on the two differ. -/
abbrev Printed := List (BitVec 8) × ℕ

/-- `nbChar += fprintf(stream, …)`. -/
def fprintf (text : List (BitVec 8)) (printed : Printed) : Printed :=
  (printed.1 ++ text, printed.2 + text.length)

/-- The loop of `print_list` and of `print_reverse_list`: `for_all_nodes` or
`for_all_nodes_reverse`, as `link` is `next` or `previous`. -/
def printNodes (heap : Heap) (link : NodeT → Option Ptr) :
    ℕ → Option Ptr → Printed → Option Printed
  | _, none, printed => some printed
  | 0, some _, _ => none
  | fuel + 1, some current, printed => do
    let node ← heap current
    let printed := fprintf (printDec node.value.toNat) printed
    let printed := if link node ≠ none then fprintf [ch ',', ch ' '] printed else printed
    printNodes heap link fuel (link node) printed

/-- `print_list`. -/
def printList (fuel : ℕ) (heap : Heap) (this : ListT) : Option Printed := do
  let printed ← printNodes heap Node.next fuel this.front (fprintf [ch '('] ([], 0))
  some (fprintf [ch ')'] printed)

/-- `print_reverse_list`. -/
def printReverseList (fuel : ℕ) (heap : Heap) (this : ListT) : Option Printed := do
  let printed ← printNodes heap Node.previous fuel this.back (fprintf [ch '('] ([], 0))
  some (fprintf [ch ')'] printed)

variable {fuel : ℕ} {heap : Heap} {this : ListT} {nodes pre post : List (Ptr × ListContent)}
  {n m : Ptr × ListContent}

/-! ### Mirror images -/

/-- The list seen from its back. -/
def ListT.mirror (this : ListT) : ListT := { front := this.back, back := this.front }

theorem isEmptyList_mirror (this : ListT) : isEmptyList this.mirror = isEmptyList this :=
  Bool.and_comm _ _

/-- A list and its mirror image represent the same nodes in opposite orders. -/
theorem represents_mirror (h : this.Represents heap nodes) :
    this.mirror.Represents (Lib.mirror heap) nodes.reverse where
  front_eq := h.back_eq.trans (firstAddr_reverse nodes none).symm
  back_eq := h.front_eq.trans (lastAddr_reverse nodes none).symm
  linked := linked_mirror.mpr h.linked
  nodup := by
    rw [List.map_reverse, List.nodup_reverse]
    exact h.nodup

/-- **`push_front` is `push_back` of the mirror image.** -/
theorem pushFront_mirror (heap : Heap) (malloc : Option Ptr) (this : ListT)
    (value : ListContent) :
    pushFront heap malloc this value =
      (pushBack (Lib.mirror heap) malloc this.mirror value).map fun r =>
        (Lib.mirror r.1, r.2.1.mirror, r.2.2) := by
  cases malloc with
  | none => simp [pushFront, pushBack, createNode, ListT.mirror]
  | some newNode =>
    have hcreate : update (Lib.mirror heap) newNode (some ⟨value, this.front, none⟩) =
        Lib.mirror (update heap newNode (some ⟨value, none, this.front⟩)) := by
      rw [mirror_update]
      rfl
    simp only [pushFront, pushBack, createNode, isEmptyList_mirror]
    split_ifs
    · simp only [ListT.mirror, hcreate, Option.map_some, mirror_mirror]
    · rcases hfront : this.front with _ | front
      · simp [ListT.mirror, hfront]
      · rw [hfront] at hcreate
        simp only [ListT.mirror, hfront, hcreate, Option.bind_eq_bind, Option.bind_some,
          setNext_mirror]
        rcases setPrevious _ front _ with _ | heap'
        · rfl
        · simp

theorem freeNode_mirror (heap : Heap) (n : Option Ptr) :
    freeNode (Lib.mirror heap) n = (freeNode heap n).map Lib.mirror := by
  rcases n with _ | n
  · rfl
  · rw [freeNode, freeNode, Lib.mirror, Option.map_map, Option.map_map]
    refine congrArg (fun f => (heap n).map f) (funext fun node => ?_)
    exact (mirror_update heap n none).symm

/-- **`pop_front` is `pop_back` of the mirror image**, where it does not clear the list. -/
theorem popFront_mirror (h : this.front ≠ this.back) :
    popFront fuel heap this =
      (popBack fuel (Lib.mirror heap) this.mirror).map fun r => (Lib.mirror r.1, r.2.mirror) := by
  have hmirror : this.mirror.front ≠ this.mirror.back := h.symm
  simp only [popFront, popBack, isEmptyList_mirror, if_neg h, if_neg hmirror]
  split_ifs
  · simp [ListT.mirror]
  · rcases hfront : this.front with _ | front
    · simp [ListT.mirror, hfront]
    · rcases hnode : heap front with _ | ⟨value, previous, next⟩
      · simp [ListT.mirror, hfront, hnode, Lib.mirror]
      · have hmirrored : Lib.mirror heap front = some ⟨value, next, previous⟩ :=
          mirror_eq_some.mpr hnode
        simp only [ListT.mirror, hfront, hnode, hmirrored, Option.bind_eq_bind, Option.bind_some]
        rcases next with _ | newExtremity
        · rfl
        · simp only [Option.bind_some, setNext_mirror]
          rcases setPrevious heap newExtremity none with _ | heap₁
          · rfl
          · simp only [Option.map_some, Option.bind_some, freeNode_mirror]
            rcases freeNode heap₁ (some front) with _ | heap₂
            · rfl
            · simp

/-! ### What the operations do to the sequence -/

/-- **`push_front` prepends**, when the allocation returns an address not in use. -/
protected theorem ListT.Represents.pushFront (h : this.Represents heap nodes) {newNode : Ptr}
    (hfree : newNode ∉ nodes.map Prod.fst) (value : ListContent) :
    ∃ heap' this', pushFront heap (some newNode) this value = some (heap', this', some newNode) ∧
      this'.Represents heap' ((newNode, value) :: nodes) := by
  have hfree' : newNode ∉ nodes.reverse.map Prod.fst := by
    rwa [List.map_reverse, List.mem_reverse]
  obtain ⟨heap', this', hpush, hrep, -⟩ := (represents_mirror h).pushBack hfree' value
  refine ⟨Lib.mirror heap', this'.mirror, ?_, ?_⟩
  · rw [pushFront_mirror, hpush]
    rfl
  · have hmirror := represents_mirror hrep
    rwa [List.reverse_append, List.reverse_reverse] at hmirror

/-- The nodes of a segment can be freed one after the other. -/
theorem exists_clearNodes {before : Option Ptr} (h : Linked heap before nodes none)
    (hnodup : (nodes.map Prod.fst).Nodup) (hfuel : nodes.length ≤ fuel) :
    ∃ heap', clearNodes fuel heap (firstAddr nodes none) = some heap' := by
  induction nodes generalizing heap before fuel with
  | nil => exact ⟨heap, by simp [clearNodes]⟩
  | cons n nodes ih =>
    obtain ⟨fuel, rfl⟩ := Nat.exists_eq_add_of_le' (Nat.one_le_of_lt hfuel)
    obtain ⟨hn, hnodes⟩ := linked_cons.mp h
    rw [List.map_cons, List.nodup_cons] at hnodup
    have hfreed : Linked (update heap n.1 none) (some n.1) nodes none := by
      refine hnodes.congr fun m hm => update_of_ne ?_ _ _
      intro heq
      exact hnodup.1 (heq ▸ List.mem_map_of_mem hm)
    obtain ⟨heap', hclear⟩ := ih hfreed hnodup.2 (Nat.le_of_succ_le_succ hfuel)
    refine ⟨heap', ?_⟩
    -- the two stores into the node are lost with it
    simp [clearNodes, hn, setNext, setPrevious, freeNode, hclear]

theorem isEmptyList_iff (h : this.Represents heap nodes) :
    isEmptyList this = true ↔ nodes = [] := by
  rcases List.eq_nil_or_concat' nodes with rfl | ⟨init, n, rfl⟩
  · simp [isEmptyList, h.front_eq, h.back_eq]
  · simp [isEmptyList_concat h]

/-- **`clear_list` empties.** -/
protected theorem ListT.Represents.clearList (h : this.Represents heap nodes)
    (hfuel : nodes.length ≤ fuel) :
    ∃ heap' this', clearList fuel heap this = some (heap', this') ∧ this'.Represents heap' [] := by
  rw [clearList]
  split_ifs with hempty
  · exact ⟨heap, this, rfl, (isEmptyList_iff h).mp hempty ▸ h⟩
  · obtain ⟨heap', hclear⟩ := exists_clearNodes h.linked h.nodup hfuel
    refine ⟨heap', initList, ?_, represents_initList heap'⟩
    rw [h.front_eq, hclear]
    rfl

/-- The ends of a list of two nodes or more differ. -/
theorem tail_eq_nil_of_ends (h : this.Represents heap nodes) (hends : this.front = this.back) :
    nodes.tail = [] := by
  rcases nodes with _ | ⟨n, nodes⟩
  · rfl
  · rcases List.eq_nil_or_concat' nodes with rfl | ⟨init, m, rfl⟩
    · rfl
    · exact absurd hends (front_ne_back h)

/-- **`pop_back` drops the last node.** -/
protected theorem ListT.Represents.popBack (h : this.Represents heap nodes)
    (hfuel : nodes.length ≤ fuel) :
    ∃ heap' this', popBack fuel heap this = some (heap', this') ∧
      this'.Represents heap' nodes.dropLast := by
  rw [popBack]
  split_ifs with hempty hends
  · obtain rfl := (isEmptyList_iff h).mp hempty
    exact ⟨heap, this, rfl, h⟩
  · have hlast : nodes.dropLast = [] := by
      rw [← List.length_eq_zero_iff, List.length_dropLast, ← List.length_tail,
        tail_eq_nil_of_ends h hends, List.length_nil]
    exact hlast ▸ h.clearList hfuel
  · obtain ⟨init, n, rfl⟩ :=
      (List.eq_nil_or_concat' nodes).resolve_left (mt (isEmptyList_iff h).mpr hempty)
    have hback : this.back = some n.1 := by rw [h.back_eq, lastAddr_append]; rfl
    have hinit : init ≠ [] := by
      rintro rfl
      exact hends (h.front_eq.trans hback.symm)
    obtain ⟨init, m, rfl⟩ := (List.eq_nil_or_concat' init).resolve_left hinit
    have hnode : heap n.1 = some ⟨n.2, some m.1, none⟩ := by
      rw [h.lookup, lastAddr_append]
      rfl
    obtain ⟨hn, hnodup⟩ := nodup_addrs_concat.mp h.nodup
    obtain ⟨heap₁, hset, hlinked, hframe⟩ := (linked_append.mp h.linked).1.exists_setNext
      (nodup_addrs_concat.mp hnodup).1 none
    have hne : n.1 ≠ m.1 := fun heq => hn (by rw [heq]; simp)
    rw [List.dropLast_concat]
    refine ⟨update heap₁ n.1 none, { this with back := some m.1 }, ?_, ⟨?_, ?_, ?_, hnodup⟩⟩
    · simp [hback, hnode, hset, freeNode, hframe n.1 hne]
    · simp only [h.front_eq, firstAddr_append, firstAddr_cons]
    · rw [lastAddr_append]
      rfl
    · refine hlinked.congr fun q hq => update_of_ne ?_ _ _
      intro heq
      exact hn (heq ▸ List.mem_map_of_mem hq)

/-- **`pop_front` drops the first node.** -/
protected theorem ListT.Represents.popFront (h : this.Represents heap nodes)
    (hfuel : nodes.length ≤ fuel) :
    ∃ heap' this', popFront fuel heap this = some (heap', this') ∧
      this'.Represents heap' nodes.tail := by
  by_cases hends : this.front = this.back
  · rw [popFront, if_pos hends]
    split_ifs with hempty
    · obtain rfl := (isEmptyList_iff h).mp hempty
      exact ⟨heap, this, rfl, h⟩
    · exact tail_eq_nil_of_ends h hends ▸ h.clearList hfuel
  · have hfuel' : nodes.reverse.length ≤ fuel := by rwa [List.length_reverse]
    obtain ⟨heap', this', hpop, hrep⟩ := (represents_mirror h).popBack hfuel'
    refine ⟨Lib.mirror heap', this'.mirror, ?_, ?_⟩
    · rw [popFront_mirror hends, hpop]
      rfl
    · have hmirror := represents_mirror hrep
      rwa [List.dropLast_reverse, List.reverse_reverse] at hmirror

/-! ### What is printed -/

/-- The text of a list: its values in parentheses, separated by commas. -/
def listText (values : List ListContent) : Printed :=
  let text := [ch ',', ch ' '].intercalate (values.map fun value => printDec value.toNat)
  fprintf [ch ')'] (fprintf text (fprintf [ch '('] ([], 0)))

/-- The loop prints the values of the nodes it comes by, and counts what it prints. -/
theorem printNodes_of_visits {link : NodeT → Option Ptr} {p : Option Ptr}
    (h : Visits heap link p nodes) (hfuel : nodes.length ≤ fuel) (printed : Printed) :
    printNodes heap link fuel p printed = some (fprintf
      ([ch ',', ch ' '].intercalate (nodes.map fun n => printDec n.2.toNat)) printed) := by
  induction h generalizing fuel printed with
  | null => simp [printNodes, fprintf]
  | @node n cell nodes hcell hvalue hl ih =>
    obtain ⟨fuel, rfl⟩ := Nat.exists_eq_add_of_le' (Nat.one_le_of_lt hfuel)
    simp only [printNodes, hcell, hvalue, Option.bind_eq_bind, Option.bind_some]
    rw [ih (Nat.le_of_succ_le_succ hfuel)]
    rcases eq_or_ne nodes [] with rfl | hne
    · simp [hl.eq_none_iff.mpr rfl, fprintf]
    · have hnext : link cell ≠ none := mt hl.eq_none_iff.mp hne
      simp [hnext, hne, fprintf, List.intercalate_cons_of_ne_nil, Nat.add_assoc, Nat.add_comm 2]

theorem printList_of_visits (h : Visits heap Node.next this.front nodes)
    (hfuel : nodes.length ≤ fuel) :
    printList fuel heap this =
      some (listText (nodes.map Prod.snd)) := by
  rw [printList, printNodes_of_visits h hfuel, listText, List.map_map]
  rfl

theorem printReverseList_of_visits (h : Visits heap Node.previous this.back nodes)
    (hfuel : nodes.length ≤ fuel) :
    printReverseList fuel heap this =
      some (listText (nodes.map Prod.snd)) := by
  rw [printReverseList, printNodes_of_visits h hfuel, listText, List.map_map]
  rfl

/-! ### Runs -/

/-- A call of one of the operations. The pushes come with the address that `malloc` returns. -/
inductive ListOp
  | pushBack (malloc : Ptr) (value : ListContent)
  | pushFront (malloc : Ptr) (value : ListContent)
  | popBack
  | popFront
  | moveBack (n : Ptr)
  | clearList

/-- The call, in a heap with a list. -/
def listStep (fuel : ℕ) (s : Heap × ListT) : ListOp → Option (Heap × ListT)
  | .pushBack malloc value =>
    (pushBack s.1 (some malloc) s.2 value).map fun r => (r.1, r.2.1)
  | .pushFront malloc value =>
    (pushFront s.1 (some malloc) s.2 value).map fun r => (r.1, r.2.1)
  | .popBack => popBack fuel s.1 s.2
  | .popFront => popFront fuel s.1 s.2
  | .moveBack n => moveBack s.1 s.2 (some n)
  | .clearList => clearList fuel s.1 s.2

/-- What the call does to a sequence: append, prepend, drop the last, drop the first, remove one
occurrence and append it at the end, empty. -/
def ListOp.apply (nodes : List (Ptr × ListContent)) : ListOp → List (Ptr × ListContent)
  | .pushBack malloc value => nodes ++ [(malloc, value)]
  | .pushFront malloc value => (malloc, value) :: nodes
  | .popBack => nodes.dropLast
  | .popFront => nodes.tail
  | .moveBack n => nodes.eraseP (·.1 = n) ++ (nodes.find? (·.1 = n)).toList
  | .clearList => []

/-- The sequence that a run of calls makes. -/
def ListOp.sequence (ops : List ListOp) : List (Ptr × ListContent) :=
  ops.foldl ListOp.apply []

/-- An allocation returns an address at which there is no node, and a node that is moved is a
node of the list. -/
def ListOp.Allowed (s : Heap × ListT) : ListOp → Prop
  | .pushBack malloc _ | .pushFront malloc _ => s.1 malloc = none
  | .moveBack n => ∃ nodes, Visits s.1 Node.next s.2.front nodes ∧ n ∈ nodes.map Prod.fst
  | .popBack | .popFront | .clearList => True

theorem ListT.Represents.visits_next (h : this.Represents heap nodes) :
    Visits heap Node.next this.front nodes := by
  rw [h.front_eq]
  exact h.linked.visits_next

theorem ListT.Represents.visits_previous (h : this.Represents heap nodes) :
    Visits heap Node.previous this.back nodes.reverse := by
  rw [h.back_eq]
  exact h.linked.visits_previous

/-- An address with no node is none of the list. -/
theorem ListT.Represents.not_mem_of_free (h : this.Represents heap nodes) {p : Ptr}
    (hp : heap p = none) : p ∉ nodes.map Prod.fst := by
  intro hmem
  obtain ⟨n, hn, rfl⟩ := List.mem_map.mp hmem
  obtain ⟨pre, post, rfl⟩ := List.append_of_mem hn
  cases hp.symm.trans h.lookup

/-- **One call** acts on the sequence as it should. -/
theorem exists_listStep {op : ListOp} (h : this.Represents heap nodes)
    (hop : op.Allowed (heap, this)) (hfuel : nodes.length ≤ fuel) :
    ∃ s, listStep fuel (heap, this) op = some s ∧ s.2.Represents s.1 (op.apply nodes) := by
  cases op with
  | pushBack malloc value =>
    obtain ⟨heap', this', hpush, hrep, -⟩ := h.pushBack (h.not_mem_of_free hop) value
    exact ⟨(heap', this'), by rw [listStep, hpush]; rfl, hrep⟩
  | pushFront malloc value =>
    obtain ⟨heap', this', hpush, hrep⟩ := h.pushFront (h.not_mem_of_free hop) value
    exact ⟨(heap', this'), by rw [listStep, hpush]; rfl, hrep⟩
  | popBack =>
    obtain ⟨heap', this', hpop, hrep⟩ := h.popBack hfuel
    exact ⟨(heap', this'), hpop, hrep⟩
  | popFront =>
    obtain ⟨heap', this', hpop, hrep⟩ := h.popFront hfuel
    exact ⟨(heap', this'), hpop, hrep⟩
  | moveBack p =>
    obtain ⟨visited, hvisited, hp⟩ := hop
    rw [hvisited.unique h.visits_next] at hp
    obtain ⟨n, hn, rfl⟩ := List.mem_map.mp hp
    obtain ⟨pre, post, rfl⟩ := List.append_of_mem hn
    obtain ⟨heap', this', hmove, hrep, -⟩ := h.moveBack
    refine ⟨(heap', this'), hmove, ?_⟩
    -- no node before it has its address
    have hpre : ∀ m ∈ pre, ¬ (m.1 = n.1) := by
      intro m hm heq
      refine (nodup_addrs_middle.mp h.nodup).1 (heq ▸ List.mem_map_of_mem ?_)
      exact List.mem_append_left post hm
    have herase : (pre ++ n :: post).eraseP (·.1 = n.1) = pre ++ post := by
      rw [List.eraseP_append_right _ (by simpa using hpre), List.eraseP_cons_of_pos (by simp)]
    have hfind : (pre ++ n :: post).find? (·.1 = n.1) = some n := by
      rw [List.find?_append, List.find?_eq_none.mpr (by simpa using hpre)]
      simp
    rw [ListOp.apply, herase, hfind]
    exact hrep
  | clearList =>
    obtain ⟨heap', this', hclear, hrep⟩ := h.clearList hfuel
    exact ⟨(heap', this'), hclear, hrep⟩

/-- A call makes a list longer by at most one node. -/
theorem ListOp.length_apply_le (nodes : List (Ptr × ListContent)) (op : ListOp) :
    (op.apply nodes).length ≤ nodes.length + 1 := by
  cases op with
  | moveBack n =>
    have herase := (nodes.eraseP_sublist (p := (·.1 = n))).length_le
    have hfind := (nodes.find? (·.1 = n)).length_toList_le
    simp only [ListOp.apply, List.length_append]
    omega
  | popBack | popFront =>
    simp only [ListOp.apply, List.length_dropLast, List.length_tail]
    omega
  | pushBack _ _ | pushFront _ _ | clearList => simp [ListOp.apply]

/-- **The list implements a sequence.** A list built from `init_list` by any run of operations is
well formed in both directions, is the sequence that the operations make, and is printed in two
opposite orders. -/
theorem list_sequence (fuel : ℕ) (heap : Heap) (ops : List ListOp) (hfuel : ops.length ≤ fuel)
    (hops : StepsMeetM (listStep fuel) ListOp.Allowed (heap, initList) ops) :
    ∃ heap' this, ops.foldlM (listStep fuel) (heap, initList) = some (heap', this) ∧
      Visits heap' Node.next this.front (ListOp.sequence ops) ∧
      Visits heap' Node.previous this.back (ListOp.sequence ops).reverse ∧
      ((ListOp.sequence ops).map Prod.fst).Nodup ∧
      (this.front = none ↔ this.back = none) ∧
      printList fuel heap' this = some (listText ((ListOp.sequence ops).map Prod.snd)) ∧
      printReverseList fuel heap' this =
        some (listText ((ListOp.sequence ops).map Prod.snd).reverse) := by
  obtain ⟨⟨heap', this⟩, hrun, hrep, hlength⟩ := runM_invariant_of_meet
    (I := fun bs s => s.2.Represents s.1 (ListOp.sequence bs) ∧
      (ListOp.sequence bs).length ≤ bs.length) ⟨represents_initList heap, le_rfl⟩
    (fun bs op s hbs hs hop => by
      have hbound : (ListOp.sequence bs).length ≤ fuel :=
        hs.2.trans (((List.prefix_append bs [op]).trans hbs).length_le.trans hfuel)
      obtain ⟨s', hstep, hs'⟩ := exists_listStep hs.1 hop hbound
      refine ⟨s', hstep, ?_⟩
      rw [ListOp.sequence, List.foldl_append, List.length_append, List.length_singleton]
      exact ⟨hs', (ListOp.length_apply_le _ op).trans (Nat.succ_le_succ hs.2)⟩) hops
  have hnodes := hlength.trans hfuel
  refine ⟨heap', this, hrun, hrep.visits_next, hrep.visits_previous, hrep.nodup, ?_,
    printList_of_visits hrep.visits_next hnodes, ?_⟩
  · rw [hrep.visits_next.eq_none_iff, hrep.visits_previous.eq_none_iff, List.reverse_eq_nil_iff]
  · rw [← List.map_reverse]
    exact printReverseList_of_visits hrep.visits_previous (by rwa [List.length_reverse])

/-- Three pushes, the first node moved to the end, and both ends taken off. -/
theorem list_sequence_six :
    ∃ heap' this, [ListOp.pushBack 0 7, .pushFront 1 8, .pushBack 2 9, .moveBack 1, .popFront,
      .popBack].foldlM (listStep 6) (fun _ => none, initList) = some (heap', this) ∧
      Visits heap' Node.next this.front [(2, 9)] := by
  obtain ⟨heap', this, hrun, hvisits, -⟩ := list_sequence 6 (fun _ => none)
    [.pushBack 0 7, .pushFront 1 8, .pushBack 2 9, .moveBack 1, .popFront, .popBack] (by decide) (by
      refine ⟨rfl, fun s hs => ?_⟩
      obtain rfl := Option.some.inj hs
      refine ⟨rfl, fun s hs => ?_⟩
      obtain rfl := Option.some.inj hs
      refine ⟨rfl, fun s hs => ?_⟩
      obtain rfl := Option.some.inj hs
      refine ⟨⟨[(1, 8), (0, 7), (2, 9)], ?_, by decide⟩, fun s hs => ⟨trivial, fun s _ => ⟨trivial,
        fun s _ => trivial⟩⟩⟩
      exact .node (n := (1, 8)) rfl rfl (.node (n := (0, 7)) rfl rfl
        (.node (n := (2, 9)) rfl rfl .null)))
  exact ⟨heap', this, hrun, hvisits⟩

end MemoryHierarchy
