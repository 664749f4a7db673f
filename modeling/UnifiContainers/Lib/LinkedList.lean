import Mathlib.Data.List.Nodup
import Mathlib.Data.List.Perm.Subperm

/-!
# Doubly linked lists in a heap

A list is the addresses of its first and last node; the nodes refer to each other by address, and
an unlinked node stays where it is. `Holds` says which cells, in which order, a list has in its
heap,
and each operation is a list operation on the cells.
-/

namespace LinkedList

variable {α : Type}

structure Node (α : Type) where
  value : α
  prev : Option ℕ
  next : Option ℕ
  deriving Repr

structure DList (α : Type) where
  heap : List (Node α)
  start : Option ℕ
  finish : Option ℕ
  deriving Repr

namespace DList

def empty : DList α := ⟨[], none, none⟩

/-- An assignment to the `next` of a node, where there is one. -/
def setNext (heap : List (Node α)) (node next : Option ℕ) : List (Node α) :=
  match node with
  | none => heap
  | some a => heap.modify a fun n => { n with next := next }

def setPrev (heap : List (Node α)) (node prev : Option ℕ) : List (Node α) :=
  match node with
  | none => heap
  | some a => heap.modify a fun n => { n with prev := prev }

/-- The list with a new last node, and the address of the node. -/
def append (l : DList α) (value : α) : DList α × ℕ :=
  let n := l.heap.length
  match l.start with
  | none => ({ heap := l.heap ++ [⟨value, none, none⟩], start := some n, finish := some n }, n)
  | some a =>
      ({ heap := setNext l.heap l.finish (some n) ++ [⟨value, l.finish, none⟩],
         start := some a, finish := some n }, n)

def unlink (l : DList α) (a : ℕ) : DList α :=
  match l.heap[a]? with
  | none => l
  | some node =>
      { heap := setPrev (setNext l.heap node.prev node.next) node.next node.prev
        start := if l.start = some a then node.next else l.start
        finish := if l.finish = some a then node.prev else l.finish }

/-- An assignment to the value of a node. -/
def assign (l : DList α) (a : ℕ) (value : α) : DList α :=
  { l with heap := l.heap.modify a fun n => { n with value := value } }

def iternodesFrom (heap : List (Node α)) : ℕ → Option ℕ → List ℕ
  | 0, _ => []
  | _ + 1, none => []
  | fuel + 1, some a =>
      match heap[a]? with
      | none => []
      | some node => a :: iternodesFrom heap fuel node.next

/-- The walk along `next`, which no more steps than there are nodes end. -/
def iternodes (l : DList α) : List ℕ := iternodesFrom l.heap l.heap.length l.start

/-- The place of a node in the walk. -/
def findNode (l : DList α) (node : ℕ) : Option ℕ := l.iternodes.idxOf? node

def value? (l : DList α) (a : ℕ) : Option α := l.heap[a]?.map Node.value

def values (l : DList α) : List α := l.iternodes.filterMap l.value?

end DList

/-! ### Cells -/

/-- The address the cells begin at, or else `after`. -/
def first (after : Option ℕ) (cells : List (ℕ × α)) : Option ℕ :=
  (cells.head?.map Prod.fst).or after

/-- The address the cells end at, or else `before`. -/
def final (before : Option ℕ) (cells : List (ℕ × α)) : Option ℕ :=
  (cells.getLast?.map Prod.fst).or before

/-- The cells are in the heap and chained, between the addresses `before` and `after`. -/
def Segment (heap : List (Node α)) (before after : Option ℕ) : List (ℕ × α) → Prop
  | [] => True
  | cell :: cells =>
      heap[cell.1]? = some ⟨cell.2, before, first after cells⟩ ∧
        Segment heap (some cell.1) after cells

structure Holds (l : DList α) (cells : List (ℕ × α)) : Prop where
  start : l.start = first none cells
  finish : l.finish = final none cells
  segment : Segment l.heap none none cells
  nodup : (cells.map Prod.fst).Nodup

variable {heap heap' : List (Node α)} {before after : Option ℕ} {cells xs ys : List (ℕ × α)}
  {l : DList α} {a : ℕ} {v w : α}

@[simp]
theorem first_nil : first after ([] : List (ℕ × α)) = after := rfl

@[simp]
theorem first_cons (cell : ℕ × α) : first after (cell :: cells) = some cell.1 := rfl

@[simp]
theorem final_nil : final before ([] : List (ℕ × α)) = before := rfl

@[simp]
theorem final_append_singleton (cell : ℕ × α) : final before (cells ++ [cell]) = some cell.1 := by
  simp [final]

theorem final_cons (cell : ℕ × α) :
    final before (cell :: cells) = final (some cell.1) cells := by
  rcases List.eq_nil_or_concat cells with rfl | ⟨init, last, rfl⟩
  · rfl
  · rw [← List.concat_cons, List.concat_eq_append, List.concat_eq_append, final_append_singleton,
      final_append_singleton]

theorem first_append : first after (xs ++ ys) = first (first after ys) xs := by
  cases xs <;> rfl

theorem final_append : final before (xs ++ ys) = final (final before xs) ys := by
  induction xs generalizing before with
  | nil => rfl
  | cons cell xs ih => rw [List.cons_append, final_cons, ih, final_cons]

theorem segment_append : Segment heap before after (xs ++ ys) ↔
    Segment heap before (first after ys) xs ∧ Segment heap (final before xs) after ys := by
  induction xs generalizing before with
  | nil => simp [Segment]
  | cons cell xs ih =>
    rw [List.cons_append, Segment, Segment, ih, first_append, final_cons, and_assoc]

theorem Segment.lookup (h : Segment heap before after cells) {cell : ℕ × α} (hmem : cell ∈ cells) :
    heap[cell.1]?.map Node.value = some cell.2 := by
  induction cells generalizing before with
  | nil => cases hmem
  | cons head cells ih =>
    rcases List.mem_cons.mp hmem with rfl | hmem
    · rw [h.1]
      rfl
    · exact ih h.2 hmem

/-- A heap that agrees at the addresses of the cells holds them too. -/
theorem Segment.frame (h : Segment heap before after cells)
    (hagree : ∀ a ∈ cells.map Prod.fst, heap'[a]? = heap[a]?) :
    Segment heap' before after cells := by
  induction cells generalizing before with
  | nil => trivial
  | cons cell cells ih =>
    refine ⟨?_, ih h.2 fun a hmem => hagree a (List.mem_cons_of_mem _ hmem)⟩
    rw [hagree cell.1 List.mem_cons_self]
    exact h.1

theorem Segment.lt_length (h : Segment heap before after cells) (hmem : a ∈ cells.map Prod.fst) :
    a < heap.length := by
  obtain ⟨cell, hcell, rfl⟩ := List.mem_map.mp hmem
  have hlookup := h.lookup hcell
  rcases Nat.lt_or_ge cell.1 heap.length with hlt | hge
  · exact hlt
  · rw [List.getElem?_eq_none hge] at hlookup
    cases hlookup

theorem Holds.mem_iff (h : Holds l cells) : (a, v) ∈ cells → l.value? a = some v :=
  fun hmem => h.segment.lookup hmem

theorem Holds.lt_length (h : Holds l cells) (hmem : a ∈ cells.map Prod.fst) : a < l.heap.length :=
  h.segment.lt_length hmem

theorem holds_empty : Holds (.empty : DList α) [] := ⟨rfl, rfl, trivial, List.nodup_nil⟩

/-! ### Walking -/

theorem iternodesFrom_segment (h : Segment heap before none cells) {fuel : ℕ}
    (hfuel : cells.length ≤ fuel) :
    DList.iternodesFrom heap fuel (first none cells) = cells.map Prod.fst := by
  induction cells generalizing before fuel with
  | nil => cases fuel <;> rfl
  | cons cell cells ih =>
    cases fuel with
    | zero => cases hfuel
    | succ fuel =>
      rw [first_cons, DList.iternodesFrom, h.1]
      exact congrArg (cell.1 :: ·) (ih h.2 (Nat.le_of_succ_le_succ hfuel))

theorem Holds.length_le (h : Holds l cells) : cells.length ≤ l.heap.length := by
  have hsubset : cells.map Prod.fst ⊆ List.range l.heap.length := fun a hmem =>
    List.mem_range.mpr (h.lt_length hmem)
  have hle := (List.subperm_of_subset h.nodup hsubset).length_le
  simpa using hle

theorem Holds.iternodes (h : Holds l cells) : l.iternodes = cells.map Prod.fst := by
  rw [DList.iternodes, h.start]
  exact iternodesFrom_segment h.segment h.length_le

theorem Holds.values (h : Holds l cells) : l.values = cells.map Prod.snd := by
  rw [DList.values, h.iternodes, List.filterMap_map]
  have hvalue : ∀ cell ∈ cells, (l.value? ∘ Prod.fst) cell = some cell.2 := fun cell hmem =>
    h.segment.lookup hmem
  rw [List.filterMap_congr hvalue, List.filterMap_eq_map']

theorem Holds.start_eq_none (h : Holds l cells) : l.start = none ↔ cells = [] := by
  rw [h.start]
  cases cells <;> simp

/-! ### Operations -/

theorem length_setNext (node next : Option ℕ) :
    (DList.setNext heap node next).length = heap.length := by
  cases node <;> simp [DList.setNext]

theorem getElem?_setNext {node next : Option ℕ} (hne : node ≠ some a) :
    (DList.setNext heap node next)[a]? = heap[a]? := by
  cases node with
  | none => rfl
  | some b => simp [DList.setNext, show b ≠ a from fun h => hne (h ▸ rfl)]

theorem getElem?_setPrev {node prev : Option ℕ} (hne : node ≠ some a) :
    (DList.setPrev heap node prev)[a]? = heap[a]? := by
  cases node with
  | none => rfl
  | some b => simp [DList.setPrev, show b ≠ a from fun h => hne (h ▸ rfl)]

theorem final_mem (h : final none cells = some a) : a ∈ cells.map Prod.fst := by
  rcases List.eq_nil_or_concat cells with rfl | ⟨init, last, rfl⟩
  · cases h
  · rw [List.concat_eq_append, final_append_singleton] at h
    cases h
    simp

theorem first_mem (h : first none cells = some a) : a ∈ cells.map Prod.fst := by
  cases cells with
  | nil => cases h
  | cons cell cells =>
    cases h
    exact List.mem_cons_self

/-- The last cell now leads to `next`. -/
theorem Segment.setNext (h : Segment heap none after cells) (hnodup : (cells.map Prod.fst).Nodup)
    (next : Option ℕ) :
    Segment (DList.setNext heap (final none cells) next) none next cells := by
  rcases List.eq_nil_or_concat cells with rfl | ⟨init, last, rfl⟩
  · trivial
  · rw [List.concat_eq_append] at h hnodup ⊢
    rw [List.map_append, List.nodup_append'] at hnodup
    obtain ⟨hinit, hlast⟩ := segment_append.mp h
    rw [final_append_singleton, segment_append]
    refine ⟨hinit.frame fun a hmem => getElem?_setNext ?_, ?_, trivial⟩
    · intro heq
      cases heq
      exact hnodup.2.2 hmem List.mem_cons_self
    · rw [DList.setNext, List.getElem?_modify_eq, hlast.1]
      rfl

/-- The first cell is now preceded by `prev`. -/
theorem Segment.setPrev (h : Segment heap before none cells) (hnodup : (cells.map Prod.fst).Nodup)
    (prev : Option ℕ) :
    Segment (DList.setPrev heap (first none cells) prev) prev none cells := by
  cases cells with
  | nil => trivial
  | cons cell cells =>
    rw [List.map_cons, List.nodup_cons] at hnodup
    refine ⟨?_, h.2.frame fun a hmem => getElem?_setPrev ?_⟩
    · rw [first_cons, DList.setPrev, List.getElem?_modify_eq, h.1]
      rfl
    · intro heq
      cases heq
      exact hnodup.1 hmem

theorem Holds.append (h : Holds l cells) (value : α) :
    Holds (l.append value).1 (cells ++ [((l.append value).2, value)]) := by
  have haddress : (l.append value).2 = l.heap.length := by
    rw [DList.append]
    cases l.start <;> rfl
  have hfresh : l.heap.length ∉ cells.map Prod.fst := fun hmem => Nat.lt_irrefl _ (h.lt_length hmem)
  have hnodup : ((cells ++ [(l.heap.length, value)]).map Prod.fst).Nodup := by
    rw [List.map_append, List.nodup_append']
    exact ⟨h.nodup, List.nodup_singleton _, by simpa using hfresh⟩
  rw [haddress]
  cases hstart : l.start with
  | none =>
    have hcells := h.start_eq_none.mp hstart
    subst hcells
    simp only [DList.append, hstart]
    exact ⟨rfl, rfl, ⟨by simp [first], trivial⟩, hnodup⟩
  | some a =>
    have hheap : (l.append value).1 =
        { heap := DList.setNext l.heap l.finish (some l.heap.length) ++ [⟨value, l.finish, none⟩],
          start := some a, finish := some l.heap.length } := by
      simp only [DList.append, hstart]
    rw [hheap, h.finish]
    refine ⟨?_, by simp, ?_, hnodup⟩
    · have hfirst := h.start.symm.trans hstart
      cases cells with
      | nil => cases hfirst
      | cons cell cells => exact hfirst.symm
    · have hlinked := h.segment.setNext h.nodup (some l.heap.length)
      rw [segment_append]
      refine ⟨hlinked.frame fun b hmem => ?_, ?_, trivial⟩
      · rw [List.getElem?_append_left]
        rw [length_setNext]
        exact h.lt_length hmem
      · rw [List.getElem?_append_right (Nat.le_of_eq (length_setNext _ _)), length_setNext]
        simp

/-- Unlinking a node takes its cell out and keeps the others in order. -/
theorem Holds.unlink (h : Holds l (xs ++ (a, v) :: ys)) : Holds (l.unlink a) (xs ++ ys) := by
  have hnodup := h.nodup
  rw [List.map_append, List.map_cons, List.nodup_append', List.nodup_cons] at hnodup
  obtain ⟨hxs, ⟨ha, hys⟩, hdisjoint⟩ := hnodup
  obtain ⟨hleft, hcell, hright⟩ := segment_append.mp h.segment
  have hstart : l.start = first (some a) xs := by
    rw [h.start, first_append]
    rfl
  have hfinish : l.finish = final (some a) ys := by rw [h.finish, final_append, final_cons]
  rw [DList.unlink, hcell]
  refine ⟨?_, ?_, ?_, ?_⟩
  · show (if l.start = some a then first none ys else l.start) = first none (xs ++ ys)
    rw [hstart, first_append]
    cases xs with
    | nil => simp
    | cons cell xs =>
      have hne : cell.1 ≠ a := fun heq => hdisjoint List.mem_cons_self (heq ▸ List.mem_cons_self)
      simp [hne]
  · show (if l.finish = some a then final none xs else l.finish) = final none (xs ++ ys)
    rw [hfinish, final_append]
    rcases List.eq_nil_or_concat ys with rfl | ⟨init, last, rfl⟩
    · simp
    · rw [List.concat_eq_append] at ha ⊢
      have hne : last.1 ≠ a := fun heq => ha (by simp [heq])
      simp [hne]
  · have hnext := hleft.setNext hxs (first none ys)
    rw [segment_append]
    refine ⟨hnext.frame fun b hmem => getElem?_setPrev ?_, ?_⟩
    · intro heq
      exact hdisjoint hmem (List.mem_cons_of_mem _ (first_mem heq))
    · refine Segment.setPrev (hright.frame fun b hmem => getElem?_setNext ?_) hys _
      intro heq
      exact hdisjoint (final_mem heq) (List.mem_cons_of_mem _ hmem)
  · rw [List.map_append, List.nodup_append']
    exact ⟨hxs, hys, fun b hb hb' => hdisjoint hb (List.mem_cons_of_mem _ hb')⟩

/-- An assignment changes the value of the one cell. -/
theorem Holds.assign (h : Holds l (xs ++ (a, v) :: ys)) (w : α) :
    Holds (l.assign a w) (xs ++ (a, w) :: ys) := by
  have hnodup := h.nodup
  rw [List.map_append, List.map_cons, List.nodup_append', List.nodup_cons] at hnodup
  obtain ⟨-, ⟨ha, -⟩, hdisjoint⟩ := hnodup
  obtain ⟨hleft, hcell, hright⟩ := segment_append.mp h.segment
  refine ⟨?_, ?_, ?_, by simpa using h.nodup⟩
  · rw [DList.assign, h.start, first_append, first_append]
    rfl
  · rw [DList.assign, h.finish, final_append, final_append, final_cons, final_cons]
  · rw [segment_append]
    refine ⟨hleft.frame fun b hmem => ?_, ?_, hright.frame fun b hmem => ?_⟩
    · rw [DList.assign, List.getElem?_modify_ne]
      rintro rfl
      exact hdisjoint hmem List.mem_cons_self
    · rw [DList.assign, List.getElem?_modify_eq, hcell]
      rfl
    · rw [DList.assign, List.getElem?_modify_ne]
      rintro rfl
      exact ha hmem

/-- Unlinking some nodes, each once, takes their cells out. -/
theorem Holds.unlink_all (h : Holds l cells) {nodes : List ℕ} (hnodes : nodes.Nodup)
    (hmem : ∀ a ∈ nodes, a ∈ cells.map Prod.fst) :
    Holds (nodes.foldl DList.unlink l) (cells.filter fun cell => cell.1 ∉ nodes) := by
  induction nodes generalizing l cells with
  | nil => simpa using h
  | cons a nodes ih =>
    obtain ⟨ha, hrestNodup⟩ := List.nodup_cons.mp hnodes
    obtain ⟨⟨b, v⟩, hcell, rfl⟩ := List.mem_map.mp (hmem a List.mem_cons_self)
    obtain ⟨xs, ys, rfl⟩ := List.append_of_mem hcell
    have hnodup := h.nodup
    rw [List.map_append, List.map_cons, List.nodup_append', List.nodup_cons] at hnodup
    obtain ⟨-, ⟨hys, -⟩, hdisjoint⟩ := hnodup
    have hrest : ∀ c ∈ nodes, c ∈ (xs ++ ys).map Prod.fst := by
      intro c hc
      have hin := hmem c (List.mem_cons_of_mem _ hc)
      rw [List.map_append, List.map_cons, List.mem_append, List.mem_cons] at hin
      rw [List.map_append, List.mem_append]
      rcases hin with hin | rfl | hin
      · exact .inl hin
      · exact absurd hc ha
      · exact .inr hin
    have hfilter : (xs ++ (b, v) :: ys).filter (fun cell => cell.1 ∉ b :: nodes) =
        (xs ++ ys).filter fun cell => cell.1 ∉ nodes := by
      have hne : ∀ zs : List (ℕ × α), b ∉ zs.map Prod.fst →
          zs.filter (fun cell => cell.1 ∉ b :: nodes) = zs.filter fun cell => cell.1 ∉ nodes := by
        intro zs hzs
        refine List.filter_congr fun cell hmem => ?_
        have hne : cell.1 ≠ b := fun heq => hzs (heq ▸ List.mem_map_of_mem hmem)
        simp [hne]
      rw [List.filter_append, List.filter_cons, List.filter_append, hne ys hys, hne xs]
      · simp
      · exact fun hxs => hdisjoint hxs List.mem_cons_self
    rw [List.foldl_cons, hfilter]
    exact ih h.unlink hrestNodup hrest

/-- An assignment at one of the addresses. -/
theorem Holds.assign_map (h : Holds l cells) (hmem : a ∈ cells.map Prod.fst) (w : α) :
    Holds (l.assign a w) (cells.map fun cell => if cell.1 = a then (a, w) else cell) := by
  obtain ⟨⟨b, v⟩, hcell, rfl⟩ := List.mem_map.mp hmem
  obtain ⟨xs, ys, rfl⟩ := List.append_of_mem hcell
  have hnodup := h.nodup
  rw [List.map_append, List.map_cons, List.nodup_append', List.nodup_cons] at hnodup
  obtain ⟨-, ⟨hys, -⟩, hdisjoint⟩ := hnodup
  have hsame : ∀ zs : List (ℕ × α), b ∉ zs.map Prod.fst →
      zs.map (fun cell => if cell.1 = b then (b, w) else cell) = zs := by
    intro zs hzs
    refine (List.map_congr_left fun cell hmem => if_neg ?_).trans (List.map_id zs)
    exact fun heq => hzs (heq ▸ List.mem_map_of_mem hmem)
  rw [List.map_append, List.map_cons, hsame ys hys,
    hsame xs fun hxs => hdisjoint hxs List.mem_cons_self]
  rw [if_pos rfl]
  exact h.assign w

/-! ### The order of nodes -/

theorem filterMap_idxOf?_cons {b : ℕ} {addresses nodes : List ℕ} (hb : b ∉ nodes) :
    nodes.filterMap (fun a => (b :: addresses).idxOf? a) =
      (nodes.filterMap fun a => addresses.idxOf? a).map (· + 1) := by
  rw [List.map_filterMap]
  refine List.filterMap_congr fun a ha => ?_
  have hne : (b == a) = false := beq_eq_false_iff_ne.mpr fun heq => hb (heq ▸ ha)
  rw [List.idxOf?_cons, hne]
  rfl

/-- Nodes that are listed in the order of the walk are found in that order. -/
theorem pairwise_idxOf? {addresses nodes : List ℕ} (hnodup : addresses.Nodup)
    (h : nodes.Sublist addresses) :
    (nodes.filterMap fun a => addresses.idxOf? a).Pairwise (· < ·) := by
  induction h with
  | slnil => exact List.Pairwise.nil
  | @cons nodes addresses b hsub ih =>
    obtain ⟨hb, hnodup⟩ := List.nodup_cons.mp hnodup
    rw [filterMap_idxOf?_cons fun hmem => hb (hsub.subset hmem), List.pairwise_map]
    exact (ih hnodup).imp fun hlt => by omega
  | @cons_cons nodes addresses b hsub ih =>
    obtain ⟨hb, hnodup⟩ := List.nodup_cons.mp hnodup
    have hfirst : (b :: addresses).idxOf? b = some 0 := by simp [List.idxOf?_cons]
    rw [List.filterMap_cons, hfirst, filterMap_idxOf?_cons fun hmem => hb (hsub.subset hmem),
      List.pairwise_cons, List.pairwise_map]
    refine ⟨?_, (ih hnodup).imp fun hlt => by omega⟩
    intro i hi
    obtain ⟨j, -, rfl⟩ := List.mem_map.mp hi
    omega

theorem Holds.findNode_sorted (h : Holds l cells) {nodes : List ℕ}
    (hsub : nodes.Sublist (cells.map Prod.fst)) :
    (nodes.filterMap l.findNode).Pairwise (· < ·) := by
  have hfind : l.findNode = fun a => (cells.map Prod.fst).idxOf? a := by
    funext a
    rw [DList.findNode, h.iternodes]
  rw [hfind]
  exact pairwise_idxOf? h.nodup hsub

theorem Holds.findNode_isSome (h : Holds l cells) :
    (l.findNode a).isSome = true ↔ a ∈ cells.map Prod.fst := by
  rw [DList.findNode, h.iternodes, List.isSome_idxOf?]

end LinkedList
