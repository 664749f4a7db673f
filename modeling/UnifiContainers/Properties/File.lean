import UnifiContainers.Lib.LinkedList
import UnifiContainers.Properties.Editing

/-!
# The file object

`PropertiesFile` keeps its elements in a linked list and, for every key, the nodes that hold it. The
two say the same at any time, and an operation on them is the operation on the elements.
-/

namespace UnifiContainers.Properties

open LinkedList OrderedDict

structure PropertiesFile where
  key2nodes : List (Key × List ℕ)
  lines : DList Element

/-- What the dict holds for one key, changed where it stands. -/
def adjust (key : Key) (f : List ℕ → List ℕ) (key2nodes : List (Key × List ℕ)) :
    List (Key × List ℕ) :=
  key2nodes.map fun entry => if entry.1 = key then (entry.1, f entry.2) else entry

/-- `d.setdefault(key, []).append(node)` -/
def setdefaultAppend (key2nodes : List (Key × List ℕ)) (key : Key) (node : ℕ) :
    List (Key × List ℕ) :=
  match key2nodes.lookup key with
  | none => key2nodes ++ [(key, [node])]
  | some _ => adjust key (· ++ [node]) key2nodes

namespace PropertiesFile

def empty : PropertiesFile := ⟨[], .empty⟩

/-- The body of the loop of `load`. -/
def addElement (file : PropertiesFile) (elem : Element) : PropertiesFile :=
  let appended := file.lines.append elem
  match elem.entry? with
  | none => { file with lines := appended.1 }
  | some entry =>
      { key2nodes := setdefaultAppend file.key2nodes entry.1 appended.2, lines := appended.1 }

def load (elements : List Element) : PropertiesFile := elements.foldl addElement empty

def loads (text : List Char) : Except InvalidUEscapeError PropertiesFile := load <$> parse text

/-- `__getitem__` -/
def getItem (file : PropertiesFile) (key : Key) : Option Value := do
  let nodes ← file.key2nodes.lookup key
  let node ← nodes.getLast?
  let element ← file.lines.value? node
  let entry ← element.entry?
  return entry.2

/-- The last line of the file, made ready for another. -/
def endLine (lines : DList Element) : DList Element :=
  match lines.finish with
  | none => lines
  | some last =>
      match lines.value? last with
      | none => lines
      | some lastline =>
          if lastline.isFresh then lines else lines.assign last lastline.endLine

/-- `__setitem__` -/
def setItem (file : PropertiesFile) (key : Key) (value : Value) : PropertiesFile :=
  match file.key2nodes.lookup key with
  | none =>
      let appended := (endLine file.lines).append (fresh key value)
      { key2nodes := file.key2nodes ++ [(key, [appended.2])], lines := appended.1 }
  -- `nodes.pop(0)` of an empty list, which no key is left with
  | some [] => file
  | some (n0 :: nodes) =>
      { key2nodes := adjust key (fun _ => [n0]) file.key2nodes
        lines := (nodes.foldl DList.unlink file.lines).assign n0 (fresh key value) }

/-- `__delitem__`, which raises for a key that is not there. -/
def delItem (file : PropertiesFile) (key : Key) : Option PropertiesFile :=
  (file.key2nodes.lookup key).map fun nodes =>
    { key2nodes := file.key2nodes.filter fun entry => entry.1 != key
      lines := nodes.foldl DList.unlink file.lines }

def dumps (file : PropertiesFile) : List Char := Properties.dumps file.lines.values

/-- `items`, in the order of `__iter__`. -/
def items (file : PropertiesFile) : List (Key × Value) :=
  (keys file.key2nodes).filterMap fun key => (file.getItem key).map fun value => (key, value)

end PropertiesFile

/-! ### The index -/

section

variable {key other : Key} {node : ℕ} {key2nodes : List (Key × List ℕ)} {f : List ℕ → List ℕ}

theorem lookup_adjust : (adjust key f key2nodes).lookup other =
    if other = key then (key2nodes.lookup other).map f else key2nodes.lookup other := by
  induction key2nodes with
  | nil => simp [adjust]
  | cons entry rest ih =>
    obtain ⟨k, nodes⟩ := entry
    have hcons : adjust key f ((k, nodes) :: rest) =
        (if k = key then (k, f nodes) else (k, nodes)) :: adjust key f rest := rfl
    rw [hcons]
    by_cases hother : other = k
    · subst hother
      by_cases hk : other = key <;> simp [hk]
    · have hbeq : (other == k) = false := beq_eq_false_iff_ne.mpr hother
      by_cases hk : k = key
      · rw [if_pos hk, List.lookup_cons, List.lookup_cons, hbeq]
        exact ih
      · rw [if_neg hk, List.lookup_cons, List.lookup_cons, hbeq]
        exact ih

theorem keys_adjust : keys (adjust key f key2nodes) = keys key2nodes := by
  rw [keys, adjust, List.map_map]
  refine List.map_congr_left fun entry _ => ?_
  rw [Function.comp_apply]
  split <;> rfl

theorem lookup_concat (h : key2nodes.lookup key = none) (nodes : List ℕ) :
    (key2nodes ++ [(key, nodes)]).lookup other =
      if other = key then some nodes else key2nodes.lookup other := by
  rw [List.lookup_append]
  by_cases hother : other = key
  · subst hother
    simp [h]
  · have hbeq : (other == key) = false := beq_eq_false_iff_ne.mpr hother
    simp [hother, List.lookup_cons, hbeq]

theorem lookup_eq_none_iff_keys : key2nodes.lookup key = none ↔ key ∉ keys key2nodes := by
  rw [List.lookup_eq_none_iff]
  simp only [keys, List.mem_map, not_exists, not_and, Prod.forall, bne_iff_ne]
  exact ⟨fun h k nodes hmem heq => h k nodes hmem (Eq.symm heq),
    fun h k nodes hmem heq => h k nodes hmem (Eq.symm heq)⟩

theorem lookup_setdefaultAppend : (setdefaultAppend key2nodes key node).lookup other =
    if other = key then some ((key2nodes.lookup key).getD [] ++ [node])
    else key2nodes.lookup other := by
  rw [setdefaultAppend]
  cases h : key2nodes.lookup key with
  | none => exact lookup_concat h [node]
  | some nodes =>
    rw [lookup_adjust]
    by_cases hother : other = key
    · subst hother
      simp [h]
    · simp [hother]

theorem keys_concat (key2nodes : List (Key × List ℕ)) (key : Key) (nodes : List ℕ) :
    keys (key2nodes ++ [(key, nodes)]) = keys key2nodes ++ [key] := by
  rw [keys, List.map_append]
  rfl

/-- The index gets the key where the dict gets it. -/
theorem keys_setdefaultAppend {items : List (Key × Value)} (h : keys key2nodes = keys items)
    (value : Value) : keys (setdefaultAppend key2nodes key node) = keys (set items key value) := by
  rw [setdefaultAppend, keys_set, ← h]
  cases hlookup : key2nodes.lookup key with
  | none => rw [if_neg (lookup_eq_none_iff_keys.mp hlookup), keys_concat]
  | some nodes =>
    have hmem : key ∈ keys key2nodes := by
      by_contra hnot
      rw [lookup_eq_none_iff_keys.mpr hnot] at hlookup
      cases hlookup
    rw [if_pos hmem]
    exact keys_adjust

theorem lookup_filter_ne : (key2nodes.filter fun entry => entry.1 != key).lookup other =
    if other = key then none else key2nodes.lookup other := by
  induction key2nodes with
  | nil => simp
  | cons entry rest ih =>
    obtain ⟨k, nodes⟩ := entry
    rw [List.filter_cons]
    by_cases hk : k = key
    · subst hk
      rw [if_neg (by simp), ih, List.lookup_cons]
      by_cases hother : other = k
      · simp [hother]
      · have hbeq : (other == k) = false := beq_eq_false_iff_ne.mpr hother
        rw [hbeq]
    · rw [if_pos (by simpa using hk), List.lookup_cons, List.lookup_cons, ih]
      by_cases hother : other = k
      · subst hother
        simp [hk]
      · have hbeq : (other == k) = false := beq_eq_false_iff_ne.mpr hother
        rw [hbeq]

end

/-! ### The file and its elements -/

/-- The nodes that hold a key, in the order of the file. -/
def nodesOf (key : Key) (cells : List (ℕ × Element)) : List ℕ :=
  (cells.filter fun cell => cell.2.hasKey key).map Prod.fst

/-- The list of the file holds the cells, and the dict leads from each key to its nodes. -/
structure Represents (file : PropertiesFile) (cells : List (ℕ × Element)) : Prop where
  lines : Holds file.lines cells
  index : ∀ key, file.key2nodes.lookup key =
    if nodesOf key cells = [] then none else some (nodesOf key cells)
  keys : keys file.key2nodes = keys (itemsOf (cells.map Prod.snd))

variable {file : PropertiesFile} {cells xs ys : List (ℕ × Element)} {key other : Key}
  {value : Value} {a n0 : ℕ} {nodes : List ℕ} {e : Element} {text : List Char}

@[simp]
theorem nodesOf_nil : nodesOf key [] = [] := rfl

theorem nodesOf_append : nodesOf key (xs ++ ys) = nodesOf key xs ++ nodesOf key ys := by
  rw [nodesOf, List.filter_append, List.map_append]
  rfl

theorem nodesOf_cons (key : Key) (cell : ℕ × Element) : nodesOf key (cell :: cells) =
    (if cell.2.hasKey key then [cell.1] else []) ++ nodesOf key cells := by
  rw [nodesOf, List.filter_cons]
  split <;> rfl

theorem nodesOf_eq_nil : nodesOf key cells = [] ↔
    (cells.map Prod.snd).any (Element.hasKey key) = false := by
  rw [nodesOf, List.map_eq_nil_iff, List.filter_eq_nil_iff, List.any_eq_false]
  simp only [List.mem_map, Prod.forall, forall_exists_index, and_imp]
  constructor
  · rintro h x n e hmem rfl
    exact h n e hmem
  · exact fun h n e hmem => h e n e hmem rfl

theorem hasKey_eq {entry : Key × Value} (h : e.entry? = some entry) :
    e.hasKey other = (entry.1 == other) := by
  rw [Element.hasKey, h, Option.any_some]

theorem Represents.lookup_eq_none (h : Represents file cells) :
    file.key2nodes.lookup key = none ↔ nodesOf key cells = [] := by
  rw [h.index]
  split <;> simp_all

theorem Represents.nodup (h : Represents file cells) : (OrderedDict.keys file.key2nodes).Nodup := by
  rw [h.keys]
  exact nodup_ofItems _

theorem represents_empty : Represents .empty [] :=
  ⟨holds_empty, fun _ => rfl, rfl⟩

/-- The loop of `load` adds one element to the list and, for an entry, one node to its key. -/
theorem Represents.addElement (h : Represents file cells) (e : Element) :
    Represents (file.addElement e) (cells ++ [((file.lines.append e).2, e)]) := by
  have hlines := h.lines.append e
  have hitems : itemsOf ((cells ++ [((file.lines.append e).2, e)]).map Prod.snd) =
      update (itemsOf (cells.map Prod.snd)) (entries [e]) := by
    rw [List.map_append, itemsOf, entries_append, ofItems, update_append]
    rfl
  rw [PropertiesFile.addElement]
  cases hentry : e.entry? with
  | none =>
    refine ⟨hlines, fun key => ?_, by rw [hitems, entries_singleton, hentry]; exact h.keys⟩
    have hkey : e.hasKey key = false := by rw [Element.hasKey, hentry]; rfl
    rw [nodesOf_append, nodesOf_cons, hkey, h.index]
    simp
  | some entry =>
    refine ⟨hlines, fun key => ?_, ?keys⟩
    case keys =>
      rw [hitems, entries_singleton, hentry]
      exact keys_setdefaultAppend h.keys entry.2
    rw [nodesOf_append, nodesOf_cons, hasKey_eq hentry, lookup_setdefaultAppend]
    by_cases hkey : key = entry.1
    · subst hkey
      rw [if_pos rfl, h.index]
      by_cases hnil : nodesOf entry.1 cells = []
      · simp [hnil]
      · simp [hnil]
    · have hbeq : (entry.1 == key) = false := beq_eq_false_iff_ne.mpr (Ne.symm hkey)
      rw [if_neg hkey, h.index, hbeq]
      simp

theorem represents_load (elements : List Element) :
    ∃ cells, Represents (PropertiesFile.load elements) cells ∧ cells.map Prod.snd = elements := by
  have hfold : ∀ file cells, Represents file cells → ∃ cells',
      Represents (elements.foldl PropertiesFile.addElement file) cells' ∧
        cells'.map Prod.snd = cells.map Prod.snd ++ elements := by
    induction elements with
    | nil => exact fun file cells h => ⟨cells, h, (List.append_nil _).symm⟩
    | cons e rest ih =>
      intro file cells h
      obtain ⟨cells', hcells, hmap⟩ := ih _ _ (h.addElement e)
      refine ⟨cells', hcells, ?_⟩
      rw [hmap, List.map_append, List.append_assoc]
      rfl
  exact hfold .empty [] represents_empty

/-- The last node of a key gives its value. -/
theorem Represents.getItem (h : Represents file cells) (key : Key) :
    file.getItem key = (itemsOf (cells.map Prod.snd)).lookup key := by
  rw [lookup_itemsOf, List.filter_map, PropertiesFile.getItem, h.index, nodesOf]
  have hcomp : Element.hasKey key ∘ Prod.snd = fun cell : ℕ × Element => cell.2.hasKey key := rfl
  rw [hcomp]
  rcases List.eq_nil_or_concat (cells.filter fun cell => cell.2.hasKey key) with
    hnil | ⟨init, cell, hlast⟩
  · rw [hnil]
    rfl
  · rw [List.concat_eq_append] at hlast
    have hcell : cell ∈ cells.filter fun cell => cell.2.hasKey key := by simp [hlast]
    obtain ⟨hmem, hkey⟩ := List.mem_filter.mp hcell
    have hvalue : file.lines.value? cell.1 = some cell.2 := h.lines.mem_iff hmem
    obtain ⟨value, source, hentry⟩ := hasKey_iff.mp hkey
    rw [hlast]
    simp [hvalue, hentry, Element.entry?]

/-- A file is iterated like the dict of its entries. -/
theorem Represents.items (h : Represents file cells) :
    file.items = itemsOf (cells.map Prod.snd) := by
  rw [PropertiesFile.items, h.keys, funext h.getItem]
  exact filterMap_keys (nodup_ofItems _)

theorem Represents.dumps (h : Represents file cells) :
    file.dumps = Properties.dumps (cells.map Prod.snd) := by
  rw [PropertiesFile.dumps, h.lines.values]

/-! ### Setting a key -/

theorem hasKey_endLine (e : Element) (key : Key) : e.endLine.hasKey key = e.hasKey key := by
  rw [Element.hasKey, endLine_entry, Element.hasKey]

/-- The last element is changed where it is. -/
theorem Represents.endLine (h : Represents file cells) :
    ∃ cells', Holds (PropertiesFile.endLine file.lines) cells' ∧
      cells'.map Prod.snd = endLast (cells.map Prod.snd) ∧
      ∀ key, nodesOf key cells' = nodesOf key cells := by
  rcases List.eq_nil_or_concat cells with rfl | ⟨init, ⟨a, e⟩, rfl⟩
  · have hfinish : file.lines.finish = none := h.lines.finish
    refine ⟨[], ?_, rfl, fun _ => rfl⟩
    simp only [PropertiesFile.endLine, hfinish]
    exact h.lines
  · rw [List.concat_eq_append] at h ⊢
    have hfinish : file.lines.finish = some a := by rw [h.lines.finish, final_append_singleton]
    have hvalue : file.lines.value? a = some e := h.lines.mem_iff (by simp)
    simp only [PropertiesFile.endLine, hfinish, hvalue]
    rw [List.map_append, List.map_singleton, endLast_concat]
    split
    · exact ⟨init ++ [(a, e)], h.lines, by simp, fun _ => rfl⟩
    · refine ⟨init ++ [(a, e.endLine)], h.lines.assign e.endLine, by simp, fun key => ?_⟩
      rw [nodesOf_append, nodesOf_append, nodesOf_cons, nodesOf_cons, hasKey_endLine]

/-- The cells of a file whose first entry of the key is rewritten and whose others are gone. -/
def rewriteCells (key : Key) (value : Value) : List (ℕ × Element) → List (ℕ × Element)
  | [] => []
  | cell :: rest =>
      if cell.2.hasKey key then
        (cell.1, fresh key value) :: rest.filter fun other => !other.2.hasKey key
      else cell :: rewriteCells key value rest

theorem map_rewriteCells (cells : List (ℕ × Element)) :
    (rewriteCells key value cells).map Prod.snd = rewrite key value (cells.map Prod.snd) := by
  induction cells with
  | nil => rfl
  | cons cell rest ih =>
    rw [rewriteCells, List.map_cons, rewrite]
    split
    · rw [List.map_cons, List.filter_map]
      rfl
    · rw [List.map_cons, ih]

theorem mem_nodesOf (key : Key) (hnodup : (cells.map Prod.fst).Nodup) {cell : ℕ × Element}
    (hmem : cell ∈ cells) : cell.1 ∈ nodesOf key cells ↔ cell.2.hasKey key = true := by
  rw [nodesOf, List.mem_map]
  constructor
  · rintro ⟨other, hother, heq⟩
    obtain ⟨hother, hkey⟩ := List.mem_filter.mp hother
    have hsame : other = cell := List.inj_on_of_nodup_map hnodup hother hmem heq
    exact hsame ▸ hkey
  · exact fun hkey => ⟨cell, List.mem_filter.mpr ⟨hmem, hkey⟩, rfl⟩

theorem nodesOf_subset : nodesOf key cells ⊆ cells.map Prod.fst := by
  intro n hn
  obtain ⟨cell, hcell, rfl⟩ := List.mem_map.mp hn
  exact List.mem_map_of_mem (List.mem_filter.mp hcell).1

/-- Unlinking the later nodes and assigning to the first one rewrites the cells. -/
theorem rewriteCells_eq (hnodup : (cells.map Prod.fst).Nodup)
    (hnodes : nodesOf key cells = n0 :: nodes) (value : Value) :
    ((cells.filter fun cell => cell.1 ∉ nodes).map fun cell =>
      if cell.1 = n0 then (n0, fresh key value) else cell) = rewriteCells key value cells := by
  induction cells with
  | nil => cases hnodes
  | cons cell rest ih =>
    rw [List.map_cons, List.nodup_cons] at hnodup
    obtain ⟨hcell, hnodup⟩ := hnodup
    rw [nodesOf_cons] at hnodes
    rw [rewriteCells]
    cases hkey : cell.2.hasKey key with
    | true =>
      rw [hkey, if_pos rfl, List.singleton_append, List.cons.injEq] at hnodes
      obtain ⟨rfl, rfl⟩ := hnodes
      have hkept : cell.1 ∉ nodesOf key rest := fun hmem => hcell (nodesOf_subset hmem)
      have hrest : rest.filter (fun other => other.1 ∉ nodesOf key rest) =
          rest.filter fun other => !other.2.hasKey key := by
        refine List.filter_congr fun other hmem => ?_
        have hiff := mem_nodesOf key hnodup hmem
        cases hother : other.2.hasKey key <;> simp [hiff, hother]
      have hsame : (rest.filter fun other => !other.2.hasKey key).map (fun other =>
          if other.1 = cell.1 then (cell.1, fresh key value) else other) =
          rest.filter fun other => !other.2.hasKey key := by
        refine (List.map_congr_left fun other hmem => if_neg ?_).trans (List.map_id _)
        exact fun heq => hcell (heq ▸ List.mem_map_of_mem (List.mem_filter.mp hmem).1)
      rw [List.filter_cons, if_pos (by simpa using hkept), hrest, List.map_cons, if_pos rfl, hsame,
        if_pos rfl]
    | false =>
      rw [hkey, if_neg Bool.false_ne_true, List.nil_append] at hnodes
      have hin : ∀ n ∈ n0 :: nodes, n ≠ cell.1 := fun n hn heq =>
        hcell (heq ▸ nodesOf_subset (hnodes ▸ hn))
      have hkept : cell.1 ∉ nodes := fun hmem => hin _ (List.mem_cons_of_mem _ hmem) rfl
      rw [List.filter_cons, if_pos (by simpa using hkept), List.map_cons,
        if_neg (hin n0 List.mem_cons_self).symm, ih hnodup hnodes, if_neg Bool.false_ne_true]

theorem nodesOf_filter_not (cells : List (ℕ × Element)) (key other : Key) :
    nodesOf other (cells.filter fun cell => !cell.2.hasKey key) =
      if other = key then [] else nodesOf other cells := by
  induction cells with
  | nil => simp
  | cons cell rest ih =>
    rw [List.filter_cons]
    cases hkey : cell.2.hasKey key with
    | true =>
      rw [if_neg (by simp), ih, nodesOf_cons]
      split
      · rfl
      · next hne => rw [hasKey_unique hkey hne, if_neg Bool.false_ne_true, List.nil_append]
    | false =>
      rw [if_pos (by simp), nodesOf_cons, ih, nodesOf_cons]
      by_cases hother : other = key
      · subst hother
        simp [hkey]
      · simp [hother]

/-- The key keeps its first node, the other keys all of theirs. -/
theorem nodesOf_rewriteCells (hnodes : nodesOf key cells = n0 :: nodes) (value : Value)
    (other : Key) : nodesOf other (rewriteCells key value cells) =
      if other = key then [n0] else nodesOf other cells := by
  induction cells with
  | nil => cases hnodes
  | cons cell rest ih =>
    rw [nodesOf_cons] at hnodes
    rw [rewriteCells]
    cases hkey : cell.2.hasKey key with
    | true =>
      rw [hkey, if_pos rfl, List.singleton_append, List.cons.injEq] at hnodes
      rw [if_pos rfl, nodesOf_cons, hasKey_fresh, nodesOf_filter_not, nodesOf_cons other]
      by_cases hother : other = key
      · simp [hother, hnodes.1]
      · have hbeq : (key == other) = false := beq_eq_false_iff_ne.mpr (Ne.symm hother)
        simp [hother, hbeq, hasKey_unique hkey hother]
    | false =>
      rw [hkey, if_neg Bool.false_ne_true, List.nil_append] at hnodes
      rw [if_neg Bool.false_ne_true, nodesOf_cons, ih hnodes, nodesOf_cons]
      by_cases hother : other = key
      · subst hother
        simp [hkey]
      · simp [hother]

theorem rewrite_eq_setKey (h : nodesOf key cells ≠ []) :
    rewrite key value (cells.map Prod.snd) = setKey (cells.map Prod.snd) key value := by
  rw [setKey, if_pos]
  rw [← Bool.not_eq_false]
  exact fun hany => h (nodesOf_eq_nil.mpr hany)

/-- `__setitem__` sets the key in the list of elements. -/
theorem Represents.setItem (h : Represents file cells) (key : Key) (value : Value) :
    ∃ cells', Represents (file.setItem key value) cells' ∧
      cells'.map Prod.snd = setKey (cells.map Prod.snd) key value := by
  cases hnodes : nodesOf key cells with
  | nil =>
    have hlookup := h.lookup_eq_none.mpr hnodes
    obtain ⟨ended, hended, hmap, hindex⟩ := h.endLine
    have happend := hended.append (fresh key value)
    simp only [PropertiesFile.setItem, hlookup]
    have hset : ∀ n, (ended ++ [(n, fresh key value)]).map Prod.snd =
        setKey (cells.map Prod.snd) key value := by
      intro n
      rw [setKey, nodesOf_eq_nil.mp hnodes, if_neg Bool.false_ne_true, List.map_append, hmap]
      rfl
    refine ⟨_, ⟨happend, fun other => ?_, ?_⟩, hset _⟩
    · rw [lookup_concat hlookup, nodesOf_append, hindex, nodesOf_cons, hasKey_fresh, h.index]
      by_cases hother : other = key
      · subst hother
        simp [hnodes]
      · have hbeq : (key == other) = false := beq_eq_false_iff_ne.mpr (Ne.symm hother)
        simp [hother, hbeq]
    · rw [hset, itemsOf_setKey, keys_set, ← h.keys, keys_concat,
        if_neg (lookup_eq_none_iff_keys.mp hlookup)]
  | cons n0 nodes =>
    have hlookup : file.key2nodes.lookup key = some (n0 :: nodes) := by
      rw [h.index, hnodes, if_neg (List.cons_ne_nil _ _)]
    have hnodup : (n0 :: nodes).Nodup := by
      rw [← hnodes, nodesOf]
      exact (List.Sublist.map Prod.fst List.filter_sublist).nodup h.lines.nodup
    obtain ⟨hn0, hnodup⟩ := List.nodup_cons.mp hnodup
    have hsubset : ∀ n ∈ n0 :: nodes, n ∈ cells.map Prod.fst := fun n hn =>
      nodesOf_subset (hnodes ▸ hn)
    have hunlinked := h.lines.unlink_all hnodup fun n hn => hsubset n (List.mem_cons_of_mem _ hn)
    have hfirst : n0 ∈ (cells.filter fun cell => cell.1 ∉ nodes).map Prod.fst := by
      obtain ⟨cell, hcell, rfl⟩ := List.mem_map.mp (hsubset n0 List.mem_cons_self)
      exact List.mem_map_of_mem (List.mem_filter.mpr ⟨hcell, by simpa using hn0⟩)
    have hassigned := hunlinked.assign_map hfirst (fresh key value)
    rw [rewriteCells_eq h.lines.nodup hnodes] at hassigned
    simp only [PropertiesFile.setItem, hlookup]
    have hset : (rewriteCells key value cells).map Prod.snd =
        setKey (cells.map Prod.snd) key value := by
      rw [map_rewriteCells, rewrite_eq_setKey]
      rw [hnodes]
      exact List.cons_ne_nil _ _
    refine ⟨rewriteCells key value cells, ⟨hassigned, fun other => ?_, ?_⟩, hset⟩
    · rw [lookup_adjust, nodesOf_rewriteCells hnodes]
      by_cases hother : other = key
      · subst hother
        simp [hlookup]
      · rw [if_neg hother, if_neg hother, h.index]
    · have hmem : key ∈ OrderedDict.keys file.key2nodes := by
        by_contra hnot
        rw [lookup_eq_none_iff_keys.mpr hnot] at hlookup
        cases hlookup
      rw [hset, itemsOf_setKey, keys_set, ← h.keys, if_pos hmem]
      show OrderedDict.keys (adjust key (fun _ => [n0]) file.key2nodes) = _
      rw [keys_adjust]

/-- `__delitem__` raises exactly for a key that no element has, and takes out those that have it. -/
theorem Represents.delItem (h : Represents file cells) (key : Key) :
    (file.delItem key = none ↔ (cells.map Prod.snd).any (Element.hasKey key) = false) ∧
      ∀ after, file.delItem key = some after → ∃ cells', Represents after cells' ∧
        cells'.map Prod.snd = deleteKey (cells.map Prod.snd) key := by
  refine ⟨by rw [PropertiesFile.delItem, Option.map_eq_none_iff, h.lookup_eq_none, nodesOf_eq_nil],
    fun after hafter => ?_⟩
  obtain ⟨nodes, hlookup, rfl⟩ := Option.map_eq_some_iff.mp hafter
  have hnodes : nodesOf key cells = nodes := by
    rw [h.index] at hlookup
    split at hlookup
    · cases hlookup
    · exact Option.some.inj hlookup
  subst hnodes
  have hnodup : (nodesOf key cells).Nodup :=
    (List.Sublist.map Prod.fst List.filter_sublist).nodup h.lines.nodup
  have hunlinked := h.lines.unlink_all hnodup fun n hn => nodesOf_subset hn
  have hkept : cells.filter (fun cell => cell.1 ∉ nodesOf key cells) =
      cells.filter fun cell => !cell.2.hasKey key := by
    refine List.filter_congr fun cell hmem => ?_
    have hiff := mem_nodesOf key h.lines.nodup hmem
    cases hcell : cell.2.hasKey key <;> simp [hiff, hcell]
  rw [hkept] at hunlinked
  have hdelete : (cells.filter fun cell => !cell.2.hasKey key).map Prod.snd =
      deleteKey (cells.map Prod.snd) key := by
    rw [deleteKey, List.filter_map]
    rfl
  refine ⟨_, ⟨hunlinked, fun other => ?_, ?_⟩, hdelete⟩
  · rw [lookup_filter_ne, nodesOf_filter_not, h.index]
    by_cases hother : other = key
    · simp [hother]
    · simp [hother]
  · rw [hdelete, itemsOf_deleteKey, keys_erase, ← h.keys, ← keys_erase]
    rfl

end UnifiContainers.Properties
