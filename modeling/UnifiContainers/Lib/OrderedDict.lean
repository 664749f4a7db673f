import Mathlib.Data.List.Induction
import Mathlib.Data.List.Nodup

/-!
# Dicts in the order of insertion

A dict is the list of its items. A key that is set again keeps its place, a new one goes to the end.
-/

namespace OrderedDict

variable {α β : Type*} [BEq α]

/-- `d[key] = value` -/
def set : List (α × β) → α → β → List (α × β)
  | [], key, value => [(key, value)]
  | item :: d, key, value =>
      if item.1 == key then (item.1, value) :: d else item :: set d key value

/-- `del d[key]`, for a key that the dict holds. -/
def erase (d : List (α × β)) (key : α) : List (α × β) := d.filter fun item => item.1 != key

/-- `d.update(items)` -/
def update (d items : List (α × β)) : List (α × β) :=
  items.foldl (fun d item => set d item.1 item.2) d

/-- `dict(items)`, where a later item wins over an earlier one. -/
def ofItems (items : List (α × β)) : List (α × β) := update [] items

/-- `d.setdefault(key, value)` -/
def setdefault (d : List (α × β)) (key : α) (value : β) : List (α × β) :=
  if (d.lookup key).isSome then d else set d key value

def keys (d : List (α × β)) : List α := d.map Prod.fst

variable {d d' items : List (α × β)} {key other : α} {value w : β}

@[simp]
theorem update_nil : update d [] = d := rfl

theorem update_cons (item : α × β) : update d (item :: items) =
    update (set d item.1 item.2) items := rfl

theorem update_append (xs ys : List (α × β)) : update d (xs ++ ys) = update (update d xs) ys :=
  List.foldl_append

theorem update_concat (item : α × β) :
    update d (items ++ [item]) = set (update d items) item.1 item.2 := by
  rw [update_append]
  rfl

theorem ofItems_concat (item : α × β) :
    ofItems (items ++ [item]) = set (ofItems items) item.1 item.2 := update_concat item

theorem erase_cons (item : α × β) : erase (item :: d) key =
    if item.1 == key then erase d key else item :: erase d key := by
  rw [erase, List.filter_cons, bne]
  cases item.1 == key <;> rfl

theorem keys_erase (d : List (α × β)) (key : α) :
    keys (erase d key) = (keys d).filter fun other => other != key := by
  rw [keys, erase, keys, List.filter_map]
  rfl

variable [LawfulBEq α]

theorem keys_set [DecidableEq α] (d : List (α × β)) (key : α) (value : β) :
    keys (set d key value) = if key ∈ keys d then keys d else keys d ++ [key] := by
  induction d with
  | nil => simp [set, keys]
  | cons item d ih =>
    rw [set]
    by_cases hitem : item.1 = key
    · simp [hitem, keys]
    · have hmem : key ∈ keys (item :: d) ↔ key ∈ keys d := by
        simp [keys, Ne.symm hitem]
      rw [if_neg (by simpa using hitem)]
      show item.1 :: keys (set d key value) = _
      rw [ih]
      by_cases hkey : key ∈ keys d
      · rw [if_pos hkey, if_pos (hmem.mpr hkey)]
        rfl
      · rw [if_neg hkey, if_neg (fun h => hkey (hmem.mp h))]
        rfl

theorem mem_keys_set (hkey : key ∈ keys d) (other : α) (value : β) :
    key ∈ keys (set d other value) := by
  classical
  rw [keys_set]
  split
  · exact hkey
  · exact List.mem_append_left _ hkey

theorem mem_keys_set_self (d : List (α × β)) (key : α) (value : β) :
    key ∈ keys (set d key value) := by
  classical
  rw [keys_set]
  split
  · assumption
  · simp

theorem nodup_set (h : (keys d).Nodup) (key : α) (value : β) : (keys (set d key value)).Nodup := by
  classical
  rw [keys_set]
  split
  · exact h
  · next hkey =>
    rw [List.nodup_append']
    exact ⟨h, List.nodup_singleton key, by simpa using hkey⟩

theorem nodup_ofItems (items : List (α × β)) : (keys (ofItems items)).Nodup := by
  induction items using List.reverseRecOn with
  | nil => exact List.nodup_nil
  | append_singleton items item ih =>
    rw [ofItems_concat]
    exact nodup_set ih _ _

theorem lookup_set (d : List (α × β)) (key other : α) (value : β) :
    (set d key value).lookup other = if other == key then some value else d.lookup other := by
  induction d with
  | nil =>
    rw [set, List.lookup_cons]
    split <;> simp_all
  | cons item d ih =>
    obtain ⟨k, w⟩ := item
    rw [set]
    by_cases hk : k = key
    · subst hk
      rw [if_pos (beq_self_eq_true k), List.lookup_cons, List.lookup_cons]
      cases other == k <;> rfl
    · rw [if_neg (by simpa using hk), List.lookup_cons, ih, List.lookup_cons]
      by_cases hother : other = k
      · subst hother
        simp [hk]
      · have hbeq : (other == k) = false := beq_eq_false_iff_ne.mpr hother
        simp [hbeq]

/-- The last of the items of a key decides its value. -/
theorem lookup_ofItems (items : List (α × β)) (key : α) :
    (ofItems items).lookup key = items.reverse.lookup key := by
  induction items using List.reverseRecOn with
  | nil => rfl
  | append_singleton items item ih =>
    obtain ⟨k, w⟩ := item
    rw [ofItems_concat, lookup_set, ih, List.reverse_append, List.reverse_singleton,
      List.singleton_append, List.lookup_cons]
    cases key == k <;> rfl

theorem mem_keys_iff : key ∈ keys d ↔ (d.lookup key).isSome = true := by
  induction d with
  | nil => simp [keys]
  | cons item d ih =>
    rw [keys, List.map_cons, List.mem_cons, ← keys, ih, List.lookup_cons]
    by_cases hkey : key = item.1
    · simp [hkey]
    · have hbeq : (key == item.1) = false := beq_eq_false_iff_ne.mpr hkey
      simp [hkey, hbeq]

/-! ### Setting what is not there -/

theorem set_of_absent (h : d.lookup key = none) (value : β) :
    set d key value = d ++ [(key, value)] := by
  induction d with
  | nil => rfl
  | cons item d ih =>
    rw [List.lookup_cons] at h
    by_cases hkey : key = item.1
    · rw [beq_iff_eq.mpr hkey] at h
      cases h
    · have hbeq : (key == item.1) = false := beq_eq_false_iff_ne.mpr hkey
      rw [hbeq] at h
      rw [set, if_neg (by simpa using Ne.symm hkey), ih h]
      rfl

/-- What a dict holds goes before what it is offered, of which the first counts. -/
theorem lookup_setdefaults (d items : List (α × β)) (key : α) :
    (items.foldl (fun d item => setdefault d item.1 item.2) d).lookup key =
      (d.lookup key).or (items.lookup key) := by
  induction items generalizing d with
  | nil => rw [List.foldl_nil, List.lookup_nil, Option.or_none]
  | cons item items ih =>
    obtain ⟨k, w⟩ := item
    rw [List.foldl_cons, ih, List.lookup_cons, setdefault]
    by_cases hkey : key = k
    · subst hkey
      cases hlookup : d.lookup key with
      | none => simp [lookup_set]
      | some v => simp [hlookup]
    · have hbeq : (key == k) = false := beq_eq_false_iff_ne.mpr hkey
      rw [hbeq]
      split
      · rfl
      · rw [lookup_set, hbeq, if_neg Bool.false_ne_true]

/-! ### Setting what is there -/

theorem set_set (d : List (α × β)) (key : α) (value w : β) :
    set (set d key w) key value = set d key value := by
  induction d with
  | nil => simp [set]
  | cons item d ih =>
    by_cases hitem : item.1 = key
    · simp [set, hitem]
    · simp [set, hitem, ih]

theorem set_comm (hkey : key ∈ keys d) (hne : other ≠ key) :
    set (set d other w) key value = set (set d key value) other w := by
  induction d with
  | nil => cases hkey
  | cons item d ih =>
    by_cases hitem : item.1 = key
    · have hother : item.1 ≠ other := fun h => hne (h.symm.trans hitem)
      simp [set, hitem, hne.symm]
    · have hmem : key ∈ keys d := by simpa [keys, Ne.symm hitem] using hkey
      by_cases hother : item.1 = other
      · simp [set, hother, hne]
      · simp [set, hitem, hother, ih hmem]

/-- A key that is set last keeps its place and needs none of the items it had. -/
theorem set_update (hkey : key ∈ keys d) (items : List (α × β)) (value : β) :
    set (update d items) key value = update (set d key value) (erase items key) := by
  induction items generalizing d with
  | nil => rfl
  | cons item items ih =>
    rw [update_cons, ih (mem_keys_set hkey _ _), erase_cons]
    by_cases hitem : item.1 = key
    · rw [hitem, set_set, if_pos (beq_self_eq_true key)]
    · rw [set_comm hkey hitem, if_neg (by simpa using hitem), update_cons]

/-! ### Erasing -/

theorem erase_set_self (d : List (α × β)) (key : α) (value : β) :
    erase (set d key value) key = erase d key := by
  induction d with
  | nil => simp [set, erase]
  | cons item d ih =>
    rw [set]
    by_cases hitem : item.1 = key
    · simp [hitem, erase]
    · rw [if_neg (by simpa using hitem), erase_cons, erase_cons, ih]

theorem erase_set (hne : other ≠ key) (d : List (α × β)) (w : β) :
    erase (set d other w) key = set (erase d key) other w := by
  induction d with
  | nil => simp [set, erase, hne]
  | cons item d ih =>
    rw [erase] at ih
    by_cases hother : item.1 = other
    · simp [set, erase, hother, hne]
    · by_cases hitem : item.1 = key
      · simp [set, erase, hitem, hne.symm, ih]
      · simp [set, erase, hitem, hother, ih]

theorem erase_update (items : List (α × β)) (key : α) :
    erase (update d items) key = update (erase d key) (erase items key) := by
  induction items generalizing d with
  | nil => rfl
  | cons item items ih =>
    rw [update_cons, ih, erase_cons]
    by_cases hitem : item.1 = key
    · rw [hitem, erase_set_self, if_pos (beq_self_eq_true key)]
    · rw [erase_set hitem, if_neg (by simpa using hitem), update_cons]

theorem erase_ofItems (items : List (α × β)) (key : α) :
    erase (ofItems items) key = ofItems (erase items key) := erase_update items key

theorem lookup_of_mem (h : (keys d).Nodup) (hmem : (key, value) ∈ d) :
    d.lookup key = some value := by
  induction d with
  | nil => cases hmem
  | cons item d ih =>
    obtain ⟨hitem, h⟩ := List.nodup_cons.mp h
    rcases List.mem_cons.mp hmem with rfl | hmem
    · exact List.lookup_cons_self
    · have hne : (key == item.1) = false :=
        beq_eq_false_iff_ne.mpr fun heq => hitem (heq ▸ List.mem_map_of_mem hmem)
      rw [List.lookup_cons, hne]
      exact ih h hmem

/-- A dict is what its keys lead to. -/
theorem filterMap_keys (h : (keys d).Nodup) :
    (keys d).filterMap (fun key => (d.lookup key).map fun value => (key, value)) = d := by
  induction d with
  | nil => rfl
  | cons item d ih =>
    obtain ⟨k, w⟩ := item
    obtain ⟨hk, h⟩ := List.nodup_cons.mp h
    show ((k :: keys d).filterMap _) = _
    rw [List.filterMap_cons, List.lookup_cons_self, Option.map_some]
    refine congrArg ((k, w) :: ·) ((List.filterMap_congr fun key hkey => ?_).trans (ih h))
    have hne : (key == k) = false := beq_eq_false_iff_ne.mpr fun heq => hk (heq ▸ hkey)
    rw [List.lookup_cons, hne]

end OrderedDict
