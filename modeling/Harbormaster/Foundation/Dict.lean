import Mathlib.Data.List.Induction
import Mathlib.Data.List.Perm.Basic
import Mathlib.Data.List.Sigma

/-! # Dictionaries that keep their order

A dictionary lists its entries in the order in which their keys were first set.
Setting a key again changes the entry in place. Grouping a list collects the
elements of each key, in order, and loses exactly those without a key.
-/

namespace Ordered

variable {κ ν α : Type} [DecidableEq κ]

/-- The value of a key in a list of entries becomes `change` of its old value. -/
def alter (key : κ) (change : Option ν → ν) : List (κ × ν) → List (κ × ν)
  | [] => [(key, change none)]
  | entry :: rest =>
      if entry.1 = key then (entry.1, change (some entry.2)) :: rest
      else entry :: alter key change rest

theorem keys_alter (key : κ) (change : Option ν → ν) (entries : List (κ × ν)) :
    (alter key change entries).map Prod.fst =
      if key ∈ entries.map Prod.fst then entries.map Prod.fst
      else entries.map Prod.fst ++ [key] := by
  induction entries with
  | nil => rfl
  | cons entry rest ih =>
      unfold alter
      split
      next hsame => simp [hsame]
      next hother =>
        have hne : key ≠ entry.1 := fun h => hother h.symm
        rw [List.map_cons, ih]
        simp only [List.map_cons, List.mem_cons, hne, false_or]
        split <;> rfl

/-- A dictionary, its entries in the order of their keys' first setting. -/
structure Dict (κ ν : Type) where
  entries : List (κ × ν)
  nodup : (entries.map Prod.fst).Nodup
deriving DecidableEq

namespace Dict

def empty : Dict κ ν := ⟨[], List.nodup_nil⟩

def alter (dict : Dict κ ν) (key : κ) (change : Option ν → ν) : Dict κ ν where
  entries := Ordered.alter key change dict.entries
  nodup := by
    rw [keys_alter]
    split
    next => exact dict.nodup
    next hnew =>
      rw [List.nodup_append]
      refine ⟨dict.nodup, List.nodup_singleton key, fun a ha b hb => ?_⟩
      rw [List.mem_singleton] at hb
      exact fun h => hnew (hb ▸ h ▸ ha)

def set (dict : Dict κ ν) (key : κ) (value : ν) : Dict κ ν := dict.alter key fun _ => value

def get? (dict : Dict κ ν) (key : κ) : Option ν :=
  (dict.entries.find? fun entry => entry.1 = key).map Prod.snd

/-- Set the pairs one after the other. -/
def ofPairs (pairs : List (κ × ν)) : Dict κ ν :=
  pairs.foldl (fun dict pair => dict.set pair.1 pair.2) empty

omit [DecidableEq κ] in
theorem mem_entries_unique {dict : Dict κ ν} {key : κ} {value value' : ν}
    (h : (key, value) ∈ dict.entries) (h' : (key, value') ∈ dict.entries) : value = value' := by
  have hinj := List.inj_on_of_nodup_map dict.nodup h h' rfl
  exact congrArg Prod.snd hinj

theorem get?_eq_some {dict : Dict κ ν} {key : κ} {value : ν} :
    dict.get? key = some value ↔ (key, value) ∈ dict.entries := by
  unfold get?
  rw [Option.map_eq_some_iff]
  constructor
  · rintro ⟨⟨key', value'⟩, hfind, rfl⟩
    have hkey : key' = key := by simpa using List.find?_some hfind
    exact hkey ▸ List.mem_of_find?_eq_some hfind
  · intro hmem
    cases hfind : dict.entries.find? fun entry => entry.1 = key with
    | none => simpa using List.find?_eq_none.mp hfind _ hmem
    | some entry =>
        have hkey : entry.1 = key := by simpa using List.find?_some hfind
        have hentry := List.mem_of_find?_eq_some hfind
        refine ⟨entry, rfl, mem_entries_unique ?_ hmem⟩
        rw [← hkey]
        exact hentry

theorem mem_keys {dict : Dict κ ν} {key : κ} :
    key ∈ dict.entries.map Prod.fst ↔ (dict.get? key).isSome := by
  rw [Option.isSome_iff_exists]
  constructor
  · intro h
    obtain ⟨⟨_, value⟩, hmem, rfl⟩ := List.mem_map.mp h
    exact ⟨value, get?_eq_some.mpr hmem⟩
  · rintro ⟨value, h⟩
    exact List.mem_map_of_mem (get?_eq_some.mp h)

theorem find?_alter (key other : κ) (change : Option ν → ν) (entries : List (κ × ν)) :
    ((Ordered.alter key change entries).find? fun entry => entry.1 = other).map Prod.snd =
      if other = key then
        some (change ((entries.find? fun entry => entry.1 = key).map Prod.snd))
      else (entries.find? fun entry => entry.1 = other).map Prod.snd := by
  induction entries with
  | nil =>
      unfold Ordered.alter
      by_cases h : other = key
      · simp [h]
      · simp [h, Ne.symm h]
  | cons entry rest ih =>
      unfold Ordered.alter
      by_cases hentry : entry.1 = key
      · by_cases h : other = key
        · simp [hentry, h]
        · have hne : entry.1 ≠ other := fun h' => h (h'.symm.trans hentry)
          simp [hentry, h, Ne.symm h]
      · rw [if_neg hentry, List.find?_cons, List.find?_cons, List.find?_cons]
        by_cases hother : entry.1 = other
        · have hne : other ≠ key := fun h => hentry (hother.trans h)
          simp [hother, hne]
        · simp only [hother, hentry, decide_false]
          exact ih

theorem get?_alter (dict : Dict κ ν) (key other : κ) (change : Option ν → ν) :
    (dict.alter key change).get? other =
      if other = key then some (change (dict.get? key)) else dict.get? other :=
  find?_alter key other change dict.entries

theorem get?_set (dict : Dict κ ν) (key other : κ) (value : ν) :
    (dict.set key value).get? other = if other = key then some value else dict.get? other :=
  get?_alter dict key other fun _ => value

/-- Of several values of a key the last one is kept. -/
theorem get?_ofPairs (pairs : List (κ × ν)) (key : κ) :
    (ofPairs pairs).get? key = (pairs.reverse.find? fun pair => pair.1 = key).map Prod.snd := by
  induction pairs using List.reverseRec with
  | nil => rfl
  | append_singleton pairs pair ih =>
      rw [ofPairs, List.foldl_append, List.reverse_append]
      change ((ofPairs pairs).set pair.1 pair.2).get? key = _
      rw [get?_set, ih, List.reverse_singleton, List.singleton_append, List.find?_cons]
      by_cases hkey : pair.1 = key
      · simp [hkey]
      · simp [hkey, Ne.symm hkey]

/-- The keys of a dictionary that is filled from what some elements give. -/
theorem isSome_get?_ofPairs {α : Type} {read : α → Option κ} {value : α → ν} {elements : List α}
    {key : κ} :
    ((ofPairs (elements.filterMap fun element =>
      (read element).map fun key => (key, value element))).get? key).isSome ↔
      ∃ element ∈ elements, read element = some key := by
  rw [get?_ofPairs, Option.isSome_map, List.find?_isSome]
  simp only [List.mem_reverse, decide_eq_true_eq, List.mem_filterMap, Option.map_eq_some_iff]
  constructor
  · rintro ⟨_, ⟨element, hmem, _, hread, rfl⟩, rfl⟩
    exact ⟨element, hmem, hread⟩
  · rintro ⟨element, hmem, hread⟩
    exact ⟨(key, value element), ⟨element, hmem, key, hread, rfl⟩, rfl⟩

theorem mem_of_get?_ofPairs {pairs : List (κ × ν)} {key : κ} {value : ν}
    (h : (ofPairs pairs).get? key = some value) : (key, value) ∈ pairs := by
  rw [get?_ofPairs, Option.map_eq_some_iff] at h
  obtain ⟨pair, hfind, rfl⟩ := h
  have hkey : pair.1 = key := by simpa using List.find?_some hfind
  rw [← hkey]
  exact List.mem_reverse.mp (List.mem_of_find?_eq_some hfind)

/-- Where no key has two values, the last one is any of them. -/
theorem get?_ofPairs_of_mem {pairs : List (κ × ν)} {key : κ} {value : ν} (h : (key, value) ∈ pairs)
    (hsingle : ∀ value', (key, value') ∈ pairs → value' = value) :
    (ofPairs pairs).get? key = some value := by
  have hfound : (pairs.reverse.find? fun pair => pair.1 = key).isSome :=
    List.find?_isSome.mpr ⟨(key, value), List.mem_reverse.mpr h, by simp⟩
  obtain ⟨pair, hpair⟩ := Option.isSome_iff_exists.mp hfound
  have hget : (ofPairs pairs).get? key = some pair.2 := by
    rw [get?_ofPairs, hpair]
    rfl
  rw [hget, hsingle pair.2 (mem_of_get?_ofPairs hget)]

theorem get?_ofPairs_of_nodup {pairs : List (κ × ν)} (h : (pairs.map Prod.fst).Nodup) {key : κ}
    {value : ν} : (ofPairs pairs).get? key = some value ↔ (key, value) ∈ pairs := by
  refine ⟨mem_of_get?_ofPairs, fun hmem => get?_ofPairs_of_mem hmem fun value' hmem' => ?_⟩
  exact congrArg Prod.snd (List.inj_on_of_nodup_map h hmem' hmem rfl)

@[simp] theorem get?_empty (key : κ) : (empty : Dict κ ν).get? key = none := rfl

end Dict

/-! ## Grouping -/

section Group

variable (key : α → Option κ)

/-- Append an element to the group of its key. -/
def place (groups : Dict κ (List α)) (element : α) : Dict κ (List α) :=
  match key element with
  | none => groups
  | some k => groups.alter k fun group => group.getD [] ++ [element]

/-- The elements of each key, in the order of the list. -/
def groupBy (elements : List α) : Dict κ (List α) := elements.foldl (place key) .empty

theorem flatMap_alter_perm (k : κ) (element : α) (entries : List (κ × List α)) :
    ((alter k (fun group => group.getD [] ++ [element]) entries).flatMap Prod.snd).Perm
      (entries.flatMap Prod.snd ++ [element]) := by
  induction entries with
  | nil => exact .rfl
  | cons entry rest ih =>
      unfold alter
      split
      next =>
        rw [List.flatMap_cons, List.flatMap_cons, Option.getD_some, List.append_assoc,
          List.append_assoc]
        exact List.perm_append_comm.append_left entry.2
      next =>
        rw [List.flatMap_cons, List.flatMap_cons, List.append_assoc]
        exact ih.append_left entry.2

/-- The groups together hold exactly the elements with a key. -/
theorem groupBy_perm (elements : List α) :
    ((groupBy key elements).entries.flatMap Prod.snd).Perm
      (elements.filter fun element => (key element).isSome) := by
  induction elements using List.reverseRec with
  | nil => exact .rfl
  | append_singleton elements element ih =>
      rw [groupBy, List.foldl_append, List.filter_append]
      change ((place key (groupBy key elements) element).entries.flatMap Prod.snd).Perm _
      unfold place
      cases hkey : key element with
      | none => simpa [hkey] using ih
      | some k =>
          refine (flatMap_alter_perm k element _).trans ?_
          simpa [hkey] using ih.append_right [element]

theorem get?_place (groups : Dict κ (List α)) (element : α) (k : κ) :
    (place key groups element).get? k =
      if key element = some k then some ((groups.get? k).getD [] ++ [element])
      else groups.get? k := by
  unfold place
  cases hkey : key element with
  | none => simp
  | some k' =>
      dsimp only
      rw [Dict.get?_alter]
      by_cases h : k = k'
      · simp [h]
      · simp [h, Ne.symm h]

/-- A key has a group when an element has that key. -/
theorem get?_groupBy (elements : List α) (k : κ) :
    (groupBy key elements).get? k =
      if elements.filter (fun element => key element = some k) = [] then none
      else some (elements.filter fun element => key element = some k) := by
  induction elements using List.reverseRec with
  | nil => rfl
  | append_singleton elements element ih =>
      rw [groupBy, List.foldl_append, List.filter_append]
      change (place key (groupBy key elements) element).get? k = _
      rw [get?_place, ih]
      by_cases h : key element = some k
      · rw [if_pos h]
        split
        next hnone => simp [h, hnone]
        next => simp [h]
      · simp [h]

/-- A group holds the elements of its key, and at least one. -/
theorem groupBy_entry {elements : List α} {k : κ} {group : List α}
    (h : (k, group) ∈ (groupBy key elements).entries) :
    group = elements.filter (fun element => key element = some k) ∧ group ≠ [] := by
  rw [← Dict.get?_eq_some, get?_groupBy] at h
  split at h
  next => cases h
  next hsome =>
    obtain rfl := Option.some.inj h
    exact ⟨rfl, hsome⟩

theorem mem_keys_groupBy {elements : List α} {k : κ} :
    k ∈ (groupBy key elements).entries.map Prod.fst ↔
      ∃ element ∈ elements, key element = some k := by
  rw [Dict.mem_keys, get?_groupBy]
  split
  next hnone =>
    simp only [Option.isSome_none, Bool.false_eq_true, false_iff, not_exists, not_and]
    intro element hmem hkey
    have := List.filter_eq_nil_iff.mp hnone element hmem
    simp [hkey] at this
  next hsome =>
    simp only [Option.isSome_some, true_iff]
    obtain ⟨element, hmem⟩ := List.exists_mem_of_ne_nil _ hsome
    exact ⟨element, (List.mem_filter.mp hmem).1, by simpa using (List.mem_filter.mp hmem).2⟩

end Group

end Ordered
