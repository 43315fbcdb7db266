import Harbormaster.Foundation.Dict

/-! # Sequences of writes

A dictionary that is filled entry by entry is determined by the sequence of its writes:
its keys come in the order of their first write, and each holds the value of its last.
Updating it with another dictionary continues the sequence with the writes of that one.
-/

namespace Ordered

variable {κ ν : Type} [DecidableEq κ]

/-- The keys after more keys have been set. -/
def extend (keys more : List κ) : List κ :=
  more.foldl (fun keys key => if key ∈ keys then keys else keys ++ [key]) keys

theorem extend_concat (keys more : List κ) (key : κ) :
    extend keys (more ++ [key]) =
      if key ∈ extend keys more then extend keys more else extend keys more ++ [key] := by
  unfold extend
  rw [List.foldl_append]
  rfl

theorem mem_extend {keys more : List κ} {key : κ} :
    key ∈ extend keys more ↔ key ∈ keys ∨ key ∈ more := by
  induction more using List.reverseRec with
  | nil => simp [extend]
  | append_singleton more key' ih =>
      rw [extend_concat]
      split
      next hold =>
        rw [ih, List.mem_append, List.mem_singleton]
        constructor
        · exact Or.imp_right Or.inl
        · rintro (hkey | hkey | rfl)
          · exact Or.inl hkey
          · exact Or.inr hkey
          · exact ih.mp hold
      next => rw [List.mem_append, List.mem_append, ih, or_assoc]

/-- Keys that were set elsewhere first are set in the same order. -/
theorem extend_extend (keys more : List κ) : extend keys (extend [] more) = extend keys more := by
  induction more using List.reverseRec with
  | nil => rfl
  | append_singleton more key ih =>
      rw [extend_concat, extend_concat]
      split
      next hold =>
        have hmem : key ∈ extend keys more :=
          mem_extend.mpr (Or.inr ((mem_extend.mp hold).resolve_left List.not_mem_nil))
        rw [ih, if_pos hmem]
      next => rw [extend_concat, ih]

theorem extend_of_nodup {keys more : List κ} (h : (keys ++ more).Nodup) :
    extend keys more = keys ++ more := by
  induction more using List.reverseRec with
  | nil => rw [List.append_nil, extend, List.foldl_nil]
  | append_singleton more key ih =>
      rw [← List.append_assoc, List.nodup_append] at h
      obtain ⟨hold, -, hnew⟩ := h
      rw [extend_concat, ih hold, List.append_assoc,
        if_neg fun hmem => hnew key hmem key (List.mem_singleton_self key) rfl]

namespace Dict

def keys (dict : Dict κ ν) : List κ := dict.entries.map Prod.fst

/-- Set the pairs one after the other. -/
def write (dict : Dict κ ν) (pairs : List (κ × ν)) : Dict κ ν :=
  pairs.foldl (fun dict pair => dict.set pair.1 pair.2) dict

/-- `dict.update(other)`. -/
def update (dict other : Dict κ ν) : Dict κ ν := dict.write other.entries

theorem write_append (dict : Dict κ ν) (pairs more : List (κ × ν)) :
    dict.write (pairs ++ more) = (dict.write pairs).write more :=
  List.foldl_append

theorem write_singleton (dict : Dict κ ν) (key : κ) (value : ν) :
    dict.write [(key, value)] = dict.set key value := rfl

theorem ofPairs_append (pairs more : List (κ × ν)) :
    ofPairs (pairs ++ more) = (ofPairs pairs).write more :=
  write_append empty pairs more

theorem keys_write (dict : Dict κ ν) (pairs : List (κ × ν)) :
    (dict.write pairs).keys = extend dict.keys (pairs.map Prod.fst) := by
  induction pairs using List.reverseRec with
  | nil => rfl
  | append_singleton pairs pair ih =>
      rw [write_append, List.map_append, List.map_singleton, extend_concat, ← ih]
      exact keys_alter pair.1 _ _

/-- The last write of a key counts. -/
theorem get?_write (dict : Dict κ ν) (pairs : List (κ × ν)) (key : κ) :
    (dict.write pairs).get? key = ((ofPairs pairs).get? key).or (dict.get? key) := by
  induction pairs using List.reverseRec with
  | nil => rfl
  | append_singleton pairs pair ih =>
      rw [write_append, ofPairs_append]
      change ((dict.write pairs).set pair.1 pair.2).get? key =
        (((ofPairs pairs).set pair.1 pair.2).get? key).or _
      rw [get?_set, get?_set, ih]
      split <;> rfl

/-- A dictionary holds its own entries. -/
theorem get?_ofPairs_entries (dict : Dict κ ν) (key : κ) :
    (ofPairs dict.entries).get? key = dict.get? key := by
  apply Option.ext
  intro value
  rw [get?_ofPairs_of_nodup dict.nodup, get?_eq_some]

omit [DecidableEq κ] in
/-- Entries with the same keys, in order, and the same values. -/
theorem entries_eq {entries entries' : List (κ × ν)} (hnodup : (entries.map Prod.fst).Nodup)
    (hkeys : entries.map Prod.fst = entries'.map Prod.fst)
    (hmem : ∀ entry ∈ entries, entry ∈ entries') : entries = entries' := by
  induction entries generalizing entries' with
  | nil => exact (List.map_eq_nil_iff.mp hkeys.symm).symm
  | cons entry rest ih =>
      cases entries' with
      | nil => cases hkeys
      | cons entry' rest' =>
          obtain ⟨hkey, hrest⟩ := List.cons.inj hkeys
          obtain ⟨hnew, hnodup⟩ := List.nodup_cons.mp hnodup
          obtain ⟨hhead, htail⟩ := List.forall_mem_cons.mp hmem
          have hentry : entry = entry' := by
            rcases List.mem_cons.mp hhead with heq | hlater
            · exact heq
            · exact absurd (hrest ▸ List.mem_map_of_mem hlater) hnew
          rw [hentry, ih hnodup hrest fun other hother => ?_]
          rcases List.mem_cons.mp (htail other hother) with rfl | hlater
          · exact absurd (hkey ▸ List.mem_map_of_mem hother) hnew
          · exact hlater

/-- The keys, in order, and their values are all there is to a dictionary. -/
theorem ext_get? {dict other : Dict κ ν} (hkeys : dict.keys = other.keys)
    (hget : ∀ key, dict.get? key = other.get? key) : dict = other := by
  have hentries : dict.entries = other.entries := by
    refine entries_eq dict.nodup hkeys fun ⟨key, value⟩ hentry => ?_
    rw [← get?_eq_some, ← hget]
    exact get?_eq_some.mpr hentry
  obtain ⟨entries, nodup⟩ := dict
  obtain ⟨entries', nodup'⟩ := other
  obtain rfl := hentries
  rfl

/-- Updating with a dictionary continues with the writes that filled it. -/
theorem update_ofPairs (dict : Dict κ ν) (pairs : List (κ × ν)) :
    dict.update (ofPairs pairs) = dict.write pairs := by
  apply ext_get?
  · rw [update, keys_write, keys_write]
    change extend dict.keys (ofPairs pairs).keys = _
    rw [show (ofPairs pairs).keys = extend [] (pairs.map Prod.fst) from keys_write empty pairs,
      extend_extend]
  · intro key
    rw [update, get?_write, get?_write, get?_ofPairs_entries]

/-- Writes of different keys are the entries. -/
theorem entries_ofPairs {pairs : List (κ × ν)} (h : (pairs.map Prod.fst).Nodup) :
    (ofPairs pairs).entries = pairs := by
  have hsame : ofPairs pairs = ⟨pairs, h⟩ := by
    apply ext_get?
    · rw [show (ofPairs pairs).keys = extend [] (pairs.map Prod.fst) from keys_write empty pairs,
        extend_of_nodup (by rw [List.nil_append]; exact h)]
      rfl
    · exact get?_ofPairs_entries ⟨pairs, h⟩
  rw [hsame]

/-- Pairs that are written, in any order and perhaps repeatedly, are all there in the end
exactly when those with one key agree. -/
theorem get?_ofPairs_iff_agree {writes pairs : List (κ × ν)}
    (hmem : ∀ pair, pair ∈ writes ↔ pair ∈ pairs) :
    (∀ pair ∈ pairs, (ofPairs writes).get? pair.1 = some pair.2) ↔
      ∀ pair ∈ pairs, ∀ other ∈ pairs, pair.1 = other.1 → pair.2 = other.2 := by
  constructor
  · intro hget pair hpair other hother hkey
    apply Option.some.inj
    rw [← hget pair hpair, ← hget other hother, hkey]
  · intro hagree pair hpair
    refine get?_ofPairs_of_mem ((hmem pair).mpr hpair) fun value hvalue => ?_
    exact hagree _ ((hmem _).mp hvalue) pair hpair rfl

/-- Pairs are entries of their own when they have different keys and each is there. -/
theorem subperm_entries_iff {dict : Dict κ ν} {pairs : List (κ × ν)} :
    pairs.Subperm dict.entries ↔
      (pairs.map Prod.fst).Nodup ∧ ∀ pair ∈ pairs, dict.get? pair.1 = some pair.2 := by
  constructor
  · intro h
    obtain ⟨some, hperm, hsublist⟩ := h
    refine ⟨(hperm.map Prod.fst).nodup_iff.mp ((hsublist.map Prod.fst).nodup dict.nodup), ?_⟩
    exact fun pair hpair => get?_eq_some.mpr (hsublist.subset (hperm.mem_iff.mpr hpair))
  · rintro ⟨hnodup, hget⟩
    exact List.subperm_of_subset hnodup.of_map fun pair hpair => get?_eq_some.mp (hget pair hpair)

/-- Some writes fill in exactly the pairs they were chosen from when these have different
keys and all were chosen. -/
theorem entries_ofPairs_perm {writes pairs : List (κ × ν)} (h : writes.Sublist pairs) :
    (ofPairs writes).entries.Perm pairs ↔ (pairs.map Prod.fst).Nodup ∧ writes = pairs := by
  constructor
  · intro hperm
    have hnodup : (pairs.map Prod.fst).Nodup :=
      (hperm.map Prod.fst).nodup_iff.mp (ofPairs writes).nodup
    rw [entries_ofPairs ((h.map Prod.fst).nodup hnodup)] at hperm
    exact ⟨hnodup, h.eq_of_length hperm.length_eq⟩
  · rintro ⟨hnodup, rfl⟩
    rw [entries_ofPairs hnodup]

/-- Of steps that may set a key the last one that does counts. -/
theorem get?_foldl {α : Type} {step : Dict κ ν → α → Dict κ ν} {key : κ} {write : α → Option ν}
    (h : ∀ dict a, (step dict a).get? key = (write a).or (dict.get? key)) (dict : Dict κ ν)
    (elements : List α) :
    (elements.foldl step dict).get? key =
      (elements.filterMap write).getLast?.or (dict.get? key) := by
  induction elements using List.reverseRec with
  | nil => rfl
  | append_singleton elements a ih =>
      rw [List.foldl_append, List.filterMap_append, List.getLast?_append, Option.or_assoc, ← ih]
      change (step (elements.foldl step dict) a).get? key = _
      rw [h]
      cases hwrite : write a with
      | none => simp [hwrite]
      | some value => simp [hwrite]

/-- Steps that do not set a key leave it. -/
theorem get?_foldl_of_ne {α : Type} {step : Dict κ ν → α → Dict κ ν} {key : κ}
    {elements : List α} (h : ∀ dict, ∀ a ∈ elements, (step dict a).get? key = dict.get? key)
    (dict : Dict κ ν) : (elements.foldl step dict).get? key = dict.get? key :=
  List.foldlRecOn (motive := fun other : Dict κ ν => other.get? key = dict.get? key) elements step
    rfl fun other hother a hmem => (h other a hmem).trans hother

end Dict

/-! ## The order of groups -/

section Group

variable {α : Type} (key : α → Option κ)

theorem keys_groupBy_append (front back : List α) :
    ∃ more, (groupBy key (front ++ back)).keys = (groupBy key front).keys ++ more := by
  induction back using List.reverseRec with
  | nil => exact ⟨[], by rw [List.append_nil, List.append_nil]⟩
  | append_singleton back element ih =>
      obtain ⟨more, hmore⟩ := ih
      rw [groupBy, ← List.append_assoc, List.foldl_append]
      change ∃ more, (place key (groupBy key (front ++ back)) element).keys = _
      unfold place
      split
      next => exact ⟨more, hmore⟩
      next k _ =>
        rw [Dict.keys, Dict.alter, keys_alter]
        split
        next => exact ⟨more, hmore⟩
        next => exact ⟨more ++ [k], by rw [← List.append_assoc, ← hmore]; rfl⟩

/-- A key that is first seen at an element stands behind the keys of earlier elements. -/
theorem groupBy_first {front rest : List α} {first : α} {k : κ} (hkey : key first = some k)
    (hnew : ∀ element ∈ front, key element ≠ some k) :
    ∃ before group after,
      (groupBy key (front ++ first :: rest)).entries = before ++ (k, group) :: after ∧
        ∀ other, other ∈ before.map Prod.fst ↔ ∃ element ∈ front, key element = some other := by
  have hfirst : (groupBy key (front ++ [first])).keys = (groupBy key front).keys ++ [k] := by
    rw [groupBy, List.foldl_append]
    change (place key (groupBy key front) first).keys = _
    rw [place, hkey]
    dsimp only
    rw [Dict.keys, Dict.alter, keys_alter, if_neg]
    · rfl
    · rw [mem_keys_groupBy]
      rintro ⟨element, hmem, helement⟩
      exact hnew element hmem helement
  obtain ⟨more, hmore⟩ := keys_groupBy_append key (front ++ [first]) rest
  rw [hfirst, List.append_assoc, List.append_assoc, List.singleton_append,
    List.singleton_append] at hmore
  obtain ⟨before, tail, hentries, hbefore, htail⟩ := List.map_eq_append_iff.mp hmore
  obtain ⟨⟨_, group⟩, after, rfl, rfl, -⟩ := List.map_eq_cons_iff.mp htail
  refine ⟨before, group, after, hentries, fun other => ?_⟩
  rw [hbefore]
  exact mem_keys_groupBy key

end Group

end Ordered
