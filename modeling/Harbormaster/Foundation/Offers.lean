import Mathlib.Data.List.Basic
import Mathlib.Logic.Function.Basic

/-! # Values offered in turn

A round goes through keys in order and offers each key that has no value one that no other
key has. What a later round gave may be remembered and given first the next time: the
earlier round then gives the same as before, provided its offers depend on what is taken
only as a choice does that is not disturbed by other choices.
-/

namespace Offers

variable {K V : Type} [DecidableEq K]

/-- The values that the keys have. -/
def taken (keys : List K) (given : K → Option V) : List V := keys.filterMap given

/-- What a key is offered when some values are taken. -/
abbrev Offer (K V : Type) := List V → K → Option V

def turn (keys : List K) (offer : Offer K V) (given : K → Option V) (key : K) : K → Option V :=
  if given key = none then Function.update given key (offer (taken keys given) key) else given

/-- A round of offers. -/
def pass (keys : List K) (offer : Offer K V) (round : List K) (given : K → Option V) :
    K → Option V :=
  round.foldl (turn keys offer) given

/-- A value that is taken is not offered. -/
def Free (offer : Offer K V) : Prop :=
  ∀ taken key value, offer taken key = some value → value ∉ taken

/-- An offer changes only if it is taken itself. -/
def Stable (offer : Offer K V) : Prop :=
  ∀ (before after : List V) (key : K), before ⊆ after →
    (∀ value, offer before key = some value → value ∉ after) → offer after key = offer before key

/-- No key has lost its value. -/
def Extends (before after : K → Option V) : Prop :=
  ∀ key value, before key = some value → after key = some value

variable {keys round : List K} {offer : Offer K V} {given : K → Option V} {key : K}

omit [DecidableEq K] in
theorem mem_taken {value : V} : value ∈ taken keys given ↔ ∃ key ∈ keys, given key = some value :=
  List.mem_filterMap

omit [DecidableEq K] in
theorem taken_subset {after : K → Option V} (h : Extends given after) :
    taken keys given ⊆ taken keys after := by
  intro value hvalue
  obtain ⟨key, hkey, hgiven⟩ := mem_taken.mp hvalue
  exact mem_taken.mpr ⟨key, hkey, h key value hgiven⟩

theorem turn_of_ne_none (h : given key ≠ none) : turn keys offer given key = given := if_neg h

theorem turn_of_none (h : given key = none) :
    turn keys offer given key = Function.update given key (offer (taken keys given) key) := if_pos h

theorem turn_other {other : K} (h : other ≠ key) :
    turn keys offer given key other = given other := by
  unfold turn
  split
  next => exact Function.update_of_ne h _ _
  next => rfl

theorem extends_turn : Extends given (turn keys offer given key) := by
  intro other value hother
  by_cases hsame : other = key
  · subst hsame
    rw [turn_of_ne_none (by rw [hother]; exact Option.some_ne_none value)]
    exact hother
  · rw [turn_other hsame]
    exact hother

theorem extends_pass : Extends given (pass keys offer round given) := by
  induction round generalizing given with
  | nil => exact fun _ _ h => h
  | cons first rest ih => exact fun key value h => ih key value (extends_turn key value h)

theorem pass_of_not_mem (h : key ∉ round) : pass keys offer round given key = given key := by
  induction round generalizing given with
  | nil => rfl
  | cons first rest ih =>
      rw [List.mem_cons, not_or] at h
      exact (ih h.2).trans (turn_other h.1)

/-- Without an offer nothing is given. -/
theorem pass_of_silent (h : ∀ values key, offer values key = none) :
    pass keys offer round given = given := by
  induction round with
  | nil => rfl
  | cons first rest ih =>
      have hturn : turn keys offer given first = given := by
        by_cases hnone : given first = none
        · rw [turn_of_none hnone, h, ← hnone, Function.update_eq_self]
        · exact turn_of_ne_none hnone
      rw [pass, List.foldl_cons, hturn]
      exact ih

/-! ## One round of free offers -/

/-- The turn of a key in a round. -/
theorem pass_turn (hround : round.Nodup) (hkey : key ∈ round) (hnone : given key = none) :
    ∃ middle, Extends given middle ∧ Extends middle (pass keys offer round given) ∧
      pass keys offer round given key = offer (taken keys middle) key := by
  induction round generalizing given with
  | nil => cases hkey
  | cons first rest ih =>
      obtain ⟨hfirst, hrest⟩ := List.nodup_cons.mp hround
      by_cases hsame : key = first
      · subst hsame
        refine ⟨given, fun _ _ h => h, extends_pass, ?_⟩
        refine (pass_of_not_mem hfirst).trans ?_
        rw [turn_of_none hnone, Function.update_self]
      · obtain ⟨middle, hbefore, hafter, heq⟩ := ih hrest
          ((List.mem_cons.mp hkey).resolve_left hsame) ((turn_other hsame).trans hnone)
        exact ⟨middle, fun other value h => hbefore other value (extends_turn other value h),
          hafter, heq⟩

theorem Free.not_mem_of_pass (hfree : Free offer) (hround : round.Nodup) (hkey : key ∈ round)
    (hnone : given key = none) {value : V} (h : pass keys offer round given key = some value) :
    value ∉ taken keys given := by
  obtain ⟨middle, hbefore, -, heq⟩ := @pass_turn _ _ _ keys _ offer _ _ hround hkey hnone
  exact fun hmem => hfree _ key value (heq.symm.trans h) (taken_subset hbefore hmem)

/-- A value given in a round has no other key. -/
theorem Free.eq_of_pass (hfree : Free offer) {other : K} {value : V} (hkey : key ∈ keys)
    (hother : other ∈ keys) (hnone : given key = none)
    (h : pass keys offer round given key = some value)
    (h' : pass keys offer round given other = some value) : other = key := by
  have hdistinct : ∀ key ∈ keys, given key = none → ∀ other ∈ keys, ∀ value,
      pass keys offer round given key = some value →
        pass keys offer round given other = some value → other = key := by
    refine List.foldlRecOn (motive := fun now : K → Option V => ∀ key ∈ keys, given key = none →
      ∀ other ∈ keys, ∀ value, now key = some value → now other = some value → other = key)
      round _ (fun key _ hnone other _ value h _ => absurd (hnone.symm.trans h) (by simp))
      fun now ih first _ key hkey hnone other hother value h h' => ?_
    by_contra hne
    by_cases hturn : now first = none
    · rw [turn_of_none hturn] at h h'
      by_cases hfirst : key = first
      · subst hfirst
        rw [Function.update_self] at h
        rw [Function.update_of_ne hne] at h'
        exact hfree _ key value h (mem_taken.mpr ⟨other, hother, h'⟩)
      · rw [Function.update_of_ne hfirst] at h
        by_cases hlast : other = first
        · subst hlast
          rw [Function.update_self] at h'
          exact hfree _ other value h' (mem_taken.mpr ⟨key, hkey, h⟩)
        · rw [Function.update_of_ne hlast] at h'
          exact hne (ih key hkey hnone other hother value h h')
    · rw [turn_of_ne_none hturn] at h h'
      exact hne (ih key hkey hnone other hother value h h')
  exact hdistinct key hkey hnone other hother value h h'

/-- A round under other names for the keys. -/
theorem pass_map {L : Type} [DecidableEq L] {name : K → L} {offer' : Offer L V}
    {given' : L → Option V} (hname : ∀ first ∈ keys, ∀ second ∈ keys, name first = name second →
      first = second)
    (hround : round ⊆ keys) (hgiven : ∀ key ∈ keys, given' (name key) = given key)
    (hoffer : ∀ values, ∀ key ∈ keys, offer' values (name key) = offer values key) :
    ∀ key ∈ keys, pass (keys.map name) offer' (round.map name) given' (name key) =
      pass keys offer round given key := by
  induction round generalizing given given' with
  | nil => exact hgiven
  | cons first rest ih =>
      obtain ⟨hfirst, hrest⟩ := List.cons_subset.mp hround
      have htaken : taken (keys.map name) given' = taken keys given := by
        unfold taken
        rw [List.filterMap_map]
        exact List.filterMap_congr hgiven
      refine ih hrest fun key hkey => ?_
      cases hvalue : given first with
      | some value =>
          have hsome : given first ≠ none := by
            rw [hvalue]
            exact Option.some_ne_none value
          have hsome' : given' (name first) ≠ none := (hgiven first hfirst).trans_ne hsome
          rw [turn_of_ne_none hsome, turn_of_ne_none hsome']
          exact hgiven key hkey
      | none =>
          rw [turn_of_none hvalue, turn_of_none ((hgiven first hfirst).trans hvalue), htaken,
            hoffer _ first hfirst]
          by_cases hsame : key = first
          · subst hsame
            rw [Function.update_self, Function.update_self]
          · have hother : name key ≠ name first := fun h => hsame (hname key hkey first hfirst h)
            rw [Function.update_of_ne hother, Function.update_of_ne hsame]
            exact hgiven key hkey

/-! ## What is remembered -/

section Memory

variable [DecidableEq V] {memory target : K → Option V}

/-- Offers from memory. -/
def recalled (memory : K → Option V) : Offer K V := fun taken key =>
  (memory key).filter fun value => value ∉ taken

section Recall

variable {values : List V} {value : V}

omit [DecidableEq K]

theorem recalled_of_none (h : memory key = none) : recalled memory values key = none := by
  rw [recalled, h, Option.filter_none]

theorem recalled_of_mem (h : memory key = some value) (hmem : value ∈ values) :
    recalled memory values key = none := by
  rw [recalled, h, Option.filter_some_neg (by simpa using hmem)]

theorem recalled_of_not_mem (h : memory key = some value) (hmem : value ∉ values) :
    recalled memory values key = some value := by
  rw [recalled, h, Option.filter_some_pos (by simpa using hmem)]

end Recall

omit [DecidableEq K] in
theorem free_recalled : Free (recalled memory) := by
  intro taken key value h
  simpa using (Option.filter_eq_some_iff.mp h).2

/-- Two parts, of which the first one is preferred. -/
def merge (given memory : K → Option V) : K → Option V := fun key => (given key).or (memory key)

/-- What is remembered of a state in which no value has two keys is given again. -/
theorem pass_recalled (hround : round ⊆ keys) (hbefore : Extends given target)
    (hmemory : ∀ key ∈ keys, given key = none → memory key = target key)
    (hdistinct : ∀ key ∈ keys, given key = none → ∀ other ∈ keys, ∀ value,
      target key = some value → target other = some value → other = key) :
    Extends (pass keys (recalled memory) round given) target ∧
      ∀ key ∈ round, pass keys (recalled memory) round given key = target key := by
  induction round generalizing given with
  | nil => exact ⟨hbefore, fun key hkey => absurd hkey List.not_mem_nil⟩
  | cons first rest ih =>
      obtain ⟨hfirst, hrest⟩ := List.cons_subset.mp hround
      have hturn : turn keys (recalled memory) given first first = target first := by
        cases hgiven : given first with
        | some value =>
            rw [turn_of_ne_none (by rw [hgiven]; exact Option.some_ne_none value), hgiven]
            exact (hbefore first value hgiven).symm
        | none =>
            have hsame := hmemory first hfirst hgiven
            rw [turn_of_none hgiven, Function.update_self]
            cases htarget : target first with
            | none => exact recalled_of_none (hsame.trans htarget)
            | some value =>
                have hfree : value ∉ taken keys given := by
                  intro hmem
                  obtain ⟨other, hother, hvalue⟩ := mem_taken.mp hmem
                  rw [hdistinct first hfirst hgiven other hother value htarget
                    (hbefore other value hvalue), hgiven] at hvalue
                  cases hvalue
                exact recalled_of_not_mem (hsame.trans htarget) hfree
      have hafter : Extends (turn keys (recalled memory) given first) target := by
        intro key value hkey
        by_cases hsame : key = first
        · rw [← hkey, hsame, hturn]
        · rw [turn_other hsame] at hkey
          exact hbefore key value hkey
      have hstill : ∀ key, turn keys (recalled memory) given first key = none →
          given key = none := by
        intro key hkey
        refine Option.eq_none_iff_forall_ne_some.mpr fun value hvalue => ?_
        rw [extends_turn key value hvalue] at hkey
        cases hkey
      obtain ⟨hle, hend⟩ := ih hrest hafter
        (fun key hkey hnone => hmemory key hkey (hstill key hnone))
        fun key hkey hnone => hdistinct key hkey (hstill key hnone)
      refine ⟨hle, fun key hkey => ?_⟩
      by_cases hmem : key ∈ rest
      · exact hend key hmem
      · obtain rfl := (List.mem_cons.mp hkey).resolve_right hmem
        exact (pass_of_not_mem hmem).trans hturn

omit [DecidableEq V] in
/-- A round goes as before beside remembered values that it did not give. -/
theorem pass_merge (hfree : Free offer) (hstable : Stable offer) (hround : round.Nodup)
    (hkeys : round ⊆ keys)
    (hapart : ∀ key ∈ keys, ∀ value, memory key = some value →
      pass keys offer round given key = none ∧
        value ∉ taken keys (pass keys offer round given)) :
    pass keys offer round (merge given memory) = merge (pass keys offer round given) memory := by
  induction round generalizing given with
  | nil => rfl
  | cons first rest ih =>
      obtain ⟨hfirst, hrest⟩ := List.nodup_cons.mp hround
      obtain ⟨hmem, hsub⟩ := List.cons_subset.mp hkeys
      have hend : pass keys offer (first :: rest) given first =
          turn keys offer given first first := pass_of_not_mem hfirst
      refine Eq.trans ?_ (ih hrest hsub hapart)
      refine congrArg (pass keys offer rest) ?_
      cases hgiven : given first with
      | some value =>
          have hsome : merge given memory first ≠ none := by simp [merge, hgiven]
          rw [turn_of_ne_none hsome,
            turn_of_ne_none (by rw [hgiven]; exact Option.some_ne_none value)]
      | none =>
          cases hmemory : memory first with
          | some value =>
              -- the round gave this key nothing, so that nothing changes
              obtain ⟨hnone, -⟩ := hapart first hmem value hmemory
              rw [hend, turn_of_none hgiven, Function.update_self] at hnone
              have hsome : merge given memory first ≠ none := by simp [merge, hgiven, hmemory]
              rw [turn_of_ne_none hsome, turn_of_none hgiven, hnone, ← hgiven,
                Function.update_eq_self]
          | none =>
              have hnone : merge given memory first = none := by simp [merge, hgiven, hmemory]
              have hsubset : taken keys given ⊆ taken keys (merge given memory) :=
                taken_subset fun key value h => by simp [merge, h]
              have hsame : offer (taken keys (merge given memory)) first =
                  offer (taken keys given) first := by
                refine hstable _ _ first hsubset fun value hoffer htaken => ?_
                obtain ⟨key, hkey, hvalue⟩ := mem_taken.mp htaken
                rcases Option.or_eq_some_iff.mp hvalue with hold | ⟨-, hremembered⟩
                · exact hfree _ first value hoffer (mem_taken.mpr ⟨key, hkey, hold⟩)
                · refine (hapart key hkey value hremembered).2 (mem_taken.mpr ⟨first, hmem, ?_⟩)
                  rw [hend, turn_of_none hgiven, Function.update_self]
                  exact hoffer
              rw [turn_of_none hnone, turn_of_none hgiven, hsame]
              funext key
              by_cases hkey : key = first
              · subst hkey
                simp [merge, hmemory]
              · simp [merge, Function.update_of_ne hkey]

/-- What the second of two rounds gave may be remembered and given first. -/
theorem pass_recalled_pass {first second : Offer K V} (hfree : Free first) (hstable : Stable first)
    (hfree' : Free second) (hkeys : keys.Nodup)
    (hmemory : ∀ key ∈ keys, given key = none → memory key =
      if pass keys first keys given key = none then
        pass keys second keys (pass keys first keys given) key
      else none) :
    pass keys first keys (pass keys (recalled memory) keys given) =
      pass keys second keys (pass keys first keys given) := by
  generalize hsettled : pass keys first keys given = settled at hmemory ⊢
  generalize hfinal : pass keys second keys settled = final at hmemory ⊢
  let late : K → Option V := fun key => if settled key = none then final key else none
  have hgivenSettled : Extends given settled := hsettled ▸ extends_pass
  have hsettledFinal : Extends settled final := hfinal ▸ extends_pass
  have hlate : ∀ key value, late key = some value →
      settled key = none ∧ final key = some value := by
    intro key value h
    by_cases hnone : settled key = none
    · exact ⟨hnone, (if_pos hnone).symm.trans h⟩
    · cases (if_neg hnone).symm.trans h
  have htarget : ∀ key value, merge given late key = some value → final key = some value := by
    intro key value h
    rcases Option.or_eq_some_iff.mp h with hgiven | ⟨-, hlast⟩
    · exact hsettledFinal key value (hgivenSettled key value hgiven)
    · exact (hlate key value hlast).2
  have hrecalled : pass keys (recalled memory) keys given = merge given late := by
    have hgiven : ∀ key, given key = none → merge given late key = late key := by
      intro key hnone
      simp [merge, hnone]
    obtain ⟨-, hend⟩ := @pass_recalled _ _ _ keys keys given _ memory (merge given late)
      (List.Subset.refl keys)
      (fun key value h => by simp [merge, h])
      (fun key hkey hnone => (hmemory key hkey hnone).trans (hgiven key hnone).symm)
      fun key hkey hnone other hother value h h' => by
        rw [hgiven key hnone] at h
        obtain ⟨hsettledNone, hvalue⟩ := hlate key value h
        exact hfree'.eq_of_pass hkey hother hsettledNone ((congrFun hfinal key).trans hvalue)
          ((congrFun hfinal other).trans (htarget other value h'))
    funext key
    by_cases hkey : key ∈ keys
    · exact hend key hkey
    · rw [pass_of_not_mem hkey]
      have hsettledKey : settled key = given key := hsettled ▸ pass_of_not_mem hkey
      have hfinalKey : final key = settled key := hfinal ▸ pass_of_not_mem hkey
      cases hvalue : given key with
      | some value => simp [merge, hvalue]
      | none => simp [merge, late, hvalue, hfinalKey, hsettledKey]
  have hapart : ∀ key ∈ keys, ∀ value, late key = some value →
      pass keys first keys given key = none ∧ value ∉ taken keys (pass keys first keys given) := by
    intro key hkey value h
    obtain ⟨hnone, hvalue⟩ := hlate key value h
    rw [hsettled]
    exact ⟨hnone, hfree'.not_mem_of_pass hkeys hkey hnone ((congrFun hfinal key).trans hvalue)⟩
  rw [hrecalled, pass_merge hfree hstable hkeys (List.Subset.refl keys) hapart, hsettled]
  funext key
  cases hvalue : settled key with
  | some value => simp [merge, hvalue, hsettledFinal key value hvalue]
  | none => simp [merge, late, hvalue]

end Memory

end Offers
