import Harbormaster.Foundation.Fallible
import Harbormaster.Inspector.Resolver

/-! # What Tier 1 assigns

Each header is settled by its name or left to the price pass. From what one
header does follows what the whole pass does: which columns get a mapping, which
fields are given out, and when a field is given out twice.
-/

namespace Harbormaster.Inspector

open Ordered

variable (runtime : Runtime)

/-- A mapping names its evidence, and is unresolved exactly without a field. -/
structure Mapping.Grounded (m : Mapping) : Prop where
  evidence : m.evidence ≠ ""
  unresolved_iff : m.canonicalField = none ↔ m.tier = .tierUnresolved

def priceFields : List String := ["trade_price", "settlement_price"]

section Headers

variable (fieldOverrides : List (String × String)) (table : ParsedTable)

/-- The field a header is given by its name: by an override, or as an alias of a
field that is no price. -/
def namedField (header : String) : Option String :=
  match overrideFor runtime fieldOverrides header with
  | some override => some override
  | none => (aliasLookup runtime header).filter fun hit => hit ∉ priceFields

/-- The header is left to the price pass. -/
def isDeferred (header : String) : Bool :=
  (overrideFor runtime fieldOverrides header).isNone &&
    match aliasLookup runtime header with
    | some hit => hit ∈ priceFields
    | none => ((looksLikePriceColumn runtime header (table.column header)).toOption).getD false

/-- An override does not give a field that an earlier name was given. -/
def Apart (earlier later : String) : Prop :=
  ∀ override, overrideFor runtime fieldOverrides later = some override →
    namedField runtime fieldOverrides earlier ≠ some override

end Headers

variable {runtime} {fieldOverrides : List (String × String)} {table : ParsedTable}

theorem override_ne_empty {header override : String}
    (h : overrideFor runtime fieldOverrides header = some override) : override ≠ "" := by
  have hkept := (Option.filter_eq_some_iff.mp h).2
  simpa using hkept

theorem mappable_ne_empty {field : String} (h : field ∈ mappableFields) : field ≠ "" := by
  have hall : ∀ field ∈ mappableFields, field ≠ "" := by decide
  exact hall field h

/-- One header of the pass: it is deferred, its name is given a new field, or it
is left undecided. Only an override may give a field again. -/
theorem mapHeader_cases {state next : Tier1State} {header : String}
    (h : mapHeader runtime fieldOverrides table state header = .ok next) :
    (isDeferred runtime fieldOverrides table header = true ∧
      namedField runtime fieldOverrides header = none ∧ next = state.defer header) ∨
    (isDeferred runtime fieldOverrides table header = false ∧
      ∃ m, m.sourceField = header ∧ m.Grounded ∧
        ((∃ field, namedField runtime fieldOverrides header = some field ∧ field ≠ "" ∧
            m.canonicalField = some field ∧
            (overrideFor runtime fieldOverrides header = some field ∨
              overrideFor runtime fieldOverrides header = none ∧ field ∉ state.claimed) ∧
            next = (state.add m).claim field) ∨
          (overrideFor runtime fieldOverrides header = none ∧
            (∀ field, namedField runtime fieldOverrides header = some field →
              field ∈ state.claimed) ∧
            m.canonicalField = none ∧ next = state.add m))) := by
  unfold mapHeader at h
  split at h
  next override hoverride =>
    -- an override is given whatever was claimed before
    cases h
    refine .inr ⟨by simp [isDeferred, hoverride], _, rfl, ⟨by simp, by simp⟩, .inl
      ⟨override, by simp [namedField, hoverride], override_ne_empty hoverride, rfl,
        .inl hoverride, rfl⟩⟩
  next hoverride =>
    dsimp only at h
    have hunmatched : ∀ evidence : String, evidence ≠ "" →
        (Mapping.undecided header evidence).Grounded :=
      fun evidence hne => ⟨hne, by simp [Mapping.undecided]⟩
    split at h
    next hnone =>
      obtain ⟨price, hprice, h⟩ := Fallible.bind_eq_ok.mp h
      have hname : namedField runtime fieldOverrides header = none := by
        simp [namedField, hoverride, hnone]
      have hdeferred : isDeferred runtime fieldOverrides table header = price := by
        simp [isDeferred, hoverride, hnone, hprice, Except.toOption]
      cases price with
      | true =>
          cases h
          exact .inl ⟨hdeferred, hname, rfl⟩
      | false =>
          cases h
          refine .inr ⟨hdeferred, _, rfl, hunmatched _ (by simp), .inr ⟨hoverride, ?_, rfl, rfl⟩⟩
          intro field hfield
          rw [hname] at hfield
          cases hfield
    next hit hhit =>
      have hmappable := mappable_of_aliasLookup runtime hhit
      split at h
      next hprice =>
        -- a price is deferred to the price pass
        cases h
        have hmem : hit ∈ priceFields := by simpa [priceFields] using hprice
        exact .inl ⟨by simp [isDeferred, hoverride, hhit, hmem],
          by simp [namedField, hoverride, hhit, Option.filter, hmem], rfl⟩
      next hprice =>
        have hmem : hit ∉ priceFields := by simpa [priceFields] using hprice
        have hname : namedField runtime fieldOverrides header = some hit := by
          simp [namedField, hoverride, hhit, Option.filter, hmem]
        have hdeferred : isDeferred runtime fieldOverrides table header = false := by
          simp [isDeferred, hhit, hmem]
        right
        refine ⟨hdeferred, ?_⟩
        split at h
        next hfree =>
          cases h
          exact ⟨_, rfl, ⟨by simp, by simp⟩, .inl ⟨hit, hname, mappable_ne_empty hmappable, rfl,
            .inr ⟨hoverride, hfree.2⟩, rfl⟩⟩
        next htaken =>
          -- the alias is known but its field is claimed
          have hclaimed : hit ∈ state.claimed := by
            by_contra hfree
            exact htaken ⟨hmappable, hfree⟩
          rw [if_pos hclaimed] at h
          cases h
          refine ⟨_, rfl, hunmatched _ (by simp), .inr ⟨hoverride, ?_, rfl, rfl⟩⟩
          intro field hfield
          rw [hname] at hfield
          exact Option.some.inj hfield ▸ hclaimed

/-! ## The pass over the names -/

@[simp] theorem claimed_append (mappings later : List Mapping) :
    claimed (mappings ++ later) = claimed mappings ++ claimed later := List.filterMap_append

theorem claimed_none {m : Mapping} (h : m.canonicalField = none) : claimed [m] = [] := by
  simp [claimed, h]

theorem claimed_some {m : Mapping} {field : String} (h : m.canonicalField = some field)
    (hne : field ≠ "") : claimed [m] = [field] := by
  simp [claimed, h, truthy_of_ne hne]

/-- The state of the pass once these headers are behind it. -/
structure Passed (fieldOverrides : List (String × String)) (table : ParsedTable)
    (passed : List String) (state : Tier1State) : Prop where
  sources : state.mappings.map Mapping.sourceField =
    passed.filter fun header => !isDeferred runtime fieldOverrides table header
  deferred : state.deferredPrices = passed.filter (isDeferred runtime fieldOverrides table)
  claimed_iff : ∀ field, field ∈ state.claimed ↔
    ∃ header ∈ passed, namedField runtime fieldOverrides header = some field
  fields_iff : ∀ field, field ∈ claimed state.mappings ↔ field ∈ state.claimed
  nodup_iff : (claimed state.mappings).Nodup ↔ passed.Pairwise (Apart runtime fieldOverrides)
  grounded : ∀ m ∈ state.mappings, m.Grounded
  instrument : (state.mappings.find? fun m => m.canonicalField = some "instrument_id").map
      Mapping.sourceField =
    passed.find? fun header => namedField runtime fieldOverrides header = some "instrument_id"

theorem passed_nil : @Passed runtime fieldOverrides table [] {} where
  sources := rfl
  deferred := rfl
  claimed_iff field := by simp
  fields_iff field := by simp [claimed]
  nodup_iff := by simp [claimed]
  grounded m hm := absurd hm List.not_mem_nil
  instrument := rfl

theorem pairwise_snoc {α : Type} {R : α → α → Prop} {passed : List α} {last : α} :
    (passed ++ [last]).Pairwise R ↔ passed.Pairwise R ∧ ∀ earlier ∈ passed, R earlier last := by
  simp [List.pairwise_append]

theorem exists_mem_snoc {α : Type} {P : α → Prop} {passed : List α} {last : α} :
    (∃ element ∈ passed ++ [last], P element) ↔ (∃ element ∈ passed, P element) ∨ P last := by
  simp only [List.mem_append, List.mem_singleton, or_and_right, exists_or, exists_eq_left]

section Step

variable {passed : List String} {state : Tier1State} {header : String}

theorem Passed.defer (h : @Passed runtime fieldOverrides table passed state)
    (hdeferred : isDeferred runtime fieldOverrides table header = true)
    (hname : namedField runtime fieldOverrides header = none) :
    @Passed runtime fieldOverrides table (passed ++ [header]) (state.defer header) where
  sources := by
    rw [List.filter_append]
    simp [Tier1State.defer, hdeferred, h.sources]
  deferred := by
    rw [List.filter_append]
    simp [Tier1State.defer, hdeferred, h.deferred]
  claimed_iff field := by
    rw [exists_mem_snoc]
    simp [Tier1State.defer, hname, h.claimed_iff]
  fields_iff := h.fields_iff
  nodup_iff := by
    rw [pairwise_snoc]
    refine h.nodup_iff.trans (and_iff_left ?_).symm
    intro earlier _ override hoverride
    simp [namedField, hoverride] at hname
  grounded := h.grounded
  instrument := by
    rw [List.find?_append]
    simp [Tier1State.defer, hname, h.instrument]

/-- The name of a header is given a field. -/
theorem Passed.give (h : @Passed runtime fieldOverrides table passed state)
    {m : Mapping} {field : String}
    (hkept : isDeferred runtime fieldOverrides table header = false)
    (hsource : m.sourceField = header) (hgrounded : m.Grounded)
    (hname : namedField runtime fieldOverrides header = some field) (hne : field ≠ "")
    (hfield : m.canonicalField = some field)
    (hgiven : overrideFor runtime fieldOverrides header = some field ∨
      overrideFor runtime fieldOverrides header = none ∧ field ∉ state.claimed) :
    @Passed runtime fieldOverrides table (passed ++ [header])
      ((state.add m).claim field) where
  sources := by
    rw [List.filter_append]
    simp [Tier1State.add, Tier1State.claim, hkept, h.sources, hsource]
  deferred := by
    rw [List.filter_append]
    simp [Tier1State.add, Tier1State.claim, hkept, h.deferred]
  claimed_iff other := by
    rw [exists_mem_snoc]
    simp only [Tier1State.add, Tier1State.claim, List.mem_cons, h.claimed_iff, hname,
      Option.some.injEq]
    rw [or_comm, @eq_comm _ other]
  fields_iff other := by
    simp [Tier1State.add, Tier1State.claim, claimed_some hfield hne, h.fields_iff, or_comm]
  nodup_iff := by
    simp only [Tier1State.add, Tier1State.claim, claimed_append, claimed_some hfield hne]
    rw [pairwise_snoc, List.nodup_append_comm, List.singleton_append, List.nodup_cons,
      h.nodup_iff, h.fields_iff, and_comm]
    refine and_congr_right fun _ => ?_
    rw [h.claimed_iff]
    constructor
    · intro hnew earlier hearlier override hoverride hsame
      have hother : namedField runtime fieldOverrides header = some override := by
        simp [namedField, hoverride]
      rw [hname] at hother
      exact hnew ⟨earlier, hearlier, hother ▸ hsame⟩
    · rintro hapart ⟨earlier, hearlier, hsame⟩
      cases hgiven with
      | inl hoverride => exact hapart earlier hearlier field hoverride hsame
      | inr hfree => exact hfree.2 ((h.claimed_iff field).mpr ⟨earlier, hearlier, hsame⟩)
  grounded other hother := by
    rcases List.mem_append.mp hother with hold | hnew
    · exact h.grounded other hold
    · exact List.mem_singleton.mp hnew ▸ hgrounded
  instrument := by
    simp only [Tier1State.add, Tier1State.claim]
    rw [List.find?_append, List.find?_append, Option.map_or, h.instrument]
    simp only [List.find?_cons, List.find?_nil, hfield, hname]
    split <;> simp [hsource]

/-- The name of a header is given nothing. -/
theorem Passed.leave (h : @Passed runtime fieldOverrides table passed state)
    {m : Mapping} (hkept : isDeferred runtime fieldOverrides table header = false)
    (hsource : m.sourceField = header) (hgrounded : m.Grounded)
    (hoverride : overrideFor runtime fieldOverrides header = none)
    (hclaimed : ∀ field, namedField runtime fieldOverrides header = some field →
      field ∈ state.claimed)
    (hfield : m.canonicalField = none) :
    @Passed runtime fieldOverrides table (passed ++ [header]) (state.add m) where
  sources := by
    rw [List.filter_append]
    simp [Tier1State.add, hkept, h.sources, hsource]
  deferred := by
    rw [List.filter_append]
    simp [Tier1State.add, hkept, h.deferred]
  claimed_iff other := by
    rw [exists_mem_snoc]
    simp only [Tier1State.add, h.claimed_iff]
    refine (or_iff_left_of_imp fun hname => ?_).symm
    exact (h.claimed_iff other).mp (hclaimed other hname)
  fields_iff other := by
    simp [Tier1State.add, claimed_none hfield, h.fields_iff]
  nodup_iff := by
    simp only [Tier1State.add, claimed_append, claimed_none hfield, List.append_nil]
    rw [pairwise_snoc]
    refine h.nodup_iff.trans (and_iff_left ?_).symm
    intro earlier _ override hother
    rw [hoverride] at hother
    cases hother
  grounded other hother := by
    rcases List.mem_append.mp hother with hold | hnew
    · exact h.grounded other hold
    · exact List.mem_singleton.mp hnew ▸ hgrounded
  instrument := by
    simp only [Tier1State.add]
    rw [List.find?_append, List.find?_append, Option.map_or, h.instrument]
    simp only [List.find?_cons, List.find?_nil, hfield, reduceCtorEq, decide_false, Option.map_none]
    by_cases hname : namedField runtime fieldOverrides header = some "instrument_id"
    · -- an earlier header has the instrument already
      obtain ⟨earlier, hearlier, hsame⟩ := (h.claimed_iff _).mp (hclaimed _ hname)
      have hfound : (passed.find? fun header =>
          namedField runtime fieldOverrides header = some "instrument_id").isSome :=
        List.find?_isSome.mpr ⟨earlier, hearlier, by simpa using hsame⟩
      obtain ⟨found, hfound⟩ := Option.isSome_iff_exists.mp hfound
      simp [hfound]
    · simp [hname]

end Step

/-- What the pass over all headers has done. -/
theorem passed_of_foldlM {headers : List String} {state : Tier1State}
    (h : headers.foldlM (mapHeader runtime fieldOverrides table) {} = .ok state) :
    @Passed runtime fieldOverrides table headers state := by
  refine Fallible.foldlM_passed (motive := @Passed runtime fieldOverrides table)
    passed_nil ?_ h
  intro passed header state next hpassed hnext
  rcases mapHeader_cases hnext with ⟨hdeferred, hname, rfl⟩ |
    ⟨hkept, m, hsource, hgrounded, ⟨field, hname, hne, hfield, hgiven, rfl⟩ |
      ⟨hoverride, hclaimed, hfield, rfl⟩⟩
  · exact hpassed.defer hdeferred hname
  · exact hpassed.give hkept hsource hgrounded hname hne hfield hgiven
  · exact hpassed.leave hkept hsource hgrounded hoverride hclaimed hfield

end Harbormaster.Inspector
