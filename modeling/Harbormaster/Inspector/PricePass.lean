import Harbormaster.Inspector.Tier1Pass

/-! # What the price pass assigns

Every deferred column has one price field that its words or its values speak for.
The pass gives each field that some column speaks for to exactly one of them.
-/

namespace Harbormaster.Inspector

open Ordered

variable (runtime : Runtime)

/-- The field that the variation of a column speaks for. -/
def structuralField (ratio : ℚ) : String :=
  if 1 / 2 ≤ ratio then "trade_price" else "settlement_price"

/-- The field that a price column speaks for: by the words of its header, else by
its variation. -/
def priceField (ratio : String → ℚ) (header : String) : String :=
  if namesSettlement runtime header then "settlement_price"
  else if namesTrade runtime header then "trade_price"
  else structuralField (ratio header)

variable {runtime}

theorem ranked_perm (scored : List (String × ℚ)) : (ranked scored).Perm scored :=
  List.perm_insertionSort _ _

/-! ## By words -/

section Named

variable {field fieldWords reason : String} {candidates : List (String × ℚ)}

theorem assignNamed_sources :
    ((assignNamed runtime field fieldWords reason candidates).map Mapping.sourceField).Perm
      (candidates.map Prod.fst) := by
  have hperm := (ranked_perm candidates).map Prod.fst
  unfold assignNamed
  split
  next hnone =>
    rw [hnone] at hperm
    exact hperm
  next best score surplus hsome =>
    rw [hsome] at hperm
    rw [List.map_cons, List.map_map]
    exact hperm

/-- The field of a group, if the group has a column. -/
def given (field : String) (headers : List String) : List String :=
  if headers = [] then [] else [field]

theorem mem_given {other : String} {headers : List String} :
    other ∈ given field headers ↔ other = field ∧ headers ≠ [] := by
  unfold given
  split
  next hnone => simp [hnone]
  next hsome => simp [hsome]

theorem given_nodup (headers : List String) : (given field headers).Nodup := by
  unfold given
  split
  next => exact List.nodup_nil
  next => exact List.nodup_singleton field

theorem assignNamed_fields : (assignNamed runtime field fieldWords reason candidates).filterMap
    Mapping.canonicalField = given field (candidates.map Prod.fst) := by
  have hperm := ranked_perm candidates
  unfold assignNamed given
  split
  next hnone =>
    rw [hnone] at hperm
    rw [hperm.symm.eq_nil]
    rfl
  next best score surplus hsome =>
    have hcandidates : candidates.map Prod.fst ≠ [] := by
      intro hnil
      rw [List.map_eq_nil_iff.mp hnil] at hsome
      cases hsome
    rw [if_neg hcandidates]
    simp [Mapping.undecided]

theorem assignNamed_claimed (hne : field ≠ "") :
    claimed (assignNamed runtime field fieldWords reason candidates) =
      given field (candidates.map Prod.fst) := by
  rw [← @assignNamed_fields runtime field fieldWords reason candidates]
  apply List.filterMap_congr
  intro m hm
  cases hfield : m.canonicalField with
  | none => rfl
  | some other =>
      have hmem : other ∈ given field (candidates.map Prod.fst) :=
        assignNamed_fields ▸ List.mem_filterMap.mpr ⟨m, hm, hfield⟩
      rw [(mem_given.mp hmem).1, truthy_of_ne hne]

theorem assignNamed_grounded (hreason : reason ≠ "") :
    ∀ m ∈ assignNamed runtime field fieldWords reason candidates, m.Grounded := by
  unfold assignNamed
  split
  next => exact fun m hm => absurd hm List.not_mem_nil
  next best score surplus hsome =>
    intro m hm
    rcases List.mem_cons.mp hm with rfl | hm
    · exact ⟨hreason, by simp⟩
    · obtain ⟨_, _, rfl⟩ := List.mem_map.mp hm
      exact ⟨by simp [Mapping.undecided], by simp [Mapping.undecided]⟩

end Named

/-! ## By variation -/

section Structural

variable {basis : String}

/-- One column: it is given the field it speaks for, unless that is taken. -/
theorem assignStructural_cons (taken : List String) (header : String) (ratio : ℚ)
    (rest : List (String × ℚ)) :
    ∃ m, m.sourceField = header ∧ m.Grounded ∧
      ((structuralField ratio ∉ taken ∧ m.canonicalField = some (structuralField ratio) ∧
          assignStructural basis taken ((header, ratio) :: rest) =
            m :: assignStructural basis (structuralField ratio :: taken) rest) ∨
        (structuralField ratio ∈ taken ∧ m.canonicalField = none ∧
          assignStructural basis taken ((header, ratio) :: rest) =
            m :: assignStructural basis taken rest)) := by
  have hundecided : ∀ evidence : String, evidence ≠ "" →
      (Mapping.undecided header evidence).Grounded :=
    fun evidence hne => ⟨hne, by simp [Mapping.undecided]⟩
  unfold structuralField
  rw [assignStructural]
  by_cases hvaries : 1 / 2 ≤ ratio
  · rw [if_pos hvaries]
    by_cases htaken : "trade_price" ∈ taken
    · rw [if_neg fun h => h.1 htaken, if_neg fun h => absurd h.2 (not_lt.mpr hvaries)]
      exact ⟨_, rfl, hundecided _ (by simp), .inr ⟨htaken, rfl, rfl⟩⟩
    · rw [if_pos ⟨htaken, hvaries⟩]
      exact ⟨_, rfl, ⟨by simp, by simp⟩, .inl ⟨htaken, rfl, rfl⟩⟩
  · rw [if_neg hvaries, if_neg fun h => hvaries h.2]
    by_cases htaken : "settlement_price" ∈ taken
    · rw [if_neg fun h => h.1 htaken]
      exact ⟨_, rfl, hundecided _ (by simp), .inr ⟨htaken, rfl, rfl⟩⟩
    · rw [if_pos ⟨htaken, not_le.mp hvaries⟩]
      exact ⟨_, rfl, ⟨by simp, by simp⟩, .inl ⟨htaken, rfl, rfl⟩⟩

theorem structuralField_ne_empty (ratio : ℚ) : structuralField ratio ≠ "" := by
  unfold structuralField
  split <;> decide

theorem assignStructural_sources (taken : List String) (scored : List (String × ℚ)) :
    (assignStructural basis taken scored).map Mapping.sourceField = scored.map Prod.fst := by
  induction scored generalizing taken with
  | nil => rfl
  | cons entry rest ih =>
      obtain ⟨header, ratio⟩ := entry
      obtain ⟨m, hsource, _, ⟨_, _, heq⟩ | ⟨_, _, heq⟩⟩ :=
        @assignStructural_cons basis taken header ratio rest
      · rw [heq, List.map_cons, List.map_cons, ih, hsource]
      · rw [heq, List.map_cons, List.map_cons, ih, hsource]

theorem assignStructural_grounded (taken : List String) (scored : List (String × ℚ)) :
    ∀ m ∈ assignStructural basis taken scored, m.Grounded := by
  induction scored generalizing taken with
  | nil => exact fun m hm => absurd hm List.not_mem_nil
  | cons entry rest ih =>
      obtain ⟨header, ratio⟩ := entry
      obtain ⟨first, _, hgrounded, ⟨_, _, heq⟩ | ⟨_, _, heq⟩⟩ :=
        @assignStructural_cons basis taken header ratio rest
      · rw [heq, List.forall_mem_cons]
        exact ⟨hgrounded, ih _⟩
      · rw [heq, List.forall_mem_cons]
        exact ⟨hgrounded, ih _⟩

theorem mem_assignStructural (taken : List String) (scored : List (String × ℚ)) (field : String) :
    field ∈ claimed (assignStructural basis taken scored) ↔
      field ∉ taken ∧ ∃ entry ∈ scored, structuralField entry.2 = field := by
  induction scored generalizing taken with
  | nil => simp [assignStructural, claimed]
  | cons entry rest ih =>
      obtain ⟨header, ratio⟩ := entry
      simp only [List.exists_mem_cons_iff]
      obtain ⟨m, _, _, ⟨hfree, hfield, heq⟩ | ⟨htaken, hfield, heq⟩⟩ :=
        @assignStructural_cons basis taken header ratio rest
      · rw [heq, ← List.singleton_append, claimed_append,
          claimed_some hfield (structuralField_ne_empty ratio), List.singleton_append,
          List.mem_cons, ih, List.mem_cons, not_or]
        by_cases hsame : field = structuralField ratio
        · subst hsame
          simp [hfree]
        · simp [hsame, Ne.symm hsame]
      · rw [heq, ← List.singleton_append, claimed_append, claimed_none hfield, List.nil_append, ih]
        refine and_congr_right fun hfree => (or_iff_right ?_).symm
        rintro rfl
        exact hfree htaken

theorem assignStructural_nodup (taken : List String) (scored : List (String × ℚ)) :
    (claimed (assignStructural basis taken scored)).Nodup := by
  induction scored generalizing taken with
  | nil => exact List.nodup_nil
  | cons entry rest ih =>
      obtain ⟨header, ratio⟩ := entry
      obtain ⟨m, _, _, ⟨_, hfield, heq⟩ | ⟨_, hfield, heq⟩⟩ :=
        @assignStructural_cons basis taken header ratio rest
      · rw [heq, ← List.singleton_append, claimed_append,
          claimed_some hfield (structuralField_ne_empty ratio), List.singleton_append,
          List.nodup_cons, mem_assignStructural]
        exact ⟨fun hmem => hmem.1 List.mem_cons_self, ih _⟩
      · rw [heq, ← List.singleton_append, claimed_append, claimed_none hfield, List.nil_append]
        exact ih taken

end Structural

/-! ## Both passes -/

section Prices

variable (table : ParsedTable) (headers : List String) (settled : List Mapping)

variable {table settled} in
theorem filter_partition_perm {α : Type} {first second : α → Bool}
    (hapart : ∀ a, first a = true → second a = false) (elements : List α) :
    (elements.filter first ++ elements.filter second ++
      elements.filter fun a => !first a && !second a).Perm elements := by
  have hrest := List.filter_append_perm second (elements.filter fun a => !first a)
  rw [List.filter_filter, List.filter_filter] at hrest
  have hsecond : (fun a => second a && !first a) = second := by
    funext a
    cases hfirst : first a with
    | true => rw [hapart a hfirst, Bool.false_and]
    | false => rw [Bool.not_false, Bool.and_true]
  simp only [hsecond, Bool.and_comm (!second _)] at hrest
  rw [List.append_assoc]
  exact (hrest.append_left _).trans (List.filter_append_perm first elements)

theorem namesTrade_of_namesSettlement (header : String)
    (h : namesSettlement runtime header = true) : namesTrade runtime header = false := by
  unfold namesSettlement at h
  unfold namesTrade
  rw [Bool.and_eq_true] at h
  rw [h.1, Bool.not_true, Bool.and_false]

/-- The columns whose words decide nothing. -/
def undecidedHeaders (runtime : Runtime) (headers : List String) : List String :=
  headers.filter fun h => !namesSettlement runtime h && !namesTrade runtime h

/-- How the evidence of the second pass begins. -/
def priceBasis (groupBy : Option (List String)) : String :=
  if groupBy.any fun keys => keys ≠ [] then "within instrument groups" else "across all rows"

/-- The three groups of the price candidates, and what is made of them. -/
theorem resolvePrices_eq : resolvePrices runtime table headers settled =
    assignNamed runtime "settlement_price" "settlement price"
        "header names a settlement or mark price"
        ((headers.filter (namesSettlement runtime)).map fun h =>
          (h, settlementPreference runtime h)) ++
      assignNamed runtime "trade_price" "trade price" "header names an execution price"
        ((headers.filter (namesTrade runtime)).map fun h => (h, tradePreference runtime h)) ++
      assignStructural (priceBasis (instrumentColumn table settled))
        (given "settlement_price" (headers.filter (namesSettlement runtime)) ++
          given "trade_price" (headers.filter (namesTrade runtime)))
        (ranked ((undecidedHeaders runtime headers).map fun h =>
          (h, variationRatio (table.column h) (instrumentColumn table settled)))) := by
  unfold resolvePrices
  dsimp only
  rw [List.filterMap_append, assignNamed_fields, assignNamed_fields, List.map_map, List.map_map]
  simp only [Function.comp_def, List.map_id']
  rfl

/-- Each deferred column gets one mapping. -/
theorem resolvePrices_sources :
    ((resolvePrices runtime table headers settled).map Mapping.sourceField).Perm headers := by
  have hstructural := (ranked_perm ((undecidedHeaders runtime headers).map fun h =>
    (h, variationRatio (table.column h) (instrumentColumn table settled)))).map Prod.fst
  rw [resolvePrices_eq, List.map_append, List.map_append, assignStructural_sources]
  apply ((assignNamed_sources.append assignNamed_sources).append hstructural).trans
  simp only [List.map_map, Function.comp_def, List.map_id']
  exact filter_partition_perm namesTrade_of_namesSettlement headers

theorem resolvePrices_grounded :
    ∀ m ∈ resolvePrices runtime table headers settled, m.Grounded := by
  rw [resolvePrices_eq]
  intro m hm
  rcases List.mem_append.mp hm with hm | hm
  · rcases List.mem_append.mp hm with hm | hm
    · exact assignNamed_grounded (by decide) m hm
    · exact assignNamed_grounded (by decide) m hm
  · exact assignStructural_grounded _ _ m hm

/-- The price fields given out, from what the columns speak for. -/
theorem mem_resolvePrices (field : String) :
    field ∈ claimed (resolvePrices runtime table headers settled) ↔
      ∃ header ∈ headers, priceField runtime (fun h => variationRatio (table.column h)
        (instrumentColumn table settled)) header = field := by
  rw [resolvePrices_eq, claimed_append, claimed_append, assignNamed_claimed (by decide),
    assignNamed_claimed (by decide)]
  simp only [List.map_map, Function.comp_def, List.map_id', List.mem_append, mem_assignStructural,
    (ranked_perm _).mem_iff, mem_given]
  have hsome : ∀ names : String → Bool, headers.filter names ≠ [] ↔
      ∃ header ∈ headers, names header = true := by
    intro names
    rw [ne_eq, List.filter_eq_nil_iff]
    push Not
    rfl
  rw [hsome, hsome]
  constructor
  · rintro ((⟨rfl, header, hheader, hnames⟩ | ⟨rfl, header, hheader, hnames⟩) | ⟨_, entry, hentry, rfl⟩)
    · exact ⟨header, hheader, by rw [priceField, if_pos hnames]⟩
    · refine ⟨header, hheader, ?_⟩
      rw [priceField, if_neg, if_pos hnames]
      intro hsettlement
      rw [namesTrade_of_namesSettlement header hsettlement] at hnames
      cases hnames
    · obtain ⟨header, hundecided, rfl⟩ := List.mem_map.mp hentry
      obtain ⟨hheader, hneither⟩ := List.mem_filter.mp hundecided
      rw [Bool.and_eq_true, Bool.not_eq_true', Bool.not_eq_true'] at hneither
      exact ⟨header, hheader, by rw [priceField, hneither.1, hneither.2]; rfl⟩
  · rintro ⟨header, hheader, rfl⟩
    unfold priceField
    split
    next hnames => exact .inl (.inl ⟨rfl, header, hheader, hnames⟩)
    next hnotSettlement =>
      split
      next hnames => exact .inl (.inr ⟨rfl, header, hheader, hnames⟩)
      next hnotTrade =>
        refine or_iff_not_imp_left.mpr fun htaken => ⟨htaken, _, List.mem_map.mpr
          ⟨header, List.mem_filter.mpr ⟨hheader, ?_⟩, rfl⟩, rfl⟩
        simp [hnotSettlement, hnotTrade]

/-- No price field is given out twice. -/
theorem resolvePrices_nodup :
    (claimed (resolvePrices runtime table headers settled)).Nodup := by
  rw [resolvePrices_eq, claimed_append, claimed_append, assignNamed_claimed (by decide),
    assignNamed_claimed (by decide)]
  simp only [List.map_map, Function.comp_def, List.map_id']
  apply List.Nodup.append
  · apply (given_nodup _).append (given_nodup _)
    intro field hsettlement htrade
    rw [(mem_given.mp hsettlement).1] at htrade
    exact absurd (mem_given.mp htrade).1 (by decide)
  · exact assignStructural_nodup _ _
  · intro field htaken hfield
    exact ((mem_assignStructural _ _ _).mp hfield).1 htaken

end Prices

/-! ## Both parts of Tier 1 -/

/-- Every header has one mapping, in header order. -/
theorem inSourceOrder_spec {headers : List String} {mappings : List Mapping}
    (hnodup : headers.Nodup) (hsources : (mappings.map Mapping.sourceField).Perm headers) :
    (inSourceOrder headers mappings).map Mapping.sourceField = headers ∧
      (inSourceOrder headers mappings).Perm mappings := by
  have hkeys : (mappings.map fun m => (m.sourceField, m)).map Prod.fst =
      mappings.map Mapping.sourceField := by simp
  have hdistinct := hsources.nodup_iff.mpr hnodup
  have hget : ∀ header m, (Dict.ofPairs (mappings.map fun m => (m.sourceField, m))).get? header =
      some m ↔ m ∈ mappings ∧ m.sourceField = header := by
    intro header m
    rw [Dict.get?_ofPairs_of_nodup (hkeys ▸ hdistinct), List.mem_map]
    constructor
    · rintro ⟨m', hm', hpair⟩
      obtain ⟨rfl, rfl⟩ := Prod.mk.inj hpair
      exact ⟨hm', rfl⟩
    · rintro ⟨hm, rfl⟩
      exact ⟨m, hm, rfl⟩
  have hordered : (inSourceOrder headers mappings).map Mapping.sourceField = headers := by
    unfold inSourceOrder
    dsimp only
    rw [List.map_filterMap]
    have hfound : ∀ header ∈ headers, ((Dict.ofPairs (mappings.map fun m =>
        (m.sourceField, m))).get? header).map Mapping.sourceField = some header := by
      intro header hheader
      obtain ⟨m, hm, hsource⟩ := List.mem_map.mp (hsources.mem_iff.mpr hheader)
      rw [(hget header m).mpr ⟨hm, hsource⟩, Option.map_some, hsource]
    rw [List.filterMap_congr hfound]
    exact List.filterMap_some
  refine ⟨hordered, ?_⟩
  rw [List.perm_ext_iff_of_nodup (List.Nodup.of_map Mapping.sourceField (hordered.symm ▸ hnodup))
    (List.Nodup.of_map _ hdistinct)]
  intro m
  unfold inSourceOrder
  rw [List.mem_filterMap]
  constructor
  · rintro ⟨header, _, hm⟩
    exact ((hget header m).mp hm).1
  · intro hm
    exact ⟨m.sourceField, hsources.mem_iff.mp (List.mem_map_of_mem hm),
      (hget _ m).mpr ⟨hm, rfl⟩⟩

section Tier1

variable (runtime) (fieldOverrides : List (String × String)) (table : ParsedTable)

/-- How a column varies beside the column of the instruments. -/
def ratioOf (header : String) : ℚ :=
  variationRatio (table.column header) ((truthy (table.headers.find? fun header =>
    namedField runtime fieldOverrides header = some "instrument_id")).map table.column)

/-- No override gives a field that an earlier header was given by its name, or
that a price column speaks for. -/
structure OverridesApart : Prop where
  named : table.headers.Pairwise (Apart runtime fieldOverrides)
  priced : ∀ header ∈ table.headers, ∀ override,
    overrideFor runtime fieldOverrides header = some override →
      ∀ other ∈ table.headers, isDeferred runtime fieldOverrides table other = true →
        priceField runtime (ratioOf runtime fieldOverrides table) other ≠ override

end Tier1

variable {fieldOverrides : List (String × String)} {table : ParsedTable}

theorem priceField_mem (ratio : String → ℚ) (header : String) :
    priceField runtime ratio header ∈ priceFields := by
  unfold priceField structuralField
  split
  · decide
  · split
    · decide
    · split <;> decide

/-- A price field is given by name to overridden headers only. -/
theorem namedField_price {header field : String} (hprice : field ∈ priceFields) :
    namedField runtime fieldOverrides header = some field ↔
      overrideFor runtime fieldOverrides header = some field := by
  unfold namedField
  cases hoverride : overrideFor runtime fieldOverrides header with
  | some override => rfl
  | none => simp [hprice]

/-- What Tier 1 makes of a table. -/
structure Tier1Result (runtime : Runtime) (fieldOverrides : List (String × String))
    (table : ParsedTable) (mappings : List Mapping) : Prop where
  sources : mappings.map Mapping.sourceField = table.headers
  grounded : ∀ m ∈ mappings, m.Grounded
  nodup_iff : (claimed mappings).Nodup ↔ OverridesApart runtime fieldOverrides table

/-- A table that is mapped: the pass over the names, and the price pass over what
it has deferred. -/
theorem mapTable_eq_ok {mappings : List Mapping}
    (h : mapTable runtime fieldOverrides table = .ok mappings) :
    ∃ state, table.headers.foldlM (mapHeader runtime fieldOverrides table) {} = .ok state ∧
      mappings.map Mapping.sourceField = table.headers ∧
      mappings.Perm (state.mappings ++
        resolvePrices runtime table state.deferredPrices state.mappings) ∧
      (fun header => variationRatio (table.column header)
        (instrumentColumn table state.mappings)) = ratioOf runtime fieldOverrides table := by
  obtain ⟨state, hfold, h⟩ := Fallible.bind_eq_ok.mp h
  obtain rfl := Except.ok.inj h
  have hpassed := passed_of_foldlM hfold
  have hsources : ((state.mappings ++ resolvePrices runtime table state.deferredPrices
      state.mappings).map Mapping.sourceField).Perm table.headers := by
    rw [List.map_append, hpassed.sources]
    apply ((resolvePrices_sources _ _ _).append_left _).trans
    rw [hpassed.deferred]
    exact List.perm_append_comm.trans (List.filter_append_perm _ _)
  obtain ⟨hordered, hperm⟩ := inSourceOrder_spec table.headers_nodup hsources
  refine ⟨state, hfold, hordered, hperm, ?_⟩
  funext header
  rw [instrumentColumn, hpassed.instrument, ratioOf]

theorem mapTable_spec {mappings : List Mapping}
    (h : mapTable runtime fieldOverrides table = .ok mappings) :
    Tier1Result runtime fieldOverrides table mappings := by
  obtain ⟨state, hfold, hordered, hperm, hratio⟩ := mapTable_eq_ok h
  have hpassed := passed_of_foldlM hfold
  refine ⟨hordered, ?_, ?_⟩
  · intro m hm
    rcases List.mem_append.mp (hperm.mem_iff.mp hm) with hnamed | hpriced
    · exact hpassed.grounded m hnamed
    · exact resolvePrices_grounded _ _ _ m hpriced
  · have hclaimed : (claimed mappings).Perm (claimed (state.mappings ++
        resolvePrices runtime table state.deferredPrices state.mappings)) := hperm.filterMap _
    rw [hclaimed.nodup_iff, claimed_append, List.nodup_append', hpassed.nodup_iff]
    constructor
    · rintro ⟨hnamed, _, hdisjoint⟩
      refine ⟨hnamed, ?_⟩
      rintro header hheader override hoverride other hother hdeferred rfl
      have hgiven := (namedField_price (priceField_mem _ _)).mpr hoverride
      apply hdisjoint ((hpassed.fields_iff _).mpr
        ((hpassed.claimed_iff _).mpr ⟨header, hheader, hgiven⟩))
      rw [mem_resolvePrices, hpassed.deferred, hratio]
      exact ⟨other, List.mem_filter.mpr ⟨hother, hdeferred⟩, rfl⟩
    · intro hapart
      refine ⟨hapart.named, resolvePrices_nodup _ _ _, ?_⟩
      intro field hnamed hpriced
      rw [mem_resolvePrices, hpassed.deferred, hratio] at hpriced
      obtain ⟨other, hother, rfl⟩ := hpriced
      obtain ⟨hother, hdeferred⟩ := List.mem_filter.mp hother
      obtain ⟨header, hheader, hgiven⟩ := (hpassed.claimed_iff _).mp
        ((hpassed.fields_iff _).mp hnamed)
      exact hapart.priced header hheader _ ((namedField_price (priceField_mem _ _)).mp hgiven)
        other hother hdeferred rfl

end Harbormaster.Inspector
