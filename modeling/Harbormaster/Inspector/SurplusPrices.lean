import Harbormaster.Foundation.CommonSubsequence
import Harbormaster.Inspector.ColumnOrder
import Harbormaster.Inspector.Escalation

/-! # Surplus settlement prices

Tier 1 gives one column the settlement price and leaves the others without a
field. The local matcher then offers them the closest alias of a field that is
still free, which may be one of the trade price.
-/

namespace Harbormaster.Inspector

open Ordered Ranking

variable {runtime : Runtime}

/-! ## The fuzzy matcher alone -/

/-- `fuzz.token_set_ratio` of two texts of one token each. -/
def tokenSetRatio (query choice : String) : ℚ :=
  100 * 2 * CommonSubsequence.length query.toList choice.toList /
    (query.toList.length + choice.toList.length)

/-- The first of the closest choices, and no embedding model. -/
def fuzzyScorer : Scorer where
  extractOne query choices :=
    ((List.finRange choices.length).argmax fun index =>
      tokenSetRatio query (choices.get index)).map fun index =>
        (tokenSetRatio query (choices.get index), index)
  best _ := (none, 0)
  degraded := true
  best_described _ := none_described

/-- The closest alias of a field that is not taken, with its field. -/
def closestAlias (normalized : String) (taken : List String) : Option (String × String) :=
  (aliasCorpus.filter fun candidate => candidate.2 ∉ taken).argmax fun candidate =>
    tokenSetRatio normalized candidate.1

/-- The choice that is extracted is the first of the closest candidates. -/
theorem extractOne_candidates (normalized : String) (candidates : List (String × String))
    (hlength : (candidates.map Prod.fst).length = candidates.length) :
    ((fuzzyScorer.extractOne normalized (candidates.map Prod.fst)).map fun answer =>
      (answer.1, candidates.get (answer.2.cast hlength))) =
      (candidates.argmax fun candidate => tokenSetRatio normalized candidate.1).map fun candidate =>
        (tokenSetRatio normalized candidate.1, candidate) := by
  have hall : (List.finRange (candidates.map Prod.fst).length).map
      (fun index => candidates.get (index.cast hlength)) = candidates := by
    refine List.ext_get ?_ ?_
    · simp
    · simp
  have hmap := argmax_map (fun index : Fin (candidates.map Prod.fst).length =>
    candidates.get (index.cast hlength)) (fun candidate => tokenSetRatio normalized candidate.1)
    (List.finRange (candidates.map Prod.fst).length)
  rw [hall] at hmap
  have hname : ∀ index : Fin (candidates.map Prod.fst).length,
      (candidates.map Prod.fst).get index = (candidates.get (index.cast hlength)).1 := by
    intro index
    simp
  rw [hmap]
  unfold fuzzyScorer
  dsimp only
  simp only [hname, Option.map_map]
  rfl

theorem fuzzy_eq {header : String} (hne : normalizeHeader runtime header ≠ "")
    (taken : List String) :
    fuzzyScorer.fuzzy runtime header taken =
      match closestAlias (normalizeHeader runtime header) taken with
      | none => (none, 0)
      | some candidate => (some candidate.2,
          tokenSetRatio (normalizeHeader runtime header) candidate.1 / 100) := by
  have hextract := extractOne_candidates (normalizeHeader runtime header)
    (aliasCorpus.filter fun candidate => candidate.2 ∉ taken) (List.length_map ..)
  unfold Scorer.fuzzy
  dsimp only
  rw [if_neg hne]
  change _ = (closestAlias (normalizeHeader runtime header) taken).map _ at hextract
  cases hanswer : fuzzyScorer.extractOne (normalizeHeader runtime header)
      ((aliasCorpus.filter fun candidate => candidate.2 ∉ taken).map Prod.fst) with
  | none =>
      rw [hanswer, Option.map_none] at hextract
      rw [Option.map_eq_none_iff.mp hextract.symm]
  | some answer =>
      rw [hanswer, Option.map_some] at hextract
      obtain ⟨candidate, hclosest, hpair⟩ := Option.map_eq_some_iff.mp hextract.symm
      obtain ⟨hscore, hcandidate⟩ := Prod.mk.inj hpair
      rw [hclosest]
      dsimp only
      rw [hscore, hcandidate]

/-- The least similarity, between 0 and 1, that the matcher accepts alone. -/
def leastSimilarity : ℚ := 18 / 23

/-- The matcher offers a field when its closest free alias is similar enough. -/
theorem tryMatch_eq_some {header : String} (hne : normalizeHeader runtime header ≠ "")
    {taken : List String} {field : String} :
    (fuzzyScorer.tryMatch runtime header taken).canonicalField = some field ↔
      ∃ name, closestAlias (normalizeHeader runtime header) taken = some (name, field) ∧
        leastSimilarity ≤ tokenSetRatio (normalizeHeader runtime header) name / 100 := by
  have hsemantic : fuzzyScorer.semantic header taken = (none, 0) := rfl
  unfold Scorer.tryMatch
  rw [fuzzy_eq hne, hsemantic]
  cases closestAlias (normalizeHeader runtime header) taken with
  | none => simp [Scorer.decline]
  | some candidate =>
      obtain ⟨name, other⟩ := candidate
      dsimp only
      generalize hsimilarity : tokenSetRatio (normalizeHeader runtime header) name / 100 =
        similarity
      have haccept : min (similarity * (92 / 100)) maxConfidence < minAccept ↔
          similarity < leastSimilarity := by
        unfold maxConfidence minAccept leastSimilarity
        rw [min_lt_iff]
        constructor
        · rintro (hlow | hcap)
          · linarith
          · norm_num at hcap
        · intro hlow
          exact .inl (by linarith)
      by_cases hlow : similarity < leastSimilarity
      · rw [if_pos (haccept.mpr hlow)]
        constructor
        · intro hfield
          cases hfield
        · rintro ⟨_, hpair, hle⟩
          cases hpair
          rw [hsimilarity] at hle
          exact absurd hle (not_le.mpr hlow)
      · rw [if_neg (haccept.not.mpr hlow)]
        constructor
        · intro hfield
          cases hfield
          exact ⟨name, rfl, hsimilarity ▸ not_lt.mp hlow⟩
        · rintro ⟨_, hpair, _⟩
          cases hpair
          rfl

/-! ## What Tier 2 makes of one column -/

/-- The fields that are claimed when a pass over the unresolved columns reaches a
column. -/
def claimedAt (change : List String → Mapping → Mapping) (header : String) :
    List Mapping → List Mapping → List String
  | settled, [] => claimed settled
  | settled, m :: rest =>
      if m.sourceField = header then claimed (settled ++ m :: rest)
      else
        let m := if m.canonicalField = none then change (claimed (settled ++ m :: rest)) m else m
        claimedAt change header (settled ++ [m]) rest

/-- Columns that are resolved are passed over. -/
theorem claimedAt_of_resolved {change : List String → Mapping → Mapping} {header : String}
    {settled mappings : List Mapping}
    (h : ∀ m ∈ mappings, m.sourceField ≠ header → m.canonicalField ≠ none) :
    claimedAt change header settled mappings = claimed (settled ++ mappings) := by
  induction mappings generalizing settled with
  | nil => rw [claimedAt, List.append_nil]
  | cons m rest ih =>
      rw [claimedAt]
      split
      next => rfl
      next hother =>
          have hresolved := h m List.mem_cons_self hother
          dsimp only
          rw [if_neg hresolved, ih fun later hlater => h later (List.mem_cons_of_mem m hlater),
            List.append_assoc, List.singleton_append]

theorem mem_claimed {mappings : List Mapping} {field : String} :
    field ∈ claimed mappings ↔ field ≠ "" ∧ ∃ m ∈ mappings, m.canonicalField = some field := by
  unfold claimed
  rw [List.mem_filterMap]
  constructor
  · rintro ⟨m, hm, hfield⟩
    obtain ⟨hsome, hne⟩ := truthy_eq_some.mp hfield
    exact ⟨hne, m, hm, hsome⟩
  · rintro ⟨hne, m, hm, hsome⟩
    exact ⟨m, hm, truthy_eq_some.mpr ⟨hsome, hne⟩⟩

theorem mem_settleUnresolved {change : List String → Mapping → Mapping} {settled : List Mapping}
    {m : Mapping} (hm : m ∈ settled) (rest : List Mapping) :
    m ∈ settleUnresolved change settled rest := by
  induction rest generalizing settled with
  | nil => exact hm
  | cons _ rest ih => exact ih (List.mem_append_left _ hm)

/-- A column that is unresolved is changed with the fields that are claimed when
its turn comes. -/
theorem settleUnresolved_turn {change : List String → Mapping → Mapping}
    {settled mappings : List Mapping} {m : Mapping} (hm : m ∈ mappings)
    (hnodup : (mappings.map Mapping.sourceField).Nodup) (hnone : m.canonicalField = none) :
    change (claimedAt change m.sourceField settled mappings) m ∈
      settleUnresolved change settled mappings := by
  induction mappings generalizing settled with
  | nil => cases hm
  | cons first rest ih =>
      rw [List.map_cons, List.nodup_cons] at hnodup
      rw [settleUnresolved, claimedAt]
      rcases List.mem_cons.mp hm with rfl | hrest
      · rw [if_pos rfl, if_pos hnone]
        exact mem_settleUnresolved (List.mem_append_right _ List.mem_cons_self) rest
      · have hother : first.sourceField ≠ m.sourceField := by
          intro hsame
          exact hnodup.1 (hsame ▸ List.mem_map_of_mem hrest)
        rw [if_neg hother]
        exact ih hrest hnodup.2

/-- The resolver without overrides, cache, adjudicator and embedding model. -/
def plainResolver : TieredResolver := { scorer := fuzzyScorer }

variable {table : ParsedTable} {context : TableContext} {outcome : ResolutionOutcome}

theorem plainResolver_resolve (h : plainResolver.resolve runtime table context = .ok outcome) :
    ∃ tier1, mapTable runtime [] table = .ok tier1 ∧
      outcome.mappings = settleUnresolved (applyTier2 runtime fuzzyScorer) [] tier1 := by
  obtain ⟨tier1, htier1, h⟩ := Fallible.bind_eq_ok.mp h
  obtain rfl := Except.ok.inj h
  have hcached : plainResolver.cached context = none := by
    unfold TieredResolver.cached
    split <;> rfl
  have hremembered : plainResolver.remembered context tier1 = tier1 := by
    unfold TieredResolver.remembered
    rw [hcached]
  exact ⟨tier1, htier1, congrArg (plainResolver.runTier2 runtime) hremembered⟩

theorem exists_resolve_eq_ok {tier1 : List Mapping} (h : mapTable runtime [] table = .ok tier1)
    (context : TableContext) : ∃ outcome, plainResolver.resolve runtime table context = .ok outcome := by
  refine ⟨_, Fallible.bind_eq_ok.mpr ⟨tier1, h, rfl⟩⟩

theorem fieldOf_of_mem {mappings : List Mapping} {m : Mapping}
    (hnodup : (mappings.map Mapping.sourceField).Nodup) (hm : m ∈ mappings) :
    fieldOf mappings m.sourceField = m.canonicalField := by
  refine Option.ext fun field => ?_
  rw [fieldOf_eq_some hnodup]
  constructor
  · rintro ⟨other, hother, hsource, hfield⟩
    rw [← List.inj_on_of_nodup_map hnodup hother hm hsource]
    exact hfield
  · exact fun hfield => ⟨m, hm, rfl, hfield⟩

/-- The words of a header keep Tier 1 from giving it the trade price. -/
theorem tier1_ne_trade {tier1 : List Mapping} {header : String}
    (h : mapTable runtime [] table = .ok tier1) (hwords : namesSettlement runtime header = true) :
    fieldOf tier1 header ≠ some "trade_price" := by
  intro hfield
  rcases (mapTable_field h header "trade_price").mp hfield with (⟨-, hoverride⟩ | hfound) | ⟨-, hwin⟩
  · cases hoverride
  · have hnamed : namedField runtime [] header = some "trade_price" := by
      simpa using List.find?_some hfound
    cases (namedField_price (by decide)).mp hnamed
  · have hcontends := (List.mem_filter.mp (priceWinner_top hwin).1).2
    unfold contends at hcontends
    split at hcontends
    · rw [namesPrice_trade, namesTrade_of_namesSettlement header hwords] at hcontends
      cases hcontends
    · rw [hwords] at hcontends
      cases hcontends

/-- When Tier 2 reaches a column that Tier 1 left without a field, the closest
alias of a free field is one of the trade price, and similar enough. -/
def DrawnToTrade (runtime : Runtime) (tier1 : List Mapping) (header : String) : Prop :=
  ∃ name, closestAlias (normalizeHeader runtime header)
      (claimedAt (applyTier2 runtime fuzzyScorer) header [] tier1) = some (name, "trade_price") ∧
    leastSimilarity ≤ tokenSetRatio (normalizeHeader runtime header) name / 100

theorem normalizeHeader_ne_empty {header : String} (h : namesSettlement runtime header = true) :
    normalizeHeader runtime header ≠ "" := by
  intro hempty
  unfold namesSettlement has at h
  rw [hempty] at h
  exact absurd h (by decide)

theorem plainResolver_trade_iff {tier1 : List Mapping} {header : String}
    (h : plainResolver.resolve runtime table context = .ok outcome)
    (htier1 : mapTable runtime [] table = .ok tier1) (hheader : header ∈ table.headers)
    (hwords : namesSettlement runtime header = true) :
    fieldOf outcome.mappings header = some "trade_price" ↔
      fieldOf tier1 header = none ∧ DrawnToTrade runtime tier1 header := by
  obtain ⟨tier1', htier1', houtcome⟩ := plainResolver_resolve h
  obtain rfl := Except.ok.inj (htier1.symm.trans htier1')
  have hsources := (mapTable_spec htier1).sources
  have hnodup : (tier1.map Mapping.sourceField).Nodup := hsources ▸ table.headers_nodup
  have hfair : Fair (applyTier2 runtime fuzzyScorer) := fair_applyTier2 fuzzyScorer
  have hstage := hfair.stage tier1
  have hnodupAfter : (outcome.mappings.map Mapping.sourceField).Nodup := by
    rw [houtcome, Keeps.sources hstage.keeps]
    exact hnodup
  obtain ⟨m, hm, rfl⟩ := List.mem_map.mp (hsources ▸ hheader)
  rw [fieldOf_of_mem hnodup hm]
  cases hfield : m.canonicalField with
  | some field =>
      have hkept : m ∈ outcome.mappings := by
        rw [houtcome]
        exact Keeps.mem_of_resolved hstage.keeps hm (by rw [hfield]; nofun)
      have hother := tier1_ne_trade htier1 hwords
      rw [fieldOf_of_mem hnodup hm, hfield] at hother
      rw [fieldOf_of_mem hnodupAfter hkept, hfield]
      exact ⟨fun hsame => absurd hsame hother, nofun⟩
  | none =>
      have hturn : applyTier2 runtime fuzzyScorer
          (claimedAt (applyTier2 runtime fuzzyScorer) m.sourceField [] tier1) m ∈
            settleUnresolved (applyTier2 runtime fuzzyScorer) [] tier1 :=
        settleUnresolved_turn hm hnodup hfield
      rw [← houtcome] at hturn
      have hsource := hfair.source
        (claimedAt (applyTier2 runtime fuzzyScorer) m.sourceField [] tier1) m
      have hafter := fieldOf_of_mem hnodupAfter hturn
      rw [hsource] at hafter
      rw [hafter, DrawnToTrade, ← tryMatch_eq_some (normalizeHeader_ne_empty hwords)]
      unfold applyTier2
      dsimp only
      split
      next hnone => simp [hnone, hfield]
      next field hsome => simp [hsome]

/-! ## A table that leaves nothing but the trade price -/

/-- On ASCII text the tables of the language are those of ASCII. -/
structure ReadsAscii (runtime : Runtime) : Prop where
  lower : ∀ text : List Char, (∀ c ∈ text, c.toNat < 128) →
    runtime.lower text = text.map Char.toLower
  isalnum : ∀ c : Char, c.toNat < 128 → runtime.isalnum c = c.isAlphanum

theorem toLower_lt {c : Char} (h : c.toNat < 128) : c.toLower.toNat < 128 := by
  have hall : ∀ code < 128, (Char.ofNat code).toLower.toNat < 128 := by decide
  rw [← Char.ofNat_toNat c]
  exact hall c.toNat h

theorem ReadsAscii.normalizeHeader_eq (hascii : ReadsAscii runtime) {text : String}
    (h : ∀ c ∈ text.toList, c.toNat < 128) :
    normalizeHeader runtime text = normalizeHeader .ascii text := by
  unfold normalizeHeader
  rw [hascii.lower _ h]
  refine congrArg String.ofList (List.filter_congr fun c hc => ?_)
  obtain ⟨c, hmem, rfl⟩ := List.mem_map.mp hc
  exact hascii.isalnum _ (toLower_lt (h c hmem))

theorem ReadsAscii.aliasOf_eq (hascii : ReadsAscii runtime) (form : String) :
    aliasOf runtime form = aliasOf .ascii form := by
  have hfields : ∀ entry ∈ fieldAliases, ∀ c ∈ entry.1.toList, c.toNat < 128 := by
    have hall : ∀ entry ∈ fieldAliases,
        entry.1.toList.all (fun c => decide (c.toNat < 128)) = true := by decide
    exact fun entry hentry c hc => of_decide_eq_true (List.all_eq_true.mp (hall entry hentry) c hc)
  have hsame : (fieldAliases.filter fun entry => form = entry.1 ||
      form = normalizeHeader runtime entry.1 || entry.2.contains form) =
      fieldAliases.filter fun entry => form = entry.1 ||
        form = normalizeHeader .ascii entry.1 || entry.2.contains form :=
    List.filter_congr fun entry hentry => by
      rw [hascii.normalizeHeader_eq (hfields entry hentry)]
  unfold aliasOf
  rw [← List.head?_filter, ← List.head?_filter, hsame]

theorem ReadsAscii.aliasLookup_eq (hascii : ReadsAscii runtime) {header : String}
    (h : ∀ c ∈ header.toList, c.toNat < 128) :
    aliasLookup runtime header = aliasLookup .ascii header := by
  unfold aliasLookup
  rw [hascii.normalizeHeader_eq h]
  simp only [hascii.aliasOf_eq]

/-- The fields that an alias names, without the trade price. -/
def otherFields : List String :=
  (fieldAliases.map Prod.fst).filter fun field => field ≠ "trade_price"

/-- A header that is given the field; of the settlement prices, the official one. -/
def fillerFor (mark field : String) : String :=
  (if field = "settlement_price" then "official_settlement_price" else field) ++ mark

def fillers (mark : String) : List String := otherFields.map (fillerFor mark)

/-- Two ways of writing the fillers, so that a header is not among those of one. -/
def marks : List String := ["", "_"]

theorem exists_mark (header : String) : ∃ mark ∈ marks, header ∉ fillers mark := by
  have hapart : ∀ filler ∈ fillers "", filler ∉ fillers "_" := by decide
  by_cases hplain : header ∈ fillers ""
  · exact ⟨"_", by simp [marks], hapart header hplain⟩
  · exact ⟨"", by simp [marks], hplain⟩

/-- A table without rows, in which the header comes after all fillers. -/
def crowdedTable (mark header : String) (hnodup : (fillers mark ++ [header]).Nodup) :
    ParsedTable where
  headers := fillers mark ++ [header]
  rows := []
  headers_nodup := hnodup

theorem fillers_nodup : ∀ mark ∈ marks, (fillers mark).Nodup := by decide

theorem crowded_nodup {mark header : String} (hheader : header ∉ fillers mark)
    (hmark : mark ∈ marks) : (fillers mark ++ [header]).Nodup :=
  List.nodup_append'.mpr ⟨fillers_nodup mark hmark, List.nodup_singleton header,
    List.disjoint_singleton.mpr hheader⟩

theorem fillers_ascii : ∀ mark ∈ marks, ∀ filler ∈ fillers mark, ∀ c ∈ filler.toList,
    c.toNat < 128 := by
  have hall : ∀ mark ∈ marks, ∀ filler ∈ fillers mark,
      filler.toList.all (fun c => decide (c.toNat < 128)) = true := by decide
  exact fun mark hmark filler hfiller c hc =>
    of_decide_eq_true (List.all_eq_true.mp (hall mark hmark filler hfiller) c hc)

/-- A filler has the field it stands for. -/
theorem aliasLookup_filler : ∀ mark ∈ marks, ∀ field ∈ otherFields,
    aliasLookup .ascii (fillerFor mark field) = some field := by decide +kernel

theorem settlementPreference_le (header : String) : settlementPreference runtime header ≤ 9 / 5 := by
  unfold settlementPreference
  dsimp only
  split_ifs <;> norm_num

/-- Without rows every column can be read. -/
theorem readable_of_rows_eq_nil (hrows : table.rows = []) (header : String) :
    Readable runtime [] table header := by
  intro _ _
  have hcolumn : table.column header = [] := by
    unfold ParsedTable.column
    rw [hrows, List.map_nil]
  unfold looksLikePriceColumn
  rw [hcolumn]
  split
  next => exact ⟨false, rfl⟩
  next => exact ⟨_, rfl⟩

section Crowded

variable {mark header : String} (hascii : ReadsAscii runtime) (hmark : mark ∈ marks)
variable (hheader : header ∉ fillers mark)

include hascii hmark

theorem aliasLookup_fillerFor {field : String} (hfield : field ∈ otherFields) :
    aliasLookup runtime (fillerFor mark field) = some field := by
  rw [hascii.aliasLookup_eq (fillers_ascii mark hmark _ (List.mem_map_of_mem hfield)),
    aliasLookup_filler mark hmark field hfield]

/-- The first header that is named a field is its filler. -/
theorem find?_crowded {field : String} (hfield : field ∈ otherFields)
    (hprice : field ∉ priceFields) (rest : List String) :
    (fillers mark ++ rest).find? (fun h => namedField runtime [] h = some field) =
      some (fillerFor mark field) := by
  have hnamed : ∀ other ∈ otherFields,
      namedField runtime [] (fillerFor mark other) = some field ↔ other = field := by
    intro other hother
    change ((aliasLookup runtime _).filter fun hit => hit ∉ priceFields) = _ ↔ _
    rw [aliasLookup_fillerFor hascii hmark hother, Option.filter_eq_some_iff, Option.some_inj]
    exact and_iff_left_of_imp fun hsame => decide_eq_true (hsame ▸ hprice)
  have hfound : (fillers mark).find? (fun h => namedField runtime [] h = some field) =
      some (fillerFor mark field) := by
    unfold fillers
    rw [List.find?_map, ← List.head?_filter]
    have honly : otherFields.filter ((fun h => decide (namedField runtime [] h = some field)) ∘
        fillerFor mark) = otherFields.filter fun other => other = field :=
      List.filter_congr fun other hother => decide_eq_decide.mpr (hnamed other hother)
    have hfirst : otherFields.find? (fun other => decide (other = field)) = some field := by
      obtain ⟨other, hother⟩ := Option.isSome_iff_exists.mp
        (List.find?_isSome.mpr ⟨field, hfield, decide_eq_true rfl⟩ :
          (otherFields.find? fun other => decide (other = field)).isSome)
      have hsame : other = field := by simpa using List.find?_some hother
      rw [hother, hsame]
    rw [honly, List.head?_filter, hfirst]
    rfl
  rw [List.find?_append, hfound]
  rfl

/-- The official settlement price stands before every other price column. -/
theorem deferred_crowded (hnodup : (fillers mark ++ [header]).Nodup) :
    ∃ rest, deferredHeaders runtime [] (crowdedTable mark header hnodup) =
      fillerFor mark "settlement_price" :: rest ∧ ∀ other ∈ rest, other = header := by
  have hfillers : (fillers mark).filter (isDeferred runtime [] (crowdedTable mark header hnodup)) =
      [fillerFor mark "settlement_price"] := by
    have honly : otherFields.filter (isDeferred runtime [] (crowdedTable mark header hnodup) ∘
        fillerFor mark) = otherFields.filter fun field => field ∈ priceFields := by
      refine List.filter_congr fun field hfield => ?_
      have hoverride : overrideFor runtime [] (fillerFor mark field) = none := rfl
      unfold Function.comp isDeferred
      rw [hoverride, aliasLookup_fillerFor hascii hmark hfield]
      rfl
    unfold fillers
    rw [List.filter_map, honly]
    rfl
  unfold deferredHeaders
  change ∃ rest, (fillers mark ++ [header]).filter _ = _ ∧ _
  rw [List.filter_append, hfillers]
  refine ⟨_, rfl, fun other hother => List.mem_singleton.mp (List.mem_filter.mp hother).1⟩

theorem settlement_filler :
    namesSettlement runtime (fillerFor mark "settlement_price") = true ∧
      settlementPreference runtime (fillerFor mark "settlement_price") = 9 / 5 := by
  have hmem : fillerFor mark "settlement_price" ∈ fillers mark :=
    List.mem_map_of_mem (by decide)
  have hform := hascii.normalizeHeader_eq (fillers_ascii mark hmark _ hmem)
  have hchecked : ∀ mark ∈ marks,
      namesSettlement .ascii (fillerFor mark "settlement_price") = true ∧
        settlementPreference .ascii (fillerFor mark "settlement_price") = 9 / 5 := by
    decide +kernel
  unfold namesSettlement has settlementPreference at hchecked ⊢
  rw [hform]
  exact hchecked mark hmark

/-- Every field but the trade price is given to a filler, and the header to none. -/
theorem tier1_crowded (hheader : header ∉ fillers mark)
    (hwords : namesSettlement runtime header = true) (hnodup : (fillers mark ++ [header]).Nodup)
    {tier1 : List Mapping}
    (h : mapTable runtime [] (crowdedTable mark header hnodup) = .ok tier1) :
    (∀ field ∈ otherFields, fieldOf tier1 (fillerFor mark field) = some field) ∧
      fieldOf tier1 header = none := by
  obtain ⟨rest, hdeferred, hrest⟩ := deferred_crowded hascii hmark hnodup
  obtain ⟨hofficial, hpreference⟩ := settlement_filler hascii hmark
  have hany : (deferredHeaders runtime [] (crowdedTable mark header hnodup)).any
      (namesPrice runtime "settlement_price") = true := by
    rw [hdeferred, List.any_cons, namesPrice_settlement, hofficial, Bool.true_or]
  have hwinner : priceWinner runtime [] (crowdedTable mark header hnodup) "settlement_price" =
      some (fillerFor mark "settlement_price") := by
    refine priceWinner_of_top ⟨List.mem_filter.mpr ⟨?_, ?_⟩, ?_⟩ hdeferred
    · rw [hdeferred]
      exact List.mem_cons_self
    · unfold contends
      rw [if_pos hany]
      exact hofficial
    · intro other _
      unfold standing
      rw [if_pos hany, if_pos hany, pricePreference_settlement, hpreference]
      exact settlementPreference_le other
  have hfillers : ∀ field ∈ otherFields, fieldOf tier1 (fillerFor mark field) = some field := by
    intro field hfield
    rw [mapTable_field h]
    by_cases hprice : field ∈ priceFields
    · have hsettlement : field = "settlement_price" := by
        have hne : field ≠ "trade_price" := by
          simpa using (List.mem_filter.mp hfield).2
        rcases List.mem_cons.mp hprice with htrade | hsettlement
        · exact absurd htrade hne
        · exact List.mem_singleton.mp hsettlement
      subst hsettlement
      exact .inr ⟨hprice, hwinner⟩
    · exact .inl (.inr (find?_crowded hascii hmark hfield hprice [header]))
  refine ⟨hfillers, Option.eq_none_iff_forall_ne_some.mpr fun field hfield => ?_⟩
  rcases (mapTable_field h header field).mp hfield with (⟨-, hoverride⟩ | hfound) | ⟨hprice, hwin⟩
  · cases hoverride
  · -- a filler of the same name comes first
    have hnamed : namedField runtime [] header = some field := by
      simpa using List.find?_some hfound
    obtain ⟨hhit, hkept⟩ : aliasLookup runtime header = some field ∧ _ :=
      Option.filter_eq_some_iff.mp hnamed
    have hprice : field ∉ priceFields := of_decide_eq_true hkept
    have hmappable : ∀ field ∈ mappableFields, field ∉ priceFields → field ∈ otherFields := by
      decide
    have hother := hmappable field (mappable_of_aliasLookup runtime hhit) hprice
    have hfirst := find?_crowded hascii hmark hother hprice [header]
    have hsame : header = fillerFor mark field := Option.some.inj (hfound.symm.trans hfirst)
    exact hheader (hsame ▸ List.mem_map_of_mem hother)
  · rcases List.mem_cons.mp hprice with rfl | hsettlement
    · exact tier1_ne_trade h hwords hfield
    · rw [List.mem_singleton.mp hsettlement, hwinner] at hwin
      exact hheader (Option.some.inj hwin ▸ List.mem_map_of_mem (by decide))

/-- When Tier 2 reaches the header, every field is claimed but the trade price. -/
theorem claimedAt_crowded (hheader : header ∉ fillers mark)
    (hwords : namesSettlement runtime header = true) (hnodup : (fillers mark ++ [header]).Nodup)
    {tier1 : List Mapping}
    (h : mapTable runtime [] (crowdedTable mark header hnodup) = .ok tier1)
    (change : List String → Mapping → Mapping) {field : String}
    (hfield : field ∈ fieldAliases.map Prod.fst) :
    field ∈ claimedAt change header [] tier1 ↔ field ≠ "trade_price" := by
  obtain ⟨hfillers, hnone⟩ := tier1_crowded hascii hmark hheader hwords hnodup h
  have hsources := (mapTable_spec h).sources
  have hunique : (tier1.map Mapping.sourceField).Nodup := hsources ▸ hnodup
  have hsettled : ∀ m ∈ tier1, m.sourceField ≠ header → ∃ other ∈ otherFields,
      m.canonicalField = some other := by
    intro m hm hother
    have hsource : m.sourceField ∈ (crowdedTable mark header hnodup).headers :=
      hsources ▸ List.mem_map_of_mem hm
    rcases List.mem_append.mp hsource with hfiller | hlast
    · obtain ⟨other, hmem, hsame⟩ := List.mem_map.mp hfiller
      exact ⟨other, hmem, by rw [← fieldOf_of_mem hunique hm, ← hsame, hfillers other hmem]⟩
    · exact absurd (List.mem_singleton.mp hlast) hother
  have hresolved : ∀ m ∈ tier1, m.sourceField ≠ header → m.canonicalField ≠ none := by
    intro m hm hother hunresolved
    obtain ⟨_, -, hsome⟩ := hsettled m hm hother
    rw [hunresolved] at hsome
    cases hsome
  have hnamed : ∀ other ∈ otherFields, other ≠ "" := by decide
  rw [claimedAt_of_resolved hresolved, List.nil_append, mem_claimed]
  constructor
  · rintro ⟨-, m, hm, hsome⟩ rfl
    by_cases hlast : m.sourceField = header
    · rw [← fieldOf_of_mem hunique hm, hlast, hnone] at hsome
      cases hsome
    · obtain ⟨other, hother, hsame⟩ := hsettled m hm hlast
      obtain rfl := Option.some.inj (hsame.symm.trans hsome)
      exact absurd hother (by decide)
  · intro hne
    have hother : field ∈ otherFields := List.mem_filter.mpr ⟨hfield, decide_eq_true hne⟩
    obtain ⟨m, hm, -, hsome⟩ := (fieldOf_eq_some hunique).mp (hfillers field hother)
    exact ⟨hnamed field hother, m, hm, hsome⟩

/-- A header that is near some alias of the trade price is drawn to it. -/
theorem drawnToTrade_crowded (hheader : header ∉ fillers mark)
    (hwords : namesSettlement runtime header = true) (hnodup : (fillers mark ++ [header]).Nodup)
    {tier1 : List Mapping}
    (h : mapTable runtime [] (crowdedTable mark header hnodup) = .ok tier1)
    {name : String} (hname : (name, "trade_price") ∈ aliasCorpus)
    (hnear : leastSimilarity ≤ tokenSetRatio (normalizeHeader runtime header) name / 100) :
    DrawnToTrade runtime tier1 header := by
  have hfields : ∀ candidate ∈ aliasCorpus, candidate.2 ∈ fieldAliases.map Prod.fst := by
    decide +kernel
  have hfree : ∀ candidate ∈ aliasCorpus,
      candidate.2 ∉ claimedAt (applyTier2 runtime fuzzyScorer) header [] tier1 ↔
        candidate.2 = "trade_price" := by
    intro candidate hcandidate
    rw [claimedAt_crowded hascii hmark hheader hwords hnodup h _ (hfields candidate hcandidate),
      not_not]
  have hmem : (name, "trade_price") ∈ aliasCorpus.filter fun candidate => candidate.2 ∉
      claimedAt (applyTier2 runtime fuzzyScorer) header [] tier1 :=
    List.mem_filter.mpr ⟨hname, decide_eq_true ((hfree _ hname).mpr rfl)⟩
  cases hclosest : closestAlias (normalizeHeader runtime header)
      (claimedAt (applyTier2 runtime fuzzyScorer) header [] tier1) with
  | none =>
      rw [List.argmax_eq_none.mp hclosest] at hmem
      cases hmem
  | some closest =>
      have htop := top_of_argmax hclosest
      obtain ⟨hcandidate, hnottaken⟩ := List.mem_filter.mp htop.1
      have hfield := (hfree closest hcandidate).mp (of_decide_eq_true hnottaken)
      have hle := htop.2 _ hmem
      refine ⟨closest.1, by rw [← hfield, hclosest], hnear.trans ?_⟩
      exact div_le_div_of_nonneg_right hle (by norm_num)

end Crowded

/-! ## When a settlement price is safe -/

/-- In a crowded table a header near an alias of the trade price becomes the trade
price. -/
theorem crowded_trade {mark header name : String} (hascii : ReadsAscii runtime)
    (hmark : mark ∈ marks) (hheader : header ∉ fillers mark)
    (hwords : namesSettlement runtime header = true) (hname : (name, "trade_price") ∈ aliasCorpus)
    (hnear : leastSimilarity ≤ tokenSetRatio (normalizeHeader runtime header) name / 100)
    (context : TableContext) :
    ∃ outcome, plainResolver.resolve runtime
        (crowdedTable mark header (crowded_nodup hheader hmark)) context = .ok outcome ∧
      fieldOf outcome.mappings header = some "trade_price" := by
  have hnodup := crowded_nodup hheader hmark
  have hread : ∃ tier1, mapTable runtime [] (crowdedTable mark header hnodup) = .ok tier1 :=
    exists_mapTable_eq_ok.mpr fun other _ => readable_of_rows_eq_nil rfl other
  obtain ⟨tier1, htier1⟩ := hread
  obtain ⟨outcome, houtcome⟩ := exists_resolve_eq_ok htier1 context
  have hmem : header ∈ (crowdedTable mark header hnodup).headers :=
    List.mem_append_right _ List.mem_cons_self
  have hnone := (tier1_crowded hascii hmark hheader hwords hnodup htier1).2
  have hdrawn := drawnToTrade_crowded hascii hmark hheader hwords hnodup htier1 hname hnear
  exact ⟨outcome, houtcome, (plainResolver_trade_iff houtcome htier1 hmem hwords).mpr
    ⟨hnone, hdrawn⟩⟩

/-- A settlement price becomes the trade price exactly when Tier 1 leaves it
without a field and Tier 2 then draws it to the trade price. No table does this
to a header exactly when the header is far from every alias of the trade price. -/
theorem surplus_settlement_price (runtime : Runtime) (hascii : ReadsAscii runtime)
    (header : String) (hwords : namesSettlement runtime header = true) :
    (∀ (table : ParsedTable) (context : TableContext) (outcome : ResolutionOutcome)
      (tier1 : List Mapping), header ∈ table.headers →
      plainResolver.resolve runtime table context = .ok outcome →
      mapTable runtime [] table = .ok tier1 →
      (fieldOf outcome.mappings header ≠ some "trade_price" ↔
        ¬(fieldOf tier1 header = none ∧ DrawnToTrade runtime tier1 header))) ∧
    ((∀ (table : ParsedTable) (context : TableContext) (outcome : ResolutionOutcome),
      header ∈ table.headers → plainResolver.resolve runtime table context = .ok outcome →
      fieldOf outcome.mappings header ≠ some "trade_price") ↔
      ∀ name, (name, "trade_price") ∈ aliasCorpus →
        tokenSetRatio (normalizeHeader runtime header) name / 100 < leastSimilarity) := by
  refine ⟨fun table context outcome tier1 hheader h htier1 =>
    (plainResolver_trade_iff h htier1 hheader hwords).not, ?_, ?_⟩
  · intro hsafe name hname
    by_contra hnear
    obtain ⟨mark, hmark, hheader⟩ := exists_mark header
    obtain ⟨outcome, houtcome, htrade⟩ := crowded_trade hascii hmark hheader hwords hname
      (not_lt.mp hnear) { clientId := "" }
    exact hsafe _ _ outcome (List.mem_append_right _ List.mem_cons_self) houtcome htrade
  · intro hfar table context outcome hheader h htrade
    obtain ⟨tier1, htier1, -⟩ := plainResolver_resolve h
    obtain ⟨-, name, hclosest, hnear⟩ :=
      (plainResolver_trade_iff h htier1 hheader hwords).mp htrade
    have hname := (List.mem_filter.mp (List.argmax_mem hclosest)).1
    exact absurd hnear (not_le.mpr (hfar name hname))

theorem readsAscii_ascii : ReadsAscii .ascii where
  lower _ _ := rfl
  isalnum _ _ := rfl

theorem closePrice_near :
    leastSimilarity ≤ tokenSetRatio (normalizeHeader .ascii "Close Price") "cleanprice" / 100 := by
  decide +kernel

/-- Every field but the trade price has a column under its own name, and the
settlement price is the official one. A column with the closing price is left. -/
theorem closePrice_becomes_tradePrice :
    ∃ hnodup : (fillers "" ++ ["Close Price"]).Nodup, ∃ outcome,
      namesSettlement .ascii "Close Price" = true ∧
      plainResolver.resolve .ascii (crowdedTable "" "Close Price" hnodup)
        { clientId := "CLNT001" } = .ok outcome ∧
      fieldOf outcome.mappings "Close Price" = some "trade_price" := by
  have hwords : namesSettlement .ascii "Close Price" = true := by decide
  obtain ⟨outcome, houtcome, htrade⟩ := crowded_trade readsAscii_ascii
    (by decide : "" ∈ marks) (by decide : "Close Price" ∉ fillers "") hwords
    (by decide : ("cleanprice", "trade_price") ∈ aliasCorpus) closePrice_near
    { clientId := "CLNT001" }
  exact ⟨_, outcome, hwords, houtcome, htrade⟩

/-- Two settlement prices. -/
def closingTable : ParsedTable where
  headers := ["Settlement Price", "EOD"]
  rows := [.ofPairs [("Settlement Price", "5399.50"), ("EOD", "5398.00")]]
  headers_nodup := by decide

theorem eod_far : ∀ candidate ∈ aliasCorpus, candidate.2 = "trade_price" →
    tokenSetRatio (normalizeHeader .ascii "EOD") candidate.1 / 100 < leastSimilarity := by
  decide +kernel

/-- A column for the end of the day is safe in every table. -/
theorem surplus_settlement_price_eod :
    ∃ outcome, plainResolver.resolve .ascii closingTable { clientId := "CLNT001" } = .ok outcome ∧
      fieldOf outcome.mappings "EOD" ≠ some "trade_price" := by
  obtain ⟨tier1, htier1⟩ : ∃ tier1, mapTable .ascii [] closingTable = .ok tier1 := by
    cases h : mapTable .ascii [] closingTable with
    | ok tier1 => exact ⟨tier1, rfl⟩
    | error e =>
        have hok : (mapTable .ascii [] closingTable).isOk = true := by decide +kernel
        rw [h] at hok
        cases hok
  obtain ⟨outcome, h⟩ := exists_resolve_eq_ok htier1 { clientId := "CLNT001" }
  have hwords : namesSettlement .ascii "EOD" = true := by decide
  have hfar : ∀ name, (name, "trade_price") ∈ aliasCorpus →
      tokenSetRatio (normalizeHeader .ascii "EOD") name / 100 < leastSimilarity :=
    fun name hname => eod_far (name, "trade_price") hname rfl
  have hsafe := (surplus_settlement_price .ascii readsAscii_ascii "EOD" hwords).2.mpr hfar
  have hheader : "EOD" ∈ closingTable.headers := List.mem_cons_of_mem _ List.mem_cons_self
  exact ⟨outcome, h, hsafe closingTable _ outcome hheader h⟩

end Harbormaster.Inspector
