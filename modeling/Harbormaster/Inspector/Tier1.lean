import Harbormaster.Inspector.Canonical
import Harbormaster.Inspector.Decimal
import Harbormaster.Inspector.Table
import Mathlib.Data.List.Dedup
import Mathlib.Data.List.Sort

/-! # Tier 1: dictionary and structure

The deterministic pass of the mapping: client overrides, the alias dictionary,
and the assignment of the two price fields, first by the words of the headers
and then by how the columns vary within an instrument.
-/

namespace Harbormaster.Inspector

open Matching Matcher Ordered Rounding

variable (runtime : Runtime)

/-- One source column, with the evidence that resolved it. -/
structure Mapping where
  sourceField : String
  canonicalField : Option String
  tier : Tier
  confidence : ℚ
  evidence : String
deriving DecidableEq

/-- A column left to the later tiers. -/
def Mapping.undecided (sourceField evidence : String) : Mapping :=
  ⟨sourceField, none, .tierUnresolved, 0, evidence⟩

/-! ## Price columns -/

def settlementTokens : List String :=
  ["settle", "sett", "close", "closing", "mtm", "marktomarket", "official", "eod", "dcc",
    "valuation", "mark"]

def tradeTokens : List String :=
  ["exec", "fill", "deal", "traded", "tradeprice", "last", "avg", "average"]

/-- The header contains one of the tokens. -/
def has (header : String) (tokens : List String) : Bool :=
  tokens.any fun token => within token (normalizeHeader runtime header)

/-- A letter of a pattern that ignores case; two letters outside ASCII fold onto
the letter i. -/
def foldsTo (letter c : Char) : Bool :=
  c.toLower = letter || (letter = 'i' && [0x130, 0x131].contains c.toNat)

def priceHint : Matcher Unit :=
  oneOf (["price", "px", "rate", "quote"].map fun name =>
    name.toList.foldr (fun letter next => do
      let _ ← satisfy (foldsTo letter)
      next) (pure ()))

/-- A column is price-like if its name suggests it and its values are numeric. -/
def looksLikePriceColumn (header : String) (values : List String) : Except Signal Bool := do
  if (priceHint.search header.toList).isNone then return false
  let parsed ← ((values.take 200).filter fun v => strip v ≠ "").mapM (toDecimal runtime)
  let usable := parsed.filter Option.isSome
  return usable ≠ [] && max 1 (parsed.length * 4 / 5) ≤ usable.length

/-- The share of distinct values among those that are not blank. -/
def overallVariation (cleaned : List String) : ℚ :=
  let nonEmpty := cleaned.filter fun v => v ≠ ""
  if nonEmpty = [] then 0 else nonEmpty.dedup.length / nonEmpty.length

/-- How much a column varies within groups sharing the same instrument. -/
def variationRatio (values : List String) (groupBy : Option (List String)) : ℚ :=
  let cleaned := values.map strip
  match groupBy with
  | none => overallVariation cleaned
  | some keys =>
      if keys = [] ∨ keys.length ≠ cleaned.length then overallVariation cleaned
      else
        let pairs := (keys.zip cleaned).filter fun pair => pair.2 ≠ ""
        let valuesOf := fun key => (pairs.filter fun pair => pair.1 = key).map Prod.snd
        -- only groups with more than one row carry information about variation
        let informative := (pairs.map Prod.fst).dedup.filter fun key => 1 < (valuesOf key).length
        if informative = [] then overallVariation cleaned
        else
          let varying := informative.filter fun key => 1 < (valuesOf key).dedup.length
          varying.length / informative.length

/-- Rank competing settlement-price columns. -/
def settlementPreference (header : String) : ℚ :=
  let n := normalizeHeader runtime header
  1 + (if within "official" n then 5 / 10 else 0) +
    (if within "settlement" n || within "settle" n then 3 / 10 else 0) -
    (if ["prior", "previous", "yesterday", "prev", "open"].any fun q => within q n then 8 / 10
      else 0)

/-- Rank competing trade-price columns. -/
def tradePreference (header : String) : ℚ :=
  let n := normalizeHeader runtime header
  1 + (if ["exec", "fill", "traded", "tradeprice"].any fun q => within q n then 5 / 10 else 0) -
    (if within "avg" n || within "average" n then 2 / 10 else 0)

/-- Structural evidence is good but not certain. -/
def priceConf (strength : ℚ) : ℚ := roundTo 3 (min (55 / 100 + 35 / 100 * strength) (90 / 100))

/-- The headers by falling score; equal scores keep their order. -/
def ranked (scored : List (String × ℚ)) : List (String × ℚ) :=
  scored.insertionSort fun a b => b.2 ≤ a.2

/-- The first pass for one price field: the best candidate gets it. -/
def assignNamed (field fieldWords reason : String) (candidates : List (String × ℚ)) :
    List Mapping :=
  match ranked candidates with
  | [] => []
  | (best, _) :: surplus =>
      ⟨best, some field, .tierAlias, 98 / 100, reason⟩ ::
        surplus.map fun (header, _) => .undecided header
          ("also names a " ++ fieldWords ++ "; " ++ quoted runtime best ++
            " is the stronger match for this file")

/-- The second pass: the columns the words left open, by falling variation. -/
def assignStructural (basis : String) : List String → List (String × ℚ) → List Mapping
  | _, [] => []
  | taken, (header, ratio) :: rest =>
      let note := basis ++ " (ratio " ++ fixed 2 ratio ++ ")"
      if "trade_price" ∉ taken ∧ 1 / 2 ≤ ratio then
        ⟨header, some "trade_price", .tierLocal, priceConf ratio, "varies per row " ++ note⟩ ::
          assignStructural basis ("trade_price" :: taken) rest
      else if "settlement_price" ∉ taken ∧ ratio < 1 / 2 then
        ⟨header, some "settlement_price", .tierLocal, priceConf (1 - ratio), "constant " ++ note⟩ ::
          assignStructural basis ("settlement_price" :: taken) rest
      else
        .undecided header ("additional price column, roles already assigned (ratio " ++
          fixed 2 ratio ++ ")") :: assignStructural basis taken rest

/-- The words of a header name a settlement price and no trade price. -/
def namesSettlement (header : String) : Bool :=
  has runtime header settlementTokens && !has runtime header tradeTokens

/-- The words of a header name a trade price and no settlement price. -/
def namesTrade (header : String) : Bool :=
  has runtime header tradeTokens && !has runtime header settlementTokens

/-- The column by which rows are grouped. -/
def instrumentColumn (table : ParsedTable) (settled : List Mapping) : Option (List String) :=
  (truthy ((settled.find? fun m => m.canonicalField = some "instrument_id").map
    Mapping.sourceField)).map table.column

/-- Assign trade_price and settlement_price among the price candidates. -/
def resolvePrices (table : ParsedTable) (headers : List String) (settled : List Mapping) :
    List Mapping :=
  let groupBy := instrumentColumn table settled
  let settlement := headers.filter (namesSettlement runtime)
  let trade := headers.filter (namesTrade runtime)
  let undecided := headers.filter fun h => !namesSettlement runtime h && !namesTrade runtime h
  let named :=
    assignNamed runtime "settlement_price" "settlement price"
        "header names a settlement or mark price"
        (settlement.map fun h => (h, settlementPreference runtime h)) ++
      assignNamed runtime "trade_price" "trade price" "header names an execution price"
        (trade.map fun h => (h, tradePreference runtime h))
  let basis := if groupBy.any fun keys => keys ≠ [] then "within instrument groups"
    else "across all rows"
  named ++ assignStructural basis (named.filterMap Mapping.canonicalField)
    (ranked (undecided.map fun h => (h, variationRatio (table.column h) groupBy)))

/-! ## The pass over the columns -/

/-- The overrides by the comparable form of their headers. -/
def overrideIndex (fieldOverrides : List (String × String)) : Dict String String :=
  .ofPairs (fieldOverrides.map fun pair => (normalizeHeader runtime pair.1, pair.2))

def overrideFor (fieldOverrides : List (String × String)) (header : String) : Option String :=
  ((overrideIndex runtime fieldOverrides).get? (normalizeHeader runtime header)).filter
    fun field => field ≠ ""

/-- The variables of the loop over the headers. -/
structure Tier1State where
  mappings : List Mapping := []
  claimed : List String := []
  deferredPrices : List String := []

def Tier1State.add (state : Tier1State) (mapping : Mapping) : Tier1State :=
  { state with mappings := state.mappings ++ [mapping] }

def Tier1State.claim (state : Tier1State) (field : String) : Tier1State :=
  { state with claimed := field :: state.claimed }

def Tier1State.defer (state : Tier1State) (header : String) : Tier1State :=
  { state with deferredPrices := state.deferredPrices ++ [header] }

/-- One header of `map_table`. -/
def mapHeader (fieldOverrides : List (String × String)) (table : ParsedTable)
    (state : Tier1State) (header : String) : Except Signal Tier1State :=
  match overrideFor runtime fieldOverrides header with
  | some override =>
      .ok ((state.add ⟨header, some override, .tierHuman, 1,
        "client override -> " ++ override⟩).claim override)
  | none =>
      let unmatched := do
        if ← looksLikePriceColumn runtime header (table.column header) then
          return state.defer header
        return state.add (.undecided header "no alias match")
      match aliasLookup runtime header with
      | none => unmatched
      | some hit =>
          if hit = "trade_price" ∨ hit = "settlement_price" then .ok (state.defer header)
          else if hit ∈ mappableFields ∧ hit ∉ state.claimed then
            .ok ((state.add ⟨header, some hit, .tierAlias, 1,
              "alias:" ++ normalizeHeader runtime header⟩).claim hit)
          else if hit ∈ state.claimed then
            .ok (state.add (.undecided header
              ("conflicts with an earlier column already mapped to " ++ hit)))
          else unmatched

/-- The mapping of each header, in header order; of several the last one. -/
def inSourceOrder (headers : List String) (mappings : List Mapping) : List Mapping :=
  let bySource : Dict String Mapping := .ofPairs (mappings.map fun m => (m.sourceField, m))
  headers.filterMap bySource.get?

/-- Resolve every column, returning one mapping per source column. -/
def mapTable (fieldOverrides : List (String × String)) (table : ParsedTable) :
    Except Signal (List Mapping) := do
  let state ← table.headers.foldlM (mapHeader runtime fieldOverrides table) {}
  return inSourceOrder table.headers (state.mappings ++
    resolvePrices runtime table state.deferredPrices state.mappings)

end Harbormaster.Inspector
