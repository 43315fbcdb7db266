import Harbormaster.Foundation.Dict
import Harbormaster.Foundation.Fallible
import Harbormaster.Foundation.Join
import Harbormaster.Reconstub.Difference
import Mathlib.Data.List.Sort

/-! # The reconciliation engine

`reconcile` of the recon stub: two lists of canonical rows joined on a natural
key, with a break for every key of one side only and for every compared field in
which the rows of a key differ.
-/

namespace Harbormaster.Reconstub

open Inspector Joining Ordered

/-! ## Canonical rows -/

/-- The text columns of a canonical row that the engine reads. -/
structure Texts where
  accountId : Option String
  instrumentId : Option String
  tradeId : Option String
  currency : Option String
deriving DecidableEq, Repr

attribute [ext] Texts

/-- A row of a canonical file: the columns that the engine reads. -/
structure CanonicalRow extends Texts where
  quantity : Option Amount := none
  tradePrice : Option Amount := none
  settlementPrice : Option Amount := none
  grossAmount : Option Amount := none
  netAmount : Option Amount := none
  marketValue : Option Amount := none
deriving DecidableEq, Repr

/-- A value that is not null. -/
inductive Value where
  | text (value : String)
  | amount (value : Amount)
deriving DecidableEq, Repr

/-- `row.get(name)` for a compared field; a null is `none`. -/
def CanonicalRow.get (row : CanonicalRow) : String → Option Value
  | "quantity" => row.quantity.map .amount
  | "trade_price" => row.tradePrice.map .amount
  | "settlement_price" => row.settlementPrice.map .amount
  | "gross_amount" => row.grossAmount.map .amount
  | "net_amount" => row.netAmount.map .amount
  | "market_value" => row.marketValue.map .amount
  | "currency" => row.currency.map .text
  | _ => none

/-- Fields compared once rows are matched. -/
def comparedFields : List String :=
  ["quantity", "trade_price", "settlement_price", "gross_amount", "net_amount", "market_value",
    "currency"]

/-- Anything at or below this is a rounding artefact, not a break. -/
def tolerance : ℚ := 1 / 100

/-- `_key`: the ids, an absent one empty, joined with a bar. -/
def Texts.key (texts : Texts) : String :=
  "|".intercalate [texts.accountId.getD "", texts.instrumentId.getD "", texts.tradeId.getD ""]

/-! ## Comparing a field -/

/-- `str` of an amount: its digits with the point eight places from the right, in
scientific notation when it is very small. -/
def amountText (amount : Amount) : String :=
  let digits := Nat.toDigits 10 amount.units.natAbs
  let left : Int := digits.length - 8
  let sign := if amount.units < 0 then ['-'] else []
  String.ofList <| sign ++
    if -6 < left then
      if left ≤ 0 then '0' :: '.' :: List.replicate (-left).toNat '0' ++ digits
      else digits.take left.toNat ++ '.' :: digits.drop left.toNat
    else
      digits.take 1 ++ (if digits.length ≤ 1 then [] else '.' :: digits.drop 1) ++
        'E' :: '-' :: Nat.toDigits 10 (1 - left).toNat

/-- `str(value)`, with the empty text for a null. -/
def str : Option Value → String
  | none => ""
  | some (.text value) => value
  | some (.amount value) => amountText value

variable (runtime : Runtime)

/-- `_as_decimal`. The text of an amount reads back as the amount. -/
def asDecimal : Option Value → Option Decimal
  | none => none
  | some (.text value) => if value = "" then none else Decimal.ofText? runtime value.toList
  | some (.amount value) => some value.decimal

/-- Two values differ: by more than the tolerance where both read as numbers, and
as texts otherwise. -/
def differs (a b : Option Value) : Except Signal Bool :=
  if a = none ∧ b = none then .ok false
  else match asDecimal runtime a, asDecimal runtime b with
    | some a, some b => Decimal.exceeds tolerance a b
    | _, _ => .ok (str a ≠ str b)

/-! ## Reconciling -/

inductive BreakKind where
  | missingSide1 | missingSide2 | valueMismatch
deriving DecidableEq, Repr

structure Break where
  kind : BreakKind
  joinKey : String
  fieldName : String := ""
  side1Value : String := ""
  side2Value : String := ""
deriving DecidableEq, Repr

/-- The breaks of two rows with one key. -/
def compareRows (key : String) (a b : CanonicalRow) : Except Signal (List Break) :=
  List.flatten <$> comparedFields.mapM fun name => do
    if ← differs runtime (a.get name) (b.get name) then
      return [{ kind := .valueMismatch, joinKey := key, fieldName := name,
                side1Value := str (a.get name), side2Value := str (b.get name) }]
    else return []

/-- The rows of a side under their keys; of several rows with one key the last. -/
def keyed (side : List CanonicalRow) : Dict String CanonicalRow :=
  .ofPairs (side.map fun row => (row.key, row))

def sortedKeys (side : Dict String CanonicalRow) (condition : String → Bool) : List String :=
  ((side.entries.map Prod.fst).filter condition).insertionSort (· ≤ ·)

/-- Compare two sets of canonical rows. -/
def reconcile (side1 side2 : List CanonicalRow) : Except Signal (List Break) := do
  let left := keyed side1
  let right := keyed side2
  let only1 := sortedKeys left fun key => (right.get? key).isNone
  let only2 := sortedKeys right fun key => (left.get? key).isNone
  let mismatches ← (sortedKeys left fun key => (right.get? key).isSome).mapM fun key =>
    match left.get? key, right.get? key with
    | some a, some b => compareRows runtime key a b
    | _, _ => return []
  return only1.map (fun key => { kind := .missingSide2, joinKey := key }) ++
    only2.map (fun key => { kind := .missingSide1, joinKey := key }) ++ mismatches.flatten

/-! ## When there is no break -/

section NoBreak

variable {runtime}

theorem compareRows_eq_nil {key : String} {a b : CanonicalRow} :
    compareRows runtime key a b = .ok [] ↔
      ∀ name ∈ comparedFields, differs runtime (a.get name) (b.get name) = .ok false := by
  rw [compareRows, Fallible.map_eq_ok, Fallible.flatten_mapM_eq_nil]
  apply forall₂_congr
  intro name _
  rw [Fallible.bind_eq_ok]
  constructor
  · rintro ⟨differing, hdiffers, hbreaks⟩
    cases differing with
    | true => cases hbreaks
    | false => exact hdiffers
  · exact fun hdiffers => ⟨false, hdiffers, rfl⟩

/-- The rows of a key, as `reconcile` looks them up. -/
abbrev lastRow (side : List CanonicalRow) : String → Option CanonicalRow :=
  last (fun row : CanonicalRow => row.key) side

theorem get?_keyed (side : List CanonicalRow) (key : String) :
    (keyed side).get? key = lastRow side key := by
  rw [keyed, Dict.get?_ofPairs, ← List.map_reverse, List.find?_map, Option.map_map]
  exact congrFun Option.map_id _

theorem mem_sortedKeys {side : List CanonicalRow} {condition : String → Bool} {key : String} :
    key ∈ sortedKeys (keyed side) condition ↔
      key ∈ side.map (fun row => row.key) ∧ condition key = true := by
  rw [sortedKeys, List.mem_insertionSort, List.mem_filter, Dict.mem_keys, get?_keyed, last_isSome]

/-- There is no break when both sides have the same keys and the last rows of
each key do not differ. -/
theorem reconcile_eq_nil {side1 side2 : List CanonicalRow} :
    reconcile runtime side1 side2 = .ok [] ↔
      (∀ key, key ∈ side1.map (fun row => row.key) ↔ key ∈ side2.map fun row => row.key) ∧
      ∀ key a b, lastRow side1 key = some a → lastRow side2 key = some b →
        ∀ name ∈ comparedFields, differs runtime (a.get name) (b.get name) = .ok false := by
  have honly : ∀ side other : List CanonicalRow,
      sortedKeys (keyed side) (fun key => ((keyed other).get? key).isNone) = [] ↔
        ∀ key, key ∈ side.map (fun row => row.key) → key ∈ other.map fun row => row.key := by
    intro side other
    rw [List.eq_nil_iff_forall_not_mem]
    apply forall_congr'
    intro key
    rw [mem_sortedKeys, not_and, get?_keyed, Bool.not_eq_true, Option.isNone_eq_false_iff,
      last_isSome]
  rw [reconcile, Fallible.bind_eq_ok]
  constructor
  · rintro ⟨mismatches, hmismatches, hbreaks⟩
    obtain ⟨hboth, hflat⟩ := List.append_eq_nil_iff.mp (Except.ok.inj hbreaks)
    obtain ⟨hfirst, hsecond⟩ := List.append_eq_nil_iff.mp hboth
    have hfirst := (honly side1 side2).mp (List.map_eq_nil_iff.mp hfirst)
    have hsecond := (honly side2 side1).mp (List.map_eq_nil_iff.mp hsecond)
    refine ⟨fun key => ⟨hfirst key, hsecond key⟩, fun key a b ha hb => ?_⟩
    have hkey := Fallible.flatten_mapM_eq_nil.mp ⟨mismatches, hmismatches, hflat⟩ key ?_
    · rw [get?_keyed, get?_keyed, ha, hb] at hkey
      exact compareRows_eq_nil.mp hkey
    · rw [mem_sortedKeys, get?_keyed, hb]
      exact ⟨last_isSome.mp (Option.isSome_iff_exists.mpr ⟨a, ha⟩), rfl⟩
  · rintro ⟨hkeys, hagree⟩
    have hrows : ∀ key ∈ sortedKeys (keyed side1) fun key => ((keyed side2).get? key).isSome,
        (match (keyed side1).get? key, (keyed side2).get? key with
        | some a, some b => compareRows runtime key a b
        | _, _ => return []) = .ok [] := by
      intro key _
      rw [get?_keyed, get?_keyed]
      split
      next a b ha hb => exact compareRows_eq_nil.mpr (hagree key a b ha hb)
      next => rfl
    obtain ⟨mismatches, hmismatches, hflat⟩ := Fallible.flatten_mapM_eq_nil.mpr hrows
    refine ⟨mismatches, hmismatches, ?_⟩
    rw [(honly side1 side2).mpr fun key => (hkeys key).mp,
      (honly side2 side1).mpr fun key => (hkeys key).mpr, hflat]
    rfl

end NoBreak

/-! ## Agreement -/

/-- The ids that identify a row. -/
def Texts.ids (texts : Texts) : Option String × Option String × Option String :=
  (texts.accountId, texts.instrumentId, texts.tradeId)

/-- Equal within the tolerance, and null only with null. -/
def Agrees : Option Value → Option Value → Prop
  | none, none => True
  | some (.text a), some (.text b) => a = b
  | some (.amount a), some (.amount b) => |a.units - b.units| ≤ Amount.tolerance
  | _, _ => False

/-- The rows have the same ids and agree in every compared field. -/
def RowsAgree (a b : CanonicalRow) : Prop :=
  a.ids = b.ids ∧ ∀ name ∈ comparedFields, Agrees (a.get name) (b.get name)

/-- Both sides have as many rows of every id, and their rows correspond one to one. -/
structure Corresponds (side1 side2 : List CanonicalRow) : Prop where
  counts : ∀ ids, side1.countP (fun row => row.ids = ids) = side2.countP fun row => row.ids = ids
  matching : ∃ matched, side2.Perm matched ∧ List.Forall₂ RowsAgree side1 matched

/-- Rows that correspond one to one are as many for every id. -/
theorem Corresponds.of_matching {side1 side2 matched : List CanonicalRow}
    (hperm : side2.Perm matched) (hmatched : List.Forall₂ RowsAgree side1 matched) :
    Corresponds side1 side2 where
  matching := ⟨matched, hperm, hmatched⟩
  counts ids := by
    rw [hperm.countP_eq]
    clear hperm
    induction hmatched with
    | nil => rfl
    | cons hhead _ ih => rw [List.countP_cons, List.countP_cons, ih, hhead.1]

variable {runtime}

theorem amountText_ne_empty (amount : Amount) : amountText amount ≠ "" := by
  intro h
  have hnil := congrArg String.toList h
  simp only [amountText, String.toList_ofList] at hnil
  split_ifs at hnil <;> simp at hnil

/-- Two amounts do not differ exactly when they agree. -/
theorem differs_amounts {a b : Option Amount} :
    differs runtime (a.map .amount) (b.map .amount) = .ok false ↔
      Agrees (a.map .amount) (b.map .amount) := by
  cases a with
  | none =>
      cases b with
      | none => simp [differs, Agrees]
      | some b =>
          have htext : "" ≠ amountText b := (amountText_ne_empty b).symm
          simp [differs, asDecimal, str, Agrees, htext]
  | some a =>
      cases b with
      | none => simp [differs, asDecimal, str, Agrees, amountText_ne_empty]
      | some b =>
          have hexceeds := Amount.exceeds_decimal a b
          rw [← tolerance] at hexceeds
          simp [differs, asDecimal, hexceeds, Agrees]

/-! ## When no break means agreement -/

/-- The last texts of a key. -/
abbrev lastTexts (side : List Texts) : String → Option Texts := last Texts.key side

/-- The text columns alone make a break, or stop the comparison: one side lacks a
key of the other, or the currencies of a key's last rows differ. -/
def Decided (runtime : Runtime) (texts1 texts2 : List Texts) : Prop :=
  (∃ key, ¬ (key ∈ texts1.map Texts.key ↔ key ∈ texts2.map Texts.key)) ∨
    ∃ key a b, lastTexts texts1 key = some a ∧ lastTexts texts2 key = some b ∧
      differs runtime (a.currency.map .text) (b.currency.map .text) ≠ .ok false

/-- No side repeats a key, and rows of one key have the same ids and currency. -/
structure Distinct (texts1 texts2 : List Texts) : Prop where
  nodup1 : (texts1.map Texts.key).Nodup
  nodup2 : (texts2.map Texts.key).Nodup
  same : ∀ a ∈ texts1, ∀ b ∈ texts2, a.key = b.key → a = b

theorem map_key (side : List CanonicalRow) :
    (side.map CanonicalRow.toTexts).map Texts.key = side.map fun row => row.key := by
  rw [List.map_map]
  rfl

/-- Rows of one key with the same texts agree when they do not differ. -/
theorem rowsAgree_of_differs {a b : CanonicalRow} (htexts : a.toTexts = b.toTexts)
    (hagree : ∀ name ∈ comparedFields, differs runtime (a.get name) (b.get name) = .ok false) :
    RowsAgree a b := by
  refine ⟨congrArg Texts.ids htexts, ?_⟩
  simp only [comparedFields, List.forall_mem_cons] at hagree ⊢
  obtain ⟨hquantity, htrade, hsettlement, hgross, hnet, hmarket, _⟩ := hagree
  refine ⟨differs_amounts.mp hquantity, differs_amounts.mp htrade, differs_amounts.mp hsettlement,
    differs_amounts.mp hgross, differs_amounts.mp hnet, differs_amounts.mp hmarket, ?_,
    fun _ h => absurd h List.not_mem_nil⟩
  have hcurrency := congrArg Texts.currency htexts
  simp only [CanonicalRow.get, hcurrency]
  cases b.currency with
  | none => trivial
  | some text => rfl

/-- Sides whose rows the key tells apart agree when there is no break. -/
theorem Distinct.corresponds {side1 side2 : List CanonicalRow}
    (h : Distinct (side1.map CanonicalRow.toTexts) (side2.map CanonicalRow.toTexts))
    (hnone : reconcile runtime side1 side2 = .ok []) : Corresponds side1 side2 := by
  obtain ⟨hkeys, hagree⟩ := reconcile_eq_nil.mp hnone
  have hnodup1 := map_key side1 ▸ h.nodup1
  have hnodup2 := map_key side2 ▸ h.nodup2
  obtain ⟨matched, hperm, hmatched⟩ := exists_matching hnodup1 hnodup2 hkeys
  refine Corresponds.of_matching hperm ?_
  obtain ⟨hlength, hzip⟩ := List.forall₂_iff_zip.mp hmatched
  refine List.forall₂_iff_zip.mpr ⟨hlength, fun {a b} hmem => ?_⟩
  obtain ⟨ha, hb⟩ := List.of_mem_zip hmem
  have hb := hperm.mem_iff.mpr hb
  have hkey : a.key = b.key := hzip hmem
  apply rowsAgree_of_differs (h.same _ (List.mem_map_of_mem ha) _ (List.mem_map_of_mem hb) hkey)
  exact hagree a.key a b (last_of_nodup hnodup1 ha) (hkey ▸ last_of_nodup hnodup2 hb)

/-- A row of these texts without amounts. -/
def blank (texts : Texts) : CanonicalRow := { texts with }

/-- A side whose last rows have no amounts. -/
def Blank (side : List CanonicalRow) : Prop :=
  ∀ key row, lastRow side key = some row → row = blank row.toTexts

/-- Blank sides have no break that their texts do not make. -/
theorem reconcile_blank {side1 side2 : List CanonicalRow} (hblank1 : Blank side1)
    (hblank2 : Blank side2)
    (hundecided : ¬ Decided runtime (side1.map CanonicalRow.toTexts)
      (side2.map CanonicalRow.toTexts)) :
    reconcile runtime side1 side2 = .ok [] := by
  obtain ⟨hkeys, hcurrency⟩ := not_or.mp hundecided
  rw [map_key, map_key] at hkeys
  refine reconcile_eq_nil.mpr ⟨fun key => ?_, fun key a b ha hb => ?_⟩
  · by_contra hdiffer
    exact hkeys ⟨key, hdiffer⟩
  · have hlast : ∀ {side : List CanonicalRow} {row}, lastRow side key = some row →
        lastTexts (side.map CanonicalRow.toTexts) key = some row.toTexts := by
      intro side row hrow
      rw [lastTexts, last_map]
      exact congrArg (Option.map CanonicalRow.toTexts) hrow
    have hsame : differs runtime (a.currency.map .text) (b.currency.map .text) = .ok false := by
      by_contra hdiffer
      exact hcurrency ⟨key, _, _, hlast ha, hlast hb, hdiffer⟩
    rw [hblank1 key a ha, hblank2 key b hb]
    have hnull : differs runtime none none = .ok false := by simp [differs]
    simp only [comparedFields, List.forall_mem_cons]
    exact ⟨hnull, hnull, hnull, hnull, hnull, hnull, hsame, fun _ h => absurd h List.not_mem_nil⟩

theorem blank_map (texts : List Texts) : Blank (texts.map blank) := by
  intro key row hrow
  obtain ⟨hmem, _⟩ := last_mem hrow
  obtain ⟨texts, _, rfl⟩ := List.mem_map.mp hmem
  rfl

/-- Texts that repeat a key are those of a blank side with an amount in a row that
is not the last of its key. -/
theorem exists_hidden {texts : List Texts} (h : ¬ (texts.map Texts.key).Nodup) :
    ∃ side : List CanonicalRow, side.map CanonicalRow.toTexts = texts ∧ Blank side ∧
      ∃ row ∈ side, row.quantity ≠ none := by
  obtain ⟨before, repeated, after, rfl, hrepeated⟩ := exists_repeated h
  refine ⟨before.map blank ++ { repeated with quantity := some ⟨1, by decide⟩ } ::
    after.map blank, ?_, ?_, ?_⟩
  · simp [Function.comp_def, blank]
  · intro key row hrow
    rw [lastRow, last_replaced] at hrow
    · rw [← List.map_append] at hrow
      exact blank_map _ key row hrow
    · rw [List.map_map]
      exact hrepeated
  · exact ⟨_, List.mem_append_right _ List.mem_cons_self, by simp⟩

theorem texts_of_rowsAgree {a b : CanonicalRow} (h : RowsAgree a b) : a.toTexts = b.toTexts := by
  obtain ⟨hids, hfields⟩ := h
  have hcurrency : a.currency = b.currency := by
    have hfield := hfields "currency" (by simp [comparedFields])
    cases ha : a.currency <;> cases hb : b.currency <;>
      simp [CanonicalRow.get, ha, hb, Agrees] at hfield ⊢
    exact hfield
  simp only [Texts.ids, Prod.mk.injEq] at hids
  exact Texts.ext hids.1 hids.2.1 hids.2.2 hcurrency

/-- Sides without a break have texts that make none. -/
theorem undecided_of_reconcile {side1 side2 : List CanonicalRow}
    (hnone : reconcile runtime side1 side2 = .ok []) :
    ¬ Decided runtime (side1.map CanonicalRow.toTexts) (side2.map CanonicalRow.toTexts) := by
  obtain ⟨hkeys, hagree⟩ := reconcile_eq_nil.mp hnone
  rintro (⟨key, hdiffer⟩ | ⟨key, a, b, ha, hb, hdiffer⟩)
  · rw [map_key, map_key] at hdiffer
    exact hdiffer (hkeys key)
  · have hrow : ∀ {side : List CanonicalRow} {texts},
        lastTexts (side.map CanonicalRow.toTexts) key = some texts →
          ∃ row, lastRow side key = some row ∧ row.toTexts = texts := by
      intro side texts htexts
      rw [lastTexts, last_map] at htexts
      exact Option.map_eq_some_iff.mp htexts
    obtain ⟨row1, hrow1, rfl⟩ := hrow ha
    obtain ⟨row2, hrow2, rfl⟩ := hrow hb
    exact hdiffer (hagree key row1 row2 hrow1 hrow2 "currency" (by simp [comparedFields]))

/-- For rows with these texts, whatever their amounts, a comparison without a break
means that the sides correspond exactly when the texts alone make a break or the
join key tells the rows apart. -/
theorem reconcile_sound_iff (texts1 texts2 : List Texts) :
    (∀ side1 side2 : List CanonicalRow, side1.map CanonicalRow.toTexts = texts1 →
      side2.map CanonicalRow.toTexts = texts2 →
      reconcile runtime side1 side2 = .ok [] → Corresponds side1 side2) ↔
    Decided runtime texts1 texts2 ∨ Distinct texts1 texts2 := by
  constructor
  · intro hsound
    refine or_iff_not_imp_left.mpr fun hundecided => ?_
    have hblank : ∀ side1 side2 : List CanonicalRow, side1.map CanonicalRow.toTexts = texts1 →
        side2.map CanonicalRow.toTexts = texts2 → Blank side1 → Blank side2 →
        ∃ matched, side2.Perm matched ∧ List.Forall₂ RowsAgree side1 matched := by
      rintro side1 side2 rfl rfl hblank1 hblank2
      exact (hsound side1 side2 rfl rfl (reconcile_blank hblank1 hblank2 hundecided)).matching
    have htexts : ∀ texts : List Texts, (texts.map blank).map CanonicalRow.toTexts = texts := by
      intro texts
      simp [Function.comp_def, blank]
    have hquantity : ∀ {a b : CanonicalRow}, RowsAgree a b →
        (a.quantity = none ↔ b.quantity = none) := by
      intro a b hagree
      have hfield := hagree.2 "quantity" (by simp [comparedFields])
      cases ha : a.quantity <;> cases hb : b.quantity <;>
        simp [CanonicalRow.get, ha, hb, Agrees] at hfield ⊢
    have hnodup1 : (texts1.map Texts.key).Nodup := by
      by_contra hrepeated
      obtain ⟨side1, hside1, hblank1, row, hrow, hamount⟩ := exists_hidden hrepeated
      obtain ⟨matched, hperm, hmatched⟩ :=
        hblank side1 (texts2.map blank) hside1 (htexts texts2) hblank1 (blank_map texts2)
      obtain ⟨row', hrow', hagree⟩ := exists_right hmatched hrow
      obtain ⟨texts, _, rfl⟩ := List.mem_map.mp (hperm.mem_iff.mpr hrow')
      exact hamount ((hquantity hagree).mpr rfl)
    have hnodup2 : (texts2.map Texts.key).Nodup := by
      by_contra hrepeated
      obtain ⟨side2, hside2, hblank2, row, hrow, hamount⟩ := exists_hidden hrepeated
      obtain ⟨matched, hperm, hmatched⟩ :=
        hblank (texts1.map blank) side2 (htexts texts1) hside2 (blank_map texts1) hblank2
      obtain ⟨row', hrow', hagree⟩ := exists_left hmatched (hperm.mem_iff.mp hrow)
      obtain ⟨texts, _, rfl⟩ := List.mem_map.mp hrow'
      exact hamount ((hquantity hagree).mp rfl)
    refine ⟨hnodup1, hnodup2, fun a ha b hb hkey => ?_⟩
    obtain ⟨matched, hperm, hmatched⟩ := hblank (texts1.map blank) (texts2.map blank)
      (htexts texts1) (htexts texts2) (blank_map texts1) (blank_map texts2)
    obtain ⟨row, hrow, hagree⟩ := exists_right hmatched (List.mem_map_of_mem ha)
    obtain ⟨texts, hmem, rfl⟩ := List.mem_map.mp (hperm.mem_iff.mpr hrow)
    -- the row that `blank a` agrees with has its texts, and so its key
    have hsame : a = texts := texts_of_rowsAgree hagree
    subst hsame
    exact List.inj_on_of_nodup_map hnodup2 hmem hb hkey
  · rintro hcondition side1 side2 rfl rfl hnone
    rcases hcondition with hdecided | hdistinct
    · exact absurd hdecided (undecided_of_reconcile hnone)
    · exact hdistinct.corresponds hnone

/-- A fill of so many contracts, whose file gives it no trade id. -/
def fill (contracts : Fin 100) : CanonicalRow where
  accountId := some "8842-00119"
  instrumentId := some "ESZ6"
  tradeId := none
  currency := some "USD"
  quantity := some ⟨contracts * 10 ^ 8, by omega⟩

/-- Two fills on one side and one on the other make no break. -/
theorem fill_unreported :
    reconcile .ascii [fill 5, fill 10] [fill 10] = .ok [] ∧
      ¬ Corresponds [fill 5, fill 10] [fill 10] := by
  constructor
  · have hnone : ((reconcile .ascii [fill 5, fill 10] [fill 10]).toOption.map id) = some [] := by
      decide +kernel
    obtain ⟨breaks, hbreaks, rfl⟩ := Fallible.ok_of_toOption hnone
    exact hbreaks
  · intro h
    have hcount := h.counts (fill 10).ids
    revert hcount
    decide

end Harbormaster.Reconstub
