import Harbormaster.Engine
import Harbormaster.Reconstub.Reconcile

/-! # Reports

`run_assignment` of the recon stub compares the two sides of an assignment and counts what
it has compared. The engine takes neither side for the right one: with the sides exchanged
it makes the same report, seen from the other side.
-/

namespace Harbormaster.Reconstub

open Inspector Ordered

/-! ## Running an assignment -/

structure Report where
  assignmentId : String
  clientId : String
  domain : ProductDomain
  valueDate : String
  side1Rows : Nat
  side2Rows : Nat
  matched : Nat
  breaks : List Break
  superseded : String
deriving DecidableEq, Repr

/-- How many breaks are written out. -/
def writtenBreaks : Nat := 500

/-- A report as it is written to its file. -/
structure WrittenReport where
  assignmentId : String
  clientId : String
  domain : ProductDomain
  valueDate : String
  generatedAt : Instant
  side1Rows : Nat
  side2Rows : Nat
  matched : Nat
  breakCount : Nat
  supersedes : String
  breaks : List Break
deriving DecidableEq, Repr

/-- `to_dict`. -/
def Report.toDict (report : Report) (generatedAt : Instant) : WrittenReport where
  assignmentId := report.assignmentId
  clientId := report.clientId
  domain := report.domain
  valueDate := report.valueDate
  generatedAt := generatedAt
  side1Rows := report.side1Rows
  side2Rows := report.side2Rows
  matched := report.matched
  breakCount := report.breaks.length
  supersedes := report.superseded
  breaks := report.breaks.take writtenBreaks

/-- What ends an assignment without a report. -/
inductive RunError where
  | load (cause : LoadError)
  | decimal (signal : Signal)
deriving DecidableEq

/-- The keys of both sides. -/
def matchedKeys (side1 side2 : List CanonicalRow) : List String :=
  sortedKeys (keyed side1) fun key => ((keyed side2).get? key).isSome

section Run

variable (runtime : Runtime) (files : String → Option (List CanonicalRow))

/-- Execute one assignment. -/
def runAssignment (assigned : BerthAssigned) : Except RunError Report := do
  let (side1, side2) ← (loadSides files assigned).mapError .load
  let assignmentId ← (jsonField "assignmentId" assigned.assignmentId).mapError .load
  let clientId ← (jsonField "clientId" assigned.clientId).mapError .load
  let valueDate ← (jsonField "valueDate" assigned.valueDate).mapError .load
  let breaks ← (reconcile runtime side1 side2).mapError .decimal
  return {
    assignmentId := assignmentId
    clientId := clientId
    domain := assigned.domain
    valueDate := valueDate
    side1Rows := side1.length
    side2Rows := side2.length
    matched := (matchedKeys side1 side2).length
    breaks := breaks
    superseded := assigned.supersedes }

end Run

/-! ## From the other side -/

def BreakKind.mirrored : BreakKind → BreakKind
  | .missingSide1 => .missingSide2
  | .missingSide2 => .missingSide1
  | .valueMismatch => .valueMismatch

/-- The same break with the sides exchanged. -/
def Break.mirrored (found : Break) : Break :=
  { found with
    kind := found.kind.mirrored
    side1Value := found.side2Value
    side2Value := found.side1Value }

end Harbormaster.Reconstub

namespace Harbormaster.Inspector.Decimal

theorem finalize_abs (negative negative' : Bool) (coefficient : Nat) (exponent : Int) :
    finalize negative coefficient exponent >>= abs =
      finalize negative' coefficient exponent >>= abs := by
  unfold finalize
  dsimp only
  split <;> split <;> rfl

/-- The distance of two numbers does not depend on their order. -/
theorem exceeds_comm (bound : ℚ) (a b : Decimal) : exceeds bound a b = exceeds bound b a := by
  have hsigns : ∀ (difference : Int) (least : Int),
      (finalize (difference < 0) difference.natAbs least >>= abs) >>= gt bound =
        (finalize (-difference < 0) (-difference).natAbs least >>= abs) >>= gt bound := by
    intro difference least
    rw [Int.natAbs_neg, finalize_abs _ (-difference < 0)]
  have hexceeds : ∀ a b, exceeds bound a b = (sub a b >>= abs) >>= gt bound := by
    intro a b
    unfold exceeds
    rw [bind_assoc]
  rw [hexceeds, hexceeds]
  cases a with
  | finite negative coefficient exponent =>
      cases b with
      | finite negative' coefficient' exponent' =>
          rw [sub, sub, hsigns, Int.neg_sub, min_comm exponent' exponent]
      | infinity negative' => rfl
      | nan negative' signaling' => cases signaling' <;> rfl
  | infinity negative =>
      cases b with
      | finite negative' coefficient' exponent' => rfl
      | infinity negative' => cases negative <;> cases negative' <;> rfl
      | nan negative' signaling' => cases signaling' <;> rfl
  | nan negative signaling =>
      cases b with
      | finite negative' coefficient' exponent' => cases signaling <;> rfl
      | infinity negative' => cases signaling <;> rfl
      | nan negative' signaling' => cases signaling <;> cases signaling' <;> rfl

end Harbormaster.Inspector.Decimal

namespace Harbormaster.Reconstub

open Inspector Ordered

variable {runtime : Runtime}

theorem differs_comm (a b : Option Value) : differs runtime a b = differs runtime b a := by
  unfold differs
  by_cases hnull : a = none ∧ b = none
  · rw [if_pos hnull, if_pos hnull.symm]
  · rw [if_neg hnull, if_neg fun h => hnull h.symm]
    cases asDecimal runtime a with
    | none => cases asDecimal runtime b <;> simp only [ne_comm]
    | some first =>
        cases asDecimal runtime b with
        | none => simp only [ne_comm]
        | some second => exact Decimal.exceeds_comm tolerance first second

/-! ## What a report lists -/

/-- The rows of a key differ in a field. -/
def mismatch (key : String) (a b : CanonicalRow) (name : String) : Break where
  kind := .valueMismatch
  joinKey := key
  fieldName := name
  side1Value := str (a.get name)
  side2Value := str (b.get name)

def missingFrom (kind : BreakKind) (key : String) : Break := { kind := kind, joinKey := key }

/-- What there is to report about two sides, of which the last row of each key counts. -/
inductive Discrepancy (runtime : Runtime) (side1 side2 : List CanonicalRow) : Break → Prop
  | missingSide2 {key : String} (hkey : key ∈ side1.map fun row => row.key)
      (hother : key ∉ side2.map fun row => row.key) :
      Discrepancy runtime side1 side2 (missingFrom .missingSide2 key)
  | missingSide1 {key : String} (hkey : key ∈ side2.map fun row => row.key)
      (hother : key ∉ side1.map fun row => row.key) :
      Discrepancy runtime side1 side2 (missingFrom .missingSide1 key)
  | valueMismatch {key name : String} {a b : CanonicalRow} (ha : lastRow side1 key = some a)
      (hb : lastRow side2 key = some b) (hname : name ∈ comparedFields)
      (hdiffers : differs runtime (a.get name) (b.get name) = .ok true) :
      Discrepancy runtime side1 side2 (mismatch key a b name)

/-- No comparison of the last rows of a key signals. -/
def Comparable (runtime : Runtime) (side1 side2 : List CanonicalRow) : Prop :=
  ∀ key a b, lastRow side1 key = some a → lastRow side2 key = some b →
    ∀ name ∈ comparedFields, ∃ differing, differs runtime (a.get name) (b.get name) = .ok differing

/-- The comparison says that the values differ. -/
def isDifferent : Except Signal Bool → Bool
  | .ok differing => differing
  | .error _ => false

theorem isDifferent_iff {comparison : Except Signal Bool} :
    isDifferent comparison = true ↔ comparison = .ok true := by
  cases comparison <;> simp [isDifferent]

section Parts

variable (runtime : Runtime) (side1 side2 : List CanonicalRow)

/-- The keys of the first side that the second one lacks. -/
def onlyOn : List String :=
  sortedKeys (keyed side1) fun key => ((keyed side2).get? key).isNone

def fieldBreaks (key : String) (a b : CanonicalRow) : List Break :=
  (comparedFields.filter fun name =>
    isDifferent (differs runtime (a.get name) (b.get name))).map (mismatch key a b)

def keyBreaks (key : String) : List Break :=
  match lastRow side1 key, lastRow side2 key with
  | some a, some b => fieldBreaks runtime key a b
  | _, _ => []

/-- Every break: first of the keys of one side only, then of the rows that differ. -/
def allBreaks : List Break :=
  (onlyOn side1 side2).map (missingFrom .missingSide2) ++
    (onlyOn side2 side1).map (missingFrom .missingSide1) ++
      (matchedKeys side1 side2).flatMap (keyBreaks runtime side1 side2)

end Parts

theorem nodup_sortedKeys (side : Dict String CanonicalRow) (condition : String → Bool) :
    (sortedKeys side condition).Nodup :=
  (List.perm_insertionSort _ _).nodup_iff.mpr (side.nodup.filter _)

theorem mem_matchedKeys {side1 side2 : List CanonicalRow} {key : String} :
    key ∈ matchedKeys side1 side2 ↔
      key ∈ side1.map (fun row => row.key) ∧ key ∈ side2.map fun row => row.key := by
  rw [matchedKeys, mem_sortedKeys, get?_keyed, Joining.last_isSome]

theorem mem_matchedKeys_rows {side1 side2 : List CanonicalRow} {key : String} :
    key ∈ matchedKeys side1 side2 ↔
      ∃ a b, lastRow side1 key = some a ∧ lastRow side2 key = some b := by
  rw [mem_matchedKeys, ← Joining.last_isSome, ← Joining.last_isSome, Option.isSome_iff_exists,
    Option.isSome_iff_exists]
  constructor
  · rintro ⟨⟨a, ha⟩, b, hb⟩
    exact ⟨a, b, ha, hb⟩
  · rintro ⟨a, b, ha, hb⟩
    exact ⟨⟨a, ha⟩, b, hb⟩

theorem mem_onlyOn {side1 side2 : List CanonicalRow} {key : String} :
    key ∈ onlyOn side1 side2 ↔
      key ∈ side1.map (fun row => row.key) ∧ key ∉ side2.map fun row => row.key := by
  rw [onlyOn, mem_sortedKeys, get?_keyed, ← Bool.not_eq_false, ← Option.not_isSome,
    Bool.not_eq_false, Bool.not_eq_true', ← Bool.not_eq_true, Joining.last_isSome]

theorem flatten_map_ite {α β : Type} (condition : α → Bool) (change : α → β) (elements : List α) :
    (elements.map fun element => if condition element then [change element] else []).flatten =
      (elements.filter condition).map change := by
  induction elements with
  | nil => rfl
  | cons element rest ih =>
      rw [List.map_cons, List.flatten_cons, ih, List.filter_cons]
      split <;> rfl

theorem compareRows_eq_ok {key : String} {a b : CanonicalRow} {breaks : List Break} :
    compareRows runtime key a b = .ok breaks ↔
      (∀ name ∈ comparedFields,
        ∃ differing, differs runtime (a.get name) (b.get name) = .ok differing) ∧
      breaks = fieldBreaks runtime key a b := by
  have houtcome : ∀ name ∈ comparedFields, ∀ found : List Break,
      (do
        if ← differs runtime (a.get name) (b.get name) then return [mismatch key a b name]
        else return [] : Except Signal (List Break)) = .ok found →
        found = if isDifferent (differs runtime (a.get name) (b.get name)) then
          [mismatch key a b name] else [] := by
    intro name _ found hfound
    obtain ⟨differing, hdiffers, hfound⟩ := Fallible.bind_eq_ok.mp hfound
    rw [hdiffers]
    cases differing <;> exact (Except.ok.inj hfound).symm
  have hsucceeds : ∀ name ∈ comparedFields, (∃ found : List Break,
      (do
        if ← differs runtime (a.get name) (b.get name) then return [mismatch key a b name]
        else return [] : Except Signal (List Break)) = .ok found) ↔
        ∃ differing, differs runtime (a.get name) (b.get name) = .ok differing := by
    intro name _
    constructor
    · rintro ⟨found, hfound⟩
      obtain ⟨differing, hdiffers, -⟩ := Fallible.bind_eq_ok.mp hfound
      exact ⟨differing, hdiffers⟩
    · rintro ⟨differing, hdiffers⟩
      rw [hdiffers]
      cases differing <;> exact ⟨_, rfl⟩
  rw [compareRows, Fallible.map_eq_ok]
  constructor
  · rintro ⟨found, hfound, rfl⟩
    obtain ⟨hall, rfl⟩ := (Fallible.mapM_eq_ok_iff houtcome).mp hfound
    exact ⟨fun name hname => (hsucceeds name hname).mp (hall name hname),
      flatten_map_ite _ _ comparedFields⟩
  · rintro ⟨hall, rfl⟩
    exact ⟨_, (Fallible.mapM_eq_ok_iff houtcome).mpr
      ⟨fun name hname => (hsucceeds name hname).mpr (hall name hname), rfl⟩,
      flatten_map_ite _ _ comparedFields⟩

theorem reconcile_eq_ok {side1 side2 : List CanonicalRow} {breaks : List Break} :
    reconcile runtime side1 side2 = .ok breaks ↔
      Comparable runtime side1 side2 ∧ breaks = allBreaks runtime side1 side2 := by
  have houtcome : ∀ key ∈ matchedKeys side1 side2, ∀ found : List Break,
      (match (keyed side1).get? key, (keyed side2).get? key with
      | some a, some b => compareRows runtime key a b
      | _, _ => return []) = .ok found → found = keyBreaks runtime side1 side2 key := by
    intro key hkey found hfound
    obtain ⟨a, b, ha, hb⟩ := mem_matchedKeys_rows.mp hkey
    rw [get?_keyed, get?_keyed, ha, hb] at hfound
    rw [keyBreaks, ha, hb]
    exact (compareRows_eq_ok.mp hfound).2
  have hsucceeds : (∀ key ∈ matchedKeys side1 side2, ∃ found : List Break,
      (match (keyed side1).get? key, (keyed side2).get? key with
      | some a, some b => compareRows runtime key a b
      | _, _ => return []) = .ok found) ↔ Comparable runtime side1 side2 := by
    constructor
    · intro hall key a b ha hb
      obtain ⟨found, hfound⟩ := hall key (mem_matchedKeys_rows.mpr ⟨a, b, ha, hb⟩)
      rw [get?_keyed, get?_keyed, ha, hb] at hfound
      exact (compareRows_eq_ok.mp hfound).1
    · intro hcomparable key hkey
      obtain ⟨a, b, ha, hb⟩ := mem_matchedKeys_rows.mp hkey
      rw [get?_keyed, get?_keyed, ha, hb]
      exact ⟨_, compareRows_eq_ok.mpr ⟨hcomparable key a b ha hb, rfl⟩⟩
  rw [reconcile, Fallible.bind_eq_ok, ← hsucceeds]
  constructor
  · rintro ⟨found, hfound, heq⟩
    obtain ⟨hall, rfl⟩ := (Fallible.mapM_eq_ok_iff houtcome).mp hfound
    exact ⟨hall, (Except.ok.inj heq).symm⟩
  · rintro ⟨hall, rfl⟩
    exact ⟨_, (Fallible.mapM_eq_ok_iff houtcome).mpr ⟨hall, rfl⟩, rfl⟩

section Breaks

variable {side1 side2 : List CanonicalRow}

theorem mem_keyBreaks {key : String} {found : Break} :
    found ∈ keyBreaks runtime side1 side2 key ↔ ∃ a b name, lastRow side1 key = some a ∧
      lastRow side2 key = some b ∧ name ∈ comparedFields ∧
      differs runtime (a.get name) (b.get name) = .ok true ∧ mismatch key a b name = found := by
  unfold keyBreaks
  cases ha : lastRow side1 key with
  | none => simp
  | some a =>
      cases hb : lastRow side2 key with
      | none => simp
      | some b =>
          dsimp only
          rw [fieldBreaks, List.mem_map]
          constructor
          · rintro ⟨name, hname, rfl⟩
            obtain ⟨hmem, hdiffers⟩ := List.mem_filter.mp hname
            exact ⟨a, b, name, rfl, rfl, hmem, isDifferent_iff.mp hdiffers, rfl⟩
          · rintro ⟨_, _, name, ha, hb, hname, hdiffers, rfl⟩
            obtain rfl := Option.some.inj ha
            obtain rfl := Option.some.inj hb
            exact ⟨name, List.mem_filter.mpr ⟨hname, isDifferent_iff.mpr hdiffers⟩, rfl⟩

/-- Each discrepancy is a break, and nothing else is. -/
theorem mem_allBreaks {found : Break} :
    found ∈ allBreaks runtime side1 side2 ↔ Discrepancy runtime side1 side2 found := by
  unfold allBreaks
  rw [List.mem_append, List.mem_append, List.mem_map, List.mem_map, List.mem_flatMap]
  constructor
  · rintro ((⟨key, hkey, rfl⟩ | ⟨key, hkey, rfl⟩) | ⟨key, -, hfound⟩)
    · obtain ⟨hkey, hother⟩ := mem_onlyOn.mp hkey
      exact .missingSide2 hkey hother
    · obtain ⟨hkey, hother⟩ := mem_onlyOn.mp hkey
      exact .missingSide1 hkey hother
    · obtain ⟨a, b, name, ha, hb, hname, hdiffers, rfl⟩ := mem_keyBreaks.mp hfound
      exact .valueMismatch ha hb hname hdiffers
  · intro h
    cases h with
    | missingSide2 hkey hother => exact Or.inl (Or.inl ⟨_, mem_onlyOn.mpr ⟨hkey, hother⟩, rfl⟩)
    | missingSide1 hkey hother => exact Or.inl (Or.inr ⟨_, mem_onlyOn.mpr ⟨hkey, hother⟩, rfl⟩)
    | valueMismatch ha hb hname hdiffers =>
        exact Or.inr ⟨_, mem_matchedKeys_rows.mpr ⟨_, _, ha, hb⟩,
          mem_keyBreaks.mpr ⟨_, _, _, ha, hb, hname, hdiffers, rfl⟩⟩

theorem nodup_keyBreaks (key : String) : (keyBreaks runtime side1 side2 key).Nodup := by
  have hfields : comparedFields.Nodup := by decide
  unfold keyBreaks
  split
  next a b _ _ =>
    exact (hfields.filter _).map fun _ _ h => congrArg Break.fieldName h
  next => exact List.nodup_nil

theorem kind_of_mismatch {found : Break}
    (h : found ∈ (matchedKeys side1 side2).flatMap (keyBreaks runtime side1 side2)) :
    found.kind = .valueMismatch := by
  obtain ⟨key, -, hfound⟩ := List.mem_flatMap.mp h
  obtain ⟨_, _, _, -, -, -, -, rfl⟩ := mem_keyBreaks.mp hfound
  rfl

/-- No break is listed twice. -/
theorem nodup_allBreaks : (allBreaks runtime side1 side2).Nodup := by
  have hmissing : ∀ (kind : BreakKind) (first second : List CanonicalRow),
      ((onlyOn first second).map (missingFrom kind)).Nodup := fun kind first second =>
    (nodup_sortedKeys _ _).map fun _ _ h => congrArg Break.joinKey h
  unfold allBreaks
  -- the three parts of a report differ in their kinds, and the mismatches in their keys
  refine List.Nodup.append (List.Nodup.append (hmissing _ _ _) (hmissing _ _ _) ?_) ?_ ?_
  · intro found hfirst hsecond
    obtain ⟨_, -, rfl⟩ := List.mem_map.mp hfirst
    obtain ⟨_, -, hsame⟩ := List.mem_map.mp hsecond
    cases hsame
  · refine List.nodup_flatMap.mpr ⟨fun key _ => nodup_keyBreaks key, ?_⟩
    refine (nodup_sortedKeys _ _).imp fun hne found hfirst hsecond => hne ?_
    obtain ⟨_, _, _, -, -, -, -, rfl⟩ := mem_keyBreaks.mp hfirst
    obtain ⟨_, _, _, -, -, -, -, hsame⟩ := mem_keyBreaks.mp hsecond
    exact (congrArg Break.joinKey hsame).symm
  · intro found hmissing hmismatch
    have hfound := kind_of_mismatch hmismatch
    rcases List.mem_append.mp hmissing with hfirst | hsecond
    · obtain ⟨_, -, rfl⟩ := List.mem_map.mp hfirst
      cases hfound
    · obtain ⟨_, -, rfl⟩ := List.mem_map.mp hsecond
      cases hfound

/-- Every key of a side is matched or missing from the other one. -/
theorem length_matchedKeys : (matchedKeys side1 side2).length + (onlyOn side1 side2).length =
    (side1.map fun row => row.key).dedup.length := by
  rw [← List.length_append]
  refine List.Perm.length_eq ?_
  have hdisjoint : (matchedKeys side1 side2).Disjoint (onlyOn side1 side2) :=
    fun key hmatched honly => (mem_onlyOn.mp honly).2 (mem_matchedKeys.mp hmatched).2
  have hmatched : (matchedKeys side1 side2).Nodup := nodup_sortedKeys _ _
  have honly : (onlyOn side1 side2).Nodup := nodup_sortedKeys _ _
  refine (List.perm_ext_iff_of_nodup (hmatched.append honly hdisjoint)
    (List.nodup_dedup _)).mpr fun key => ?_
  rw [List.mem_append, mem_matchedKeys, mem_onlyOn, List.mem_dedup, ← and_or_left,
    and_iff_left (Classical.em _)]

theorem countP_missingSide2 : (allBreaks runtime side1 side2).countP
    (fun found => found.kind = .missingSide2) = (onlyOn side1 side2).length := by
  have hsecond : ((onlyOn side2 side1).map (missingFrom .missingSide1)).countP
      (fun found => found.kind = .missingSide2) = 0 := by
    refine List.countP_eq_zero.mpr fun found hfound => ?_
    obtain ⟨_, -, rfl⟩ := List.mem_map.mp hfound
    simp [missingFrom]
  have hmismatch : ((matchedKeys side1 side2).flatMap (keyBreaks runtime side1 side2)).countP
      (fun found => found.kind = .missingSide2) = 0 := by
    refine List.countP_eq_zero.mpr fun found hfound => ?_
    rw [kind_of_mismatch hfound]
    decide
  have hfirst : ((onlyOn side1 side2).map (missingFrom .missingSide2)).countP
      (fun found => found.kind = .missingSide2) = (onlyOn side1 side2).length := by
    rw [List.countP_map]
    exact List.countP_eq_length.mpr fun _ _ => rfl
  rw [allBreaks, List.countP_append, List.countP_append, hfirst, hsecond, hmismatch,
    Nat.add_zero]

end Breaks

/-! ## From the other side -/

theorem Break.mirrored_mirrored (found : Break) : found.mirrored.mirrored = found := by
  obtain ⟨kind, key, name, value1, value2⟩ := found
  cases kind <;> rfl

theorem Discrepancy.mirrored {side1 side2 : List CanonicalRow} {found : Break}
    (h : Discrepancy runtime side1 side2 found) :
    Discrepancy runtime side2 side1 found.mirrored := by
  cases h with
  | missingSide2 hkey hother => exact .missingSide1 hkey hother
  | missingSide1 hkey hother => exact .missingSide2 hkey hother
  | valueMismatch ha hb hname hdiffers =>
      exact .valueMismatch hb ha hname ((differs_comm _ _).trans hdiffers)

theorem Comparable.mirrored {side1 side2 : List CanonicalRow}
    (h : Comparable runtime side1 side2) : Comparable runtime side2 side1 := by
  intro key a b ha hb name hname
  rw [differs_comm]
  exact h key b a hb ha name hname

theorem allBreaks_mirrored (side1 side2 : List CanonicalRow) :
    (allBreaks runtime side2 side1).Perm ((allBreaks runtime side1 side2).map Break.mirrored) := by
  have hinjective : Function.Injective Break.mirrored :=
    Function.LeftInverse.injective Break.mirrored_mirrored
  -- neither list has a break twice, so it is enough that they list the same ones
  refine (List.perm_ext_iff_of_nodup nodup_allBreaks (nodup_allBreaks.map hinjective)).mpr
    fun found => ?_
  rw [mem_allBreaks, List.mem_map]
  constructor
  · exact fun h => ⟨found.mirrored, mem_allBreaks.mpr h.mirrored, found.mirrored_mirrored⟩
  · rintro ⟨other, hother, rfl⟩
    exact (mem_allBreaks.mp hother).mirrored

theorem countP_missingSide1 (side1 side2 : List CanonicalRow) :
    (allBreaks runtime side1 side2).countP (fun found => found.kind = .missingSide1) =
      (onlyOn side2 side1).length := by
  rw [← @countP_missingSide2 runtime, (allBreaks_mirrored side1 side2).countP_eq, List.countP_map]
  refine List.countP_congr fun found _ => ?_
  obtain ⟨kind, key, name, value1, value2⟩ := found
  cases kind <;> simp [Break.mirrored, BreakKind.mirrored]

theorem length_matchedKeys_comm (side1 side2 : List CanonicalRow) :
    (matchedKeys side2 side1).length = (matchedKeys side1 side2).length := by
  refine List.Perm.length_eq ((List.perm_ext_iff_of_nodup (nodup_sortedKeys _ _)
    (nodup_sortedKeys _ _)).mpr fun key => ?_)
  exact mem_matchedKeys.trans (and_comm.trans mem_matchedKeys.symm)

/-! ## Reports -/

/-- The assignment with its sides exchanged. -/
def exchanged (assigned : BerthAssigned) : BerthAssigned :=
  { assigned with side1 := assigned.side2, side2 := assigned.side1 }

variable {files : String → Option (List CanonicalRow)} {assigned : BerthAssigned}

theorem loadSides_exchanged {side1 side2 : List CanonicalRow}
    (h : loadSides files assigned = .ok (side1, side2)) :
    loadSides files (exchanged assigned) = .ok (side2, side1) := by
  obtain ⟨uri1, huri1, h⟩ := Fallible.bind_eq_ok.mp h
  obtain ⟨rows1, hrows1, h⟩ := Fallible.bind_eq_ok.mp h
  obtain ⟨uri2, huri2, h⟩ := Fallible.bind_eq_ok.mp h
  obtain ⟨rows2, hrows2, h⟩ := Fallible.bind_eq_ok.mp h
  obtain ⟨rfl, rfl⟩ := Prod.mk.inj (Except.ok.inj h)
  exact Fallible.bind_eq_ok.mpr ⟨uri2, huri2, Fallible.bind_eq_ok.mpr ⟨rows2, hrows2,
    Fallible.bind_eq_ok.mpr ⟨uri1, huri1, Fallible.bind_eq_ok.mpr ⟨rows1, hrows1, rfl⟩⟩⟩⟩

/-- What a report is made of. -/
theorem runAssignment_eq_ok {report : Report} :
    runAssignment runtime files assigned = .ok report ↔ ∃ side1 side2,
      loadSides files assigned = .ok (side1, side2) ∧ Comparable runtime side1 side2 ∧
      assigned.assignmentId ≠ "" ∧ assigned.clientId ≠ "" ∧ assigned.valueDate ≠ "" ∧
      report = {
        assignmentId := assigned.assignmentId
        clientId := assigned.clientId
        domain := assigned.domain
        valueDate := assigned.valueDate
        side1Rows := side1.length
        side2Rows := side2.length
        matched := (matchedKeys side1 side2).length
        breaks := allBreaks runtime side1 side2
        superseded := assigned.supersedes } := by
  have hfield : ∀ name text value, (jsonField name text).mapError RunError.load = .ok value ↔
      text ≠ "" ∧ value = text := by
    intro name text value
    rw [Fallible.mapError_eq_ok, jsonField]
    split
    next hempty => simp [hempty]
    next hne => simp [hne, eq_comm]
  unfold runAssignment
  simp only [Fallible.bind_eq_ok, hfield, Fallible.mapError_eq_ok, reconcile_eq_ok]
  constructor
  · rintro ⟨⟨side1, side2⟩, hload, _, ⟨hid, rfl⟩, _, ⟨hclient, rfl⟩, _, ⟨hdate, rfl⟩, _,
      ⟨hcomparable, rfl⟩, heq⟩
    exact ⟨side1, side2, hload, hcomparable, hid, hclient, hdate, (Except.ok.inj heq).symm⟩
  · rintro ⟨side1, side2, hload, hcomparable, hid, hclient, hdate, rfl⟩
    exact ⟨(side1, side2), hload, _, ⟨hid, rfl⟩, _, ⟨hclient, rfl⟩, _, ⟨hdate, rfl⟩, _,
      ⟨hcomparable, rfl⟩, rfl⟩

/-- A ledger of two rows, and a statement with one of them in another currency. -/
def sampleFiles : String → Option (List CanonicalRow)
  | "ledger.parquet" => some [
      { accountId := some "A1", instrumentId := none, tradeId := some "T1", currency := some "EUR" },
      { accountId := some "A1", instrumentId := none, tradeId := some "T2", currency := some "EUR" }]
  | "statement.parquet" => some [
      { accountId := some "A1", instrumentId := none, tradeId := some "T1", currency := some "USD" }]
  | _ => none

def sampleAssigned : BerthAssigned where
  assignmentId := "asg-1"
  emittedAt := 0
  clientId := "CLNT001"
  domain := .trade
  valueDate := "2026-01-05"
  side1 := { arrivalId := "A1", canonicalUri := "fs://ledger.parquet" }
  side2 := { arrivalId := "A2", canonicalUri := "fs://statement.parquet" }
  expectationId := ""
  confidence := 1
  supersedes := ""
  notes := ""

theorem sample_report : ∃ report, runAssignment .ascii sampleFiles sampleAssigned = .ok report := by
  have heval : ((runAssignment .ascii sampleFiles sampleAssigned).toOption.map
      fun report => report.matched) = some 1 := by decide +kernel
  obtain ⟨report, hreport, -⟩ := Fallible.ok_of_toOption heval
  exact ⟨report, hreport⟩

/-- What is written lists every break exactly when there are not too many. -/
theorem subset_written_iff {report : Report} (hnodup : report.breaks.Nodup)
    (generatedAt : Instant) :
    (∀ found ∈ report.breaks, found ∈ (report.toDict generatedAt).breaks) ↔
      report.breaks.length ≤ writtenBreaks := by
  rw [Report.toDict]
  constructor
  · intro hall
    have hle : report.breaks.length ≤ (report.breaks.take writtenBreaks).length :=
      (List.subperm_of_subset hnodup hall).length_le
    rw [List.length_take] at hle
    exact hle.trans (min_le_left _ _)
  · intro hfew found hfound
    rw [List.take_of_length_le hfew]
    exact hfound

/-- A report lists each discrepancy of its sides once and nothing else, and its counts add
up: each key of a side is matched or missing from the other one. What is written of it
counts all breaks and lists the first ones, which are all if there are not too many. -/
theorem runAssignment_exact (runtime : Runtime) (files : String → Option (List CanonicalRow))
    (assigned : BerthAssigned) (report : Report)
    (h : runAssignment runtime files assigned = .ok report) :
    ∃ side1 side2, loadSides files assigned = .ok (side1, side2) ∧
      (∀ found, found ∈ report.breaks ↔ Discrepancy runtime side1 side2 found) ∧
      report.breaks.Nodup ∧
      report.matched + report.breaks.countP (fun found => found.kind = .missingSide2) =
        (side1.map fun row => row.key).dedup.length ∧
      report.matched + report.breaks.countP (fun found => found.kind = .missingSide1) =
        (side2.map fun row => row.key).dedup.length ∧
      ∀ generatedAt, (report.toDict generatedAt).breakCount = report.breaks.length ∧
        (report.toDict generatedAt).breaks <+: report.breaks ∧
        ((∀ found, Discrepancy runtime side1 side2 found →
            found ∈ (report.toDict generatedAt).breaks) ↔
          report.breaks.length ≤ writtenBreaks) := by
  obtain ⟨side1, side2, hload, -, -, -, -, rfl⟩ := runAssignment_eq_ok.mp h
  refine ⟨side1, side2, hload, fun found => mem_allBreaks, nodup_allBreaks, ?_, ?_,
    fun generatedAt => ⟨rfl, List.take_prefix _ _, ?_⟩⟩
  · rw [countP_missingSide2, length_matchedKeys]
  · rw [countP_missingSide1, ← length_matchedKeys_comm, length_matchedKeys]
  · rw [← subset_written_iff nodup_allBreaks generatedAt]
    exact forall_congr' fun found => imp_congr_left mem_allBreaks.symm

theorem runAssignment_exact_sample : ∃ report side1 side2,
    runAssignment .ascii sampleFiles sampleAssigned = .ok report ∧
    loadSides sampleFiles sampleAssigned = .ok (side1, side2) ∧
    report.matched + report.breaks.countP (fun found => found.kind = .missingSide2) =
      (side1.map fun row => row.key).dedup.length := by
  obtain ⟨report, hreport⟩ := sample_report
  obtain ⟨side1, side2, hload, -, -, hcount, -⟩ :=
    runAssignment_exact .ascii sampleFiles sampleAssigned report hreport
  exact ⟨report, side1, side2, hreport, hload, hcount⟩

/-- With the sides of the assignment exchanged, the report is the same one seen from the
other side. -/
theorem runAssignment_exchanged (runtime : Runtime) (files : String → Option (List CanonicalRow))
    (assigned : BerthAssigned) (report : Report)
    (h : runAssignment runtime files assigned = .ok report) :
    ∃ report', runAssignment runtime files (exchanged assigned) = .ok report' ∧
      report'.breaks.Perm (report.breaks.map Break.mirrored) ∧
      report' = { report with
        side1Rows := report.side2Rows
        side2Rows := report.side1Rows
        breaks := report'.breaks } := by
  obtain ⟨side1, side2, hload, hcomparable, hid, hclient, hdate, rfl⟩ := runAssignment_eq_ok.mp h
  refine ⟨_, runAssignment_eq_ok.mpr ⟨side2, side1, loadSides_exchanged hload,
    hcomparable.mirrored, hid, hclient, hdate, rfl⟩, allBreaks_mirrored side1 side2, ?_⟩
  rw [length_matchedKeys_comm]
  rfl

theorem runAssignment_exchanged_sample : ∃ report report',
    runAssignment .ascii sampleFiles sampleAssigned = .ok report ∧
    runAssignment .ascii sampleFiles (exchanged sampleAssigned) = .ok report' ∧
    report'.breaks.Perm (report.breaks.map Break.mirrored) := by
  obtain ⟨report, hreport⟩ := sample_report
  obtain ⟨report', hreport', hperm, -⟩ :=
    runAssignment_exchanged .ascii sampleFiles sampleAssigned report hreport
  exact ⟨report, report', hreport, hreport', hperm⟩

end Harbormaster.Reconstub
