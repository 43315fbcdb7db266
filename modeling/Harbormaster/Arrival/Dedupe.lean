import Harbormaster.Calendar
import Mathlib.Data.List.Sort

/-! # Recognising content that was seen before

The arrival table and `SQLDeduper` of `go/internal/arrival`. The table accepts
one row for each pair of a content hash and a file name; the verdict on an
arrival is read off the rows that hold its hash.
-/

namespace Harbormaster.Arrival

inductive Verdict where
  | new | duplicate | redelivery
deriving DecidableEq, Repr

def Verdict.text : Verdict → String
  | .new => "NEW"
  | .duplicate => "DUPLICATE"
  | .redelivery => "REDELIVERY"

/-- The outcome of a dedupe check. -/
structure Decision where
  verdict : Verdict
  priorArrivalId : String := ""
  priorName : String := ""
  seenCount : Int
deriving DecidableEq, Repr

/-- Both duplicate classes stop here; only the reason differs. -/
def Decision.suppress (decision : Decision) : Bool :=
  decision.verdict = .duplicate || decision.verdict = .redelivery

/-- The durable row written for every arrival. -/
structure Record where
  arrivalId : String
  sha256 : String
  originalName : String
  ingress : String
  uri : String
  size : Int
  detectedAt : Instant
deriving DecidableEq, Repr

/-! ## The verdict -/

/-- The variables of the loop over the rows found. -/
structure Tally where
  firstId : String := ""
  firstName : String := ""
  count : Nat := 0
  sameNameSeen : Bool := false

def Tally.add (originalName : String) (tally : Tally) (row : Record) : Tally where
  firstId := if tally.count = 0 then row.arrivalId else tally.firstId
  firstName := if tally.count = 0 then row.originalName else tally.firstName
  count := tally.count + 1
  sameNameSeen := tally.sameNameSeen || row.originalName = originalName

def Tally.decide (tally : Tally) : Decision :=
  if tally.count = 0 then { verdict := .new, seenCount := 1 }
  else if tally.sameNameSeen then
    { verdict := .duplicate, priorArrivalId := tally.firstId, priorName := tally.firstName,
      seenCount := tally.count + 1 }
  else
    { verdict := .redelivery, priorArrivalId := tally.firstId, priorName := tally.firstName,
      seenCount := tally.count + 1 }

/-- The decision on a name, from the rows that hold its content. -/
def classify (originalName : String) (rows : List Record) : Decision :=
  (rows.foldl (Tally.add originalName) {}).decide

theorem count_foldl_add (originalName : String) (rows : List Record) (tally : Tally) :
    (rows.foldl (Tally.add originalName) tally).count = tally.count + rows.length := by
  induction rows generalizing tally with
  | nil => rfl
  | cons row rest ih =>
      rw [List.foldl_cons, ih, List.length_cons]
      exact Nat.add_right_comm _ 1 _

/-- Content is new exactly when no row holds it. -/
theorem suppress_classify (originalName : String) (rows : List Record) :
    (classify originalName rows).suppress = true ↔ rows ≠ [] := by
  have hcount := count_foldl_add originalName rows {}
  simp only [Nat.zero_add] at hcount
  rw [← List.length_pos_iff, ← hcount]
  unfold classify Tally.decide
  split
  next hzero => simp [Decision.suppress, hzero]
  next hpos =>
    have hpos := Nat.pos_of_ne_zero hpos
    split
    · simp [Decision.suppress, hpos]
    · simp [Decision.suppress, hpos]

/-! ## The arrival table -/

/-- The rows of a content hash, by the time of detection. Rows of one time come
in the order in which the table is read, which `arrange` chooses. -/
def selectBySha (arrange : List Record → List Record) (rows : List Record) (sha256 : String) :
    List Record :=
  (arrange (rows.filter fun row => row.sha256 = sha256)).insertionSort
    fun row row' => row.detectedAt ≤ row'.detectedAt

/-- `INSERT ... ON CONFLICT ON CONSTRAINT arrival_content_name_uniq DO NOTHING`:
the table and the number of rows affected. An arrival id that is taken already
violates the primary key. -/
def insertRow (rows : List Record) (row : Record) : Option (List Record × Nat) :=
  if rows.any fun stored =>
      stored.sha256 = row.sha256 && stored.originalName = row.originalName then some (rows, 0)
  else if rows.any fun stored => stored.arrivalId = row.arrivalId then none
  else some (rows ++ [row], 1)

theorem selectBySha_eq_nil {arrange : List Record → List Record}
    (harrange : ∀ rows, (arrange rows).Perm rows) (rows : List Record) (sha256 : String) :
    selectBySha arrange rows sha256 = [] ↔ ∀ row ∈ rows, row.sha256 ≠ sha256 := by
  have hperm : (selectBySha arrange rows sha256).Perm
      (rows.filter fun row => row.sha256 = sha256) :=
    (List.perm_insertionSort _ _).trans (harrange _)
  rw [← List.length_eq_zero_iff, hperm.length_eq, List.length_eq_zero_iff,
    List.filter_eq_nil_iff]
  simp only [decide_eq_true_eq]

/-- An insertion adds the row at the end, or finds its content and name taken. -/
theorem insertRow_eq_some {rows rows' : List Record} {row : Record} {affected : Nat}
    (h : insertRow rows row = some (rows', affected)) :
    (affected = 0 ∧ rows' = rows ∧ ∃ stored ∈ rows,
      stored.sha256 = row.sha256 ∧ stored.originalName = row.originalName) ∨
    (affected = 1 ∧ rows' = rows ++ [row] ∧ ∀ stored ∈ rows,
      stored.sha256 = row.sha256 → stored.originalName ≠ row.originalName) := by
  unfold insertRow at h
  split at h
  next htaken =>
    cases h
    obtain ⟨stored, hstored, hsame⟩ := List.any_eq_true.mp htaken
    simp only [Bool.and_eq_true, decide_eq_true_eq] at hsame
    exact .inl ⟨rfl, rfl, stored, hstored, hsame⟩
  next hfree =>
    split at h
    next => cases h
    next =>
      cases h
      refine .inr ⟨rfl, rfl, fun stored hstored hsha hname => hfree ?_⟩
      rw [List.any_eq_true]
      exact ⟨stored, hstored, by simp [hsha, hname]⟩

end Harbormaster.Arrival
