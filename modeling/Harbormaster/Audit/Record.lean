import Harbormaster.Foundation.HashChain
import Harbormaster.Foundation.Sha256
import Harbormaster.Foundation.Timestamp

/-! # Audit records

The records of `go/internal/audit`, the hash that covers them and the walk that
verifies a chain. Texts are byte strings, and a moment is an instant in UTC, in
nanoseconds from the start of day 0.
-/

namespace Harbormaster.Audit

open Bytes

/-- A persisted audit entry. -/
structure Record where
  recordId : Bytes
  arrivalId : Bytes
  at_ : Int
  component : Bytes
  decisionType : Bytes
  inputsJson : Bytes
  outcomeJson : Bytes
  actor : Bytes
  prevHash : Bytes
  recordHash : Bytes
deriving DecidableEq

/-- The unit separator. -/
def unitSeparator : UInt8 := 0x1f

/-- The fields a hash covers, in the order in which they are written. -/
def Record.hashedFields (r : Record) : List Bytes :=
  [r.recordId, r.arrivalId, utf8 (String.ofList (Civil.rfc3339Nano r.at_)), r.component,
    r.decisionType, r.inputsJson, r.outcomeJson, r.actor, r.prevHash]

/-- What is written to the hash function. -/
def Record.preimage (r : Record) : Bytes := terminated unitSeparator r.hashedFields

/-- A record's hash from its content and its predecessor. -/
def computeHash (r : Record) : Bytes := hex (Sha256.digest r.preimage)

/-- The first point at which a chain fails verification. -/
structure Break where
  arrivalId : Bytes
  recordId : Bytes
  reason : String
  position : Nat
deriving DecidableEq

/-- Walk a loaded chain, in order, from a position and the hash before it. -/
def verifyFrom (arrivalId : Bytes) : Nat → Bytes → List Record → Option Break
  | _, _, [] => none
  | position, prev, r :: rest =>
      if r.prevHash ≠ prev then
        some ⟨arrivalId, r.recordId, "prev_hash does not match the preceding record", position⟩
      else if computeHash r ≠ r.recordHash then
        some ⟨arrivalId, r.recordId, "record_hash does not match the record contents", position⟩
      else verifyFrom arrivalId (position + 1) r.recordHash rest

/-- The first break of a chain, if there is one. -/
def verifyRecords (arrivalId : Bytes) (records : List Record) : Option Break :=
  verifyFrom arrivalId 0 [] records

/-! ## Audit chains as hash chains -/

/-- How audit records are linked. -/
def scheme : HashChain.Scheme Record Bytes where
  prev := Record.prevHash
  own := Record.recordHash
  digest := computeHash
  origin := []

theorem verifyFrom_eq_none {arrivalId prev : Bytes} {position : Nat} {records : List Record} :
    verifyFrom arrivalId position prev records = none ↔
      HashChain.LinkedFrom scheme prev records := by
  induction records generalizing position prev with
  | nil => simp [verifyFrom, HashChain.LinkedFrom]
  | cons r rest ih =>
      rw [verifyFrom, HashChain.LinkedFrom]
      by_cases hprev : r.prevHash = prev
      · by_cases hhash : computeHash r = r.recordHash
        · simp [hprev, hhash, ih, scheme]
        · simp [hprev, hhash, scheme, Ne.symm hhash]
      · simp [hprev, scheme]

theorem verifyRecords_eq_none {arrivalId : Bytes} {records : List Record} :
    verifyRecords arrivalId records = none ↔ HashChain.Linked scheme records :=
  verifyFrom_eq_none

theorem computeHash_length (r : Record) : (computeHash r).length = 64 := by
  rw [computeHash, hex_length, Sha256.digest_length]

theorem computeHash_ne_nil (r : Record) : computeHash r ≠ [] := by
  intro hnil
  have hlength := computeHash_length r
  rw [hnil] at hlength
  cases hlength

/-- A hash holds no separator. -/
theorem not_mem_computeHash (r : Record) : unitSeparator ∉ computeHash r := fun hmem =>
  absurd (le_of_mem_hex hmem) (by decide)

theorem not_mem_timestamp (moment : Int) :
    unitSeparator ∉ utf8 (String.ofList (Civil.rfc3339Nano moment)) := fun hmem =>
  absurd (le_of_mem_plain (Civil.plain_rfc3339Nano moment) hmem) (by decide)

/-! ## What a hash covers -/

/-- The texts of a record that its writer chooses hold no separator. -/
def Record.Clean (r : Record) : Prop :=
  ∀ text ∈ [r.recordId, r.arrivalId, r.component, r.decisionType, r.inputsJson, r.outcomeJson,
    r.actor], unitSeparator ∉ text

/-- The fields of a record that its hash covers. -/
def Record.content (r : Record) : List Bytes × Int :=
  ([r.recordId, r.arrivalId, r.component, r.decisionType, r.inputsJson, r.outcomeJson, r.actor,
    r.prevHash], r.at_)

theorem content_of_hashedFields {r s : Record} (h : r.hashedFields = s.hashedFields) :
    r.content = s.content := by
  simp only [Record.hashedFields, List.cons.injEq, and_true] at h
  obtain ⟨hid, harrival, hat, hcomponent, hdecision, hinputs, houtcome, hactor, hprev⟩ := h
  have hmoment := Civil.rfc3339Nano_injective (utf8_plain_injective
    (Civil.plain_rfc3339Nano r.at_) (Civil.plain_rfc3339Nano s.at_) hat)
  simp only [Record.content, hid, harrival, hmoment, hcomponent, hdecision, hinputs, houtcome,
    hactor, hprev]

theorem eq_of_content {r s : Record} (h : r.content = s.content)
    (hhash : r.recordHash = s.recordHash) : r = s := by
  obtain ⟨⟩ := r
  obtain ⟨⟩ := s
  simp only [Record.content, Prod.mk.injEq, List.cons.injEq, and_true] at h
  obtain ⟨⟨rfl, rfl, rfl, rfl, rfl, rfl, rfl, rfl⟩, rfl⟩ := h
  obtain rfl := hhash
  rfl

/-- A record without separators in its texts is determined by what is hashed, even
beside records that hold some. -/
theorem content_of_preimage {r s : Record} (hclean : r.Clean)
    (hprev : unitSeparator ∉ r.prevHash) (h : r.preimage = s.preimage) :
    r.content = s.content := by
  have hparts : ∀ part ∈ r.hashedFields, unitSeparator ∉ part := by
    intro part hpart
    simp only [Record.hashedFields, List.mem_cons, List.not_mem_nil, or_false] at hpart
    unfold Record.Clean at hclean
    rcases hpart with rfl | rfl | rfl | rfl | rfl | rfl | rfl | rfl | rfl
    · exact hclean _ (by simp)
    · exact hclean _ (by simp)
    · exact not_mem_timestamp r.at_
    · exact hclean _ (by simp)
    · exact hclean _ (by simp)
    · exact hclean _ (by simp)
    · exact hclean _ (by simp)
    · exact hclean _ (by simp)
    · exact hprev
  have hlength : r.hashedFields.length = s.hashedFields.length := by
    simp [Record.hashedFields]
  exact content_of_hashedFields (eq_of_terminated_of_length hparts hlength h)

end Harbormaster.Audit
