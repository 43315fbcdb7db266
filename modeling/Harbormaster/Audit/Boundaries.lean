import Harbormaster.Audit.Record

/-! # The boundaries of hashed fields

The fields of a record are hashed one after the other, each ended by a separator. A
separator inside a field moves freely to a boundary next to it, so a record is told
from every other one by what is hashed exactly when none of its texts holds one.
-/

namespace Harbormaster.Audit

open Bytes

section Regrouping

variable {α : Type} {separator : α}

/-- A separator inside a part can end the part before. -/
theorem terminated_regroup (before after : List (List α)) (left middle right : List α) :
    terminated separator (before ++ left :: (middle ++ separator :: right) :: after) =
      terminated separator (before ++ (left ++ separator :: middle) :: right :: after) := by
  simp [terminated]

theorem ne_append_cons (left right : List α) : left ++ separator :: right ≠ left := by
  intro h
  have hlength := congrArg List.length h
  rw [List.length_append, List.length_cons] at hlength
  omega

end Regrouping

/-- The encodings of other records differ from that of this one. -/
def Record.Distinguished (r : Record) : Prop :=
  ∀ s : Record, r.content ≠ s.content → r.preimage ≠ s.preimage

theorem content_injective {r s : Record} (h : r.content = s.content) :
    r.hashedFields = s.hashedFields := by
  simp only [Record.content, Prod.mk.injEq, List.cons.injEq, and_true] at h
  obtain ⟨⟨hid, harrival, hcomponent, hdecision, hinputs, houtcome, hactor, hprev⟩, hat⟩ := h
  simp only [Record.hashedFields, hid, harrival, hcomponent, hdecision, hinputs, houtcome, hactor,
    hprev, hat]

/-- A record whose fields can be grouped in another way is not distinguished. -/
theorem not_distinguished {r s : Record} (before : List Bytes) {after : List Bytes}
    {left middle right : Bytes}
    (h : (r.hashedFields = before ++ left :: (middle ++ unitSeparator :: right) :: after ∧
        s.hashedFields = before ++ (left ++ unitSeparator :: middle) :: right :: after) ∨
      (r.hashedFields = before ++ (left ++ unitSeparator :: middle) :: right :: after ∧
        s.hashedFields = before ++ left :: (middle ++ unitSeparator :: right) :: after)) :
    ¬ r.Distinguished := by
  intro hdistinguished
  have hregroup := @terminated_regroup _ unitSeparator before after left middle right
  rcases h with ⟨hr, hs⟩ | ⟨hr, hs⟩
  · refine hdistinguished s (fun hcontent => ?_) ?_
    · have hfields := content_injective hcontent
      rw [hr, hs, List.append_cancel_left_eq] at hfields
      exact ne_append_cons _ _ (List.cons.inj hfields).1.symm
    · rw [Record.preimage, Record.preimage, hr, hs, hregroup]
  · refine hdistinguished s (fun hcontent => ?_) ?_
    · have hfields := content_injective hcontent
      rw [hr, hs, List.append_cancel_left_eq] at hfields
      exact ne_append_cons _ _ (List.cons.inj hfields).1
    · rw [Record.preimage, Record.preimage, hr, hs, hregroup]

/-- A separator in a text moves into the text beside it. -/
theorem not_distinguished_of_mem {r : Record} {text : Bytes} (hmem : unitSeparator ∈ text)
    (htext : text ∈ [r.recordId, r.arrivalId, r.component, r.decisionType, r.inputsJson,
      r.outcomeJson, r.actor, r.prevHash]) : ¬ r.Distinguished := by
  obtain ⟨left, right, rfl⟩ := List.append_of_mem hmem
  simp only [List.mem_cons, List.not_mem_nil, or_false] at htext
  obtain ⟨recordId, arrivalId, moment, component, decisionType, inputsJson, outcomeJson, actor,
    prevHash, recordHash⟩ := r
  dsimp only at htext
  set time := utf8 (String.ofList (Civil.rfc3339Nano moment)) with htime
  -- the first text of each run of texts gives to the next one, the others to the one before
  rcases htext with rfl | rfl | rfl | rfl | rfl | rfl | rfl | rfl
  · let s : Record := ⟨left, right ++ unitSeparator :: arrivalId, moment, component, decisionType,
      inputsJson, outcomeJson, actor, prevHash, recordHash⟩
    exact not_distinguished (s := s) [] (Or.inr ⟨rfl, rfl⟩)
  · let s : Record := ⟨recordId ++ unitSeparator :: left, right, moment, component, decisionType,
      inputsJson, outcomeJson, actor, prevHash, recordHash⟩
    exact not_distinguished (s := s) [] (Or.inl ⟨rfl, rfl⟩)
  · let s : Record := ⟨recordId, arrivalId, moment, left, right ++ unitSeparator :: decisionType,
      inputsJson, outcomeJson, actor, prevHash, recordHash⟩
    exact not_distinguished (s := s) [recordId, arrivalId, time] (Or.inr ⟨rfl, rfl⟩)
  · let s : Record := ⟨recordId, arrivalId, moment, component ++ unitSeparator :: left, right,
      inputsJson, outcomeJson, actor, prevHash, recordHash⟩
    exact not_distinguished (s := s) [recordId, arrivalId, time] (Or.inl ⟨rfl, rfl⟩)
  · let s : Record := ⟨recordId, arrivalId, moment, component,
      decisionType ++ unitSeparator :: left, right, outcomeJson, actor, prevHash, recordHash⟩
    exact not_distinguished (s := s) [recordId, arrivalId, time, component]
      (Or.inl ⟨rfl, rfl⟩)
  · let s : Record := ⟨recordId, arrivalId, moment, component, decisionType,
      inputsJson ++ unitSeparator :: left, right, actor, prevHash, recordHash⟩
    exact not_distinguished (s := s) [recordId, arrivalId, time, component,
      decisionType] (Or.inl ⟨rfl, rfl⟩)
  · let s : Record := ⟨recordId, arrivalId, moment, component, decisionType, inputsJson,
      outcomeJson ++ unitSeparator :: left, right, prevHash, recordHash⟩
    exact not_distinguished (s := s) [recordId, arrivalId, time, component,
      decisionType, inputsJson] (Or.inl ⟨rfl, rfl⟩)
  · let s : Record := ⟨recordId, arrivalId, moment, component, decisionType, inputsJson,
      outcomeJson, actor ++ unitSeparator :: left, right, recordHash⟩
    exact not_distinguished (s := s) [recordId, arrivalId, time, component,
      decisionType, inputsJson, outcomeJson] (Or.inl ⟨rfl, rfl⟩)

/-- What is hashed of a record differs from what is hashed of every record with other
contents exactly when no text of the record holds a separator. -/
theorem distinguished_iff (r : Record) :
    r.Distinguished ↔ r.Clean ∧ unitSeparator ∉ r.prevHash := by
  constructor
  · intro hdistinguished
    have htexts : ∀ text ∈ [r.recordId, r.arrivalId, r.component, r.decisionType, r.inputsJson,
        r.outcomeJson, r.actor, r.prevHash], unitSeparator ∉ text := fun text htext hmem =>
      not_distinguished_of_mem hmem htext hdistinguished
    refine ⟨fun text htext => htexts text ?_, htexts _ (by simp)⟩
    exact List.mem_append_left [r.prevHash] htext
  · rintro ⟨hclean, hprev⟩ s hcontent hpreimage
    exact hcontent (content_of_preimage hclean hprev hpreimage)

/-- A component and a decision type whose boundary a separator hides. -/
def boundaryRecord (component decisionType : Bytes) : Record where
  recordId := utf8 "01TEST00000000000000000000"
  arrivalId := utf8 "arr-1"
  at_ := 0
  component := component
  decisionType := decisionType
  inputsJson := utf8 "{}"
  outcomeJson := utf8 "{}"
  actor := utf8 "system"
  prevHash := []
  recordHash := []

theorem boundary_hidden :
    ∃ r s : Record, r.content ≠ s.content ∧ r.preimage = s.preimage := by
  refine ⟨boundaryRecord [0x61, 0x1f, 0x62] [0x63], boundaryRecord [0x61] [0x62, 0x1f, 0x63],
    fun h => ?_, ?_⟩
  · simp [Record.content, boundaryRecord] at h
  · simp [Record.preimage, Record.hashedFields, boundaryRecord, terminated, unitSeparator]

end Harbormaster.Audit
