import Harbormaster.Audit.Record

/-! # Tamper evidence

A chain that verifies and ends in the hash of an honest chain is that chain.
-/

namespace Harbormaster.Audit

open HashChain

/-- The hash the next record is linked to. -/
def lastHash (records : List Record) : Bytes := tip scheme records

/-- A chain built record by record. -/
inductive Built : List Record → Prop
  | empty : Built []
  | append {records : List Record} {r : Record} (h : Built records)
      (hprev : r.prevHash = lastHash records) (hhash : r.recordHash = computeHash r) :
      Built (records ++ [r])

theorem Built.linked {records : List Record} (h : Built records) : Linked scheme records := by
  induction h with
  | empty => trivial
  | append _ hprev hhash ih => exact (linked_concat scheme).mpr ⟨ih, hprev, hhash⟩

/-- A link of a built chain is empty or a hash, and so holds no separator. -/
theorem Built.not_mem_prevHash {records : List Record} (h : Built records) {r : Record}
    (hmem : r ∈ records) : unitSeparator ∉ r.prevHash := by
  have hhashes : ∀ {records}, Built records → unitSeparator ∉ lastHash records := by
    intro records hbuilt
    cases hbuilt with
    | empty => exact List.not_mem_nil
    | append hbuilt hprev hhash =>
        rw [lastHash, tip_concat]
        change unitSeparator ∉ Record.recordHash _
        rw [hhash]
        exact not_mem_computeHash _
  induction h with
  | empty => cases hmem
  | append hbuilt hprev _ ih =>
      rcases List.mem_append.mp hmem with hold | hnew
      · exact ih hold
      · rw [List.mem_singleton.mp hnew, hprev]
        exact hhashes hbuilt

/-- As far as the hash function has no collision on what the two chains hash, a
list of records that verifies and ends in the hash of an honest chain is that
chain, whatever its fields hold. -/
theorem tamper_evident {honest suspect : List Record} (arrivalId : Bytes) (hbuilt : Built honest)
    (hclean : ∀ r ∈ honest, r.Clean) (hhonest : honest ≠ []) (hsuspect : suspect ≠ [])
    (hverified : verifyRecords arrivalId suspect = none)
    (hlast : (suspect.getLast hsuspect).recordHash = (honest.getLast hhonest).recordHash)
    (hcollision : ∀ r ∈ honest ++ suspect, ∀ s ∈ honest ++ suspect,
      Sha256.digest r.preimage = Sha256.digest s.preimage → r.preimage = s.preimage) :
    suspect = honest := by
  have hlinked := verifyRecords_eq_none.mp hverified
  have htip : tip scheme honest = tip scheme suspect := by
    rw [tip, tip, List.getLast?_eq_some_getLast hhonest, List.getLast?_eq_some_getLast hsuspect]
    exact hlast.symm
  have hsame : ∀ r ∈ honest, ∀ s ∈ suspect, computeHash r = computeHash s →
      id r = id s ∧ r.prevHash = s.prevHash := by
    intro r hr s hs hhash
    have hpreimage := hcollision r (List.mem_append_left _ hr) s (List.mem_append_right _ hs)
      (Bytes.hex_injective hhash)
    have hcontent := content_of_preimage (hclean r hr) (hbuilt.not_mem_prevHash hr) hpreimage
    have hown : r.recordHash = computeHash r := hbuilt.linked.own_eq hr
    have hown' : s.recordHash = computeHash s := hlinked.own_eq hs
    obtain rfl := eq_of_content hcontent (by rw [hown, hown', hhash])
    exact ⟨rfl, rfl⟩
  have hmap := hbuilt.linked.eq_of_tip hlinked htip computeHash_ne_nil hsame
  rw [List.map_id, List.map_id] at hmap
  exact hmap.symm

/-- A record with its hash. -/
def Record.seal (r : Record) : Record := { r with recordHash := computeHash r }

theorem Record.seal_hash (r : Record) : r.seal.recordHash = computeHash r.seal := rfl

/-- The first of two decisions about one arrival. -/
def sampleDetected : Record :=
  Record.seal {
    recordId := Bytes.utf8 "01TEST00000000000000000000"
    arrivalId := Bytes.utf8 "arr-1"
    at_ := 739859 * Civil.nanosPerDay
    component := Bytes.utf8 "portwatch"
    decisionType := Bytes.utf8 "ARRIVAL_DETECTED"
    inputsJson := Bytes.utf8 "{}"
    outcomeJson := Bytes.utf8 "{}"
    actor := Bytes.utf8 "system"
    prevHash := []
    recordHash := [] }

def sampleClassified : Record :=
  Record.seal { sampleDetected with
    recordId := Bytes.utf8 "01TEST00000000000000000001"
    decisionType := Bytes.utf8 "CLASSIFIED"
    prevHash := sampleDetected.recordHash }

theorem tamper_evident_two :
    verifyRecords (Bytes.utf8 "arr-1") [sampleDetected, sampleClassified] = none ∧
      [sampleDetected, sampleClassified] = [sampleDetected] ++ [sampleClassified] := by
  have hfirst : Built ([] ++ [sampleDetected]) := .append .empty rfl (Record.seal_hash _)
  have hbuilt : Built ([sampleDetected] ++ [sampleClassified]) := by
    refine .append hfirst ?_ (Record.seal_hash _)
    rw [lastHash, tip, List.getLast?_singleton]
    rfl
  have hverified : verifyRecords (Bytes.utf8 "arr-1") [sampleDetected, sampleClassified] = none :=
    verifyRecords_eq_none.mpr hbuilt.linked
  have hclean : ∀ r ∈ [sampleDetected] ++ [sampleClassified], r.Clean := by
    unfold Record.Clean
    decide +kernel
  have hdiffer : Sha256.digest sampleDetected.preimage ≠
      Sha256.digest sampleClassified.preimage := by decide +kernel
  refine ⟨hverified, tamper_evident _ hbuilt hclean (by simp) (by simp) hverified rfl ?_⟩
  intro r hr s hs hdigest
  have htwo : ∀ r ∈ [sampleDetected] ++ [sampleClassified] ++ [sampleDetected, sampleClassified],
      r = sampleDetected ∨ r = sampleClassified := by simp
  rcases htwo r hr with rfl | rfl
  · rcases htwo s hs with rfl | rfl
    · rfl
    · exact absurd hdigest hdiffer
  · rcases htwo s hs with rfl | rfl
    · exact absurd hdigest.symm hdiffer
    · rfl

end Harbormaster.Audit
