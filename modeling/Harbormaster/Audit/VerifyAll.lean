import Harbormaster.Audit.Append
import Harbormaster.Audit.Tamper
import Mathlib.Data.List.Dedup

/-! # Verification of the whole log

`VerifyAll` walks the chain of every arrival that has a row. What it reports of an arrival is
read off the rows of that arrival alone, so that rows that were tampered with are reported
where they stand, and no chain is blamed for another one.
-/

namespace Harbormaster.Audit

open HashChain

/-- The arrivals that have a row. -/
def Log.arrivals (log : Log) : List Bytes := (log.map Record.arrivalId).dedup

/-- Every break that is found: one for each chain at most. -/
def Log.verifyAll (log : Log) : List Break := log.arrivals.filterMap log.verify

/-! ## Where a chain breaks -/

/-- The chain is linked up to the record at which the break is reported, and no further. -/
structure BreaksAt (prev : Bytes) (records : List Record) (position : Nat) (r : Record) :
    Prop where
  found : records[position]? = some r
  linked : LinkedFrom scheme prev (records.take position)
  broken : ¬ LinkedFrom scheme prev (records.take (position + 1))

theorem verifyFrom_eq_some {arrivalId prev : Bytes} {position : Nat} {records : List Record}
    {found : Break} (h : verifyFrom arrivalId position prev records = some found) :
    found.arrivalId = arrivalId ∧ ∃ offset r, found.position = position + offset ∧
      found.recordId = r.recordId ∧ BreaksAt prev records offset r := by
  induction records generalizing position prev with
  | nil => cases h
  | cons first rest ih =>
      rw [verifyFrom] at h
      split at h
      next hprev =>
        obtain rfl := Option.some.inj h
        exact ⟨rfl, 0, first, rfl, rfl, rfl, trivial, fun hlinked => hprev hlinked.1⟩
      next hprev =>
        split at h
        next hhash =>
          obtain rfl := Option.some.inj h
          exact ⟨rfl, 0, first, rfl, rfl, rfl, trivial, fun hlinked => hhash hlinked.2.1.symm⟩
        next hhash =>
          obtain ⟨harrival, offset, r, hposition, hid, hfound, hlinked, hbroken⟩ := ih h
          refine ⟨harrival, offset + 1, r, by omega, hid, hfound, ?_, ?_⟩
          · rw [List.take_succ_cons]
            exact ⟨not_not.mp hprev, (not_not.mp hhash).symm, hlinked⟩
          · rw [List.take_succ_cons]
            exact fun hwhole => hbroken hwhole.2.2

theorem linked_of_isPrefix {first records : List Record} (hfirst : first <+: records)
    (h : Linked scheme records) : Linked scheme first := by
  obtain ⟨rest, rfl⟩ := hfirst
  exact ((linkedFrom_append scheme _ _ _).mp h).1

/-! ## What is reported -/

theorem mem_arrivals {log : Log} {arrivalId : Bytes} :
    arrivalId ∈ log.arrivals ↔ log.ofArrival arrivalId ≠ [] := by
  unfold Log.arrivals Log.ofArrival
  rw [List.mem_dedup, List.mem_map, ne_eq, List.filter_eq_nil_iff]
  simp

theorem verify_arrivalId {log : Log} {arrivalId : Bytes} {found : Break}
    (h : log.verify arrivalId = some found) : found.arrivalId = arrivalId :=
  (verifyFrom_eq_some h).1

theorem mem_verifyAll {log : Log} {found : Break} : found ∈ log.verifyAll ↔
    log.ofArrival found.arrivalId ≠ [] ∧ log.verify found.arrivalId = some found := by
  rw [Log.verifyAll, List.mem_filterMap]
  constructor
  · rintro ⟨arrivalId, harrival, hverify⟩
    obtain rfl := verify_arrivalId hverify
    exact ⟨mem_arrivals.mp harrival, hverify⟩
  · rintro ⟨hrows, hverify⟩
    exact ⟨_, mem_arrivals.mpr hrows, hverify⟩

/-- No chain is reported twice. -/
theorem nodup_verifyAll (log : Log) : (log.verifyAll.map Break.arrivalId).Nodup := by
  have hsame : log.verifyAll.map Break.arrivalId =
      log.arrivals.filter fun arrivalId => (log.verify arrivalId).isSome := by
    unfold Log.verifyAll
    rw [List.map_filterMap, ← List.filterMap_eq_filter]
    refine List.filterMap_congr fun arrivalId _ => ?_
    cases hverify : log.verify arrivalId with
    | none => simp [hverify, Option.guard]
    | some found => simp [hverify, Option.guard, verify_arrivalId hverify]
  rw [hsame]
  exact (List.nodup_dedup _).filter _

theorem reported_iff {log : Log} {arrivalId : Bytes} :
    (∃ found ∈ log.verifyAll, found.arrivalId = arrivalId) ↔
      log.ofArrival arrivalId ≠ [] ∧ ¬ Linked scheme (log.read arrivalId) := by
  rw [← Log.verify_eq_none]
  constructor
  · rintro ⟨found, hfound, rfl⟩
    obtain ⟨hrows, hverify⟩ := mem_verifyAll.mp hfound
    exact ⟨hrows, by rw [hverify]; exact Option.some_ne_none found⟩
  · rintro ⟨hrows, hbroken⟩
    obtain ⟨found, hfound⟩ := Option.ne_none_iff_exists'.mp hbroken
    obtain rfl := verify_arrivalId hfound
    exact ⟨found, mem_verifyAll.mpr ⟨hrows, hfound⟩, rfl⟩

/-! ## A log that was tampered with -/

/-- A link of a chain is empty or a hash, and so holds no separator. -/
theorem not_mem_prevHash_of_linked {records : List Record} (h : Linked scheme records) {r : Record}
    (hmem : r ∈ records) : unitSeparator ∉ r.prevHash := by
  obtain ⟨before, after, rfl⟩ := List.append_of_mem hmem
  have hprev : r.prevHash = lastHash before := h.prev_eq
  have hbefore := linked_of_isPrefix (List.prefix_append before _) h
  rw [hprev]
  cases before using List.reverseRecOn with
  | nil => exact List.not_mem_nil
  | append_singleton before last =>
      have hown : last.recordHash = computeHash last := hbefore.own_eq (by simp)
      rw [lastHash, tip_concat]
      change unitSeparator ∉ last.recordHash
      rw [hown]
      exact not_mem_computeHash last

/-- As far as no two of the hashed texts collide, chains with one last hash are one chain. -/
theorem eq_of_lastHash {honest suspect : List Record} (hhonest : Linked scheme honest)
    (hclean : ∀ r ∈ honest, r.Clean) (hsuspect : Linked scheme suspect)
    (hlast : lastHash suspect = lastHash honest)
    (hcollision : ∀ r ∈ honest, ∀ s ∈ suspect,
      Sha256.digest r.preimage = Sha256.digest s.preimage → r.preimage = s.preimage) :
    suspect = honest := by
  have hsame : ∀ r ∈ honest, ∀ s ∈ suspect, computeHash r = computeHash s →
      id r = id s ∧ r.prevHash = s.prevHash := by
    intro r hr s hs hhash
    have hpreimage := hcollision r hr s hs (Bytes.hex_injective hhash)
    have hcontent := content_of_preimage (hclean r hr) (not_mem_prevHash_of_linked hhonest hr)
      hpreimage
    have hown : r.recordHash = computeHash r := hhonest.own_eq hr
    have hown' : s.recordHash = computeHash s := hsuspect.own_eq hs
    -- the preimage holds all of a record but its own hash, and that is the same one
    obtain rfl := eq_of_content hcontent (by rw [hown, hown', hhash])
    exact ⟨rfl, rfl⟩
  have hmap := hhonest.eq_of_tip hsuspect hlast.symm computeHash_ne_nil hsame
  rw [List.map_id, List.map_id] at hmap
  exact hmap.symm

theorem mem_read {log : Log} {arrivalId : Bytes} {r : Record} (h : r ∈ log.read arrivalId) :
    r ∈ log :=
  (List.mem_filter.mp ((replay_perm _).mem_iff.mp h)).1

/-- The log of a run of appends whose clock went on, and whatever has become of its rows.
Each chain is reported once at most, at a record up to which it is linked; and a chain that
is a beginning of the honest one is not reported. As far as no two hashed texts collide, a
chain that ends in the hash of the honest one is reported exactly when it is another one. -/
theorem verifyAll_tampered (calls : List AppendCall) (log : Log)
    (h : Log.appendAll [] calls = some log) (horder : calls.Pairwise InOrder)
    (hclean : ∀ r ∈ log, r.Clean) (suspect : Log) :
    (suspect.verifyAll.map Break.arrivalId).Nodup ∧
      (∀ found ∈ suspect.verifyAll,
        ¬ suspect.read found.arrivalId <+: log.read found.arrivalId ∧
        ∃ r, found.recordId = r.recordId ∧
          BreaksAt [] (suspect.read found.arrivalId) found.position r) ∧
      ((∀ r ∈ log, ∀ s ∈ suspect,
          Sha256.digest r.preimage = Sha256.digest s.preimage → r.preimage = s.preimage) →
        ∀ arrivalId, suspect.ofArrival arrivalId ≠ [] →
          lastHash (suspect.read arrivalId) = lastHash (log.read arrivalId) →
          ((∃ found ∈ suspect.verifyAll, found.arrivalId = arrivalId) ↔
            suspect.read arrivalId ≠ log.read arrivalId)) := by
  -- the clock went on, so each chain of the honest log is read in the order of its appends
  have hlinked : ∀ arrivalId, Linked scheme (log.read arrivalId) := fun arrivalId =>
    (Log.grown_appendAll h .empty).linked_replay ((inOrder_iff h).mp horder arrivalId)
  refine ⟨nodup_verifyAll suspect, fun found hfound => ?_,
    fun hcollision arrivalId hrows hlast => ?_⟩
  · obtain ⟨-, hbroken⟩ := reported_iff.mp ⟨found, hfound, rfl⟩
    refine ⟨fun hprefix => hbroken (linked_of_isPrefix hprefix (hlinked _)), ?_⟩
    obtain ⟨-, offset, r, hposition, hid, hbreak⟩ :=
      verifyFrom_eq_some (mem_verifyAll.mp hfound).2
    rw [Nat.zero_add] at hposition
    exact ⟨r, hid, hposition ▸ hbreak⟩
  · rw [reported_iff, and_iff_right hrows]
    constructor
    · intro hbroken hsame
      rw [hsame] at hbroken
      exact hbroken (hlinked arrivalId)
    · intro hother hsuspect
      exact hother (eq_of_lastHash (hlinked arrivalId)
        (fun r hr => hclean r (mem_read hr)) hsuspect hlast
        fun r hr s hs => hcollision r (mem_read hr) s (mem_read hs))

theorem read_singleton (r : Record) : Log.read [r] r.arrivalId = [r] := by
  unfold Log.read Log.ofArrival
  rw [List.filter_singleton, decide_eq_true rfl]
  rfl

def firstCall : AppendCall :=
  sampleCall "ARRIVAL_DETECTED" "01TEST00000000000000000002" (739859 * Civil.nanosPerDay)

/-- The one row of a log, and the same row under another actor. -/
def sampleRow : Record := firstCall.record []

def sampleForged : Record := { sampleRow with actor := Bytes.utf8 "operator" }

/-- The row is reported, since its hash has stayed. -/
theorem verifyAll_tampered_actor :
    Log.appendAll [] [firstCall] = some [sampleRow] ∧
      ∃ found ∈ Log.verifyAll [sampleForged], found.arrivalId = sampleForged.arrivalId := by
  have hrun : Log.appendAll [] [firstCall] = some [sampleRow] := rfl
  have hclean : ∀ r ∈ [sampleRow], r.Clean := by
    unfold Record.Clean
    decide +kernel
  have hdiffer : Sha256.digest sampleRow.preimage ≠ Sha256.digest sampleForged.preimage := by
    decide +kernel
  have hactor : sampleForged.actor ≠ sampleRow.actor := by decide +kernel
  refine ⟨hrun, ?_⟩
  obtain ⟨-, -, htampered⟩ := verifyAll_tampered _ _ hrun (List.pairwise_singleton _ _) hclean
    [sampleForged]
  have hreported := htampered fun r hr s hs hdigest => by
    rw [List.mem_singleton.mp hr, List.mem_singleton.mp hs] at hdigest
    exact absurd hdigest hdiffer
  have hread : Log.read [sampleRow] sampleForged.arrivalId = [sampleRow] :=
    read_singleton sampleRow
  rw [hreported sampleForged.arrivalId, read_singleton, hread]
  · exact fun hsame => hactor (congrArg Record.actor (List.singleton_inj.mp hsame))
  · rw [← mem_arrivals, Log.arrivals, List.mem_dedup]
    exact List.mem_cons_self
  · rw [read_singleton, hread]
    rfl

end Harbormaster.Audit
