import Harbormaster.Audit.Record
import Harbormaster.Contract
import Mathlib.Data.Int.Order.Basic
import Mathlib.Data.List.Lex
import Mathlib.Data.Prod.Lex

/-! # Appending to the audit log

`Append`, `Read` and `Verify` of `go/internal/audit` over the rows of
`audit_record`. An append reads the hash of the latest record of its arrival and
inserts the next record in one serializable transaction, so appends follow one
another; the clock and the fresh id of each are its service's own.
-/

namespace Harbormaster.Audit

open Bytes

/-! ## Inputs and outcomes as JSON -/

/-- A character of a JSON string, with what the encoder escapes. -/
def jsonChar (c : Char) : List Char :=
  let escaped := '\\' :: 'u' :: ([c.toNat / 4096, c.toNat / 256 % 16, c.toNat / 16 % 16,
    c.toNat % 16].map Nat.digitChar)
  if c = '"' ∨ c = '\\' then ['\\', c]
  else if c.toNat = 8 then ['\\', 'b']
  else if c.toNat = 12 then ['\\', 'f']
  else if c = '\n' then ['\\', 'n']
  else if c = '\r' then ['\\', 'r']
  else if c = '\t' then ['\\', 't']
  else if c.toNat < 32 ∨ c ∈ ['<', '>', '&'] ∨ c.toNat = 0x2028 ∨ c.toNat = 0x2029 then escaped
  else [c]

def jsonString (text : String) : List Char := '"' :: text.toList.flatMap jsonChar ++ ['"']

def jsonValue : AuditValue → List Char
  | .text value => jsonString value
  | .flag value => (toString value).toList
  | .number value => (toString value).toList
  | .instant value => jsonString (String.ofList
      (Civil.rfc3339Nano (value / 1000000 * Civil.nanosPerSecond)))

/-- The object of a map, by ascending key. -/
def marshal (map : List (String × AuditValue)) : Bytes :=
  let members := (map.insertionSort fun a b => a.1 ≤ b.1).map fun (key, value) =>
    jsonString key ++ ':' :: jsonValue value
  utf8 (String.ofList ('{' :: [','].intercalate members ++ ['}']))

/-! ## The log -/

/-- The rows of `audit_record`, oldest first. -/
abbrev Log := List Record

/-- The position of a row in `ORDER BY at, record_id`. -/
def Record.position (r : Record) : ℤ ×ₗ List ℕ := toLex (r.at_, r.recordId.map UInt8.toNat)

def Log.ofArrival (log : Log) (arrivalId : Bytes) : Log :=
  log.filter fun r => r.arrivalId = arrivalId

/-- The chain of one arrival, by ascending position. -/
def Log.read (log : Log) (arrivalId : Bytes) : List Record :=
  HashChain.replay Record.position (log.ofArrival arrivalId)

/-- The hash of the first row by descending position; none is the empty text. -/
def Log.prevHash (log : Log) (arrivalId : Bytes) : Bytes :=
  ((HashChain.latest Record.position (log.ofArrival arrivalId)).map Record.recordHash).getD []

def Log.verify (log : Log) (arrivalId : Bytes) : Option Break :=
  verifyRecords arrivalId (log.read arrivalId)

/-- A moment cut to microseconds. -/
def truncateMicrosecond (moment : Int) : Int := moment - moment % 1000

/-- One call of `Append`: the entry, the reading of the service's clock in
nanoseconds, and the fresh id. -/
structure AppendCall where
  entry : AuditEntry
  now : Int
  id : Ulid
deriving DecidableEq

namespace AppendCall

variable (call : AppendCall)

def arrivalId : Bytes := utf8 call.entry.arrivalId

/-- The record a call writes after a given hash. -/
def record (prevHash : Bytes) : Record :=
  let unsealed : Record := {
    recordId := utf8 call.id.text
    arrivalId := call.arrivalId
    at_ := truncateMicrosecond call.now
    component := utf8 call.entry.component
    decisionType := utf8 call.entry.decisionType
    inputsJson := marshal call.entry.inputs
    outcomeJson := marshal call.entry.outcome
    actor := utf8 (if call.entry.actor = "" then "system" else call.entry.actor)
    prevHash := prevHash
    recordHash := [] }
  { unsealed with recordHash := computeHash unsealed }

/-- Where the record of a call stands among those of its arrival. -/
def position : ℤ ×ₗ List ℕ :=
  toLex (truncateMicrosecond call.now, (utf8 call.id.text).map UInt8.toNat)

end AppendCall

/-- Write one entry, linked to the latest record of its arrival. An id that the
table holds already is refused. -/
def Log.append (log : Log) (call : AppendCall) : Option Log :=
  if utf8 call.id.text ∈ log.map Record.recordId then none
  else some (log ++ [call.record (log.prevHash call.arrivalId)])

/-- A sequence of successful appends. -/
def Log.appendAll (log : Log) (calls : List AppendCall) : Option Log :=
  calls.foldlM Log.append log

/-! ## What a run of appends leaves -/

theorem Log.append_eq_some {log log' : Log} {call : AppendCall} (h : log.append call = some log') :
    log' = log ++ [call.record (log.prevHash call.arrivalId)] ∧
      ∀ other ∈ log, other.recordId ≠ utf8 call.id.text := by
  unfold Log.append at h
  split at h
  next => cases h
  next hfresh =>
    refine ⟨(Option.some.inj h).symm, ?_⟩
    intro other hother hsame
    exact hfresh (List.mem_map.mpr ⟨other, hother, hsame⟩)

theorem recordId_of_position {r s : Record} (h : r.position = s.position) :
    r.recordId = s.recordId := by
  have hids := congrArg (fun position => (ofLex position).2) h
  exact List.map_injective_iff.mpr (fun _ _ => UInt8.toNat_inj.mp) hids

/-- One append extends the chain of its arrival and leaves the others. -/
theorem Log.grown_append {log log' : Log} {call : AppendCall} (h : log.append call = some log')
    {arrivalId : Bytes}
    (hgrown : HashChain.Grown scheme Record.position (log.ofArrival arrivalId)) :
    HashChain.Grown scheme Record.position (log'.ofArrival arrivalId) := by
  obtain ⟨rfl, hfresh⟩ := Log.append_eq_some h
  unfold Log.ofArrival at hgrown ⊢
  have hrecord : (call.record (log.prevHash call.arrivalId)).arrivalId = call.arrivalId := rfl
  rw [List.filter_append, List.filter_singleton, hrecord]
  by_cases harrival : call.arrivalId = arrivalId
  · rw [decide_eq_true harrival, cond_true]
    apply hgrown.append
    · intro other hother hsame
      exact hfresh other (List.mem_filter.mp hother).1 (recordId_of_position hsame)
    · rw [← harrival]
      rfl
    · rfl
  · rw [decide_eq_false harrival, cond_false, List.append_nil]
    exact hgrown

theorem Log.grown_appendAll {log log' : Log} {calls : List AppendCall}
    (h : log.appendAll calls = some log') {arrivalId : Bytes}
    (hgrown : HashChain.Grown scheme Record.position (log.ofArrival arrivalId)) :
    HashChain.Grown scheme Record.position (log'.ofArrival arrivalId) := by
  induction calls generalizing log with
  | nil =>
      cases h
      exact hgrown
  | cons call rest ih =>
      obtain ⟨next, hnext, hrest⟩ := Option.bind_eq_some_iff.mp h
      exact ih hrest (Log.grown_append hnext hgrown)

/-- The rows stand in the order of the calls that wrote them. -/
theorem Log.positions_appendAll {log log' : Log} {calls : List AppendCall}
    (h : log.appendAll calls = some log') :
    log'.map (fun r => (r.arrivalId, r.position)) =
      log.map (fun r => (r.arrivalId, r.position)) ++
        calls.map fun call => (call.arrivalId, call.position) := by
  induction calls generalizing log with
  | nil =>
      cases h
      rw [List.map_nil, List.append_nil]
  | cons call rest ih =>
      obtain ⟨next, hnext, hrest⟩ := Option.bind_eq_some_iff.mp h
      obtain ⟨rfl, _⟩ := Log.append_eq_some hnext
      rw [ih hrest, List.map_append, List.append_assoc]
      rfl

/-- A later call stands behind an earlier one of its arrival. -/
def InOrder (earlier later : AppendCall) : Prop :=
  earlier.arrivalId = later.arrivalId → earlier.position < later.position

theorem inOrder_iff {log : Log} {calls : List AppendCall}
    (h : Log.appendAll [] calls = some log) :
    calls.Pairwise InOrder ↔ ∀ arrivalId,
      (log.ofArrival arrivalId).Pairwise fun r s => r.position < s.position := by
  have hcalls : calls.Pairwise InOrder ↔
      (calls.map fun call => (call.arrivalId, call.position)).Pairwise
        fun a b => a.1 = b.1 → a.2 < b.2 := by
    rw [List.pairwise_map]
    rfl
  have hpositions := Log.positions_appendAll h
  rw [List.map_nil, List.nil_append] at hpositions
  rw [hcalls, ← hpositions, List.pairwise_map]
  unfold Log.ofArrival
  constructor
  · intro hall arrivalId
    rw [List.pairwise_filter]
    apply hall.imp
    intro r s hrs hr hs
    exact hrs ((of_decide_eq_true hr).trans (of_decide_eq_true hs).symm)
  · intro hall
    apply List.pairwise_iff_forall_sublist.mpr
    intro r s hsublist hsame
    have hpair := List.pairwise_filter.mp (hall r.arrivalId)
    exact List.pairwise_iff_forall_sublist.mp hpair hsublist (decide_eq_true rfl)
      (decide_eq_true hsame.symm)

theorem Log.verify_eq_none {log : Log} {arrivalId : Bytes} :
    log.verify arrivalId = none ↔ HashChain.Linked scheme (log.read arrivalId) :=
  verifyRecords_eq_none

/-- A run whose records of each arrival ascend in `(at, record_id)` verifies, and
so far as no two records have one hash, no other run does. -/
theorem verify_appendAll {log : Log} {calls : List AppendCall}
    (h : Log.appendAll [] calls = some log) :
    (calls.Pairwise InOrder → ∀ arrivalId, log.verify arrivalId = none) ∧
      ((log.map Record.recordHash).Nodup → (∀ arrivalId, log.verify arrivalId = none) →
        calls.Pairwise InOrder) := by
  have hgrown : ∀ arrivalId,
      HashChain.Grown scheme Record.position (log.ofArrival arrivalId) :=
    fun _ => Log.grown_appendAll h .empty
  simp only [Log.verify_eq_none, inOrder_iff h]
  constructor
  · intro hascending arrivalId
    exact (hgrown arrivalId).linked_replay (hascending arrivalId)
  · intro hdistinct hverified arrivalId
    apply (hgrown arrivalId).ascending computeHash_ne_nil _ (hverified arrivalId)
    exact hdistinct.sublist (List.filter_sublist.map _)

/-- A decision of the portwatch about one arrival. -/
def sampleCall (decisionType id : String) (now : Int) (h : id.length = 26 := by decide) :
    AppendCall where
  entry := {
    arrivalId := "arr-1", component := "portwatch", decisionType := decisionType
    inputs := [("file", .text "statement.csv")], outcome := [("seen_count", .number 1)] }
  now := now
  id := ⟨id, h⟩

/-- The clock of the second call has gone on by a microsecond. -/
def steadyCalls : List AppendCall :=
  [sampleCall "ARRIVAL_DETECTED" "01TEST00000000000000000001" (739859 * Civil.nanosPerDay),
    sampleCall "SLOT_UPDATED" "01TEST00000000000000000000" (739859 * Civil.nanosPerDay + 1000)]

/-- The clock of the second call stands a second before the first. -/
def steppingCalls : List AppendCall :=
  [sampleCall "ARRIVAL_DETECTED" "01TEST00000000000000000000" (739859 * Civil.nanosPerDay),
    sampleCall "SLOT_UPDATED" "01TEST00000000000000000001"
      (739859 * Civil.nanosPerDay - Civil.nanosPerSecond)]

theorem verify_appendAll_steady :
    ∃ log, Log.appendAll [] steadyCalls = some log ∧ log.verify (utf8 "arr-1") = none := by
  have hrun : (Log.appendAll [] steadyCalls).isSome := by decide +kernel
  obtain ⟨log, hlog⟩ := Option.isSome_iff_exists.mp hrun
  refine ⟨log, hlog, (verify_appendAll hlog).1 ?_ _⟩
  unfold InOrder
  decide +kernel

/-- The second record is read first, and its link does not match. -/
theorem verify_stepping_clock :
    ∃ log, Log.appendAll [] steppingCalls = some log ∧
      log.verify (utf8 "arr-1") = some ⟨utf8 "arr-1", utf8 "01TEST00000000000000000001",
        "prev_hash does not match the preceding record", 0⟩ := by
  have hrun : (Log.appendAll [] steppingCalls).map (fun log => log.verify (utf8 "arr-1")) =
      some (some ⟨utf8 "arr-1", utf8 "01TEST00000000000000000001",
        "prev_hash does not match the preceding record", 0⟩) := by decide +kernel
  exact Option.map_eq_some_iff.mp hrun

end Harbormaster.Audit
