import Harbormaster.Arrival.Processor
import Harbormaster.Foundation.Replacement
import Harbormaster.Foundation.Utf8
import Harbormaster.Store.ObjectStore

/-! # Payloads from the queue

`QueueConsumer` of `go/internal/ingress`. A message is staged as a file and then handled
like a file that landed; its name comes from an upstream system. Decoding the envelope is
a parameter: nothing depends on what it finds.
-/

namespace Harbormaster.Arrival

open Effect Program FileSystem SlashPath

inductive StagingFailure where
  | stagingDir (dir : String)
  | stage (name : String)
deriving DecidableEq, Repr

/-- `WriteStaged`. -/
def writeStaged (dir name : String) (payload : Bytes) : Files StagingFailure String := do
  let _ ← ask (FileCall.mkdirAll (Bytes.utf8 dir)) >>= orFail (.stagingDir dir)
  let path := String.ofList (joined dir.toList (base name.toList))
  let _ ← ask (FileCall.writeFile (Bytes.utf8 path) payload) >>= orFail (.stage name)
  return path

end Harbormaster.Arrival

namespace Harbormaster.Ingress

open Effect Program FileSystem SlashPath Alphabet Replacement Bytes

/-- What an upstream message carries. -/
structure Envelope where
  messageId : Bytes
  source : Bytes

structure Message where
  topic : Bytes
  value : Bytes
  partition : Int
  offset : Int

structure QueueConsumer where
  stagingDir : String

/-- The characters that a name keeps. -/
def fileChar (c : Char) : Bool := c.isAlphanum || c = '.' || c = '-' || c = '_'

def sanitize (name : Bytes) : String :=
  String.ofList (replaceAll ['.', '.'] ['_']
    ((Utf8.runes name).map fun r => if fileChar r then r else '_'))

section Names

variable (unmarshal : Bytes → Option Envelope)

/-- The name of a message: that of its envelope, or else its place on the broker. -/
def filename (m : Message) : String :=
  let coordinates := sanitize (m.topic ++ utf8 "_p" ++ utf8 (toString m.partition) ++
    utf8 "_o" ++ utf8 (toString m.offset) ++ utf8 ".json")
  match unmarshal m.value with
  | some env =>
      if env.messageId = [] then coordinates
      else
        let source := if env.source = [] then utf8 "queue" else env.source
        sanitize (source ++ utf8 "_" ++ env.messageId ++ utf8 ".json")
  | none => coordinates

end Names

def QueueConsumer.dir (q : QueueConsumer) : String :=
  if q.stagingDir = "" then "/tmp/hm-queue" else q.stagingDir

/-- Write the payload to a file, so that it can be handled as a landed one. -/
def QueueConsumer.stage (q : QueueConsumer) (name : String) (payload : Bytes)
    (now : Instant) : Files Arrival.StagingFailure Arrival.Candidate := do
  let path ← Arrival.writeStaged q.dir name payload
  return { path, name, size := payload.length, modTime := now, stabilityMs := 0 }

example : sanitize (utf8 "a/b_../../etc/passwd.json") = "a_b_____etc_passwd.json" := by
  decide +kernel
example : sanitize (utf8 "x_....json") = "x___json" := by decide +kernel

/-! ## The name -/

/-- A name that means nothing to a file system. -/
structure SafeName (name : String) : Prop where
  nonempty : name ≠ ""
  chars : ∀ c ∈ name.toList, fileChar c = true
  no_parent : ¬ ['.', '.'] <:+: name.toList

theorem fileChar_plain {c : Char} (h : fileChar c = true) : Plain c ∧ c ≠ '/' := by
  simp only [fileChar, Bool.or_eq_true, decide_eq_true_eq] at h
  rcases h with ((h | rfl) | rfl) | rfl
  · have hsame : c.toNat = c.val.toNat := rfl
    delta Char.isAlphanum Char.isAlpha Char.isUpper Char.isLower Char.isDigit at h
    simp only [Bool.or_eq_true, decide_eq_true_eq, Bool.and_eq_true, UInt32.le_iff_toNat_le] at h
    simp at h
    refine ⟨⟨by omega, by omega⟩, ?_⟩
    rintro rfl
    simp at h
  all_goals exact ⟨⟨by decide, by decide⟩, by decide⟩

theorem mem_sanitize {c : Char} {name : Bytes} {byte : UInt8} (hascii : byte.toNat < 0x80)
    (hbyte : Char.ofNat byte.toNat = c) (hchar : fileChar c = true) (hdot : c ≠ '.')
    (h : byte ∈ name) : c ∈ (sanitize name).toList := by
  have hrune : c ∈ Utf8.runes name := hbyte ▸ Utf8.mem_runesFrom hascii h
  rw [sanitize, String.toList_ofList]
  refine mem_replaceFrom_of_mem (List.cons_ne_nil _ _) (by simpa using hdot) ?_
  exact List.mem_map.mpr ⟨c, hrune, if_pos hchar⟩

theorem sanitize_safe {name : Bytes} (hj : 106 ∈ name) :
    SafeName (sanitize name) ∧ Name (sanitize name).toList := by
  have hletter : 'j' ∈ (sanitize name).toList := mem_sanitize (by decide) rfl rfl (by decide) hj
  have hchars : ∀ c ∈ (sanitize name).toList, fileChar c = true := by
    intro c hc
    rw [sanitize, String.toList_ofList] at hc
    rcases mem_of_mem_replaceFrom hc with hc | hc
    · obtain ⟨r, -, rfl⟩ := List.mem_map.mp hc
      split
      next hkept => exact hkept
      next => rfl
    · rw [List.mem_singleton.mp hc]
      rfl
  have hpair : ¬ ['.', '.'] <:+: (sanitize name).toList := by
    rw [sanitize, String.toList_ofList]
    exact no_pair_replaceAll (by decide) _
  refine ⟨⟨?_, hchars, hpair⟩, ⟨?_, ?_, ?_⟩⟩
  · intro hempty
    rw [hempty] at hletter
    cases hletter
  · rintro (hnil | hdot)
    · rw [hnil] at hletter
      cases hletter
    · rw [hdot] at hletter
      exact absurd (List.mem_singleton.mp hletter) (by decide)
  · intro hparent
    exact hpair (hparent ▸ List.infix_rfl)
  · intro hslash
    exact (fileChar_plain (hchars _ hslash)).2 rfl

/-- Every name a message is given is safe. -/
theorem filename_safe (unmarshal : Bytes → Option Envelope) (m : Message) :
    SafeName (filename unmarshal m) ∧ Name (filename unmarshal m).toList := by
  have hj : ∀ name, 106 ∈ name ++ utf8 ".json" := fun name =>
    List.mem_append_right _ (by decide)
  unfold filename
  cases unmarshal m.value with
  | none => exact sanitize_safe (hj _)
  | some env =>
      dsimp only
      split
      next => exact sanitize_safe (hj _)
      next => exact sanitize_safe (hj _)

/-! ## The file -/

theorem stage_spec (q : QueueConsumer) {name : String} (hname : Name name.toList) (payload : Bytes)
    (now : Instant) {world : World} {before : List Bytes} (h : world.written = before) :
    Meets (fun world result =>
      match result with
      | .ok candidate => candidate.name = name ∧
          world.written = before ++ [utf8 candidate.path] ∧
          SlashPath.dir candidate.path.toList = clean q.dir.toList ∧
          base candidate.path.toList = name.toList
      | .error _ => world.written = before) (q.stage name payload now) world := by
  obtain ⟨hbase, hdir⟩ := base_joined_name hname q.dir.toList
  have hwrite : Meets (fun world result =>
      match result with
      | .ok path => path = String.ofList (joined q.dir.toList name.toList) ∧
          world.written = before ++ [utf8 path]
      | .error _ => world.written = before) (Arrival.writeStaged q.dir name payload) world := by
    rw [Arrival.writeStaged, base_name hname]
    refine Spec.bind (meets_orFail (.mkdirAll (utf8 q.dir)) (fun reply => reply)
      (Arrival.StagingFailure.stagingDir q.dir) (fun _ => rfl) h (fun world _ h => ?_) fun _ h => h)
    exact Spec.bind (meets_write (.writeFile (utf8 (String.ofList _)) payload) (fun reply => reply)
      (Arrival.StagingFailure.stage name) (fun reply => by cases reply <;> rfl) h
      (fun world h => ⟨rfl, h⟩) fun _ h => h)
  refine Spec.bind (hwrite.mono (fun _ h => h) fun world result h => ?_)
  cases result with
  | error cause => exact h
  | ok path =>
      obtain ⟨rfl, hwritten⟩ := h
      refine ⟨rfl, hwritten, ?_, ?_⟩
      · exact (congrArg SlashPath.dir String.toList_ofList).trans hdir
      · exact (congrArg base String.toList_ofList).trans hbase

/-! ## The key -/

/-- The digits of Crockford's base 32, in which an arrival id is written. -/
def crockford : List Char := "0123456789ABCDEFGHJKMNPQRSTVWXYZ".toList

def Encoded (id : Ulid) : Prop := (id.text.toList.all fun c => c ∈ crockford) = true

/-- A plain character that is no dot. -/
def Lead (c : Char) : Prop := Plain c ∧ c ≠ '.'

theorem lead_of_all {chars : List Char}
    (hall : (chars.all fun c => decide (32 ≤ c.toNat ∧ c.toNat < 127 ∧ c ≠ '.')) = true) :
    ∀ c ∈ chars, Lead c := by
  intro c hc
  obtain ⟨hlow, hhigh, hdot⟩ := of_decide_eq_true (List.all_eq_true.mp hall c hc)
  exact ⟨⟨hlow, hhigh⟩, hdot⟩

theorem lead_digitChar (n : Nat) : Lead n.digitChar := by
  have hall : ∀ n < 16, 32 ≤ n.digitChar.toNat ∧ n.digitChar.toNat < 127 ∧ n.digitChar ≠ '.' := by
    decide
  by_cases hn : n < 16
  · obtain ⟨hlow, hhigh, hdot⟩ := hall n hn
    exact ⟨⟨hlow, hhigh⟩, hdot⟩
  · rw [Nat.digitChar_eq_star.mpr (Nat.le_of_not_lt hn)]
    exact ⟨⟨by decide, by decide⟩, by decide⟩

theorem lead_datePath (date : Civil.Date) {c : Char} (h : c ∈ (Arrival.datePath date).toList) :
    Lead c := by
  have hdigits : ∀ n, ∀ c ∈ Civil.twoDigits n, Lead c := by
    intro n c hc
    rcases List.mem_pair.mp hc with rfl | rfl <;> exact lead_digitChar _
  have hslash : Lead '/' := ⟨⟨by decide, by decide⟩, by decide⟩
  rw [Arrival.datePath, String.toList_ofList, Civil.fourDigits] at h
  simp only [List.mem_append, List.mem_cons] at h
  rcases h with ((h | h) | rfl | h) | rfl | h
  · exact hdigits _ c h
  · exact hdigits _ c h
  · exact hslash
  · exact hdigits _ c h
  · exact hslash
  · exact hdigits _ c h

/-- Before the name stand no dots. -/
theorem objectKey_eq {id : Ulid} (hid : Encoded id) (time : Instant) (c : Arrival.Candidate) :
    ∃ lead : List Char, (∀ c ∈ lead, Lead c) ∧
      Arrival.objectKey time id.text c =
        String.ofList ("raw".toList ++ '/' :: (lead ++ c.name.toList)) := by
  have hdate : ∀ c ∈ (((Civil.ofOrdinal? time.truncate).map Arrival.datePath).getD "").toList,
      Lead c := by
    intro c hc
    cases hdate : Civil.ofOrdinal? time.truncate with
    | none =>
        rw [hdate] at hc
        cases hc
    | some date =>
        rw [hdate] at hc
        exact lead_datePath date hc
  refine ⟨(((Civil.ofOrdinal? time.truncate).map Arrival.datePath).getD "").toList ++
    '/' :: (id.text.toList ++ ['_']), ?_, ?_⟩
  · intro c hc
    simp only [List.mem_append, List.mem_cons, List.not_mem_nil, or_false] at hc
    rcases hc with hc | rfl | hc | rfl
    · exact hdate c hc
    · exact ⟨⟨by decide, by decide⟩, by decide⟩
    · exact lead_of_all (by decide) c (of_decide_eq_true (List.all_eq_true.mp hid c hc))
    · exact ⟨⟨by decide, by decide⟩, by decide⟩
  · apply String.toList_injective
    simp [Arrival.objectKey]

/-- The key has no parent segment. -/
theorem no_parent_key {lead name : List Char} (hlead : ∀ c ∈ lead, Lead c)
    (hname : ∀ c ∈ name, Plain c) (hpair : ¬ ['.', '.'] <:+: name) :
    parent ∉ (utf8 (String.ofList (lead ++ name))).splitOn slash := by
  intro hmem
  have hinfix := infix_of_mem_splitOn hmem
  have hplain : ∀ c ∈ lead ++ name, Plain c :=
    List.forall_mem_append.mpr ⟨fun c hc => (hlead c hc).1, hname⟩
  rw [utf8_plain hplain, List.infix_map_iff] at hinfix
  obtain ⟨part, hpart, hparent⟩ := hinfix
  have hbyte : ∀ c ∈ part, UInt8.ofNat c.toNat = 46 → c = '.' := by
    intro c hc hdot
    have hnat := congrArg UInt8.toNat hdot
    rw [(hplain c (hpart.subset hc)).toNat_byte] at hnat
    exact Char.toNat_inj.mp hnat
  have hlength : part.length = 2 := by
    rw [← List.length_map, ← hparent]
    rfl
  obtain ⟨first, second, rfl⟩ := List.length_eq_two.mp hlength
  obtain ⟨hfirst, hrest⟩ := List.cons.inj hparent
  obtain ⟨hsecond, -⟩ := List.cons.inj hrest
  rw [hbyte first (by simp) hfirst.symm, hbyte second (by simp) hsecond.symm] at hpart
  exact hpair (pair_of_append (fun hdot => (hlead '.' hdot).2 rfl) hpart)

/-- The key of a staged payload is accepted by every store but one at the root of the file
system. -/
theorem pathFor_key_iff (fs : ObjectStore.FS) {id : Ulid} (hid : Encoded id) (time : Instant)
    {c : Arrival.Candidate} (hname : SafeName c.name) :
    (∃ full, fs.pathFor (utf8 (Arrival.objectKey time id.text c)) = .ok full) ↔
      fs.root ≠ [slash] := by
  obtain ⟨lead, hlead, hkey⟩ := objectKey_eq hid time c
  have hplain : ∀ letter ∈ c.name.toList, Plain letter := fun letter hletter =>
    (fileChar_plain (hname.chars letter hletter)).1
  have hbefore : ∀ c ∈ "raw".toList ++ '/' :: lead, Lead c := by
    refine List.forall_mem_append.mpr ⟨?_, List.forall_mem_cons.mpr ⟨?_, hlead⟩⟩
    · exact lead_of_all (by decide)
    · exact ⟨⟨by decide, by decide⟩, by decide⟩
  have hparent := no_parent_key hbefore hplain hname.no_parent
  rw [List.append_assoc, List.cons_append, ← hkey] at hparent
  have hbytes : ∃ rest, utf8 (Arrival.objectKey time id.text c) = utf8 "raw" ++ slash :: rest := by
    rw [hkey, utf8, String.toList_ofList, List.flatMap_append, List.flatMap_cons]
    exact ⟨_, rfl⟩
  obtain ⟨rest, hrest⟩ := hbytes
  apply fs.pathFor_accepts_iff hparent
  apply List.ne_nil_of_mem
  refine @ObjectStore.FS.mem_keyNames _ (utf8 "raw") ?_ hparent ⟨by decide, by decide, by decide⟩ ?_
  · rw [hrest]
    rfl
  · rw [hrest, List.splitOn_append_cons_self_of_not_mem (by decide)]
    exact List.mem_cons_self

/-- Whatever a message says, its name is safe, its payload is staged in the staging
directory itself, and the key of the payload is accepted, unless the root of the store is
that of the file system. -/
theorem staging_confined_iff (unmarshal : Bytes → Option Envelope) (q : QueueConsumer)
    (m : Message) (fs : ObjectStore.FS) (id : Ulid) (hid : Encoded id) :
    (SafeName (filename unmarshal m) ∧
      (∀ (now : Instant) (script : Script Answers) (world world' : World)
          (candidate : Arrival.Candidate),
        (q.stage (filename unmarshal m) m.value now).run perform script world =
            (world', .value candidate) →
          candidate.name = filename unmarshal m ∧
          world'.written = world.written ++ [utf8 candidate.path] ∧
          SlashPath.dir candidate.path.toList = clean q.dir.toList ∧
          base candidate.path.toList = (filename unmarshal m).toList) ∧
      ∀ (time : Instant) (candidate : Arrival.Candidate),
        candidate.name = filename unmarshal m →
        ∃ full, fs.pathFor (utf8 (Arrival.objectKey time id.text candidate)) = .ok full) ↔
      fs.root ≠ [slash] := by
  obtain ⟨hsafe, hname⟩ := filename_safe unmarshal m
  constructor
  · rintro ⟨-, -, haccepted⟩
    have hkey := haccepted 0 ⟨"", filename unmarshal m, 0, 0, 0⟩ rfl
    exact (pathFor_key_iff fs hid 0 hsafe).mp hkey
  · intro hroot
    refine ⟨hsafe, fun now script world world' candidate hrun => ?_, ?_⟩
    · have hend := Meets.run (stage_spec q hname m.value now (rfl : world.written = _)) script
      rw [hrun] at hend
      exact hend
    · intro time candidate hcandidate
      exact (pathFor_key_iff fs hid time (hcandidate ▸ hsafe)).mpr hroot

/-! ## A store at the root of the file system -/

section Sample

/-- The message `{"messageId":"../../etc/passwd","source":"a/b"}`. -/
def sampleMessage : Message where
  topic := utf8 "hm.ingress.json"
  value := utf8 "\x7b\"messageId\":\"../../etc/passwd\",\"source\":\"a/b\"\x7d"
  partition := 2
  offset := 77

def sampleUnmarshal (value : Bytes) : Option Envelope :=
  if value = sampleMessage.value then some ⟨utf8 "../../etc/passwd", utf8 "a/b"⟩ else none

def sampleId : Ulid := ⟨"01J6C0000000000000000000QM", by decide⟩

theorem encoded_sampleId : Encoded sampleId := by
  unfold Encoded
  decide

def sampleCandidate : Arrival.Candidate where
  path := "/tmp/hm-queue/a_b_____etc_passwd.json"
  name := filename sampleUnmarshal sampleMessage
  size := 49
  modTime := 0
  stabilityMs := 0

theorem staging_confined_sample :
    SafeName (filename sampleUnmarshal sampleMessage) ∧
      ∃ full, ObjectStore.FS.sampleFS.pathFor
        (utf8 (Arrival.objectKey 0 sampleId.text sampleCandidate)) = .ok full := by
  have h := (staging_confined_iff sampleUnmarshal ⟨""⟩ sampleMessage ObjectStore.FS.sampleFS
    sampleId encoded_sampleId).mpr (by decide)
  exact ⟨h.1, h.2.2 0 sampleCandidate rfl⟩

/-- What `NewFS` makes of the root of the file system. -/
def rootFS : ObjectStore.FS := .rooted [slash] rfl

/-- It rejects the key of every payload, as if the key led out of the root. -/
theorem root_rejects_key :
    ¬ ∃ full,
      rootFS.pathFor (utf8 (Arrival.objectKey 0 sampleId.text sampleCandidate)) = .ok full := by
  rw [pathFor_key_iff rootFS encoded_sampleId 0 (filename_safe sampleUnmarshal sampleMessage).1]
  decide

end Sample

end Harbormaster.Ingress
