import Harbormaster.Calendar
import Harbormaster.Foundation.Table

/-! # The landing-directory scanner

`Scanner` of `go/internal/arrival`. A pass lists the directory and compares each
file with what the previous pass saw of it. A file whose size and modification
time have not changed for the quiet window is emitted, once for each
observation; `forget` ends an observation, and so does the file's absence.
-/

namespace Harbormaster.Arrival

open Keyed

/-- A length of time, in nanoseconds. -/
abbrev Duration := Int

def second : Duration := 1000000000

/-- `Duration.Milliseconds`, which rounds towards zero. -/
def Duration.milliseconds (duration : Duration) : Int := duration.tdiv 1000000

/-- A file that has been observed at least once. -/
structure Candidate where
  path : String
  name : String
  size : Int
  modTime : Instant
  stabilityMs : Int
deriving DecidableEq, Repr

/-- Write-completion detection. -/
structure Policy where
  scanInterval : Duration
  quietWindow : Duration
  sentinelSuffix : String
  ignoreSuffixes : List String
deriving DecidableEq, Repr

def defaultPolicy : Policy where
  scanInterval := 2 * second
  quietWindow := 5 * second
  sentinelSuffix := ".done"
  ignoreSuffixes := [".done", ".tmp", ".part", ".filepart", ".crdownload", ".swp"]

/-- What the previous pass knew about a file. -/
structure Observation where
  size : Int
  modTime : Instant
  stableFor : Duration := 0
  firstSeen : Instant
  emitted : Bool := false
  stable_nonneg : 0 ≤ stableFor := by decide
deriving DecidableEq, Repr

/-- The scanner of a directory, given by a clean path other than the root. -/
structure Scanner where
  dir : String
  policy : Policy
  seen : Table String Observation := ∅
  interval_pos : 0 < policy.scanInterval
  window_pos : 0 < policy.quietWindow

/-- A duration that is not positive takes its default. -/
def orDefault (duration fallback : Duration) : Duration :=
  if duration ≤ 0 then fallback else duration

theorem orDefault_pos {duration fallback : Duration} (hfallback : 0 < fallback) :
    0 < orDefault duration fallback := by
  unfold orDefault
  split
  next => exact hfallback
  next hpos => exact not_le.mp hpos

def newScanner (dir : String) (p : Policy) : Scanner where
  dir := dir
  policy := { p with
    scanInterval := orDefault p.scanInterval defaultPolicy.scanInterval
    quietWindow := orDefault p.quietWindow defaultPolicy.quietWindow }
  interval_pos := orDefault_pos (by decide)
  window_pos := orDefault_pos (by decide)

/-! ## One pass -/

structure FileInfo where
  size : Int
  modTime : Instant
deriving DecidableEq, Repr

inductive StatError where
  | notExist | other
deriving DecidableEq, Repr

structure DirEntry where
  name : String
  isDir : Bool
  info : Except StatError FileInfo

/-- What a pass finds in its surroundings: the listing, which may fail, the
paths that exist when they are looked up, and the time. -/
structure Snapshot where
  entries : Option (List DirEntry)
  stats : String → Bool
  clock : Instant

inductive ScanError where
  | read (dir : String)
  | stat (name : String)
deriving DecidableEq, Repr

/-- The lower case of a letter. Beside the ASCII letters, the dotted capital I
and the Kelvin sign are the only ones whose lower case is ASCII; the suffixes
compared with are ASCII, and any other letter is left as it is. -/
def lowerChar (c : Char) : Char :=
  if c = '\u0130' then 'i' else if c = '\u212A' then 'k' else c.toLower

def Policy.ignored (policy : Policy) (name : String) : Bool :=
  name.toList.head? = some '.' ||
    policy.ignoreSuffixes.any fun suffix =>
      suffix.toList.isSuffixOf (name.toList.map lowerChar)

/-- The variables of a pass. -/
structure Pass where
  seen : Table String Observation
  present : List String := []
  ready : List Candidate := []

namespace Scanner

variable (s : Scanner)

/-- Drop a path, so that a file replaced under the same name is treated as new. -/
def forget (path : String) : Scanner := { s with seen := s.seen.erase path }

/-- `filepath.Join` of the directory and the name of an entry. -/
def path (name : String) : String := s.dir ++ "/" ++ name

def sentinelPresent (snapshot : Snapshot) (path : String) : Bool :=
  s.policy.sentinelSuffix ≠ "" && snapshot.stats (path ++ s.policy.sentinelSuffix)

/-- What one sight of a file makes of its observation. The flag says that the
file has become ready. -/
def observe (sentinelPresent : Bool) (info : FileInfo) (now : Instant) :
    Option Observation → Observation × Bool
  | none => ({ size := info.size, modTime := info.modTime, firstSeen := now }, false)
  | some obs =>
      if obs.emitted then (obs, false)
      else if obs.size ≠ info.size ∨ obs.modTime ≠ info.modTime then
        -- Still being written: the clock starts again.
        ({ obs with
            size := info.size, modTime := info.modTime
            stableFor := 0, stable_nonneg := le_rfl }, false)
      else
        let obs := { obs with
          stableFor := obs.stableFor + s.policy.scanInterval
          stable_nonneg := add_nonneg obs.stable_nonneg s.interval_pos.le }
        if sentinelPresent ∨ s.policy.quietWindow ≤ obs.stableFor then
          ({ obs with emitted := true }, true)
        else (obs, false)

/-- One regular file of the listing. -/
def sight (snapshot : Snapshot) (name : String) (info : FileInfo) (pass : Pass) : Pass :=
  let path := s.path name
  let (obs, isReady) := s.observe (s.sentinelPresent snapshot path) info snapshot.clock
    (pass.seen.lookup path)
  { seen := pass.seen.insert path obs
    present := pass.present ++ [path]
    ready :=
      if isReady then
        pass.ready ++ [⟨path, name, info.size, info.modTime, obs.stableFor.milliseconds⟩]
      else pass.ready }

/-- The entries of the listing, in order. -/
def walk (snapshot : Snapshot) : List DirEntry → Pass → Pass × Option ScanError
  | [], pass => (pass, none)
  | entry :: rest, pass =>
      if entry.isDir || s.policy.ignored entry.name then walk snapshot rest pass
      else match entry.info with
        | .error .notExist => walk snapshot rest pass
        | .error .other => (pass, some (.stat entry.name))
        | .ok info => walk snapshot rest (s.sight snapshot entry.name info pass)

/-- One pass: the files that have become stable since the last one. A pass that
fails keeps what it has observed so far. -/
def scan (snapshot : Snapshot) : Scanner × Except ScanError (List Candidate) :=
  match snapshot.entries with
  | none => (s, .error (.read s.dir))
  | some entries =>
      match s.walk snapshot entries { seen := s.seen } with
      | (pass, some cause) => ({ s with seen := pass.seen }, .error cause)
      | (pass, none) =>
          ({ s with seen := pass.seen.restrict fun path => pass.present.contains path },
            .ok pass.ready)

/-! ## What a pass says about one file -/

theorem path_injective {name name' : String} (h : s.path name = s.path name') : name = name' := by
  unfold path at h
  exact String.append_right_inj _ |>.mp h

theorem lookup_forget {paths : List String} {path : String} (hpath : path ∉ paths) :
    (paths.foldl forget s).seen.lookup path = s.seen.lookup path := by
  induction paths generalizing s with
  | nil => rfl
  | cons first rest ih =>
      obtain ⟨hne, hrest⟩ := not_or.mp (mt List.mem_cons.mpr hpath)
      rw [List.foldl_cons, ih (s.forget first) hrest]
      exact AList.lookup_erase_ne hne

/-- A file that is seen without becoming ready has either changed, so that its
clock starts again, or been stable for one interval more. -/
theorem observe_unready {isPresent : Bool} {info : FileInfo} {clock : Instant}
    {obs : Observation} (hemitted : obs.emitted = false)
    (hflag : (s.observe isPresent info clock (some obs)).2 = false) :
    ∃ obs', (s.observe isPresent info clock (some obs)).1 = obs' ∧ obs'.emitted = false ∧
      obs'.size = info.size ∧ obs'.modTime = info.modTime ∧
      obs'.stableFor < s.policy.quietWindow ∧
      ((obs.size ≠ info.size ∨ obs.modTime ≠ info.modTime) ∨
        obs'.stableFor = obs.stableFor + s.policy.scanInterval) := by
  refine ⟨_, rfl, ?_⟩
  have hrunning : ¬ obs.emitted = true := by simp [hemitted]
  unfold observe at hflag ⊢
  dsimp only at hflag ⊢
  rw [if_neg hrunning] at hflag ⊢
  by_cases hchanged : obs.size ≠ info.size ∨ obs.modTime ≠ info.modTime
  · rw [if_pos hchanged]
    exact ⟨hemitted, rfl, rfl, s.window_pos, .inl hchanged⟩
  · rw [if_neg hchanged] at hflag ⊢
    split at hflag
    next => cases hflag
    next hearly =>
      rw [if_neg hearly]
      obtain ⟨hsize, hmodTime⟩ := not_or.mp hchanged
      exact ⟨hemitted, not_not.mp hsize, not_not.mp hmodTime, not_le.mp (not_or.mp hearly).2,
        .inr rfl⟩

/-- The two passes agree about this path. -/
structure Agree (path : String) (pass pass' : Pass) : Prop where
  seen : pass'.seen.lookup path = pass.seen.lookup path
  present : path ∈ pass'.present ↔ path ∈ pass.present
  ready : (∃ c ∈ pass'.ready, c.path = path) ↔ ∃ c ∈ pass.ready, c.path = path

variable {s} {snapshot : Snapshot}

theorem Agree.trans {path : String} {pass pass' pass'' : Pass} (h : Agree path pass pass')
    (h' : Agree path pass' pass'') : Agree path pass pass'' where
  seen := h'.seen.trans h.seen
  present := h'.present.trans h.present
  ready := h'.ready.trans h.ready

theorem agree_sight {path name : String} (info : FileInfo) (pass : Pass)
    (hne : s.path name ≠ path) : Agree path pass (s.sight snapshot name info pass) := by
  unfold sight
  refine ⟨AList.lookup_insert_ne hne.symm, ?_, ?_⟩
  · simp [hne.symm]
  · dsimp only
    split
    · simp [or_and_right, exists_or, hne]
    · rfl

/-- A path that no entry names is not touched. -/
theorem agree_walk {path : String} {entries : List DirEntry}
    (hentries : ∀ entry ∈ entries, s.path entry.name ≠ path) (pass : Pass) :
    Agree path pass (s.walk snapshot entries pass).1 := by
  induction entries generalizing pass with
  | nil => exact ⟨rfl, .rfl, .rfl⟩
  | cons entry rest ih =>
      have hrest := ih fun later hlater => hentries later (List.mem_cons_of_mem _ hlater)
      unfold walk
      split
      · exact hrest pass
      · split
        · exact hrest pass
        · exact ⟨rfl, .rfl, .rfl⟩
        · exact (agree_sight _ pass (hentries entry List.mem_cons_self)).trans (hrest _)

/-- A pass on which every entry can be stat'ed comes to its end. -/
theorem walk_ok {entries : List DirEntry}
    (hlisted : ∀ entry ∈ entries, ∃ info, entry.info = .ok info) (pass : Pass) :
    (s.walk snapshot entries pass).2 = none := by
  induction entries generalizing pass with
  | nil => rfl
  | cons entry rest ih =>
      have hrest := ih fun later hlater => hlisted later (List.mem_cons_of_mem _ hlater)
      obtain ⟨info, hinfo⟩ := hlisted entry List.mem_cons_self
      unfold walk
      rw [hinfo]
      split
      · exact hrest pass
      · exact hrest _

/-- The file was seen in this pass: its observation is updated from the one
before the pass, and it is among the ready files when it became ready. -/
structure Sighted (s : Scanner) (snapshot : Snapshot) (name : String) (info : FileInfo)
    (pass pass' : Pass) : Prop where
  seen : pass'.seen.lookup (s.path name) = some (s.observe
    (s.sentinelPresent snapshot (s.path name)) info snapshot.clock
    (pass.seen.lookup (s.path name))).1
  present : s.path name ∈ pass'.present
  ready : (∃ c ∈ pass'.ready, c.path = s.path name) ↔
    (s.observe (s.sentinelPresent snapshot (s.path name)) info snapshot.clock
      (pass.seen.lookup (s.path name))).2 = true ∨ ∃ c ∈ pass.ready, c.path = s.path name

theorem sighted_sight (name : String) (info : FileInfo) (pass : Pass) :
    Sighted s snapshot name info pass (s.sight snapshot name info pass) := by
  unfold sight
  refine ⟨AList.lookup_insert _, by simp, ?_⟩
  dsimp only
  split
  next hready => simp [hready]
  next hready => simp [hready]

theorem Sighted.before {name : String} {info : FileInfo} {pass pass' pass'' : Pass}
    (hagree : Agree (s.path name) pass pass') (h : Sighted s snapshot name info pass' pass'') :
    Sighted s snapshot name info pass pass'' where
  seen := hagree.seen ▸ h.seen
  present := h.present
  ready := by
    rw [h.ready, hagree.ready, hagree.seen]

theorem Sighted.after {name : String} {info : FileInfo} {pass pass' pass'' : Pass}
    (h : Sighted s snapshot name info pass pass') (hagree : Agree (s.path name) pass' pass'') :
    Sighted s snapshot name info pass pass'' where
  seen := hagree.seen.trans h.seen
  present := hagree.present.mpr h.present
  ready := hagree.ready.trans h.ready

/-- A regular file of the listing is seen once, whatever its place. -/
theorem sighted_walk {entries : List DirEntry} {name : String} {info : FileInfo}
    (hentry : ⟨name, false, .ok info⟩ ∈ entries)
    (hnodup : (entries.map DirEntry.name).Nodup)
    (hlisted : ∀ entry ∈ entries, ∃ info, entry.info = .ok info)
    (hwatched : s.policy.ignored name = false) (pass : Pass) :
    Sighted s snapshot name info pass (s.walk snapshot entries pass).1 := by
  induction entries generalizing pass with
  | nil => exact absurd hentry List.not_mem_nil
  | cons entry rest ih =>
      obtain ⟨hfresh, hnodup⟩ := List.nodup_cons.mp hnodup
      rcases List.mem_cons.mp hentry with rfl | hmem
      · have hother : ∀ later ∈ rest, s.path later.name ≠ s.path name := fun later hlater heq =>
          hfresh (List.mem_map.mpr ⟨later, hlater, s.path_injective heq⟩)
        rw [walk, hwatched]
        exact (sighted_sight name info pass).after (agree_walk hother _)
      · have hne : s.path entry.name ≠ s.path name := fun heq =>
          hfresh (List.mem_map.mpr ⟨_, hmem, (s.path_injective heq).symm⟩)
        have hrest := ih hmem hnodup
          fun later hlater => hlisted later (List.mem_cons_of_mem _ hlater)
        obtain ⟨found, hfound⟩ := hlisted entry List.mem_cons_self
        unfold walk
        rw [hfound]
        split
        · exact hrest pass
        · exact (hrest _).before (agree_sight found pass hne)

/-- A pass emits only files that it does not ignore. -/
theorem ready_walk {entries : List DirEntry} (pass : Pass)
    (hready : ∀ c ∈ pass.ready, ∃ name, c.path = s.path name ∧ s.policy.ignored name = false) :
    ∀ c ∈ (s.walk snapshot entries pass).1.ready,
      ∃ name, c.path = s.path name ∧ s.policy.ignored name = false := by
  induction entries generalizing pass with
  | nil => exact hready
  | cons entry rest ih =>
      unfold walk
      split
      · exact ih pass hready
      next hregular =>
        have hwatched : s.policy.ignored entry.name = false := by
          simp only [Bool.or_eq_true, not_or, Bool.not_eq_true] at hregular
          exact hregular.2
        split
        · exact ih pass hready
        · exact hready
        · refine ih _ fun c hmem => ?_
          unfold sight at hmem
          dsimp only at hmem
          split at hmem
          · rcases List.mem_append.mp hmem with hold | hnew
            · exact hready c hold
            · rw [List.mem_singleton.mp hnew]
              exact ⟨entry.name, rfl, hwatched⟩
          · exact hready c hmem

variable (s snapshot) in
theorem ready_scan {ready : List Candidate} (h : (s.scan snapshot).2 = .ok ready) :
    ∀ c ∈ ready, ∃ name, c.path = s.path name ∧ s.policy.ignored name = false := by
  unfold scan at h
  split at h
  next => cases h
  next entries _ =>
    split at h
    next => cases h
    next pass hpass =>
      cases h
      have hwalk : ∀ c ∈ (s.walk snapshot entries { seen := s.seen }).1.ready, _ :=
        ready_walk _ fun _ hmem => absurd hmem List.not_mem_nil
      rw [hpass] at hwalk
      exact hwalk

variable (s snapshot) in
/-- What a pass over a listing without failures makes of a watched file. -/
theorem scan_file {entries : List DirEntry} {name : String} {info : FileInfo}
    (hentries : snapshot.entries = some entries) (hentry : ⟨name, false, .ok info⟩ ∈ entries)
    (hnodup : (entries.map DirEntry.name).Nodup)
    (hlisted : ∀ entry ∈ entries, ∃ info, entry.info = .ok info)
    (hwatched : s.policy.ignored name = false) :
    ∃ ready, (s.scan snapshot).2 = .ok ready ∧
      (s.scan snapshot).1.seen.lookup (s.path name) = some (s.observe
        (s.sentinelPresent snapshot (s.path name)) info snapshot.clock
        (s.seen.lookup (s.path name))).1 ∧
      ((∃ c ∈ ready, c.path = s.path name) ↔ (s.observe
        (s.sentinelPresent snapshot (s.path name)) info snapshot.clock
        (s.seen.lookup (s.path name))).2 = true) := by
  have hsighted : Sighted s snapshot name info { seen := s.seen } _ :=
    sighted_walk hentry hnodup hlisted hwatched _
  have hok : (s.walk snapshot entries { seen := s.seen }).2 = none := walk_ok hlisted _
  unfold scan
  rw [hentries]
  obtain ⟨⟨pass, error⟩, hpass⟩ : ∃ result, s.walk snapshot entries { seen := s.seen } = result :=
    ⟨_, rfl⟩
  rw [hpass] at hsighted hok
  obtain rfl : error = none := hok
  dsimp only
  rw [hpass]
  refine ⟨pass.ready, rfl, ?_, ?_⟩
  · rw [Table.lookup_restrict, if_pos (List.contains_iff_mem.mpr hsighted.present)]
    exact hsighted.seen
  · rw [hsighted.ready]
    simp

end Scanner

end Harbormaster.Arrival
