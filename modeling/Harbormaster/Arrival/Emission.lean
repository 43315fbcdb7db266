import Harbormaster.Arrival.Scanner

/-! # When a file is emitted

A run of the scanner is a sequence of passes over listings of regular files and
of calls to `Forget`. Its record keeps what each pass found and what it emitted.
The current observation of a file is the part of the record since the file was
first seen, or first seen again after it had vanished or had been forgotten, and
a pass emits the file exactly when that observation makes it due.
-/

namespace Harbormaster.Arrival

open Keyed

attribute [ext] FileInfo

/-- A listing of regular files, each of which can be stat'ed. -/
structure Listing where
  files : List (String × FileInfo)
  stats : String → Bool
  clock : Instant
  names_nodup : (files.map Prod.fst).Nodup

namespace Listing

def entries (listing : Listing) : List DirEntry :=
  listing.files.map fun file => ⟨file.1, false, .ok file.2⟩

def snapshot (listing : Listing) : Snapshot where
  entries := some listing.entries
  stats := listing.stats
  clock := listing.clock

/-- The file of this name. -/
def file (listing : Listing) (name : String) : Option FileInfo := listing.files.lookup name

theorem mem_files {listing : Listing} {name : String} {info : FileInfo}
    (h : listing.file name = some info) : (name, info) ∈ listing.files := by
  obtain ⟨before, after, hfiles, _⟩ := List.lookup_eq_some_iff.mp h
  rw [hfiles]
  exact List.mem_append_right _ List.mem_cons_self

theorem absent {listing : Listing} {name : String} (h : listing.file name = none) :
    ∀ file ∈ listing.files, file.1 ≠ name := by
  intro file hfile heq
  have hne := List.lookup_eq_none_iff.mp h file hfile
  simp [heq] at hne

end Listing

/-- What happens to the scanner. -/
inductive ScannerEvent where
  | scan (listing : Listing)
  | forget (path : String)

/-- What is on record of an event. -/
inductive Entry where
  | scanned (listing : Listing) (outcome : Except ScanError (List Candidate))
  | forgotten (path : String)

/-- The scanner and the record of its run, the latest entry first. -/
structure Watch where
  scanner : Scanner
  record : List Entry := []

namespace Watch

def step (watch : Watch) : ScannerEvent → Watch
  | .scan listing =>
      let (scanner, outcome) := watch.scanner.scan listing.snapshot
      { scanner := scanner, record := .scanned listing outcome :: watch.record }
  | .forget path =>
      { scanner := watch.scanner.forget path, record := .forgotten path :: watch.record }

def run (watch : Watch) (events : List ScannerEvent) : Watch := events.foldl step watch

end Watch

/-! ## The current observation -/

/-- What one pass saw of a file, and whether it emitted the file. -/
structure Sight where
  info : FileInfo
  emitted : Bool
deriving DecidableEq, Repr

/-- The outcome of a pass names the path. -/
def emits (path : String) : Except ScanError (List Candidate) → Bool
  | .ok ready => ready.any fun c => c.path = path
  | .error _ => false

theorem emits_ok {path : String} {ready : List Candidate} :
    emits path (.ok ready) = true ↔ ∃ c ∈ ready, c.path = path := by
  simp [emits]

/-- The sights of a file since its current observation began, the latest first. -/
def sights (base : Scanner) (name : String) : List Entry → List Sight
  | [] => []
  | .forgotten path :: earlier =>
      if path = base.path name then [] else sights base name earlier
  | .scanned listing outcome :: earlier =>
      match listing.file name with
      | none => []
      | some info => ⟨info, emits (base.path name) outcome⟩ :: sights base name earlier

/-- The number of latest sights at which the file was as it is now: with this
pass, so many passes in succession have found it unchanged. -/
def unchanged (info : FileInfo) (seen : List Sight) : Nat :=
  (seen.takeWhile fun sight => sight.info = info).length

/-- The current observation of a file makes it due in this pass. -/
def Due (base : Scanner) (record : List Entry) (listing : Listing) (name : String) : Prop :=
  base.policy.ignored name = false ∧
    ∃ info ∈ listing.file name,
      (∀ sight ∈ sights base name record, sight.emitted = false) ∧
      0 < unchanged info (sights base name record) ∧
      (base.sentinelPresent listing.snapshot (base.path name) = true ∨
        base.policy.quietWindow ≤
          unchanged info (sights base name record) * base.policy.scanInterval)

@[simp]
theorem unchanged_nil (info : FileInfo) : unchanged info [] = 0 := rfl

theorem unchanged_cons_self (info : FileInfo) (emitted : Bool) (earlier : List Sight) :
    unchanged info (⟨info, emitted⟩ :: earlier) = unchanged info earlier + 1 := by
  simp [unchanged]

theorem unchanged_cons_of_ne {info : FileInfo} {sight : Sight} (earlier : List Sight)
    (hne : sight.info ≠ info) : unchanged info (sight :: earlier) = 0 := by
  simp [unchanged, hne]

/-- A file that is due was seen by the pass before, as it is now, and has not
been emitted since its observation began. -/
theorem Due.latest {base : Scanner} {record : List Entry} {listing : Listing} {name : String}
    (h : Due base record listing name) :
    ∃ info earlier, listing.file name = some info ∧
      sights base name record = ⟨info, false⟩ :: earlier ∧
      ∀ sight ∈ earlier, sight.emitted = false := by
  obtain ⟨_, info, hfile, hnone, hrun, _⟩ := h
  cases hsights : sights base name record with
  | nil =>
      rw [hsights] at hrun
      exact absurd hrun (lt_irrefl 0)
  | cons latest earlier =>
      rw [hsights] at hnone hrun
      obtain ⟨hlatest, hearlier⟩ := List.forall_mem_cons.mp hnone
      have hinfo : latest.info = info := by
        by_contra hne
        rw [unchanged_cons_of_ne _ hne] at hrun
        exact lt_irrefl 0 hrun
      refine ⟨info, earlier, hfile, ?_, hearlier⟩
      rw [← hinfo, ← hlatest]

/-! ## What the scanner keeps of it -/

/-- What the scanner keeps of a file is a summary of its current observation. -/
def Summary (base : Scanner) : List Sight → Option Observation → Prop
  | [], kept => kept = none
  | latest :: earlier, kept => ∃ obs, kept = some obs ∧
      obs.emitted = (latest :: earlier).any Sight.emitted ∧
      (obs.emitted = false →
        obs.size = latest.info.size ∧ obs.modTime = latest.info.modTime ∧
        obs.stableFor = unchanged latest.info earlier * base.policy.scanInterval ∧
        obs.stableFor < base.policy.quietWindow)

section Observe

variable (base : Scanner) (isPresent : Bool) {info : FileInfo} (clock : Instant)

theorem observe_emitted {obs : Observation} (hemitted : obs.emitted = true) :
    base.observe isPresent info clock (some obs) = (obs, false) := by
  simp [Scanner.observe, hemitted]

/-- A file that has changed starts its clock again. -/
theorem observe_changed {obs : Observation} (hemitted : obs.emitted = false)
    (hchanged : obs.size ≠ info.size ∨ obs.modTime ≠ info.modTime) :
    ∃ obs', base.observe isPresent info clock (some obs) = (obs', false) ∧
      obs'.emitted = false ∧ obs'.size = info.size ∧ obs'.modTime = info.modTime ∧
      obs'.stableFor = 0 := by
  simp [Scanner.observe, hemitted, hchanged]

/-- A file that is as it was has been stable for one interval more. -/
theorem observe_same {obs : Observation} (hemitted : obs.emitted = false)
    (hsize : obs.size = info.size) (hmodTime : obs.modTime = info.modTime) :
    ∃ obs' flag, base.observe isPresent info clock (some obs) = (obs', flag) ∧
      obs'.emitted = flag ∧ obs'.size = info.size ∧ obs'.modTime = info.modTime ∧
      obs'.stableFor = obs.stableFor + base.policy.scanInterval ∧
      (flag = true ↔ isPresent = true ∨ base.policy.quietWindow ≤ obs'.stableFor) := by
  by_cases hready : isPresent = true ∨
      base.policy.quietWindow ≤ obs.stableFor + base.policy.scanInterval
  · simp [Scanner.observe, hemitted, hsize, hmodTime, hready]
  · simp [Scanner.observe, hemitted, hsize, hmodTime, hready]

/-- One more sight emits the file exactly when the observation so far makes it
due, and what is kept summarises the observation with this sight. -/
theorem Summary.observe {seen : List Sight} {kept : Option Observation}
    (h : Summary base seen kept) :
    ∃ obs flag, base.observe isPresent info clock kept = (obs, flag) ∧
      Summary base (⟨info, flag⟩ :: seen) (some obs) ∧
      (flag = true ↔ (∀ sight ∈ seen, sight.emitted = false) ∧ 0 < unchanged info seen ∧
        (isPresent = true ∨
          base.policy.quietWindow ≤ unchanged info seen * base.policy.scanInterval)) := by
  cases seen with
  | nil =>
      obtain rfl : kept = none := h
      refine ⟨_, false, rfl, ⟨_, rfl, rfl, fun _ => ⟨rfl, rfl, ?_, base.window_pos⟩⟩, by simp⟩
      simp
  | cons latest earlier =>
      obtain ⟨obs, rfl, hany, hkept⟩ := h
      cases hemitted : obs.emitted with
      | true =>
          rw [hemitted] at hany
          refine ⟨obs, false, observe_emitted base isPresent clock hemitted, ⟨obs, rfl, ?_, ?_⟩, ?_⟩
          · rw [List.any_cons, ← hany, hemitted, Bool.or_true]
          · intro hrunning
            rw [hemitted] at hrunning
            cases hrunning
          · obtain ⟨sight, hmem, hsight⟩ := List.any_eq_true.mp hany.symm
            constructor
            · intro hflag
              cases hflag
            · rintro ⟨hnone, _⟩
              rw [hnone sight hmem] at hsight
              cases hsight
      | false =>
          rw [hemitted] at hany
          have hnone : ∀ sight ∈ latest :: earlier, sight.emitted = false := by
            simpa using List.any_eq_false.mp hany.symm
          obtain ⟨hsize, hmodTime, hstable, hquiet⟩ := hkept hemitted
          by_cases hinfo : latest.info = info
          · have hrun : unchanged info (latest :: earlier) = unchanged info earlier + 1 := by
              rw [← hinfo]
              exact unchanged_cons_self _ _ _
            rw [hinfo] at hsize hmodTime hstable
            obtain ⟨obs', flag, hobs, hflag, hsize', hmodTime', hstable', hready⟩ :=
              observe_same base isPresent clock hemitted hsize hmodTime
            have hlonger : obs'.stableFor =
                unchanged info (latest :: earlier) * base.policy.scanInterval := by
              rw [hstable', hstable, hrun, Nat.cast_succ, add_one_mul]
            refine ⟨obs', flag, hobs, ⟨obs', rfl, ?_, ?_⟩, ?_⟩
            · rw [List.any_cons, ← hany, hflag, Bool.or_false]
            · intro hrunning
              rw [hflag] at hrunning
              refine ⟨hsize', hmodTime', hlonger, ?_⟩
              have hearly := mt hready.mpr (Bool.not_eq_true _ ▸ hrunning)
              exact not_le.mp (not_or.mp hearly).2
            · rw [hready, hlonger]
              constructor
              · exact fun hdue => ⟨hnone, by rw [hrun]; exact Nat.succ_pos _, hdue⟩
              · exact fun hdue => hdue.2.2
          · have hrun : unchanged info (latest :: earlier) = 0 := unchanged_cons_of_ne _ hinfo
            have hchanged : obs.size ≠ info.size ∨ obs.modTime ≠ info.modTime := by
              rw [hsize, hmodTime, ← not_and_or]
              exact fun hsame => hinfo (FileInfo.ext hsame.1 hsame.2)
            obtain ⟨obs', hobs, hemitted', hsize', hmodTime', hstable'⟩ :=
              observe_changed base isPresent clock hemitted hchanged
            refine ⟨obs', false, hobs, ⟨obs', rfl, ?_, fun _ => ⟨hsize', hmodTime', ?_, ?_⟩⟩, ?_⟩
            · rw [List.any_cons, ← hany, hemitted', Bool.or_false]
            · rw [hstable', hrun, Nat.cast_zero, zero_mul]
            · rw [hstable']
              exact base.window_pos
            · simp [hrun]

end Observe

/-! ## Passes over regular files -/

/-- The candidates of a walk name paths of the listing, each at most once and in
its order. -/
theorem Scanner.ready_sublist (s : Scanner) (snapshot : Snapshot) (entries : List DirEntry)
    (pass : Pass) :
    ∃ fresh, (s.walk snapshot entries pass).1.ready = pass.ready ++ fresh ∧
      List.Sublist (fresh.map Candidate.path) (entries.map fun entry => s.path entry.name) := by
  induction entries generalizing pass with
  | nil => exact ⟨[], (List.append_nil _).symm, List.Sublist.refl _⟩
  | cons entry rest ih =>
      have hskip : ∃ fresh, (s.walk snapshot rest pass).1.ready = pass.ready ++ fresh ∧
          List.Sublist (fresh.map Candidate.path)
            ((entry :: rest).map fun entry => s.path entry.name) := by
        obtain ⟨fresh, hready, hsub⟩ := ih pass
        exact ⟨fresh, hready, hsub.cons _⟩
      unfold walk
      split
      · exact hskip
      · split
        · exact hskip
        · exact ⟨[], (List.append_nil _).symm, List.nil_sublist _⟩
        next info _ =>
          obtain ⟨fresh, hready, hsub⟩ := ih (s.sight snapshot entry.name info pass)
          rw [hready]
          unfold sight
          dsimp only
          split
          · exact ⟨⟨_, _, _, _, _⟩ :: fresh, List.append_assoc _ _ _, hsub.cons_cons _⟩
          · exact ⟨fresh, rfl, hsub.cons _⟩

namespace Listing

variable (base : Scanner) (listing : Listing)

theorem listed : ∀ entry ∈ listing.entries, ∃ info, entry.info = .ok info := by
  intro entry hentry
  obtain ⟨file, _, rfl⟩ := List.mem_map.mp hentry
  exact ⟨file.2, rfl⟩

/-- A pass comes to its end. -/
theorem scan_walk : ∃ pass,
    base.scan listing.snapshot =
      ({ base with seen := pass.seen.restrict fun path => pass.present.contains path },
        .ok pass.ready) ∧
    (base.walk listing.snapshot listing.entries { seen := base.seen }).1 = pass := by
  have hok : (base.walk listing.snapshot listing.entries { seen := base.seen }).2 = none :=
    Scanner.walk_ok listing.listed _
  obtain ⟨⟨pass, cause⟩, hpass⟩ :
      ∃ result, base.walk listing.snapshot listing.entries { seen := base.seen } = result :=
    ⟨_, rfl⟩
  rw [hpass] at hok ⊢
  obtain rfl : cause = none := hok
  refine ⟨pass, ?_, rfl⟩
  unfold Scanner.scan
  rw [snapshot]
  dsimp only
  rw [← snapshot, hpass]

/-- What a pass makes of a watched file of the listing. -/
theorem scan_present {name : String} {info : FileInfo} (hfile : listing.file name = some info)
    (hwatched : base.policy.ignored name = false) :
    ∃ ready, (base.scan listing.snapshot).2 = .ok ready ∧
      (base.scan listing.snapshot).1.seen.lookup (base.path name) = some (base.observe
        (base.sentinelPresent listing.snapshot (base.path name)) info listing.clock
        (base.seen.lookup (base.path name))).1 ∧
      ((∃ c ∈ ready, c.path = base.path name) ↔ (base.observe
        (base.sentinelPresent listing.snapshot (base.path name)) info listing.clock
        (base.seen.lookup (base.path name))).2 = true) := by
  refine base.scan_file listing.snapshot rfl (List.mem_map.mpr ⟨_, mem_files hfile, rfl⟩) ?_
    listing.listed hwatched
  rw [entries, List.map_map]
  exact listing.names_nodup

/-- A pass comes to its end, keeps nothing of a file that the listing does not
name, and does not emit it. -/
theorem scan_absent {name : String} (hfile : listing.file name = none) :
    ∃ ready, (base.scan listing.snapshot).2 = .ok ready ∧
      (base.scan listing.snapshot).1.seen.lookup (base.path name) = none ∧
      ¬ ∃ c ∈ ready, c.path = base.path name := by
  have hother : ∀ entry ∈ listing.entries, base.path entry.name ≠ base.path name := by
    intro entry hentry heq
    obtain ⟨file, hmem, rfl⟩ := List.mem_map.mp hentry
    exact absent hfile file hmem (base.path_injective heq)
  have hagree : Scanner.Agree (base.path name) { seen := base.seen }
      (base.walk listing.snapshot listing.entries { seen := base.seen }).1 :=
    Scanner.agree_walk hother _
  obtain ⟨pass, hscan, hpass⟩ := listing.scan_walk base
  rw [hpass] at hagree
  refine ⟨pass.ready, by rw [hscan], ?_, ?_⟩
  · rw [hscan, Table.lookup_restrict, if_neg]
    simp [hagree.present]
  · rw [hagree.ready]
    simp

/-- No path is emitted twice in one pass. -/
theorem scan_nodup {ready : List Candidate} (h : (base.scan listing.snapshot).2 = .ok ready) :
    (ready.map Candidate.path).Nodup := by
  obtain ⟨pass, hscan, hpass⟩ := listing.scan_walk base
  obtain ⟨fresh, hready, hsub⟩ := base.ready_sublist listing.snapshot listing.entries
    { seen := base.seen }
  rw [hscan] at h
  cases h
  rw [hpass] at hready
  rw [hready]
  have hpaths : (listing.entries.map fun entry => base.path entry.name) =
      (listing.files.map Prod.fst).map base.path := by
    simp [entries, Function.comp_def]
  rw [hpaths] at hsub
  exact (listing.names_nodup.map fun _ _ => base.path_injective).sublist hsub

end Listing

/-! ## Runs -/

/-- The scanner, knowing these files. -/
def Scanner.knowing (base : Scanner) (seen : Table String Observation) : Scanner :=
  { base with seen := seen }

namespace Scanner

variable (base : Scanner) (seen : Table String Observation)

@[simp]
theorem knowing_policy : (base.knowing seen).policy = base.policy := rfl

@[simp]
theorem knowing_path : (base.knowing seen).path = base.path := rfl

@[simp]
theorem knowing_sentinelPresent :
    (base.knowing seen).sentinelPresent = base.sentinelPresent := rfl

@[simp]
theorem knowing_observe : (base.knowing seen).observe = base.observe := rfl

@[simp]
theorem knowing_seen : (base.knowing seen).seen = seen := rfl

end Scanner

/-- The scanner has its policy, and summarises the record of every watched file. -/
def Faithful (base : Scanner) (watch : Watch) : Prop :=
  ∃ seen, watch.scanner = base.knowing seen ∧
    ∀ name, base.policy.ignored name = false →
      Summary base (sights base name watch.record) (seen.lookup (base.path name))

section Run

variable {base : Scanner} {watch : Watch}

theorem Faithful.start (hempty : base.seen = ∅) : Faithful base { scanner := base } := by
  refine ⟨base.seen, rfl, fun name _ => ?_⟩
  rw [hempty]
  exact AList.lookup_empty _

/-- What a pass makes of one watched file and its observation. -/
theorem Summary.scan {seen : Table String Observation} {name : String} {record : List Entry}
    (hwatched : base.policy.ignored name = false) (listing : Listing)
    (h : Summary base (sights base name record) (seen.lookup (base.path name))) :
    ∃ ready, ((base.knowing seen).scan listing.snapshot).2 = .ok ready ∧
      Summary base (sights base name (.scanned listing (.ok ready) :: record))
        (((base.knowing seen).scan listing.snapshot).1.seen.lookup (base.path name)) ∧
      ((∃ c ∈ ready, c.path = base.path name) ↔ Due base record listing name) := by
  cases hfile : listing.file name with
  | none =>
      obtain ⟨ready, hready, hlookup, hnone⟩ := listing.scan_absent (base.knowing seen) hfile
      refine ⟨ready, hready, ?_, ?_⟩
      · rw [sights, hfile]
        exact hlookup
      · rw [Due, hfile]
        exact ⟨fun hemits => absurd hemits hnone, fun ⟨_, _, hinfo, _⟩ => by cases hinfo⟩
  | some info =>
      obtain ⟨ready, hready, hlookup, hemits⟩ :=
        listing.scan_present (base.knowing seen) hfile hwatched
      obtain ⟨obs, flag, hobs, hsummary, hflag⟩ := @Summary.observe base
        (base.sentinelPresent listing.snapshot (base.path name)) info listing.clock _ _ h
      simp only [Scanner.knowing_path, Scanner.knowing_sentinelPresent, Scanner.knowing_observe,
        Scanner.knowing_seen, hobs] at hlookup hemits
      have hnow : emits (base.path name) (.ok ready) = flag :=
        Bool.eq_iff_iff.mpr (emits_ok.trans hemits)
      refine ⟨ready, hready, ?_, ?_⟩
      · rw [sights, hfile, hlookup]
        dsimp only
        rw [hnow]
        exact hsummary
      · rw [hemits, hflag, Due, hfile]
        simp [hwatched]

/-- A pass emits a watched file exactly when it is due, and the scanner still
summarises the record. -/
theorem Faithful.scan (h : Faithful base watch) (listing : Listing) :
    ∃ ready, (watch.scanner.scan listing.snapshot).2 = .ok ready ∧
      Faithful base (watch.step (.scan listing)) ∧
      ∀ name, base.policy.ignored name = false →
        ((∃ c ∈ ready, c.path = base.path name) ↔ Due base watch.record listing name) := by
  obtain ⟨seen, hscanner, hsummary⟩ := h
  obtain ⟨pass, hscan, _⟩ := listing.scan_walk (base.knowing seen)
  have hstep : watch.step (.scan listing) = {
      scanner := base.knowing (pass.seen.restrict fun path => pass.present.contains path)
      record := .scanned listing (.ok pass.ready) :: watch.record } := by
    rw [Watch.step, hscanner, hscan]
    rfl
  refine ⟨pass.ready, by rw [hscanner, hscan], ⟨_, congrArg Watch.scanner hstep, ?_⟩, ?_⟩
  · intro name hwatched
    obtain ⟨ready, hready, hsummary, _⟩ := (hsummary name hwatched).scan hwatched listing
    rw [hscan] at hready hsummary
    cases hready
    rw [hstep]
    exact hsummary
  · intro name hwatched
    obtain ⟨ready, hready, _, hdue⟩ := (hsummary name hwatched).scan hwatched listing
    rw [hscan] at hready
    cases hready
    exact hdue

/-- Forgetting a path ends its observation and no other. -/
theorem Faithful.forget (h : Faithful base watch) (path : String) :
    Faithful base (watch.step (.forget path)) := by
  obtain ⟨seen, hscanner, hsummary⟩ := h
  refine ⟨seen.erase path, ?_, fun name hwatched => ?_⟩
  · rw [Watch.step, hscanner]
    rfl
  show Summary base (sights base name (.forgotten path :: watch.record)) _
  unfold sights
  split
  next heq =>
    rw [heq]
    exact AList.lookup_erase _ _
  next hne =>
    rw [AList.lookup_erase_ne fun heq => hne heq.symm]
    exact hsummary name hwatched

theorem Faithful.run (h : Faithful base watch) (events : List ScannerEvent) :
    Faithful base (watch.run events) := by
  induction events generalizing watch with
  | nil => exact h
  | cons event rest ih =>
      apply ih
      cases event with
      | scan listing =>
          obtain ⟨_, _, hstep, _⟩ := h.scan listing
          exact hstep
      | forget path => exact h.forget path

/-- The sum that a pass forms for a file it has not emitted is in range. -/
theorem Faithful.in_range (h : Faithful base watch)
    (hfits : base.policy.quietWindow + base.policy.scanInterval < 2 ^ 63) {name : String}
    (hwatched : base.policy.ignored name = false) {obs : Observation}
    (hobs : watch.scanner.seen.lookup (base.path name) = some obs)
    (hemitted : obs.emitted = false) :
    obs.stableFor + base.policy.scanInterval < 2 ^ 63 := by
  obtain ⟨seen, hscanner, hsummary⟩ := h
  have hkept := hsummary name hwatched
  rw [hscanner] at hobs
  cases hsights : sights base name watch.record with
  | nil =>
      rw [hsights] at hkept
      cases hkept.symm.trans hobs
  | cons latest earlier =>
      rw [hsights] at hkept
      obtain ⟨obs', hobs', _, hrunning⟩ := hkept
      cases hobs'.symm.trans hobs
      obtain ⟨_, _, _, hquiet⟩ := hrunning hemitted
      exact (Int.add_lt_add_right hquiet _).trans hfits

end Run

/-- A pass emits exactly the files whose current observation makes them due, each
once, and no sum of durations leaves 64 bits. -/
theorem scan_emits (dir : String) (policy : Policy)
    (hfits : (newScanner dir policy).policy.quietWindow +
      (newScanner dir policy).policy.scanInterval < 2 ^ 63)
    (events : List ScannerEvent) (listing : Listing) :
    let base := newScanner dir policy
    let watch := Watch.run { scanner := base } events
    ∃ ready, (watch.scanner.scan listing.snapshot).2 = .ok ready ∧
      (ready.map Candidate.path).Nodup ∧
      (∀ path, path ∈ ready.map Candidate.path ↔
        ∃ name, path = base.path name ∧ Due base watch.record listing name) ∧
      (∀ name, Due base watch.record listing name →
        ∃ info earlier, listing.file name = some info ∧
          sights base name watch.record = ⟨info, false⟩ :: earlier ∧
          ∀ sight ∈ earlier, sight.emitted = false) ∧
      ∀ name obs, base.policy.ignored name = false →
        watch.scanner.seen.lookup (base.path name) = some obs → obs.emitted = false →
        obs.stableFor + base.policy.scanInterval < 2 ^ 63 := by
  intro base watch
  have hfaithful : Faithful base watch := (Faithful.start rfl).run events
  obtain ⟨ready, hready, _, hdue⟩ := hfaithful.scan listing
  refine ⟨ready, hready, listing.scan_nodup _ hready, fun path => ?_, fun name => Due.latest,
    fun name obs hwatched => hfaithful.in_range hfits hwatched⟩
  obtain ⟨seen, hscanner, _⟩ := hfaithful
  rw [List.mem_map]
  constructor
  · rintro ⟨c, hmem, rfl⟩
    obtain ⟨name, hpath, hwatched⟩ := watch.scanner.ready_scan listing.snapshot hready c hmem
    rw [hscanner] at hpath hwatched
    exact ⟨name, hpath, (hdue name hwatched).mp ⟨c, hmem, hpath⟩⟩
  · rintro ⟨name, rfl, hname⟩
    exact (hdue name hname.1).mpr hname

/-- A listing of one file without its sentinel. -/
def single (name : String) (info : FileInfo) : Listing where
  files := [(name, info)]
  stats _ := false
  clock := 0
  names_nodup := List.nodup_singleton _

/-- Three intervals of two seconds make a file due that does not change for five,
and the pass emits it. -/
theorem scan_emits_settled :
    let events := List.replicate 3 (ScannerEvent.scan (single "a.csv" ⟨10, 0⟩))
    let watch := Watch.run { scanner := newScanner "/landing" defaultPolicy } events
    ∃ ready, (watch.scanner.scan (single "a.csv" ⟨10, 0⟩).snapshot).2 = .ok ready ∧
      "/landing/a.csv" ∈ ready.map Candidate.path := by
  obtain ⟨ready, hready, _, hemits, _⟩ := scan_emits "/landing" defaultPolicy (by decide)
    (List.replicate 3 (ScannerEvent.scan (single "a.csv" ⟨10, 0⟩))) (single "a.csv" ⟨10, 0⟩)
  refine ⟨ready, hready, (hemits _).mpr ⟨"a.csv", by decide, by decide, ⟨10, 0⟩, ?_⟩⟩
  decide

end Harbormaster.Arrival
