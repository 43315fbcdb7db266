import Harbormaster.Arrival.World

/-! # One Portwatch process over its landing directory

The directory changes, the scanner passes over it, the candidates it emits are
handled one after another, and the process may stop and start again. What the
scanner remembers and the candidates waiting are lost when the process stops;
the arrival table and what was published are not.
-/

namespace Harbormaster.Arrival

open Effect Program Keyed

/-- A regular file. -/
structure File where
  content : Content
  modTime : Instant
deriving DecidableEq, Repr

def File.info (file : File) : FileInfo := ⟨file.content.length, file.modTime⟩

def dirEntry (entry : String × File) : DirEntry := ⟨entry.1, false, .ok entry.2.info⟩

/-- The landing directory by file name, the process, and what outlives it.
`emitted` lists every candidate emitted so far. -/
structure Landing where
  directory : Table String File := ∅
  seen : Table String Observation := ∅
  pending : List Candidate := []
  emitted : List Candidate := []
  rows : List Record := []
  published : List Message := []

inductive Step where
  | write (name : String) (file : File)
  | remove (name : String)
  | scan (clock : Instant)
  | handle (script : Script Choice)
  | restart

namespace Landing

variable (objects : ObjectStore) (base : Scanner) (state : Landing)

/-- The scanner with what it remembers. -/
def scanner : Scanner := { base with seen := state.seen }

/-- The file at a path. -/
def fileAt (path : String) : Option File :=
  ((state.directory.select fun name _ => base.path name = path).head?).map Prod.snd

def read (path : String) : Option Content := (state.fileAt base path).map File.content

/-- The files in the order of their names. -/
def listing : List (String × File) :=
  (state.directory.select fun _ _ => true).insertionSort fun entry entry' => entry.1 ≤ entry'.1

/-- The directory as a pass finds it. -/
def snapshot (clock : Instant) : Snapshot where
  entries := some (state.listing.map dirEntry)
  stats path := (state.fileAt base path).isSome
  clock := clock

def restart : Landing := { state with seen := ∅, pending := [] }

/-- One pass. A pass that fails shuts the process down. -/
def scan (clock : Instant) : Landing :=
  match (state.scanner base).scan (state.snapshot base clock) with
  | (scanner, .ok ready) =>
      { state with
        seen := scanner.seen
        pending := state.pending ++ ready
        emitted := state.emitted ++ ready }
  | (_, .error _) => state.restart

/-- The execution of `Handle` on a candidate, with the files as they are. -/
def attempt (c : Candidate) (script : Script Choice) : World × Ending Failure Unit :=
  (handle base.dir c ingressFtp).run (perform objects)
    (fun index => (script index).map fun choice => { choice with read := state.read base })
    ⟨state.rows, []⟩

/-- Handle the first candidate that waits. An execution that is stopped has
stopped the process. -/
def handleNext (script : Script Choice) : Landing :=
  match state.pending with
  | [] => state
  | c :: rest =>
      let (world, ending) := state.attempt objects base c script
      let handled := { state with
        seen := (world.forgotten.foldl Scanner.forget (state.scanner base)).seen
        pending := rest
        rows := world.state
        published := state.published ++ world.published }
      if ending = .stopped then handled.restart else handled

def step : Step → Landing
  | .write name file => { state with directory := state.directory.insert name file }
  | .remove name => { state with directory := state.directory.erase name }
  | .scan clock => state.scan base clock
  | .handle script => state.handleNext objects base script
  | .restart => state.restart

def runAll (steps : List Step) : Landing := steps.foldl (step objects base) state

/-! ## The directory -/

variable {base state} {name : String}

theorem fileAt_path : state.fileAt base (base.path name) = state.directory.lookup name := by
  unfold fileAt
  obtain ⟨found, hfound⟩ : ∃ found, state.directory.select
    (fun other _ => base.path other = base.path name) = found := ⟨_, rfl⟩
  have hmem : ∀ entry : String × File, entry ∈ found ↔
      state.directory.lookup entry.1 = some entry.2 ∧ entry.1 = name := by
    intro entry
    rw [← hfound, Table.mem_select, decide_eq_true_eq]
    exact and_congr_right' ⟨fun h => base.path_injective h, congrArg base.path⟩
  rw [hfound]
  cases found with
  | nil =>
      cases hlookup : state.directory.lookup name with
      | none => rfl
      | some file => exact absurd ((hmem (name, file)).mpr ⟨hlookup, rfl⟩) List.not_mem_nil
  | cons entry rest =>
      obtain ⟨hlookup, rfl⟩ := (hmem entry).mp List.mem_cons_self
      exact hlookup.symm

theorem read_path {file : File} (hfile : state.directory.lookup name = some file) :
    state.read base (base.path name) = some file.content := by
  rw [read, fileAt_path, hfile]
  rfl

/-- What a pass makes of a watched file: its observation is updated, and it is
emitted if it has become ready. -/
theorem scan_file {file : File} (hfile : state.directory.lookup name = some file)
    (hwatched : base.policy.ignored name = false) (clock : Instant) :
    ∃ ready isPresent, state.scan base clock =
        { state with
          seen := (state.scan base clock).seen
          pending := state.pending ++ ready
          emitted := state.emitted ++ ready } ∧
      (state.scan base clock).seen.lookup (base.path name) = some (base.observe isPresent
        file.info clock (state.seen.lookup (base.path name))).1 ∧
      ((∃ c ∈ ready, c.path = base.path name) ↔ (base.observe isPresent
        file.info clock (state.seen.lookup (base.path name))).2 = true) := by
  have hperm : state.listing.Perm (state.directory.select fun _ _ => true) :=
    List.perm_insertionSort _ _
  have hentry : (name, file) ∈ state.listing :=
    hperm.mem_iff.mpr ((Table.mem_select _ _ _ _).mpr ⟨hfile, rfl⟩)
  have hnodup : ((state.listing.map dirEntry).map DirEntry.name).Nodup := by
    rw [List.map_map]
    exact (hperm.map Prod.fst).nodup_iff.mpr (Table.select_keys_nodup _ _)
  obtain ⟨ready, hready, hseen, hemitted⟩ := (state.scanner base).scan_file
    (state.snapshot base clock) rfl (List.mem_map_of_mem hentry) hnodup
    (fun entry hmem => by
      obtain ⟨found, _, rfl⟩ := List.mem_map.mp hmem
      exact ⟨_, rfl⟩) hwatched
  have hscan : state.scan base clock =
      { state with
        seen := ((state.scanner base).scan (state.snapshot base clock)).1.seen
        pending := state.pending ++ ready
        emitted := state.emitted ++ ready } := by
    unfold scan
    split
    next scanner found hresult =>
      rw [hresult] at hready ⊢
      cases hready
      rfl
    next scanner cause hresult =>
      rw [hresult] at hready
      cases hready
  refine ⟨ready, _, ?_, ?_, hemitted⟩
  · rw [hscan]
  · rw [hscan]
    exact hseen

/-! ## Handling one candidate -/

variable {objects} {c : Candidate} {rest : List Candidate} {script : Script Choice}

variable (objects base state c script) in
theorem attempt_endsIn :
    EndsIn (fun _ => True) (Ends state.rows fun world _ =>
      Completed objects (state.read base) state.rows c world)
      (state.attempt objects base c script) := by
  have hspec : Meets objects (state.read base) state.rows _ _ ⟨state.rows, []⟩ :=
    handle_spec base.dir c ingressFtp ⟨rfl, rfl, rfl⟩
  refine Spec.run hspec (obeys_of_forall _ (fun index choice hchoice _ _ => ?_) _)
  obtain ⟨choice', _, rfl⟩ := Option.map_eq_some_iff.mp hchoice
  rfl

theorem completed_of_value {world : World}
    (h : state.attempt objects base c script = (world, .value ())) :
    Completed objects (state.read base) state.rows c world := by
  have hends := attempt_endsIn objects base state c script
  rw [h] at hends
  exact hends

theorem left_of_missing {world : World} {missing : String}
    (h : state.attempt objects base c script = (world, .error (.openFile missing))) :
    Left state.rows [] [] world := by
  have hends := attempt_endsIn objects base state c script
  rw [h] at hends
  exact hends

/-- What an execution that was not stopped leaves of the state. -/
theorem handleNext_eq (hpending : state.pending = c :: rest)
    (hending : (state.attempt objects base c script).2 ≠ .stopped) {rows : List Record}
    {messages : List Message} {paths : List String}
    (hleft : Left rows messages paths (state.attempt objects base c script).1) :
    state.handleNext objects base script =
      { state with
        seen := (paths.foldl Scanner.forget (state.scanner base)).seen
        pending := rest
        rows := rows
        published := state.published ++ messages } := by
  unfold handleNext
  rw [hpending]
  dsimp only
  rw [if_neg hending, hleft.state, hleft.published, hleft.forgotten]

end Landing

end Harbormaster.Arrival
