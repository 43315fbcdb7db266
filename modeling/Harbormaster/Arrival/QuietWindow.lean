import Harbormaster.Arrival.Landing

/-! # A file through its quiet window

While a watched file stays as it is, every pass brings it closer to its
emission, and the handling of its candidate delivers its content. A window holds
enough passes when one of them finds the file for the first time and the others
add up to the quiet window.
-/

namespace Harbormaster.Arrival

open Effect Program Keyed

namespace Landing

variable (objects : ObjectStore) (base : Scanner) (name : String) (file : File)

/-- `Handle` returned no error, or found no file where the candidate had been. -/
def Unfailing (state : Landing) : Step → Prop
  | .handle script => ∀ c ∈ state.pending.head?,
      (state.attempt objects base c script).2 = .value () ∨
      state.fileAt base c.path = none ∧
        (state.attempt objects base c script).2 = .error (.openFile c.name)
  | _ => True

instance (state : Landing) (step : Step) : Decidable (Unfailing objects base state step) :=
  match step with
  | .handle _ => inferInstanceAs (Decidable (∀ c ∈ state.pending.head?, _))
  | .write _ _ | .remove _ | .scan _ | .restart => .isTrue trivial

/-- The step leaves the file as it is and the process running. -/
def Spares : Step → Prop
  | .write other _ => other ≠ name
  | .remove other => other ≠ name
  | .restart => False
  | _ => True

def passes (steps : List Step) : Nat :=
  steps.countP fun
    | .scan _ => true
    | _ => false

/-- A published message carries this content hash. -/
def Carried (messages : List Message) (sha256 : String) : Prop :=
  ∃ message ∈ messages, contentOf message = some sha256

/-- The table holds this content hash. -/
def Held (rows : List Record) (sha256 : String) : Prop := ∃ row ∈ rows, row.sha256 = sha256

/-- The content was published. -/
def Delivered (state : Landing) : Prop := Carried state.published (objects.digest file.content)

/-- The arrival table holds the content. -/
def Known (state : Landing) : Prop := Held state.rows (objects.digest file.content)

/-- A candidate for the file waits to be handled. -/
def Waiting (state : Landing) : Prop := ∃ c ∈ state.pending, c.path = base.path name

/-- The scanner does not take the file for one it has emitted. -/
def Unemitted (state : Landing) : Prop :=
  ∀ obs, state.seen.lookup (base.path name) = some obs → obs.emitted = false

/-- The file will be emitted, or its candidate handled. -/
def Watched (state : Landing) : Prop := Unemitted base name state ∨ Waiting base name state

/-- What the scanner knows after a number of passes over the unchanged file that
have not emitted it. -/
def Settling (seen : Option Observation) : Nat → Prop
  | 0 => ∀ obs, seen = some obs → obs.emitted = false
  | count + 1 => ∃ obs, seen = some obs ∧ obs.emitted = false ∧
      obs.size = file.info.size ∧ obs.modTime = file.info.modTime ∧
      count * base.policy.scanInterval ≤ obs.stableFor ∧ obs.stableFor < base.policy.quietWindow

variable {objects base name file}

/-- A pass that does not emit the file brings it one interval further. -/
theorem Settling.observe {seen : Option Observation} {count : Nat} {isPresent : Bool}
    {clock : Instant} (h : Settling base file seen count)
    (hflag : (base.observe isPresent file.info clock seen).2 = false) :
    Settling base file (some (base.observe isPresent file.info clock seen).1) (count + 1) := by
  have hinterval := base.interval_pos
  have hwindow := base.window_pos
  cases seen with
  | none =>
      cases count with
      | zero => exact ⟨_, rfl, rfl, rfl, rfl, by simp [Scanner.observe], hwindow⟩
      | succ count =>
          obtain ⟨obs, hseen, _⟩ := h
          cases hseen
  | some obs =>
      have hemitted : obs.emitted = false := by
        cases count with
        | zero => exact h obs rfl
        | succ count =>
            obtain ⟨obs', hseen, hemitted, _⟩ := h
            exact Option.some.inj hseen ▸ hemitted
      obtain ⟨obs', hobs, hemitted', hsize, hmodTime, hquiet, hstable⟩ :=
        base.observe_unready hemitted hflag
      rw [hobs]
      refine ⟨obs', rfl, hemitted', hsize, hmodTime, ?_, hquiet⟩
      cases count with
      | zero => simpa using obs'.stable_nonneg
      | succ count =>
          obtain ⟨obs, hseen, _, hsize, hmodTime, hleast, _⟩ := h
          cases hseen
          have hstable := hstable.resolve_left (by simp [hsize, hmodTime])
          rw [hstable, Nat.cast_succ, add_one_mul]
          exact Int.add_le_add_right hleast _

/-- After enough passes the file cannot be settling any more. -/
theorem Settling.elim {seen : Option Observation} {count passed : Nat}
    (h : Settling base file seen passed)
    (henough : base.policy.quietWindow ≤ count * base.policy.scanInterval)
    (hpassed : count < passed) : False := by
  obtain ⟨passed, rfl⟩ := Nat.exists_eq_add_of_lt hpassed
  obtain ⟨obs, _, _, _, _, hleast, hquiet⟩ := h
  have hmore : (count : Int) * base.policy.scanInterval ≤
      (count + passed : Nat) * base.policy.scanInterval :=
    Int.mul_le_mul_of_nonneg_right (by omega) base.interval_pos.le
  exact absurd (henough.trans (hmore.trans hleast)) (not_le.mpr hquiet)

variable {state : Landing}

/-- A pass either emits the file or settles it further. -/
theorem scan_settling (hfile : state.directory.lookup name = some file)
    (hwatched : base.policy.ignored name = false) (clock : Instant) :
    ∃ ready, state.scan base clock =
        { state with
          seen := (state.scan base clock).seen
          pending := state.pending ++ ready
          emitted := state.emitted ++ ready } ∧
      ((∃ c ∈ ready, c.path = base.path name) ∨
        ∀ count, Settling base file (state.seen.lookup (base.path name)) count →
          Settling base file ((state.scan base clock).seen.lookup (base.path name))
            (count + 1)) := by
  obtain ⟨ready, isPresent, hscan, hseen, hready⟩ := scan_file hfile hwatched clock
  refine ⟨ready, hscan, ?_⟩
  rw [hready, hseen]
  cases hflag : (base.observe isPresent file.info clock
    (state.seen.lookup (base.path name))).2 with
  | true => exact .inl rfl
  | false => exact .inr fun count h => h.observe hflag

/-! ## Handling without failure -/

/-- What a failure-free handling of a candidate does: it forgets at most the
candidate's path, publishes every content it records, and has recorded its own
content if there was any. -/
structure Handled (objects : ObjectStore) (base : Scanner) (state : Landing) (c : Candidate)
    (rows : List Record) (messages : List Message) (paths : List String) : Prop where
  forgets : ∀ path ∈ paths, path = c.path
  records : ∀ sha256, Held rows sha256 → Held state.rows sha256 ∨ Carried messages sha256
  own : ∀ content, state.read base c.path = some content →
    Held state.rows (objects.digest content) ∨ Carried messages (objects.digest content)

theorem Unfailing.handled {script : Script Choice}
    (hunfailing : Unfailing objects base state (.handle script)) {c : Candidate}
    {rest : List Candidate} (hpending : state.pending = c :: rest) :
    ∃ rows messages paths, Handled objects base state c rows messages paths ∧
      state.handleNext objects base script =
        { state with
          seen := (paths.foldl Scanner.forget (state.scanner base)).seen
          pending := rest
          rows := rows
          published := state.published ++ messages } := by
  obtain ⟨⟨world, ending⟩, hattempt⟩ : ∃ result, state.attempt objects base c script = result :=
    ⟨_, rfl⟩
  have hhead : c ∈ state.pending.head? := by
    rw [hpending]
    rfl
  rcases hunfailing c hhead with hvalue | ⟨hmissing, herror⟩
  · rw [hattempt] at hvalue
    obtain rfl : ending = .value () := hvalue
    have hending : (state.attempt objects base c script).2 ≠ .stopped := by
      rw [hattempt]
      simp
    rcases completed_of_value hattempt with
      ⟨content, hread, hknown, hleft⟩ | ⟨content, row, message, hread, hrow, hmessage, hleft⟩
    · refine ⟨_, _, _, ⟨fun _ hmem => absurd hmem List.not_mem_nil, fun _ => .inl, ?_⟩,
        handleNext_eq hpending hending (by rw [hattempt]; exact hleft)⟩
      intro content' hread'
      rw [hread] at hread'
      exact .inl (Option.some.inj hread' ▸ hknown)
    · refine ⟨_, _, _, ⟨fun _ hmem => List.mem_singleton.mp hmem, ?_, ?_⟩,
        handleNext_eq hpending hending (by rw [hattempt]; exact hleft)⟩
      · rintro sha256 ⟨stored, hstored, hsha⟩
        rcases List.mem_append.mp hstored with hold | hnew
        · exact .inl ⟨stored, hold, hsha⟩
        · rw [List.mem_singleton.mp hnew, hrow] at hsha
          exact .inr ⟨message, List.mem_singleton_self _, by rw [hmessage, hsha]⟩
      · intro content' hread'
        rw [hread] at hread'
        exact .inr ⟨message, List.mem_singleton_self _, Option.some.inj hread' ▸ hmessage⟩
  · rw [hattempt] at herror
    obtain rfl : ending = .error (.openFile c.name) := herror
    refine ⟨_, _, _, ⟨fun _ hmem => absurd hmem List.not_mem_nil, fun _ => .inl, ?_⟩,
      handleNext_eq hpending (by rw [hattempt]; simp)
        (by rw [hattempt]; exact left_of_missing hattempt)⟩
    intro content hread
    rw [read, hmissing] at hread
    cases hread

/-- After a handling, an observation of another path is as it was. -/
theorem Handled.lookup {c : Candidate} {rows : List Record} {messages : List Message}
    {paths : List String} (h : Handled objects base state c rows messages paths)
    {path : String} (hne : c.path ≠ path) :
    (paths.foldl Scanner.forget (state.scanner base)).seen.lookup path =
      state.seen.lookup path :=
  Scanner.lookup_forget _ fun hmem => hne (h.forgets path hmem).symm

/-! ## The content of the file -/

/-- What the window keeps: the file is there, its content is published if it is
known, and it is delivered, about to be handled, or still settling. -/
structure Passing (objects : ObjectStore) (base : Scanner) (name : String) (file : File)
    (passed : Nat) (state : Landing) : Prop where
  present : state.directory.lookup name = some file
  backed : Known objects file state → Delivered objects file state
  progress : Delivered objects file state ∨ Waiting base name state ∨
    Settling base file (state.seen.lookup (base.path name)) passed

/-- A failure-free handling of any candidate keeps the window. -/
theorem Passing.handle {script : Script Choice} {passed : Nat}
    (h : Passing objects base name file passed state)
    (hunfailing : Unfailing objects base state (.handle script)) :
    Passing objects base name file passed (state.handleNext objects base script) := by
  cases hpending : state.pending with
  | nil =>
      rw [handleNext, hpending]
      exact h
  | cons c rest =>
      obtain ⟨rows, messages, paths, hhandled, hnext⟩ := hunfailing.handled hpending
      rw [hnext]
      have hdelivered : Known objects file state ∨ Carried messages (objects.digest file.content) →
          Carried (state.published ++ messages) (objects.digest file.content) := by
        rintro (hknown | ⟨message, hmem, hcontent⟩)
        · obtain ⟨message, hmem, hcontent⟩ := h.backed hknown
          exact ⟨message, List.mem_append_left _ hmem, hcontent⟩
        · exact ⟨message, List.mem_append_right _ hmem, hcontent⟩
      refine ⟨h.present, fun hknown => hdelivered (hhandled.records _ hknown), ?_⟩
      by_cases hpath : c.path = base.path name
      · exact .inl (hdelivered (hhandled.own _ (hpath ▸ read_path h.present)))
      · rcases h.progress with ⟨message, hmem, hcontent⟩ | ⟨c', hmem, hpath'⟩ | hsettling
        · exact .inl ⟨message, List.mem_append_left _ hmem, hcontent⟩
        · rw [hpending] at hmem
          rcases List.mem_cons.mp hmem with rfl | hmem
          · exact absurd hpath' hpath
          · exact .inr (.inl ⟨c', hmem, hpath'⟩)
        · refine .inr (.inr ?_)
          dsimp only
          rw [hhandled.lookup hpath]
          exact hsettling

/-- One step of the window; a pass counts. -/
theorem Passing.step {passed : Nat} (h : Passing objects base name file passed state)
    (hwatched : base.policy.ignored name = false) {step : Step} (hspares : Spares name step)
    (hunfailing : Unfailing objects base state step) :
    Passing objects base name file (passed + passes [step]) (state.step objects base step) := by
  cases step with
  | write other content =>
      exact ⟨(AList.lookup_insert_ne (Ne.symm hspares)).trans h.present, h.backed, h.progress⟩
  | remove other =>
      exact ⟨(AList.lookup_erase_ne (Ne.symm hspares)).trans h.present, h.backed, h.progress⟩
  | scan clock =>
      obtain ⟨ready, hscan, hready⟩ := scan_settling h.present hwatched clock
      change Passing objects base name file (passed + 1) (state.scan base clock)
      rw [hscan]
      refine ⟨h.present, h.backed, ?_⟩
      rcases h.progress with hdelivered | ⟨c, hmem, hpath⟩ | hsettling
      · exact .inl hdelivered
      · exact .inr (.inl ⟨c, List.mem_append_left _ hmem, hpath⟩)
      · rcases hready with ⟨c, hmem, hpath⟩ | hsettles
        · exact .inr (.inl ⟨c, List.mem_append_right _ hmem, hpath⟩)
        · exact .inr (.inr (hsettles passed hsettling))
  | handle script => exact h.handle hunfailing
  | restart => exact hspares.elim

/-- What every spared, failure-free step keeps is kept by a whole window. -/
theorem window_induction {motive : Nat → Landing → Prop} (passed : Nat) {steps : List Step}
    (hstep : ∀ passed state step, motive passed state → Spares name step →
      Unfailing objects base state step →
      motive (passed + passes [step]) (Landing.step objects base state step))
    (hstart : motive passed state) (hspares : ∀ step ∈ steps, Spares name step)
    (hunfailing : Along (Landing.step objects base) (Unfailing objects base) state steps) :
    motive (passed + passes steps) (state.runAll objects base steps) := by
  induction steps generalizing state passed with
  | nil => exact hstart
  | cons step rest ih =>
      have hnext := hstep passed state step hstart (hspares step List.mem_cons_self) hunfailing.1
      have hrest := ih _ hnext (fun later hlater => hspares later (List.mem_cons_of_mem _ hlater))
        hunfailing.2
      have hcount : passes ([step] ++ rest) = passes [step] + passes rest := List.countP_append
      change motive (passed + passes ([step] ++ rest)) _
      rw [hcount, ← Nat.add_assoc]
      exact hrest

/-- A file that stays as it is through a failure-free window with enough passes
is delivered once its candidates were handled. -/
theorem Passing.delivered {count : Nat} {steps : List Step}
    (h : Passing objects base name file 0 state)
    (hwatched : base.policy.ignored name = false) (hspares : ∀ step ∈ steps, Spares name step)
    (hunfailing : Along (Landing.step objects base) (Unfailing objects base) state steps)
    (henough : base.policy.quietWindow ≤ count * base.policy.scanInterval)
    (hpasses : count < passes steps)
    (hdrained : ¬ Waiting base name (state.runAll objects base steps)) :
    Delivered objects file (state.runAll objects base steps) := by
  have hend : Passing objects base name file (0 + passes steps)
      (state.runAll objects base steps) :=
    window_induction 0 (fun _ _ _ h => h.step hwatched) h hspares hunfailing
  rw [Nat.zero_add] at hend
  rcases hend.progress with hdelivered | hwaiting | hsettling
  · exact hdelivered
  · exact absurd hwaiting hdrained
  · exact (hsettling.elim henough hpasses).elim

/-! ## The emission of the file -/

/-- Since `origin` the file was emitted, or a candidate for it was waiting
already; or it is still settling. -/
structure Noticed (base : Scanner) (name : String) (file : File) (origin : Landing)
    (passed : Nat) (state : Landing) : Prop where
  present : state.directory.lookup name = some file
  progress : ∃ more, state.emitted = origin.emitted ++ more ∧
    (∀ c ∈ state.pending, c ∈ origin.pending ++ more) ∧
    ((∃ c ∈ origin.pending ++ more, c.path = base.path name) ∨
      Settling base file (state.seen.lookup (base.path name)) passed)

theorem Noticed.step {origin : Landing} {passed : Nat}
    (h : Noticed base name file origin passed state)
    (hwatched : base.policy.ignored name = false) {step : Step} (hspares : Spares name step)
    (hunfailing : Unfailing objects base state step) :
    Noticed base name file origin (passed + passes [step])
      (state.step objects base step) := by
  cases step with
  | write other content =>
      exact ⟨(AList.lookup_insert_ne (Ne.symm hspares)).trans h.present, h.progress⟩
  | remove other =>
      exact ⟨(AList.lookup_erase_ne (Ne.symm hspares)).trans h.present, h.progress⟩
  | scan clock =>
      obtain ⟨more, hemitted, hpending, hprogress⟩ := h.progress
      obtain ⟨ready, hscan, hready⟩ := scan_settling h.present hwatched clock
      change Noticed base name file origin (passed + 1) (state.scan base clock)
      rw [hscan]
      refine ⟨h.present, more ++ ready, ?_, ?_, ?_⟩
      · exact (congrArg (· ++ ready) hemitted).trans (List.append_assoc _ _ _)
      · intro c hmem
        rw [← List.append_assoc]
        rcases List.mem_append.mp hmem with hold | hnew
        · exact List.mem_append_left _ (hpending c hold)
        · exact List.mem_append_right _ hnew
      · rw [← List.append_assoc]
        rcases hprogress with ⟨c, hmem, hpath⟩ | hsettling
        · exact .inl ⟨c, List.mem_append_left _ hmem, hpath⟩
        · rcases hready with ⟨c, hmem, hpath⟩ | hsettles
          · exact .inl ⟨c, List.mem_append_right _ hmem, hpath⟩
          · exact .inr (hsettles passed hsettling)
  | handle script =>
      change Noticed base name file origin passed (state.handleNext objects base script)
      cases hwaiting : state.pending with
      | nil =>
          rw [handleNext, hwaiting]
          exact h
      | cons c rest =>
          obtain ⟨rows, messages, paths, hhandled, hnext⟩ := hunfailing.handled hwaiting
          obtain ⟨more, hemitted, hpending, hprogress⟩ := h.progress
          rw [hwaiting] at hpending
          rw [hnext]
          refine ⟨h.present, more, hemitted,
            fun c' hmem => hpending c' (List.mem_cons_of_mem _ hmem), ?_⟩
          by_cases hpath : c.path = base.path name
          · exact .inl ⟨c, hpending c List.mem_cons_self, hpath⟩
          · refine hprogress.imp_right fun hsettling => ?_
            dsimp only
            rw [hhandled.lookup hpath]
            exact hsettling
  | restart => exact hspares.elim

/-- A settling file is emitted in a window with enough passes. -/
theorem Noticed.emitted {origin : Landing} {count : Nat} {steps : List Step}
    (h : Noticed base name file origin 0 state)
    (hwatched : base.policy.ignored name = false) (hspares : ∀ step ∈ steps, Spares name step)
    (hunfailing : Along (Landing.step objects base) (Unfailing objects base) state steps)
    (henough : base.policy.quietWindow ≤ count * base.policy.scanInterval)
    (hpasses : count < passes steps) :
    ∃ more, (state.runAll objects base steps).emitted = origin.emitted ++ more ∧
      ∃ c ∈ origin.pending ++ more, c.path = base.path name := by
  have hend : Noticed base name file origin (0 + passes steps)
      (state.runAll objects base steps) :=
    window_induction 0 (fun _ _ _ h => h.step hwatched) h hspares hunfailing
  rw [Nat.zero_add] at hend
  obtain ⟨more, hemitted, _, hnoticed | hsettling⟩ := hend.progress
  · exact ⟨more, hemitted, hnoticed⟩
  · exact (hsettling.elim henough hpasses).elim

end Landing

end Harbormaster.Arrival
