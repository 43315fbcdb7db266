import Harbormaster.Arrival.QuietWindow

/-! # What is delivered of the landing directory

When a correction overwrites a file, and when a file lands in a process that has
failed and been started again: in both cases the content is delivered as long as
the scanner does not take the file for one it has dealt with, and the table does
not hold content that was never published.
-/

namespace Harbormaster.Arrival

open Effect Program Keyed

namespace Landing

variable {objects : ObjectStore} {base : Scanner} {name : String} {file : File} {state : Landing}

/-! ## Candidates come from watched files -/

/-- Every candidate is one of a file that the scanner does not ignore. -/
def Sourced (base : Scanner) (state : Landing) : Prop :=
  ∀ c ∈ state.pending ++ state.emitted,
    ∃ name, c.path = base.path name ∧ base.policy.ignored name = false

theorem Sourced.restart (h : Sourced base state) : Sourced base state.restart :=
  fun c hmem => h c (List.mem_append_right _ hmem)

theorem Sourced.step (h : Sourced base state) (step : Step) :
    Sourced base (state.step objects base step) := by
  cases step with
  | write other content => exact h
  | remove other => exact h
  | restart => exact h.restart
  | scan clock =>
      change Sourced base (state.scan base clock)
      unfold scan
      split
      next scanner ready hscan =>
        have hready : ∀ c ∈ ready, _ :=
          (state.scanner base).ready_scan (state.snapshot base clock) (by rw [hscan])
        intro c hmem
        rcases List.mem_append.mp hmem with hpending | hemitted
        · rcases List.mem_append.mp hpending with hold | hnew
          · exact h c (List.mem_append_left _ hold)
          · exact hready c hnew
        · rcases List.mem_append.mp hemitted with hold | hnew
          · exact h c (List.mem_append_right _ hold)
          · exact hready c hnew
      next => exact h.restart
  | handle script =>
      change Sourced base (state.handleNext objects base script)
      unfold handleNext
      split
      next => exact h
      next c rest hpending =>
        have hrest : ∀ c ∈ rest ++ state.emitted,
            ∃ name, c.path = base.path name ∧ base.policy.ignored name = false := by
          intro c hmem
          refine h c ?_
          rw [hpending]
          exact List.mem_cons_of_mem _ hmem
        dsimp only
        split
        · exact fun c hmem => hrest c (List.mem_append_right _ hmem)
        · exact hrest

variable (objects base) in
theorem sourced_runAll (steps : List Step) : Sourced base (runAll objects base {} steps) := by
  have hrun : ∀ state, Sourced base state → Sourced base (runAll objects base state steps) := by
    induction steps with
    | nil => exact fun _ h => h
    | cons step rest ih => exact fun _ h => ih _ (h.step step)
  exact hrun {} fun _ hmem => absurd hmem List.not_mem_nil

/-! ## Runs without failure -/

/-- Everything the table holds was published. -/
def Backed (state : Landing) : Prop :=
  ∀ sha256, Held state.rows sha256 → Carried state.published sha256

theorem Backed.scan (h : Backed state) (clock : Instant) : Backed (state.scan base clock) := by
  unfold Landing.scan
  split
  · exact h
  · exact h

theorem Backed.step (h : Backed state) {step : Step} (hunfailing : Unfailing objects base state step) :
    Backed (state.step objects base step) := by
  cases step with
  | write other content => exact h
  | remove other => exact h
  | restart => exact h
  | scan clock => exact h.scan clock
  | handle script =>
      change Backed (state.handleNext objects base script)
      cases hpending : state.pending with
      | nil =>
          rw [handleNext, hpending]
          exact h
      | cons c rest =>
          obtain ⟨rows, messages, paths, hhandled, hnext⟩ := hunfailing.handled hpending
          rw [hnext]
          intro sha256 hheld
          rcases hhandled.records sha256 hheld with hold | ⟨message, hmem, hcontent⟩
          · obtain ⟨message, hmem, hcontent⟩ := h sha256 hold
            exact ⟨message, List.mem_append_left _ hmem, hcontent⟩
          · exact ⟨message, List.mem_append_right _ hmem, hcontent⟩

/-! ## Files taken for emitted ones -/

/-- The scanner takes the file for one it has emitted, and no candidate waits. -/
structure Overlooked (base : Scanner) (name : String) (state : Landing) : Prop where
  emitted : ∃ obs, state.seen.lookup (base.path name) = some obs ∧ obs.emitted = true
  idle : ¬ Waiting base name state

theorem overlooked_of_not_watched (h : ¬ Watched base name state) :
    Overlooked base name state := by
  obtain ⟨hemitted, hidle⟩ := not_or.mp h
  simp only [Unemitted, not_forall, Bool.not_eq_false] at hemitted
  obtain ⟨obs, hseen, hobs⟩ := hemitted
  exact ⟨⟨obs, hseen, hobs⟩, hidle⟩

/-- An overlooked file stays overlooked, and nothing is emitted for it. -/
structure Lost (base : Scanner) (name : String) (file : File) (origin : Landing)
    (state : Landing) : Prop where
  present : state.directory.lookup name = some file
  overlooked : Overlooked base name state
  silent : ∃ more, state.emitted = origin.emitted ++ more ∧ ∀ c ∈ more, c.path ≠ base.path name

theorem Lost.step {origin : Landing} (h : Lost base name file origin state)
    (hwatched : base.policy.ignored name = false) {step : Step} (hspares : Spares name step)
    (hunfailing : Unfailing objects base state step) :
    Lost base name file origin (state.step objects base step) := by
  obtain ⟨obs, hseen, hobs⟩ := h.overlooked.emitted
  cases step with
  | write other content =>
      exact ⟨(AList.lookup_insert_ne (Ne.symm hspares)).trans h.present,
        ⟨⟨obs, hseen, hobs⟩, h.overlooked.idle⟩, h.silent⟩
  | remove other =>
      exact ⟨(AList.lookup_erase_ne (Ne.symm hspares)).trans h.present,
        ⟨⟨obs, hseen, hobs⟩, h.overlooked.idle⟩, h.silent⟩
  | restart => exact hspares.elim
  | scan clock =>
      obtain ⟨ready, isPresent, hscan, hlookup, hready⟩ := scan_file h.present hwatched clock
      have hobserve : base.observe isPresent file.info clock (some obs) = (obs, false) :=
        if_pos hobs
      rw [hseen, hobserve] at hlookup hready
      have hother : ∀ c ∈ ready, c.path ≠ base.path name := fun c hmem hpath => by
        cases hready.mp ⟨c, hmem, hpath⟩
      change Lost base name file origin (state.scan base clock)
      rw [hscan]
      refine ⟨h.present, ⟨⟨obs, hlookup, hobs⟩, ?_⟩, ?_⟩
      · rintro ⟨c, hmem, hpath⟩
        rcases List.mem_append.mp hmem with hold | hnew
        · exact h.overlooked.idle ⟨c, hold, hpath⟩
        · exact hother c hnew hpath
      · obtain ⟨more, hemitted, hmore⟩ := h.silent
        refine ⟨more ++ ready, (congrArg (· ++ ready) hemitted).trans (List.append_assoc _ _ _),
          fun c hmem => ?_⟩
        rcases List.mem_append.mp hmem with hold | hnew
        · exact hmore c hold
        · exact hother c hnew
  | handle script =>
      change Lost base name file origin (state.handleNext objects base script)
      cases hpending : state.pending with
      | nil =>
          rw [handleNext, hpending]
          exact h
      | cons c rest =>
          obtain ⟨rows, messages, paths, hhandled, hnext⟩ := hunfailing.handled hpending
          rw [hnext]
          have hidle := h.overlooked.idle
          unfold Waiting at hidle
          rw [hpending] at hidle
          have hpath : c.path ≠ base.path name := fun hpath =>
            hidle ⟨c, List.mem_cons_self, hpath⟩
          refine ⟨h.present, ⟨⟨obs, ?_, hobs⟩, ?_⟩, h.silent⟩
          · exact (hhandled.lookup hpath).trans hseen
          · rintro ⟨c', hmem, hpath'⟩
            exact hidle ⟨c', List.mem_cons_of_mem _ hmem, hpath'⟩

/-- A name that is ignored has no candidate. -/
theorem Sourced.not_ignored (h : Sourced base state) {c : Candidate}
    (hmem : c ∈ state.pending ++ state.emitted) (hpath : c.path = base.path name) :
    base.policy.ignored name = false := by
  obtain ⟨name', hpath', hwatched⟩ := h c hmem
  rwa [base.path_injective (hpath.symm.trans hpath')]

/-! ## Corrections -/

/-- In a run without failures a file that is overwritten and then left alone
through the quiet window is emitted and delivered exactly when its name is not
ignored and the scanner does not hold it, with no candidate waiting, as one it
has emitted. -/
theorem correction_delivered_iff (objects : ObjectStore) (base : Scanner)
    (before window : List Step) (name : String) (file : File) (count : Nat)
    (hunfailing : Along (Landing.step objects base) (Unfailing objects base) {}
      (before ++ [.write name file] ++ window))
    (hspares : ∀ step ∈ window, Spares name step)
    (henough : base.policy.quietWindow ≤ count * base.policy.scanInterval)
    (hpasses : count < passes window)
    (hdrained : ¬ Waiting base name
      (runAll objects base {} (before ++ [.write name file] ++ window))) :
    let overwritten := runAll objects base {} (before ++ [.write name file])
    let final := runAll objects base {} (before ++ [.write name file] ++ window)
    ((∃ more, final.emitted = overwritten.emitted ++ more ∧
        ∃ c ∈ overwritten.pending ++ more, c.path = base.path name) ∧
      Delivered objects file final) ↔
    base.policy.ignored name = false ∧ Watched base name (runAll objects base {} before) := by
  intro overwritten final
  have hfinal : final = overwritten.runAll objects base window := List.foldl_append
  have hoverwritten : overwritten =
      (runAll objects base {} before).step objects base (.write name file) := List.foldl_append
  obtain ⟨hbefore, hwindow⟩ := along_append.mp hunfailing
  have hpresent : overwritten.directory.lookup name = some file := by
    rw [hoverwritten]
    exact AList.lookup_insert _
  have hbacked : Backed overwritten :=
    hbefore.invariant (fun _ _ h hstep => h.step hstep) fun _ hheld => by
      obtain ⟨row, hrow, _⟩ := hheld
      exact absurd hrow List.not_mem_nil
  -- a write leaves the scanner and the candidates as they are
  have hsame : Watched base name (runAll objects base {} before) ↔
      Watched base name overwritten := by
    rw [hoverwritten]
    rfl
  rw [hsame]
  change ¬ Waiting base name final at hdrained
  rw [hfinal] at hdrained ⊢
  constructor
  · rintro ⟨⟨more, hemitted, c, hmem, hpath⟩, _⟩
    have hwatched : base.policy.ignored name = false := by
      rcases List.mem_append.mp hmem with hpending | hmore
      · exact (sourced_runAll objects base (before ++ [.write name file])).not_ignored
          (List.mem_append_left _ hpending) hpath
      · have hlate : c ∈ final.emitted := by
          rw [hfinal, hemitted]
          exact List.mem_append_right _ hmore
        exact (sourced_runAll objects base (before ++ [.write name file] ++ window)).not_ignored
          (List.mem_append_right _ hlate) hpath
    refine ⟨hwatched, by_contra fun hnot => ?_⟩
    have hstart : Lost base name file overwritten overwritten :=
      ⟨hpresent, overlooked_of_not_watched hnot, [], (List.append_nil _).symm,
        fun _ hmem => absurd hmem List.not_mem_nil⟩
    have hlost : Lost base name file overwritten (overwritten.runAll objects base window) :=
      window_induction (motive := fun _ => Lost base name file overwritten) 0
        (fun _ _ _ h => h.step hwatched) hstart hspares hwindow
    obtain ⟨more', hemitted', hsilent⟩ := hlost.silent
    rw [hemitted] at hemitted'
    rcases List.mem_append.mp hmem with hpending | hmore
    · exact (overlooked_of_not_watched hnot).idle ⟨c, hpending, hpath⟩
    · exact hsilent c (List.append_cancel_left hemitted' ▸ hmore) hpath
  · rintro ⟨hwatched, hnoticed⟩
    have hprogress : Settling base file (overwritten.seen.lookup (base.path name)) 0 ∨
        Waiting base name overwritten := hnoticed
    have hnoticed : Noticed base name file overwritten 0 overwritten := by
      refine ⟨hpresent, [], (List.append_nil _).symm, fun c => List.mem_append_left _, ?_⟩
      rcases hprogress with hsettling | ⟨c, hmem, hpath⟩
      · exact .inr hsettling
      · exact .inl ⟨c, List.mem_append_left _ hmem, hpath⟩
    have hpassing : Passing objects base name file 0 overwritten :=
      ⟨hpresent, hbacked _, .inr hprogress.symm⟩
    exact ⟨hnoticed.emitted hwatched hspares hwindow henough hpasses,
      hpassing.delivered hwatched hspares hwindow henough hpasses hdrained⟩

/-! ## A sample process

The default policy: five seconds are three intervals of two. -/

def sampleBytes (text : String) : Content := text.toList.map fun c => c.val.toUInt8

def sampleFirst : File := ⟨sampleBytes "TradeID,Qty\nT1,100\n", 0⟩
def sampleSecond : File := ⟨sampleBytes "TradeID,Qty\nT1,250\n", 3600000000⟩

/-- The digests of the two sample files. -/
def sampleObjects : ObjectStore where
  uriOf key := "fs://" ++ key
  digest content :=
    if content = sampleFirst.content then
      "9df4b8b7bde33371e3c8184b867696796d9c37d4bdb2cd12d4c5540789b857c6"
    else if content = sampleSecond.content then
      "c9bf36aa47d64d9e1f4761f6347b8005d644df70ee78c315f99515f546b6a767"
    else ""

def sampleScanner : Scanner := newScanner "/data/landing" defaultPolicy

/-- An execution whose call at position `faulty`, if any, fails. -/
def sampleHandling (id : Ulid) (faulty : Option Nat) : Step :=
  .handle fun index => some
    { clock := Day.midnight 739859, id, fault := faulty = some index, read := fun _ => none }

theorem sampleFirstId_length : "01J6C0000000000000000000AA".length = 26 := by decide
theorem sampleSecondId_length : "01J6C0000000000000000000BB".length = 26 := by decide

def sampleFirstId : Ulid := ⟨"01J6C0000000000000000000AA", sampleFirstId_length⟩
def sampleSecondId : Ulid := ⟨"01J6C0000000000000000000BB", sampleSecondId_length⟩

/-- Four passes and the handling of what they emit. -/
def sampleWindow (id : Ulid) (faulty : Option Nat) : List Step :=
  List.replicate 4 (.scan (Day.midnight 739859)) ++ [sampleHandling id faulty]

/-- The first version lands and is delivered. -/
def landed : List Step := .write "trades.csv" sampleFirst :: sampleWindow sampleFirstId none

theorem correction_delivered :
    Delivered sampleObjects sampleSecond (runAll sampleObjects sampleScanner {}
      (landed ++ [.write "trades.csv" sampleSecond] ++ sampleWindow sampleSecondId none)) := by
  refine ((correction_delivered_iff sampleObjects sampleScanner landed
    (sampleWindow sampleSecondId none) "trades.csv" sampleSecond 3 (by decide) ?_
    (by decide) (by decide) ?_).mpr ⟨by decide, .inl ?_⟩).2
  · intro step hstep
    rcases List.mem_append.mp hstep with hscan | hhandle
    · rw [List.eq_of_mem_replicate hscan]
      trivial
    · rw [List.mem_singleton.mp hhandle]
      trivial
  · have hpending : (runAll sampleObjects sampleScanner {} (landed ++
        [.write "trades.csv" sampleSecond] ++ sampleWindow sampleSecondId none)).pending = [] := by
      decide
    rintro ⟨c, hmem, _⟩
    rw [hpending] at hmem
    exact absurd hmem List.not_mem_nil
  · have hseen : (runAll sampleObjects sampleScanner {} landed).seen.lookup
        (sampleScanner.path "trades.csv") = none := by
      decide
    intro obs hobs
    rw [hseen] at hobs
    cases hobs

/-- The unchanged file is emitted once more, suppressed as a duplicate, and never
looked at again: its correction is neither emitted nor delivered. -/
theorem correction_lost :
    let before := landed ++ sampleWindow sampleSecondId none
    let window := sampleWindow sampleSecondId none
    let overwritten := runAll sampleObjects sampleScanner {}
      (before ++ [.write "trades.csv" sampleSecond])
    let final := runAll sampleObjects sampleScanner {}
      (before ++ [.write "trades.csv" sampleSecond] ++ window)
    Along (Landing.step sampleObjects sampleScanner) (Unfailing sampleObjects sampleScanner) {}
        (before ++ [.write "trades.csv" sampleSecond] ++ window) ∧
      sampleScanner.policy.ignored "trades.csv" = false ∧
      sampleFirst.modTime ≠ sampleSecond.modTime ∧
      (∀ row ∈ overwritten.rows, row.sha256 ≠ sampleObjects.digest sampleSecond.content) ∧
      final.pending = [] ∧
      ¬ ((∃ more, final.emitted = overwritten.emitted ++ more ∧
          ∃ c ∈ overwritten.pending ++ more, c.path = sampleScanner.path "trades.csv") ∧
        Delivered sampleObjects sampleSecond final) := by
  intro before window overwritten final
  have hrun : Along (Landing.step sampleObjects sampleScanner)
      (Unfailing sampleObjects sampleScanner) {}
      (before ++ [.write "trades.csv" sampleSecond] ++ window) := by
    decide
  have hfresh : ∀ row ∈ overwritten.rows,
      row.sha256 ≠ sampleObjects.digest sampleSecond.content := by
    decide
  have hsilent : ∀ message ∈ final.published,
      contentOf message ≠ some (sampleObjects.digest sampleSecond.content) := by
    decide
  refine ⟨hrun, by decide, by decide, hfresh, by decide, ?_⟩
  rintro ⟨_, message, hmem, hcontent⟩
  exact hsilent message hmem hcontent

/-! ## Recovery -/

theorem Carried.append {messages more : List Message} {sha256 : String}
    (h : Carried messages sha256) : Carried (messages ++ more) sha256 := by
  obtain ⟨message, hmem, hcontent⟩ := h
  exact ⟨message, List.mem_append_left _ hmem, hcontent⟩

/-- What was published stays published, whatever happens. -/
theorem Delivered.step (h : Delivered objects file state) (step : Step) :
    Delivered objects file (state.step objects base step) := by
  cases step with
  | write other content => exact h
  | remove other => exact h
  | restart => exact h
  | scan clock =>
      change Delivered objects file (state.scan base clock)
      unfold Landing.scan
      split
      · exact h
      · exact h
  | handle script =>
      change Delivered objects file (state.handleNext objects base script)
      unfold handleNext
      split
      · exact h
      · dsimp only
        split
        · exact Carried.append h
        · exact Carried.append h

/-- Whatever failed before, a landed file that stays as it is through a
failure-free window is delivered: if it was delivered already, or if the scanner
watches it and the table does not hold its content. -/
theorem arrival_recovered (objects : ObjectStore) (base : Scanner) (before window : List Step)
    (name : String) (file : File) (count : Nat)
    (hfile : (runAll objects base {} before).directory.lookup name = some file)
    (hunfailing : Along (Landing.step objects base) (Unfailing objects base)
      (runAll objects base {} before) window)
    (hspares : ∀ step ∈ window, Spares name step)
    (henough : base.policy.quietWindow ≤ count * base.policy.scanInterval)
    (hpasses : count < passes window)
    (hdrained : ¬ Waiting base name (runAll objects base {} (before ++ window)))
    (hrecoverable : Delivered objects file (runAll objects base {} before) ∨
      base.policy.ignored name = false ∧ Watched base name (runAll objects base {} before) ∧
        ¬ Known objects file (runAll objects base {} before)) :
    Delivered objects file (runAll objects base {} (before ++ window)) := by
  have hsplit : runAll objects base {} (before ++ window) =
      (runAll objects base {} before).runAll objects base window := List.foldl_append
  rw [hsplit] at hdrained ⊢
  rcases hrecoverable with hdelivered | ⟨hwatched, hnoticed, hunknown⟩
  · exact window_induction (motive := fun _ => Delivered objects file) 0
      (fun _ _ step h _ _ => h.step step) hdelivered hspares hunfailing
  · have hprogress : Settling base file
        ((runAll objects base {} before).seen.lookup (base.path name)) 0 ∨
        Waiting base name (runAll objects base {} before) := hnoticed
    have hpassing : Passing objects base name file 0 (runAll objects base {} before) :=
      ⟨hfile, fun hknown => absurd hknown hunknown, .inr hprogress.symm⟩
    exact hpassing.delivered hwatched hspares hunfailing henough hpasses hdrained

/-- The execution whose `Put` fails leaves the path held as emitted; a restart
brings it back. -/
def failedPut : List Step :=
  .write "trades.csv" sampleFirst :: sampleWindow sampleFirstId (some 3) ++ [.restart]

theorem arrival_recovered_after_restart :
    Delivered sampleObjects sampleFirst (runAll sampleObjects sampleScanner {}
      (failedPut ++ sampleWindow sampleSecondId none)) := by
  have hpending : (runAll sampleObjects sampleScanner {}
      (failedPut ++ sampleWindow sampleSecondId none)).pending = [] := by
    decide
  have hseen : (runAll sampleObjects sampleScanner {} failedPut).seen.lookup
      (sampleScanner.path "trades.csv") = none := by
    decide
  have hrows : (runAll sampleObjects sampleScanner {} failedPut).rows = [] := by
    decide
  refine arrival_recovered sampleObjects sampleScanner failedPut
    (sampleWindow sampleSecondId none) "trades.csv" sampleFirst 3 (by decide)
    (by decide) ?_ (by decide) (by decide) ?_ (.inr ⟨by decide, .inl ?_, ?_⟩)
  · intro step hstep
    rcases List.mem_append.mp hstep with hscan | hhandle
    · rw [List.eq_of_mem_replicate hscan]
      trivial
    · rw [List.mem_singleton.mp hhandle]
      trivial
  · rintro ⟨c, hmem, _⟩
    rw [hpending] at hmem
    exact absurd hmem List.not_mem_nil
  · intro obs hobs
    rw [hseen] at hobs
    cases hobs
  · rintro ⟨row, hmem, _⟩
    rw [hrows] at hmem
    exact absurd hmem List.not_mem_nil

/-- The publish of the only execution fails after its row was written. A restart
brings the file back, and its content is taken for a duplicate. -/
theorem arrival_lost :
    let before := .write "trades.csv" sampleFirst :: sampleWindow sampleFirstId (some 8) ++
      [.restart]
    let window := sampleWindow sampleSecondId none
    let final := runAll sampleObjects sampleScanner {} (before ++ window)
    Along (Landing.step sampleObjects sampleScanner) (Unfailing sampleObjects sampleScanner)
        (runAll sampleObjects sampleScanner {} before) window ∧
      sampleScanner.policy.ignored "trades.csv" = false ∧
      final.directory.lookup "trades.csv" = some sampleFirst ∧
      final.pending = [] ∧ ¬ Delivered sampleObjects sampleFirst final := by
  intro before window final
  have hsilent : final.published = [] := by decide
  refine ⟨by decide, by decide, by decide, by decide, ?_⟩
  rintro ⟨message, hmem, _⟩
  rw [hsilent] at hmem
  exact absurd hmem List.not_mem_nil

end Landing

end Harbormaster.Arrival
