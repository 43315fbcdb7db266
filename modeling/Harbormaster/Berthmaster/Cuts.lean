import Harbormaster.Berthmaster.Deadline
import Harbormaster.Berthmaster.Operations
import Harbormaster.Berthmaster.Sides

/-! # Cuts and corrections

An expectation says how many files of a side arrive each day. `Apply` does not
look at that number: whatever reaches an assigned slot is a correction, so the
number is honoured only where one cut a day is configured.
-/

namespace Harbormaster.Berthmaster

open Effect Program

/-- The distinct arrivals accepted for the side of an arrival. -/
def cutsFor (answers : List (Operation × Ending Failure Answer)) (arrival : Arrival) :
    List Arrival :=
  ((accepted answers).filter fun other =>
    other.key = arrival.key ∧ other.side = arrival.side).dedup

theorem mem_cutsFor {answers : List (Operation × Ending Failure Answer)}
    {arrival other : Arrival} :
    other ∈ cutsFor answers arrival ↔
      other ∈ accepted answers ∧ other.key = arrival.key ∧ other.side = arrival.side := by
  simp [cutsFor]

variable (machine : Machine)

/-- An arrival for a slot voids an assignment only if more than `cuts` distinct
arrivals were accepted for its side. -/
def Honours (cuts : Int) (key : Key) (session : Session) (move : Move) : Prop :=
  ∀ arrival outcome, move.operation = .apply arrival → arrival.key = key →
    (execution machine session.world move).2 = .value (.applied outcome) →
    outcome.supersedes ≠ "" →
    cuts < (cutsFor (session.step machine move).answers arrival).length

/-- An assignment is recorded only for a slot that holds both sides. -/
def RecordsComplete (session : Session) (move : Move) : Prop :=
  ∀ key assignmentId slot, move.operation = .recordAssignment key assignmentId →
    session.world.state.get key = some slot → slot.complete = true

/-- No arrival is applied that was accepted before. -/
def Unrepeated (session : Session) (move : Move) : Prop :=
  ∀ arrival, move.operation = .apply arrival → arrival ∉ accepted session.answers

/-! ## What the slots hold -/

/-- An assigned slot is complete, and what is on its sides was accepted. -/
structure Filed (slots : SlotTable) (arrivals : List Arrival) : Prop where
  complete : ∀ key slot, slots.get key = some slot → slot.state = .stateAssigned →
    slot.complete = true
  accepted : ∀ key side, arrivalAt slots key side ≠ "" →
    ⟨arrivalAt slots key side, key.clientId, key.domain, key.valueDate, side⟩ ∈ arrivals

theorem filed_empty : Filed ∅ [] where
  complete key slot hslot := by
    rw [SlotTable.get_empty] at hslot
    cases hslot
  accepted key side hside := absurd rfl hside

section Steps

variable {machine} {slots : SlotTable}

/-- A slot written over another holds both sides if it does itself. -/
theorem complete_storedAfter {slot : Slot} (h : slot.complete = true) :
    (storedAfter slots slot).complete = true := by
  unfold storedAfter
  split
  next => exact h
  next stored _ => exact Slot.complete_of_covers (slot.covers_over stored).1 h

theorem storedAfter_state (slots : SlotTable) (slot : Slot) :
    (storedAfter slots slot).state = slot.state := by
  unfold storedAfter
  split <;> rfl

/-- Recording an assignment leaves the sides as they are. -/
theorem arrivalAt_stamped {key : Key} {slot : Slot} (hslot : slots.get key = some slot)
    (assignmentId : String) (other : Key) (side : String) :
    arrivalAt (slots.put (stamped slot assignmentId)) other side = arrivalAt slots other side := by
  have hkey : slot.key = key := SlotTable.get_key slots hslot
  rw [arrivalAt_put]
  change (if slot.key = other then _ else _) = _
  split
  next heq =>
    have hside : arrivalOn (stamped slot assignmentId) side = arrivalAt slots other side := by
      rw [← heq, hkey, arrivalAt, hslot]
      rfl
    rw [hside, coalesce_self]
  next => rfl

theorem arrivalAt_markDeeds {due : List Slot} (h : Selected slots due) (key : Key)
    (side : String) : arrivalAt ((markDeeds due).foldl enact slots) key side =
      arrivalAt slots key side := by
  refine arrivalAt_foldl (fun slot hslot side => ?_) key side
  obtain ⟨prior, hprior, hmarked⟩ := mem_markDeeds.mp hslot
  cases hmarked
  change arrivalOn (marked prior) side = arrivalAt slots prior.key side
  rw [arrivalAt, h.stored prior hprior]
  rfl

variable {arrivals : List Arrival}

theorem Filed.routed (h : Filed slots arrivals) {accepted : Instant} {arrival : Arrival}
    {outcome : Outcome} {slot placed : Slot}
    (hrouted : Routed machine slots accepted arrival outcome slot placed) :
    Filed (slots.put outcome.slot) (arrivals ++ [arrival]) where
  complete key stored hstored hassigned := by
    by_cases hkey : key = outcome.slot.key
    · rw [hkey, get_storedAfter] at hstored
      cases hstored
      rw [storedAfter_state] at hassigned
      exact complete_storedAfter (hrouted.complete_of_assigned hassigned)
    · rw [SlotTable.get_put_of_ne _ _ hkey] at hstored
      exact h.complete key stored hstored hassigned
  accepted key side hside := by
    rw [hrouted.arrivalAt_put] at hside ⊢
    split at hside
    next hself =>
      obtain ⟨rfl, rfl, hne⟩ := hself
      rw [if_pos ⟨rfl, rfl, hne⟩]
      exact List.mem_append_right _ List.mem_cons_self
    next hother =>
      rw [if_neg hother]
      exact List.mem_append_left _ (h.accepted key side hside)

theorem Filed.recorded (h : Filed slots arrivals) {key : Key} {slot : Slot}
    (hslot : slots.get key = some slot) (hcomplete : slot.complete = true)
    (assignmentId : String) : Filed (slots.put (stamped slot assignmentId)) arrivals where
  complete other stored hstored hassigned := by
    by_cases hkey : other = (stamped slot assignmentId).key
    · rw [hkey, get_storedAfter] at hstored
      cases hstored
      exact complete_storedAfter hcomplete
    · rw [SlotTable.get_put_of_ne _ _ hkey] at hstored
      exact h.complete other stored hstored hassigned
  accepted other side hside := by
    rw [arrivalAt_stamped hslot] at hside ⊢
    exact h.accepted other side hside

theorem Filed.swept (h : Filed slots arrivals) {due : List Slot} (hselected : Selected slots due) :
    Filed ((markDeeds due).foldl enact slots) arrivals where
  complete key slot hslot hassigned := by
    rcases get_markDeeds hselected key with ⟨other, _, _, hget⟩ | ⟨_, hsame⟩
    · rw [hget] at hslot
      cases hslot
      cases hassigned
    · exact h.complete key slot (hsame.symm.trans hslot) hassigned
  accepted key side hside := by
    rw [arrivalAt_markDeeds hselected] at hside ⊢
    exact h.accepted key side hside

theorem Filed.of_transition (h : Filed slots arrivals) {clock : Instant} {operation : Operation}
    {slots' : SlotTable} {ending : Ending Failure Answer}
    (htransition : Transition machine slots clock operation slots' ending)
    (hrecords : ∀ key assignmentId slot, operation = .recordAssignment key assignmentId →
      slots.get key = some slot → slot.complete = true) :
    Filed slots' (arrivals ++ Berthmaster.accepted [(operation, ending)]) := by
  cases htransition with
  | routed opened hroute =>
      obtain ⟨slot, placed, hrouted⟩ := routed_of_route hroute
      exact h.routed hrouted
  | refused opened hroute => exact (List.append_nil arrivals).symm ▸ h
  | unknown hnone => exact (List.append_nil arrivals).symm ▸ h
  | recorded hslot =>
      exact (List.append_nil arrivals).symm ▸ h.recorded hslot (hrecords _ _ _ rfl hslot) _
  | swept hselected _ => exact (List.append_nil arrivals).symm ▸ h.swept hselected

theorem Filed.step {session : Session}
    (h : Filed session.world.state (Berthmaster.accepted session.answers)) {move : Move}
    (hrecords : RecordsComplete session move) :
    Filed (session.step machine move).world.state
      (Berthmaster.accepted (session.step machine move).answers) := by
  rw [Session.step_answers, accepted_append]
  exact h.of_transition (transition machine session move) hrecords

/-! ## Corrections -/

/-- A correction replaces an arrival that was accepted for its side. -/
theorem Filed.replaced (h : Filed slots arrivals) {accepted : Instant} {arrival : Arrival}
    {outcome : Outcome} {slot placed : Slot}
    (hrouted : Routed machine slots accepted arrival outcome slot placed)
    (hsupersedes : outcome.supersedes ≠ "") :
    ∃ earlier ∈ arrivals, earlier.key = arrival.key ∧ earlier.side = arrival.side := by
  rw [hrouted.supersedes_eq] at hsupersedes
  split at hsupersedes
  next hreplacing =>
    rw [Bool.and_eq_true, decide_eq_true_eq] at hreplacing
    have hfound : slots.get arrival.key = some slot := by
      rcases hrouted.found with hfound | ⟨_, hfresh⟩
      · exact hfound
      · exact absurd hfresh.assignmentId hsupersedes
    have hcomplete := h.complete arrival.key slot hfound hreplacing.2
    rw [Slot.complete, Bool.and_eq_true, decide_eq_true_eq, decide_eq_true_eq] at hcomplete
    have hheld : arrivalAt slots arrival.key arrival.side ≠ "" := by
      rw [arrivalAt, hfound]
      rcases hrouted.sides with ⟨hside, _⟩ | ⟨hside, _⟩
      · rw [hside]
        exact hcomplete.1
      · rw [hside]
        exact hcomplete.2
    exact ⟨_, h.accepted arrival.key arrival.side hheld, rfl, rfl⟩
  next => exact absurd rfl hsupersedes

end Steps

variable {machine} {cuts : Int} {key : Key} {session : Session} {move : Move}

/-- An arrival that was applied is a cut of its own side. -/
theorem mem_cutsFor_step {arrival : Arrival} {outcome : Outcome}
    (hmove : move.operation = .apply arrival)
    (hanswer : (execution machine session.world move).2 = .value (.applied outcome)) :
    arrival ∈ cutsFor (session.step machine move).answers arrival := by
  rw [mem_cutsFor, Session.step_answers, accepted_append, hmove, hanswer]
  exact ⟨List.mem_append_right _ List.mem_cons_self, rfl, rfl⟩

theorem honours_of_nonpos (hcuts : cuts ≤ 0) : Honours machine cuts key session move := by
  intro arrival outcome hmove _ hanswer _
  have hlength := List.length_pos_of_mem (mem_cutsFor_step hmove hanswer)
  omega

/-- Where no arrival is repeated, a correction is a second cut of its side. -/
theorem Filed.honours
    (h : Filed session.world.state (Berthmaster.accepted session.answers))
    (hfresh : Unrepeated session move) (hcuts : cuts ≤ 1) :
    Honours machine cuts key session move := by
  intro arrival outcome hmove _ hanswer hsupersedes
  obtain ⟨⟨slot, placed, hrouted⟩, _⟩ := routed_of_execution machine hmove hanswer
  obtain ⟨earlier, hearlier, hkey, hside⟩ := h.replaced hrouted hsupersedes
  have hne : earlier ≠ arrival := fun heq => hfresh arrival hmove (heq ▸ hearlier)
  have hfirst : earlier ∈ cutsFor (session.step machine move).answers arrival := by
    rw [mem_cutsFor, Session.step_answers, accepted_append]
    exact ⟨List.mem_append_left _ hearlier, hkey, hside⟩
  have hsecond := mem_cutsFor_step hmove hanswer
  have htwo : [earlier, arrival].length ≤
      (cutsFor (session.step machine move).answers arrival).length := by
    refine List.Subperm.length_le (List.subperm_of_subset ?_ ?_)
    · exact List.nodup_cons.mpr ⟨fun h => hne (List.mem_singleton.mp h), List.nodup_singleton _⟩
    · exact List.cons_subset.mpr ⟨hfirst, List.cons_subset.mpr ⟨hsecond, List.nil_subset _⟩⟩
  rw [List.length_cons, List.length_singleton] at htwo
  omega

/-! ## A run with a second cut -/

/-- A file of the slot's client, domain and value date. -/
def filing (key : Key) (arrivalId side : String) : Arrival :=
  ⟨arrivalId, key.clientId, key.domain, key.valueDate, side⟩

/-- Both sides arrive and the assignment is recorded. -/
def firstCut (key : Key) (clock : Instant) : List Move :=
  [calmMove (.apply (filing key "A1" sideInternalGl)) clock,
    calmMove (.apply (filing key "A2" sideExternalClient)) clock,
    calmMove (.recordAssignment key "B1") clock]

/-- After that the internal side arrives once more. -/
def secondCut (key : Key) (clock : Instant) (again : String) : List Move :=
  firstCut key clock ++ [calmMove (.apply (filing key again sideInternalGl)) clock]

/-- An arrival is admitted on its own value date. -/
theorem admits_own_day {client : Client} {expectation : Expectation} {calendar : Calendar}
    {valueDay : Day} (hclient : machine.reg.client key.clientId = some client)
    (hexpectation : client.expectationFor key.domain = some expectation)
    (hcalendar : machine.calendarFor key.clientId = .ok calendar)
    (hdate : parseDate key.valueDate = .ok valueDay) (arrivalId side : String) :
    machine.admits valueDay.midnight (filing key arrivalId side) = .ok expectation := by
  have hwindow : machine.inWindow calendar key.clientId valueDay
      (valueDay.midnight : Instant).truncate = true := by
    rw [truncate_midnight]
    exact inWindow_self machine calendar key.clientId valueDay
  unfold Machine.admits
  change (parseDate key.valueDate >>= _) = _
  rw [hdate]
  change (machine.calendarFor key.clientId >>= _) = _
  rw [hcalendar]
  refine (if_pos hwindow).trans ?_
  simp only [Machine.expectation, filing, hclient, hexpectation]

/-- What applying a named arrival leaves on the sides, and that it was accepted. -/
theorem step_filing {clock : Instant} {expectation : Expectation} {arrivalId side : String}
    (hadmits : machine.admits clock (filing key arrivalId side) = .ok expectation)
    (hside : side = sideInternalGl ∨ side = sideExternalClient) (hne : arrivalId ≠ "")
    (session : Session) :
    arrivalAt (session.step machine
        (calmMove (.apply (filing key arrivalId side)) clock)).world.state key side = arrivalId ∧
      (∀ other, other ≠ side →
        arrivalAt (session.step machine
            (calmMove (.apply (filing key arrivalId side)) clock)).world.state key other =
          arrivalAt session.world.state key other) ∧
      accepted (session.step machine
          (calmMove (.apply (filing key arrivalId side)) clock)).answers =
        accepted session.answers ++ [filing key arrivalId side] := by
  have hmove : (calmMove (.apply (filing key arrivalId side)) clock).operation =
      .apply (filing key arrivalId side) := rfl
  obtain ⟨outcome, hanswer⟩ := @applied_of_admits machine session _ _ _ hmove hadmits hside
  obtain ⟨⟨slot, placed, hrouted⟩, hstate⟩ := routed_of_execution machine hmove hanswer
  refine ⟨?_, fun other hother => ?_, ?_⟩
  · rw [hstate, hrouted.arrivalAt_put, if_pos ⟨rfl, rfl, hne⟩]
    rfl
  · rw [hstate, hrouted.arrivalAt_put, if_neg fun h => hother h.2.1.symm]
  · rw [Session.step_answers, accepted_append, hanswer, hmove]
    rfl

/-- A slot with an arrival on both sides is complete. -/
theorem complete_of_arrivalAt {slots : SlotTable}
    (hinternal : arrivalAt slots key sideInternalGl ≠ "")
    (hexternal : arrivalAt slots key sideExternalClient ≠ "") :
    ∃ slot, slots.get key = some slot ∧ slot.complete = true := by
  unfold arrivalAt at hinternal hexternal
  cases hslot : slots.get key with
  | none =>
      rw [hslot] at hinternal
      exact absurd rfl hinternal
  | some slot =>
      rw [hslot] at hinternal hexternal
      refine ⟨slot, rfl, ?_⟩
      rw [Slot.complete, Bool.and_eq_true, decide_eq_true_eq, decide_eq_true_eq]
      exact ⟨hinternal, hexternal⟩

/-- Recording an assignment assigns the stored slot. -/
theorem step_record {slot : Slot} {assignmentId : String} {clock : Instant}
    (hslot : session.world.state.get key = some slot) (hcomplete : slot.complete = true)
    (hne : assignmentId ≠ "") :
    ∃ next, (session.step machine
        (calmMove (.recordAssignment key assignmentId) clock)).world.state.get key = some next ∧
      next.state = .stateAssigned ∧ next.assignmentId = assignmentId ∧ next.complete = true ∧
      accepted (session.step machine
        (calmMove (.recordAssignment key assignmentId) clock)).answers =
          accepted session.answers := by
  have htransition := transition machine session
    (calmMove (.recordAssignment key assignmentId) clock)
  rw [Session.step_answers, accepted_append]
  generalize (session.step machine
    (calmMove (.recordAssignment key assignmentId) clock)).world.state = slots at htransition ⊢
  generalize (execution machine session.world
    (calmMove (.recordAssignment key assignmentId) clock)).2 = ending at htransition ⊢
  change Transition machine _ clock (.recordAssignment key assignmentId) slots ending at htransition
  cases htransition with
  | unknown hnone =>
      rw [hslot] at hnone
      cases hnone
  | recorded hstored =>
      cases hslot.symm.trans hstored
      have hslotKey : slot.key = key := SlotTable.get_key session.world.state hslot
      have hkey : (stamped slot assignmentId).key = key := hslotKey
      have hput := get_storedAfter session.world.state (stamped slot assignmentId)
      rw [hkey] at hput
      refine ⟨_, hput, storedAfter_state _ _, ?_, complete_storedAfter hcomplete, ?_⟩
      · unfold storedAfter
        rw [hkey, hslot]
        exact coalesce_of_ne _ hne
      · exact List.append_nil _

/-- What reaches a complete slot with a recorded assignment voids it. -/
theorem Routed.voids {slots : SlotTable} {accepted : Instant} {arrival : Arrival}
    {outcome : Outcome} {slot placed stored : Slot}
    (h : Routed machine slots accepted arrival outcome slot placed)
    (hstored : slots.get arrival.key = some stored) (hassigned : stored.state = .stateAssigned)
    (hcomplete : stored.complete = true) (hne : arrival.arrivalId ≠ "") :
    outcome.supersedes = stored.assignmentId := by
  have hslot : slot = stored := by
    rcases h.found with hfound | ⟨hnone, _⟩
    · exact Option.some.inj (hfound.symm.trans hstored)
    · rw [hstored] at hnone
      cases hnone
  subst hslot
  have hplaced : placed.complete = true := by
    rw [Slot.complete, Bool.and_eq_true, decide_eq_true_eq, decide_eq_true_eq] at hcomplete ⊢
    rcases h.sides with ⟨_, rfl⟩ | ⟨_, rfl⟩
    · exact ⟨hne, hcomplete.2⟩
    · exact ⟨hcomplete.1, hne⟩
  rw [h.supersedes_eq, hplaced, hassigned]
  rfl

/-- After the first cut the slot is assigned and complete. -/
theorem run_firstCut {clock : Instant} {expectation : Expectation}
    (hadmits : ∀ arrivalId side, machine.admits clock (filing key arrivalId side) =
      .ok expectation) :
    Along (Session.step machine) (fun session move =>
        RecordsComplete session move ∧ Unrepeated session move) Session.initial
        (firstCut key clock) ∧
      accepted (Session.initial.run machine (firstCut key clock)).answers =
        [filing key "A1" sideInternalGl, filing key "A2" sideExternalClient] ∧
      ∃ next, (Session.initial.run machine (firstCut key clock)).world.state.get key = some next ∧
        next.state = .stateAssigned ∧ next.assignmentId = "B1" ∧ next.complete = true := by
  obtain ⟨hfirst, _, hone⟩ :=
    step_filing (hadmits "A1" sideInternalGl) (.inl rfl) (by decide) Session.initial
  unfold Session.run firstCut
  simp only [Along, List.foldl_cons, List.foldl_nil, and_true]
  generalize Session.initial.step machine _ = s1 at hfirst hone ⊢
  obtain ⟨hsecond, hother, htwo⟩ :=
    step_filing (hadmits "A2" sideExternalClient) (.inr rfl) (by decide) s1
  have hkept := hother sideInternalGl (by decide)
  rw [hfirst] at hkept
  generalize s1.step machine _ = s2 at hsecond hkept htwo ⊢
  have hinternal : arrivalAt s2.world.state key sideInternalGl ≠ "" := by
    rw [hkept]
    decide
  have hexternal : arrivalAt s2.world.state key sideExternalClient ≠ "" := by
    rw [hsecond]
    decide
  obtain ⟨slot, hslot, hcomplete⟩ := complete_of_arrivalAt hinternal hexternal
  obtain ⟨next, hnext, hassigned, hid, hfull, hthree⟩ :=
    @step_record machine key _ _ "B1" clock hslot hcomplete (by decide)
  have hbare : ∀ (session : Session) (arrival : Arrival),
      RecordsComplete session (calmMove (.apply arrival) clock) := by
    intro session arrival key assignmentId slot hmove
    cases hmove
  refine ⟨⟨⟨hbare _ _, ?_⟩, ⟨hbare _ _, ?_⟩, ?_, ?_⟩, ?_, next, hnext, hassigned, hid, hfull⟩
  · intro arrival _
    exact List.not_mem_nil
  · intro arrival hmove hmem
    cases hmove
    rw [hone] at hmem
    have hid : "A2" = "A1" := congrArg Arrival.arrivalId (List.mem_singleton.mp hmem)
    exact absurd hid (by decide)
  · intro other assignmentId stored hmove hstored
    cases hmove
    cases hslot.symm.trans hstored
    exact hcomplete
  · intro arrival hmove
    cases hmove
  · rw [hthree, htwo, hone]
    rfl

/-- The second file repeats no arrival unless it is the first one again. -/
theorem secondCut_unrepeated {clock : Instant} {expectation : Expectation}
    (hadmits : ∀ arrivalId side, machine.admits clock (filing key arrivalId side) =
      .ok expectation) {again : String} (hagain : again ≠ "A1") :
    Along (Session.step machine) (fun session move =>
      RecordsComplete session move ∧ Unrepeated session move) Session.initial
      (secondCut key clock again) := by
  obtain ⟨halong, haccepted, _⟩ := run_firstCut hadmits
  refine along_append.mpr ⟨halong, ⟨fun _ _ _ hmove => (by cases hmove), ?_⟩, trivial⟩
  intro arrival hmove hmem
  cases hmove
  change _ ∈ accepted (Session.initial.run machine (firstCut key clock)).answers at hmem
  rw [haccepted] at hmem
  simp [filing, hagain, sideInternalGl, sideExternalClient] at hmem

/-- The second file on the internal side voids the assignment of the first. -/
theorem run_secondCut {clock : Instant} {expectation : Expectation} {again : String}
    (hne : again ≠ "")
    (hadmits : ∀ arrivalId side, machine.admits clock (filing key arrivalId side) =
      .ok expectation)
    (h : Along (Session.step machine) (Honours machine cuts key) Session.initial
      (secondCut key clock again)) :
    cuts < ([filing key "A1" sideInternalGl, filing key again sideInternalGl].dedup).length := by
  obtain ⟨_, haccepted, next, hnext, hassigned, hid, hfull⟩ := run_firstCut hadmits
  have hlast := (along_append.mp h).2.1
  change Honours machine cuts key (Session.initial.run machine (firstCut key clock)) _ at hlast
  generalize Session.initial.run machine (firstCut key clock) = session at haccepted hnext hlast
  have hmove : (calmMove (.apply (filing key again sideInternalGl)) clock).operation =
      .apply (filing key again sideInternalGl) := rfl
  obtain ⟨outcome, hanswer⟩ := @applied_of_admits machine session _ _ _ hmove
    (hadmits again sideInternalGl) (.inl rfl)
  obtain ⟨⟨slot, placed, hrouted⟩, _⟩ := routed_of_execution machine hmove hanswer
  have hvoids : outcome.supersedes = "B1" :=
    (hrouted.voids hnext hassigned hfull hne).trans hid
  have hcount := hlast _ outcome hmove rfl hanswer (hvoids ▸ by decide)
  rw [cutsFor, Session.step_answers, accepted_append, haccepted, hmove, hanswer] at hcount
  have hfilter : (([filing key "A1" sideInternalGl, filing key "A2" sideExternalClient] ++
      accepted [(Operation.apply (filing key again sideInternalGl),
        Ending.value (Answer.applied outcome))]).filter fun other =>
          other.key = (filing key again sideInternalGl).key ∧
            other.side = (filing key again sideInternalGl).side) =
      [filing key "A1" sideInternalGl, filing key again sideInternalGl] := by
    simp [accepted, filing, Arrival.key, sideInternalGl, sideExternalClient]
  rw [hfilter] at hcount
  exact hcount

/-- The configured number of cuts is honoured in every run only where no cut is
expected, and in every run that repeats no arrival only where at most one is. -/
theorem cuts_honoured_iff (machine : Machine) {key : Key} {client : Client}
    {expectation : Expectation} {calendar : Calendar} {valueDay : Day}
    (hclient : machine.reg.client key.clientId = some client)
    (hexpectation : client.expectationFor key.domain = some expectation)
    (hcalendar : machine.calendarFor key.clientId = .ok calendar)
    (hdate : parseDate key.valueDate = .ok valueDay) :
    ((∀ moves, Along (Session.step machine) RecordsComplete Session.initial moves →
        Along (Session.step machine) (Honours machine expectation.cutsPerDay key)
          Session.initial moves) ↔
      expectation.cutsPerDay ≤ 0) ∧
    ((∀ moves, Along (Session.step machine) (fun session move =>
          RecordsComplete session move ∧ Unrepeated session move) Session.initial moves →
        Along (Session.step machine) (Honours machine expectation.cutsPerDay key)
          Session.initial moves) ↔
      expectation.cutsPerDay ≤ 1) := by
  have hadmits := @admits_own_day machine key _ _ _ _ hclient hexpectation hcalendar hdate
  obtain ⟨halong, _⟩ := run_firstCut hadmits
  have hfiled : Filed Session.initial.world.state (accepted Session.initial.answers) :=
    filed_empty
  refine ⟨⟨fun h => ?_, fun hcuts moves _ => ?_⟩, ⟨fun h => ?_, fun hcuts moves h => ?_⟩⟩
  · have hrecords : Along (Session.step machine) RecordsComplete Session.initial
        (secondCut key valueDay.midnight "A1") := by
      refine along_append.mpr ⟨?_, fun _ _ _ hmove => (by cases hmove), trivial⟩
      exact Along.imp (motive := fun _ => True) (fun _ _ _ _ => trivial) (fun _ _ _ h => h.1)
        trivial halong
    have hcount := run_secondCut (by decide) hadmits (h _ hrecords)
    rw [List.dedup_cons_of_mem (List.mem_singleton_self _)] at hcount
    have hle := (List.dedup_sublist [filing key "A1" sideInternalGl]).length_le
    rw [List.length_singleton] at hle
    omega
  · exact Along.imp (motive := fun _ => True) (fun _ _ _ _ => trivial)
      (fun _ _ _ _ => honours_of_nonpos hcuts) trivial ‹_›
  · have hrecords := @secondCut_unrepeated _ _ _ _ hadmits "A3" (by decide)
    have hcount := run_secondCut (by decide) hadmits (h _ hrecords)
    have hle := (List.dedup_sublist
      [filing key "A1" sideInternalGl, filing key "A3" sideInternalGl]).length_le
    simp only [List.length_cons, List.length_nil] at hle
    omega
  · exact Along.imp (motive := fun session =>
        Filed session.world.state (accepted session.answers))
      (fun _ _ hfiled h => hfiled.step h.1) (fun _ _ hfiled h => hfiled.honours h.2 hcuts)
      hfiled h

/-- A client that sends its file once a day, and the same client with two cuts. -/
def cutsMachine (cutsPerDay : Int) : Machine :=
  newMachine
    { clients := [{ sampleClient with
        expectations := [{ sampleExpectation with cutsPerDay := cutsPerDay }] }]
      calendars := [{ calendarId := "US_EQUITY" }] } 2

theorem cutsMachine_admits (cutsPerDay : Int) (arrivalId side : String) :
    (cutsMachine cutsPerDay).admits (Day.midnight 739856) (filing sampleKey arrivalId side) =
      .ok { sampleExpectation with cutsPerDay := cutsPerDay } := by
  have hdate : parseDate sampleKey.valueDate = .ok 739856 := by decide +kernel
  exact admits_own_day rfl rfl rfl hdate arrivalId side

/-- One cut a day is configured, and a correction is a correction. -/
theorem cuts_honoured_daily :
    Along (Session.step (cutsMachine 1)) (Honours (cutsMachine 1) 1 sampleKey) Session.initial
      (secondCut sampleKey (Day.midnight 739856) "A3") := by
  have hiff := @cuts_honoured_iff (cutsMachine 1) sampleKey _ _ _ 739856 rfl rfl rfl
    (by decide +kernel)
  exact hiff.2.mpr le_rfl _ (secondCut_unrepeated (cutsMachine_admits 1) (by decide))

/-- Two cuts a day are configured, and the second cut voids the first. -/
theorem second_cut_voids :
    Along (Session.step (cutsMachine 2)) (fun session move =>
        RecordsComplete session move ∧ Unrepeated session move) Session.initial
        (secondCut sampleKey (Day.midnight 739856) "A3") ∧
      ¬ Along (Session.step (cutsMachine 2)) (Honours (cutsMachine 2) 2 sampleKey)
        Session.initial (secondCut sampleKey (Day.midnight 739856) "A3") := by
  refine ⟨secondCut_unrepeated (cutsMachine_admits 2) (by decide), fun h => ?_⟩
  have hcount := run_secondCut (by decide) (cutsMachine_admits 2) h
  have hle := (List.dedup_sublist
    [filing sampleKey "A1" sideInternalGl, filing sampleKey "A3" sideInternalGl]).length_le
  simp only [List.length_cons, List.length_nil] at hle
  omega

end Harbormaster.Berthmaster
