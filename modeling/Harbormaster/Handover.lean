import Harbormaster.Berthmaster.Deadline
import Harbormaster.Configuration
import Harbormaster.Inspector.Resolved

/-! # From the inspector to the berthmaster

Whether a classification that the inspector dispatches is one that the
berthmaster can handle. Both work from the same configuration.
-/

namespace Harbormaster

open Berthmaster Effect Inspector

/-! ## What the berthmaster can handle -/

namespace Berthmaster

/-- Handling the message returns nil whenever no component fails, from any slot
table and at any time. -/
def Handled (machine : Machine) (message : ArrivalClassified) : Prop :=
  ∀ world script, Steady script →
    (execute machine world (.handle (some message), script)).2 = .value ()

variable {machine : Machine} {world : World} {script : Script Choice}
variable {message : ArrivalClassified}

/-- A steady delivery returns what its plan says. -/
theorem execute_handle_steady (hsteady : Steady script) :
    ∃ readings : Readings, FirstClock script readings.accepted ∧
      ((execute machine world (.handle (some message), script)).2 = .value () ↔
        (handlePlan machine world.state readings (some message)).2 = .ok ()) := by
  have hspec : (Step.program machine (.handle (some message))).Spec perform
      (Scripted script world) _ _ world := handle_spec machine (some message)
  have hends := execute_endsIn hspec
  have hstopped : (execute machine world (.handle (some message), script)).2 ≠ .stopped :=
    Program.run_ends _ hsteady.isSome world
  generalize execute machine world (.handle (some message), script) = result at hends hstopped ⊢
  obtain ⟨world', ending⟩ := result
  cases ending with
  | stopped => exact absurd rfl hstopped
  | value result =>
      rcases hends with ⟨readings, _, hclock, _, hresult⟩ | ⟨_, hfaulty, _⟩
      · exact ⟨readings, hclock, iff_of_true rfl hresult.symm⟩
      · exact absurd hfaulty hsteady.not_faulty
  | error cause =>
      rcases hends with ⟨readings, _, hclock, _, hresult⟩ | ⟨_, hfaulty, _⟩
      · refine ⟨readings, hclock, iff_of_false nofun fun hok => ?_⟩
        rw [hok] at hresult
        cases hresult
      · exact absurd hfaulty hsteady.not_faulty

/-- The plan of a dispatched message with a known date and calendar succeeds when
the date lies outside the window or the client expects the domain. -/
theorem handlePlan_ok_iff {slots : SlotTable} {readings : Readings} {valueDay : Day}
    {calendar : Calendar} (hdispatched : message.disposition = .dispatched)
    (hday : parseDate message.valueDate.resolved = .ok valueDay)
    (hcalendar : machine.calendarFor message.clientId = .ok calendar)
    (hside : message.reconSide = .externalClient) :
    (handlePlan machine slots readings (some message)).2 = .ok () ↔
      (machine.inWindow calendar message.clientId valueDay readings.accepted.truncate = true →
        ∃ expectation, machine.expectation (arrivalOf message) = .ok expectation) := by
  have hadmits : machine.admits readings.accepted (arrivalOf message) =
      if machine.inWindow calendar message.clientId valueDay readings.accepted.truncate then
        machine.expectation (arrivalOf message)
      else .error (.outsideWindow message.valueDate.resolved message.clientId
        (machine.windowDays message.clientId)) := by
    unfold Machine.admits
    change (parseDate message.valueDate.resolved >>= _) = _
    rw [hday]
    change (machine.calendarFor message.clientId >>= _) = _
    rw [hcalendar]
    rfl
  have hknown : (arrivalOf message).side = sideExternalClient := by
    change sideName message.reconSide = _
    rw [hside]
    rfl
  have hrefused : ∀ cause, machine.admits readings.accepted (arrivalOf message) = .error cause →
      machine.route slots readings.accepted readings.opened (arrivalOf message) =
        .error cause := by
    intro cause hcause
    unfold Machine.route
    rw [hcause]
    rfl
  unfold handlePlan
  dsimp only
  rw [if_neg (not_not.mpr hdispatched)]
  cases hwindow : machine.inWindow calendar message.clientId valueDay
      readings.accepted.truncate with
  | false =>
      -- outside the window the refusal is audited and the handler returns nil
      rw [hwindow, if_neg Bool.false_ne_true] at hadmits
      rw [hrefused _ hadmits]
      exact iff_of_true rfl nofun
  | true =>
      rw [hwindow, if_pos rfl] at hadmits
      cases hexpectation : machine.expectation (arrivalOf message) with
      | error cause =>
          -- a missing client or expectation is no case of the window and is returned
          rw [hexpectation] at hadmits
          rw [hrefused _ hadmits]
          have hinside : cause.isOutsideWindow = false := by
            unfold Machine.expectation at hexpectation
            split at hexpectation
            next =>
              cases hexpectation
              rfl
            next =>
              split at hexpectation
              next =>
                cases hexpectation
                rfl
              next => cases hexpectation
          simp [hinside]
      | ok expectation =>
          rw [hexpectation] at hadmits
          have hroute : ∃ outcome, machine.route slots readings.accepted readings.opened
              (arrivalOf message) = .ok outcome := by
            cases hroute : machine.route slots readings.accepted readings.opened
                (arrivalOf message) with
            | ok outcome => exact ⟨outcome, rfl⟩
            | error cause => exact absurd hknown (unknownSide_of_route hadmits hroute).2
          obtain ⟨outcome, hroute⟩ := hroute
          rw [hroute]
          exact iff_of_true rfl fun _ => ⟨expectation, rfl⟩

/-- An arrival has an expectation when its client has one for its domain. -/
theorem expectation_ok_iff {arrival : Arrival} :
    (∃ expectation, machine.expectation arrival = .ok expectation) ↔
      ∃ client, machine.reg.client arrival.clientId = some client ∧
        (client.expectationFor arrival.domain).isSome := by
  unfold Machine.expectation
  cases hclient : machine.reg.client arrival.clientId with
  | none => simp
  | some client => cases hfound : client.expectationFor arrival.domain <;> simp [hfound]

/-- A dispatched message of a known date and calendar can always be handled
exactly when its client expects its domain. -/
theorem handled_iff {valueDay : Day} {calendar : Calendar}
    (hdispatched : message.disposition = .dispatched)
    (hday : parseDate message.valueDate.resolved = .ok valueDay)
    (hcalendar : machine.calendarFor message.clientId = .ok calendar)
    (hside : message.reconSide = .externalClient) :
    Handled machine message ↔
      ∃ expectation, machine.expectation (arrivalOf message) = .ok expectation := by
  constructor
  · intro hhandled
    -- deliver it on its own value date
    have hsteady : Steady (fun _ => some { clock := valueDay.midnight, id := default }) :=
      fun _ => ⟨_, rfl, rfl⟩
    obtain ⟨readings, hclock, hresult⟩ :=
      @execute_handle_steady machine World.initial _ message hsteady
    have hplan := (handlePlan_ok_iff hdispatched hday hcalendar hside).mp
      (hresult.mp (hhandled World.initial _ hsteady))
    apply hplan
    rw [hclock _ rfl, truncate_midnight]
    exact inWindow_self machine calendar _ valueDay
  · intro hexpected world script hsteady
    obtain ⟨readings, _, hresult⟩ := @execute_handle_steady machine world _ message hsteady
    exact hresult.mpr ((handlePlan_ok_iff hdispatched hday hcalendar hside).mpr fun _ => hexpected)

end Berthmaster

/-! ## What the inspector dispatches -/

namespace Handover

variable {runtime : Runtime} {inspector : FileInspector} {machine : Machine}
variable {compiles : String → Bool} {client : Client} {clientId : String}

theorem mem_validDomains_of_expectationFor {reg : Registry} (haccepted : reg.Accepted compiles)
    (hclient : reg.client clientId = some client) {domain : String}
    (h : (client.expectationFor domain).isSome) : domain ∈ validDomains := by
  obtain ⟨expectation, hfind⟩ := Option.isSome_iff_exists.mp h
  have hdomain : expectation.domain = domain := by simpa using List.find?_some hfind
  rw [← hdomain]
  exact haccepted.domain hclient expectation (List.mem_of_find?_eq_some hfind)

/-- The wire spells a domain that a client may expect as the attribution does. -/
theorem expectationFor_wire {reg : Registry} (haccepted : reg.Accepted compiles)
    (hclient : reg.client clientId = some client) {text : String} {domain : Domain}
    (hdomain : Domain.ofText? (orElseText text domainUnknown) = some domain) :
    (client.expectationFor (domainName (domainProto domain))).isSome ↔
      (client.expectationFor text).isSome := by
  have htext : domain.text = orElseText text domainUnknown := by
    simpa using List.find?_some hdomain
  have hspelled : domain = .unknown ∨ domainName (domainProto domain) = domain.text := by
    cases domain <;> simp [domainProto, domainName, Domain.text]
  by_cases hunknown : domain = .unknown
  · -- neither spelling is one that the registry knows
    subst hunknown
    refine iff_of_false (fun h => ?_) fun h => ?_
    · exact absurd (mem_validDomains_of_expectationFor haccepted hclient h) (by decide)
    · have hmem := mem_validDomains_of_expectationFor haccepted hclient h
      unfold orElseText at htext
      split at htext
      next hempty =>
        rw [hempty] at hmem
        exact absurd hmem (by decide)
      next =>
        rw [← htext] at hmem
        exact absurd hmem (by decide)
  · rw [hspelled.resolve_left hunknown, htext]
    unfold orElseText at htext ⊢
    split
    next hempty =>
      rw [if_pos hempty] at htext
      exact absurd htext (by cases domain <;> simp_all [Domain.text, domainUnknown])
    next => exact Iff.rfl

/-- A classification that the inspector dispatches can always be handled exactly
when the attributed client expects the attributed domain. -/
theorem dispatched_handled_iff {parser : Parser} {table : ParsedTable}
    {out : List Classification} (arrivalId name : String) (content : Content)
    (clock : Nat → Day) (haccepted : inspector.registry.Accepted compiles)
    (hreg : machine.reg = inspector.registry) (hclock : ∀ index, Present (clock index))
    (hsniff : inspector.sniff runtime content name = .ok parser)
    (hparse : parser.parse content = .ok table)
    (hclassify : inspector.classify runtime arrivalId content name clock = .ok out) :
    ∀ c ∈ out, c.score.disposition = .dispatched →
      (Handled machine (toProto c) ↔
        ∃ clientId client,
          (inspector.attribution runtime table name).clientId = some clientId ∧
          inspector.registry.client clientId = some client ∧
          (client.expectationFor (inspector.attribution runtime table name).domain).isSome) := by
  obtain ⟨parser', table', shared, hsniff', hparse', hprepare, rfl⟩ := classify_ok hclassify
  obtain rfl := Except.ok.inj (hsniff.symm.trans hsniff')
  obtain rfl := Except.ok.inj (hparse.symm.trans hparse')
  obtain ⟨hattribution, hcalendar, _, hdomain⟩ := prepare_ok hprepare
  rw [← hattribution]
  intro c hc hdisposition
  obtain ⟨part, index, remark, total, rfl⟩ := mem_classifyParts hc
  obtain ⟨hresolved, _, _⟩ := dispatched_of_compose runtime _ hdisposition
  obtain ⟨clientId, hclientId⟩ := Option.isSome_iff_exists.mp hresolved
  obtain ⟨date, hdate⟩ := @resolved_date runtime part.rows part.headers shared.hints shared.name _
    shared.calendar (hclock index)
  have hwire : (toProto (inspector.classifyPart runtime shared part (clock index) remark index
      total)).valueDate.resolved = date.isoformat := by
    change ((resolve runtime part.headers part.rows shared.name (clock index) shared.calendar
      shared.hints).resolved.map isoformat).getD "" = _
    rw [hdate]
    exact isoformat_ordinal date
  have hday : parseDate (toProto (inspector.classifyPart runtime shared part (clock index) remark
      index total)).valueDate.resolved = .ok date.ordinal := by
    rw [hwire, Berthmaster.parseDate, Civil.parseIso_isoformat]
  have hsender : (toProto (inspector.classifyPart runtime shared part (clock index) remark index
      total)).clientId = clientId := by
    change shared.attribution.clientId.getD "" = clientId
    rw [hclientId]
    rfl
  have hfollowed : machine.calendarFor clientId = .ok shared.calendar := by
    have hne : clientId ≠ "" := clientId_ne_empty runtime (hattribution ▸ hclientId)
    unfold FileInspector.calendar at hcalendar
    rw [hclientId, truthy_of_ne hne] at hcalendar
    unfold Machine.calendarFor
    rw [hreg, show inspector.registry.calendarFor clientId = some shared.calendar from hcalendar]
  rw [@handled_iff machine _ date.ordinal shared.calendar
    (congrArg dispositionProto hdisposition) hday (by rw [hsender]; exact hfollowed) rfl]
  have hexpected : ∀ client, inspector.registry.client clientId = some client →
      ((client.expectationFor (domainName (domainProto shared.domain))).isSome ↔
        (client.expectationFor shared.attribution.domain).isSome) :=
    fun client hclient => expectationFor_wire haccepted hclient hdomain
  rw [expectation_ok_iff]
  change (∃ client, machine.reg.client (toProto _).clientId = some client ∧
    (client.expectationFor (domainName (domainProto shared.domain))).isSome) ↔ _
  rw [hsender, hreg]
  constructor
  · rintro ⟨client, hclient, hexpectation⟩
    exact ⟨clientId, client, hclientId, hclient, (hexpected client hclient).mp hexpectation⟩
  · rintro ⟨other, client, hother, hclient, hexpectation⟩
    obtain rfl := Option.some.inj (hclientId.symm.trans hother)
    exact ⟨client, hclient, (hexpected client hclient).mpr hexpectation⟩

/-- A statement of a client with one expectation, and its date. -/
def sampleTable : ParsedTable := sampleStatement "Value Date" ["2026-08-27"]

/-- A valid client on the New York calendar makes an accepted registry. -/
theorem accepted_of_validateClient {file : String} {c : Client}
    (hvalid : validateClient (fun _ => true) file c = .ok ()) (hcalendar : c.calendar = "US_EQUITY") :
    Registry.Accepted (fun _ => true) { clients := [c], calendars := [usEquity] } where
  clients_ne_nil := List.cons_ne_nil c []
  valid c' hc' := ⟨file, by rw [List.mem_singleton.mp hc', hvalid]⟩
  ids_nodup := List.nodup_singleton _
  calendars c' hc' := by
    rw [List.mem_singleton.mp hc', hcalendar]
    rfl
  calendars_nodup := List.nodup_singleton _

/-- Its cash statement is dispatched and can be handled. -/
theorem dispatched_handled_cash :
    ∃ out, sampleRun sampleTable = .ok out ∧ ∀ c ∈ out, c.score.disposition = .dispatched →
      Handled (newMachine sampleRegistry 2) (toProto c) := by
  have heval : (sampleRun sampleTable).toOption.map (fun _ => ()) = some () := by decide +kernel
  obtain ⟨out, hrun, -⟩ := Fallible.ok_of_toOption heval
  have hpresent : Present 739860 := ⟨⟨2026, 9, 1, by decide, by decide, by decide⟩, by decide, by decide⟩
  have hexpected : ((sampleInspector sampleTable).attribution .ascii sampleTable
      "statement.csv").clientId = some "CLNT001" ∧ (statementClient.expectationFor
      ((sampleInspector sampleTable).attribution .ascii sampleTable
        "statement.csv").domain).isSome := by decide
  refine ⟨out, hrun, fun c hc hdispatched => ?_⟩
  have haccepted : (sampleInspector sampleTable).registry.Accepted fun _ => true :=
    @accepted_of_validateClient "CLNT001.yaml" _ (by decide) rfl
  have hreg : (newMachine sampleRegistry 2).reg = (sampleInspector sampleTable).registry := rfl
  apply (dispatched_handled_iff _ _ _ _ haccepted hreg (fun _ => hpresent)
    (sampleInspector_sniff _) rfl hrun c hc hdispatched).mpr
  exact ⟨"CLNT001", statementClient, hexpected.1, rfl, hexpected.2⟩

/-- The client takes part in two reconciliations, so that the domain of a file
whose name says nothing stays unknown. -/
def severalRegistry : Registry where
  clients := [{ statementClient with expectations :=
    [{ id := "CLNT001-CASH", domain := "CASH" }, { id := "CLNT001-TRADE", domain := "TRADE" }] }]
  calendars := [usEquity]

theorem severalRegistry_accepted : severalRegistry.Accepted fun _ => true :=
  @accepted_of_validateClient "CLNT001.yaml" _ (by decide) rfl

def severalInspector : FileInspector := { sampleInspector sampleTable with registry := severalRegistry }

/-- Nothing is required of an unknown domain, so the file is dispatched, and no
expectation is found for it. -/
theorem unknown_domain_stuck :
    severalRegistry.Accepted (fun _ => true) ∧
    ∃ out, severalInspector.classify .ascii "arr-1" [] "statement.csv" (fun _ => 739860) =
        .ok out ∧
      ∃ c ∈ out, c.score.disposition = .dispatched ∧
        ¬ Handled (newMachine severalRegistry 2) (toProto c) := by
  refine ⟨severalRegistry_accepted, ?_⟩
  have heval : (severalInspector.classify .ascii "arr-1" [] "statement.csv"
      (fun _ => 739860)).toOption.map (fun out => out.any fun c =>
        decide (c.score.disposition = .dispatched ∧ c.clientId = some "CLNT001" ∧
          c.domain = .unknown ∧ c.valueDate.resolved = some 739855)) = some true := by
    decide +kernel
  obtain ⟨out, hrun, hany⟩ := Fallible.ok_of_toOption heval
  obtain ⟨c, hc, hfields⟩ := List.any_eq_true.mp hany
  obtain ⟨hdispatched, hclient, hdomain, hresolved⟩ := of_decide_eq_true hfields
  refine ⟨out, hrun, c, hc, hdispatched, fun hhandled => ?_⟩
  have hwire : (toProto c).clientId = "CLNT001" ∧ (arrivalOf (toProto c)).domain = "UNSPECIFIED" ∧
      (toProto c).valueDate.resolved = isoformat 739855 := by
    refine ⟨?_, ?_, ?_⟩
    · simp [toProto, hclient]
    · simp [arrivalOf, toProto, hdomain, domainProto, domainName]
    · simp [toProto, Resolution.resolvedIso, hresolved]
  have hday : parseDate (toProto c).valueDate.resolved = .ok 739855 := by
    rw [hwire.2.2]
    decide
  have hcalendar : (newMachine severalRegistry 2).calendarFor (toProto c).clientId =
      .ok usEquity := by
    rw [hwire.1]
    decide
  obtain ⟨client, hknown, hexpected⟩ := expectation_ok_iff.mp
    ((handled_iff (congrArg dispositionProto hdispatched) hday hcalendar rfl).mp hhandled)
  rw [hwire.2.1] at hexpected
  have hdomains := mem_validDomains_of_expectationFor severalRegistry_accepted hknown hexpected
  exact absurd hdomains (by decide)

end Handover

end Harbormaster
