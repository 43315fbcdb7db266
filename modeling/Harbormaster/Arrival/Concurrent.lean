import Harbormaster.Arrival.World
import Harbormaster.Arrival.Delivery
import Harbormaster.Foundation.Budget

/-! # Executions over one arrival table

Any number of executions of the processor, of several instances and of both
ingress routes, interleaved call by call. A row that was inserted is the credit
for one message; the table decides how many rows one content gets.
-/

namespace Harbormaster.Arrival

open Effect Program

/-- One call of `handle`, by an instance that watches `landingDir`. -/
structure Execution where
  landingDir : String
  candidate : Candidate
  ingress : String

def Execution.program (execution : Execution) : Handling Unit :=
  handle execution.landingDir execution.candidate execution.ingress

def sent? : Event Call Reply → Option Message
  | ⟨.publish message, _⟩ => some message
  | _ => none

/-- The messages handed to the bus, confirmed or not. -/
def World.sent (world : World) : List Message := world.calls.filterMap sent?

def carries (sha256 : String) (message : Message) : Bool := contentOf message = some sha256

/-- The world after the executions were interleaved over an empty table. -/
def interleaved {ι : Type} [DecidableEq ι] (objects : ObjectStore) (executions : ι → Execution)
    (schedule : List (ι × Choice)) : World :=
  (schedule.foldl (Pool.step (perform objects))
    (fun who => (executions who).program, ⟨[], []⟩)).2

/-! ## Rows as credit -/

section Credit

variable (sha256 : String)

/-- A row inserted for the content. -/
def inserted : Event Call Reply → Nat
  | ⟨.insert row, some affected⟩ => if affected ≠ 0 ∧ row.sha256 = sha256 then 1 else 0
  | _ => 0

/-- A message sent for the content. -/
def announced : Event Call Reply → Nat
  | ⟨.publish message, _⟩ => if carries sha256 message then 1 else 0
  | _ => 0

/-- The program sends one message for each row that it inserts, at most. -/
abbrev Pays {α : Type} (after : Nat → α → Prop) (program : Handling α) (credit : Nat) : Prop :=
  program.Within (inserted sha256) (announced sha256) after credit

variable {sha256} {α : Type} {credit : Nat}

/-- Calls that neither insert a row nor send a message leave the credit. -/
theorem pays_call (request : Call) (hinsert : ∀ row, request ≠ .insert row)
    (hpublish : ∀ message, request ≠ .publish message) (reply : Reply request → Option α)
    (cause : Failure) :
    Pays sha256 (fun after _ => after = credit)
      (ask request >>= fun result => orFail cause (reply result)) credit := by
  intro result
  have hfree : announced sha256 ⟨request, result⟩ = 0 ∧ inserted sha256 ⟨request, result⟩ = 0 := by
    cases request with
    | insert row => exact absurd rfl (hinsert row)
    | publish message => exact absurd rfl (hpublish message)
    | _ => exact ⟨rfl, rfl⟩
  rw [hfree.1, hfree.2]
  exact ⟨Nat.zero_le _, Within.orFail fun _ _ => rfl⟩

theorem pays_now : Pays sha256 (fun after _ => after = credit) now credit :=
  fun _ => ⟨Nat.zero_le _, rfl⟩

theorem pays_newId : Pays sha256 (fun after _ => after = credit) newId credit :=
  fun _ => ⟨Nat.zero_le _, rfl⟩

theorem pays_check (originalName sha : String) :
    Pays sha256 (fun after _ => after = credit) (check sha originalName) credit := by
  apply Within.bind
  apply (pays_call (.select sha) (by simp) (by simp) (fun reply => reply) .dedupe).mono
  intro after _ hafter
  exact hafter

/-- A row that was recorded pays for its message. -/
theorem pays_record (row : Record) :
    Pays sha256 (fun after recorded => recorded = true → row.sha256 = sha256 → 0 < after)
      (record row) credit := by
  intro reply
  refine ⟨Nat.zero_le _, ?_⟩
  cases reply with
  | none => trivial
  | some affected =>
      intro hrecorded hrow
      have haffected : affected ≠ 0 := of_decide_eq_true hrecorded
      change 0 < credit - 0 + if affected ≠ 0 ∧ row.sha256 = sha256 then 1 else 0
      rw [if_pos ⟨haffected, hrow⟩]
      exact Nat.succ_pos _

theorem pays_publish {message : Message} (hpaid : carries sha256 message = true → 0 < credit) :
    Pays sha256 (fun _ _ => True) (publish message) credit := by
  intro reply
  refine ⟨?_, Within.orFail fun _ _ => trivial⟩
  change (if carries sha256 message then 1 else 0) ≤ credit
  split
  next hcarries => exact hpaid hcarries
  next => exact Nat.zero_le _

theorem pays_announce {landingDir : String} {c : Candidate} {row : Record}
    (hpaid : row.sha256 = sha256 → 0 < credit) :
    Pays sha256 (fun _ _ => True) (announce landingDir c row) credit := by
  apply Within.bind
  apply (@pays_call sha256 _ credit (.encode _) (by simp) (by simp) (fun reply => reply) _).mono
  rintro _ _ rfl
  apply Within.bind
  have hsame : carries sha256 (rawMessage (arrivalRaw landingDir c row)) = true →
      row.sha256 = sha256 := fun hcarries => Option.some.inj (of_decide_eq_true hcarries)
  apply (pays_publish fun hcarries => hpaid (hsame hcarries)).mono
  intro credit _ _
  apply Within.bind
  apply (@pays_call sha256 _ credit (.append _) (by simp) (by simp) (fun reply => reply) _).mono
  rintro _ _ rfl reply
  exact ⟨Nat.zero_le _, trivial⟩

/-- An execution sends a message only for a row that it has inserted. -/
theorem pays_handle (landingDir : String) (c : Candidate) (ingress : String) :
    Pays sha256 (fun _ _ => True) (handle landingDir c ingress) 0 := by
  apply Within.bind
  apply (@pays_newId sha256 0).mono
  rintro _ id rfl
  apply Within.bind
  apply (@pays_call sha256 _ 0 (.openFile _) (by simp) (by simp) (fun reply => reply) _).mono
  rintro _ content rfl
  apply Within.bind
  apply (@pays_now sha256 0).mono
  rintro _ time rfl
  apply Within.bind
  apply (@pays_call sha256 _ 0 (.put _ _) (by simp) (by simp) (fun reply => reply) _).mono
  rintro _ object rfl
  apply Within.bind
  apply (@pays_check sha256 0 c.name object.sha256).mono
  rintro _ decision rfl
  split
  next =>
    apply (@pays_call sha256 _ 0 (.append _) (by simp) (by simp) (fun reply => reply) _).mono
    intro _ _ _
    trivial
  next =>
    apply Within.bind
    apply (@pays_now sha256 0).mono
    rintro _ detectedAt rfl
    apply Within.bind
    apply (pays_record _).mono
    intro credit recorded hpaid
    split
    next hrecorded => exact pays_announce (hpaid hrecorded)
    next => trivial

end Credit

/-! ## Rows in the table -/

/-- An insertion that reaches the table finds the content under no other name. -/
def OneName (sha256 : String) (world : World) (choice : Choice) : Call → Prop
  | .insert row => choice.fault = false → row.sha256 = sha256 → ∀ stored ∈ world.state,
      stored.sha256 = sha256 → stored.originalName = row.originalName
  | _ => True

instance (sha256 : String) (world : World) (choice : Choice) (request : Call) :
    Decidable (OneName sha256 world choice request) := by
  cases request <;> unfold OneName <;> infer_instance

/-- Every row inserted for the content is in the table, and there is at most one. -/
structure Single (sha256 : String) (world : World) : Prop where
  counted : total (inserted sha256) world.calls =
    world.state.countP fun row => row.sha256 = sha256
  single : world.state.countP (fun row => row.sha256 = sha256) ≤ 1

theorem perform_calls (objects : ObjectStore) (world : World) (choice : Choice)
    (request : Call) : (perform objects world choice request).1.calls =
      world.calls ++ [⟨request, (answer objects world.state choice request).2⟩] := rfl

theorem perform_state (objects : ObjectStore) (world : World) (choice : Choice)
    (request : Call) : (perform objects world choice request).1.state =
      (answer objects world.state choice request).1 := rfl

/-- A call that inserts no row for any content. -/
theorem Single.same {sha256 : String} {objects : ObjectStore} {world : World}
    (h : Single sha256 world) {choice : Choice} {request : Call}
    (hfree : inserted sha256 ⟨request, (answer objects world.state choice request).2⟩ = 0)
    (hsame : (answer objects world.state choice request).1 = world.state) :
    Single sha256 (perform objects world choice request).1 where
  counted := by
    rw [perform_calls, perform_state, hsame, total_concat, hfree]
    exact h.counted
  single := by
    rw [perform_state, hsame]
    exact h.single

/-- A row that was added is the first one of its content. -/
theorem Single.insert {sha256 : String} {objects : ObjectStore} {world : World}
    (h : Single sha256 world) {choice : Choice} {row : Record}
    (hname : OneName sha256 world choice (.insert row)) :
    Single sha256 (perform objects world choice (.insert row)).1 := by
  cases hfault : choice.fault with
  | true => exact h.same (by simp [answer, hfault, inserted]) (by simp [answer, hfault])
  | false =>
      cases hinsert : insertRow world.state row with
      | none =>
          exact h.same (by simp [answer, hfault, hinsert, inserted])
            (by simp [answer, hfault, hinsert])
      | some result =>
          obtain ⟨rows, affected⟩ := result
          have hanswer : answer objects world.state choice (.insert row) =
              (rows, some affected) := by
            simp [answer, hfault, hinsert]
          rcases insertRow_eq_some hinsert with ⟨rfl, rfl, _⟩ | ⟨rfl, rfl, hfresh⟩
          · exact h.same (by simp [hanswer, inserted]) (by rw [hanswer])
          · have hnone : row.sha256 = sha256 →
                world.state.countP (fun row => row.sha256 = sha256) = 0 := by
              intro hrow
              apply List.countP_eq_zero.mpr
              intro stored hstored hsha
              have hsha : stored.sha256 = sha256 := of_decide_eq_true hsha
              exact hfresh stored hstored (hsha.trans hrow.symm)
                (hname hfault hrow stored hstored hsha)
            have hcount : (world.state ++ [row]).countP (fun row => row.sha256 = sha256) =
                world.state.countP (fun row => row.sha256 = sha256) +
                  inserted sha256 ⟨.insert row, some 1⟩ := by
              simp [List.countP_append, List.countP_cons, inserted]
            refine ⟨?_, ?_⟩
            · rw [perform_calls, perform_state, hanswer, total_concat, h.counted, hcount]
            · rw [perform_state, hanswer, hcount]
              by_cases hrow : row.sha256 = sha256
              · rw [hnone hrow]
                simp [inserted, hrow]
              · simpa [inserted, hrow] using h.single

theorem Single.perform {sha256 : String} {objects : ObjectStore} {world : World}
    (h : Single sha256 world) {choice : Choice} {request : Call}
    (hname : OneName sha256 world choice request) :
    Single sha256 (perform objects world choice request).1 := by
  cases request with
  | insert row => exact h.insert hname
  | _ => exact h.same rfl rfl

theorem single_run {ι : Type} [DecidableEq ι] (objects : ObjectStore)
    (executions : ι → Execution) (schedule : List (ι × Choice)) (sha256 : String)
    (hnames : Along (Pool.step (perform objects)) (Pool.Allowed fun _ => OneName sha256)
      (fun who => (executions who).program, ⟨[], []⟩) schedule) :
    Single sha256 (interleaved objects executions schedule) := by
  refine hnames.invariant (motive := fun state => Single sha256 state.2) ?_ ⟨rfl, Nat.zero_le _⟩
  intro state turn h hturn
  unfold Pool.step
  split
  next request resume hcall => exact h.perform (hturn request resume hcall)
  next => exact h

/-! ## Messages -/

theorem length_sent (sha256 : String) (world : World) :
    (world.sent.filter (carries sha256)).length = total (announced sha256) world.calls := by
  unfold World.sent total
  induction world.calls with
  | nil => rfl
  | cons event calls ih =>
      obtain ⟨request, reply⟩ := event
      cases request with
      | publish message =>
          have hsent : sent? ⟨.publish message, reply⟩ = some message := rfl
          rw [List.filterMap_cons_some hsent, List.filter_cons, List.map_cons, List.sum_cons, ← ih]
          change _ = (if carries sha256 message then 1 else 0) + _
          split
          · exact Nat.add_comm _ 1
          · exact (Nat.zero_add _).symm
      | _ =>
          rw [List.filterMap_cons_none rfl, List.map_cons, List.sum_cons, ih]
          exact (Nat.zero_add _).symm

/-- What was published was sent. -/
theorem published_sublist_sent (world : World) : world.published.Sublist world.sent := by
  unfold World.published World.sent
  induction world.calls with
  | nil => exact .slnil
  | cons event calls ih =>
      obtain ⟨request, reply⟩ := event
      cases request with
      | publish message =>
          have hsent : sent? ⟨.publish message, reply⟩ = some message := rfl
          rw [List.filterMap_cons_some hsent]
          cases reply with
          | none =>
              rw [List.filterMap_cons_none rfl]
              exact ih.cons _
          | some confirmed =>
              have hpublished : published? ⟨.publish message, some confirmed⟩ = some message := rfl
              rw [List.filterMap_cons_some hpublished]
              exact ih.cons_cons _
      | _ =>
          rw [List.filterMap_cons_none rfl, List.filterMap_cons_none rfl]
          exact ih

/-- Where every row of a content is inserted under one name, no interleaving
sends a second message for that content, and none is published twice. -/
theorem one_message_for_content {ι : Type} [Fintype ι] [DecidableEq ι] (objects : ObjectStore)
    (executions : ι → Execution) (schedule : List (ι × Choice)) (sha256 : String)
    (hnames : Along (Pool.step (perform objects)) (Pool.Allowed fun _ => OneName sha256)
      (fun who => (executions who).program, ⟨[], []⟩) schedule) :
    let world := interleaved objects executions schedule
    (world.published.filter (carries sha256)).length ≤
        (world.sent.filter (carries sha256)).length ∧
      (world.sent.filter (carries sha256)).length ≤ 1 := by
  intro world
  refine ⟨((published_sublist_sent world).filter _).length_le, ?_⟩
  have hpaid := Pool.spent_le_earned (answer objects)
    (fun who => @pays_handle sha256 (executions who).landingDir
      (executions who).candidate (executions who).ingress) [] schedule
  have hsingle := single_run objects executions schedule sha256 hnames
  calc (world.sent.filter (carries sha256)).length
      = total (announced sha256) world.calls := length_sent sha256 world
    _ ≤ total (inserted sha256) world.calls := hpaid
    _ = world.state.countP (fun row => row.sha256 = sha256) := hsingle.counted
    _ ≤ 1 := hsingle.single

/-! ## Two deliveries of one content -/

/-- The sample content, delivered under a name. -/
def sampleExecution (name ingress : String) : Execution where
  landingDir := "/data/landing"
  candidate := ⟨"/data/landing/" ++ name, name, 19, 0, 6000⟩
  ingress := ingress

/-- The next calls of a party, which reads the sample content. -/
def sampleTurns (who : Bool) (count : Nat) : List (Bool × Choice) :=
  List.replicate count (who,
    { clock := Day.midnight 739859
      id := if who then Landing.sampleFirstId else Landing.sampleSecondId
      read := fun _ => some Landing.sampleFirst.content })

/-- Both executions check for duplicates before either records its row. -/
def sampleRace : List (Bool × Choice) :=
  sampleTurns true 5 ++ sampleTurns false 5 ++ sampleTurns true 6 ++ sampleTurns false 6

/-- Two instances that race for one file send one message. -/
theorem one_message_same_name :
    let executions : Bool → Execution := fun _ => sampleExecution "trades_A.csv" ingressFtp
    let sha256 := Landing.sampleObjects.digest Landing.sampleFirst.content
    let world := interleaved Landing.sampleObjects executions sampleRace
    (world.published.filter (carries sha256)).length ≤
        (world.sent.filter (carries sha256)).length ∧
      (world.sent.filter (carries sha256)).length ≤ 1 :=
  one_message_for_content Landing.sampleObjects _ sampleRace _ (by decide +kernel)

def sampleDeliveries (who : Bool) : Execution :=
  if who then sampleExecution "trades_A.csv" ingressFtp
  else sampleExecution "trades_B.csv" ingressQueue

/-- The same content under two names: both rows are accepted, and both are published. -/
theorem two_messages_two_names :
    ¬ ∀ (ι : Type) [Fintype ι] [DecidableEq ι] (objects : ObjectStore)
      (executions : ι → Execution) (schedule : List (ι × Choice)) (sha256 : String),
      ((interleaved objects executions schedule).published.filter (carries sha256)).length ≤ 1 := by
  intro h
  have htwo : ((interleaved Landing.sampleObjects sampleDeliveries sampleRace).published.filter
      (carries (Landing.sampleObjects.digest Landing.sampleFirst.content))).length = 2 := by
    decide +kernel
  have hone := h Bool Landing.sampleObjects sampleDeliveries sampleRace
    (Landing.sampleObjects.digest Landing.sampleFirst.content)
  rw [htwo] at hone
  exact absurd hone (by decide)

end Harbormaster.Arrival
