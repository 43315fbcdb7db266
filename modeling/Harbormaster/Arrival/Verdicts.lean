import Harbormaster.Arrival.Delivery
import Mathlib.Data.List.Induction

/-! # The verdicts over a history of deliveries

Files are handled one after the other, each by an execution that ends without an
error. Only content that is new gets a row, so all that the table tells about a
later delivery is the first one of its content.
-/

namespace Harbormaster.Arrival

open Effect Program

/-- The decision on a name that a call brings about. -/
def decided? (originalName : String) : Event Call Reply → Option Decision
  | ⟨.select _, some rows⟩ => some (classify originalName rows)
  | _ => none

/-- The decisions on a name, oldest first. -/
def World.decisions (world : World) (originalName : String) : List Decision :=
  world.calls.filterMap (decided? originalName)

/-! ## What one execution decides -/

section Executions

variable (objects : ObjectStore) (path : String) (content : Content)

/-- The file holds the content whenever it is opened. -/
def Holding (_ : World) (choice : Choice) (_ : Call) : Prop := choice.read path = some content

/-- The table, and the decisions made on a name so far. -/
structure Shows (originalName : String) (rows : List Record) (decisions : List Decision)
    (world : World) : Prop where
  state : world.state = rows
  decisions : world.decisions originalName = decisions

/-- The program establishes `post` unless it fails. -/
def Attains {α : Type} (post : World → α → Prop) (program : Handling α) (world : World) : Prop :=
  program.Spec (perform objects) (Holding path content) (fun _ => True)
    (fun world result => ∀ value, result = .ok value → post world value) world

variable {objects path content} {world : World}

theorem Attains.bind {α β : Type} (mid : World → α → Prop) {post : World → β → Prop}
    {program : Handling α} {next : α → Handling β}
    (hfirst : Attains objects path content mid program world)
    (hnext : ∀ world value, mid world value →
      Attains objects path content post (next value) world) :
    Attains objects path content post (program >>= next) world :=
  Spec.bind (hfirst.mono (fun _ h => h) fun world' result hresult => by
    cases result with
    | ok value => exact hnext world' value (hresult value rfl)
    | error cause => nofun)

theorem Attains.mono {α : Type} {mid post : World → α → Prop} {program : Handling α}
    (h : Attains objects path content mid program world)
    (hpost : ∀ world value, mid world value → post world value) :
    Attains objects path content post program world :=
  Spec.mono h (fun _ h => h) fun world' _ hresult value hvalue =>
    hpost world' value (hresult value hvalue)

/-- One call, whose reply is required. -/
theorem attains_call {α : Type} {post : World → α → Prop} (request : Call)
    (reply : Reply request → Option α) (cause : Failure)
    (h : ∀ choice : Choice, choice.read path = some content → ∀ value,
      reply (perform objects world choice request).2 = some value →
      post (perform objects world choice request).1 value) :
    Attains objects path content post
      (ask request >>= fun result => orFail cause (reply result)) world := by
  refine ⟨trivial, fun choice hread => ?_⟩
  change Spec _ _ _ _ (orFail cause (reply (perform objects world choice request).2)) _
  cases hvalue : reply (perform objects world choice request).2 with
  | some value =>
      rintro _ ⟨⟩
      exact h choice hread value hvalue
  | none => nofun

/-- Calls that change no table and decide nothing. -/
def Quiet : Call → Prop
  | .insert _ => False
  | .select _ => False
  | _ => True

variable {originalName : String} {rows : List Record} {decisions : List Decision}

theorem Shows.quiet (h : Shows originalName rows decisions world) (request : Call)
    (hquiet : Quiet request) (choice : Choice) :
    Shows originalName rows decisions (perform objects world choice request).1 := by
  cases request with
  | insert row => exact hquiet.elim
  | select sha256 => exact hquiet.elim
  | _ => exact ⟨h.state, (List.filterMap_append.trans (List.append_nil _)).trans h.decisions⟩

theorem attains_quiet {α : Type} (request : Call) (reply : Reply request → Option α)
    (cause : Failure) (hquiet : Quiet request) (h : Shows originalName rows decisions world) :
    Attains objects path content (fun world value => Shows originalName rows decisions world ∧
      ∃ choice : Choice, choice.read path = some content ∧
        reply (answer objects rows choice request).2 = some value)
      (ask request >>= fun result => orFail cause (reply result)) world :=
  attains_call request reply cause fun choice hread _ hvalue =>
    ⟨h.quiet request hquiet choice, choice, hread, h.state ▸ hvalue⟩

/-- A quiet call that cannot fail. -/
theorem attains_ask (request : Call) (hquiet : Quiet request)
    (h : Shows originalName rows decisions world) :
    Attains objects path content (fun world _ => Shows originalName rows decisions world)
      (ask request) world :=
  ⟨trivial, fun choice _ _ _ => h.quiet request hquiet choice⟩

theorem attains_openFile {c : Candidate} (hpath : c.path = path)
    (h : Shows originalName rows decisions world) :
    Attains objects path content (fun world value => Shows originalName rows decisions world ∧
      value = content) (openFile c) world := by
  refine (attains_quiet (.openFile c.path) (fun reply => reply) _ trivial h).mono
    fun world value hvalue => ?_
  obtain ⟨hshows, choice, hread, hvalue⟩ := hvalue
  refine ⟨hshows, ?_⟩
  cases hfault : choice.fault with
  | true => simp [answer, hfault] at hvalue
  | false =>
      simp only [answer, hfault, if_neg Bool.false_ne_true, hpath, hread] at hvalue
      exact (Option.some.inj hvalue).symm

theorem attains_put {key : String} {c : Candidate} {stored : Content}
    (h : Shows originalName rows decisions world) :
    Attains objects path content (fun world object => Shows originalName rows decisions world ∧
      object.sha256 = objects.digest stored) (put key c stored) world := by
  refine (attains_quiet (.put key stored) (fun reply => reply) _ trivial h).mono
    fun world object hobject => ?_
  obtain ⟨hshows, choice, -, hobject⟩ := hobject
  refine ⟨hshows, ?_⟩
  cases hfault : choice.fault with
  | true => simp [answer, hfault] at hobject
  | false =>
      simp only [answer, hfault, if_neg Bool.false_ne_true, Option.some.injEq] at hobject
      exact hobject ▸ rfl

/-- The check decides on the rows that hold the content, in some order. -/
theorem attains_check {sha256 : String} (h : Shows originalName rows [] world) :
    Attains objects path content (fun world decision => ∃ found : List Record,
      found.Perm (rows.filter fun row => row.sha256 = sha256) ∧
      decision = classify originalName found ∧ Shows originalName rows [decision] world)
      (check sha256 originalName) world := by
  refine Attains.bind (fun world found =>
    found.Perm (rows.filter fun row => row.sha256 = sha256) ∧
      Shows originalName rows [classify originalName found] world)
    (attains_call (.select sha256) (fun reply => reply) _ fun choice _ found hreply => ?_)
    fun world found hfound => ?_
  · have hreply : (answer objects world.state choice (.select sha256)).2 = some found := hreply
    have hevent : decided? originalName ⟨.select sha256,
        (answer objects world.state choice (.select sha256)).2⟩ =
        some (classify originalName found) := by
      rw [hreply]
      rfl
    refine ⟨?_, h.state, ?_⟩
    · cases hfault : choice.fault with
      | true => simp [answer, hfault] at hreply
      | false =>
          simp only [answer, hfault, if_neg Bool.false_ne_true, h.state,
            Option.some.injEq] at hreply
          rw [← hreply]
          exact (List.perm_insertionSort _ _).trans (choice.arrange.2 _)
    · refine List.filterMap_append.trans ?_
      rw [show world.calls.filterMap (decided? originalName) = [] from h.decisions]
      exact List.filterMap_cons_some hevent
  · rintro _ ⟨⟩
    exact ⟨found, hfound.1, rfl, hfound.2⟩

theorem attains_record {row : Record} (h : Shows originalName rows decisions world) :
    Attains objects path content (fun world recorded =>
      (recorded = true → Shows originalName (rows ++ [row]) decisions world) ∧
      (recorded = false → ∃ stored ∈ rows, stored.sha256 = row.sha256)) (record row) world := by
  refine Attains.bind (fun world affected =>
    (affected ≠ 0 → Shows originalName (rows ++ [row]) decisions world) ∧
      (affected = 0 → ∃ stored ∈ rows, stored.sha256 = row.sha256))
    (attains_call (.insert row) (fun reply => reply) .record fun choice _ affected hreply => ?_)
    fun world affected haffected => ?_
  · have hreply : (answer objects rows choice (.insert row)).2 = some affected :=
      h.state ▸ hreply
    have hdecisions : ∀ rows', (answer objects rows choice (.insert row)).1 = rows' →
        Shows originalName rows' decisions (perform objects world choice (.insert row)).1 :=
      fun rows' hstate => ⟨(h.state ▸ hstate :), (List.filterMap_append.trans
        (List.append_nil _)).trans h.decisions⟩
    obtain ⟨hone, hzero⟩ := answer_insert hreply
    exact ⟨fun hne => hdecisions _ (hone hne), fun heq => (hzero heq).2⟩
  · rintro _ ⟨⟩
    exact ⟨fun h => haffected.1 (of_decide_eq_true h),
      fun h => haffected.2 (not_not.mp (of_decide_eq_false h))⟩

/-- The end of an execution without an error: the decision, from the rows found,
and a row for content that is new. -/
structure Judged (objects : ObjectStore) (content : Content) (originalName : String)
    (rows found : List Record) (world : World) : Prop where
  select : found.Perm (rows.filter fun row => row.sha256 = objects.digest content)
  decisions : world.decisions originalName = [classify originalName found]
  suppressed : found ≠ [] → world.state = rows
  recorded : found = [] → ∃ row : Record, row.sha256 = objects.digest content ∧
    row.originalName = originalName ∧ world.state = rows ++ [row]

theorem attains_announce {landingDir : String} {c : Candidate} {row : Record}
    (h : Shows originalName rows decisions world) :
    Attains objects path content (fun world _ => Shows originalName rows decisions world)
      (announce landingDir c row) world := by
  refine Attains.bind _ (attains_quiet (.encode _) (fun reply => reply) .encode trivial h)
    fun world _ h => ?_
  refine Attains.bind _ (attains_quiet (.publish _) (fun reply => reply) .publish trivial h.1)
    fun world _ h => ?_
  refine Attains.bind _ (attains_quiet (.append _) (fun reply => reply) .audit trivial h.1)
    fun world _ h => ?_
  exact attains_ask (.forget _) trivial h.1

theorem attains_handle (landingDir : String) (c : Candidate) (ingress : String)
    (hpath : c.path = path) (h : Shows c.name rows [] world) :
    Attains objects path content
      (fun world _ => ∃ found, Judged objects content c.name rows found world)
      (handle landingDir c ingress) world := by
  refine Attains.bind _ (attains_ask .newId trivial h) fun world id h => ?_
  refine Attains.bind _ (attains_openFile hpath h) fun world stored h => ?_
  obtain ⟨h, rfl⟩ := h
  refine Attains.bind _ (attains_ask .now trivial h) fun world time h => ?_
  refine Attains.bind _ (attains_put h) fun world object h => ?_
  obtain ⟨h, hobject⟩ := h
  refine Attains.bind _ (attains_check h) fun world decision h => ?_
  obtain ⟨found, hfound, rfl, h⟩ := h
  rw [hobject] at hfound
  have hsuppress := suppress_classify c.name found
  split
  next hwhen =>
    refine (attains_quiet (.append _) (fun reply => reply) .audit trivial h).mono
      fun world _ h => ⟨found, hfound, h.1.decisions, fun _ => h.1.state, ?_⟩
    exact fun hempty => absurd hempty (hsuppress.mp hwhen)
  next hwhen =>
    have hempty : found = [] := not_not.mp (hsuppress.not.mp hwhen)
    refine Attains.bind _ (attains_ask .now trivial h) fun world detectedAt h => ?_
    refine Attains.bind _ (attains_record h) fun world recorded h => ?_
    split
    next hrecorded =>
      refine (attains_announce (h.1 hrecorded)).mono fun world _ h =>
        ⟨found, hfound, h.decisions, fun hne => absurd hempty hne, fun _ => ?_⟩
      exact ⟨_, hobject, rfl, h.state⟩
    next hrecorded =>
      -- the row would have been found by the check
      obtain ⟨row, hrow, hsame⟩ := h.2 (Bool.not_eq_true _ ▸ hrecorded)
      rw [hempty, List.nil_perm, List.filter_eq_nil_iff] at hfound
      have hother := hfound row hrow
      rw [hsame, recordOf, hobject, decide_eq_true_eq] at hother
      exact absurd rfl hother

end Executions

/-! ## A history of deliveries -/

/-- A file, what it holds, and the execution that handles it. -/
structure Delivery where
  candidate : Candidate
  ingress : String
  content : Content
  script : Script Choice

namespace Delivery

variable (objects : ObjectStore) (landingDir : String)

def execution (rows : List Record) (delivery : Delivery) : World × Ending Failure Unit :=
  (handle landingDir delivery.candidate delivery.ingress).run (perform objects) delivery.script
    ⟨rows, []⟩

/-- The table after a delivery. -/
def process (rows : List Record) (delivery : Delivery) : List Record :=
  (delivery.execution objects landingDir rows).1.state

/-- The decisions on the name of the delivery that its execution brings about. -/
def decisions (rows : List Record) (delivery : Delivery) : List Decision :=
  (delivery.execution objects landingDir rows).1.decisions delivery.candidate.name

/-- The file is read as it is, and the execution ends without an error. -/
structure Succeeds (rows : List Record) (delivery : Delivery) : Prop where
  reads : ∀ index choice, delivery.script index = some choice →
    choice.read delivery.candidate.path = some delivery.content
  value : (delivery.execution objects landingDir rows).2 = .value ()

variable {objects landingDir} {rows : List Record} {delivery : Delivery}

theorem Succeeds.judged (h : delivery.Succeeds objects landingDir rows) :
    ∃ found, Judged objects delivery.content delivery.candidate.name rows found
      (delivery.execution objects landingDir rows).1 := by
  have hspec : Attains objects delivery.candidate.path delivery.content
      (fun world _ => ∃ found, Judged objects delivery.content delivery.candidate.name rows found
        world) (handle landingDir delivery.candidate delivery.ingress) ⟨rows, []⟩ :=
    attains_handle landingDir delivery.candidate delivery.ingress rfl ⟨rfl, rfl⟩
  have hobeys : (handle landingDir delivery.candidate delivery.ingress).Obeys (perform objects)
      (Holding delivery.candidate.path delivery.content) delivery.script ⟨rows, []⟩ :=
    obeys_of_forall _ (fun index choice hchoice _ _ => h.reads index choice hchoice) _
  have hend := hspec.run hobeys
  have hvalue := h.value
  unfold execution at hvalue ⊢
  generalize (handle landingDir delivery.candidate delivery.ingress).run (perform objects)
    delivery.script ⟨rows, []⟩ = result at hend hvalue ⊢
  obtain ⟨world, ending⟩ := result
  cases hvalue
  exact hend () rfl

end Delivery

/-- The first delivery that has the digest. -/
def firstWith (objects : ObjectStore) (sha256 : String) (deliveries : List Delivery) :
    Option Delivery :=
  deliveries.find? fun delivery => objects.digest delivery.content = sha256

/-- The table holds the first delivery of every digest, and nothing else. -/
def Firsts (objects : ObjectStore) (deliveries : List Delivery) (rows : List Record) : Prop :=
  ∀ sha256, (rows.filter fun row => row.sha256 = sha256).map Record.originalName =
    ((firstWith objects sha256 deliveries).map fun first => first.candidate.name).toList

section Histories

variable {objects : ObjectStore} {landingDir : String} {rows : List Record}
variable {earlier : List Delivery} {delivery : Delivery}

theorem firstWith_concat (sha256 : String) :
    firstWith objects sha256 (earlier ++ [delivery]) =
      (firstWith objects sha256 earlier).or
        (if objects.digest delivery.content = sha256 then some delivery else none) := by
  unfold firstWith
  rw [List.find?_append]
  refine congrArg _ ?_
  by_cases hsame : objects.digest delivery.content = sha256
  · rw [if_pos hsame]
    exact List.find?_cons_of_pos (decide_eq_true hsame)
  · rw [if_neg hsame]
    exact List.find?_cons_of_neg (by simpa using hsame)

/-- What a decision says of the first delivery with the same digest. -/
structure ReadsOff (first : Option Delivery) (delivery : Delivery) (decision : Decision) :
    Prop where
  new : decision.verdict = .new ↔ first = none
  duplicate : decision.verdict = .duplicate ↔
    ∃ other, first = some other ∧ other.candidate.name = delivery.candidate.name
  redelivery : decision.verdict = .redelivery ↔
    ∃ other, first = some other ∧ other.candidate.name ≠ delivery.candidate.name
  seenCount : decision.seenCount = if first = none then 1 else 2

theorem classify_readsOff {found : List Record} {first : Option Delivery}
    (h : found.map Record.originalName = (first.map fun first => first.candidate.name).toList) :
    ReadsOff first delivery (classify delivery.candidate.name found) := by
  cases first with
  | none =>
      obtain rfl := List.map_eq_nil_iff.mp h
      constructor <;> simp [classify, Tally.decide]
  | some other =>
      obtain ⟨row, rfl, hname⟩ := List.map_eq_singleton_iff.mp h
      by_cases hsame : row.originalName = delivery.candidate.name
      · constructor <;> simp [classify, Tally.decide, Tally.add, hsame, ← hname]
      · constructor <;> simp [classify, Tally.decide, Tally.add, hsame, ← hname]

/-- A list that holds one element at most is the only arrangement of itself. -/
theorem Firsts.found_eq (h : Firsts objects earlier rows) {sha256 : String} {found : List Record}
    (hfound : found.Perm (rows.filter fun row => row.sha256 = sha256)) :
    found.map Record.originalName =
      ((firstWith objects sha256 earlier).map fun first => first.candidate.name).toList := by
  have hperm := hfound.map Record.originalName
  rw [h sha256] at hperm
  cases hfirst : (firstWith objects sha256 earlier).map fun first => first.candidate.name with
  | none =>
      rw [hfirst] at hperm
      exact List.perm_nil.mp hperm
  | some name =>
      rw [hfirst] at hperm
      exact List.perm_singleton.mp hperm

/-- A delivery leaves the table with the first deliveries, itself included. -/
theorem Firsts.process (h : Firsts objects earlier rows)
    (hsucceeds : delivery.Succeeds objects landingDir rows) :
    Firsts objects (earlier ++ [delivery]) (delivery.process objects landingDir rows) := by
  obtain ⟨found, hjudged⟩ := hsucceeds.judged
  have hnames := h.found_eq hjudged.select
  intro sha256
  rw [firstWith_concat]
  unfold Delivery.process
  cases hfirst : firstWith objects (objects.digest delivery.content) earlier with
  | some first =>
      have hne : found ≠ [] := by
        rintro rfl
        rw [hfirst] at hnames
        cases hnames
      rw [hjudged.suppressed hne, h sha256]
      by_cases hsame : objects.digest delivery.content = sha256
      · rw [← hsame, hfirst]
        rfl
      · rw [if_neg hsame, Option.or_none]
  | none =>
      rw [hfirst] at hnames
      obtain ⟨row, hsha, hname, hstate⟩ := hjudged.recorded (List.map_eq_nil_iff.mp hnames)
      rw [hstate, List.filter_append, List.map_append, h sha256]
      by_cases hsame : objects.digest delivery.content = sha256
      · rw [← hsame, hfirst, if_pos rfl]
        simp [hsha, hname]
      · rw [if_neg hsame, Option.or_none]
        simp [hsha, hsame]

variable {deliveries : List Delivery}

/-- Every delivery of a history succeeds on the table that the earlier ones have
left. -/
def Unfailing (objects : ObjectStore) (landingDir : String) (deliveries : List Delivery) : Prop :=
  Along (fun rows delivery => delivery.process objects landingDir rows)
    (fun rows delivery => delivery.Succeeds objects landingDir rows) [] deliveries

/-- The table after a history. -/
def tableAfter (objects : ObjectStore) (landingDir : String) (deliveries : List Delivery) :
    List Record :=
  deliveries.foldl (fun rows delivery => delivery.process objects landingDir rows) []

theorem Unfailing.firsts (h : Unfailing objects landingDir deliveries) :
    Firsts objects deliveries (tableAfter objects landingDir deliveries) := by
  induction deliveries using List.reverseRec with
  | nil => exact fun _ => rfl
  | append_singleton earlier delivery ih =>
      obtain ⟨hearlier, hlast, -⟩ := along_append.mp h
      unfold tableAfter
      rw [List.foldl_append]
      exact (ih hearlier).process hlast

/-- A delivery brings about one decision, read off the first delivery with the
same digest. -/
theorem Unfailing.decided {later : List Delivery}
    (h : Unfailing objects landingDir (earlier ++ delivery :: later)) :
    ∃ decision, delivery.decisions objects landingDir (tableAfter objects landingDir earlier) =
        [decision] ∧
      ReadsOff (firstWith objects (objects.digest delivery.content) earlier) delivery
        decision := by
  obtain ⟨hearlier, hdelivery, -⟩ := along_append.mp h
  obtain ⟨found, hjudged⟩ := hdelivery.judged
  exact ⟨_, hjudged.decisions,
    classify_readsOff ((Unfailing.firsts hearlier).found_eq hjudged.select)⟩

/-! ## When the verdicts reflect the history -/

/-- The decision tells the truth about the deliveries so far. -/
structure Reflects (earlier : List Delivery) (delivery : Delivery) (decision : Decision) :
    Prop where
  new : decision.verdict = .new ↔ ∀ other ∈ earlier, other.content ≠ delivery.content
  duplicate : decision.verdict = .duplicate ↔ ∃ other ∈ earlier,
    other.content = delivery.content ∧ other.candidate.name = delivery.candidate.name
  redelivery : decision.verdict = .redelivery ↔
    (∃ other ∈ earlier, other.content = delivery.content) ∧ ¬ ∃ other ∈ earlier,
      other.content = delivery.content ∧ other.candidate.name = delivery.candidate.name
  seenCount : decision.seenCount =
    ((earlier ++ [delivery]).countP fun other => other.content = delivery.content : Nat)

/-- Every delivery of the history brings about one decision, which tells the truth. -/
def Truthful (objects : ObjectStore) (landingDir : String) (deliveries : List Delivery) : Prop :=
  ∀ earlier delivery later, deliveries = earlier ++ delivery :: later →
    ∃ decision, delivery.decisions objects landingDir (tableAfter objects landingDir earlier) =
        [decision] ∧ Reflects earlier delivery decision

/-- The contents that were delivered have digests of their own. -/
def Apart (objects : ObjectStore) (deliveries : List Delivery) : Prop :=
  ∀ delivery ∈ deliveries, ∀ other ∈ deliveries,
    objects.digest other.content = objects.digest delivery.content →
    other.content = delivery.content

theorem Unfailing.reads_and_reflects {later : List Delivery}
    (h : Unfailing objects landingDir (earlier ++ delivery :: later))
    (htruthful : Truthful objects landingDir (earlier ++ delivery :: later)) :
    ∃ decision, ReadsOff (firstWith objects (objects.digest delivery.content) earlier) delivery
        decision ∧ Reflects earlier delivery decision := by
  obtain ⟨decision, hdecision, hreads⟩ := h.decided
  obtain ⟨_, hsame, hreflects⟩ := htruthful earlier delivery later rfl
  obtain ⟨rfl, -⟩ := List.cons.inj (hdecision.symm.trans hsame)
  exact ⟨decision, hreads, hreflects⟩

/-- In a truthful history the first delivery of a digest is one of the content. -/
theorem Unfailing.first_content (h : Unfailing objects landingDir deliveries)
    (htruthful : Truthful objects landingDir deliveries) {delivery : Delivery}
    (hmem : delivery ∈ deliveries) :
    ∃ first, firstWith objects (objects.digest delivery.content) deliveries = some first ∧
      first.content = delivery.content := by
  obtain ⟨first, hfirst⟩ := Option.isSome_iff_exists.mp (List.find?_isSome.mpr
    ⟨delivery, hmem, decide_eq_true rfl⟩ :
      (deliveries.find? fun other => decide (other.content = delivery.content)).isSome)
  obtain ⟨hcontent, earlier, later, rfl, hearlier⟩ := List.find?_eq_some_iff_append.mp hfirst
  have hcontent : first.content = delivery.content := of_decide_eq_true hcontent
  obtain ⟨decision, hreads, hreflects⟩ := h.reads_and_reflects htruthful
  have hnew : decision.verdict = .new := hreflects.new.mpr fun other hother hsame =>
    absurd (hsame.trans hcontent) (by simpa using hearlier other hother)
  have hnone := hreads.new.mp hnew
  refine ⟨first, ?_, hcontent⟩
  rw [hcontent] at hnone
  unfold firstWith at hnone ⊢
  rw [List.find?_append, hnone, Option.none_or]
  exact List.find?_cons_of_pos (decide_eq_true (congrArg objects.digest hcontent))

/-- A truthful count needs a content to be delivered twice at most. -/
theorem Unfailing.countP_le (h : Unfailing objects landingDir deliveries)
    (htruthful : Truthful objects landingDir deliveries) {delivery : Delivery}
    (hmem : delivery ∈ deliveries) :
    (deliveries.countP fun other => other.content = delivery.content) ≤ 2 := by
  -- the last delivery of the content has counted them all
  obtain ⟨last, hlast⟩ := Option.isSome_iff_exists.mp (List.find?_isSome.mpr
    ⟨delivery, List.mem_reverse.mpr hmem, decide_eq_true rfl⟩ :
      (deliveries.reverse.find? fun other => decide (other.content = delivery.content)).isSome)
  obtain ⟨hcontent, later, earlier, hsplit, hlater⟩ := List.find?_eq_some_iff_append.mp hlast
  have hcontent : last.content = delivery.content := of_decide_eq_true hcontent
  have hsplit : deliveries = earlier.reverse ++ last :: later.reverse := by
    rw [← List.reverse_reverse deliveries, hsplit]
    simp
  subst hsplit
  obtain ⟨decision, hreads, hreflects⟩ := h.reads_and_reflects htruthful
  have hnone : (later.reverse.countP fun other => other.content = delivery.content) = 0 := by
    rw [List.countP_eq_zero]
    intro other hother
    simpa using hlater other (List.mem_reverse.mp hother)
  have hcount := hreflects.seenCount
  rw [hreads.seenCount, hcontent] at hcount
  rw [List.append_cons, List.countP_append, hnone]
  split at hcount <;> omega

/-- Content that was delivered once at most is its first delivery. -/
theorem filter_eq_find? {deliveries : List Delivery} {kind : Delivery → Bool}
    (h : deliveries.countP kind ≤ 1) :
    deliveries.filter kind = (deliveries.find? kind).toList := by
  rw [List.countP_eq_length_filter] at h
  rw [← List.head?_filter]
  cases hfilter : deliveries.filter kind with
  | nil => rfl
  | cons first rest =>
      rw [hfilter, List.length_cons] at h
      rw [List.eq_nil_of_length_eq_zero (by omega : rest.length = 0)]
      rfl

theorem Apart.reflects {later : List Delivery} {decision : Decision}
    (hapart : Apart objects (earlier ++ delivery :: later))
    (htwice : ((earlier ++ delivery :: later).countP fun other =>
      other.content = delivery.content) ≤ 2)
    (hreads : ReadsOff (firstWith objects (objects.digest delivery.content) earlier) delivery
      decision) : Reflects earlier delivery decision := by
  have hdelivery : delivery ∈ earlier ++ delivery :: later :=
    List.mem_append_right _ List.mem_cons_self
  have hkind : ∀ other ∈ earlier, (objects.digest other.content = objects.digest delivery.content ↔
      other.content = delivery.content) := fun other hother =>
    ⟨hapart delivery hdelivery other (List.mem_append_left _ hother), congrArg objects.digest⟩
  have hcount : (earlier.countP fun other => other.content = delivery.content) ≤ 1 := by
    rw [List.append_cons, List.countP_append, List.countP_append] at htwice
    have hone : ([delivery].countP fun other => other.content = delivery.content) = 1 := by simp
    omega
  have hfirst : firstWith objects (objects.digest delivery.content) earlier =
      earlier.find? fun other => other.content = delivery.content := by
    unfold firstWith
    rw [← List.head?_filter, ← List.head?_filter]
    exact congrArg _ (List.filter_congr fun other hother => decide_eq_decide.mpr (hkind other hother))
  have hfilter := filter_eq_find? hcount
  rw [← hfirst] at hfilter
  have hmem : ∀ other, other ∈ earlier ∧ other.content = delivery.content ↔
      firstWith objects (objects.digest delivery.content) earlier = some other := by
    intro other
    rw [← Option.mem_toList, ← hfilter, List.mem_filter, decide_eq_true_eq]
  have hnone : firstWith objects (objects.digest delivery.content) earlier = none ↔
      ∀ other ∈ earlier, other.content ≠ delivery.content := by
    rw [Option.eq_none_iff_forall_ne_some]
    exact forall_congr' fun other => by rw [ne_eq, ← hmem, not_and]
  have hsame : (∃ other, firstWith objects (objects.digest delivery.content) earlier =
        some other ∧ other.candidate.name = delivery.candidate.name) ↔ ∃ other ∈ earlier,
      other.content = delivery.content ∧ other.candidate.name = delivery.candidate.name :=
    exists_congr fun other => by rw [← hmem, and_assoc]
  refine ⟨hreads.new.trans hnone, hreads.duplicate.trans hsame, hreads.redelivery.trans ?_, ?_⟩
  · rw [← hsame]
    cases hanswer : firstWith objects (objects.digest delivery.content) earlier with
    | none => simpa using fun other hother => (hnone.mp hanswer) other hother
    | some first =>
        have hknown := (hmem first).mpr hanswer
        simpa using fun _ => ⟨first, hknown⟩
  · rw [hreads.seenCount, List.countP_append, List.countP_eq_length_filter, hfilter]
    cases firstWith objects (objects.digest delivery.content) earlier <;> simp

/-- The verdicts and counts of a history tell the truth exactly when different
contents have different digests and no content is delivered a third time. -/
theorem verdicts_reflect_history (objects : ObjectStore) (landingDir : String)
    (deliveries : List Delivery) (h : Unfailing objects landingDir deliveries) :
    Truthful objects landingDir deliveries ↔
      Apart objects deliveries ∧ ∀ delivery ∈ deliveries,
        (deliveries.countP fun other => other.content = delivery.content) ≤ 2 := by
  constructor
  · intro htruthful
    refine ⟨fun delivery hdelivery other hother hsame => ?_, fun delivery hdelivery =>
      h.countP_le htruthful hdelivery⟩
    obtain ⟨first, hfirst, hcontent⟩ := h.first_content htruthful hdelivery
    obtain ⟨first', hfirst', hcontent'⟩ := h.first_content htruthful hother
    rw [hsame, hfirst] at hfirst'
    rw [← hcontent', ← Option.some.inj hfirst', hcontent]
  · rintro ⟨hapart, htwice⟩ earlier delivery later rfl
    obtain ⟨decision, hdecision, hreads⟩ := h.decided
    have hdelivery : delivery ∈ earlier ++ delivery :: later :=
      List.mem_append_right _ List.mem_cons_self
    exact ⟨decision, hdecision, hapart.reflects (htwice delivery hdelivery) hreads⟩

end Histories

/-! ## A schedule that sends a file again -/

open Landing

/-- The first sample file under a name. -/
def resent (name : String) (id : Ulid) : Delivery where
  candidate :=
    { path := "/data/landing/" ++ name, name, size := 19, modTime := 0, stabilityMs := 6000 }
  ingress := ingressFtp
  content := sampleFirst.content
  script _ := some
    { clock := Day.midnight 739859, id, read := fun _ => some sampleFirst.content }

theorem resent_succeeds {rows : List Record} {name : String} {id : Ulid}
    (h : ((resent name id).execution sampleObjects "/data/landing" rows).2 = .value ()) :
    (resent name id).Succeeds sampleObjects "/data/landing" rows := by
  refine ⟨?_, h⟩
  rintro _ _ ⟨⟩
  rfl

def resentOnce : List Delivery :=
  [resent "trades.csv" sampleFirstId, resent "trades_v2.csv" sampleSecondId]

def resentTwice : List Delivery := resentOnce ++ [resent "trades_v2.csv" sampleSecondId]

theorem resentTwice_unfailing : Unfailing sampleObjects "/data/landing" resentTwice :=
  ⟨resent_succeeds (by decide +kernel), resent_succeeds (by decide +kernel),
    resent_succeeds (by decide +kernel), trivial⟩

theorem resentOnce_unfailing : Unfailing sampleObjects "/data/landing" resentOnce :=
  (along_append.mp resentTwice_unfailing).1

/-- A file that is sent once more under another name is judged by its history. -/
theorem verdicts_reflect_history_resentOnce :
    Truthful sampleObjects "/data/landing" resentOnce := by
  refine (verdicts_reflect_history sampleObjects "/data/landing" resentOnce
    resentOnce_unfailing).mpr ⟨?_, ?_⟩
  · unfold Apart
    decide +kernel
  · decide +kernel

/-- The same name again: no row tells of the second delivery, so the third is
another redelivery, seen twice. -/
theorem third_delivery_misjudged :
    Unfailing sampleObjects "/data/landing" resentTwice ∧
      (resent "trades_v2.csv" sampleSecondId).decisions sampleObjects "/data/landing"
        (tableAfter sampleObjects "/data/landing" resentOnce) =
        [{ verdict := .redelivery, priorArrivalId := "01J6C0000000000000000000AA",
           priorName := "trades.csv", seenCount := 2 }] ∧
      ¬ Truthful sampleObjects "/data/landing" resentTwice := by
  have hdecision : (resent "trades_v2.csv" sampleSecondId).decisions sampleObjects
      "/data/landing" (tableAfter sampleObjects "/data/landing" resentOnce) =
      [{ verdict := .redelivery, priorArrivalId := "01J6C0000000000000000000AA",
         priorName := "trades.csv", seenCount := 2 }] := by
    decide +kernel
  refine ⟨resentTwice_unfailing, hdecision, fun htruthful => ?_⟩
  obtain ⟨decision, hsame, hreflects⟩ := htruthful resentOnce _ [] rfl
  rw [hdecision] at hsame
  obtain rfl := (List.cons.inj hsame).1
  have hcount := hreflects.seenCount
  exact absurd hcount (by decide +kernel)

end Harbormaster.Arrival
