import Harbormaster.Arrival.Processor

/-! # The surroundings of the processor

The arrival table is the only state that later calls read back; what was
published and which paths were forgotten is read off the calls made.
-/

namespace Harbormaster.Arrival

open Effect Program

/-- What the surroundings choose at one call: the clock reading, the next fresh
name, whether the component fails, what a file holds, and the order in which
the arrival table is read. -/
structure Choice where
  clock : Instant
  id : Ulid
  fault : Bool := false
  read : String → Option Content
  arrange : {f : List Record → List Record // ∀ rows, (f rows).Perm rows} :=
    ⟨fun rows => rows, List.Perm.refl⟩

/-- Answer one call. -/
def answer (objects : ObjectStore) (rows : List Record) (choice : Choice) :
    (request : Call) → List Record × Reply request
  | .now => (rows, choice.clock)
  | .newId => (rows, choice.id)
  | .openFile path => (rows, if choice.fault then none else choice.read path)
  | .put key content => (rows, if choice.fault then none else some (objects.stored key content))
  | .select sha256 =>
      (rows, if choice.fault then none else some (selectBySha choice.arrange.1 rows sha256))
  | .insert row =>
      if choice.fault then (rows, none)
      else match insertRow rows row with
        | some (rows', affected) => (rows', some affected)
        | none => (rows, none)
  | .encode _ => (rows, if choice.fault then none else some ())
  | .publish _ => (rows, if choice.fault then none else some ())
  | .append _ => (rows, if choice.fault then none else some ())
  | .forget _ => (rows, ())

/-- An insertion adds the row, or has found its content in the table. -/
theorem answer_insert {objects : ObjectStore} {rows : List Record} {choice : Choice}
    {row : Record} {affected : Nat}
    (h : (answer objects rows choice (.insert row)).2 = some affected) :
    (affected ≠ 0 → (answer objects rows choice (.insert row)).1 = rows ++ [row]) ∧
    (affected = 0 → (answer objects rows choice (.insert row)).1 = rows ∧
      ∃ stored ∈ rows, stored.sha256 = row.sha256) := by
  cases hfault : choice.fault with
  | true => simp [answer, hfault] at h
  | false =>
      simp only [answer, hfault, if_neg Bool.false_ne_true] at h ⊢
      cases hinsert : insertRow rows row with
      | none => simp [hinsert] at h
      | some result =>
          rw [hinsert] at h
          obtain rfl := Option.some.inj h
          rcases insertRow_eq_some hinsert with
            ⟨hzero, hrows, stored, hstored, hsame, _⟩ | ⟨hone, hrows, _⟩
          · exact ⟨fun hne => absurd hzero hne, fun _ => ⟨hrows, stored, hstored, hsame⟩⟩
          · exact ⟨fun _ => hrows, fun hzero => by rw [hone] at hzero; cases hzero⟩

abbrev World := Recorded (List Record) Call Reply

def perform (objects : ObjectStore) :
    World → Choice → (request : Call) → World × Reply request :=
  Effect.record (answer objects)

def published? : Event Call Reply → Option Message
  | ⟨.publish message, some ()⟩ => some message
  | _ => none

/-- The messages published, oldest first. -/
def World.published (world : World) : List Message := world.calls.filterMap published?

def forgotten? : Event Call Reply → Option String
  | ⟨.forget path, _⟩ => some path
  | _ => none

/-- The paths the scanner was told to forget. -/
def World.forgotten (world : World) : List String := world.calls.filterMap forgotten?

/-- The content hash of an arrival message. -/
def contentOf (message : Message) : Option String :=
  match message.value with
  | .arrivalRaw raw => some raw.contentSha256
  | _ => none

/-! ## What one execution does

`read` is what the files hold throughout the execution. -/

section Executions

variable (objects : ObjectStore) (read : String → Option Content)

/-- The files stay as they are. -/
def Frozen (_ : World) (choice : Choice) (_ : Call) : Prop := choice.read = read

/-- What an execution has left behind so far. -/
structure Left (rows : List Record) (published : List Message) (forgotten : List String)
    (world : World) : Prop where
  state : world.state = rows
  published : world.published = published
  forgotten : world.forgotten = forgotten

/-- The end of an execution without an error: its content was known before, or
it was recorded, published and forgotten. -/
inductive Completed (rows : List Record) (c : Candidate) (world : World) : Prop
  | suppressed (content : Content) (hread : read c.path = some content)
      (hknown : ∃ row ∈ rows, row.sha256 = objects.digest content) (hleft : Left rows [] [] world)
  | announced (content : Content) (row : Record) (message : Message)
      (hread : read c.path = some content) (hrow : row.sha256 = objects.digest content)
      (hmessage : contentOf message = some (objects.digest content))
      (hleft : Left (rows ++ [row]) [message] [c.path] world)

/-- A program that fails at opening its file has done nothing yet. Of one that
fails later nothing is said. -/
def Halted (rows : List Record) (world : World) : Failure → Prop
  | .openFile _ => Left rows [] [] world
  | _ => True

def Ends {α : Type} (rows : List Record) (post : World → α → Prop) (world : World) :
    Except Failure α → Prop
  | .ok value => post world value
  | .error cause => Halted rows world cause

/-- The program establishes `post` unless it fails. -/
def Meets {α : Type} (rows : List Record) (post : World → α → Prop) (program : Handling α)
    (world : World) : Prop :=
  program.Spec (perform objects) (Frozen read) (fun _ => True) (Ends rows post) world

variable {objects read} {rows : List Record} {world : World}

theorem Meets.bind {α β : Type} (mid : World → α → Prop) {post : World → β → Prop}
    {program : Handling α} {next : α → Handling β}
    (hfirst : Meets objects read rows mid program world)
    (hnext : ∀ world value, mid world value → Meets objects read rows post (next value) world) :
    Meets objects read rows post (program >>= next) world :=
  Spec.bind (hfirst.mono (fun _ h => h) fun world' result hresult => by
    cases result with
    | ok value => exact hnext world' value hresult
    | error cause => exact hresult)

theorem Meets.mono {α : Type} {mid post : World → α → Prop} {program : Handling α}
    (h : Meets objects read rows mid program world)
    (hpost : ∀ world value, mid world value → post world value) :
    Meets objects read rows post program world :=
  Spec.mono h (fun _ h => h) fun world' result hresult => by
    cases result with
    | ok value => exact hpost world' value hresult
    | error cause => exact hresult

/-- One call, after which `reply` is required. -/
theorem meets_call {α : Type} {post : World → α → Prop} (request : Call)
    (reply : Reply request → Option α) (cause : Failure)
    (hgood : ∀ choice : Choice, choice.read = read → ∀ value,
      reply (perform objects world choice request).2 = some value →
      post (perform objects world choice request).1 value)
    (hbad : ∀ choice : Choice, Halted rows (perform objects world choice request).1 cause) :
    Meets objects read rows post
      (ask request >>= fun result => orFail cause (reply result)) world := by
  refine ⟨trivial, fun choice hread => ?_⟩
  change Spec _ _ _ _ (orFail cause (reply (perform objects world choice request).2)) _
  cases hvalue : reply (perform objects world choice request).2 with
  | some value => exact hgood choice hread value hvalue
  | none => exact hbad choice

/-- Calls that change no table, publish nothing and forget nothing. -/
def Plain : Call → Prop
  | .insert _ => False
  | .publish _ => False
  | .forget _ => False
  | _ => True

variable {messages : List Message} {paths : List String} {rows' : List Record}

theorem Left.plain (h : Left rows' messages paths world) (request : Call)
    (hplain : Plain request) (choice : Choice) :
    Left rows' messages paths (perform objects world choice request).1 := by
  cases request with
  | insert row => exact hplain.elim
  | publish message => exact hplain.elim
  | forget path => exact hplain.elim
  | _ =>
      refine ⟨h.state, ?_, ?_⟩
      · exact (List.filterMap_append.trans (List.append_nil _)).trans h.published
      · exact (List.filterMap_append.trans (List.append_nil _)).trans h.forgotten

/-- A plain call before the row is in the table. -/
theorem meets_plain {α : Type} (request : Call) (reply : Reply request → Option α)
    (cause : Failure) (hplain : Plain request) (h : Left rows [] [] world) :
    Meets objects read rows (fun world value => Left rows [] [] world ∧
      ∃ choice : Choice, choice.read = read ∧
        reply (answer objects rows choice request).2 = some value)
      (ask request >>= fun result => orFail cause (reply result)) world := by
  refine meets_call request reply cause (fun choice hread value hvalue => ?_) fun choice => ?_
  · refine ⟨h.plain request hplain choice, choice, hread, ?_⟩
    rw [← h.state]
    exact hvalue
  · cases cause with
    | openFile name => exact h.plain request hplain choice
    | _ => trivial

/-- A plain call once the row is in the table. -/
theorem meets_later {α : Type} (request : Call) (reply : Reply request → Option α)
    (cause : Failure) (hplain : Plain request) (hcause : ∀ world, Halted rows world cause)
    (h : Left rows' messages paths world) :
    Meets objects read rows (fun world _ => Left rows' messages paths world)
      (ask request >>= fun result => orFail cause (reply result)) world :=
  meets_call request reply cause (fun choice _ _ _ => h.plain request hplain choice)
    fun _ => hcause _

theorem meets_newId (h : Left rows [] [] world) :
    Meets objects read rows (fun world _ => Left rows [] [] world) newId world :=
  ⟨trivial, fun choice _ => h.plain .newId trivial choice⟩

theorem meets_now (h : Left rows [] [] world) :
    Meets objects read rows (fun world _ => Left rows [] [] world) now world :=
  ⟨trivial, fun choice _ => h.plain .now trivial choice⟩

theorem meets_openFile {c : Candidate} (h : Left rows [] [] world) :
    Meets objects read rows (fun world content => Left rows [] [] world ∧
      read c.path = some content) (openFile c) world := by
  refine (meets_plain (.openFile c.path) (fun reply => reply) _ trivial h).mono
    fun world content hcontent => ?_
  obtain ⟨hleft, choice, rfl, hcontent⟩ := hcontent
  refine ⟨hleft, ?_⟩
  cases hfault : choice.fault with
  | true => simp [answer, hfault] at hcontent
  | false => simpa [answer, hfault] using hcontent

theorem meets_put {key : String} {c : Candidate} {content : Content} (h : Left rows [] [] world) :
    Meets objects read rows (fun world object => Left rows [] [] world ∧
      object.sha256 = objects.digest content) (put key c content) world := by
  refine (meets_plain (.put key content) (fun reply => reply) _ trivial h).mono
    fun world object hobject => ?_
  obtain ⟨hleft, choice, _, hobject⟩ := hobject
  refine ⟨hleft, ?_⟩
  cases hfault : choice.fault with
  | true => simp [answer, hfault] at hobject
  | false =>
      simp only [answer, hfault, if_neg Bool.false_ne_true, Option.some.injEq] at hobject
      exact hobject ▸ rfl

/-- The check suppresses exactly the content that the table holds. -/
theorem meets_check {sha256 originalName : String} (h : Left rows [] [] world) :
    Meets objects read rows (fun world decision => Left rows [] [] world ∧
      (decision.suppress = true ↔ ∃ row ∈ rows, row.sha256 = sha256))
      (check sha256 originalName) world := by
  refine Meets.bind _ (meets_plain (.select sha256) (fun reply => reply) _ trivial h)
    fun world found hfound => ?_
  obtain ⟨hleft, choice, _, hrows⟩ := hfound
  cases hfault : choice.fault with
  | true => simp [answer, hfault] at hrows
  | false =>
      simp only [answer, hfault, if_neg Bool.false_ne_true, Option.some.injEq] at hrows
      refine ⟨hleft, ?_⟩
      rw [suppress_classify, ← hrows, ne_eq, selectBySha_eq_nil choice.arrange.2]
      simp only [ne_eq, not_forall, not_not, exists_prop]

/-- An insertion of no row has found the content in the table. -/
theorem meets_record {row : Record} (h : Left rows [] [] world) :
    Meets objects read rows (fun world recorded =>
      (recorded = true → Left (rows ++ [row]) [] [] world) ∧
      (recorded = false → Left rows [] [] world ∧ ∃ stored ∈ rows, stored.sha256 = row.sha256))
      (record row) world := by
  refine Meets.bind (fun world affected => (affected ≠ 0 → Left (rows ++ [row]) [] [] world) ∧
    (affected = 0 → Left rows [] [] world ∧ ∃ stored ∈ rows, stored.sha256 = row.sha256))
    (meets_call (.insert row) (fun reply => reply) .record (fun choice _ affected hreply => ?_)
      fun _ => trivial)
    fun world affected haffected => ?_
  · have hreply : (answer objects world.state choice (.insert row)).2 = some affected := hreply
    have hleft : ∀ rows', (answer objects world.state choice (.insert row)).1 = rows' →
        Left rows' [] [] (perform objects world choice (.insert row)).1 := fun rows' hstate =>
      ⟨hstate, (List.filterMap_append.trans (List.append_nil _)).trans h.published,
        (List.filterMap_append.trans (List.append_nil _)).trans h.forgotten⟩
    rw [h.state] at hreply hleft
    obtain ⟨hone, hzero⟩ := answer_insert hreply
    exact ⟨fun hne => hleft _ (hone hne), fun heq => ⟨hleft _ (hzero heq).1, (hzero heq).2⟩⟩
  · exact ⟨fun h => haffected.1 (of_decide_eq_true h),
      fun h => haffected.2 (not_not.mp (of_decide_eq_false h))⟩

theorem meets_publish {message : Message} (h : Left rows' [] [] world) :
    Meets objects read rows (fun world _ => Left rows' [message] [] world) (publish message)
      world := by
  refine meets_call (.publish message) (fun reply => reply) .publish
    (fun choice _ value hreply => ?_) fun _ => trivial
  have hreply : (answer objects world.state choice (.publish message)).2 = some () := hreply
  refine ⟨h.state, ?_, (List.filterMap_append.trans (List.append_nil _)).trans h.forgotten⟩
  have hevent : published? ⟨.publish message,
      (answer objects world.state choice (.publish message)).2⟩ = some message := by
    rw [hreply]
    rfl
  refine List.filterMap_append.trans ?_
  rw [show world.calls.filterMap published? = [] from h.published]
  exact List.filterMap_cons_some hevent

theorem meets_forget {path : String} (h : Left rows' messages [] world) :
    Meets objects read rows (fun world _ => Left rows' messages [path] world) (forget path)
      world := by
  refine ⟨trivial, fun choice _ => ⟨h.state,
    (List.filterMap_append.trans (List.append_nil _)).trans h.published, ?_⟩⟩
  refine List.filterMap_append.trans ?_
  rw [show world.calls.filterMap forgotten? = [] from h.forgotten]
  rfl

theorem meets_announce {landingDir : String} {c : Candidate} {row : Record} {content : Content}
    (hread : read c.path = some content) (hrow : row.sha256 = objects.digest content)
    (h : Left (rows ++ [row]) [] [] world) :
    Meets objects read rows (fun world _ => Completed objects read rows c world)
      (announce landingDir c row) world := by
  refine Meets.bind _ (meets_later (.encode _) (fun reply => reply) .encode trivial
    (fun _ => trivial) h) fun world _ hleft => ?_
  refine Meets.bind _ (meets_publish hleft) fun world _ hleft => ?_
  refine Meets.bind _ (meets_later (.append _) (fun reply => reply) .audit trivial
    (fun _ => trivial) hleft) fun world _ hleft => ?_
  exact (meets_forget hleft).mono fun world _ hleft =>
    .announced content row (rawMessage (arrivalRaw landingDir c row)) hread hrow
      (congrArg some hrow) hleft

/-- An execution that ends without an error has recorded and published its
content, or has found it recorded. -/
theorem handle_spec (landingDir : String) (c : Candidate) (ingress : String)
    (h : Left rows [] [] world) :
    Meets objects read rows (fun world _ => Completed objects read rows c world)
      (handle landingDir c ingress) world := by
  refine Meets.bind _ (meets_newId h) fun world id h => ?_
  refine Meets.bind _ (meets_openFile h) fun world content h => ?_
  obtain ⟨h, hread⟩ := h
  refine Meets.bind _ (meets_now h) fun world time h => ?_
  refine Meets.bind _ (meets_put h) fun world object h => ?_
  obtain ⟨h, hobject⟩ := h
  refine Meets.bind _ (meets_check h) fun world decision h => ?_
  obtain ⟨h, hsuppress⟩ := h
  rw [hobject] at hsuppress
  split
  next hwhen =>
    exact (meets_plain (.append _) (fun reply => reply) .audit trivial h).mono
      fun world _ hleft => .suppressed content hread (hsuppress.mp hwhen) hleft.1
  next =>
    refine Meets.bind _ (meets_now h) fun world detectedAt h => ?_
    refine Meets.bind _ (meets_record h) fun world recorded h => ?_
    split
    next hrecorded => exact meets_announce hread hobject (h.1 hrecorded)
    next hrecorded =>
      obtain ⟨hleft, hknown⟩ := h.2 (Bool.not_eq_true _ ▸ hrecorded)
      rw [recordOf, hobject] at hknown
      exact .suppressed content hread hknown hleft

end Executions

end Harbormaster.Arrival
