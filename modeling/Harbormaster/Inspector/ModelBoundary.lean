import Harbormaster.Foundation.Fallible
import Harbormaster.Inspector.ClaudeAdjudicator

/-! # What the model's replies can do

Whatever a reply says, the answers that are taken from it are valid. It is taken
without a raised exception exactly when the language can read it, its `fields` can
be iterated over and no accepted confidence is an integer without a float.
-/

namespace Harbormaster.Inspector

open Rounding

variable {runtime : Runtime} {language : JsonRuntime} {request : CandidateRequest}

/-! ## Confidences -/

/-- An integer that has no float. -/
def Json.TooLarge : Json → Prop
  | .int value => floatLimit ≤ value.natAbs
  | _ => False

theorem Double.clamp_bounds (confidence : Double) :
    0 ≤ confidence.clamp ∧ confidence.clamp ≤ maxModelConfidence := by
  have hmax : (0 : ℚ) ≤ maxModelConfidence := by norm_num [maxModelConfidence]
  cases confidence with
  | finite value => exact ⟨le_max_left _ _, max_le hmax (min_le_right _ _)⟩
  | infinity negative =>
      cases negative
      · exact ⟨hmax, le_rfl⟩
      · exact ⟨le_rfl, hmax⟩
  | nan => exact ⟨le_rfl, hmax⟩

/-- A confidence that is accepted is never that of the dictionary. -/
theorem clampConfidence_bounds {value : Json} {confidence : ℚ}
    (h : clampConfidence language value = .ok confidence) :
    0 ≤ confidence ∧ confidence ≤ maxModelConfidence := by
  obtain ⟨converted, -, h⟩ := Fallible.bind_eq_ok.mp h
  cases converted with
  | none =>
      obtain rfl := Except.ok.inj h
      norm_num [maxModelConfidence]
  | some double =>
      obtain rfl := Except.ok.inj h
      obtain ⟨hlow, hhigh⟩ := double.clamp_bounds
      have hzero : roundTo 3 0 = 0 := by simpa using roundTo_of_decimals 3 0
      have hmax : maxModelConfidence = ((850 : Int) : ℚ) / 10 ^ 3 := by norm_num [maxModelConfidence]
      constructor
      · calc (0 : ℚ) = roundTo 3 0 := hzero.symm
          _ ≤ roundTo 3 double.clamp := roundTo_mono 3 hlow
      · rw [hmax] at hhigh ⊢
        exact roundTo_le 850 hhigh

theorem exists_clampConfidence {value : Json} :
    (∃ confidence, clampConfidence language value = .ok confidence) ↔ ¬ value.TooLarge := by
  have hconverted : (∃ converted, toFloat language value = .ok converted) ↔ ¬ value.TooLarge := by
    cases value with
    | int value =>
        simp only [toFloat, Json.TooLarge, not_le]
        split
        next hsmall => exact iff_of_true ⟨_, rfl⟩ hsmall
        next hlarge => exact iff_of_false (by simp) hlarge
    | _ => exact iff_of_true ⟨_, rfl⟩ id
  rw [← hconverted]
  constructor
  · rintro ⟨_, h⟩
    obtain ⟨converted, hfloat, -⟩ := Fallible.bind_eq_ok.mp h
    exact ⟨converted, hfloat⟩
  · rintro ⟨converted, hfloat⟩
    cases converted with
    | none => exact ⟨_, Fallible.bind_eq_ok.mpr ⟨none, hfloat, rfl⟩⟩
    | some double => exact ⟨_, Fallible.bind_eq_ok.mpr ⟨some double, hfloat, rfl⟩⟩

/-! ## Items -/

namespace Json

/-- `str(item.get("source_field", ""))`. -/
def sourceText (language : JsonRuntime) (entries : List (String × Json)) : Except Raised String :=
  language.text ((get? entries "source_field").getD (.str ""))

/-- `str(item.get("rationale", ""))`. -/
def rationaleText (language : JsonRuntime) (entries : List (String × Json)) :
    Except Raised String :=
  language.text ((get? entries "rationale").getD (.str ""))

/-- `item.get("confidence", 0.7)`. -/
def confidence (entries : List (String × Json)) : Json :=
  (get? entries "confidence").getD (.float (.finite (7 / 10)))

/-- The item is an object that names a requested column. -/
def Answers (language : JsonRuntime) (request : CandidateRequest) : Json → Prop
  | .obj entries => ∃ source, sourceText language entries = .ok source ∧
      source ∈ request.unresolvedHeaders
  | _ => False

/-- The texts of the item that are asked for can be read. -/
def Readable (language : JsonRuntime) (request : CandidateRequest) : Json → Prop
  | .obj entries => ∃ source, sourceText language entries = .ok source ∧
      (source ∈ request.unresolvedHeaders →
        (∃ rationale, rationaleText language entries = .ok rationale) ∧
          ∃ field, proposedField language entries = .ok field)
  | _ => True

/-- The item proposes a field that the model may choose, for a requested column. -/
def Proposes (language : JsonRuntime) (request : CandidateRequest) (field : String) : Json → Prop
  | .obj entries => Answers language request (.obj entries) ∧
      proposedField language entries = .ok (some field) ∧
      field ∈ request.candidateFields ∧ field ∈ mappableFields
  | _ => False

/-- The confidence of the item has no float. -/
def Overconfident : Json → Prop
  | .obj entries => (confidence entries).TooLarge
  | _ => False

end Json

/-- What one item of a reply does. -/
inductive ItemStep (language : JsonRuntime) (request : CandidateRequest) (state : Validation)
    (item : Json) : Validation → Prop where
  | passed (hother : ¬ item.Answers language request) : ItemStep language request state item state
  | refused (source reason : String) (hanswers : item.Answers language request)
      (hsource : source ∈ request.unresolvedHeaders)
      (hfree : ∀ field, item.Proposes language request field → field ∈ state.taken) :
      ItemStep language request state item (state.refuse source reason)
  | accepted (source field rationale : String) (confidence : ℚ)
      (hsource : source ∈ request.unresolvedHeaders)
      (hproposes : item.Proposes language request field) (hfree : field ∉ state.taken)
      (hlow : 0 ≤ confidence) (hhigh : confidence ≤ maxModelConfidence) :
      ItemStep language request state item
        { taken := field :: state.taken,
          out := state.out ++ [⟨source, some field, confidence, rationale⟩] }

theorem itemStep_of_validateItem {state next : Validation} {item : Json}
    (h : validateItem runtime language request state item = .ok next) :
    ItemStep language request state item next := by
  cases item with
  | obj entries =>
      obtain ⟨source, hsource, h⟩ := Fallible.bind_eq_ok.mp h
      split at h
      next hother =>
        obtain rfl := Except.ok.inj h
        refine .passed ?_
        rintro ⟨source', hsource', hmem⟩
        obtain rfl := Except.ok.inj (hsource.symm.trans hsource')
        exact hother hmem
      next hmem =>
        have hmem := not_not.mp hmem
        have hanswers : (Json.obj entries).Answers language request := ⟨source, hsource, hmem⟩
        obtain ⟨rationale, hrationale, h⟩ := Fallible.bind_eq_ok.mp h
        obtain ⟨proposed, hproposed, h⟩ := Fallible.bind_eq_ok.mp h
        have honly : ∀ field, (Json.obj entries).Proposes language request field →
            proposed = some field := fun field hproposes =>
          Except.ok.inj (hproposed.symm.trans hproposes.2.1)
        cases proposed with
        | none =>
            obtain rfl := Except.ok.inj h
            exact .refused source _ hanswers hmem fun field hproposes => by
              cases honly field hproposes
        | some canonical =>
            dsimp only at h
            split at h
            next hunknown =>
              obtain rfl := Except.ok.inj h
              refine .refused source _ hanswers hmem fun field hproposes => ?_
              obtain rfl := Option.some.inj (honly field hproposes)
              exact absurd hproposes.2.2 (by tauto)
            next hknown =>
              push Not at hknown
              split at h
              next htaken =>
                obtain rfl := Except.ok.inj h
                refine .refused source _ hanswers hmem fun field hproposes => ?_
                obtain rfl := Option.some.inj (honly field hproposes)
                exact htaken
              next hfree =>
                obtain ⟨confidence, hconfidence, h⟩ := Fallible.bind_eq_ok.mp h
                obtain rfl := Except.ok.inj h
                obtain ⟨hlow, hhigh⟩ := clampConfidence_bounds hconfidence
                exact .accepted source canonical _ confidence hmem
                  ⟨hanswers, hproposed, hknown⟩ hfree hlow hhigh
  | _ =>
      obtain rfl := Except.ok.inj h
      exact .passed id

/-- When an item is read without an exception. -/
theorem exists_validateItem {state : Validation} {item : Json} :
    (∃ next, validateItem runtime language request state item = .ok next) ↔
      item.Readable language request ∧
        ∀ field, item.Proposes language request field → field ∉ state.taken →
          ¬ item.Overconfident := by
  cases item with
  | obj entries =>
      constructor
      · rintro ⟨next, h⟩
        obtain ⟨source, hsource, h⟩ := Fallible.bind_eq_ok.mp h
        split at h
        next hother =>
          refine ⟨⟨source, hsource, fun hmem => absurd hmem hother⟩, ?_⟩
          rintro field ⟨⟨source', hsource', hmem⟩, -⟩
          obtain rfl := Except.ok.inj (hsource.symm.trans hsource')
          exact absurd hmem hother
        next =>
          obtain ⟨rationale, hrationale, h⟩ := Fallible.bind_eq_ok.mp h
          obtain ⟨proposed, hproposed, h⟩ := Fallible.bind_eq_ok.mp h
          refine ⟨⟨source, hsource, fun _ => ⟨⟨rationale, hrationale⟩, proposed, hproposed⟩⟩, ?_⟩
          rintro field ⟨-, hfield, hknown⟩ hfree
          obtain rfl := Except.ok.inj (hproposed.symm.trans hfield)
          dsimp only at h
          rw [if_neg (by tauto), if_neg hfree] at h
          obtain ⟨confidence, hconfidence, -⟩ := Fallible.bind_eq_ok.mp h
          exact exists_clampConfidence.mp ⟨confidence, hconfidence⟩
      · rintro ⟨⟨source, hsource, hread⟩, hsure⟩
        by_cases hmem : source ∈ request.unresolvedHeaders
        · obtain ⟨⟨rationale, hrationale⟩, proposed, hproposed⟩ := hread hmem
          change ∃ next, (Json.sourceText language entries >>= _ : Except Raised Validation) =
            .ok next
          rw [hsource]
          change ∃ next, (if source ∉ request.unresolvedHeaders then _ else
            Json.rationaleText language entries >>= _ : Except Raised Validation) = .ok next
          rw [if_neg (not_not.mpr hmem), hrationale]
          change ∃ next, (proposedField language entries >>= _ : Except Raised Validation) = .ok next
          rw [hproposed]
          cases proposed with
          | none => exact ⟨_, rfl⟩
          | some canonical =>
              change ∃ next, (if canonical ∉ request.candidateFields ∨ canonical ∉ mappableFields
                then _ else _ : Except Raised Validation) = .ok next
              split
              next => exact ⟨_, rfl⟩
              next hknown =>
                split
                next => exact ⟨_, rfl⟩
                next hfree =>
                  push Not at hknown
                  obtain ⟨confidence, hconfidence⟩ := exists_clampConfidence.mpr
                    (hsure canonical ⟨⟨source, hsource, hmem⟩, hproposed, hknown⟩ hfree)
                  exact ⟨_, Fallible.bind_eq_ok.mpr ⟨confidence, hconfidence, rfl⟩⟩
        · refine ⟨state, Fallible.bind_eq_ok.mpr ⟨source, hsource, ?_⟩⟩
          rw [if_pos hmem]
          rfl
  | _ => exact iff_of_true ⟨state, rfl⟩ ⟨trivial, fun _ h => absurd h id⟩

/-! ## Replies -/

/-- The fields that are resolved already. -/
def CandidateRequest.settled (request : CandidateRequest) : List String :=
  request.resolved.map Prod.snd

/-- What holds of the answers that were taken from some items. -/
structure Validated (language : JsonRuntime) (request : CandidateRequest) (passed : List Json)
    (state : Validation) : Prop where
  taken : ∀ field, field ∈ state.taken ↔
    field ∈ request.settled ∨ ∃ item ∈ passed, item.Proposes language request field
  answers : state.out ≠ [] ↔ ∃ item ∈ passed, item.Answers language request
  requested : ∀ f ∈ state.out, f.sourceField ∈ request.unresolvedHeaders
  accepted : ∀ f ∈ state.out, ∀ field, f.canonicalField = some field →
    field ∈ request.candidateFields ∧ field ∈ mappableFields ∧ field ∉ request.settled ∧
      field ∈ state.taken ∧ 0 ≤ f.confidence ∧ f.confidence ≤ maxModelConfidence
  distinct : (state.out.filterMap AdjudicatedField.canonicalField).Nodup

theorem Json.Proposes.answers {item : Json} {field : String}
    (h : item.Proposes language request field) : item.Answers language request := by
  cases item with
  | obj entries => exact h.1
  | _ => exact h.elim

theorem Json.Proposes.unique {item : Json} {field field' : String}
    (h : item.Proposes language request field) (h' : item.Proposes language request field') :
    field = field' := by
  cases item with
  | obj entries => exact Option.some.inj (Except.ok.inj (h.2.1.symm.trans h'.2.1))
  | _ => exact h.elim

theorem Json.Proposes.known {item : Json} {field : String}
    (h : item.Proposes language request field) :
    field ∈ request.candidateFields ∧ field ∈ mappableFields := by
  cases item with
  | obj entries => exact h.2.2
  | _ => exact h.elim

theorem validated_nil : Validated language request [] { taken := request.settled } where
  taken field := by simp
  answers := by simp
  requested f hf := absurd hf List.not_mem_nil
  accepted f hf := absurd hf List.not_mem_nil
  distinct := List.nodup_nil

/-- One item keeps the answers valid. -/
theorem Validated.step {passed : List Json} {state next : Validation} {item : Json}
    (h : Validated language request passed state) (hstep : ItemStep language request state item next) :
    Validated language request (passed ++ [item]) next := by
  have hmore : ∀ {motive : Json → Prop}, (∃ other ∈ passed ++ [item], motive other) ↔
      (∃ other ∈ passed, motive other) ∨ motive item := by
    intro motive
    simp only [List.mem_append, List.mem_singleton, or_and_right, exists_or, exists_eq_left]
  cases hstep with
  | passed hother =>
      refine ⟨fun field => ?_, ?_, h.requested, h.accepted, h.distinct⟩
      · rw [hmore, h.taken, or_iff_left fun hproposes : item.Proposes language request field =>
          hother hproposes.answers]
      · rw [hmore, or_iff_left hother]
        exact h.answers
  | refused source reason hanswers hsource hfree =>
      refine ⟨fun field => ?_, ?_, ?_, ?_, ?_⟩
      · rw [hmore, ← or_assoc, ← h.taken]
        exact (or_iff_left_of_imp (hfree field)).symm
      · rw [hmore]
        exact iff_of_true (by simp [Validation.refuse]) (.inr hanswers)
      · intro f hf
        rcases List.mem_append.mp hf with hf | hf
        · exact h.requested f hf
        · rw [List.mem_singleton.mp hf]
          exact hsource
      · intro f hf field hfield
        rcases List.mem_append.mp hf with hf | hf
        · exact h.accepted f hf field hfield
        · rw [List.mem_singleton.mp hf] at hfield
          cases hfield
      · simpa [Validation.refuse] using h.distinct
  | accepted source field rationale confidence hsource hproposes hfree hlow hhigh =>
      obtain ⟨hcandidate, hmappable⟩ := hproposes.known
      refine ⟨fun other => ?_, ?_, ?_, ?_, ?_⟩
      · rw [hmore, ← or_assoc, ← h.taken, List.mem_cons, or_comm]
        refine or_congr_right ⟨?_, fun hother => hother.unique hproposes⟩
        rintro rfl
        exact hproposes
      · rw [hmore]
        exact iff_of_true (by simp) (.inr hproposes.answers)
      · intro f hf
        rcases List.mem_append.mp hf with hf | hf
        · exact h.requested f hf
        · rw [List.mem_singleton.mp hf]
          exact hsource
      · intro f hf other hother
        rcases List.mem_append.mp hf with hf | hf
        · obtain ⟨hcandidate, hmappable, hunsettled, htaken, hbounds⟩ := h.accepted f hf other hother
          exact ⟨hcandidate, hmappable, hunsettled, List.mem_cons_of_mem field htaken, hbounds⟩
        · rw [List.mem_singleton.mp hf] at hother ⊢
          obtain rfl := Option.some.inj hother
          have hunsettled : field ∉ request.settled := fun hmem =>
            hfree ((h.taken field).mpr (.inl hmem))
          exact ⟨hcandidate, hmappable, hunsettled, List.mem_cons_self, hlow, hhigh⟩
      · rw [List.filterMap_append, List.nodup_append']
        refine ⟨h.distinct, by simp, ?_⟩
        rw [List.disjoint_right]
        intro other hother hmem
        obtain rfl : other = field := by simpa using hother
        obtain ⟨f, hf, hfield⟩ := List.mem_filterMap.mp hmem
        exact hfree (h.accepted f hf _ hfield).2.2.2.1

/-- The items of a reply, if its text is an object: an exception of `json.loads`
other than a decoding error and a `fields` that is no collection are raised. -/
def Response.items (language : JsonRuntime) (response : Response) :
    Except Raised (Option (List Json)) :=
  if response.text = "" then return none
  else do
    match ← jsonObject language response.text with
    | none => return none
    | some entries => some <$> ((Json.get? entries "fields").getD (.arr [])).iter

/-- The items can be read, and the first to propose a field that is free has a
confidence with a float. -/
structure ReadableItems (language : JsonRuntime) (request : CandidateRequest)
    (items : List Json) : Prop where
  texts : ∀ item ∈ items, item.Readable language request
  confidences : ∀ before item after field, items = before ++ item :: after →
    item.Proposes language request field → field ∉ request.settled →
    (∀ earlier ∈ before, ¬ earlier.Proposes language request field) → ¬ item.Overconfident

/-- The reply is read without an exception. -/
def Response.Readable (language : JsonRuntime) (request : CandidateRequest)
    (response : Response) : Prop :=
  ∃ items, response.items language = .ok items ∧
    ∀ list ∈ items, ReadableItems language request list

/-- The reply has an object that names a requested column. -/
def Response.Answers (language : JsonRuntime) (request : CandidateRequest)
    (response : Response) : Prop :=
  ∃ items, response.items language = .ok (some items) ∧
    ∃ item ∈ items, item.Answers language request

theorem validateItems_passed {items : List Json} {state : Validation}
    (h : items.foldlM (validateItem runtime language request) { taken := request.settled } =
      .ok state) : Validated language request items state := by
  have hall := Fallible.foldlM_passed (motive := Validated language request) validated_nil
    (fun _ _ _ _ hvalidated hstep => hvalidated.step (itemStep_of_validateItem hstep)) h
  rwa [List.nil_append] at hall

theorem exists_validateItems {items : List Json} :
    (∃ state, items.foldlM (validateItem runtime language request)
      { taken := request.settled } = .ok state) ↔ ReadableItems language request items := by
  have hstart : Validated language request [] { taken := request.settled } := validated_nil
  rw [Fallible.exists_foldlM_passed (motive := Validated language request)
    (validateItem runtime language request) (fun passed item =>
      item.Readable language request ∧ ∀ field, item.Proposes language request field →
        ¬ (field ∈ request.settled ∨ ∃ earlier ∈ passed, earlier.Proposes language request field) →
        ¬ item.Overconfident) ?_
    (fun _ _ _ _ hvalidated hstep => hvalidated.step (itemStep_of_validateItem hstep)) hstart]
  swap
  · intro passed item state hvalidated
    rw [exists_validateItem]
    simp only [hvalidated.taken]
  constructor
  · intro hall
    refine ⟨fun item hitem => ?_, fun before item after field hsplit hproposes hfree hfirst => ?_⟩
    · obtain ⟨before, after, hsplit⟩ := List.append_of_mem hitem
      exact (hall before item after hsplit).1
    · refine (hall before item after hsplit).2 field hproposes ?_
      rintro (hsettled | ⟨earlier, hearlier, hother⟩)
      · exact hfree hsettled
      · exact hfirst earlier hearlier hother
  · intro hreadable before item after hsplit
    refine ⟨hreadable.texts item (hsplit ▸ by simp), fun field hproposes hfree => ?_⟩
    push Not at hfree
    exact hreadable.confidences before item after field hsplit hproposes hfree.1 hfree.2

theorem parseFields_eq (response : Response) :
    parseFields runtime language response request = (do
      match ← response.items language with
      | none => return none
      | some items =>
          let state ← items.foldlM (validateItem runtime language request)
            { taken := request.settled }
          if state.out = [] then return none
          else return some (withUnaddressed request.unresolvedHeaders state.out)) := by
  unfold parseFields Response.items
  split
  next => rfl
  next =>
    cases jsonObject language response.text with
    | error raised => rfl
    | ok object =>
        cases object with
        | none => rfl
        | some entries =>
            change ((Json.get? entries "fields").getD (.arr [])).iter >>= _ =
              (some <$> ((Json.get? entries "fields").getD (.arr [])).iter) >>= _
            cases ((Json.get? entries "fields").getD (.arr [])).iter <;> rfl

/-- Every requested column has an answer, and every field that is accepted may be. -/
structure ValidAnswers (request : CandidateRequest) (fields : List AdjudicatedField) : Prop where
  answered : ∀ header ∈ request.unresolvedHeaders, ∃ f ∈ fields, f.sourceField = header
  requested : ∀ f ∈ fields, f.sourceField ∈ request.unresolvedHeaders
  accepted : ∀ f ∈ fields, ∀ field, f.canonicalField = some field →
    field ∈ request.candidateFields ∧ field ∈ mappableFields ∧ field ∉ request.settled ∧
      0 ≤ f.confidence ∧ f.confidence ≤ maxModelConfidence
  distinct : (fields.filterMap AdjudicatedField.canonicalField).Nodup

theorem Validated.validAnswers {items : List Json} {state : Validation}
    (h : Validated language request items state) :
    ValidAnswers request (withUnaddressed request.unresolvedHeaders state.out) := by
  have hadded : ∀ f ∈ (request.unresolvedHeaders.filter fun header =>
      header ∉ state.out.map AdjudicatedField.sourceField).map fun header =>
        (⟨header, none, 0, "not addressed by the model"⟩ : AdjudicatedField),
      f.sourceField ∈ request.unresolvedHeaders ∧ f.canonicalField = none := by
    intro f hf
    obtain ⟨header, hheader, rfl⟩ := List.mem_map.mp hf
    exact ⟨(List.mem_filter.mp hheader).1, rfl⟩
  unfold withUnaddressed
  refine ⟨fun header hheader => ?_, fun f hf => ?_, fun f hf field hfield => ?_, ?_⟩
  · by_cases haddressed : header ∈ state.out.map AdjudicatedField.sourceField
    · obtain ⟨f, hf, hsource⟩ := List.mem_map.mp haddressed
      exact ⟨f, List.mem_append_left _ hf, hsource⟩
    · refine ⟨_, List.mem_append_right _ (List.mem_map_of_mem
        (List.mem_filter.mpr ⟨hheader, decide_eq_true haddressed⟩)), rfl⟩
  · rcases List.mem_append.mp hf with hf | hf
    · exact h.requested f hf
    · exact (hadded f hf).1
  · rcases List.mem_append.mp hf with hf | hf
    · obtain ⟨hcandidate, hmappable, hunsettled, -, hbounds⟩ := h.accepted f hf field hfield
      exact ⟨hcandidate, hmappable, hunsettled, hbounds⟩
    · rw [(hadded f hf).2] at hfield
      cases hfield
  · rw [List.filterMap_append, List.filterMap_eq_nil_iff.mpr fun f hf => (hadded f hf).2,
      List.append_nil]
    exact h.distinct

theorem declined_validAnswers (adjudicator : ClaudeAdjudicator) (request : CandidateRequest)
    (reason : String) : ValidAnswers request (adjudicator.declined request reason).fields := by
  have hmem : ∀ f ∈ (adjudicator.declined request reason).fields,
      f.sourceField ∈ request.unresolvedHeaders ∧ f.canonicalField = none := by
    intro f hf
    obtain ⟨header, hheader, rfl⟩ := List.mem_map.mp hf
    exact ⟨hheader, rfl⟩
  refine ⟨fun header hheader => ⟨_, List.mem_map_of_mem hheader, rfl⟩, fun f hf => (hmem f hf).1,
    fun f hf field hfield => ?_, ?_⟩
  · rw [(hmem f hf).2] at hfield
    cases hfield
  · rw [List.filterMap_eq_nil_iff.mpr fun f hf => (hmem f hf).2]
    exact List.nodup_nil

/-- What is parsed is valid, and there is something exactly when the reply answers. -/
theorem parseFields_spec {response : Response} {fields : Option (List AdjudicatedField)}
    (h : parseFields runtime language response request = .ok fields) :
    response.Readable language request ∧ (fields.isSome ↔ response.Answers language request) ∧
      ∀ list ∈ fields, ValidAnswers request list := by
  rw [parseFields_eq] at h
  obtain ⟨items, hitems, h⟩ := Fallible.bind_eq_ok.mp h
  cases items with
  | none =>
      obtain rfl := Except.ok.inj h
      refine ⟨⟨none, hitems, nofun⟩, ?_, nofun⟩
      refine iff_of_false (by simp) ?_
      rintro ⟨items, hsome, -⟩
      rw [hitems] at hsome
      cases hsome
  | some items =>
      obtain ⟨state, hstate, h⟩ := Fallible.bind_eq_ok.mp h
      have hvalidated := validateItems_passed hstate
      have hreadable : response.Readable language request := by
        refine ⟨some items, hitems, fun list hlist => ?_⟩
        obtain rfl := Option.some.inj hlist
        exact exists_validateItems.mp ⟨state, hstate⟩
      have hanswers : response.Answers language request ↔ state.out ≠ [] := by
        rw [hvalidated.answers]
        constructor
        · rintro ⟨items', hitems', hany⟩
          obtain rfl := Option.some.inj (Except.ok.inj (hitems.symm.trans hitems'))
          exact hany
        · exact fun hany => ⟨items, hitems, hany⟩
      rw [hanswers]
      split at h
      next hnone =>
        obtain rfl := Except.ok.inj h
        exact ⟨hreadable, iff_of_false (by simp) (not_not.mpr hnone), nofun⟩
      next hsome =>
        obtain rfl := Except.ok.inj h
        refine ⟨hreadable, iff_of_true rfl hsome, fun list hlist => ?_⟩
        obtain rfl := Option.some.inj hlist
        exact hvalidated.validAnswers

theorem exists_parseFields {response : Response} (h : response.Readable language request) :
    ∃ fields, parseFields runtime language response request = .ok fields := by
  obtain ⟨items, hitems, hreadable⟩ := h
  rw [parseFields_eq, hitems]
  cases items with
  | none => exact ⟨none, rfl⟩
  | some items =>
      have hloop : ∃ state, items.foldlM (validateItem runtime language request)
          { taken := request.settled } = .ok state := exists_validateItems.mpr (hreadable items rfl)
      obtain ⟨state, hstate⟩ := hloop
      by_cases hnone : state.out = []
      · exact ⟨none, Fallible.bind_eq_ok.mpr ⟨some items, rfl,
          Fallible.bind_eq_ok.mpr ⟨state, hstate, if_pos hnone⟩⟩⟩
      · exact ⟨_, Fallible.bind_eq_ok.mpr ⟨some items, rfl,
          Fallible.bind_eq_ok.mpr ⟨state, hstate, if_neg hnone⟩⟩⟩

/-! ## Attempts -/

namespace ClaudeAdjudicator

/-- A reply that does not come, or that is read without an exception. -/
def ReadableReply (language : JsonRuntime) (request : CandidateRequest)
    (reply : Option Response) : Prop :=
  ∀ response ∈ reply, response.Readable language request

/-- A reply that ends the attempts. -/
def AnsweringReply (language : JsonRuntime) (request : CandidateRequest)
    (reply : Option Response) : Prop :=
  ∃ response ∈ reply, response.Answers language request

variable {adjudicator : ClaudeAdjudicator} {replies : Nat → Option Response}

theorem attempts_valid {left : Nat} {usage : Usage} {result : MeteredResult}
    (h : (adjudicator.attempts runtime language request replies left usage).1 = .ok result) :
    ValidAnswers request result.fields := by
  induction left generalizing usage with
  | zero =>
      obtain rfl := Except.ok.inj h
      exact declined_validAnswers adjudicator request _
  | succ left ih =>
      unfold attempts at h
      split at h
      next =>
        split at h
        next =>
          obtain rfl := Except.ok.inj h
          exact declined_validAnswers adjudicator request _
        next => exact ih h
      next response _ =>
        dsimp only at h
        split at h
        next => cases h
        next fields hfields =>
          obtain rfl := Except.ok.inj h
          exact (parseFields_spec hfields).2.2 fields rfl
        next =>
          split at h
          next =>
            obtain rfl := Except.ok.inj h
            exact declined_validAnswers adjudicator request _
          next => exact ih h

/-- What holds until something ends, from the first on. -/
theorem forall_until_succ {ends good : Nat → Prop} {left : Nat} :
    (∀ k < left + 1, (∀ j < k, ¬ ends j) → good k) ↔
      good 0 ∧ (¬ ends 0 → ∀ k < left, (∀ j < k, ¬ ends (j + 1)) → good (k + 1)) := by
  constructor
  · intro hall
    refine ⟨hall 0 left.succ_pos (fun j hj => absurd hj (Nat.not_lt_zero j)), ?_⟩
    intro hfirst k hk hbefore
    refine hall (k + 1) (Nat.succ_lt_succ hk) fun j hj => ?_
    cases j with
    | zero => exact hfirst
    | succ j => exact hbefore j (Nat.lt_of_succ_lt_succ hj)
  · rintro ⟨hzero, hlater⟩ k hk hbefore
    cases k with
    | zero => exact hzero
    | succ k =>
        exact hlater (hbefore 0 k.succ_pos) k (Nat.lt_of_succ_lt_succ hk) fun j hj =>
          hbefore (j + 1) (Nat.succ_lt_succ hj)

/-- The attempts return, exactly when every reply they come to can be read. -/
theorem exists_attempts {left : Nat} {usage : Usage} (hleft : left ≤ adjudicator.maxAttempts) :
    (∃ result, (adjudicator.attempts runtime language request replies left usage).1 = .ok result) ↔
      ∀ k < left, (∀ j < k, ¬ AnsweringReply language request
        (replies (adjudicator.maxAttempts - left + j))) →
        ReadableReply language request (replies (adjudicator.maxAttempts - left + k)) := by
  induction left generalizing usage with
  | zero => exact iff_of_true ⟨_, rfl⟩ fun k hk => absurd hk (Nat.not_lt_zero k)
  | succ left ih =>
      have hshift : ∀ k, adjudicator.maxAttempts - (left + 1) + (k + 1) =
          adjudicator.maxAttempts - left + k := by
        intro k
        omega
      have hrest : ∀ usage, (∃ result,
          (adjudicator.attempts runtime language request replies left usage).1 = .ok result) ↔ _ :=
        fun usage => ih (Nat.le_of_succ_le hleft)
      rw [forall_until_succ]
      simp only [hshift, Nat.add_zero]
      unfold attempts
      generalize replies (adjudicator.maxAttempts - (left + 1)) = reply
      cases reply with
      | none =>
          have hread : ReadableReply language request none := nofun
          have hopen : ¬ AnsweringReply language request none := by
            rintro ⟨_, hnone, -⟩
            cases hnone
          dsimp only
          split
          next hlast =>
            subst hlast
            exact iff_of_true ⟨_, rfl⟩ ⟨hread, fun _ k hk => absurd hk (Nat.not_lt_zero k)⟩
          next =>
            rw [hrest]
            exact ⟨fun hlater => ⟨hread, fun _ => hlater⟩, fun hall => hall.2 hopen⟩
      | some response =>
          dsimp only
          cases hparse : parseFields runtime language response request with
          | error raised =>
              refine iff_of_false (by simp) fun hall => ?_
              obtain ⟨fields, hfields⟩ := exists_parseFields (hall.1 response rfl)
              rw [hparse] at hfields
              cases hfields
          | ok fields =>
              obtain ⟨hreadable, hanswers, -⟩ := parseFields_spec hparse
              have hread : ReadableReply language request (some response) := by
                intro response' hsame
                obtain rfl := Option.some.inj hsame
                exact hreadable
              cases fields with
              | some fields =>
                  have hends : AnsweringReply language request (some response) :=
                    ⟨response, rfl, hanswers.mp rfl⟩
                  exact iff_of_true ⟨_, rfl⟩ ⟨hread, fun hopen => absurd hends hopen⟩
              | none =>
                  have hopen : ¬ AnsweringReply language request (some response) := by
                    rintro ⟨response', hsame, hends⟩
                    obtain rfl := Option.some.inj hsame
                    cases hanswers.mpr hends
                  dsimp only
                  split
                  next hlast =>
                    subst hlast
                    exact iff_of_true ⟨_, rfl⟩
                      ⟨hread, fun _ k hk => absurd hk (Nat.not_lt_zero k)⟩
                  next =>
                    rw [hrest]
                    exact ⟨fun hlater => ⟨hread, fun _ => hlater⟩, fun hall => hall.2 hopen⟩

/-- The adjudicator returns valid answers, exactly when every reply that it comes to
can be read: each before the first that answers, and that one. -/
theorem adjudicate_valid (runtime : Runtime) (language : JsonRuntime)
    (adjudicator : ClaudeAdjudicator) (request : CandidateRequest)
    (replies : Nat → Option Response) (usage : Usage) (hheaders : request.unresolvedHeaders ≠ []) :
    ((∃ result, (adjudicator.adjudicate runtime language request replies usage).1 = .ok result ∧
        ValidAnswers request result.fields) ↔
      ∀ k < adjudicator.maxAttempts,
        (∀ j < k, ¬ AnsweringReply language request (replies j)) →
        ReadableReply language request (replies k)) ∧
    ∀ result, (adjudicator.adjudicate runtime language request replies usage).1 = .ok result →
      ValidAnswers request result.fields := by
  have hattempts : (∃ result, (adjudicator.attempts runtime language request replies
      adjudicator.maxAttempts usage).1 = .ok result) ↔ _ := exists_attempts (le_refl _)
  simp only [Nat.sub_self, Nat.zero_add] at hattempts
  unfold adjudicate
  rw [if_neg hheaders, ← hattempts]
  refine ⟨⟨fun ⟨result, hresult, _⟩ => ⟨result, hresult⟩, fun ⟨result, hresult⟩ =>
    ⟨result, hresult, attempts_valid hresult⟩⟩, fun result hresult => attempts_valid hresult⟩

end ClaudeAdjudicator

/-! ## Two replies -/

/-- A reply whose `fields` is null. -/
def nullReply : String := "\x7b\"fields\": null\x7d"

/-- A reply about one column. -/
def settlementReply : String :=
  "\x7b\"fields\": [\x7b\"source_field\": \"Px_Sett\", \"canonical_field\": " ++
    "\"settlement_price\", \"confidence\": 0.95\x7d]\x7d"

/-- What the language makes of these texts. -/
def sampleLanguage : JsonRuntime where
  loads text :=
    if text = nullReply then .value (.obj [("fields", .null)])
    else if text = settlementReply then
      .value (.obj [("fields", .arr [.obj [("source_field", .str "Px_Sett"),
        ("canonical_field", .str "settlement_price"),
        ("confidence", .float (.finite (95 / 100)))]])])
    else .malformed
  str
    | .null => some "None"
    | _ => none
  float _ := none

def settlementRequest : CandidateRequest where
  clientId := "CLNT004"
  clientName := "Meridian"
  sourceHint := "CME"
  domain := "TRADE"
  templateFingerprint := "f00d"
  unresolvedHeaders := ["Px_Sett"]
  resolved := [("Qty", "quantity")]
  samples := []

/-- The exception that leaves a call. -/
def raisedBy {α : Type*} : Except Raised α → Option Raised
  | .error raised => some raised
  | .ok _ => none

theorem raisedBy_eq_some {α : Type*} {call : Except Raised α} {raised : Raised}
    (h : raisedBy call = some raised) : call = .error raised := by
  cases call with
  | error raised' => exact congrArg Except.error (Option.some.inj h)
  | ok value => cases h

/-- The iteration over null is raised. -/
theorem null_fields_raise :
    settlementRequest.unresolvedHeaders ≠ [] ∧
      (ClaudeAdjudicator.adjudicate .ascii sampleLanguage {} settlementRequest
        (fun _ => some { blocks := [nullReply] }) {}).1 = .error .typeError :=
  ⟨nofun, raisedBy_eq_some (by decide +kernel)⟩

/-- A reply that can be read is answered. -/
theorem adjudicate_valid_settlement :
    ∃ result, (ClaudeAdjudicator.adjudicate .ascii sampleLanguage {} settlementRequest
        (fun _ => some { blocks := [settlementReply] }) {}).1 = .ok result ∧
      ValidAnswers settlementRequest result.fields := by
  have hvalid := ClaudeAdjudicator.adjudicate_valid .ascii sampleLanguage {} settlementRequest
    (fun _ => some { blocks := [settlementReply] }) {} (by nofun)
  cases hresult : (ClaudeAdjudicator.adjudicate .ascii sampleLanguage {} settlementRequest
      (fun _ => some { blocks := [settlementReply] }) {}).1 with
  | ok result => exact ⟨result, rfl, hvalid.2 result hresult⟩
  | error raised =>
      have hnone : raisedBy (ClaudeAdjudicator.adjudicate .ascii sampleLanguage {}
          settlementRequest (fun _ => some { blocks := [settlementReply] }) {}).1 = none := by
        decide +kernel
      rw [hresult] at hnone
      cases hnone

end Harbormaster.Inspector
