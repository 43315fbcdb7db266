import Harbormaster.Inspector.Resolver

/-! # The live adjudicator

`mapping.tier3_llm` of the inspector: the replies of a model are read as JSON and
every proposed field is checked against the canonical schema before it is
accepted. What the language makes of a text of JSON is a parameter.
-/

namespace Harbormaster.Inspector

open Rounding

variable (runtime : Runtime)

/-! ## JSON -/

/-- A binary number of the language, by its value. -/
inductive Double where
  | finite (value : ℚ)
  | infinity (negative : Bool)
  | nan

/-- What `json.loads` returns. -/
inductive Json where
  | null
  | bool (value : Bool)
  | int (value : Int)
  | float (value : Double)
  | str (text : String)
  | arr (items : List Json)
  | obj (entries : List (String × Json))

/-- What leaves a call: an iteration over what is none, a number without a float, and
whatever the language raises of itself. -/
inductive Raised where
  | typeError | overflowError | other
deriving DecidableEq, Repr

inductive Loaded where
  | value (json : Json)
  | malformed
  | raised

/-- The functions of the language on JSON. -/
structure JsonRuntime where
  /-- `json.loads`: a `JSONDecodeError` is `malformed`, any other exception `raised`. -/
  loads : String → Loaded
  /-- `str` of what is no text; it may raise. -/
  str : Json → Option String
  /-- `float` of a text; `none` is a `ValueError`. -/
  float : String → Option Double

variable (language : JsonRuntime)

/-- `str(value)`. -/
def JsonRuntime.text : Json → Except Raised String
  | .str text => .ok text
  | value =>
      match language.str value with
      | some text => .ok text
      | none => .error .other

/-- `entries.get(key)`. -/
def Json.get? (entries : List (String × Json)) (key : String) : Option Json :=
  (entries.find? fun entry => entry.1 = key).map Prod.snd

/-- `iter(value)`. -/
def Json.iter : Json → Except Raised (List Json)
  | .arr items => .ok items
  | .obj entries => .ok (entries.map fun entry => .str entry.1)
  | .str text => .ok (text.toList.map fun c => .str (String.ofList [c]))
  | _ => .error .typeError

/-- The least integer that has no float: `2 ** 1024 - 2 ** 970`. -/
def floatLimit : Nat := 2 ^ 1024 - 2 ^ 970

/-- `float(value)`; `none` is a `TypeError` or a `ValueError`. An integer is not
rounded. -/
def toFloat : Json → Except Raised (Option Double)
  | .bool value => .ok (some (.finite (if value then 1 else 0)))
  | .int value =>
      if value.natAbs < floatLimit then .ok (some (.finite value)) else .error .overflowError
  | .float value => .ok (some value)
  | .str text => .ok (language.float text)
  | _ => .ok none

def maxModelConfidence : ℚ := 85 / 100

/-- `max(0.0, min(confidence, MAX_MODEL_CONFIDENCE))`. -/
def Double.clamp : Double → ℚ
  | .finite value => max 0 (min value maxModelConfidence)
  | .infinity negative => if negative then 0 else maxModelConfidence
  | .nan => 0

/-- `_clamp`. -/
def clampConfidence (value : Json) : Except Raised ℚ := do
  match ← toFloat language value with
  | some confidence => return roundTo 3 confidence.clamp
  | none => return 7 / 10

/-! ## Requests and replies -/

/-- A request with the fields the model may choose from. -/
structure CandidateRequest extends AdjudicationRequest where
  candidateFields : List String := mappableFields.insertionSort (· ≤ ·)

/-- A reply: its text blocks and the tokens it is charged. -/
structure Response where
  blocks : List String
  inputTokens : Nat := 0
  outputTokens : Nat := 0
  cacheReadTokens : Nat := 0

/-- Accumulated cost. -/
structure Usage where
  calls : Nat := 0
  inputTokens : Nat := 0
  outputTokens : Nat := 0
  cacheReadTokens : Nat := 0
  failures : Nat := 0

def Usage.record (usage : Usage) (response : Response) : Usage :=
  { usage with
    calls := usage.calls + 1
    inputTokens := usage.inputTokens + response.inputTokens
    outputTokens := usage.outputTokens + response.outputTokens
    cacheReadTokens := usage.cacheReadTokens + response.cacheReadTokens }

/-- A result with the tokens spent until then. -/
structure MeteredResult extends AdjudicationResult where
  inputTokens : Nat := 0
  outputTokens : Nat := 0

/-- `_text`. -/
def Response.text (response : Response) : String := strip (join "\n" response.blocks)

/-- The characters before the first mark. -/
def upToMark (mark : List Char) : List Char → List Char
  | [] => []
  | c :: rest => if mark <+: c :: rest then [] else c :: upToMark mark rest

/-- The text between the outermost braces, without a fence around it. -/
def bracedText (text : String) : Option String :=
  let cleaned := stripChars text.toList
  let cleaned :=
    if "```".toList <+: cleaned then
      let fenced := upToMark "```".toList (cleaned.drop 3)
      if "json".toList <+: fenced then fenced.drop 4 else fenced
    else cleaned
  match cleaned.findIdx? (· = '{'), cleaned.reverse.findIdx? (· = '}') with
  | some start, some back =>
      some (String.ofList ((cleaned.take (cleaned.length - back)).drop start))
  | _, _ => none

/-- `_json`: the object in a text. -/
def jsonObject (text : String) : Except Raised (Option (List (String × Json))) :=
  match bracedText text with
  | none => .ok none
  | some cleaned =>
      match language.loads cleaned with
      | .malformed => .ok none
      | .raised => .error .other
      | .value (.obj entries) => .ok (some entries)
      | .value _ => .ok none

/-! ## Validation -/

/-- The canonical fields that are taken, and the answers so far. -/
structure Validation where
  taken : List String
  out : List AdjudicatedField := []

def Validation.refuse (state : Validation) (source reason : String) : Validation :=
  { state with out := state.out ++ [⟨source, none, 0, reason⟩] }

/-- The text of a proposed field; `none` when the model declines. -/
def proposedField (entries : List (String × Json)) : Except Raised (Option String) :=
  match Json.get? entries "canonical_field" with
  | none | some .null | some (.str "") => .ok none
  | some canonical => some <$> language.text canonical

/-- One item of the reply. -/
def validateItem (request : CandidateRequest) (state : Validation) :
    Json → Except Raised Validation
  | .obj entries => do
      let source ← language.text ((Json.get? entries "source_field").getD (.str ""))
      -- a column nobody asked about is discarded
      if source ∉ request.unresolvedHeaders then return state
      else
        let rationale ← language.text ((Json.get? entries "rationale").getD (.str ""))
        let rationale := String.ofList (rationale.toList.take 300)
        match ← proposedField language entries with
        | none => return state.refuse source (if rationale = "" then "declined" else rationale)
        | some canonical =>
            if canonical ∉ request.candidateFields ∨ canonical ∉ mappableFields then
              return state.refuse source ("proposed unknown canonical field " ++
                quoted runtime canonical ++ "; discarded")
            else if canonical ∈ state.taken then
              return state.refuse source ("proposed " ++ canonical ++
                ", which is already assigned")
            else do
              let confidence ← clampConfidence language
                ((Json.get? entries "confidence").getD (.float (.finite (7 / 10))))
              return { taken := canonical :: state.taken,
                       out := state.out ++ [⟨source, some canonical, confidence, rationale⟩] }
  | _ => return state

/-- Answers for the columns that the model ignored. -/
def withUnaddressed (headers : List String) (out : List AdjudicatedField) :
    List AdjudicatedField :=
  out ++ (headers.filter fun header => header ∉ out.map AdjudicatedField.sourceField).map
    fun header => ⟨header, none, 0, "not addressed by the model"⟩

/-- The answers of a reply; `none` when there are none. -/
def parseFields (response : Response) (request : CandidateRequest) :
    Except Raised (Option (List AdjudicatedField)) :=
  if response.text = "" then return none
  else do
    match ← jsonObject language response.text with
    | none => return none
    | some entries =>
        let items ← ((Json.get? entries "fields").getD (.arr [])).iter
        let state ← items.foldlM (validateItem runtime language request)
          { taken := request.resolved.map Prod.snd }
        if state.out = [] then return none
        else return some (withUnaddressed request.unresolvedHeaders state.out)

structure ClaudeAdjudicator where
  model : String := "claude-sonnet-4-6"
  maxAttempts : Nat := 2

namespace ClaudeAdjudicator

variable (adjudicator : ClaudeAdjudicator)

/-- `_declined`: every column stays unresolved, with the reason. -/
def declined (request : CandidateRequest) (reason : String) : MeteredResult where
  fields := request.unresolvedHeaders.map fun header => ⟨header, none, 0, reason⟩
  model := adjudicator.model

/-- The attempts that are left. A reply that does not come is a transport failure. -/
def attempts (request : CandidateRequest) (replies : Nat → Option Response) :
    (left : Nat) → Usage → Except Raised MeteredResult × Usage
  | 0, usage => (.ok (adjudicator.declined request "exhausted attempts"), usage)
  | left + 1, usage =>
      match replies (adjudicator.maxAttempts - (left + 1)) with
      | none =>
          let usage := { usage with failures := usage.failures + 1 }
          if left = 0 then (.ok (adjudicator.declined request "model unavailable"), usage)
          else attempts request replies left usage
      | some response =>
          let usage := usage.record response
          match parseFields runtime language response request with
          | .error raised => (.error raised, usage)
          | .ok (some fields) =>
              (.ok { fields := fields, model := adjudicator.model,
                     inputTokens := usage.inputTokens, outputTokens := usage.outputTokens }, usage)
          | .ok none =>
              if left = 0 then
                (.ok (adjudicator.declined request "model output failed validation"), usage)
              else attempts request replies left usage

/-- Resolve the unresolved headers, or decline. -/
def adjudicate (request : CandidateRequest) (replies : Nat → Option Response) (usage : Usage) :
    Except Raised MeteredResult × Usage :=
  if request.unresolvedHeaders = [] then
    (.ok { fields := [], model := adjudicator.model }, usage)
  else adjudicator.attempts runtime language request replies adjudicator.maxAttempts usage

end ClaudeAdjudicator

end Harbormaster.Inspector
