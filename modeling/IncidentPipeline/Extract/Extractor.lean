import IncidentPipeline.Extract.Schema

/-!
# The language model client and the extraction loop

`extract/llm`: what the API can answer to one request and what the client makes of it.
`extract/extractor`: the validate-and-retry loop. The system prompt and the wire
schema, constant parts of every request, are left out.
-/

namespace IncidentPipeline

open Python Pydantic

/-! ### The client -/

structure ContentBlock where
  type : String
  text : String

/-- The SDK's message; the token counts are the attributes of its `usage`. -/
structure ApiMessage where
  content : List ContentBlock
  model : String
  stopReason : Option String
  inputTokens : Option Int
  outputTokens : Option Int
  cacheReadInputTokens : Option Int
  cacheCreationInputTokens : Option Int
  refusalCategory : Option String

/-- What one request to the API ends in. -/
inductive ApiResult where
  | message (m : ApiMessage)
  | rateLimit (message : String)
  | status (code : Nat) (type message : String)
  | timeout (text : String)
  | connection (text : String)
  | sdkError (text : String)
  | raised (name message : String)

structure LLMResponse where
  text : String
  model : String
  stopReason : Option String
  inputTokens : Int
  outputTokens : Int
  cacheReadInputTokens : Int
  cacheCreationInputTokens : Int

def LLMResponse.usage (r : LLMResponse) : Dict Int :=
  [("input_tokens", r.inputTokens), ("output_tokens", r.outputTokens),
    ("cache_read_input_tokens", r.cacheReadInputTokens),
    ("cache_creation_input_tokens", r.cacheCreationInputTokens)]

/-- The text and the token counts of a message, before its stop reason is looked at. -/
def ApiMessage.toResponse (m : ApiMessage) : LLMResponse where
  text := "".intercalate ((m.content.filter (·.type = "text")).map ContentBlock.text)
  model := m.model
  stopReason := m.stopReason
  inputTokens := m.inputTokens.getD 0
  outputTokens := m.outputTokens.getD 0
  cacheReadInputTokens := m.cacheReadInputTokens.getD 0
  cacheCreationInputTokens := m.cacheCreationInputTokens.getD 0

def responseToLlmResponse (m : ApiMessage) : Except Exc LLMResponse :=
  if m.stopReason = some "refusal" then
    .error ⟨.permanentExtractionError,
      "model refused (category=" ++ m.refusalCategory.getD "None" ++ ")", []⟩
  else if m.stopReason = some "max_tokens" then
    .error ⟨.permanentExtractionError,
      "output truncated at max_tokens (" ++ toString m.toResponse.outputTokens ++
        " output tokens)", []⟩
  else .ok m.toResponse

/-- `AnthropicClient.complete` after the request. -/
def completeWith : ApiResult → Except Exc LLMResponse
  | .message m => responseToLlmResponse m
  | .rateLimit message => .error ⟨.transientExtractionError, "rate limited (429): " ++ message, []⟩
  | .status code type message =>
      if code ≥ 500 then
        .error ⟨.transientExtractionError,
          "server error (" ++ toString code ++ " " ++ type ++ "): " ++ message, []⟩
      else
        .error ⟨.permanentExtractionError,
          "request rejected (" ++ toString code ++ " " ++ type ++ "): " ++ message, []⟩
  | .timeout text => .error ⟨.transientExtractionError, "request timed out: " ++ text, []⟩
  | .connection text => .error ⟨.transientExtractionError, "connection error: " ++ text, []⟩
  | .sdkError text => .error ⟨.permanentExtractionError, "anthropic client error: " ++ text, []⟩
  | .raised name message => .error (foreign name message)

structure ChatMessage where
  role : String
  content : String
deriving DecidableEq, Repr

/-- `LLMClient`: its configured identity, and what its `n`-th call in a row returns or
raises for the given conversation. -/
structure LLMClient where
  provider : String
  model : String
  thinking : String
  runId : String
  complete : Nat → List ChatMessage → Except Exc LLMResponse

/-- The Anthropic client over an API that answers the `n`-th request with `api n`. -/
def anthropicClient (model thinking runId : String) (api : Nat → List ChatMessage → ApiResult) :
    LLMClient where
  provider := "anthropic"
  model := model
  thinking := thinking
  runId := runId
  complete n messages := completeWith (api n messages)

/-! ### The conversation -/

/-- The characters that `json.dumps(..., ensure_ascii=False)` writes for one. -/
def jsonChar (c : Char) : String :=
  if c = '"' then "\\\"" else if c = '\\' then "\\\\"
  else if c = '\n' then "\\n" else if c = '\r' then "\\r" else if c = '\t' then "\\t"
  else if c = '\x08' then "\\b" else if c = '\x0c' then "\\f"
  else if c.toNat < 32 then
    "\\u00" ++ (if c.toNat < 16 then "0" else "") ++ String.ofList (Nat.toDigits 16 c.toNat)
  else c.toString

def jsonString (s : String) : String := "\"" ++ "".intercalate (s.toList.map jsonChar) ++ "\""

def buildUserMessage (documentText : String) (documentTitle : Option String)
    (sourceUrl : String) : String :=
  "Document metadata:\n" ++
  "\x7b\"source_url\": " ++ jsonString sourceUrl ++ ", \"document_title\": " ++
    (match documentTitle with
      | none => "null"
      | some title => jsonString title) ++ "\x7d\n\n" ++
  "Document text:\n" ++ "<document>\n" ++ documentText ++ "\n" ++ "</document>\n\n" ++
  "Extract the incident record and per-field confidence."

def buildRetryMessage (validationErrors : String) : String :=
  "Your previous output failed schema validation:\n" ++ validationErrors ++ "\n\n" ++
  "Return the complete corrected JSON object (record and confidence). " ++
  "Fix only what the errors require; keep every other value the same."

def initialMessages (userMessage : String) : List ChatMessage := [⟨"user", userMessage⟩]

/-! ### Validation of one output -/

def rstripChars (cs : List Char) : List Char := (cs.reverse.dropWhile isSpace).reverse

def stripCodeFence (raw : String) : String :=
  let text := stripChars raw.toList
  let fence := "```".toList
  if fence.isPrefixOf text then
    let body := match text.dropWhile (· ≠ '\n') with
      | _ :: rest => rest
      | [] => text.drop 3
    let body := if fence.isSuffixOf (rstripChars body) then
        (rstripChars body).take ((rstripChars body).length - 3)
      else body
    String.ofList (stripChars body)
  else String.ofList text

/-- `_validate`: a valid output, or the error to feed back. Whatever else the decoder
raises escapes. -/
def validateOutput (rt : Runtime) (raw : String) : Except Exc (Except String Json) :=
  match rt.loads (stripCodeFence raw) with
  | .decodeError msg pos =>
      .ok (.error ("- <root>: output is not valid JSON (" ++ msg ++ " at char " ++ toString pos ++
        ")"))
  | .raised name message => .error (foreign name message)
  | .value data =>
      match extractionOutput.validate (validators rt) data with
      | .ok output => .ok (.ok output)
      | .error errors => .ok (.error (formatValidationError errors))

/-! ### The loop -/

structure ExtractionResult where
  output : Json
  attempts : List Attempt
  model : String

/-- One more usage dictionary, key by key. -/
def addUsage (total usage : Dict Int) : Dict Int :=
  usage.foldl (fun acc entry => acc.set entry.1 ((acc.get? entry.1).getD 0 + entry.2)) total

/-- The sum that both the successful and the failed row store. -/
def usageTotals (attempts : List Attempt) : Dict Int :=
  attempts.foldl (fun acc a => addUsage acc a.usage) []

/-- The log entry of a response. -/
def attemptOf (number : Nat) (response : LLMResponse) (outcome : Except String Json) : Attempt where
  number := number
  rawOutput := response.text
  ok := outcome.toBool
  validationError := match outcome with
    | .ok _ => none
    | .error message => some message
  usage := response.usage
  model := response.model

def exhausted (maxAttempts : Nat) (attempts : List Attempt) : Exc where
  cls := .schemaValidationExhaustedError
  message := "output failed schema validation on all " ++ toString maxAttempts ++
    " attempts; last error:\n" ++
    ((attempts.getLast?.bind Attempt.validationError).getD "None")
  attempts := attempts

/-- What the loop raises for a client's exception: the attempts made so far ride along
on an extraction error, and only on one. -/
def withAttempts (attempts : List Attempt) (e : Exc) : Exc :=
  if e.cls.isExtractionError then { e with attempts := attempts ++ e.attempts } else e

/-- The loop from attempt `number` on, with `remaining` attempts left. -/
def extractLoop (rt : Runtime) (client : LLMClient) (maxAttempts : Nat) :
    Nat → Nat → List ChatMessage → List Attempt → Except Exc ExtractionResult
  | 0, _, _, attempts => .error (exhausted maxAttempts attempts)
  | remaining + 1, number, messages, attempts =>
      match client.complete number messages with
      | .error e => .error (withAttempts attempts e)
      | .ok response =>
          match validateOutput rt response.text with
          | .error e => .error e
          | .ok (.ok output) =>
              .ok ⟨output, attempts ++ [attemptOf number response (.ok output)], response.model⟩
          | .ok (.error message) =>
              extractLoop rt client maxAttempts remaining (number + 1)
                (messages ++ [⟨"assistant", response.text⟩, ⟨"user", buildRetryMessage message⟩])
                (attempts ++ [attemptOf number response (.error message)])

def extract (rt : Runtime) (client : LLMClient) (maxAttempts : Nat) (documentText : String)
    (documentTitle : Option String) (sourceUrl : String) : Except Exc ExtractionResult :=
  if maxAttempts < 1 then .error ⟨.valueError, "max_attempts must be >= 1", []⟩
  else
    extractLoop rt client maxAttempts maxAttempts 1
      (initialMessages (buildUserMessage documentText documentTitle sourceUrl)) []

theorem validateOutput_ok {rt : Runtime} {raw : String} {output : Json}
    (h : validateOutput rt raw = .ok (.ok output)) :
    ∃ data, extractionOutput.validate (validators rt) data = .ok output := by
  rw [validateOutput] at h
  split at h
  · cases h
  · cases h
  · next data _ =>
      split at h
      · next valid =>
          cases h
          exact ⟨data, valid⟩
      · cases h

/-- What the loop returns is an answer of the model that has been validated. -/
theorem extractLoop_answered {rt : Runtime} {client : LLMClient}
    {maxAttempts remaining number : Nat}
    {messages : List ChatMessage} {attempts : List Attempt} {result : ExtractionResult}
    (h : extractLoop rt client maxAttempts remaining number messages attempts = .ok result) :
    ∃ number messages response, client.complete number messages = .ok response ∧
      validateOutput rt response.text = .ok (.ok result.output) := by
  induction remaining generalizing number messages attempts with
  | zero => cases h
  | succ remaining ih =>
      rw [extractLoop] at h
      split at h
      · cases h
      · next response answered =>
          split at h
          · cases h
          · next output valid =>
              cases h
              exact ⟨number, messages, response, answered, valid⟩
          · exact ih h

theorem extract_answered {rt : Runtime} {client : LLMClient} {maxAttempts : Nat}
    {documentText sourceUrl : String} {documentTitle : Option String} {result : ExtractionResult}
    (h : extract rt client maxAttempts documentText documentTitle sourceUrl = .ok result) :
    ∃ number messages response, client.complete number messages = .ok response ∧
      validateOutput rt response.text = .ok (.ok result.output) := by
  rw [extract] at h
  split at h
  · cases h
  · exact extractLoop_answered h

theorem extract_validated {rt : Runtime} {client : LLMClient} {maxAttempts : Nat}
    {documentText sourceUrl : String} {documentTitle : Option String} {result : ExtractionResult}
    (h : extract rt client maxAttempts documentText documentTitle sourceUrl = .ok result) :
    ∃ data, extractionOutput.validate (validators rt) data = .ok result.output := by
  obtain ⟨number, messages, response, _, valid⟩ := extract_answered h
  exact validateOutput_ok valid

end IncidentPipeline
