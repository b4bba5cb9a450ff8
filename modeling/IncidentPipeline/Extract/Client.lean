import IncidentPipeline.Extract.Extractor

/-!
# The configured client

`extract/llm`: the provider registry and the construction of the Anthropic client. The
SDK's constructor is a parameter: it raises, or gives an API that answers requests sent
with the given thinking parameters. The API key and `max_tokens` go to it alone.
-/

namespace IncidentPipeline

open Python

/-- What the settings say about the extraction. -/
structure LlmSettings where
  llmProvider : Option String
  extractionModel : Option String
  extractionThinking : Option String
  extractionRunId : Option String

def thinkingModes : List String := ["default", "adaptive", "disabled"]

def effortLevels : List String := ["low", "medium", "high", "xhigh", "max"]

/-- The parameters `thinking` and `output_config` of a request. -/
structure ThinkingParams where
  thinking : Option String
  effort : Option String
deriving DecidableEq, Repr

def configurationError (message : String) : Exc := ⟨.permanentExtractionError, message, []⟩

def thinkingRequestParams (rt : Runtime) (spec : String) : Except Exc ThinkingParams :=
  let mode := (partition ':' spec).1
  let effort := (partition ':' spec).2
  if mode ∉ thinkingModes ∨ effort.any (· ∉ effortLevels) = true then
    .error (configurationError
      ("APP_EXTRACTION_THINKING=" ++ rt.repr spec ++ " is not valid: expected one of " ++
        ", ".intercalate thinkingModes ++ ", optionally followed by ':' and one of " ++
        ", ".intercalate effortLevels ++ " (e.g. 'adaptive:low')"))
  else .ok ⟨if mode = "default" then none else some mode, effort⟩

/-- `anthropic.Anthropic(api_key=...)`: the text of an `AnthropicError`, or the API. -/
abbrev AnthropicSdk := Except String (ThinkingParams → Nat → List ChatMessage → ApiResult)

/-- `AnthropicClient.__init__`; `uuid` is the one that `uuid4` draws. -/
def newAnthropicClient (rt : Runtime) (sdk : AnthropicSdk) (uuid : String) (model thinking : String)
    (runId : Option String) : Except Exc LLMClient :=
  match thinkingRequestParams rt thinking with
  | .error e => .error e
  | .ok params =>
      match sdk with
      | .error text => .error (configurationError ("anthropic client not configured: " ++ text))
      | .ok api => .ok (anthropicClient model thinking (runId.getD uuid) (api params))

def buildLlmClient (rt : Runtime) (sdk : AnthropicSdk) (uuid : String) (cfg : LlmSettings) :
    Except Exc LLMClient :=
  match cfg.llmProvider with
  | none => .error (configurationError "APP_LLM_PROVIDER is not set (supported: anthropic)")
  | some provider =>
      if lowerText provider ≠ "anthropic" then
        .error (configurationError
          ("unknown LLM provider " ++ rt.repr provider ++ " (supported: anthropic)"))
      else
        match cfg.extractionModel, cfg.extractionThinking with
        | none, _ => .error (configurationError "APP_EXTRACTION_MODEL is not set")
        | some _, none =>
            .error (configurationError
              ("APP_EXTRACTION_THINKING is not set (for anthropic: one of " ++
                ", ".intercalate thinkingModes ++ ", optionally ':<effort>')"))
        | some model, some thinking =>
            newAnthropicClient rt sdk uuid model thinking cfg.extractionRunId

variable {rt : Runtime} {sdk : AnthropicSdk} {uuid : String} {cfg : LlmSettings}

/-- The thinking string is part of a row's identity: no two spellings of a request are
accepted. -/
theorem thinkingRequestParams_injective {s t : String} {params : ThinkingParams}
    (first : thinkingRequestParams rt s = .ok params)
    (second : thinkingRequestParams rt t = .ok params) : s = t := by
  have parts : ∀ {u : String}, thinkingRequestParams rt u = .ok params →
      partition ':' u = (params.thinking.getD "default", params.effort) := by
    intro u accepted
    rw [thinkingRequestParams] at accepted
    split at accepted
    · cases accepted
    · cases accepted
      refine Prod.ext ?_ rfl
      by_cases default : (partition ':' u).1 = "default"
      · simp [default]
      · simp [default]
  exact partition_injective ((parts first).trans (parts second).symm)

/-- Whatever is missing, the error is permanent and no attempt has been made. -/
theorem buildLlmClient_error {e : Exc} (failed : buildLlmClient rt sdk uuid cfg = .error e) :
    ∃ message, e = configurationError message := by
  unfold buildLlmClient newAnthropicClient thinkingRequestParams at failed
  grind

/-- A client is what the settings ask for, in a run of its own unless they name one. -/
theorem buildLlmClient_identity {client : LLMClient}
    (built : buildLlmClient rt sdk uuid cfg = .ok client) :
    client.provider = "anthropic" ∧ some client.model = cfg.extractionModel ∧
      some client.thinking = cfg.extractionThinking ∧
        client.runId = cfg.extractionRunId.getD uuid := by
  rw [buildLlmClient] at built
  split at built
  · cases built
  · split at built
    · cases built
    · split at built
      · cases built
      · cases built
      · next model thinking hasModel hasThinking =>
          rw [newAnthropicClient] at built
          split at built
          · cases built
          · cases sdk with
            | error text => cases built
            | ok api =>
                cases built
                exact ⟨rfl, hasModel.symm, hasThinking.symm, rfl⟩

end IncidentPipeline
