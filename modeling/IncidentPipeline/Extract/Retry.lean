import IncidentPipeline.Extract.Conversation

/-!
# Retry requests

The loop against the answers of any client, exceptions that are no extraction errors
and outputs that no decoder takes included. An output that fails validation is fed back
as it stands, also when a response without text gives an empty message, which the API
does not accept.
-/

namespace IncidentPipeline

open Python

/-! ### Messages with content -/

/-- Every message has content. -/
def WellFormed (messages : List ChatMessage) : Prop :=
  ∀ m ∈ messages, m.content ≠ ""

@[simp] theorem wellFormed_nil : WellFormed [] := by
  intro m member
  cases member

@[simp] theorem wellFormed_append {first second : List ChatMessage} :
    WellFormed (first ++ second) ↔ WellFormed first ∧ WellFormed second :=
  List.forall_mem_append

@[simp] theorem wellFormed_cons {m : ChatMessage} {messages : List ChatMessage} :
    WellFormed (m :: messages) ↔ m.content ≠ "" ∧ WellFormed messages :=
  List.forall_mem_cons

theorem append_ne_empty {front back : String} (some_ : back ≠ "") : front ++ back ≠ "" := by
  rw [Ne, String.append_eq_empty_iff]
  exact fun empty => some_ empty.2

theorem buildUserMessage_ne (text : String) (title : Option String) (url : String) :
    buildUserMessage text title url ≠ "" :=
  append_ne_empty (by decide)

theorem buildRetryMessage_ne (errors : String) : buildRetryMessage errors ≠ "" :=
  append_ne_empty (by decide)

theorem Document.start_wellFormed (doc : Document) : WellFormed doc.start := by
  simp [Document.start, initialMessages, buildUserMessage_ne]

/-- A message of the API has text. -/
def ApiMessage.HasText (m : ApiMessage) : Prop :=
  ∃ block ∈ m.content, block.type = "text" ∧ block.text ≠ ""

theorem intercalate_empty (texts : List String) :
    "".intercalate texts = "" ↔ ∀ text ∈ texts, text = "" := by
  induction texts with
  | nil => simp
  | cons text texts ih =>
      cases texts with
      | nil => simp
      | cons next rest =>
          rw [String.intercalate_cons_cons, String.append_eq_empty_iff,
            String.append_eq_empty_iff, ih, List.forall_mem_cons]
          simp

theorem ApiMessage.hasText_iff (m : ApiMessage) : m.HasText ↔ m.toResponse.text ≠ "" := by
  rw [ApiMessage.toResponse, Ne, intercalate_empty]
  simp [ApiMessage.HasText]

/-! ### Answers -/

/-- An output that fails validation. -/
def Fails (rt : Runtime) (answer : Except Exc LLMResponse) : Prop :=
  ∃ response message, answer = .ok response ∧
    validateOutput rt response.text = .ok (.error message)

/-- What the conversation gains from an answer. -/
def feedback (rt : Runtime) : Except Exc LLMResponse → List ChatMessage
  | .error _ => []
  | .ok response =>
      match validateOutput rt response.text with
      | .ok (.error message) =>
          [⟨"assistant", response.text⟩, ⟨"user", buildRetryMessage message⟩]
      | _ => []

/-- The messages of call `k + 1`, after these answers. -/
def conversation (rt : Runtime) (start : List ChatMessage)
    (answers : Nat → Except Exc LLMResponse) (k : Nat) : List ChatMessage :=
  start ++ (List.range k).flatMap fun j => feedback rt (answers j)

/-- The client gives these answers, as long as the conversation follows them. -/
def Answers (rt : Runtime) (client : LLMClient) (start : List ChatMessage)
    (answers : Nat → Except Exc LLMResponse) : Prop :=
  ∀ k, client.complete (k + 1) (conversation rt start answers k) = answers k

section Answers

variable {rt : Runtime} {client : LLMClient} {start : List ChatMessage}
variable {answers : Nat → Except Exc LLMResponse} {n k : Nat}

theorem conversation_succ : conversation rt start answers (k + 1) =
    conversation rt start answers k ++ feedback rt (answers k) := by
  rw [conversation, List.range_succ, List.flatMap_append, ← List.append_assoc]
  simp [conversation]

/-- The conversation is well formed as long as every output that is fed back has text. -/
theorem conversation_wellFormed (initial : WellFormed start)
    (texts : ∀ j < k, WellFormed (feedback rt (answers j))) :
    WellFormed (conversation rt start answers k) := by
  induction k with
  | zero =>
      rw [conversation]
      simpa using initial
  | succ k ih =>
      rw [conversation_succ, wellFormed_append]
      exact ⟨ih fun j hj => texts j (Nat.lt_succ_of_lt hj), texts k (Nat.lt_succ_self k)⟩

/-- The output fed back is the one message that can be empty. -/
theorem feedback_wellFormed {response : LLMResponse} {message : String}
    (invalid : validateOutput rt response.text = .ok (.error message)) :
    WellFormed (feedback rt (.ok response)) ↔ response.text ≠ "" := by
  rw [feedback, invalid]
  simp [buildRetryMessage_ne]

/-! ### The loop -/

/-- One more output that fails validation. -/
theorem callsLoop_fails (given : Answers rt client start answers) (remaining : Nat)
    (attempts : List Attempt) (fails : Fails rt (answers k)) :
    ∃ attempt, callsLoop rt client n (remaining + 1) (k + 1)
        (conversation rt start answers k) attempts =
      ((callsLoop rt client n remaining (k + 2) (conversation rt start answers (k + 1))
          (attempts ++ [attempt])).1,
        conversation rt start answers k ::
          (callsLoop rt client n remaining (k + 2) (conversation rt start answers (k + 1))
            (attempts ++ [attempt])).2) := by
  obtain ⟨response, message, answer, invalid⟩ := fails
  have answered := given k
  rw [answer] at answered
  refine ⟨attemptOf (k + 1) response (.error message), ?_⟩
  rw [conversation_succ, answer, feedback, callsLoop]
  simp only [answered, invalid]

/-- Any other answer ends the loop. -/
theorem callsLoop_stops (given : Answers rt client start answers) (remaining : Nat)
    (attempts : List Attempt) (stops : ¬ Fails rt (answers k)) :
    (callsLoop rt client n (remaining + 1) (k + 1) (conversation rt start answers k)
      attempts).2 = [conversation rt start answers k] := by
  have answered := given k
  rw [callsLoop]
  cases answer : answers k with
  | error e =>
      rw [answer] at answered
      simp only [answered]
  | ok response =>
      rw [answer] at answered
      simp only [answered]
      cases outcome : validateOutput rt response.text with
      | error e => rfl
      | ok checked =>
          cases checked with
          | ok output => rfl
          | error message => exact absurd ⟨response, message, answer, outcome⟩ stops

/-- The loop after `m` outputs that fail validation. -/
theorem callsLoop_advance (given : Answers rt client start answers) (remaining m : Nat)
    (fails : ∀ j < m, Fails rt (answers j)) :
    ∃ attempts, attempts.length = m ∧ callsLoop rt client n (m + remaining) 1 start [] =
      ((callsLoop rt client n remaining (m + 1) (conversation rt start answers m) attempts).1,
        (List.range m).map (conversation rt start answers) ++
          (callsLoop rt client n remaining (m + 1) (conversation rt start answers m)
            attempts).2) := by
  induction m generalizing remaining with
  | zero =>
      refine ⟨[], rfl, ?_⟩
      rw [Nat.zero_add]
      simp [conversation]
  | succ m ih =>
      obtain ⟨attempts, length, earlier⟩ :=
        ih (remaining + 1) fun j hj => fails j (Nat.lt_succ_of_lt hj)
      obtain ⟨attempt, further⟩ :=
        callsLoop_fails (n := n) given remaining attempts (fails m (Nat.lt_succ_self m))
      refine ⟨attempts ++ [attempt], by simp [length], ?_⟩
      rw [show m + 1 + remaining = m + (remaining + 1) by omega, earlier, further,
        List.range_succ, List.map_append, List.append_assoc]
      rfl

end Answers

/-! ### The requests of `extract` -/

section Extract

variable {rt : Runtime} {client : LLMClient} {doc : Document}
variable {answers : Nat → Except Exc LLMResponse} {n k : Nat}

/-- A call is made exactly if all outputs before it fail validation. -/
theorem extractCalls_answers (given : Answers rt client doc.start answers) (n : Nat) :
    ∃ calls ≤ n, extractCalls rt client n doc.text doc.title doc.sourceUrl =
        (List.range calls).map (conversation rt doc.start answers) ∧
      ∀ k < n, k < calls ↔ ∀ j < k, Fails rt (answers j) := by
  by_cases none_ : n < 1
  · refine ⟨0, Nat.zero_le n, ?_, fun k hk => by omega⟩
    rw [extractCalls, if_pos none_]
    rfl
  rw [extractCalls, if_neg none_]
  obtain all | ⟨k, below, fails, stops⟩ := first_stop (fun j => Fails rt (answers j)) n
  · obtain ⟨attempts, _, run⟩ := callsLoop_advance (n := n) given 0 n all
    rw [Nat.add_zero] at run
    refine ⟨n, le_rfl, ?_, fun k hk => iff_of_true hk fun j hj => all j (by omega)⟩
    rw [run]
    exact List.append_nil _
  · obtain ⟨remaining, budget⟩ : ∃ remaining, n = k + (remaining + 1) := ⟨n - k - 1, by omega⟩
    obtain ⟨attempts, _, run⟩ := callsLoop_advance (n := n) given (remaining + 1) k fails
    rw [callsLoop_stops given remaining attempts stops, ← budget] at run
    refine ⟨k + 1, below, ?_, fun i _ => ⟨fun hi j hj => fails j (by omega), fun earlier => ?_⟩⟩
    · rw [run, List.range_succ, List.map_append]
      rfl
    · by_contra late
      exact stops (earlier k (by omega))

/-- An extraction error in place of the next answer ends the run with the attempts made. -/
theorem extract_error (given : Answers rt client doc.start answers) (next : k + 1 < n)
    (fails : ∀ j ≤ k, Fails rt (answers j)) {e : Exc} (answer : answers (k + 1) = .error e)
    (known : e.cls.isExtractionError = true) :
    ∃ attempts, attempts.length = k + 1 ∧
      extract rt client n doc.text doc.title doc.sourceUrl =
        .error { e with attempts := attempts ++ e.attempts } := by
  obtain ⟨remaining, budget⟩ : ∃ remaining, n = k + 1 + (remaining + 1) :=
    ⟨n - k - 2, by omega⟩
  obtain ⟨attempts, length, run⟩ := callsLoop_advance (n := n) given (remaining + 1) (k + 1)
    fun j hj => fails j (Nat.lt_succ_iff.mp hj)
  have answered := given (k + 1)
  rw [answer] at answered
  refine ⟨attempts, length, ?_⟩
  rw [extract, if_neg (by omega), ← callsLoop_fst]
  rw [← budget] at run
  rw [run, callsLoop]
  simp only [answered, withAttempts, if_pos known]

/-- Every request is well formed exactly if the outputs that are fed back have text. -/
theorem extractCalls_wellFormed (given : Answers rt client doc.start answers) :
    (∀ messages ∈ extractCalls rt client n doc.text doc.title doc.sourceUrl,
        WellFormed messages) ↔
      ∀ k, k + 1 < n → (∀ j ≤ k, Fails rt (answers j)) → WellFormed (feedback rt (answers k)) := by
  obtain ⟨calls, bounded, made, reached⟩ := extractCalls_answers given n
  rw [made, List.forall_mem_map]
  constructor
  · intro formed k next fails
    have called := (reached (k + 1) next).mpr fun j hj => fails j (Nat.lt_succ_iff.mp hj)
    have request := formed (k + 1) (List.mem_range.mpr called)
    rw [conversation_succ, wellFormed_append] at request
    exact request.2
  · intro texts k member
    have called := List.mem_range.mp member
    have fails := (reached k (by omega)).mp called
    exact conversation_wellFormed doc.start_wellFormed fun j hj =>
      texts j (by omega) fun i hi => fails i (by omega)

end Extract

/-! ### The client -/

/-- The messages of request `k + 1`, when the API tells what it makes of each. -/
def requests (rt : Runtime) (api : Nat → List ChatMessage → ApiResult)
    (start : List ChatMessage) : Nat → List ChatMessage
  | 0 => start
  | k + 1 => requests rt api start k ++
      feedback rt (completeWith (api (k + 1) (requests rt api start k)))

/-- Every API makes a sequence of outputs. -/
theorem exists_outputs (rt : Runtime) (api : Nat → List ChatMessage → ApiResult)
    (start : List ChatMessage) : ∃ outputs : Nat → ApiResult,
      ∀ k, api (k + 1) (conversation rt start (fun j => completeWith (outputs j)) k) =
        outputs k := by
  have same : ∀ k, conversation rt start
      (fun j => completeWith (api (j + 1) (requests rt api start j))) k =
        requests rt api start k := by
    intro k
    induction k with
    | zero => exact List.append_nil start
    | succ k ih => rw [conversation_succ, ih, requests]
  refine ⟨fun j => api (j + 1) (requests rt api start j), fun k => ?_⟩
  rw [same]

/-- An output that fails validation is the text of a message. -/
theorem Fails.message {rt : Runtime} {output : ApiResult} (fails : Fails rt (completeWith output)) :
    ∃ m, output = .message m ∧ completeWith output = .ok m.toResponse := by
  obtain ⟨response, message, answer, _⟩ := fails
  cases output with
  | message m =>
      refine ⟨m, rfl, ?_⟩
      rw [completeWith, responseToLlmResponse] at answer ⊢
      split at answer
      · cases answer
      · next accepted =>
          split at answer
          · cases answer
          · next whole => rw [if_neg accepted, if_neg whole]
  | status code type text =>
      rw [completeWith] at answer
      split at answer
      · cases answer
      · cases answer
  | _ => cases answer

theorem Fails.feedback_wellFormed {rt : Runtime} {output : ApiResult}
    (fails : Fails rt (completeWith output)) :
    WellFormed (feedback rt (completeWith output)) ↔
      ∀ m, output = .message m → m.HasText := by
  obtain ⟨m, rfl, converted⟩ := fails.message
  obtain ⟨response, message, answer, invalid⟩ := fails
  obtain rfl : m.toResponse = response := Except.ok.inj (converted.symm.trans answer)
  rw [converted, IncidentPipeline.feedback_wellFormed invalid, ← m.hasText_iff]
  simp

/-- An output that fails validation is followed by a well-formed request, in every run of
the budget, exactly if every such output before the last attempt has text; after one
without, the refusal of the API ends the run as a permanent failure. -/
theorem retry_requests_iff {rt : Runtime} {api : Nat → List ChatMessage → ApiResult}
    {doc : Document} {outputs : Nat → ApiResult} (model thinking runId : String) (n : Nat)
    (rejects : ∀ k messages, ¬ WellFormed messages →
      ∃ type message, api k messages = .status 400 type message)
    (given : ∀ k, api (k + 1) (conversation rt doc.start (fun j => completeWith (outputs j)) k) =
      outputs k) :
    let client := anthropicClient model thinking runId api
    let calls := extractCalls rt client n doc.text doc.title doc.sourceUrl
    ((∀ messages ∈ calls, WellFormed messages) ∧
        (∀ k, k + 1 < n → (∀ j ≤ k, Fails rt (completeWith (outputs j))) →
          ∃ messages, calls[k + 1]? = some messages ∧ WellFormed messages) ↔
      ∀ k, k + 1 < n → (∀ j ≤ k, Fails rt (completeWith (outputs j))) →
        ∀ m, outputs k = .message m → m.HasText) ∧
    ∀ k, k + 1 < n → (∀ j ≤ k, Fails rt (completeWith (outputs j))) →
      (∀ m, outputs k = .message m → ¬ m.HasText) →
      ∃ e, extract rt client n doc.text doc.title doc.sourceUrl = .error e ∧
        e.cls = .permanentExtractionError ∧ e.attempts.length = k + 1 := by
  intro client calls
  have answered : Answers rt client doc.start fun j => completeWith (outputs j) :=
    fun k => congrArg completeWith (given k)
  obtain ⟨count, bounded, made, reached⟩ := extractCalls_answers answered n
  have wellFormed := extractCalls_wellFormed (n := n) answered
  refine ⟨⟨fun ⟨formed, _⟩ k next fails => ?_, fun texts => ?_⟩, fun k next fails textless => ?_⟩
  · exact (fails k le_rfl).feedback_wellFormed.mp (wellFormed.mp formed k next fails)
  · have formed : ∀ messages ∈ calls, WellFormed messages := wellFormed.mpr fun k next fails =>
      (fails k le_rfl).feedback_wellFormed.mpr (texts k next fails)
    refine ⟨formed, fun k next fails => ?_⟩
    have called := (reached (k + 1) next).mpr fun j hj => fails j (Nat.lt_succ_iff.mp hj)
    have length : k + 1 < calls.length := by
      rw [show calls = _ from made, List.length_map, List.length_range]
      exact called
    exact ⟨calls[k + 1], List.getElem?_eq_getElem length, formed _ (List.getElem_mem length)⟩
  · obtain ⟨m, output, _⟩ := (fails k le_rfl).message
    have empty :
        ¬ WellFormed (conversation rt doc.start (fun j => completeWith (outputs j)) (k + 1)) := by
      rw [conversation_succ, wellFormed_append]
      intro formed
      exact textless m output ((fails k le_rfl).feedback_wellFormed.mp formed.2 m output)
    obtain ⟨type, message, refused⟩ := rejects (k + 2) _ empty
    have answer : completeWith (outputs (k + 1)) = completeWith (.status 400 type message) := by
      rw [← given (k + 1), refused]
    obtain ⟨attempts, length, ended⟩ := extract_error answered next fails answer rfl
    exact ⟨_, ended, rfl, by simp [length]⟩

/-! An API whose model ends its turn without a word. -/

def silence : ApiMessage := ⟨[], "m", some "end_turn", some 10, some 1, none, none, none⟩

def silentApi (_ : Nat) (messages : List ChatMessage) : ApiResult :=
  if messages.all (·.content ≠ "") then .message silence
  else .status 400 "invalid_request_error" "messages: text content blocks must be non-empty"

def silentClient : LLMClient := anthropicClient "m" "off" "" silentApi

theorem silentApi_rejects (k : Nat) (messages : List ChatMessage)
    (malformed : ¬ WellFormed messages) :
    ∃ type message, silentApi k messages = .status 400 type message := by
  refine ⟨_, _, if_neg fun formed => malformed ?_⟩
  intro m member
  simpa using List.all_eq_true.mp formed m member

def silentOutputs : Nat → ApiResult
  | 0 => .message silence
  | _ + 1 =>
      .status 400 "invalid_request_error" "messages: text content blocks must be non-empty"

theorem silent_answers (k : Nat) : silentApi (k + 1) (conversation .ascii storedDocument.start
    (fun j => completeWith (silentOutputs j)) k) = silentOutputs k := by
  cases k with
  | zero =>
      apply if_pos
      rw [List.all_eq_true]
      intro m member
      rw [conversation, List.range_zero, List.flatMap_nil, List.append_nil] at member
      simpa using storedDocument.start_wellFormed m member
  | succ k =>
      have output : (⟨"assistant", ""⟩ : ChatMessage) ∈ conversation .ascii storedDocument.start
          (fun j => completeWith (silentOutputs j)) (k + 1) :=
        List.mem_append_right _ (List.mem_flatMap.mpr
          ⟨0, List.mem_range.mpr (Nat.succ_pos k), List.mem_cons_self⟩)
      apply if_neg
      intro formed
      simpa using List.all_eq_true.mp formed _ output

theorem silence_fails : Fails .ascii (completeWith (silentOutputs 0)) :=
  ⟨silence.toResponse, _, rfl, rfl⟩

theorem retry_requests_silent :
    ∃ e, extract .ascii silentClient 3 "an outage" none "status" = .error e ∧
      e.cls = .permanentExtractionError ∧ e.attempts.length = 1 := by
  have law := (retry_requests_iff "m" "off" "" 3 silentApi_rejects silent_answers).2
  refine law 0 (by decide) (fun j hj => ?_) fun m output => ?_
  · obtain rfl : j = 0 := by omega
    exact silence_fails
  · cases output
    rintro ⟨block, member, _⟩
    cases member

/-- The second request carries an empty message, and the run does not come to the third. -/
theorem silence_fed_back :
    (∃ messages ∈ extractCalls .ascii silentClient 3 "an outage" none "status",
      ¬ WellFormed messages) ∧
    ∃ e, extract .ascii silentClient 3 "an outage" none "status" = .error e ∧
      e.cls = .permanentExtractionError ∧ e.attempts.length = 1 := by
  have given : Answers .ascii silentClient storedDocument.start
      fun j => completeWith (silentOutputs j) := fun k => congrArg completeWith (silent_answers k)
  have fails : ∀ j ≤ 0, Fails .ascii (completeWith (silentOutputs j)) := by
    intro j hj
    obtain rfl : j = 0 := by omega
    exact silence_fails
  constructor
  · by_contra formed
    push Not at formed
    have texts := (extractCalls_wellFormed (n := 3) given).mp formed 0 (by decide) fails
    exact texts ⟨"assistant", ""⟩ List.mem_cons_self rfl
  · obtain ⟨attempts, length, ended⟩ := extract_error (n := 3) given (by decide) fails rfl rfl
    exact ⟨_, ended, rfl, by simp [length]⟩

end IncidentPipeline
