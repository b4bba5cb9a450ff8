import IncidentPipeline.Db.Tables
import IncidentPipeline.Extract.Pipeline

/-!
# The record of what was billed

Every response of the model API is paid for, and the stored `usage` is the only source
of cost figures. `extractTrace` is the loop together with the requests it sends, so that
the responses can be compared with the attempts that reach the row. `Accounted` is the
exact condition on the results of the API.
-/

namespace IncidentPipeline

open Python Transactions

/-! ### The requests of a run of the loop -/

/-- The loop with the numbers of the requests that it sends. -/
def extractTrace (rt : Runtime) (client : LLMClient) (maxAttempts : Nat) :
    Nat → Nat → List ChatMessage → List Attempt → Except Exc ExtractionResult × List Nat
  | 0, _, _, attempts => (.error (exhausted maxAttempts attempts), [])
  | remaining + 1, number, messages, attempts =>
      match client.complete number messages with
      | .error e => (.error (withAttempts attempts e), [number])
      | .ok response =>
          match validateOutput rt response.text with
          | .error e => (.error e, [number])
          | .ok (.ok output) =>
              (.ok ⟨output, attempts ++ [attemptOf number response (.ok output)], response.model⟩,
                [number])
          | .ok (.error message) =>
              let rest := extractTrace rt client maxAttempts remaining (number + 1)
                (messages ++ [⟨"assistant", response.text⟩, ⟨"user", buildRetryMessage message⟩])
                (attempts ++ [attemptOf number response (.error message)])
              (rest.1, number :: rest.2)

section Trace

variable {rt : Runtime} {client : LLMClient} {maxAttempts remaining number : Nat}
variable {messages : List ChatMessage} {attempts : List Attempt}

theorem extractTrace_error {e : Exc} (failed : client.complete number messages = .error e) :
    extractTrace rt client maxAttempts (remaining + 1) number messages attempts =
      (.error (withAttempts attempts e), [number]) := by
  simp [extractTrace, failed]

theorem extractTrace_raise {response : LLMResponse} {e : Exc}
    (answered : client.complete number messages = .ok response)
    (raised : validateOutput rt response.text = .error e) :
    extractTrace rt client maxAttempts (remaining + 1) number messages attempts =
      (.error e, [number]) := by
  simp [extractTrace, answered, raised]

theorem extractTrace_valid {response : LLMResponse} {output : Json}
    (answered : client.complete number messages = .ok response)
    (valid : validateOutput rt response.text = .ok (.ok output)) :
    extractTrace rt client maxAttempts (remaining + 1) number messages attempts =
      (.ok ⟨output, attempts ++ [attemptOf number response (.ok output)], response.model⟩,
        [number]) := by
  simp [extractTrace, answered, valid]

theorem extractTrace_retry {response : LLMResponse} {message : String}
    (answered : client.complete number messages = .ok response)
    (invalid : validateOutput rt response.text = .ok (.error message)) :
    ∃ messages', extractTrace rt client maxAttempts (remaining + 1) number messages attempts =
      ((extractTrace rt client maxAttempts remaining (number + 1) messages'
          (attempts ++ [attemptOf number response (.error message)])).1,
        number :: (extractTrace rt client maxAttempts remaining (number + 1) messages'
          (attempts ++ [attemptOf number response (.error message)])).2) := by
  refine ⟨messages ++ [⟨"assistant", response.text⟩, ⟨"user", buildRetryMessage message⟩], ?_⟩
  rw [extractTrace]
  simp only [answered, invalid]

end Trace

/-- Recording the requests does not change the loop. -/
theorem extractTrace_fst (rt : Runtime) (client : LLMClient) (maxAttempts remaining number : Nat)
    (messages : List ChatMessage) (attempts : List Attempt) :
    (extractTrace rt client maxAttempts remaining number messages attempts).1 =
      extractLoop rt client maxAttempts remaining number messages attempts := by
  induction remaining generalizing number messages attempts with
  | zero => rfl
  | succ remaining ih =>
      cases answered : client.complete number messages with
      | error e => simp [extractTrace, extractLoop, answered]
      | ok response =>
          cases outcome : validateOutput rt response.text with
          | error e => simp [extractTrace, extractLoop, answered, outcome]
          | ok checked =>
              cases checked with
              | ok output => simp [extractTrace, extractLoop, answered, outcome]
              | error message => simp [extractTrace, extractLoop, answered, outcome, ih]

/-- The results of the API that are responses. -/
def responsesAmong (results : Nat → ApiResult) (requests : List Nat) : List ApiMessage :=
  requests.filterMap fun n =>
    match results n with
    | .message m => some m
    | _ => none

/-- The responses that the API gives in one call. Its results are given in advance, so
they do not depend on the conversation (`extractTrace_snd`). -/
def billedResponses (rt : Runtime) (client : LLMClient) (results : Nat → ApiResult)
    (maxAttempts : Nat) : List ApiMessage :=
  responsesAmong results (extractTrace rt client maxAttempts maxAttempts 1 [] []).2

/-- The requests do not depend on the conversation if the client's answers do not. -/
theorem extractTrace_snd (rt : Runtime) {client : LLMClient} (maxAttempts remaining number : Nat)
    (fixed : ∀ n messages messages', client.complete n messages = client.complete n messages')
    (messages messages' : List ChatMessage) (attempts attempts' : List Attempt) :
    (extractTrace rt client maxAttempts remaining number messages attempts).2 =
      (extractTrace rt client maxAttempts remaining number messages' attempts').2 := by
  induction remaining generalizing number messages messages' attempts attempts' with
  | zero => rfl
  | succ remaining ih =>
      rw [extractTrace, extractTrace, fixed number messages messages']
      cases client.complete number messages' with
      | error e => rfl
      | ok response =>
          dsimp only
          cases validateOutput rt response.text with
          | error e => rfl
          | ok checked =>
              cases checked with
              | ok output => rfl
              | error message => exact congrArg (number :: ·) (ih _ _ _ _ _)

/-! ### The attempts that reach the row -/

/-- The attempts that the row of an extraction records. -/
def recordedAttempts : Except Exc ExtractionResult → List Attempt
  | .ok result => result.attempts
  | .error e => (failureOf e).2

section Row

variable {ids : ExtractIds} {now : Time} {client : LLMClient} {documentId : Uuid}
variable {outcome : Except Exc ExtractionResult} {row : Extraction}

theorem ExtractionRow.recorded
    (writes : ExtractionRow ids now client documentId outcome (.insertExtraction row)) :
    row.attemptLog = recordedAttempts outcome := by
  cases outcome with
  | error e =>
      obtain rfl := writes
      rfl
  | ok result =>
      obtain ⟨record, rfl⟩ := writes
      rfl

theorem ExtractionRow.created
    (writes : ExtractionRow ids now client documentId outcome (.insertExtraction row)) :
    row.createdAt = now := by
  cases outcome with
  | error e =>
      obtain rfl := writes
      rfl
  | ok result =>
      obtain ⟨record, rfl⟩ := writes
      rfl

/-- The counters of a row go with its attempt log. -/
theorem ExtractionRow.totals
    (writes : ExtractionRow ids now client documentId outcome (.insertExtraction row)) :
    row.usage = usageTotals row.attemptLog ∧ row.attempts = row.attemptLog.length := by
  cases outcome with
  | error e =>
      obtain rfl := writes
      exact ⟨rfl, rfl⟩
  | ok result =>
      obtain ⟨record, rfl⟩ := writes
      exact ⟨rfl, rfl⟩

theorem ExtractionRow.status_iff
    (writes : ExtractionRow ids now client documentId outcome (.insertExtraction row)) :
    row.status = .complete ↔ outcome.toBool = true := by
  cases outcome with
  | error e =>
      obtain rfl := writes
      exact iff_of_false (by simp [failedExtraction]) (by simp [Except.toBool])
  | ok result =>
      obtain ⟨record, rfl⟩ := writes
      exact iff_of_true rfl rfl

end Row

/-- What an attempt log entry says about its response. -/
def Attempt.entry (a : Attempt) : String × Dict Int := (a.rawOutput, a.usage)

/-- What an entry for the response would have to say. -/
def ApiMessage.entry (m : ApiMessage) : String × Dict Int :=
  (m.toResponse.text, m.toResponse.usage)

@[simp] theorem attemptOf_entry (number : Nat) (m : ApiMessage) (outcome : Except String Json) :
    (attemptOf number m.toResponse outcome).entry = m.entry := rfl

/-- Whether every response of the API gets on record, from attempt `number` on and with
`answered` telling whether there was one before. -/
def Accounted (rt : Runtime) (results : Nat → ApiResult) : Nat → Nat → Bool → Prop
  | 0, _, _ => True
  | remaining + 1, number, answered =>
      match results number with
      | .message m =>
          m.stopReason ≠ some "refusal" ∧ m.stopReason ≠ some "max_tokens" ∧
            match validateOutput rt m.toResponse.text with
            | .error _ => False
            | .ok (.ok _) => True
            | .ok (.error _) => Accounted rt results remaining (number + 1) true
      | .raised .. => answered = false
      | _ => True

/-- The recorded attempts are the earlier ones and one for each response. -/
def Balanced (results : Nat → ApiResult) (attempts : List Attempt)
    (out : Except Exc ExtractionResult × List Nat) : Prop :=
  (recordedAttempts out.1).map Attempt.entry =
    attempts.map Attempt.entry ++ (responsesAmong results out.2).map ApiMessage.entry

section Balance

variable {results : Nat → ApiResult} {attempts : List Attempt} {number : Nat} {m : ApiMessage}

theorem recordedAttempts_withAttempts {e : Exc} (known : e.cls.isExtractionError = true)
    (bare : e.attempts = []) :
    recordedAttempts (.error (withAttempts attempts e)) = attempts := by
  simp [recordedAttempts, withAttempts, failureOf, known, bare]

theorem responsesAmong_message (came : results number = .message m) (requests : List Nat) :
    responsesAmong results (number :: requests) = m :: responsesAmong results requests := by
  simp [responsesAmong, came]

theorem responsesAmong_none (none_came : ∀ m, results number ≠ .message m) :
    responsesAmong results [number] = [] := by
  cases h : results number with
  | message m => exact absurd h (none_came m)
  | _ => simp [responsesAmong, h]

theorem balanced_error {e : Exc} (none_came : ∀ m, results number ≠ .message m)
    (known : e.cls.isExtractionError = true) (bare : e.attempts = []) :
    Balanced results attempts (.error (withAttempts attempts e), [number]) := by
  rw [Balanced, recordedAttempts_withAttempts known bare, responsesAmong_none none_came]
  simp

/-- A response that the client turns into an error leaves no entry. -/
theorem not_balanced_dropped {e : Exc} (came : results number = .message m)
    (known : e.cls.isExtractionError = true) (bare : e.attempts = []) :
    ¬ Balanced results attempts (.error (withAttempts attempts e), [number]) := by
  intro balanced
  rw [Balanced, recordedAttempts_withAttempts known bare, responsesAmong_message came] at balanced
  have lengths := congrArg List.length balanced
  simp at lengths

/-- An exception of an unknown class loses the attempts made before it. -/
theorem balanced_foreign {name message : String} (none_came : ∀ m, results number ≠ .message m) :
    Balanced results attempts (.error (withAttempts attempts (foreign name message)), [number]) ↔
      (!attempts.isEmpty) = false := by
  have lost : recordedAttempts (.error (withAttempts attempts (foreign name message))) = [] := rfl
  rw [Balanced, responsesAmong_none none_came, lost]
  simp

theorem not_balanced_foreign {name message : String} (came : results number = .message m) :
    ¬ Balanced results attempts (.error (foreign name message), [number]) := by
  intro balanced
  have lost : recordedAttempts (.error (foreign name message)) = [] := rfl
  rw [Balanced, responsesAmong_message came, lost] at balanced
  have lengths := congrArg List.length balanced
  simp at lengths

theorem balanced_valid {output : Json} {model : String} {outcome : Except String Json}
    (came : results number = .message m) :
    Balanced results attempts
      (.ok ⟨output, attempts ++ [attemptOf number m.toResponse outcome], model⟩, [number]) := by
  rw [Balanced, responsesAmong_message came]
  simp [recordedAttempts, responsesAmong]

theorem balanced_cons {outcome : Except String Json} (came : results number = .message m)
    (out : Except Exc ExtractionResult × List Nat) :
    Balanced results attempts (out.1, number :: out.2) ↔
      Balanced results (attempts ++ [attemptOf number m.toResponse outcome]) out := by
  rw [Balanced, Balanced, responsesAmong_message came]
  simp

end Balance

/-- An error that the API reports is one of the extraction's own. -/
theorem completeWith_error {r : ApiResult} (none_came : ∀ m, r ≠ .message m)
    (known : ∀ name message, r ≠ .raised name message) :
    ∃ e, completeWith r = .error e ∧ e.cls.isExtractionError = true ∧ e.attempts = [] := by
  cases r with
  | message m => exact absurd rfl (none_came m)
  | rateLimit message => exact ⟨_, rfl, rfl, rfl⟩
  | status code type message =>
      by_cases server : code ≥ 500
      · exact ⟨_, if_pos server, rfl, rfl⟩
      · exact ⟨_, if_neg server, rfl, rfl⟩
  | timeout text => exact ⟨_, rfl, rfl, rfl⟩
  | connection text => exact ⟨_, rfl, rfl, rfl⟩
  | sdkError text => exact ⟨_, rfl, rfl, rfl⟩
  | raised name message => exact absurd rfl (known name message)

/-- What the client makes of a response depends on its stop reason only. -/
theorem responseToLlmResponse_cases (m : ApiMessage) :
    (¬ (m.stopReason ≠ some "refusal" ∧ m.stopReason ≠ some "max_tokens") ∧
      ∃ e, responseToLlmResponse m = .error e ∧ e.cls.isExtractionError = true ∧
        e.attempts = []) ∨
    ((m.stopReason ≠ some "refusal" ∧ m.stopReason ≠ some "max_tokens") ∧
      responseToLlmResponse m = .ok m.toResponse) := by
  rw [responseToLlmResponse]
  by_cases refused : m.stopReason = some "refusal"
  · exact .inl ⟨fun h => h.1 refused, _, if_pos refused, rfl, rfl⟩
  rw [if_neg refused]
  by_cases truncated : m.stopReason = some "max_tokens"
  · exact .inl ⟨fun h => h.2 truncated, _, if_pos truncated, rfl, rfl⟩
  · exact .inr ⟨⟨refused, truncated⟩, if_neg truncated⟩

/-- The decoder is the only part of the validation that raises. -/
theorem validateOutput_error {rt : Runtime} {raw : String} {e : Exc}
    (h : validateOutput rt raw = .error e) : ∃ name message, e = foreign name message := by
  rw [validateOutput] at h
  split at h
  · cases h
  · cases h
    exact ⟨_, _, rfl⟩
  · split at h <;> cases h

/-- The log has an entry for each response exactly under the condition. -/
theorem extractTrace_balanced (rt : Runtime) (model thinking runId : String)
    (results : Nat → ApiResult) (maxAttempts remaining number : Nat)
    (messages : List ChatMessage) (attempts : List Attempt) :
    Balanced results attempts
      (extractTrace rt (anthropicClient model thinking runId fun n _ => results n)
        maxAttempts remaining number messages attempts) ↔
      Accounted rt results remaining number (!attempts.isEmpty) := by
  induction remaining generalizing number messages attempts with
  | zero =>
      simp [extractTrace, exhausted, recordedAttempts, failureOf, ExcClass.isExtractionError,
        responsesAmong, Accounted, Balanced]
  | succ remaining ih =>
      have asked : (anthropicClient model thinking runId fun n _ => results n).complete number
          messages = completeWith (results number) := rfl
      rw [Accounted]
      cases result : results number with
      | message m =>
          rw [result] at asked
          obtain ⟨stopped, e, dropped, known, bare⟩ | ⟨went, kept⟩ := responseToLlmResponse_cases m
          · rw [extractTrace_error (asked.trans dropped)]
            exact iff_of_false (not_balanced_dropped result known bare)
              fun h => stopped ⟨h.1, h.2.1⟩
          have answered := asked.trans kept
          dsimp only
          cases outcome : validateOutput rt m.toResponse.text with
          | error e =>
              obtain ⟨name, message, rfl⟩ := validateOutput_error outcome
              rw [extractTrace_raise answered outcome]
              exact iff_of_false (not_balanced_foreign result) fun h => h.2.2
          | ok checked =>
              cases checked with
              | ok output =>
                  rw [extractTrace_valid answered outcome]
                  exact iff_of_true (balanced_valid result) ⟨went.1, went.2, trivial⟩
              | error message =>
                  obtain ⟨messages', retried⟩ := @extractTrace_retry rt _ maxAttempts remaining
                    number messages attempts _ _ answered outcome
                  have more : (!(attempts ++ [attemptOf number m.toResponse
                      (.error message)]).isEmpty) = true := by cases attempts <;> rfl
                  rw [retried, balanced_cons result, ih, more]
                  exact ⟨fun h => ⟨went.1, went.2, h⟩, fun h => h.2.2⟩
      | raised name message =>
          rw [result] at asked
          rw [extractTrace_error asked]
          exact balanced_foreign (by simp [result])
      | _ =>
          obtain ⟨e, failed, known, bare⟩ := @completeWith_error (results number)
            (by simp [result]) (by simp [result])
          rw [extractTrace_error (asked.trans failed)]
          exact iff_of_true (balanced_error (by simp [result]) known bare) trivial

/-! ### The usage totals -/

/-- The tokens of one kind. -/
def tokens (usage : Dict Int) (key : String) : Int := (usage.get? key).getD 0

theorem tokens_set (total : Dict Int) (key other : String) (value : Int) :
    tokens (total.set key value) other = if key = other then value else tokens total other := by
  rw [tokens, Dict.get?_set]
  split <;> rfl

theorem tokens_addUsage (total : Dict Int) {usage : Dict Int} (nodup : usage.keys.Nodup)
    (key : String) : tokens (addUsage total usage) key = tokens total key + tokens usage key := by
  induction usage generalizing total with
  | nil => simp [addUsage, tokens]
  | cons entry rest ih =>
      obtain ⟨k, v⟩ := entry
      simp only [Dict.keys, List.map_cons, List.nodup_cons] at nodup
      have step : addUsage total ((k, v) :: rest) =
          addUsage (total.set k (tokens total k + v)) rest := rfl
      rw [step, ih _ nodup.2, tokens_set]
      by_cases h : k = key
      · subst h
        have absent : Dict.get? rest k = none := (Dict.get?_eq_none_iff rest k).mpr nodup.1
        simp [tokens, absent]
      · simp [tokens, Dict.get?_cons, h]

theorem tokens_foldl_addUsage {usages : List (Dict Int)} (nodup : ∀ u ∈ usages, u.keys.Nodup)
    (total : Dict Int) (key : String) :
    tokens (usages.foldl addUsage total) key =
      tokens total key + (usages.map fun u => tokens u key).sum := by
  induction usages generalizing total with
  | nil => simp
  | cons usage rest ih =>
      rw [List.foldl_cons, ih fun u hu => nodup u (List.mem_cons_of_mem _ hu),
        tokens_addUsage total (nodup usage List.mem_cons_self), List.map_cons, List.sum_cons,
        add_assoc]

/-- The totals are the sums over the attempts, key by key. -/
theorem tokens_usageTotals {attempts : List Attempt}
    (nodup : ∀ a ∈ attempts, a.usage.keys.Nodup) (key : String) :
    tokens (usageTotals attempts) key = (attempts.map fun a => tokens a.usage key).sum := by
  have dicts : ∀ u ∈ attempts.map Attempt.usage, u.keys.Nodup := by
    intro u hu
    obtain ⟨a, ha, rfl⟩ := List.mem_map.mp hu
    exact nodup a ha
  have sums := tokens_foldl_addUsage dicts [] key
  rw [List.foldl_map, List.map_map] at sums
  exact sums.trans (zero_add _)

/-! ### The row -/

/-- The row has an entry for each response, and its usage is their sum, key by key. -/
def Extraction.Accounts (row : Extraction) (responses : List ApiMessage) : Prop :=
  row.attemptLog.map Attempt.entry = responses.map ApiMessage.entry ∧
    ∀ key, tokens row.usage key = (responses.map fun m => tokens m.toResponse.usage key).sum

theorem LLMResponse.usage_nodup (r : LLMResponse) : r.usage.keys.Nodup := by
  show ["input_tokens", "output_tokens", "cache_read_input_tokens",
    "cache_creation_input_tokens"].Nodup
  decide

/-- A row that has the entries has the sums as well. -/
theorem Extraction.accounts_iff {row : Extraction} (totals : row.usage = usageTotals row.attemptLog)
    (responses : List ApiMessage) :
    row.Accounts responses ↔
      row.attemptLog.map Attempt.entry = responses.map ApiMessage.entry := by
  refine ⟨And.left, fun entries => ⟨entries, fun key => ?_⟩⟩
  have usages : row.attemptLog.map Attempt.usage =
      responses.map fun m => m.toResponse.usage := by
    have seconds := congrArg (List.map Prod.snd) entries
    simpa only [List.map_map, Function.comp_def, Attempt.entry, ApiMessage.entry] using seconds
  have nodup : ∀ a ∈ row.attemptLog, a.usage.keys.Nodup := by
    intro a ha
    have member : a.usage ∈ row.attemptLog.map Attempt.usage := List.mem_map_of_mem ha
    rw [usages] at member
    obtain ⟨m, _, same⟩ := List.mem_map.mp member
    exact same ▸ m.toResponse.usage_nodup
  have sums := congrArg (List.map fun usage => tokens usage key) usages
  simp only [List.map_map, Function.comp_def] at sums
  rw [totals, tokens_usageTotals nodup, sums]

/-- What an extraction row records of its call. -/
def RecordsCall (rt : Runtime) (client : LLMClient) (maxAttempts : Nat) : RowOp → Prop
  | .insertExtraction row =>
      (∃ documentText documentTitle sourceUrl, row.attemptLog = recordedAttempts
        (extract rt client maxAttempts documentText documentTitle sourceUrl)) ∧
      row.usage = usageTotals row.attemptLog
  | .insertFieldReview _ => True
  | _ => False

/-- What can be said of every row of a call can be said of what `extract_document` writes. -/
theorem extractDocument_writes_of {P : RowOp → Prop} {rt : Runtime} {ids : ExtractIds} {now : Time}
    {client : LLMClient} {maxAttempts : Nat} {documentId : Uuid}
    (each : ∀ (doc : Document) o, ExtractionRow ids now client documentId
      (extract rt client maxAttempts doc.text doc.title doc.sourceUrl) o → P o) :
    (extractDocument rt ids now client maxAttempts documentId).Writes P := by
  rw [extractDocument_eq]
  refine Prog.writes_bind writes_select fun existing => ?_
  cases existing with
  | some row => exact trivial
  | none =>
      refine Prog.writes_bind writes_select fun doc => ?_
      cases doc with
      | none => exact trivial
      | some doc =>
          exact (extractStored_writes rt ids now client maxAttempts documentId doc).mono (each doc)

theorem extractDocument_writes (rt : Runtime) (ids : ExtractIds) (now : Time) (client : LLMClient)
    (maxAttempts : Nat) (documentId : Uuid) :
    (extractDocument rt ids now client maxAttempts documentId).Writes
      (RecordsCall rt client maxAttempts) := by
  refine extractDocument_writes_of fun doc o writes => ?_
  cases o with
  | insertExtraction row =>
      exact ⟨⟨doc.text, doc.title, doc.sourceUrl, writes.recorded⟩, writes.totals.1⟩
  | insertFieldReview row => trivial
  | _ => exact writes.elim

/-- The row that a call writes accounts for every response of the API exactly if the
request that ends the loop is not answered by a refusal or a truncated output, its text
does not make the decoder raise anything but `JSONDecodeError`, and the client raises no
exception of an unknown class once there has been a response. -/
theorem extraction_accounts_iff (rt : Runtime) (ids : ExtractIds) (now : Time)
    (model thinking runId : String) (results : Nat → ApiResult) (maxAttempts : Nat)
    (documentId : Uuid) (schedule : Nat → Moment Context Database Exc) {row : Extraction}
    (written : .insertExtraction row ∈ ((extractDocument rt ids now
      (anthropicClient model thinking runId fun n _ => results n) maxAttempts documentId).run
        postgres schedule .fresh).session.log) :
    row.Accounts (billedResponses rt (anthropicClient model thinking runId fun n _ => results n)
        results maxAttempts) ↔
      Accounted rt results maxAttempts 1 false := by
  obtain ⟨⟨documentText, documentTitle, sourceUrl, log⟩, totals⟩ :
      RecordsCall rt (anthropicClient model thinking runId fun n _ => results n) maxAttempts
        (.insertExtraction row) := by
    obtain ⟨ops, same, records⟩ :=
      (extractDocument_writes rt ids now _ maxAttempts documentId).run schedule .fresh
    rw [same] at written
    exact records _ written
  rw [Extraction.accounts_iff totals, log]
  by_cases none : maxAttempts < 1
  · obtain rfl : maxAttempts = 0 := by omega
    simp [extract, recordedAttempts, failureOf, ExcClass.isExtractionError, billedResponses,
      extractTrace, responsesAmong, Accounted]
  · have balanced := extractTrace_balanced rt model thinking runId results maxAttempts maxAttempts 1
      (initialMessages (buildUserMessage documentText documentTitle sourceUrl)) []
    rw [Balanced, extractTrace_fst, extractTrace_snd rt maxAttempts maxAttempts 1
      (fun _ _ _ => rfl) _ [] [] []] at balanced
    rw [extract, if_neg none]
    exact balanced

/-! One refused response, which is billed and nowhere on record. -/

def refusal : ApiMessage :=
  ⟨[⟨"text", "no"⟩], "m", some "refusal", some 10, some 5, none, none, none⟩

def refusingClient : LLMClient := anthropicClient "m" "off" "" fun _ _ => .message refusal

def storedDocument : Document :=
  ⟨1, 5, "status", "a", "b", .html, 0, "postgres", [60], "an outage", none, 0⟩

/-- Nothing happens meanwhile to a database with one document. -/
def quietly : Nat → Moment Context Database Exc := fun _ =>
  ⟨{ Database.empty with documents := [storedDocument] }, ⟨.empty, []⟩, none⟩

def refusalRow : Extraction :=
  failedExtraction 3 9 refusingClient 1
    ⟨.permanentExtractionError, "model refused (category=None)", []⟩ .permanent []

theorem refusal_written :
    ((extractDocument .ascii ⟨2, 3, fun n => n⟩ 9 refusingClient 3 1).run postgres quietly
      .fresh).session.log = [.insertExtraction refusalRow] := by
  rfl

theorem extraction_accounts_refusal :
    refusalRow.Accounts (billedResponses .ascii refusingClient (fun _ => .message refusal) 3) ↔
      Accounted .ascii (fun _ => .message refusal) 3 1 false :=
  @extraction_accounts_iff .ascii ⟨2, 3, fun n => n⟩ 9 "m" "off" "" (fun _ => .message refusal) 3 1
    quietly refusalRow (by
      have written := refusal_written
      rw [refusingClient] at written
      rw [written]
      exact List.mem_singleton.mpr rfl)

theorem extraction_loses_refusal :
    .insertExtraction refusalRow ∈ ((extractDocument .ascii ⟨2, 3, fun n => n⟩ 9 refusingClient 3
      1).run postgres quietly .fresh).session.log ∧
    ¬ refusalRow.Accounts (billedResponses .ascii refusingClient (fun _ => .message refusal) 3) := by
  constructor
  · rw [refusal_written]
    exact List.mem_singleton.mpr rfl
  · intro accounts
    have lengths := congrArg List.length accounts.1
    revert lengths
    decide

end IncidentPipeline
