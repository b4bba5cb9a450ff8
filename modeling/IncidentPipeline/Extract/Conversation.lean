import IncidentPipeline.Extract.Billing

/-!
# The conversation of one extraction

The loop against a script: what each call of the client does, if it comes to it. Up to
the first call that is not an invalid output, the transcript and the attempt log grow by
one exchange and one entry for each call; that call, or the end of the budget, decides
what `extract` does and what the row of the extraction says.
-/

namespace IncidentPipeline

open Python Transactions

/-! ### Scripts -/

/-- What a call of the client does: a response that fails validation with the given
message, one that passes, or an extraction error with attempts of its own. -/
inductive Behaviour where
  | invalid (response : LLMResponse) (message : String)
  | valid (response : LLMResponse) (output : Json)
  | error (e : Exc) (known : e.cls.isExtractionError = true)
      (dicts : ∀ a ∈ e.attempts, a.usage.keys.Nodup)

namespace Behaviour

def Invalid : Behaviour → Prop
  | invalid .. => True
  | _ => False

def Valid : Behaviour → Prop
  | valid .. => True
  | _ => False

def Error : Behaviour → Prop
  | error .. => True
  | _ => False

theorem Invalid.is {b : Behaviour} (h : b.Invalid) :
    ∃ response message, b = invalid response message := by
  cases b with
  | invalid response message => exact ⟨response, message, rfl⟩
  | valid => exact h.elim
  | error => exact h.elim

/-- Whether this is what a call returned or raised. -/
def Shows (rt : Runtime) : Behaviour → Except Exc LLMResponse → Prop
  | invalid response message, answer =>
      answer = .ok response ∧ validateOutput rt response.text = .ok (.error message)
  | valid response output, answer =>
      answer = .ok response ∧ validateOutput rt response.text = .ok (.ok output)
  | error e _ _, answer => answer = .error e

/-- What the conversation gains: the output, and the request to correct it. -/
def exchange : Behaviour → List ChatMessage
  | invalid response message =>
      [⟨"assistant", response.text⟩, ⟨"user", buildRetryMessage message⟩]
  | _ => []

/-- What the attempt log gains from the call of the given number. -/
def entries (number : Nat) : Behaviour → List Attempt
  | invalid response message => [attemptOf number response (.error message)]
  | valid response output => [attemptOf number response (.ok output)]
  | error .. => []

end Behaviour

/-- The messages of call `k + 1`. -/
def transcript (start : List ChatMessage) (script : Nat → Behaviour) (k : Nat) :
    List ChatMessage :=
  start ++ (List.range k).flatMap fun j => (script j).exchange

/-- The attempt log after `k` calls. -/
def attemptLog (script : Nat → Behaviour) (k : Nat) : List Attempt :=
  (List.range k).flatMap fun j => (script j).entries (j + 1)

/-- The client does what the script says, as long as the conversation follows it. -/
def Plays (rt : Runtime) (client : LLMClient) (start : List ChatMessage)
    (script : Nat → Behaviour) : Prop :=
  ∀ k, (script k).Shows rt (client.complete (k + 1) (transcript start script k))

/-- The messages of call `k + 1`, when `next` tells what each call does with its own. -/
def follow (next : Nat → List ChatMessage → Behaviour) (start : List ChatMessage) :
    Nat → List ChatMessage
  | 0 => start
  | k + 1 => follow next start k ++ (next k (follow next start k)).exchange

/-- A client that does one of the three things in every call plays a script. -/
theorem exists_script {rt : Runtime} {client : LLMClient} (start : List ChatMessage)
    (behaves : ∀ k messages, ∃ b : Behaviour, b.Shows rt (client.complete (k + 1) messages)) :
    ∃ script, Plays rt client start script := by
  choose next shows using behaves
  have same : ∀ k, transcript start (fun j => next j (follow next start j)) k =
      follow next start k := by
    intro k
    induction k with
    | zero => exact List.append_nil start
    | succ k ih =>
        rw [transcript, List.range_succ, List.flatMap_append, ← List.append_assoc]
        rw [transcript] at ih
        simp [ih, follow]
  refine ⟨fun j => next j (follow next start j), fun k => ?_⟩
  rw [same]
  exact shows k _

section Script

variable {start : List ChatMessage} {script : Nat → Behaviour} {k : Nat}

theorem transcript_succ :
    transcript start script (k + 1) = transcript start script k ++ (script k).exchange := by
  rw [transcript, List.range_succ, List.flatMap_append, ← List.append_assoc]
  simp [transcript]

theorem attemptLog_succ :
    attemptLog script (k + 1) = attemptLog script k ++ (script k).entries (k + 1) := by
  rw [attemptLog, List.range_succ, List.flatMap_append]
  simp [attemptLog]

/-- The entries are numbered from one, one for each response. -/
theorem attemptLog_numbers (responses : ∀ j < k, ¬ (script j).Error) :
    (attemptLog script k).map Attempt.number = List.range' 1 k := by
  induction k with
  | zero => rfl
  | succ k ih =>
      have earlier := ih fun j hj => responses j (Nat.lt_succ_of_lt hj)
      rw [attemptLog_succ, List.map_append, earlier, List.range'_concat]
      have last := responses k (Nat.lt_succ_self k)
      cases behaviour : script k with
      | invalid response message => simp [Behaviour.entries, attemptOf, Nat.add_comm]
      | valid response output => simp [Behaviour.entries, attemptOf, Nat.add_comm]
      | error =>
          rw [behaviour] at last
          exact absurd trivial last

/-- The entry of an invalid output is not ok. -/
theorem attemptLog_invalid (invalid : ∀ j < k, (script j).Invalid) :
    ∀ a ∈ attemptLog script k, a.ok = false := by
  intro a ha
  obtain ⟨j, hj, entry⟩ := List.mem_flatMap.mp ha
  obtain ⟨response, message, behaviour⟩ := (invalid j (List.mem_range.mp hj)).is
  rw [behaviour] at entry
  rw [List.mem_singleton.mp entry]
  rfl

/-- The roles alternate. -/
theorem transcript_roles (invalid : ∀ j < k, (script j).Invalid) :
    (transcript start script k).map ChatMessage.role =
      start.map ChatMessage.role ++ (List.replicate k ["assistant", "user"]).flatten := by
  induction k with
  | zero => simp [transcript]
  | succ k ih =>
      obtain ⟨response, message, behaviour⟩ := (invalid k (Nat.lt_succ_self k)).is
      rw [transcript_succ, List.map_append, ih fun j hj => invalid j (Nat.lt_succ_of_lt hj),
        List.replicate_succ', List.flatten_concat, List.append_assoc, behaviour]
      rfl

end Script

/-! ### The calls -/

/-- The loop with the messages of every call that it makes. -/
def callsLoop (rt : Runtime) (client : LLMClient) (maxAttempts : Nat) :
    Nat → Nat → List ChatMessage → List Attempt →
      Except Exc ExtractionResult × List (List ChatMessage)
  | 0, _, _, attempts => (.error (exhausted maxAttempts attempts), [])
  | remaining + 1, number, messages, attempts =>
      match client.complete number messages with
      | .error e => (.error (withAttempts attempts e), [messages])
      | .ok response =>
          match validateOutput rt response.text with
          | .error e => (.error e, [messages])
          | .ok (.ok output) =>
              (.ok ⟨output, attempts ++ [attemptOf number response (.ok output)], response.model⟩,
                [messages])
          | .ok (.error message) =>
              let rest := callsLoop rt client maxAttempts remaining (number + 1)
                (messages ++ [⟨"assistant", response.text⟩, ⟨"user", buildRetryMessage message⟩])
                (attempts ++ [attemptOf number response (.error message)])
              (rest.1, messages :: rest.2)

/-- The messages of the calls that `extract` makes. -/
def extractCalls (rt : Runtime) (client : LLMClient) (maxAttempts : Nat) (documentText : String)
    (documentTitle : Option String) (sourceUrl : String) : List (List ChatMessage) :=
  if maxAttempts < 1 then []
  else
    (callsLoop rt client maxAttempts maxAttempts 1
      (initialMessages (buildUserMessage documentText documentTitle sourceUrl)) []).2

section Calls

variable {rt : Runtime} {client : LLMClient} {start : List ChatMessage}
variable {script : Nat → Behaviour} {n k : Nat}

/-- Recording the calls does not change the loop. -/
theorem callsLoop_fst (remaining number : Nat) (messages : List ChatMessage)
    (attempts : List Attempt) :
    (callsLoop rt client n remaining number messages attempts).1 =
      extractLoop rt client n remaining number messages attempts := by
  induction remaining generalizing number messages attempts with
  | zero => rfl
  | succ remaining ih =>
      cases answered : client.complete number messages with
      | error e => simp [callsLoop, extractLoop, answered]
      | ok response =>
          cases outcome : validateOutput rt response.text with
          | error e => simp [callsLoop, extractLoop, answered, outcome]
          | ok checked =>
              cases checked with
              | ok output => simp [callsLoop, extractLoop, answered, outcome]
              | error message => simp [callsLoop, extractLoop, answered, outcome, ih]

/-- The loop where it stands after `k` invalid outputs. -/
abbrev loopAt (rt : Runtime) (client : LLMClient) (start : List ChatMessage)
    (script : Nat → Behaviour) (n remaining k : Nat) :
    Except Exc ExtractionResult × List (List ChatMessage) :=
  callsLoop rt client n remaining (k + 1) (transcript start script k) (attemptLog script k)

/-- One more invalid output. -/
theorem loopAt_invalid (plays : Plays rt client start script) (remaining : Nat)
    (invalid : (script k).Invalid) :
    loopAt rt client start script n (remaining + 1) k =
      ((loopAt rt client start script n remaining (k + 1)).1,
        transcript start script k :: (loopAt rt client start script n remaining (k + 1)).2) := by
  obtain ⟨response, message, behaviour⟩ := invalid.is
  have shows := plays k
  rw [behaviour] at shows
  unfold loopAt
  rw [transcript_succ, attemptLog_succ, behaviour, callsLoop]
  simp only [shows.1, shows.2, Behaviour.exchange, Behaviour.entries]

/-- What the loop ends in with the call of the given number, after the given attempts. -/
def Behaviour.Ends (attempts : List Attempt) (number : Nat) :
    Behaviour → Except Exc ExtractionResult → Prop
  | .invalid .., _ => False
  | .valid response output, r =>
      r = .ok ⟨output, attempts ++ [attemptOf number response (.ok output)], response.model⟩
  | .error e _ _, r => r = .error { e with attempts := attempts ++ e.attempts }

theorem loopAt_stops (plays : Plays rt client start script) (remaining : Nat)
    (stops : ¬ (script k).Invalid) :
    (script k).Ends (attemptLog script k) (k + 1)
        (loopAt rt client start script n (remaining + 1) k).1 ∧
      (loopAt rt client start script n (remaining + 1) k).2 = [transcript start script k] := by
  have shows := plays k
  rw [loopAt]
  cases behaviour : script k with
  | invalid =>
      rw [behaviour] at stops
      exact absurd trivial stops
  | valid response output =>
      rw [behaviour] at shows
      rw [callsLoop]
      simp only [shows.1, shows.2]
      exact ⟨rfl, trivial⟩
  | error e known dicts =>
      rw [behaviour] at shows
      have raises : client.complete (k + 1) (transcript start script k) = .error e := shows
      rw [callsLoop]
      simp only [raises]
      exact ⟨congrArg Except.error (if_pos known), trivial⟩

/-- The loop after `m` invalid outputs. -/
theorem loopAt_advance (plays : Plays rt client start script) (remaining m : Nat)
    (invalid : ∀ j < m, (script j).Invalid) :
    callsLoop rt client n (m + remaining) 1 start [] =
      ((loopAt rt client start script n remaining m).1,
        (List.range m).map (transcript start script) ++
          (loopAt rt client start script n remaining m).2) := by
  induction m generalizing remaining with
  | zero =>
      rw [Nat.zero_add]
      simp [loopAt, transcript, attemptLog]
  | succ m ih =>
      have earlier := ih (remaining + 1) fun j hj => invalid j (Nat.lt_succ_of_lt hj)
      rw [loopAt_invalid plays remaining (invalid m (Nat.lt_succ_self m))] at earlier
      rw [show m + 1 + remaining = m + (remaining + 1) by omega, earlier, List.range_succ,
        List.map_append, List.append_assoc]
      rfl

/-- A property holds up to `n`, or there is a first place where it fails. -/
theorem first_stop (p : Nat → Prop) (n : Nat) :
    (∀ j < n, p j) ∨ ∃ k < n, (∀ j < k, p j) ∧ ¬ p k := by
  induction n with
  | zero => exact .inl fun j hj => by omega
  | succ n ih =>
      obtain all | ⟨k, below, first, stops⟩ := ih
      · by_cases last : p n
        · refine .inl fun j hj => ?_
          obtain earlier | rfl := Nat.lt_succ_iff_lt_or_eq.mp hj
          · exact all j earlier
          · exact last
        · exact .inr ⟨n, Nat.lt_succ_self n, all, last⟩
      · exact .inr ⟨k, Nat.lt_succ_of_lt below, first, stops⟩

end Calls

/-! ### What `extract` does -/

/-- The first messages for a document. -/
abbrev Document.start (doc : Document) : List ChatMessage :=
  initialMessages (buildUserMessage doc.text doc.title doc.sourceUrl)

section Extract

variable {rt : Runtime} {client : LLMClient} {doc : Document}
variable {script : Nat → Behaviour} {n k : Nat}

/-- The loop ends with the first call that is not an invalid output. -/
theorem extract_stops (plays : Plays rt client doc.start script) (below : k < n)
    (invalid : ∀ j < k, (script j).Invalid) (stops : ¬ (script k).Invalid) :
    (script k).Ends (attemptLog script k) (k + 1)
        (extract rt client n doc.text doc.title doc.sourceUrl) ∧
      extractCalls rt client n doc.text doc.title doc.sourceUrl =
        (List.range (k + 1)).map (transcript doc.start script) := by
  obtain ⟨remaining, rfl⟩ : ∃ remaining, n = k + (remaining + 1) := ⟨n - k - 1, by omega⟩
  have run := loopAt_advance (n := k + (remaining + 1)) plays (remaining + 1) k invalid
  obtain ⟨ends, last⟩ := loopAt_stops (n := k + (remaining + 1)) plays remaining stops
  have some_ : ¬ k + (remaining + 1) < 1 := by omega
  rw [extract, extractCalls, if_neg some_, if_neg some_, ← callsLoop_fst, run, last,
    List.range_succ, List.map_append]
  exact ⟨ends, rfl⟩

/-- The budget is used up by invalid outputs. -/
theorem extract_exhausts (plays : Plays rt client doc.start script) (positive : 1 ≤ n)
    (invalid : ∀ j < n, (script j).Invalid) :
    extract rt client n doc.text doc.title doc.sourceUrl =
        .error (exhausted n (attemptLog script n)) ∧
      extractCalls rt client n doc.text doc.title doc.sourceUrl =
        (List.range n).map (transcript doc.start script) := by
  have run := loopAt_advance (n := n) plays 0 n invalid
  have some_ : ¬ n < 1 := by omega
  rw [extract, extractCalls, if_neg some_, if_neg some_, ← callsLoop_fst]
  rw [Nat.add_zero] at run
  rw [run]
  exact ⟨rfl, List.append_nil _⟩

/-- The calls that are made follow the script, each after invalid outputs only. -/
theorem extractCalls_eq (plays : Plays rt client doc.start script) (positive : 1 ≤ n) :
    ∃ calls ≤ n, extractCalls rt client n doc.text doc.title doc.sourceUrl =
        (List.range calls).map (transcript doc.start script) ∧
      ∀ j, j + 1 < calls → (script j).Invalid := by
  obtain all | ⟨k, below, invalid, stops⟩ := first_stop (fun j => (script j).Invalid) n
  · exact ⟨n, le_rfl, (extract_exhausts plays positive all).2, fun j hj => all j (by omega)⟩
  · exact ⟨k + 1, below, (extract_stops plays below invalid stops).2,
      fun j hj => invalid j (by omega)⟩

/-- How the loop can end. -/
inductive Ending (script : Nat → Behaviour) (n : Nat) : Except Exc ExtractionResult → Prop where
  | returned {k : Nat} {response : LLMResponse} {output : Json} (below : k < n)
      (invalid : ∀ j < k, (script j).Invalid) (last : script k = .valid response output) :
      Ending script n (.ok ⟨output, attemptLog script k ++ [attemptOf (k + 1) response (.ok output)],
        response.model⟩)
  | raised {k : Nat} {e : Exc} {known : e.cls.isExtractionError = true}
      {dicts : ∀ a ∈ e.attempts, a.usage.keys.Nodup} (below : k < n)
      (invalid : ∀ j < k, (script j).Invalid) (last : script k = .error e known dicts) :
      Ending script n (.error { e with attempts := attemptLog script k ++ e.attempts })
  | exhausted (invalid : ∀ j < n, (script j).Invalid) :
      Ending script n (.error (IncidentPipeline.exhausted n (attemptLog script n)))

theorem extract_ending (plays : Plays rt client doc.start script) (positive : 1 ≤ n) :
    Ending script n (extract rt client n doc.text doc.title doc.sourceUrl) := by
  obtain all | ⟨k, below, invalid, stops⟩ := first_stop (fun j => (script j).Invalid) n
  · rw [(extract_exhausts plays positive all).1]
    exact .exhausted all
  · obtain ⟨ends, _⟩ := extract_stops plays below invalid stops
    cases last : script k with
    | invalid =>
        rw [last] at ends
        exact ends.elim
    | valid response output =>
        rw [last] at ends
        exact ends ▸ .returned below invalid last
    | error e known dicts =>
        rw [last] at ends
        exact ends ▸ .raised below invalid last

/-- The loop returns exactly if an output is valid before there is an error. -/
theorem Ending.returns_iff {outcome : Except Exc ExtractionResult}
    (ending : Ending script n outcome) :
    outcome.toBool = true ↔ ∃ k < n, (script k).Valid ∧ ∀ j < k, ¬ (script j).Error := by
  have not_error : ∀ {b : Behaviour}, b.Invalid → ¬ b.Error := by
    rintro b invalid error
    obtain ⟨_, _, rfl⟩ := invalid.is
    exact error
  have not_valid : ∀ {b : Behaviour}, b.Invalid → ¬ b.Valid := by
    rintro b invalid valid
    obtain ⟨_, _, rfl⟩ := invalid.is
    exact valid
  cases ending with
  | @returned k response output below invalid last =>
      refine iff_of_true rfl ⟨k, below, ?_, fun j hj => not_error (invalid j hj)⟩
      rw [last]
      trivial
  | @raised k e known dicts below invalid last =>
      refine iff_of_false (by simp [Except.toBool]) ?_
      rintro ⟨i, _, valid, clear_⟩
      obtain early | rfl | late := Nat.lt_trichotomy i k
      · exact not_valid (invalid i early) valid
      · rw [last] at valid
        exact valid
      · have error := clear_ k late
        rw [last] at error
        exact error trivial
  | exhausted invalid =>
      refine iff_of_false (by simp [Except.toBool]) ?_
      rintro ⟨i, below, valid, _⟩
      exact not_valid (invalid i below) valid

end Extract

/-! ### The row of the extraction -/

def lastOk (attempts : List Attempt) : Bool := attempts.getLast?.any Attempt.ok

theorem lastOk_append (first second : List Attempt) :
    lastOk (first ++ second) = if second = [] then lastOk first else lastOk second := by
  unfold lastOk
  rw [List.getLast?_append]
  split
  · next nothing => simp [nothing]
  · next some_ => simp [List.getLast?_eq_some_getLast some_]

theorem lastOk_of_all {attempts : List Attempt} (none_ok : ∀ a ∈ attempts, a.ok = false) :
    lastOk attempts = false := by
  rw [lastOk]
  cases last : attempts.getLast? with
  | none => rfl
  | some a => exact none_ok a (List.mem_of_getLast? last)

section Row

variable {script : Nat → Behaviour} {n k : Nat} {outcome : Except Exc ExtractionResult}

/-- The usage of an entry is a dictionary. -/
theorem attemptLog_dicts : ∀ a ∈ attemptLog script k, a.usage.keys.Nodup := by
  intro a ha
  obtain ⟨j, _, entry⟩ := List.mem_flatMap.mp ha
  cases behaviour : script j with
  | invalid response message =>
      rw [behaviour] at entry
      exact List.mem_singleton.mp entry ▸ response.usage_nodup
  | valid response output =>
      rw [behaviour] at entry
      exact List.mem_singleton.mp entry ▸ response.usage_nodup
  | error =>
      rw [behaviour] at entry
      cases entry

/-- The attempts of an extraction error get into the row. -/
theorem recordedAttempts_error {e : Exc} (known : e.cls.isExtractionError = true)
    (attempts : List Attempt) :
    recordedAttempts (.error { e with attempts := attempts }) = attempts := by
  simp [recordedAttempts, failureOf, known]

theorem Ending.dicts (ending : Ending script n outcome) :
    ∀ a ∈ recordedAttempts outcome, a.usage.keys.Nodup := by
  intro a ha
  cases ending with
  | returned below invalid last =>
      obtain earlier | now_ := List.mem_append.mp ha
      · exact attemptLog_dicts a earlier
      · exact List.mem_singleton.mp now_ ▸ LLMResponse.usage_nodup _
  | @raised k e known dicts below invalid last =>
      rw [recordedAttempts_error known] at ha
      obtain earlier | own := List.mem_append.mp ha
      · exact attemptLog_dicts a earlier
      · exact dicts a own
  | exhausted invalid => exact attemptLog_dicts a ha

/-- The last attempt on record is ok exactly if the loop returned, unless an error ended
it that carries an attempt which is ok. -/
theorem Ending.lastOk_iff (ending : Ending script n outcome)
    (honest : ∀ k < n, (∀ j < k, (script j).Invalid) → ∀ e known dicts,
      script k = .error e known dicts → lastOk e.attempts = false) :
    outcome.toBool = true ↔ lastOk (recordedAttempts outcome) = true := by
  cases ending with
  | returned below invalid last =>
      refine iff_of_true rfl ?_
      show lastOk (_ ++ [_]) = true
      rw [lastOk_append, if_neg (List.cons_ne_nil _ _)]
      rfl
  | @raised k e known dicts below invalid last =>
      refine iff_of_false (by simp [Except.toBool]) ?_
      rw [recordedAttempts_error known, lastOk_append]
      split
      · simp [lastOk_of_all (attemptLog_invalid invalid)]
      · simp [honest k below invalid e known dicts last]
  | exhausted invalid =>
      refine iff_of_false (by simp [Except.toBool]) ?_
      show ¬ lastOk (attemptLog script n) = true
      simp [lastOk_of_all (attemptLog_invalid invalid)]

end Row

/-! ### The loop and its row -/

/-- The loop against a script: which calls it makes with which messages, when it returns
and with what, what an error and an exhausted budget carry, and what the row says. -/
theorem extract_follows_script {rt : Runtime} {client : LLMClient} {doc : Document}
    {script : Nat → Behaviour} {n : Nat} (positive : 1 ≤ n)
    (plays : Plays rt client doc.start script) :
    let outcome := extract rt client n doc.text doc.title doc.sourceUrl
    let calls := extractCalls rt client n doc.text doc.title doc.sourceUrl
    (calls.length ≤ n ∧ calls = (List.range calls.length).map (transcript doc.start script) ∧
      ∀ messages ∈ calls, ∃ k, messages.map ChatMessage.role =
        "user" :: (List.replicate k ["assistant", "user"]).flatten) ∧
    (outcome.toBool = true ↔ ∃ k < n, (script k).Valid ∧ ∀ j < k, ¬ (script j).Error) ∧
    (∀ result, outcome = .ok result → ∃ k < n, ∃ response, (∀ j < k, (script j).Invalid) ∧
      script k = .valid response result.output ∧ calls.length = k + 1 ∧
      result.attempts = attemptLog script k ++ [attemptOf (k + 1) response (.ok result.output)]) ∧
    (∀ k, (∀ j < k, (script j).Invalid) →
      (attemptLog script k).map Attempt.number = List.range' 1 k ∧
        ∀ a ∈ attemptLog script k, a.ok = false) ∧
    (∀ k < n, ∀ e known dicts, (∀ j < k, (script j).Invalid) → script k = .error e known dicts →
      outcome = .error { e with attempts := attemptLog script k ++ e.attempts } ∧
        calls.length = k + 1) ∧
    ((∀ j < n, (script j).Invalid) → ∃ e, outcome = .error e ∧
      e.cls = .schemaValidationExhaustedError ∧ e.attempts = attemptLog script n ∧
        calls.length = n) ∧
    ∀ ids now documentId schedule session, ∃ ops,
      ((extractStored rt ids now client n documentId doc).run postgres schedule session).session.log =
          session.log ++ ops ∧
        ∀ row, .insertExtraction row ∈ ops → row.attemptLog = recordedAttempts outcome ∧
          row.attempts = row.attemptLog.length ∧
          (∀ key, tokens row.usage key = (row.attemptLog.map fun a => tokens a.usage key).sum) ∧
          ((∀ k < n, (∀ j < k, (script j).Invalid) → ∀ e known dicts,
              script k = .error e known dicts → lastOk e.attempts = false) →
            (row.status = .complete ↔ lastOk row.attemptLog = true)) := by
  intro outcome calls
  have ending : Ending script n outcome := extract_ending plays positive
  refine ⟨?_, ending.returns_iff, ?_, ?_, ?_, ?_, ?_⟩
  · obtain ⟨count, bounded, made, invalid⟩ := extractCalls_eq plays positive
    have made : calls = (List.range count).map (transcript doc.start script) := made
    have length : calls.length = count := by simp [made]
    refine ⟨length ▸ bounded, length ▸ made, fun messages member => ?_⟩
    obtain ⟨k, hk, rfl⟩ := List.mem_map.mp (made ▸ member)
    have below := List.mem_range.mp hk
    exact ⟨k, transcript_roles fun j hj => invalid j (by omega)⟩
  · intro result returned
    rw [returned] at ending
    cases ending with
    | @returned k response output below invalid last =>
        have stops : ¬ (script k).Invalid := by
          rw [last]
          exact id
        have made := (extract_stops plays below invalid stops).2
        exact ⟨k, below, response, invalid, last, by simp [calls, made], rfl⟩
  · intro k invalid
    refine ⟨attemptLog_numbers fun j hj error => ?_, attemptLog_invalid invalid⟩
    obtain ⟨_, _, behaviour⟩ := (invalid j hj).is
    rw [behaviour] at error
    exact error
  · intro k below e known dicts invalid last
    have stops : ¬ (script k).Invalid := by
      rw [last]
      exact id
    obtain ⟨ends, made⟩ := extract_stops plays below invalid stops
    rw [last] at ends
    exact ⟨ends, by simp [calls, made]⟩
  · intro invalid
    obtain ⟨raised, made⟩ := extract_exhausts plays positive invalid
    exact ⟨_, raised, rfl, rfl, by simp [calls, made]⟩
  · intro ids now documentId schedule session
    obtain ⟨ops, log, writes⟩ :=
      (extractStored_writes rt ids now client n documentId doc).run schedule session
    refine ⟨ops, log, fun row member => ?_⟩
    have stored := writes _ member
    obtain ⟨usage, attempts⟩ := ExtractionRow.totals stored
    have recorded := ExtractionRow.recorded stored
    refine ⟨recorded, attempts, fun key => ?_, fun honest => ?_⟩
    · rw [usage]
      exact tokens_usageTotals (recorded ▸ ending.dicts) key
    · rw [ExtractionRow.status_iff stored, recorded]
      exact ending.lastOk_iff honest

/-! An invalid output, and then an error that brings an attempt of its own. -/

def proseResponse : LLMResponse := ⟨"no", "m", some "end_turn", 10, 5, 0, 0⟩

def proseAttempt : Attempt :=
  attemptOf 1 proseResponse
    (.error "- <root>: output is not valid JSON (Expecting value at char 0)")

def relayError : Exc :=
  ⟨.transientExtractionError, "rate limited (429): later", [attemptOf 7 proseResponse (.ok .null)]⟩

def relayClient : LLMClient where
  provider := "relay"
  model := "m"
  thinking := "off"
  runId := ""
  complete number _ := if number = 1 then .ok proseResponse else .error relayError

def relayScript : Nat → Behaviour
  | 0 => .invalid proseResponse "- <root>: output is not valid JSON (Expecting value at char 0)"
  | _ + 1 => .error relayError rfl (by
      intro a ha
      exact List.mem_singleton.mp ha ▸ LLMResponse.usage_nodup _)

theorem relay_plays : Plays .ascii relayClient storedDocument.start relayScript := by
  intro k
  cases k with
  | zero => exact ⟨rfl, rfl⟩
  | succ k =>
      show (if k + 1 + 1 = 1 then Except.ok proseResponse else .error relayError) = _
      exact if_neg (by omega)

theorem extract_follows_relay :
    extract .ascii relayClient 3 "an outage" none "status" =
      .error { relayError with attempts := [proseAttempt] ++ relayError.attempts } := by
  have law := (extract_follows_script (n := 3) (by decide) relay_plays).2.2.2.2.1
  refine (law 1 (by decide) relayError _ _ (fun j hj => ?_) rfl).1
  obtain rfl : j = 0 := by omega
  trivial

/-- The row of the failed extraction ends with an attempt that is ok. -/
theorem relay_row_ok : Plays .ascii relayClient storedDocument.start relayScript ∧
    ∃ row : Extraction, .insertExtraction row ∈ ((extractStored .ascii ⟨2, 3, fun n => n⟩ 9
        relayClient 3 1 storedDocument).run postgres quietly .fresh).session.log ∧
      ¬ (row.status = .complete ↔ lastOk row.attemptLog = true) := by
  refine ⟨relay_plays, failedExtraction 3 9 relayClient 1
    { relayError with attempts := [proseAttempt] ++ relayError.attempts } .transient
      ([proseAttempt] ++ relayError.attempts), ?_, by decide⟩
  exact List.mem_singleton.mpr rfl

end IncidentPipeline
