import IncidentPipeline.Telemetry.Cost

/-!
# The report of an extraction run

`scripts/extraction_run` reads back, for each document of the manifest, the jobs and the
extraction rows, and adds up what this run has used. Rows are this run's from a cutoff on;
their times are compared as the texts of `isoformat`.
-/

namespace IncidentPipeline.ExtractionRun

open Python
open scoped List

/-- An entry of `_extractions`, as far as the report's own sums and outcomes read it. -/
structure Row where
  status : ExtractionStatus
  validationAttempts : Nat
  usage : Option (Dict Int)
  error : Option String
  createdAt : String
  /-- A dictionary has each key once. -/
  usageKeys : ∀ u ∈ usage, u.keys.Nodup

/-- An entry of `_jobs`. -/
structure JobEntry where
  kind : JobKind
  status : JobStatus
  lastError : Option String
  documentId : Option String
  /-- `jobs_extract_has_document`. -/
  hasDocument : kind = .extract ↔ documentId.isSome

/-- `row["usage"] or {}`. -/
def Row.used (r : Row) : Dict Int := r.usage.getD []

def sumUsage (rows : List Row) : Dict Int := rows.foldl (fun totals r => addUsage totals r.used) []

def JobStatus.value : JobStatus → String
  | .queued => "queued"
  | .running => "running"
  | .succeeded => "succeeded"
  | .deadLetter => "dead_letter"

inductive RunOutcome where
  | complete
  | deadLetter
  | notTerminal
deriving DecidableEq, Repr

/-- An entry of `per_doc`. `usage` is what its tokens and its cost are computed from. -/
structure DocumentReport where
  outcome : RunOutcome
  validationAttempts : Option Nat
  reused : Bool
  extractionRows : Nat
  usage : Dict Int
  cost : Option ℚ
  error : Option String
  extraction : Option Row
  thisRunRows : List Row
  earlierRows : List Row

def cost (usage : Dict Int) (pricing : Option (Dict ℚ)) : Option ℚ :=
  pricing.map fun prices =>
    (prices.map fun entry => (tokens usage entry.1 : ℚ) * entry.2 / 1000000).sum

/-- The running system prices a usage in the same way. -/
theorem cost_eq_costUsd (usage : Dict Int) (pricing : Telemetry.Pricing) :
    cost usage (some (Telemetry.PriceField.all.map fun field =>
      (field.usageKey, pricing.rateFor field))) = Telemetry.costUsd usage (some pricing) := by
  rw [cost, Option.map_some, List.map_map]
  rfl

/-- `next((j for j in jobs if j["kind"] == kind), None)`. -/
def firstJob (kind : JobKind) (jobs : List JobEntry) : Option JobEntry := jobs.find? (·.kind = kind)

/-- All rows of the document that the extract job names. -/
def rowsOf (extractions : String → List Row) (jobs : List JobEntry) : List Row :=
  ((firstJob .extract jobs).bind JobEntry.documentId).elim [] extractions

def perDocument (cutoff : String) (pricing : Option (Dict ℚ)) (extractions : String → List Row)
    (jobs : List JobEntry) : DocumentReport :=
  let ingest := firstJob .ingest jobs
  let extract := firstJob .extract jobs
  let allRows := rowsOf extractions jobs
  let earlierRows := allRows.filter (·.createdAt < cutoff)
  let rows := allRows.filter (cutoff ≤ ·.createdAt)
  let final := rows.getLast?
  let earlierComplete := earlierRows.filter (·.status = .complete)
  let reused := final.isNone && extract.any (·.status = .succeeded) && !earlierComplete.isEmpty
  let final := if reused then earlierComplete.getLast? else final
  let usage := sumUsage rows
  { outcome :=
      if final.any (·.status = .complete) then .complete
      else if (extract.or ingest).any (·.status = .deadLetter) then .deadLetter
      else .notTerminal
    validationAttempts := if reused then none else final.map Row.validationAttempts
    reused := reused
    extractionRows := rows.length
    usage := usage
    cost := cost usage pricing
    error :=
      if final.any (·.status ≠ .complete) then final.bind Row.error
      else
        match extract.filter (·.status = .deadLetter), ingest.filter (·.status ≠ .succeeded) with
        | some j, _ => j.lastError
        | none, some j =>
            some ("ingest " ++ JobStatus.value j.status ++ ": " ++ j.lastError.getD "None")
        | none, none => none
    extraction := final
    thisRunRows := rows.dropLast
    earlierRows := earlierRows }

/-- `summary["total_tokens"]`. -/
def totalTokens (perDoc : List DocumentReport) : Dict Int :=
  sumUsage (perDoc.filterMap DocumentReport.extraction ++ perDoc.flatMap DocumentReport.thisRunRows)

/-- `summary["total_cost_usd"]`. -/
def totalCost (pricing : Option (Dict ℚ)) (perDoc : List DocumentReport) : Option ℚ :=
  pricing.map fun _ => (perDoc.filterMap DocumentReport.cost).sum

/-! ### The totals -/

section Totals

variable {cutoff : String} {pricing : Option (Dict ℚ)} {extractions : String → List Row}
  {jobs : List JobEntry} {rows : List Row} {key : String}

/-- The rows of this run. -/
def thisRun (cutoff : String) (extractions : String → List Row) (jobs : List JobEntry) : List Row :=
  (rowsOf extractions jobs).filter (cutoff ≤ ·.createdAt)

/-- The row of an earlier run that stands in for a document without rows of this run. -/
def standIn (cutoff : String) (extractions : String → List Row) (jobs : List JobEntry) :
    Option Row :=
  if thisRun cutoff extractions jobs = [] ∧ (firstJob .extract jobs).any (·.status = .succeeded) then
    ((rowsOf extractions jobs).filter fun r =>
      r.createdAt < cutoff && r.status = .complete).getLast?
  else none

/-- The tokens of one kind that the rows have used together. -/
def tokensOfRows (rows : List Row) (key : String) : Int := (rows.map fun r => tokens r.used key).sum

theorem tokens_sumUsage (rows : List Row) (key : String) :
    tokens (sumUsage rows) key = tokensOfRows rows key := by
  have dicts : ∀ u ∈ rows.map Row.used, u.keys.Nodup := by
    intro u hu
    obtain ⟨r, _, rfl⟩ := List.mem_map.mp hu
    rw [Row.used]
    cases given : r.usage with
    | none => exact List.nodup_nil
    | some u => exact r.usageKeys u given
  have sums := tokens_foldl_addUsage dicts [] key
  rw [List.foldl_map, List.map_map] at sums
  exact sums.trans (zero_add _)

/-- The rows whose usage enters the total for a document are its rows of this run and the
row that stands in for them. -/
theorem perDocument_rows (cutoff : String) (pricing : Option (Dict ℚ))
    (extractions : String → List Row) (jobs : List JobEntry) :
    (perDocument cutoff pricing extractions jobs).extraction.toList ++
        (perDocument cutoff pricing extractions jobs).thisRunRows ~
      thisRun cutoff extractions jobs ++ (standIn cutoff extractions jobs).toList := by
  have earlier : ((rowsOf extractions jobs).filter (·.createdAt < cutoff)).filter
      (·.status = .complete) =
        (rowsOf extractions jobs).filter fun r =>
          r.createdAt < cutoff && r.status = .complete := by
    rw [List.filter_filter]
    exact List.filter_congr fun r _ => Bool.and_comm _ _
  simp only [perDocument]
  rw [← thisRun, earlier, standIn]
  obtain none_new | ⟨rest, last, split⟩ := List.eq_nil_or_concat (thisRun cutoff extractions jobs)
  · rw [none_new]
    generalize ((rowsOf extractions jobs).filter fun r =>
      r.createdAt < cutoff && r.status = .complete) = complete
    by_cases succeeded : (firstJob .extract jobs).any (·.status = .succeeded)
    · cases complete with
      | nil => simp
      | cons r rest => simp [succeeded]
    · simp [succeeded]
  · rw [List.concat_eq_append] at split
    have final : (thisRun cutoff extractions jobs).getLast? = some last := by
      rw [split, List.getLast?_concat]
    have some_new : thisRun cutoff extractions jobs ≠ [] := by
      rw [split]
      exact List.append_ne_nil_of_right_ne_nil rest (List.cons_ne_nil last [])
    simp only [final, some_new, Option.isNone_some, Bool.false_and, false_and, if_false,
      Bool.false_eq_true, Option.toList, List.append_nil]
    rw [split, List.dropLast_concat]
    exact List.perm_append_comm

/-- The rows that the total is computed from. -/
theorem totalRows_perm (cutoff : String) (pricing : Option (Dict ℚ))
    (extractions : String → List Row) (docs : List (List JobEntry)) :
    (docs.map (perDocument cutoff pricing extractions)).filterMap DocumentReport.extraction ++
        (docs.map (perDocument cutoff pricing extractions)).flatMap DocumentReport.thisRunRows ~
      docs.flatMap (thisRun cutoff extractions) ++
        docs.flatMap fun jobs => (standIn cutoff extractions jobs).toList := by
  rw [List.filterMap_eq_flatMap_toList, List.flatMap_map, List.flatMap_map]
  calc
    _ ~ docs.flatMap fun jobs =>
          (perDocument cutoff pricing extractions jobs).extraction.toList ++
            (perDocument cutoff pricing extractions jobs).thisRunRows :=
      List.flatMap_append_perm docs _ _
    _ ~ docs.flatMap fun jobs =>
          thisRun cutoff extractions jobs ++ (standIn cutoff extractions jobs).toList :=
      List.Perm.flatMap_left docs fun jobs _ => perDocument_rows cutoff pricing extractions jobs
    _ ~ _ := (List.flatMap_append_perm docs _ _).symm

theorem tokensOfRows_append (rows more : List Row) (key : String) :
    tokensOfRows (rows ++ more) key = tokensOfRows rows key + tokensOfRows more key := by
  rw [tokensOfRows, List.map_append, List.sum_append]
  rfl

theorem tokensOfRows_flatMap (docs : List (List JobEntry)) (rows : List JobEntry → List Row)
    (key : String) :
    tokensOfRows (docs.flatMap rows) key =
      (docs.map fun jobs => tokensOfRows (rows jobs) key).sum := by
  induction docs with
  | nil => rfl
  | cons jobs rest ih =>
      rw [List.flatMap_cons, tokensOfRows_append, ih, List.map_cons, List.sum_cons]

/-- The tokens of the rows of this run, over all documents. -/
def tokensOfThisRun (cutoff : String) (extractions : String → List Row)
    (docs : List (List JobEntry)) (key : String) : Int :=
  (docs.map fun jobs => tokensOfRows (thisRun cutoff extractions jobs) key).sum

/-- The tokens of the rows that stand in for documents without rows of this run. -/
def tokensOfStandIns (cutoff : String) (extractions : String → List Row)
    (docs : List (List JobEntry)) (key : String) : Int :=
  (docs.map fun jobs => tokensOfRows (standIn cutoff extractions jobs).toList key).sum

/-- The total exceeds the tokens of this run by those of the rows that stand in. -/
theorem tokens_totalTokens (cutoff : String) (pricing : Option (Dict ℚ))
    (extractions : String → List Row) (docs : List (List JobEntry)) (key : String) :
    tokens (totalTokens (docs.map (perDocument cutoff pricing extractions))) key =
      tokensOfThisRun cutoff extractions docs key +
        tokensOfStandIns cutoff extractions docs key := by
  have same := (totalRows_perm cutoff pricing extractions docs).map fun r => tokens r.used key
  calc
    tokens (totalTokens (docs.map (perDocument cutoff pricing extractions))) key =
        tokensOfRows _ key := tokens_sumUsage _ key
    _ = tokensOfRows (docs.flatMap (thisRun cutoff extractions) ++
          docs.flatMap fun jobs => (standIn cutoff extractions jobs).toList) key := same.sum_eq
    _ = _ := by
      rw [tokensOfRows_append, tokensOfRows_flatMap docs, tokensOfRows_flatMap docs]
      rfl

/-- What a document reports of its own is computed from its rows of this run. -/
theorem perDocument_usage (cutoff : String) (pricing : Option (Dict ℚ))
    (extractions : String → List Row) (jobs : List JobEntry) :
    (∀ key, tokens (perDocument cutoff pricing extractions jobs).usage key =
        tokensOfRows (thisRun cutoff extractions jobs) key) ∧
      (perDocument cutoff pricing extractions jobs).cost =
        cost (sumUsage (thisRun cutoff extractions jobs)) pricing :=
  ⟨tokens_sumUsage _, rfl⟩

/-- The total is what the rows of this run have used, from which each document's own tokens
and cost are computed, exactly if the rows that stand in add up to nothing. -/
theorem totalTokens_iff (cutoff : String) (pricing : Option (Dict ℚ))
    (extractions : String → List Row) (docs : List (List JobEntry)) :
    ((∀ key, tokens (totalTokens (docs.map (perDocument cutoff pricing extractions))) key =
        tokensOfThisRun cutoff extractions docs key) ∧
      ∀ jobs ∈ docs,
        (∀ key, tokens (perDocument cutoff pricing extractions jobs).usage key =
            tokensOfRows (thisRun cutoff extractions jobs) key) ∧
          (perDocument cutoff pricing extractions jobs).cost =
            cost (sumUsage (thisRun cutoff extractions jobs)) pricing) ↔
      ∀ key, tokensOfStandIns cutoff extractions docs key = 0 := by
  constructor
  · rintro ⟨total, -⟩ key
    have exceeds := tokens_totalTokens cutoff pricing extractions docs key
    rw [total key] at exceeds
    exact add_eq_left.mp exceeds.symm
  · intro nothing
    refine ⟨fun key => ?_, fun jobs _ => perDocument_usage cutoff pricing extractions jobs⟩
    rw [tokens_totalTokens, nothing key, add_zero]

/-- The total cost, on the other hand, is that of the rows of this run in any case. -/
theorem totalCost_eq (cutoff : String) (prices : Dict ℚ) (extractions : String → List Row)
    (docs : List (List JobEntry)) :
    totalCost (some prices) (docs.map (perDocument cutoff (some prices) extractions)) =
      some ((prices.map fun entry =>
        (tokensOfThisRun cutoff extractions docs entry.1 : ℚ) * entry.2 / 1000000).sum) := by
  rw [totalCost, Option.map_some, List.filterMap_map]
  apply congrArg some
  induction docs with
  | nil => simp [tokensOfThisRun]
  | cons jobs rest ih =>
      have first : (DocumentReport.cost ∘ perDocument cutoff (some prices) extractions) jobs =
          some ((prices.map fun entry =>
            (tokensOfRows (thisRun cutoff extractions jobs) entry.1 : ℚ) * entry.2 /
              1000000).sum) := by
        rw [Function.comp_apply, (perDocument_usage cutoff (some prices) extractions jobs).2]
        simp only [cost, Option.map_some, tokens_sumUsage]
      have split : ∀ key, tokensOfThisRun cutoff extractions (jobs :: rest) key =
          tokensOfRows (thisRun cutoff extractions jobs) key +
            tokensOfThisRun cutoff extractions rest key := fun key => List.sum_cons
      rw [List.filterMap_cons_some first, List.sum_cons, ih, ← List.sum_map_add]
      refine congrArg List.sum (List.map_congr_left fun entry _ => ?_)
      rw [split, Int.cast_add]
      ring

end Totals

/-! A document that an earlier run has extracted, and for which this run wrote nothing. -/

def earlierRow : Row where
  status := .complete
  validationAttempts := 1
  usage := some [("input_tokens", 100)]
  error := none
  createdAt := "2026-01-01T00:00:00+00:00"
  usageKeys := by
    rintro u ⟨⟩
    exact List.nodup_singleton "input_tokens"

def duplicateJob : JobEntry where
  kind := .extract
  status := .succeeded
  lastError := none
  documentId := some "d"
  hasDocument := iff_of_true rfl rfl

theorem totalTokens_duplicate :
    (perDocument "2026-02-01T00:00:00+00:00" none (fun _ => [earlierRow])
        [duplicateJob]).reused = true ∧
      ¬ ∀ key, tokens (totalTokens ([[duplicateJob]].map
            (perDocument "2026-02-01T00:00:00+00:00" none fun _ => [earlierRow]))) key =
          tokensOfThisRun "2026-02-01T00:00:00+00:00" (fun _ => [earlierRow])
            [[duplicateJob]] key := by
  refine ⟨by decide, fun total => ?_⟩
  have inputs := total "input_tokens"
  revert inputs
  decide

end IncidentPipeline.ExtractionRun
