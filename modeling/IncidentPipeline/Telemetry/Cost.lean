import IncidentPipeline.Extract.Billing
import Mathlib.Data.List.Dedup

/-!
# Cost per document

Costs are computed from the stored token counts at the four configured prices, here with
exact numbers. `costSummary` divides by the number of extraction rows, and a document can
have several of these.
-/

namespace IncidentPipeline.Telemetry

open Python

/-- The keys of `_PRICE_FIELDS`. -/
inductive PriceField where
  | inputTokens
  | outputTokens
  | cacheReadInputTokens
  | cacheCreationInputTokens
deriving DecidableEq, Repr

namespace PriceField

/-- In the order of `_PRICE_FIELDS`. -/
def all : List PriceField :=
  [inputTokens, outputTokens, cacheReadInputTokens, cacheCreationInputTokens]

def usageKey : PriceField → String
  | inputTokens => "input_tokens"
  | outputTokens => "output_tokens"
  | cacheReadInputTokens => "cache_read_input_tokens"
  | cacheCreationInputTokens => "cache_creation_input_tokens"

end PriceField

structure Pricing where
  inputUsdPerMtok : ℚ
  outputUsdPerMtok : ℚ
  cacheReadUsdPerMtok : ℚ
  cacheWriteUsdPerMtok : ℚ

def Pricing.rateFor (pricing : Pricing) : PriceField → ℚ
  | .inputTokens => pricing.inputUsdPerMtok
  | .outputTokens => pricing.outputUsdPerMtok
  | .cacheReadInputTokens => pricing.cacheReadUsdPerMtok
  | .cacheCreationInputTokens => pricing.cacheWriteUsdPerMtok

/-- The prices among the settings. -/
structure PriceSettings where
  priceInputUsdPerMtok : Option ℚ
  priceOutputUsdPerMtok : Option ℚ
  priceCacheReadUsdPerMtok : Option ℚ
  priceCacheWriteUsdPerMtok : Option ℚ

def pricingFromSettings (settings : PriceSettings) : Option Pricing := do
  let input ← settings.priceInputUsdPerMtok
  let output ← settings.priceOutputUsdPerMtok
  let cacheRead ← settings.priceCacheReadUsdPerMtok
  let cacheWrite ← settings.priceCacheWriteUsdPerMtok
  return ⟨input, output, cacheRead, cacheWrite⟩

/-- There is a pricing only if all four prices are set. -/
theorem pricingFromSettings_eq_some_iff {settings : PriceSettings} {pricing : Pricing} :
    pricingFromSettings settings = some pricing ↔
      settings.priceInputUsdPerMtok = some pricing.inputUsdPerMtok ∧
        settings.priceOutputUsdPerMtok = some pricing.outputUsdPerMtok ∧
        settings.priceCacheReadUsdPerMtok = some pricing.cacheReadUsdPerMtok ∧
        settings.priceCacheWriteUsdPerMtok = some pricing.cacheWriteUsdPerMtok := by
  obtain ⟨input, output, cacheRead, cacheWrite⟩ := settings
  obtain ⟨i, o, r, w⟩ := pricing
  constructor
  · intro priced
    cases input <;> cases output <;> cases cacheRead <;> cases cacheWrite <;> cases priced
    exact ⟨rfl, rfl, rfl, rfl⟩
  · rintro ⟨⟨⟩, ⟨⟩, ⟨⟩, ⟨⟩⟩
    rfl

def costUsd (usage : Dict Int) (pricing : Option Pricing) : Option ℚ :=
  pricing.map fun p =>
    (PriceField.all.map fun field => (tokens usage field.usageKey : ℚ) * p.rateFor field /
      1000000).sum

structure CostSummary where
  priced : Bool
  totalUsd : Option ℚ
  documentsPriced : Nat
  meanUsdPerDocument : Option ℚ
deriving DecidableEq, Repr

/-- The rows of `SELECT ... FROM extractions`, of one run if there is a `run_id`. -/
def selectedRows (extractions : List Extraction) (runId : Option String) : List Extraction :=
  extractions.filter fun row => runId.all (row.runId = ·)

def costSummary (extractions : List Extraction) (pricing : Option Pricing)
    (runId : Option String) : CostSummary :=
  match pricing with
  | none => ⟨false, none, 0, none⟩
  | some p =>
      let costs := (selectedRows extractions runId).filterMap fun row => costUsd row.usage (some p)
      if costs = [] then ⟨true, some 0, 0, none⟩
      else ⟨true, some costs.sum, costs.length, some (costs.sum / costs.length)⟩

/-! ### The total and the mean -/

/-- The usage of the rows priced key by key. -/
def pricedUsage (pricing : Pricing) (rows : List Extraction) : ℚ :=
  (rows.map fun row => (PriceField.all.map fun field =>
    (tokens row.usage field.usageKey : ℚ) * pricing.rateFor field / 1000000).sum).sum

def distinctDocuments (rows : List Extraction) : Nat :=
  (rows.map Extraction.documentId).dedup.length

section Summary

variable {extractions : List Extraction} {pricing : Pricing} {runId : Option String}

theorem costs_eq (rows : List Extraction) (pricing : Pricing) :
    rows.filterMap (fun row => costUsd row.usage (some pricing)) =
      rows.map fun row => (PriceField.all.map fun field =>
        (tokens row.usage field.usageKey : ℚ) * pricing.rateFor field / 1000000).sum := by
  induction rows with
  | nil => rfl
  | cons row rest ih => exact congrArg (_ :: ·) ih

/-- The summary in terms of the selected rows. -/
theorem costSummary_some (extractions : List Extraction) (pricing : Pricing)
    (runId : Option String) :
    costSummary extractions (some pricing) runId =
      let rows := selectedRows extractions runId
      ⟨true, some (pricedUsage pricing rows), rows.length,
        if rows = [] then none else some (pricedUsage pricing rows / rows.length)⟩ := by
  simp only [costSummary, costs_eq, List.map_eq_nil_iff, List.length_map]
  by_cases none_selected : selectedRows extractions runId = []
  · rw [if_pos none_selected, none_selected]
    rfl
  · rw [if_neg none_selected, if_neg none_selected]
    rfl

theorem distinctDocuments_eq_length_iff (rows : List Extraction) :
    distinctDocuments rows = rows.length ↔ (rows.map Extraction.documentId).Nodup := by
  have ids : rows.length = (rows.map Extraction.documentId).length := (List.length_map _).symm
  rw [distinctDocuments, ids, ← List.dedup_eq_self]
  exact ⟨(List.dedup_sublist _).eq_of_length, congrArg List.length⟩

/-- A mean over `n` is a mean over `d` only if `n = d` or there is nothing to divide. -/
theorem div_mul_eq_self_iff {total : ℚ} {n d : Nat} (some_rows : n ≠ 0) :
    total / n * d = total ↔ d = n ∨ total = 0 := by
  have rows_ne : (n : ℚ) ≠ 0 := Nat.cast_ne_zero.mpr some_rows
  rw [div_mul_eq_mul_div, div_eq_iff rows_ne]
  constructor
  · intro same
    by_cases nothing : total = 0
    · exact .inr nothing
    · exact .inl (Nat.cast_injective (mul_left_cancel₀ nothing same))
  · rintro (same | nothing)
    · rw [same]
    · rw [nothing, zero_mul, zero_mul]

/-- The total is that of the selected rows, and the mean makes it up over the documents,
exactly if no document has two selected rows or nothing was spent. -/
theorem costSummary_iff (extractions : List Extraction) (pricing : Pricing)
    (runId : Option String) :
    ((costSummary extractions (some pricing) runId).totalUsd =
        some (pricedUsage pricing (selectedRows extractions runId)) ∧
      ∀ mean ∈ (costSummary extractions (some pricing) runId).meanUsdPerDocument,
        mean * distinctDocuments (selectedRows extractions runId) =
          pricedUsage pricing (selectedRows extractions runId)) ↔
      ((selectedRows extractions runId).map Extraction.documentId).Nodup ∨
        pricedUsage pricing (selectedRows extractions runId) = 0 := by
  rw [costSummary_some]
  generalize selectedRows extractions runId = rows
  dsimp only
  cases rows with
  | nil => simp
  | cons row rest =>
      have some_rows : (row :: rest).length ≠ 0 := Nat.succ_ne_zero rest.length
      rw [if_neg (List.cons_ne_nil row rest), ← distinctDocuments_eq_length_iff,
        ← div_mul_eq_self_iff some_rows]
      simp only [true_and, Option.mem_some_iff, forall_eq']

end Summary

/-! A document that failed once and succeeded then, at one dollar per million input tokens. -/

def failedRow : Extraction := { refusalRow with usage := [("input_tokens", 1000000)] }

def completeRow : Extraction :=
  { failedRow with
    id := 4
    status := .complete
    record := some (.obj [])
    error := none
    errorKind := none }

theorem costSummary_retried :
    costSummary [failedRow, completeRow] (some ⟨1, 0, 0, 0⟩) none = ⟨true, some 2, 2, some 1⟩ ∧
      distinctDocuments (selectedRows [failedRow, completeRow] none) = 1 ∧
      ¬ ∀ mean ∈ (costSummary [failedRow, completeRow] (some ⟨1, 0, 0, 0⟩)
          none).meanUsdPerDocument,
        mean * distinctDocuments (selectedRows [failedRow, completeRow] none) =
          pricedUsage ⟨1, 0, 0, 0⟩ (selectedRows [failedRow, completeRow] none) := by
  have priced : pricedUsage ⟨1, 0, 0, 0⟩ (selectedRows [failedRow, completeRow] none) = 2 := by
    decide +kernel
  have documents : distinctDocuments (selectedRows [failedRow, completeRow] none) = 1 := by decide
  have summary : costSummary [failedRow, completeRow] (some ⟨1, 0, 0, 0⟩) none =
      ⟨true, some 2, 2, some 1⟩ := by decide +kernel
  refine ⟨summary, documents, fun exact_mean => ?_⟩
  rw [summary, documents, priced] at exact_mean
  have once := exact_mean 1 rfl
  norm_num at once

end IncidentPipeline.Telemetry
