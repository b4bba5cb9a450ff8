import IncidentPipeline.Foundation.Exposition
import IncidentPipeline.Review.Queries
import IncidentPipeline.Telemetry.Cost

/-!
# The metrics of a process

`telemetry/metrics`: numbers that are computed from the tables at every scrape, and two histograms
that the process itself keeps. How a float is printed is a parameter. A histogram whose counts
do not go with its bounds cannot be built, so rendering one never raises.
-/

namespace IncidentPipeline.Telemetry

open Python Transactions

/-! ### Histograms -/

/-- `_Histogram`: how many values were at most each bound. -/
structure Histogram where
  buckets : List Nat
  bucketCounts : List Nat
  count : Nat
  sum : ℚ
  aligned : bucketCounts.length = buckets.length

namespace Histogram

def new (buckets : List Nat) : Histogram :=
  ⟨buckets, List.replicate buckets.length 0, 0, 0, List.length_replicate⟩

def observe (h : Histogram) (value : ℚ) : Histogram where
  buckets := h.buckets
  bucketCounts := List.zipWith (fun (bound n : Nat) => if value ≤ bound then n + 1 else n)
    h.buckets h.bucketCounts
  count := h.count + 1
  sum := h.sum + value
  aligned := by simp [h.aligned]

def render (showFloat : ℚ → String) (h : Histogram) (name helpText : String) : List String :=
  ["# HELP " ++ name ++ " " ++ helpText, "# TYPE " ++ name ++ " histogram"] ++
    (h.buckets.zip h.bucketCounts).map (fun (bound, cumulative) =>
      name ++ "_bucket\x7ble=\"" ++ Nat.repr bound ++ "\"\x7d " ++ Nat.repr cumulative) ++
    [name ++ "_bucket\x7ble=\"+Inf\"\x7d " ++ Nat.repr h.count, name ++ "_sum " ++ showFloat h.sum,
      name ++ "_count " ++ Nat.repr h.count]

end Histogram

def latencyBucketsSeconds : List Nat := [1, 2, 5, 10, 20, 30, 60, 120, 300, 600]

def attemptsBuckets : List Nat := [1, 2, 3, 4, 5]

/-- The histograms of one process. -/
structure Process where
  extractionLatencySeconds : Histogram
  validationAttempts : Histogram

def Process.start : Process := ⟨.new latencyBucketsSeconds, .new attemptsBuckets⟩

/-- A finished extraction. -/
structure Observation where
  durationSeconds : ℚ
  attempts : Nat

def Process.recordExtraction (process : Process) (o : Observation) : Process :=
  ⟨process.extractionLatencySeconds.observe o.durationSeconds,
    process.validationAttempts.observe o.attempts⟩

/-! ### Gauges -/

def gauge (name helpText value : String) : List String :=
  ["# HELP " ++ name ++ " " ++ helpText, "# TYPE " ++ name ++ " gauge", name ++ " " ++ value]

/-- `value if value is not None else "NaN"`. -/
def orNaN (showFloat : ℚ → String) (value : Option ℚ) : String :=
  (value.map showFloat).getD "NaN"

/-- `sorted(values.items())`, where no key occurs twice. -/
def sortedItems (values : Dict Nat) : Dict Nat := values.mergeSort fun a b => a.1 ≤ b.1

def gaugeFamily (name helpText label : String) (values : Dict Nat) : List String :=
  ["# HELP " ++ name ++ " " ++ helpText, "# TYPE " ++ name ++ " gauge"] ++
    (sortedItems values).map fun (key, value) =>
      name ++ "\x7b" ++ label ++ "=\"" ++ key ++ "\"\x7d " ++ Nat.repr value

/-! ### What the tables say -/

/-- `SELECT key, count(*) ... GROUP BY key` over the keys of the rows. -/
def counts (keys : List String) : Dict Nat := keys.dedup.map fun key => (key, keys.count key)

def jobStatusText : JobStatus → String
  | .queued => "queued"
  | .running => "running"
  | .succeeded => "succeeded"
  | .deadLetter => "dead_letter"

def extractionStatusText : ExtractionStatus → String
  | .complete => "complete"
  | .failed => "failed"

/-- The status of the latest extraction of a document. -/
def documentStatus (d : Database) (document : Document) : String :=
  match ((d.extractions.filter (·.documentId = document.id)).mergeSort
      fun a b => b.createdAt ≤ a.createdAt).head? with
  | none => "pending"
  | some latest => extractionStatusText latest.status

def documentStatusCounts (d : Database) : Dict Nat := counts (d.documents.map (documentStatus d))

def jobStatusCounts (d : Database) : Dict Nat := counts (d.jobs.map (jobStatusText ·.status))

/-! ### The body of `/metrics` -/

/-- What a scrape puts together. -/
structure Scrape where
  documentsByStatus : Dict Nat
  jobsByState : Dict Nat
  reviewQueueDepth : Nat
  process : Process
  cost : CostSummary

def Scrape.lines (showFloat : ℚ → String) (s : Scrape) : List String :=
  gaugeFamily "documents_total"
      "Documents by extraction status (complete/failed/pending: no extraction row yet)." "status"
      s.documentsByStatus ++
    gaugeFamily "jobs_total" "Jobs by queue state." "status" s.jobsByState ++
    gauge "queue_depth" "Jobs currently queued (not yet claimed)."
      (Nat.repr ((s.jobsByState.get? "queued").getD 0)) ++
    gauge "dead_letter_total" "Jobs that exhausted retries or failed permanently."
      (Nat.repr ((s.jobsByState.get? "dead_letter").getD 0)) ++
    gauge "review_queue_depth" "Fields routed for human review, awaiting a decision."
      (Nat.repr s.reviewQueueDepth) ++
    s.process.extractionLatencySeconds.render showFloat "extraction_latency_seconds"
      "Wall-clock duration of extract_document calls in this process." ++
    s.process.validationAttempts.render showFloat "extraction_validation_attempts"
      "Validate-and-retry attempts per finished extraction in this process." ++
    gauge "cost_per_document_usd_mean"
      "Mean cost per document across all priced extractions (null/absent if PRICE_* unset)."
      (orNaN showFloat s.cost.meanUsdPerDocument) ++
    gauge "cost_total_usd" "Total cost across all priced extractions."
      (orNaN showFloat s.cost.totalUsd) ++
    gauge "cost_documents_priced_total" "Extractions with token usage that could be priced."
      (Nat.repr s.cost.documentsPriced)

/-- `"\n".join(lines) + "\n"`. -/
def Scrape.body (showFloat : ℚ → String) (s : Scrape) : String :=
  "\n".intercalate (s.lines showFloat) ++ "\n"

/-- `cost_summary` sends nothing without a pricing. -/
def readCostSummary (pricing : Option Pricing) : Db CostSummary :=
  match pricing with
  | none => .ret (.ok (costSummary [] none none))
  | some p => .execute (select [] fun d => costSummary d.extractions (some p) none)

def renderMetrics (showFloat : ℚ → String) (prices : PriceSettings) (process : Process) :
    Db String := do
  let documentsByStatus ← .execute (select [] documentStatusCounts)
  let jobsByState ← .execute (select [] jobStatusCounts)
  let reviewQueueDepth ← queueSize
  let cost ← readCostSummary (pricingFromSettings prices)
  return (⟨documentsByStatus, jobsByState, reviewQueueDepth, process, cost⟩ : Scrape).body showFloat

end IncidentPipeline.Telemetry
