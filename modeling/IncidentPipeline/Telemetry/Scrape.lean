import IncidentPipeline.Review.Surface
import IncidentPipeline.Telemetry.Metrics
import IncidentPipeline.Worker.Progress

/-!
# What a scrape tells

The body of `/metrics` is an exposition of families, and what a scraper reads there are the
numbers of rows in the tables and of the extractions that the process has finished. The
statements of a scrape may see different tables, since others commit between them.
-/

namespace IncidentPipeline.Telemetry

open Python Tables Transactions

/-! ### Histograms -/

namespace Histogram

/-- The histogram of a list of values. -/
def ofValues (buckets : List Nat) (values : List ℚ) : Histogram where
  buckets := buckets
  bucketCounts := buckets.map fun (bound : Nat) => values.countP (· ≤ (bound : ℚ))
  count := values.length
  sum := values.sum
  aligned := List.length_map _

theorem new_eq (buckets : List Nat) : new buckets = ofValues buckets [] := by
  simp [new, ofValues, List.map_const']

theorem observe_ofValues (buckets : List Nat) (values : List ℚ) (value : ℚ) :
    (ofValues buckets values).observe value = ofValues buckets (values ++ [value]) := by
  have counted : ∀ bounds : List Nat,
      List.zipWith (fun (bound n : Nat) => if value ≤ bound then n + 1 else n) bounds
        (bounds.map fun (bound : Nat) => values.countP (· ≤ (bound : ℚ))) =
      bounds.map fun (bound : Nat) => (values ++ [value]).countP (· ≤ (bound : ℚ)) := by
    intro bounds
    rw [List.zipWith_map_right, List.zipWith_self]
    refine List.map_congr_left fun bound _ => ?_
    rw [List.countP_append]
    by_cases low : value ≤ bound <;> simp [low]
  simp [observe, ofValues, counted]

/-- The counts of growing bounds grow up to the count of all values. -/
theorem cumulative_ofValues {buckets : List Nat} (sorted : buckets.Pairwise (· ≤ ·))
    (values : List ℚ) :
    ((ofValues buckets values).bucketCounts ++ [(ofValues buckets values).count]).Pairwise
      (· ≤ ·) := by
  rw [List.pairwise_append]
  refine ⟨List.pairwise_map.mpr (sorted.imp fun {a b} le => ?_), List.pairwise_singleton _ _, ?_⟩
  · refine List.countP_mono_left fun value _ low => ?_
    have bound : value ≤ (a : ℚ) := by simpa using low
    simpa using bound.trans (Nat.cast_le.mpr le)
  · intro n member m last
    obtain ⟨bound, _, rfl⟩ := List.mem_map.mp member
    obtain rfl := List.mem_singleton.mp last
    exact List.countP_le_length

end Histogram

/-- The process after some extractions. -/
def Process.after (observations : List Observation) : Process :=
  observations.foldl Process.recordExtraction Process.start

theorem Process.after_eq (observations : List Observation) :
    Process.after observations =
      ⟨.ofValues latencyBucketsSeconds (observations.map Observation.durationSeconds),
        .ofValues attemptsBuckets (observations.map fun o => (o.attempts : ℚ))⟩ := by
  induction observations using List.reverseRecOn with
  | nil => simp [Process.after, Process.start, Histogram.new_eq]
  | append_singleton earlier o ih =>
      rw [Process.after] at ih ⊢
      rw [List.foldl_append, ih]
      simp [Process.recordExtraction, Histogram.observe_ofValues]

/-! ### The families of a scrape -/

open Exposition (Family Sample)

def plainSample (name value : String) : Sample := ⟨name.toList, none, value.toList⟩

def labelledSample (name label key value : String) : Sample :=
  ⟨name.toList, some (label.toList, key.toList), value.toList⟩

def gaugeOf (name helpText value : String) : Family :=
  ⟨name.toList, helpText.toList, "gauge".toList, [plainSample name value]⟩

def gaugeFamilyOf (name helpText label : String) (values : Dict Nat) : Family :=
  ⟨name.toList, helpText.toList, "gauge".toList,
    (sortedItems values).map fun (key, value) => labelledSample name label key (Nat.repr value)⟩

def Histogram.family (showFloat : ℚ → String) (h : Histogram) (name helpText : String) : Family :=
  ⟨name.toList, helpText.toList, "histogram".toList,
    (h.buckets.zip h.bucketCounts).map (fun (bound, cumulative) =>
      labelledSample (name ++ "_bucket") "le" (Nat.repr bound) (Nat.repr cumulative)) ++
    [labelledSample (name ++ "_bucket") "le" "+Inf" (Nat.repr h.count),
      plainSample (name ++ "_sum") (showFloat h.sum),
      plainSample (name ++ "_count") (Nat.repr h.count)]⟩

theorem gauge_lines (name helpText value : String) :
    (gauge name helpText value).map String.toList = (gaugeOf name helpText value).lines := by
  simp [gauge, gaugeOf, Family.lines, plainSample, Sample.line, Exposition.helpMark,
    Exposition.typeMark]

theorem gaugeFamily_lines (name helpText label : String) (values : Dict Nat) :
    (gaugeFamily name helpText label values).map String.toList =
      (gaugeFamilyOf name helpText label values).lines := by
  simp [gaugeFamily, gaugeFamilyOf, Family.lines, labelledSample, Sample.line, Exposition.helpMark,
    Exposition.typeMark]

theorem Histogram.render_lines (showFloat : ℚ → String) (h : Histogram) (name helpText : String) :
    (h.render showFloat name helpText).map String.toList =
      (h.family showFloat name helpText).lines := by
  simp [Histogram.render, Histogram.family, Family.lines, labelledSample, plainSample, Sample.line,
    Exposition.helpMark, Exposition.typeMark]

def Scrape.families (showFloat : ℚ → String) (s : Scrape) : List Family :=
  [gaugeFamilyOf "documents_total"
      "Documents by extraction status (complete/failed/pending: no extraction row yet)." "status"
      s.documentsByStatus,
    gaugeFamilyOf "jobs_total" "Jobs by queue state." "status" s.jobsByState,
    gaugeOf "queue_depth" "Jobs currently queued (not yet claimed)."
      (Nat.repr ((s.jobsByState.get? "queued").getD 0)),
    gaugeOf "dead_letter_total" "Jobs that exhausted retries or failed permanently."
      (Nat.repr ((s.jobsByState.get? "dead_letter").getD 0)),
    gaugeOf "review_queue_depth" "Fields routed for human review, awaiting a decision."
      (Nat.repr s.reviewQueueDepth),
    s.process.extractionLatencySeconds.family showFloat "extraction_latency_seconds"
      "Wall-clock duration of extract_document calls in this process.",
    s.process.validationAttempts.family showFloat "extraction_validation_attempts"
      "Validate-and-retry attempts per finished extraction in this process.",
    gaugeOf "cost_per_document_usd_mean"
      "Mean cost per document across all priced extractions (null/absent if PRICE_* unset)."
      (orNaN showFloat s.cost.meanUsdPerDocument),
    gaugeOf "cost_total_usd" "Total cost across all priced extractions."
      (orNaN showFloat s.cost.totalUsd),
    gaugeOf "cost_documents_priced_total" "Extractions with token usage that could be priced."
      (Nat.repr s.cost.documentsPriced)]

theorem Scrape.lines_eq (showFloat : ℚ → String) (s : Scrape) :
    (s.lines showFloat).map String.toList = (s.families showFloat).flatMap Family.lines := by
  simp only [Scrape.lines, Scrape.families, List.map_append, gaugeFamily_lines, gauge_lines,
    Histogram.render_lines, List.flatMap_cons, List.flatMap_nil, List.append_nil, List.append_assoc]

/-- Lines that are joined and ended are each ended. -/
theorem toList_ended {ls : List String} (nonempty : ls ≠ []) :
    ("\n".intercalate ls ++ "\n").toList = (ls.map String.toList).flatMap (· ++ ['\n']) := by
  have joined : ∀ texts : List (List Char), texts ≠ [] →
      ['\n'].intercalate texts ++ ['\n'] = texts.flatMap (· ++ ['\n']) := by
    intro texts some_
    induction texts with
    | nil => exact absurd rfl some_
    | cons text texts ih =>
        cases texts with
        | nil => simp
        | cons next texts =>
            rw [List.intercalate_cons_cons, List.append_assoc, ih (List.cons_ne_nil next texts)]
            simp
  rw [String.toList_append, String.toList_intercalate]
  exact joined _ (by simpa using nonempty)

theorem Scrape.body_eq (showFloat : ℚ → String) (s : Scrape) :
    (s.body showFloat).toList = Exposition.text (s.families showFloat) := by
  have nonempty : s.lines showFloat ≠ [] := by simp [Scrape.lines, gaugeFamily]
  rw [Scrape.body, toList_ended nonempty, Scrape.lines_eq, Exposition.text]

/-! ### Reading the families back -/

theorem newline_notMem_repr (n : Nat) : '\n' ∉ (Nat.repr n).toList := by
  intro member
  have digit := isDigit_of_mem_repr member
  revert digit
  decide

theorem quote_notMem_repr (n : Nat) : '"' ∉ (Nat.repr n).toList := by
  intro member
  have digit := isDigit_of_mem_repr member
  revert digit
  decide

theorem newline_notMem_gauge : '\n' ∉ "gauge".toList := by decide

theorem newline_notMem_histogram : '\n' ∉ "histogram".toList := by decide

/-- A text that can stand as the value of a label. -/
def LabelText (key : String) : Prop := ∀ c ∈ key.toList, c ≠ '"' ∧ c ≠ '\n'

-- By the characters of the text, not by all characters there are.
instance (key : String) : Decidable (LabelText key) :=
  List.decidableBAll _ _

theorem labelText_repr (n : Nat) : LabelText (Nat.repr n) := by
  intro c member
  constructor
  · rintro rfl
    exact quote_notMem_repr n member
  · rintro rfl
    exact newline_notMem_repr n member

/-- A name of a sample. -/
def NameText (name : String) : Prop :=
  name.toList ≠ [] ∧ ∀ c ∈ name.toList, Exposition.isNameChar c = true

instance (name : String) : Decidable (NameText name) :=
  @instDecidableAnd _ _ inferInstance (List.decidableBAll _ _)

theorem plainSample_wellFormed {name value : String} (named : NameText name)
    (plain : '\n' ∉ value.toList) : (plainSample name value).WellFormed :=
  ⟨named.1, named.2, (fun _ _ absent => by cases absent), plain⟩

theorem labelledSample_wellFormed {name label key value : String} (named : NameText name)
    (labelled : NameText label) (keyed : LabelText key) (plain : '\n' ∉ value.toList) :
    (labelledSample name label key value).WellFormed :=
  ⟨named.1, named.2, (fun _ _ same => by cases same; exact ⟨labelled.2, keyed⟩), plain⟩

theorem gaugeOf_wellFormed {name helpText value : String} (named : NameText name)
    (helped : '\n' ∉ helpText.toList) (plain : '\n' ∉ value.toList) :
    (gaugeOf name helpText value).WellFormed :=
  ⟨named.2, helped, newline_notMem_gauge, fun s hs => by
    rw [gaugeOf, List.mem_singleton] at hs
    rw [hs]
    exact plainSample_wellFormed named plain⟩

theorem mem_sortedItems {values : Dict Nat} {item : String × Nat} :
    item ∈ sortedItems values ↔ item ∈ values := List.mem_mergeSort

theorem gaugeFamilyOf_wellFormed {name helpText label : String} {values : Dict Nat}
    (named : NameText name) (helped : '\n' ∉ helpText.toList) (labelled : NameText label)
    (keyed : ∀ key ∈ values.keys, LabelText key) :
    (gaugeFamilyOf name helpText label values).WellFormed :=
  ⟨named.2, helped, newline_notMem_gauge, fun s hs => by
    obtain ⟨⟨key, value⟩, member, rfl⟩ := List.mem_map.mp hs
    exact labelledSample_wellFormed named labelled
      (keyed key (List.mem_map_of_mem (mem_sortedItems.mp member))) (newline_notMem_repr value)⟩

theorem Histogram.family_wellFormed {showFloat : ℚ → String} {h : Histogram}
    {name helpText : String} (named : ∀ suffix ∈ ["", "_bucket", "_sum", "_count"],
      NameText (name ++ suffix)) (helped : '\n' ∉ helpText.toList)
    (plain : ∀ x, '\n' ∉ (showFloat x).toList) :
    (h.family showFloat name helpText).WellFormed := by
  have le : NameText "le" := by decide
  have bucket := named "_bucket" (by simp)
  have itself : name ++ "" = name := String.append_empty
  refine ⟨itself ▸ (named "" (by simp)).2, helped, newline_notMem_histogram, fun s hs => ?_⟩
  simp only [Histogram.family, List.mem_append, List.mem_map, List.mem_cons, List.not_mem_nil,
    or_false] at hs
  obtain ⟨⟨bound, cumulative⟩, _, rfl⟩ | rfl | rfl | rfl := hs
  · exact labelledSample_wellFormed bucket le (labelText_repr bound)
      (newline_notMem_repr cumulative)
  · exact labelledSample_wellFormed bucket le (by decide) (newline_notMem_repr h.count)
  · exact plainSample_wellFormed (named "_sum" (by simp)) (plain h.sum)
  · exact plainSample_wellFormed (named "_count" (by simp)) (newline_notMem_repr h.count)

theorem orNaN_plain {showFloat : ℚ → String} (plain : ∀ x, '\n' ∉ (showFloat x).toList)
    (value : Option ℚ) : '\n' ∉ (orNaN showFloat value).toList := by
  cases value with
  | none => exact (by decide : '\n' ∉ "NaN".toList)
  | some x => exact plain x

theorem Scrape.families_wellFormed {showFloat : ℚ → String} {s : Scrape}
    (plain : ∀ x, '\n' ∉ (showFloat x).toList)
    (documents : ∀ key ∈ s.documentsByStatus.keys, LabelText key)
    (jobs : ∀ key ∈ s.jobsByState.keys, LabelText key) :
    ∀ f ∈ s.families showFloat, f.WellFormed := by
  simp only [Scrape.families, List.forall_mem_cons]
  refine ⟨gaugeFamilyOf_wellFormed (by decide) (by decide) (by decide) documents,
    gaugeFamilyOf_wellFormed (by decide) (by decide) (by decide) jobs,
    gaugeOf_wellFormed (by decide) (by decide) (newline_notMem_repr _),
    gaugeOf_wellFormed (by decide) (by decide) (newline_notMem_repr _),
    gaugeOf_wellFormed (by decide) (by decide) (newline_notMem_repr _),
    Histogram.family_wellFormed (by decide) (by decide) plain,
    Histogram.family_wellFormed (by decide) (by decide) plain,
    gaugeOf_wellFormed (by decide) (by decide) (orNaN_plain plain _),
    gaugeOf_wellFormed (by decide) (by decide) (orNaN_plain plain _),
    gaugeOf_wellFormed (by decide) (by decide) (newline_notMem_repr _), by simp⟩

/-- A scraper reads the families that have been written. -/
theorem Scrape.read_body {showFloat : ℚ → String} {s : Scrape}
    (plain : ∀ x, '\n' ∉ (showFloat x).toList)
    (documents : ∀ key ∈ s.documentsByStatus.keys, LabelText key)
    (jobs : ∀ key ∈ s.jobsByState.keys, LabelText key) :
    Exposition.read (s.body showFloat).toList = some (s.families showFloat) := by
  rw [Scrape.body_eq]
  exact Exposition.read_text (Scrape.families_wellFormed plain documents jobs)

/-! ### What a scraper reads -/

def samplesOf (f : Family) (name : String) : List Sample := f.samples.filter (·.name = name.toList)

/-- The samples of a name, in the order of the text. -/
def samplesNamed (families : List Family) (name : String) : List Sample :=
  families.flatMap (samplesOf · name)

/-- The numbers at a name. -/
def numbers (families : List Family) (name : String) : List Nat :=
  (samplesNamed families name).map fun s => intOfDigits s.value

theorem filter_named {samples : List Sample} {name : String}
    (named : ∀ s ∈ samples, s.name = name.toList) (other : String) :
    samples.filter (·.name = other.toList) = if name = other then samples else [] := by
  split
  · next same =>
      rw [List.filter_eq_self]
      intro s hs
      simp [named s hs, same]
  · next differ =>
      rw [List.filter_eq_nil_iff]
      intro s hs
      simpa [named s hs, String.toList_inj] using differ

@[simp] theorem samplesOf_gaugeOf (name helpText value other : String) :
    samplesOf (gaugeOf name helpText value) other =
      if name = other then [plainSample name value] else [] :=
  filter_named (by simp [gaugeOf, plainSample]) other

@[simp] theorem samplesOf_gaugeFamilyOf (name helpText label other : String) (values : Dict Nat) :
    samplesOf (gaugeFamilyOf name helpText label values) other =
      if name = other then (sortedItems values).map fun (key, value) =>
        labelledSample name label key (Nat.repr value) else [] :=
  filter_named (fun s hs => by obtain ⟨_, _, rfl⟩ := List.mem_map.mp hs; rfl) other

/-- A sample for each bound, and one for all values. -/
def cumulativeSamples (name : String) (bounds : List Nat) (values : List ℚ) : List Sample :=
  bounds.map (fun bound => labelledSample name "le" (Nat.repr bound)
      (Nat.repr (values.countP (· ≤ (bound : ℚ))))) ++
    [labelledSample name "le" "+Inf" (Nat.repr values.length)]

def Histogram.bucketSamples (h : Histogram) (name : String) : List Sample :=
  (h.buckets.zip h.bucketCounts).map (fun (bound, cumulative) =>
      labelledSample (name ++ "_bucket") "le" (Nat.repr bound) (Nat.repr cumulative)) ++
    [labelledSample (name ++ "_bucket") "le" "+Inf" (Nat.repr h.count)]

theorem bucketSamples_ofValues (bounds : List Nat) (values : List ℚ) (name : String) :
    (Histogram.ofValues bounds values).bucketSamples name =
      cumulativeSamples (name ++ "_bucket") bounds values := by
  simp [Histogram.bucketSamples, Histogram.ofValues, cumulativeSamples, List.zip_eq_zipWith,
    List.zipWith_map_right, List.zipWith_self]

@[simp] theorem samplesOf_family (showFloat : ℚ → String) (h : Histogram)
    (name helpText other : String) :
    samplesOf (h.family showFloat name helpText) other =
      (if name ++ "_bucket" = other then h.bucketSamples name else []) ++
        ((if name ++ "_sum" = other then [plainSample (name ++ "_sum") (showFloat h.sum)] else []) ++
          if name ++ "_count" = other then [plainSample (name ++ "_count") (Nat.repr h.count)]
          else []) := by
  have parts : (h.family showFloat name helpText).samples = h.bucketSamples name ++
      ([plainSample (name ++ "_sum") (showFloat h.sum)] ++
        [plainSample (name ++ "_count") (Nat.repr h.count)]) := by
    simp [Histogram.family, Histogram.bucketSamples]
  have buckets : ∀ s ∈ h.bucketSamples name, s.name = (name ++ "_bucket").toList := by
    intro s hs
    rw [Histogram.bucketSamples, List.mem_append, List.mem_map, List.mem_singleton] at hs
    obtain ⟨_, _, rfl⟩ | rfl := hs <;> rfl
  have sums : ∀ s ∈ [plainSample (name ++ "_sum") (showFloat h.sum)],
      s.name = (name ++ "_sum").toList := by simp [plainSample]
  have counts : ∀ s ∈ [plainSample (name ++ "_count") (Nat.repr h.count)],
      s.name = (name ++ "_count").toList := by simp [plainSample]
  rw [samplesOf, parts, List.filter_append, List.filter_append, filter_named buckets,
    filter_named sums, filter_named counts]

@[simp] theorem intOfDigits_plain (name : String) (n : Nat) :
    intOfDigits (plainSample name (Nat.repr n)).value = n := intOfDigits_repr n

@[simp] theorem intOfDigits_labelled (name label key : String) (n : Nat) :
    intOfDigits (labelledSample name label key (Nat.repr n)).value = n := intOfDigits_repr n

section Numbers

variable (showFloat : ℚ → String) (s : Scrape)

theorem samples_documents : samplesNamed (s.families showFloat) "documents_total" =
    (sortedItems s.documentsByStatus).map fun (key, value) =>
      labelledSample "documents_total" "status" key (Nat.repr value) := by
  simp [samplesNamed, Scrape.families]

theorem samples_jobs : samplesNamed (s.families showFloat) "jobs_total" =
    (sortedItems s.jobsByState).map fun (key, value) =>
      labelledSample "jobs_total" "status" key (Nat.repr value) := by
  simp [samplesNamed, Scrape.families]

theorem numbers_queueDepth : numbers (s.families showFloat) "queue_depth" =
    [(s.jobsByState.get? "queued").getD 0] := by
  simp [numbers, samplesNamed, Scrape.families]

theorem numbers_deadLetter : numbers (s.families showFloat) "dead_letter_total" =
    [(s.jobsByState.get? "dead_letter").getD 0] := by
  simp [numbers, samplesNamed, Scrape.families]

theorem numbers_reviewQueue : numbers (s.families showFloat) "review_queue_depth" =
    [s.reviewQueueDepth] := by
  simp [numbers, samplesNamed, Scrape.families]

theorem samples_latency :
    samplesNamed (s.families showFloat) "extraction_latency_seconds_bucket" =
        s.process.extractionLatencySeconds.bucketSamples "extraction_latency_seconds" ∧
      samplesNamed (s.families showFloat) "extraction_latency_seconds_sum" =
        [plainSample "extraction_latency_seconds_sum"
          (showFloat s.process.extractionLatencySeconds.sum)] ∧
      numbers (s.families showFloat) "extraction_latency_seconds_count" =
        [s.process.extractionLatencySeconds.count] := by
  simp [numbers, samplesNamed, Scrape.families]

theorem samples_attempts :
    samplesNamed (s.families showFloat) "extraction_validation_attempts_bucket" =
        s.process.validationAttempts.bucketSamples "extraction_validation_attempts" ∧
      samplesNamed (s.families showFloat) "extraction_validation_attempts_sum" =
        [plainSample "extraction_validation_attempts_sum"
          (showFloat s.process.validationAttempts.sum)] ∧
      numbers (s.families showFloat) "extraction_validation_attempts_count" =
        [s.process.validationAttempts.count] := by
  simp [numbers, samplesNamed, Scrape.families]

theorem samples_cost :
    samplesNamed (s.families showFloat) "cost_per_document_usd_mean" =
        [plainSample "cost_per_document_usd_mean" (orNaN showFloat s.cost.meanUsdPerDocument)] ∧
      samplesNamed (s.families showFloat) "cost_total_usd" =
        [plainSample "cost_total_usd" (orNaN showFloat s.cost.totalUsd)] ∧
      numbers (s.families showFloat) "cost_documents_priced_total" = [s.cost.documentsPriced] := by
  simp [numbers, samplesNamed, Scrape.families]

end Numbers

/-- What `le` counts grows with the bound. -/
theorem cumulativeSamples_numbers (name : String) (bounds : List Nat) (values : List ℚ) :
    (cumulativeSamples name bounds values).map (fun s => intOfDigits s.value) =
      (Histogram.ofValues bounds values).bucketCounts ++
        [(Histogram.ofValues bounds values).count] := by
  simp [cumulativeSamples, Histogram.ofValues, Function.comp_def]

/-! ### Counting rows -/

section Counts

variable {keys : List String} {key : String} {n : Nat}

theorem mem_counts : (key, n) ∈ counts keys ↔ key ∈ keys ∧ keys.count key = n := by
  simp [counts]

theorem sum_counts (keys : List String) : ((counts keys).map Prod.snd).sum = keys.length := by
  rw [counts, List.map_map]
  exact List.sum_map_count_dedup_eq_length keys

theorem sum_sortedItems (values : Dict Nat) :
    ((sortedItems values).map Prod.snd).sum = (values.map Prod.snd).sum :=
  ((List.mergeSort_perm values _).map Prod.snd).sum_eq

theorem get?_counts (keys : List String) (key : String) :
    ((counts keys).get? key).getD 0 = keys.count key := by
  by_cases there : key ∈ keys
  · have found : (counts keys).get? key = some (keys.count key) :=
      List.lookup_graph _ (List.mem_dedup.mpr there)
    rw [found]
    rfl
  · have missing : (counts keys).get? key = none := by
      rw [Dict.get?, List.lookup_eq_none_iff]
      rintro ⟨other, n⟩ member
      have differ : key ≠ other := fun same => there (same ▸ (mem_counts.mp member).1)
      simpa using differ
    rw [missing, List.count_eq_zero_of_not_mem there]
    rfl

theorem keys_counts (keys : List String) : ∀ key ∈ (counts keys).keys, key ∈ keys := by
  intro key member
  obtain ⟨⟨key, n⟩, found, rfl⟩ := List.mem_map.mp member
  exact (mem_counts.mp found).1

end Counts

/-- The samples of a name count rows by a key, with one sample for each key that a row has. -/
structure CountsBy (families : List Family) (name label : String) (keys : List String) : Prop where
  samples : ∀ s, s ∈ samplesNamed families name ↔
    ∃ key ∈ keys, s = labelledSample name label key (Nat.repr (keys.count key))
  once : ((samplesNamed families name).map Sample.label).Nodup
  total : (numbers families name).sum = keys.length

theorem countsBy_of_samples {families : List Family} {name label : String} {keys : List String}
    (written : samplesNamed families name = (sortedItems (counts keys)).map fun (key, value) =>
      labelledSample name label key (Nat.repr value)) : CountsBy families name label keys := by
  refine ⟨fun s => ?_, ?_, ?_⟩
  · rw [written, List.mem_map]
    constructor
    · rintro ⟨⟨key, n⟩, item, rfl⟩
      obtain ⟨there, rfl⟩ := mem_counts.mp (mem_sortedItems.mp item)
      exact ⟨key, there, rfl⟩
    · rintro ⟨key, there, rfl⟩
      exact ⟨(key, keys.count key), mem_sortedItems.mpr (mem_counts.mpr ⟨there, rfl⟩), rfl⟩
  · rw [written, List.map_map]
    have keyed : (sortedItems (counts keys)).map (Sample.label ∘ fun (key, value) =>
        labelledSample name label key (Nat.repr value)) =
          ((sortedItems (counts keys)).map Prod.fst).map
            fun key => some (label.toList, key.toList) := by
      rw [List.map_map]
      rfl
    have distinct : ((sortedItems (counts keys)).map Prod.fst).Nodup := by
      refine ((List.mergeSort_perm (counts keys) _).map Prod.fst).nodup_iff.mpr ?_
      rw [counts, List.map_map]
      simpa [Function.comp_def] using keys.nodup_dedup
    rw [keyed]
    refine distinct.map fun a b same => String.toList_inj.mp ?_
    exact congrArg Prod.snd (Option.some.inj same)
  · have values : numbers families name = (sortedItems (counts keys)).map Prod.snd := by
      rw [numbers, written, List.map_map]
      exact List.map_congr_left fun item _ => intOfDigits_labelled _ _ item.1 item.2
    rw [values, sum_sortedItems, sum_counts]

theorem jobStatusText_inj {a b : JobStatus} : jobStatusText a = jobStatusText b ↔ a = b := by
  cases a <;> cases b <;> simp [jobStatusText]

theorem count_jobStatusText (jobs : List Job) (status : JobStatus) :
    (jobs.map (jobStatusText ·.status)).count (jobStatusText status) =
      jobs.countP (·.status = status) := by
  rw [List.count, List.countP_map]
  refine List.countP_congr fun j _ => ?_
  simp [jobStatusText_inj]

/-- A document is pending while it has no extraction. Then it has the status of one that none of its
extractions is later than. -/
def HasStatus (d : Database) (x : Document) (text : String) : Prop :=
  (∀ e ∈ d.extractions, e.documentId ≠ x.id) ∧ text = "pending" ∨
    ∃ e ∈ d.extractions, e.documentId = x.id ∧ text = extractionStatusText e.status ∧
      ∀ other ∈ d.extractions, other.documentId = x.id → other.createdAt ≤ e.createdAt

theorem documentStatus_hasStatus (d : Database) (x : Document) :
    HasStatus d x (documentStatus d x) := by
  have sorted := @List.pairwise_mergeSort Extraction (fun a b => b.createdAt ≤ a.createdAt)
    (fun a b c first second => by simp only [decide_eq_true_eq] at *; exact second.trans first)
    (fun a b => by simpa using le_total _ _) (d.extractions.filter (·.documentId = x.id))
  have listed : ∀ e, e ∈ (d.extractions.filter (·.documentId = x.id)).mergeSort
      (fun a b => b.createdAt ≤ a.createdAt) ↔ e ∈ d.extractions ∧ e.documentId = x.id := by
    simp
  rw [documentStatus]
  generalize (d.extractions.filter (·.documentId = x.id)).mergeSort _ = latest at sorted listed
  cases latest with
  | nil => exact .inl ⟨fun e he same => by simpa using (listed e).mpr ⟨he, same⟩, rfl⟩
  | cons e rest =>
      obtain ⟨there, mine⟩ := (listed e).mp List.mem_cons_self
      refine .inr ⟨e, there, mine, rfl, fun other ho same => ?_⟩
      obtain rfl | later := List.mem_cons.mp ((listed other).mpr ⟨ho, same⟩)
      · exact le_rfl
      · exact of_decide_eq_true (List.rel_of_pairwise_cons sorted later)

theorem documentStatus_known (d : Database) (document : Document) :
    documentStatus d document ∈ ["pending", "complete", "failed"] := by
  rw [documentStatus]
  split
  · simp
  · next latest _ => cases latest.status <;> simp [extractionStatusText]

theorem labelText_documentStatus (d : Database) :
    ∀ key ∈ (documentStatusCounts d).keys, LabelText key := by
  intro key member
  obtain ⟨document, _, rfl⟩ := List.mem_map.mp (keys_counts _ key member)
  have all : ∀ text ∈ ["pending", "complete", "failed"], LabelText text := by decide
  exact all _ (documentStatus_known d document)

theorem labelText_jobStatus (d : Database) : ∀ key ∈ (jobStatusCounts d).keys, LabelText key := by
  intro key member
  obtain ⟨job, _, rfl⟩ := List.mem_map.mp (keys_counts _ key member)
  cases job.status <;> decide

/-! ### The statements of a scrape -/

/-- What a scrape puts together from the tables that its statements see. -/
def scraped (prices : PriceSettings) (process : Process) (seen : Nat → Database) : Scrape where
  documentsByStatus := documentStatusCounts (seen 0)
  jobsByState := jobStatusCounts (seen 1)
  reviewQueueDepth := (seen 2).fieldReviews.countP (·.reviewState = .routed)
  process := process
  cost := costSummary (seen 3).extractions (pricingFromSettings prices) none

/-- The tables of each statement are the ones that are committed at that moment. -/
theorem renderMetrics_run (showFloat : ℚ → String) (prices : PriceSettings) (process : Process)
    {schedule : Nat → Moment Context Database Exc} (quiet : ∀ n, (schedule n).fault = none) :
    ((renderMetrics showFloat prices process).run postgres schedule .fresh).result =
      .ok ((scraped prices process fun n => (schedule n).committed).body showFloat) := by
  have served : ∀ {ρ : Type} (read : Database → ρ) (n : Nat),
      postgres.serve (select [] read) (schedule n) .fresh =
        (.ok (read (schedule n).committed), .fresh) := by
    intro ρ read n
    rw [Server.serve, quiet n]
    rfl
  simp only [renderMetrics, queueSize, Prog.execute, Prog.bind_eq, Prog.bind, Prog.run_stmt, served]
  cases priced : pricingFromSettings prices with
  | none =>
      simp [readCostSummary, scraped, priced, costSummary]
  | some p =>
      simp [readCostSummary, scraped, priced, Prog.execute, Prog.run_stmt, served]

/-! ### What a scrape tells -/

/-- The mean, the total and the number of the rows that have been priced. -/
def costGauges (showFloat : ℚ → String) (rows : List Extraction) :
    Option Pricing → String × String × Nat
  | none => ("NaN", "NaN", 0)
  | some p =>
      (if rows = [] then "NaN" else showFloat (pricedUsage p rows / rows.length),
        showFloat (pricedUsage p rows), rows.length)

theorem costGauges_eq (showFloat : ℚ → String) (rows : List Extraction)
    (pricing : Option Pricing) :
    costGauges showFloat rows pricing =
      (orNaN showFloat (costSummary rows pricing none).meanUsdPerDocument,
        orNaN showFloat (costSummary rows pricing none).totalUsd,
        (costSummary rows pricing none).documentsPriced) := by
  cases pricing with
  | none => rfl
  | some p =>
      have all : selectedRows rows none = rows := by simp [selectedRows]
      rw [costSummary_some, all]
      by_cases empty : rows = [] <;> simp [costGauges, orNaN, empty]

/-- The numbers of a scrape whose statements have seen the given tables, in a process that has
finished the given extractions. -/
structure Tells (showFloat : ℚ → String) (pricing : Option Pricing) (families : List Family)
    (seen : Nat → Database) (observations : List Observation) : Prop where
  documents : ∃ status : Document → String,
    (∀ x ∈ (seen 0).documents, HasStatus (seen 0) x (status x)) ∧
      CountsBy families "documents_total" "status" ((seen 0).documents.map status)
  jobs : CountsBy families "jobs_total" "status" ((seen 1).jobs.map (jobStatusText ·.status))
  handedOver : (numbers families "documents_total").sum ≤ (numbers families "jobs_total").sum
  noneRunning : ∀ s ∈ samplesNamed families "jobs_total",
    s.label ≠ some ("status".toList, "running".toList)
  queued : numbers families "queue_depth" = [(seen 1).jobs.countP (·.status = .queued)]
  deadLetter : numbers families "dead_letter_total" =
    [(seen 1).jobs.countP (·.status = .deadLetter)]
  waiting : numbers families "review_queue_depth" =
    [(seen 2).fieldReviews.countP (·.reviewState = .routed)]
  latency : samplesNamed families "extraction_latency_seconds_bucket" =
    cumulativeSamples "extraction_latency_seconds_bucket" latencyBucketsSeconds
      (observations.map Observation.durationSeconds)
  attempts : samplesNamed families "extraction_validation_attempts_bucket" =
    cumulativeSamples "extraction_validation_attempts_bucket" attemptsBuckets
      (observations.map fun o => (o.attempts : ℚ))
  cumulative : (numbers families "extraction_latency_seconds_bucket").Pairwise (· ≤ ·) ∧
    (numbers families "extraction_validation_attempts_bucket").Pairwise (· ≤ ·)
  finished : numbers families "extraction_latency_seconds_count" = [observations.length] ∧
    numbers families "extraction_validation_attempts_count" = [observations.length]
  sums : samplesNamed families "extraction_latency_seconds_sum" =
      [plainSample "extraction_latency_seconds_sum"
        (showFloat (observations.map Observation.durationSeconds).sum)] ∧
    samplesNamed families "extraction_validation_attempts_sum" =
      [plainSample "extraction_validation_attempts_sum"
        (showFloat (observations.map fun o => (o.attempts : ℚ)).sum)]
  mean : samplesNamed families "cost_per_document_usd_mean" =
    [plainSample "cost_per_document_usd_mean"
      (costGauges showFloat (seen 3).extractions pricing).1]
  spent : samplesNamed families "cost_total_usd" =
    [plainSample "cost_total_usd" (costGauges showFloat (seen 3).extractions pricing).2.1]
  priced : numbers families "cost_documents_priced_total" =
    [(costGauges showFloat (seen 3).extractions pricing).2.2]

/-- There is a job for every document, also for tables that have been read before. -/
theorem documents_le_jobs {maxAttempts : Nat} {d d' : Database} (constrained : Constrained d)
    (grown : Grows d d') (inv : PipelineInvariant maxAttempts d') :
    d.documents.length ≤ d'.jobs.length := by
  have targeted : (d.documents.map Document.id) ⊆ d'.jobs.filterMap Job.documentId := by
    intro id member
    obtain ⟨x, hx, rfl⟩ := List.mem_map.mp member
    obtain ⟨y, hy, same⟩ := grown.documents x.id ⟨x, hx, rfl⟩
    obtain ⟨j, hj, _, target⟩ := inv.handover.targeted y hy
    exact List.mem_filterMap.mpr ⟨j, hj, target.trans (congrArg some same)⟩
  have distinct : (d.documents.map Document.id).Nodup := constrained.documents.ids
  have fewer := (distinct.subperm targeted).length_le
  rw [List.length_map] at fewer
  exact fewer.trans (List.length_filterMap_le _ _)

end IncidentPipeline.Telemetry
