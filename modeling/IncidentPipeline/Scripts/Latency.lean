import IncidentPipeline.Foundation.Ranking
import IncidentPipeline.Worker.Audit

/-!
# The latency report

`scripts/latency_report` takes the `created_at` of the extractions of a run for the times at
which they were completed. The column has the start of the transaction that inserts the row,
and `run_once` inserts it in the transaction that has claimed the job, before the model is
asked for anything.
-/

namespace IncidentPipeline.LatencyReport

open Python Ranking
open scoped List

/-- An entry of `data["documents"]`, with the `created_at` of its extraction. -/
structure ReportedDocument where
  id : String
  reused : Bool
  createdAt : Option Time

/-- The report of the run, as `json.loads` reads it. -/
structure RunReport where
  startedAt : Time
  finishedAt : Time
  documents : List ReportedDocument

/-- `total_seconds`, the unit of time being the microsecond. -/
def seconds (d : Time) : ℚ := d / 1000000

/-- The loop over the completions. -/
def gaps : Time → List Time → List Time
  | _, [] => []
  | prev, completedAt :: rest => (completedAt - prev) :: gaps completedAt rest

def reusedMessage (rt : Runtime) (runPath : String) (reused : List String) : String :=
  runPath ++ " has " ++ toString reused.length ++ " reused document(s) ([" ++
    ", ".intercalate (reused.map rt.repr) ++ "]); this report assumes every document was " ++
    "freshly extracted in the run. Pick a run.started_at–run.finished_at where none are reused, " ++
    "or extend this script to skip them."

/-- `d["extraction"]["created_at"]`. -/
def ReportedDocument.created (d : ReportedDocument) : Except Exc Time :=
  d.createdAt.elim (.error (foreign "TypeError" "'NoneType' object is not subscriptable")) .ok

def completions (data : RunReport) : Except Exc (List Time) := do
  let created ← data.documents.mapM ReportedDocument.created
  return created.mergeSort (· ≤ ·)

def latencies (rt : Runtime) (runPath : String) (data : RunReport) : Except Exc (List ℚ) := do
  let reused := (data.documents.filter ReportedDocument.reused).map ReportedDocument.id
  if reused ≠ [] then .error (foreign "SystemExit" (reusedMessage rt runPath reused))
  let completed ← completions data
  return (gaps data.startedAt completed).map seconds

/-- `_percentile`. An index beyond the list raises. -/
def percentile (values : List ℚ) (p : ℚ) : Option ℚ :=
  let xs := values.mergeSort (· ≤ ·)
  let k : ℚ := (xs.length - 1) * p
  let f := ⌊k⌋.toNat
  let c := min (f + 1) (xs.length - 1)
  if f = c then xs[f]?
  else do
    let low ← xs[f]?
    let high ← xs[c]?
    return low + (high - low) * (k - f)

structure LatencySummary where
  documents : Nat
  wallSeconds : ℚ
  /-- Nothing for the NaN of an empty run time. -/
  documentsPerHour : Option ℚ
  n : Nat
  min : ℚ
  max : ℚ
  mean : ℚ
  p50 : Option ℚ
  p95 : Option ℚ

def main (rt : Runtime) (runPath : String) (data : RunReport) : Except Exc LatencySummary := do
  let ls ← latencies rt runPath data
  let wall := seconds (data.finishedAt - data.startedAt)
  match ls with
  | [] => .error ⟨.valueError, "min() iterable argument is empty", []⟩
  | l :: rest =>
      return {
        documents := ls.length
        wallSeconds := wall
        documentsPerHour := if wall > 0 then some (ls.length / wall * 3600) else none
        n := ls.length
        min := rest.foldl Min.min l
        max := rest.foldl Max.max l
        mean := ls.sum / ls.length
        p50 := percentile ls (50 / 100)
        p95 := percentile ls (95 / 100) }

/-! ### Differences -/

theorem gaps_injective {prev : Time} {xs ys : List Time} (same : gaps prev xs = gaps prev ys) :
    xs = ys := by
  induction xs generalizing prev ys with
  | nil =>
      cases ys with
      | nil => rfl
      | cons y ys => cases same
  | cons x xs ih =>
      cases ys with
      | nil => cases same
      | cons y ys =>
          rw [gaps, gaps, List.cons.injEq] at same
          obtain rfl := sub_left_injective same.1
          rw [ih same.2]

/-- The differences add up to the whole time. -/
theorem sum_gaps (prev : Time) (xs : List Time) :
    ((gaps prev xs).map seconds).sum = seconds (xs.getLastD prev - prev) := by
  induction xs generalizing prev with
  | nil => simp [gaps, seconds]
  | cons x xs ih =>
      rw [gaps, List.map_cons, List.sum_cons, ih, List.getLastD_cons]
      simp only [seconds]
      push_cast
      ring

theorem length_gaps (prev : Time) (xs : List Time) : (gaps prev xs).length = xs.length := by
  induction xs generalizing prev with
  | nil => rfl
  | cons x xs ih => exact congrArg (· + 1) (ih x)

theorem seconds_injective : Function.Injective seconds := by
  intro s t same
  have scaled : (s : ℚ) = t := (div_left_inj' (by norm_num)).mp same
  exact_mod_cast scaled

/-! ### A run of one worker -/

/-- A pass that commits, with the extraction row that it has written. -/
structure ExtractPass where
  cfg : Settings
  env : JobEnv
  schedule : Nat → Transactions.Moment Context Database Exc
  commits : ∃ d, ((runOnce cfg env).run postgres schedule .fresh).leave postgres = (.ok true, d)
  row : Extraction
  writes : .insertExtraction row ∈ ((runOnce cfg env).run postgres schedule .fresh).session.log
  /-- When it commits. Its `now()` is its start. -/
  commit : Time
  later : env.now ≤ commit

/-- What is said of the rows of a transaction that starts at `now`. -/
def Stamped (now : Time) : RowOp → Prop
  | .insertExtraction row => row.createdAt = now
  | _ => True

theorem runOnce_stamps (cfg : Settings) (env : JobEnv) :
    (runOnce cfg env).Writes (Stamped env.now) := by
  apply runOnce_writes
  · exact fun _ _ => trivial
  intro job
  apply processJob_writes
  · exact fun _ => trivial
  · exact fun _ _ => trivial
  · exact fun _ => trivial
  · exact fun _ _ => trivial
  intro client documentId built
  refine extractDocument_writes_of fun doc o writes => ?_
  cases o with
  | insertExtraction row => exact writes.created
  | _ => trivial

/-- The row says when the pass has started. -/
theorem ExtractPass.created (pass : ExtractPass) : pass.row.createdAt = pass.env.now := by
  obtain ⟨ops, log, stamped⟩ := (runOnce_stamps pass.cfg pass.env).run pass.schedule .fresh
  have written := pass.writes
  rw [log] at written
  exact stamped _ written

/-- The passes of one worker that have written the rows of a report, in their order. Each
starts when the ones before it have committed. -/
structure SerialRun where
  startedAt : Time
  passes : List ExtractPass
  serial : passes.Pairwise fun p q => p.commit ≤ q.env.now

namespace SerialRun

def starts (run : SerialRun) : List Time := run.passes.map fun pass => pass.env.now

def completed (run : SerialRun) : List Time := run.passes.map ExtractPass.commit

/-- The report of a run lists its documents in any order. -/
structure ReportedBy (run : SerialRun) (data : RunReport) : Prop where
  startedAt : data.startedAt = run.startedAt
  fresh : ∀ d ∈ data.documents, d.reused = false
  created : data.documents.map ReportedDocument.createdAt ~
    run.passes.map fun pass => some pass.row.createdAt

variable {run : SerialRun} {data : RunReport} {rt : Runtime} {runPath : String}

theorem starts_sorted (run : SerialRun) :
    run.starts.Pairwise fun s t => decide (s ≤ t) = true := by
  rw [starts, List.pairwise_map]
  refine run.serial.imp fun {p q} before => ?_
  rw [decide_eq_true_eq]
  exact p.later.trans before

/-- The report has the starts in its own order, and sorts them. -/
theorem completions_eq (reported : run.ReportedBy data) : completions data = .ok run.starts := by
  have starts : (run.passes.map fun pass => some pass.row.createdAt) = run.starts.map some := by
    rw [starts, List.map_map]
    exact List.map_congr_left fun pass _ => congrArg some pass.created
  have created := reported.created
  rw [starts] at created
  obtain ⟨times, same, perm⟩ : Relation.Comp (· = List.map some ·) (· ~ ·)
      (data.documents.map ReportedDocument.createdAt) run.starts := by
    rw [List.eq_map_comp_perm]
    exact created
  have read : List.Forall₂ (fun d t => ReportedDocument.created d = .ok t)
      data.documents times := by
    have paired : List.Forall₂ (fun o t => o = some t)
        (data.documents.map ReportedDocument.createdAt) times := by
      rw [same, List.forall₂_map_left_iff, List.forall₂_same]
      exact fun _ _ => rfl
    refine (List.forall₂_map_left_iff.mp paired).imp fun d t known => ?_
    rw [ReportedDocument.created, known]
    rfl
  have sorted : run.starts = times.mergeSort (· ≤ ·) :=
    ranks_le.unique (untied_le times) perm.symm run.starts_sorted
  rw [completions, except_mapM_ok.mpr read, sorted]
  rfl

/-- The latencies of the report are the gaps between the starts of the passes. -/
theorem latencies_eq (reported : run.ReportedBy data) :
    latencies rt runPath data = .ok ((gaps run.startedAt run.starts).map seconds) := by
  have none_reused : (data.documents.filter ReportedDocument.reused) = [] := by
    rw [List.filter_eq_nil_iff]
    intro d hd
    rw [reported.fresh d hd]
    exact Bool.false_ne_true
  rw [latencies, completions_eq reported, none_reused, reported.startedAt]
  rfl

/-- The published mean is that of the time until the start of the last pass. -/
theorem main_eq (reported : run.ReportedBy data) (some_pass : run.passes ≠ []) :
    ∃ summary, main rt runPath data = .ok summary ∧ summary.documents = run.passes.length ∧
      summary.mean =
        seconds (run.starts.getLastD run.startedAt - run.startedAt) / run.passes.length := by
  have total := sum_gaps run.startedAt run.starts
  have number : ((gaps run.startedAt run.starts).map seconds).length = run.passes.length := by
    rw [List.length_map, length_gaps, starts, List.length_map]
  rw [main, latencies_eq reported, ← total, ← number]
  cases measured : (gaps run.startedAt run.starts).map seconds with
  | nil =>
      rw [measured] at number
      exact absurd (List.length_eq_zero_iff.mp number.symm) some_pass
  | cons l rest => exact ⟨_, rfl, rfl, rfl⟩

/-- They are the gaps between the completions, which add up to the time from the start of the
run to the last completion, exactly if each pass commits at the time of its start. -/
theorem latencies_iff (reported : run.ReportedBy data) :
    (∃ ls, latencies rt runPath data = .ok ls ∧
      ls = (gaps run.startedAt run.completed).map seconds ∧
      ls.sum = seconds (run.completed.getLastD run.startedAt - run.startedAt)) ↔
      ∀ pass ∈ run.passes, pass.commit = pass.env.now := by
  rw [latencies_eq reported]
  have same_times : (∀ pass ∈ run.passes, pass.commit = pass.env.now) ↔
      run.completed = run.starts := by
    rw [completed, starts, List.map_inj_left]
  rw [same_times]
  constructor
  · rintro ⟨_, ⟨⟩, gaps_eq, -⟩
    have durations := (List.map_injective_iff.mpr seconds_injective) gaps_eq
    exact (gaps_injective durations).symm
  · intro same
    exact ⟨_, rfl, by rw [same], by rw [same, sum_gaps]⟩

end SerialRun

/-! Passes in which the model refuses. -/

def refusingEnv (now : Time) : JobEnv := { extractEnv (.ok refusingClient) with now := now }

def refusedAt (now : Time) : Extraction :=
  failedExtraction 6 now refusingClient 1
    ⟨.permanentExtractionError, "model refused (category=None)", []⟩ .permanent []

theorem runOnce_refused {now : Time} (early : now = 5 ∨ now = 20) : (∃ d,
    ((runOnce smallSettings (refusingEnv now)).run postgres alone .fresh).leave postgres =
      (.ok true, d)) ∧
    .insertExtraction (refusedAt now) ∈
      ((runOnce smallSettings (refusingEnv now)).run postgres alone .fresh).session.log := by
  have stage : stageRun smallSettings (refusingEnv now) alone waitingJob =
      ⟨.error ⟨.permanentExtractionError, "model refused (category=None)", []⟩,
        ⟨claimLog waitingJob now ++ [.insertExtraction (refusedAt now)], false⟩,
        alone⟩ := by
    rw [stageRun_waiting]
    obtain rfl | rfl := early <;> rfl
  have marked : ∃ d, postgres.replay
      ((claimLog waitingJob now ++ [.insertExtraction (refusedAt now)]) ++
        [.updateJob (waitingJob.claimed now) ((waitingJob.claimed now).ended 3 now
          (.error ⟨.permanentExtractionError, "model refused (category=None)", []⟩))]) waiting =
      .ok d := by
    obtain rfl | rfl := early <;> exact ⟨_, rfl⟩
  obtain ⟨d, replayed⟩ := marked
  obtain ⟨_, run⟩ := runOnce_raised_waiting stage (by decide) replayed
  rw [run]
  refine ⟨⟨d, Transactions.Prog.Outcome.leave_of_replay rfl rfl replayed⟩, ?_⟩
  exact List.mem_append_left _ (List.mem_append_right _ (List.mem_singleton_self _))

def refusedPass (now commit : Time) (early : now = 5 ∨ now = 20) (later : now ≤ commit) :
    ExtractPass where
  cfg := smallSettings
  env := refusingEnv now
  schedule := alone
  commits := (runOnce_refused early).1
  row := refusedAt now
  writes := (runOnce_refused early).2
  commit := commit
  later := later

/-- Two passes, which commit when they start. -/
def twoDocuments : SerialRun where
  startedAt := 0
  passes := [refusedPass 5 5 (.inl rfl) le_rfl, refusedPass 20 20 (.inr rfl) le_rfl]
  serial := List.pairwise_pair.mpr (by decide : (5 : Time) ≤ 20)

def twoDocumentsReport : RunReport := ⟨0, 40, [⟨"B", false, some 20⟩, ⟨"A", false, some 5⟩]⟩

theorem latencies_iff_instant :
    ∃ ls, latencies .ascii "run.json" twoDocumentsReport = .ok ls ∧
      ls = (gaps 0 [5, 20]).map seconds ∧ ls.sum = seconds (20 - 0) := by
  have reported : twoDocuments.ReportedBy twoDocumentsReport := by
    refine ⟨rfl, fun d listed => ?_, List.Perm.swap _ _ _⟩
    simp only [twoDocumentsReport, List.mem_cons, List.not_mem_nil, or_false] at listed
    obtain rfl | rfl := listed <;> rfl
  refine (SerialRun.latencies_iff reported).mpr fun pass member => ?_
  simp only [twoDocuments, List.mem_cons, List.not_mem_nil, or_false] at member
  obtain rfl | rfl := member <;> rfl

def oneDocument : SerialRun :=
  ⟨0, [refusedPass 5 35 (.inl rfl) (by decide)], List.pairwise_singleton _ _⟩

def oneDocumentReport : RunReport := ⟨0, 40, [⟨"A", false, some 5⟩]⟩

/-- The pass takes thirty units of time, of which the report has nothing. -/
theorem latencies_short :
    oneDocument.ReportedBy oneDocumentReport ∧
      latencies .ascii "run.json" oneDocumentReport = .ok ((gaps 0 [5]).map seconds) ∧
      ¬ ∃ ls, latencies .ascii "run.json" oneDocumentReport = .ok ls ∧
        ls = (gaps 0 [35]).map seconds ∧ ls.sum = seconds (35 - 0) := by
  have reported : oneDocument.ReportedBy oneDocumentReport := by
    refine ⟨rfl, fun d listed => ?_, List.Perm.refl _⟩
    obtain rfl := List.mem_singleton.mp listed
    rfl
  refine ⟨reported, SerialRun.latencies_eq reported, ?_⟩
  rw [SerialRun.latencies_eq reported]
  rintro ⟨_, ⟨⟩, same, -⟩
  have durations := List.map_injective_iff.mpr seconds_injective same
  exact absurd durations (by decide)

end IncidentPipeline.LatencyReport
