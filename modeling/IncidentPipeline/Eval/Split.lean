import IncidentPipeline.Eval.Allocation
import IncidentPipeline.Foundation.Grouping
import IncidentPipeline.Foundation.Json

/-!
# The split of the documents

`build_split` of `eval/scripts/make_split`: the documents are grouped into strata, and each
stratum, sorted, is shuffled and cut at its dev count. What the loop over the strata reports
depends on the sorted strata only, so that the split does not depend on the order of the
documents.
-/

namespace IncidentPipeline.MakeSplit

open Grouping Python
open scoped List

def devSize : ℕ := 12
def testSize : ℕ := 18

/-- The members of a document besides its id. -/
structure Details where
  org : String
  isOriginal10 : Bool
  profile : String
  profileSource : String
deriving DecidableEq, Repr

structure Doc extends Details where
  id : String
deriving DecidableEq, Repr

/-- Tuples `(is_original_10, profile)` are ordered by their first difference. -/
abbrev Stratum := Bool ×ₗ String

def Doc.key (d : Doc) : Stratum := toLex (d.isOriginal10, d.profile)

/-- An entry of `strata_report`. -/
structure StratumReport where
  isOriginal10 : Bool
  profile : String
  size : ℕ
  dev : List String
  test : List String
deriving DecidableEq, Repr

def StratumReport.key (r : StratumReport) : Stratum := toLex (r.isOriginal10, r.profile)

structure Split where
  seed : ℤ
  devSize : ℕ
  testSize : ℕ
  totalDocuments : ℕ
  documents : Dict Details
  assignment : Dict String
  strata : List StratumReport
deriving DecidableEq, Repr

def sorted {α : Type} [LinearOrder α] (l : List α) : List α := l.mergeSort (· ≤ ·)

/-- `d[key]`. -/
def item {κ α : Type} [DecidableEq κ] (d : List (κ × α)) (key : κ) : Except String α :=
  match d.lookup key with
  | some value => .ok value
  | none => .error "KeyError"

/-- `for doc_id in ids: assignment[doc_id] = part`. -/
def assignAll (assignment : Dict String) (ids : List String) (part : String) : Dict String :=
  ids.foldl (fun acc id => acc.set id part) assignment

section Build

variable {σ : Type}

/-- The loop over the sorted strata; the generator goes on from one to the next. -/
def splitStrata (shuffle : σ → List String → List String × σ)
    (strata : List (Stratum × List String)) (devCounts : List (Stratum × ℕ)) :
    List Stratum → σ → Dict String → List StratumReport →
      Except String (Dict String × List StratumReport)
  | [], _, assignment, report => .ok (assignment, report)
  | key :: rest, rng, assignment, report => do
      let ids := sorted (← item strata key)
      let (shuffled, rng) := shuffle rng ids
      let nDev ← item devCounts key
      let devIds := sorted (shuffled.take nDev)
      let testIds := sorted (shuffled.drop nDev)
      splitStrata shuffle strata devCounts rest rng
        (assignAll (assignAll assignment devIds "dev") testIds "test")
        (report ++ [⟨(ofLex key).1, (ofLex key).2, ids.length, devIds, testIds⟩])

def strataOf (docs : List Doc) : List (Stratum × List String) :=
  group (docs.map fun d => (d.key, d.id))

def sizesOf (docs : List Doc) : List (Stratum × ℕ) :=
  (strataOf docs).map fun g => (g.1, g.2.length)

/-- `random` makes a generator of a seed, and `shuffle` is its method. -/
def buildSplit (a : Arithmetic) (random : ℤ → σ)
    (shuffle : σ → List String → List String × σ) (docs : List Doc) (seed : ℤ) :
    Except String Split := do
  let strata := strataOf docs
  let devCounts ← largestRemainderAllocation a (sizesOf docs) devSize
  let (assignment, report) ←
    splitStrata shuffle strata devCounts (sorted (strata.map Prod.fst)) (random seed) [] []
  let devTotal := assignment.countP fun entry => entry.2 = "dev"
  let testTotal := assignment.countP fun entry => entry.2 = "test"
  if devTotal ≠ devSize ∨ testTotal ≠ testSize then
    throw ("split sizes wrong: dev=" ++ toString devTotal ++ " test=" ++ toString testTotal)
  return {
    seed := seed
    devSize := devSize
    testSize := testSize
    totalDocuments := docs.length
    documents := docs.foldl (fun acc d => acc.set d.id d.toDetails) []
    assignment := assignment
    strata := report }

/-! ### The reports of the strata -/

/-- What the loop reports of strata with these ids and counts. -/
def reports (shuffle : σ → List String → List String × σ) (ids : Stratum → List String)
    (count : Stratum → ℕ) : List Stratum → σ → List StratumReport
  | [], _ => []
  | key :: rest, rng =>
      let shuffled := shuffle rng (sorted (ids key))
      ⟨(ofLex key).1, (ofLex key).2, (sorted (ids key)).length,
        sorted (shuffled.1.take (count key)), sorted (shuffled.1.drop (count key))⟩ ::
          reports shuffle ids count rest shuffled.2

/-- What a report adds to the assignment. -/
def StratumReport.entries (r : StratumReport) : Dict String :=
  r.dev.map (fun id => (id, "dev")) ++ r.test.map fun id => (id, "test")

variable {shuffle : σ → List String → List String × σ} {ids : Stratum → List String}
  {count : Stratum → ℕ} {strata : List (Stratum × List String)}
  {devCounts : List (Stratum × ℕ)} {keys : List Stratum}

theorem sorted_perm {α : Type} [LinearOrder α] (l : List α) : (sorted l).Perm l :=
  List.mergeSort_perm _ _

/-- Sorting forgets the order. -/
theorem sorted_eq {α : Type} [LinearOrder α] {l l' : List α} (perm : l'.Perm l) :
    sorted l' = sorted l :=
  Ranking.ranks_le.mergeSort_perm (Ranking.untied_le l) perm

theorem item_eq_ok {κ α : Type} [DecidableEq κ] {d : List (κ × α)}
    (distinct : (d.map Prod.fst).Nodup) {key : κ} {value : α} :
    item d key = .ok value ↔ (key, value) ∈ d := by
  rw [mem_iff_lookup distinct, item]
  split
  · next found => simp [found]
  · next missing => simp [missing]

theorem set_fresh {d : Dict String} {key value : String} (fresh : key ∉ d.keys) :
    d.set key value = d ++ [(key, value)] := by
  induction d with
  | nil => rfl
  | cons entry rest ih =>
      obtain ⟨k, v⟩ := entry
      have differ : k ≠ key := fun same => fresh (same ▸ List.mem_cons_self)
      have later : key ∉ Dict.keys rest := fun member => fresh (List.mem_cons_of_mem k member)
      rw [Dict.set, if_neg differ, ih later, List.cons_append]

/-- Fresh ids are appended. -/
theorem assignAll_eq {d : Dict String} {l : List String} {part : String}
    (fresh : (d.keys ++ l).Nodup) : assignAll d l part = d ++ l.map fun id => (id, part) := by
  induction l generalizing d with
  | nil => exact (List.append_nil d).symm
  | cons id rest ih =>
      have absent : id ∉ d.keys := fun member =>
        (List.nodup_append.mp fresh).2.2 id member id List.mem_cons_self rfl
      have later : (Dict.keys (d ++ [(id, part)]) ++ rest).Nodup := by
        rw [Dict.keys, List.map_append, List.append_assoc]
        exact fresh
      show assignAll (d.set id part) rest part = _
      rw [set_fresh absent, ih later, List.append_assoc, List.map_cons, List.singleton_append]

/-- The loop reports every stratum and assigns what it reports. -/
theorem splitStrata_eq (grouped : ∀ key ∈ keys, item strata key = .ok (ids key))
    (counted : ∀ key ∈ keys, item devCounts key = .ok (count key)) (rng : σ)
    (assignment : Dict String) (report : List StratumReport) :
    splitStrata shuffle strata devCounts keys rng assignment report =
      .ok ((reports shuffle ids count keys rng).foldl (fun acc r =>
          assignAll (assignAll acc r.dev "dev") r.test "test") assignment,
        report ++ reports shuffle ids count keys rng) := by
  induction keys generalizing rng assignment report with
  | nil => simp [splitStrata, reports]
  | cons key rest ih =>
      have found := grouped key List.mem_cons_self
      have number := counted key List.mem_cons_self
      have later := ih (fun k member => grouped k (List.mem_cons_of_mem key member))
        fun k member => counted k (List.mem_cons_of_mem key member)
      rw [splitStrata, found]
      simp only [Bind.bind, Except.bind, number, later, reports, List.foldl_cons,
        List.append_assoc, List.singleton_append]

theorem keys_reports (rng : σ) :
    (reports shuffle ids count keys rng).map StratumReport.key = keys := by
  induction keys generalizing rng with
  | nil => rfl
  | cons key rest ih =>
      rw [reports, List.map_cons, ih]
      rfl

/-- A report cuts its stratum at the count. -/
theorem mem_reports (permutes : ∀ rng l, (shuffle rng l).1.Perm l) {rng : σ} {r : StratumReport}
    (member : r ∈ reports shuffle ids count keys rng) :
    r.key ∈ keys ∧ (r.dev ++ r.test).Perm (ids r.key) ∧ r.size = (ids r.key).length ∧
      r.dev.length = min (count r.key) (ids r.key).length := by
  induction keys generalizing rng with
  | nil => cases member
  | cons key rest ih =>
      obtain rfl | later := List.mem_cons.mp member
      · have shuffled := (permutes rng (sorted (ids key))).trans (sorted_perm _)
        refine ⟨List.mem_cons_self, ?_, (sorted_perm _).length_eq, ?_⟩
        · refine ((sorted_perm _).append (sorted_perm _)).trans ?_
          rw [List.take_append_drop]
          exact shuffled
        · rw [(sorted_perm _).length_eq, List.length_take, shuffled.length_eq]
          rfl
      · obtain ⟨inside, rest⟩ := ih later
        exact ⟨List.mem_cons_of_mem _ inside, rest⟩

/-- The reports depend on the sorted strata and the counts only. -/
theorem reports_congr {ids' : Stratum → List String} {count' : Stratum → ℕ}
    (same : ∀ key ∈ keys, (ids' key).Perm (ids key)) (counts : ∀ key ∈ keys, count' key = count key)
    (rng : σ) : reports shuffle ids' count' keys rng = reports shuffle ids count keys rng := by
  induction keys generalizing rng with
  | nil => rfl
  | cons key rest ih =>
      have later := ih (fun k member => same k (List.mem_cons_of_mem key member))
        fun k member => counts k (List.mem_cons_of_mem key member)
      rw [reports, reports, sorted_eq (same key List.mem_cons_self),
        counts key List.mem_cons_self, later]

/-- Each report has the ids of its stratum. -/
theorem ids_reports (permutes : ∀ rng l, (shuffle rng l).1.Perm l) (rng : σ) :
    ((reports shuffle ids count keys rng).flatMap fun r => r.dev ++ r.test).Perm
      (keys.flatMap ids) := by
  have all : (reports shuffle ids count keys rng).map StratumReport.key = keys := keys_reports rng
  have same : keys.flatMap ids =
      (reports shuffle ids count keys rng).flatMap fun r => ids r.key := by
    conv_lhs => rw [← all]
    rw [List.flatMap_map]
  rw [same]
  exact List.Perm.flatMap_left _ fun r member => (mem_reports permutes member).2.1

/-- With distinct ids the assignment lists the reports. -/
theorem assigned_eq {rs : List StratumReport} {d : Dict String}
    (fresh : (d.keys ++ rs.flatMap fun r => r.dev ++ r.test).Nodup) :
    (rs.foldl (fun acc r => assignAll (assignAll acc r.dev "dev") r.test "test") d) =
      d ++ rs.flatMap StratumReport.entries := by
  induction rs generalizing d with
  | nil => exact (List.append_nil d).symm
  | cons r rest ih =>
      have parts : (d.keys ++ r.dev ++ r.test ++ rest.flatMap fun r => r.dev ++ r.test).Nodup := by
        simpa only [List.flatMap_cons, List.append_assoc] using fresh
      have first : (d.keys ++ r.dev).Nodup := by
        rw [List.append_assoc (d.keys ++ r.dev)] at parts
        exact parts.of_append_left
      have devKeys : Dict.keys (d ++ r.dev.map fun id => (id, "dev")) = d.keys ++ r.dev := by
        simp [Dict.keys, Function.comp_def]
      have second : (Dict.keys (d ++ r.dev.map fun id => (id, "dev")) ++ r.test).Nodup := by
        rw [devKeys]
        exact parts.of_append_left
      have allKeys : Dict.keys (d ++ r.entries) = d.keys ++ r.dev ++ r.test := by
        simp [Dict.keys, StratumReport.entries, Function.comp_def]
      have added : assignAll (assignAll d r.dev "dev") r.test "test" = d ++ r.entries := by
        rw [assignAll_eq first, assignAll_eq second, StratumReport.entries, List.append_assoc]
      rw [List.foldl_cons, added, ih (by rwa [allKeys]), List.flatMap_cons, List.append_assoc]

theorem count_entries (rs : List StratumReport) :
    (rs.flatMap StratumReport.entries).countP (fun entry => entry.2 = "dev") =
        (rs.flatMap StratumReport.dev).length ∧
      (rs.flatMap StratumReport.entries).countP (fun entry => entry.2 = "test") =
        (rs.flatMap StratumReport.test).length := by
  have parts (r : StratumReport) :
      r.entries.countP (fun entry => entry.2 = "dev") = r.dev.length ∧
        r.entries.countP (fun entry => entry.2 = "test") = r.test.length := by
    simp [StratumReport.entries, List.countP_append, List.countP_map, Function.comp_def]
  induction rs with
  | nil => exact ⟨rfl, rfl⟩
  | cons r rest ih =>
      simp only [List.flatMap_cons, List.countP_append, List.length_append, ih, parts, and_self]

/-! ### The strata of the documents -/

/-- The ids of a stratum, in the order of the documents. -/
def idsOf (docs : List Doc) (key : Stratum) : List String :=
  (docs.filter fun d => d.key = key).map Doc.id

/-- The count of a stratum. -/
def countOf (counts : List (Stratum × ℕ)) (key : Stratum) : ℕ :=
  match item counts key with
  | .ok count => count
  | .error _ => 0

variable {docs docs' : List Doc} {a : Arithmetic}

theorem under_docs (docs : List Doc) (key : Stratum) :
    under (docs.map fun d => (d.key, d.id)) key = idsOf docs key := by
  rw [under, idsOf, List.filter_map, List.map_map]
  rfl

theorem keys_strataOf_nodup (docs : List Doc) : ((strataOf docs).map Prod.fst).Nodup :=
  keys_group_nodup _

theorem keys_sizesOf (docs : List Doc) :
    (sizesOf docs).map Prod.fst = (strataOf docs).map Prod.fst := by
  rw [sizesOf, List.map_map]
  rfl

theorem mem_strataOf {key : Stratum} {ids : List String} (member : (key, ids) ∈ strataOf docs) :
    ids = idsOf docs key := by
  rw [← under_docs]
  exact (mem_group.mp member).1

theorem item_strataOf {key : Stratum} (member : key ∈ (strataOf docs).map Prod.fst) :
    item (strataOf docs) key = .ok (idsOf docs key) := by
  obtain ⟨⟨k, ids⟩, inside, rfl⟩ := List.mem_map.mp member
  rw [item_eq_ok (keys_strataOf_nodup docs), ← mem_strataOf inside]
  exact inside

theorem mem_sizesOf {key : Stratum} {size : ℕ} : (key, size) ∈ sizesOf docs ↔
    size = (idsOf docs key).length ∧ idsOf docs key ≠ [] := by
  rw [sizesOf, List.mem_map]
  constructor
  · rintro ⟨⟨k, ids⟩, inside, same⟩
    obtain ⟨rfl, rfl⟩ := Prod.mk.inj same
    obtain ⟨rfl, full⟩ := mem_group.mp inside
    rw [under_docs] at full ⊢
    exact ⟨rfl, full⟩
  · rintro ⟨rfl, full⟩
    rw [← under_docs] at full ⊢
    exact ⟨_, mem_group.mpr ⟨rfl, full⟩, rfl⟩

theorem ids_strataOf (docs : List Doc) :
    (((strataOf docs).map Prod.fst).flatMap (idsOf docs)).Perm (docs.map Doc.id) := by
  have same : ((strataOf docs).map Prod.fst).flatMap (idsOf docs) =
      (strataOf docs).flatMap Prod.snd := by
    rw [List.flatMap_map]
    exact List.flatMap_congr fun g member => (mem_strataOf member).symm
  rw [same]
  refine (values_group _).trans ?_
  rw [List.map_map]
  exact List.Perm.refl _

theorem sum_sizesOf (docs : List Doc) : ((sizesOf docs).map Prod.snd).sum = docs.length := by
  have ids := (values_group (docs.map fun d => (d.key, d.id))).length_eq
  rw [List.length_flatMap, List.length_map, List.length_map] at ids
  rw [sizesOf, List.map_map]
  exact ids

/-- Another order of the documents gives the sizes in another order, -/
theorem sizesOf_perm (perm : docs'.Perm docs) : (sizesOf docs').Perm (sizesOf docs) := by
  have distinct (docs : List Doc) : (sizesOf docs).Nodup := by
    have keys := keys_strataOf_nodup docs
    rw [← keys_sizesOf] at keys
    exact keys.of_map _
  apply (List.perm_ext_iff_of_nodup (distinct docs') (distinct docs)).mpr
  rintro ⟨key, size⟩
  have ids : (idsOf docs' key).Perm (idsOf docs key) := (perm.filter _).map _
  rw [mem_sizesOf, mem_sizesOf, ids.length_eq, ← List.length_pos_iff, ids.length_eq,
    List.length_pos_iff]

/-- and the same strata when they are sorted. -/
theorem sorted_keys_eq (perm : docs'.Perm docs) :
    sorted ((strataOf docs').map Prod.fst) = sorted ((strataOf docs).map Prod.fst) :=
  sorted_eq (keys_group_perm (perm.map _))

/-! ### The split -/

/-- The reports of the strata of the documents. -/
def reportsOf (random : ℤ → σ) (shuffle : σ → List String → List String × σ) (docs : List Doc)
    (counts : List (Stratum × ℕ)) (seed : ℤ) : List StratumReport :=
  reports shuffle (idsOf docs) (countOf counts) (sorted ((strataOf docs).map Prod.fst))
    (random seed)

variable {random : ℤ → σ} {counts : List (Stratum × ℕ)} {seed : ℤ}

theorem keys_counts_nodup (allocated : Allocated (sizesOf docs) devSize counts) :
    (counts.map Prod.fst).Nodup := by
  rw [allocated.keys, keys_sizesOf]
  exact keys_strataOf_nodup docs

theorem countOf_of_mem (allocated : Allocated (sizesOf docs) devSize counts)
    {c : Stratum × ℕ} (member : c ∈ counts) : countOf counts c.1 = c.2 := by
  have found : item counts c.1 = .ok c.2 :=
    (item_eq_ok (keys_counts_nodup allocated)).mpr member
  rw [countOf, found]

/-- Every stratum has a count, and not more than its ids. -/
theorem counted (allocated : Allocated (sizesOf docs) devSize counts) {key : Stratum}
    (member : key ∈ (strataOf docs).map Prod.fst) :
    (key, countOf counts key) ∈ counts ∧ countOf counts key ≤ (idsOf docs key).length := by
  have listed : key ∈ counts.map Prod.fst := by
    rwa [allocated.keys, keys_sizesOf]
  obtain ⟨c, inside, rfl⟩ := List.mem_map.mp listed
  obtain ⟨s, sized, same⟩ : ∃ s ∈ sizesOf docs, s.1 = c.1 := by
    rw [← keys_sizesOf] at member
    exact List.mem_map.mp member
  rw [countOf_of_mem allocated inside]
  refine ⟨inside, ?_⟩
  have size := (mem_sizesOf.mp (same ▸ sized : (c.1, s.2) ∈ sizesOf docs)).1
  rw [← size]
  exact allocated.le s sized c inside same.symm

theorem mem_reportsOf (permutes : ∀ rng l, (shuffle rng l).1.Perm l)
    (allocated : Allocated (sizesOf docs) devSize counts) {r : StratumReport}
    (member : r ∈ reportsOf random shuffle docs counts seed) :
    r.key ∈ (strataOf docs).map Prod.fst ∧ (r.dev ++ r.test).Perm (idsOf docs r.key) ∧
      (r.key, r.dev.length) ∈ counts := by
  obtain ⟨inside, ids, _, dev⟩ := mem_reports permutes member
  have key := (sorted_perm _).mem_iff.mp inside
  obtain ⟨listed, within⟩ := counted allocated key
  rw [dev, min_eq_left within]
  exact ⟨key, ids, listed⟩

theorem keys_reportsOf :
    (reportsOf random shuffle docs counts seed).map StratumReport.key =
      sorted ((strataOf docs).map Prod.fst) := keys_reports _

theorem ids_reportsOf (permutes : ∀ rng l, (shuffle rng l).1.Perm l) :
    ((reportsOf random shuffle docs counts seed).flatMap fun r => r.dev ++ r.test).Perm
      (docs.map Doc.id) :=
  (ids_reports permutes _).trans (((sorted_perm _).flatMap_right _).trans (ids_strataOf docs))

/-- The dev lists have the seats. -/
theorem dev_total (permutes : ∀ rng l, (shuffle rng l).1.Perm l)
    (allocated : Allocated (sizesOf docs) devSize counts) :
    ((reportsOf random shuffle docs counts seed).flatMap StratumReport.dev).length = devSize := by
  have lengths : (reportsOf random shuffle docs counts seed).map (List.length ∘ StratumReport.dev) =
      ((reportsOf random shuffle docs counts seed).map StratumReport.key).map
        (countOf counts) := by
    rw [List.map_map]
    refine List.map_congr_left fun r member => ?_
    exact (countOf_of_mem allocated (mem_reportsOf permutes allocated member).2.2).symm
  have keys : (sorted ((strataOf docs).map Prod.fst)).Perm (counts.map Prod.fst) := by
    rw [allocated.keys, keys_sizesOf]
    exact sorted_perm _
  have seats : (counts.map Prod.fst).map (countOf counts) = counts.map Prod.snd := by
    rw [List.map_map]
    exact List.map_congr_left fun c member => countOf_of_mem allocated member
  calc ((reportsOf random shuffle docs counts seed).flatMap StratumReport.dev).length
      = ((reportsOf random shuffle docs counts seed).map
          (List.length ∘ StratumReport.dev)).sum := List.length_flatMap
    _ = ((sorted ((strataOf docs).map Prod.fst)).map (countOf counts)).sum := by
        rw [lengths, keys_reportsOf]
    _ = (counts.map Prod.snd).sum := by rw [(keys.map _).sum_eq, seats]
    _ = devSize := allocated.sum

theorem flatMap_parts (rs : List StratumReport) :
    (rs.flatMap StratumReport.dev ++ rs.flatMap StratumReport.test).Perm
      (rs.flatMap fun r => r.dev ++ r.test) := by
  induction rs with
  | nil => exact List.Perm.refl _
  | cons r rest ih =>
      simp only [List.flatMap_cons, List.append_assoc]
      refine List.Perm.append_left _ ?_
      calc rest.flatMap StratumReport.dev ++ (r.test ++ rest.flatMap StratumReport.test)
          = rest.flatMap StratumReport.dev ++ r.test ++ rest.flatMap StratumReport.test := by
            rw [List.append_assoc]
        _ ~ r.test ++ rest.flatMap StratumReport.dev ++ rest.flatMap StratumReport.test :=
            List.perm_append_comm.append_right _
        _ = r.test ++ (rest.flatMap StratumReport.dev ++ rest.flatMap StratumReport.test) :=
            List.append_assoc _ _ _
        _ ~ r.test ++ rest.flatMap fun r => r.dev ++ r.test := ih.append_left _

/-- The test lists have the rest. -/
theorem test_total (permutes : ∀ rng l, (shuffle rng l).1.Perm l)
    (allocated : Allocated (sizesOf docs) devSize counts) (thirty : docs.length = 30) :
    ((reportsOf random shuffle docs counts seed).flatMap StratumReport.test).length =
      testSize := by
  have ids : ((reportsOf random shuffle docs counts seed).flatMap fun r => r.dev ++ r.test).Perm
      (docs.map Doc.id) := ids_reportsOf permutes
  have all := ((flatMap_parts _).trans ids).length_eq
  rw [List.length_append, dev_total permutes allocated, List.length_map, thirty, devSize] at all
  rw [testSize]
  omega

/-- The loop assigns and reports the strata, and the sizes pass. -/
theorem buildSplit_eq (permutes : ∀ rng l, (shuffle rng l).1.Perm l)
    (distinct : (docs.map Doc.id).Nodup) (thirty : docs.length = 30)
    (found : largestRemainderAllocation a (sizesOf docs) devSize = .ok counts)
    (allocated : Allocated (sizesOf docs) devSize counts) :
    buildSplit a random shuffle docs seed = .ok {
      seed := seed
      devSize := devSize
      testSize := testSize
      totalDocuments := docs.length
      documents := docs.foldl (fun acc d => acc.set d.id d.toDetails) []
      assignment := (reportsOf random shuffle docs counts seed).flatMap StratumReport.entries
      strata := reportsOf random shuffle docs counts seed } := by
  have keys := fun key (member : key ∈ sorted ((strataOf docs).map Prod.fst)) =>
    (sorted_perm _).mem_iff.mp member
  have looped := @splitStrata_eq _ shuffle _ _ _ _ _
    (fun key member => item_strataOf (keys key member))
    (fun key member => (item_eq_ok (keys_counts_nodup allocated)).mpr
      (counted allocated (keys key member)).1) (random seed) [] []
  have fresh : (Dict.keys ([] : Dict String) ++
      (reportsOf random shuffle docs counts seed).flatMap fun r => r.dev ++ r.test).Nodup :=
    (ids_reportsOf permutes).nodup_iff.mpr distinct
  have assigned := assigned_eq fresh
  obtain ⟨dev, test⟩ := count_entries (reportsOf random shuffle docs counts seed)
  rw [dev_total permutes allocated] at dev
  rw [test_total permutes allocated thirty] at test
  rw [← reportsOf, assigned, List.nil_append, List.nil_append] at looped
  rw [buildSplit]
  simp only [found, looped, dev, test, Bind.bind, Except.bind, Pure.pure, Except.pure, ne_eq,
    not_true_eq_false, or_self, if_false]

/-- What a split of documents is: each of them is in one of two parts, which the strata list;
twelve are in the one and eighteen in the other. -/
structure Split.Partitions (split : Split) (docs : List Doc) : Prop where
  one : ∀ d ∈ docs, Xor (split.assignment.get? d.id = some "dev")
    (split.assignment.get? d.id = some "test")
  only : ∀ id ∈ split.assignment.keys, id ∈ docs.map Doc.id
  dev : ∀ id, split.assignment.get? id = some "dev" ↔ id ∈ split.strata.flatMap StratumReport.dev
  test : ∀ id,
    split.assignment.get? id = some "test" ↔ id ∈ split.strata.flatMap StratumReport.test
  partition : (split.strata.flatMap StratumReport.dev ++
    split.strata.flatMap StratumReport.test).Perm (docs.map Doc.id)
  devTotal : (split.strata.flatMap StratumReport.dev).length = 12
  testTotal : (split.strata.flatMap StratumReport.test).length = 18
  strata : ∀ r ∈ split.strata, (r.dev ++ r.test).Perm (idsOf docs r.key)
  keys : (split.strata.map StratumReport.key).Nodup ∧
    ∀ key, key ∈ split.strata.map StratumReport.key ↔ key ∈ docs.map Doc.key

theorem mem_flatMap_entries {rs : List StratumReport} {id part : String} :
    (id, part) ∈ rs.flatMap StratumReport.entries ↔
      part = "dev" ∧ id ∈ rs.flatMap StratumReport.dev ∨
        part = "test" ∧ id ∈ rs.flatMap StratumReport.test := by
  simp only [List.mem_flatMap, StratumReport.entries, List.mem_append, List.mem_map,
    Prod.mk.injEq]
  constructor
  · rintro ⟨r, member, ⟨id, inside, rfl, rfl⟩ | ⟨id, inside, rfl, rfl⟩⟩
    · exact .inl ⟨rfl, r, member, inside⟩
    · exact .inr ⟨rfl, r, member, inside⟩
  · rintro (⟨rfl, r, member, inside⟩ | ⟨rfl, r, member, inside⟩)
    · exact ⟨r, member, .inl ⟨id, inside, rfl, rfl⟩⟩
    · exact ⟨r, member, .inr ⟨id, inside, rfl, rfl⟩⟩

theorem keys_flatMap_entries (rs : List StratumReport) :
    Dict.keys (rs.flatMap StratumReport.entries) = rs.flatMap fun r => r.dev ++ r.test := by
  rw [Dict.keys, List.map_flatMap]
  refine List.flatMap_congr fun r _ => ?_
  simp [StratumReport.entries, Function.comp_def]

/-- A split whose reports list the documents partitions them. -/
theorem Split.partitions_of_reports {split : Split} (distinct : (docs.map Doc.id).Nodup)
    (assignment : split.assignment = split.strata.flatMap StratumReport.entries)
    (ids : (split.strata.flatMap fun r => r.dev ++ r.test).Perm (docs.map Doc.id))
    (devTotal : (split.strata.flatMap StratumReport.dev).length = 12)
    (testTotal : (split.strata.flatMap StratumReport.test).length = 18)
    (strata : ∀ r ∈ split.strata, (r.dev ++ r.test).Perm (idsOf docs r.key))
    (keys : (split.strata.map StratumReport.key).Nodup ∧
      ∀ key, key ∈ split.strata.map StratumReport.key ↔ key ∈ docs.map Doc.key) :
    split.Partitions docs := by
  have assignedKeys : split.assignment.keys = split.strata.flatMap fun r => r.dev ++ r.test := by
    rw [assignment, keys_flatMap_entries]
  have nodup : split.assignment.keys.Nodup := by
    rw [assignedKeys]
    exact ids.nodup_iff.mpr distinct
  have reads (id part : String) : split.assignment.get? id = some part ↔
      part = "dev" ∧ id ∈ split.strata.flatMap StratumReport.dev ∨
        part = "test" ∧ id ∈ split.strata.flatMap StratumReport.test := by
    rw [← mem_flatMap_entries, ← assignment]
    exact (mem_iff_lookup nodup).symm
  have dev (id : String) : split.assignment.get? id = some "dev" ↔
      id ∈ split.strata.flatMap StratumReport.dev := by
    simp [reads]
  have test (id : String) : split.assignment.get? id = some "test" ↔
      id ∈ split.strata.flatMap StratumReport.test := by
    simp [reads]
  have partition := (flatMap_parts split.strata).trans ids
  refine ⟨?_, ?_, dev, test, partition, devTotal, testTotal, strata, keys⟩
  · intro d member
    have listed := partition.mem_iff.mpr (List.mem_map_of_mem (f := Doc.id) member)
    have apart : ¬ (split.assignment.get? d.id = some "dev" ∧
        split.assignment.get? d.id = some "test") := by
      rintro ⟨first, second⟩
      rw [first] at second
      exact absurd second (by decide)
    rw [xor_iff_or_and_not_and, dev, test]
    exact ⟨List.mem_append.mp listed, by rwa [dev, test] at apart⟩
  · intro id member
    rw [assignedKeys] at member
    exact ids.subset member

theorem fits_sizesOf (a : Arithmetic) (thirty : docs.length = 30) :
    a.Fits (sizesOf docs) devSize := by
  intro _ s member
  have le := List.single_le_sum (fun _ _ => Nat.zero_le _) s.2
    (List.mem_map_of_mem (f := Prod.snd) member)
  rw [sum_sizesOf, thirty] at le
  rw [devSize]
  omega

/-- The counts of thirty documents. -/
theorem allocation_docs (a : Arithmetic) (thirty : docs.length = 30) :
    ∃ counts, largestRemainderAllocation a (sizesOf docs) devSize = .ok counts ∧
      Allocated (sizesOf docs) devSize counts := by
  have distinct : ((sizesOf docs).map Prod.fst).Nodup := by
    rw [keys_sizesOf]
    exact keys_strataOf_nodup docs
  apply allocation_allocated (fits_sizesOf a thirty) distinct
  · rw [sum_sizesOf, thirty]
    decide
  · rw [sum_sizesOf, thirty]
    decide

/-- Another order of the documents gives the same reports. -/
theorem reportsOf_perm {counts' : List (Stratum × ℕ)} (perm : docs'.Perm docs)
    (allocated : Allocated (sizesOf docs) devSize counts)
    (allocated' : Allocated (sizesOf docs') devSize counts') (same : counts'.Perm counts) :
    reportsOf random shuffle docs' counts' seed = reportsOf random shuffle docs counts seed := by
  rw [reportsOf, reportsOf, sorted_keys_eq perm]
  apply reports_congr
  · exact fun key _ => (perm.filter _).map _
  · intro key member
    have listed := (counted allocated ((sorted_perm _).mem_iff.mp member)).1
    exact countOf_of_mem allocated' (same.mem_iff.mpr listed)

/-- The split that is built partitions the documents by the reports of their strata. -/
theorem buildSplit_partitions (permutes : ∀ rng l, (shuffle rng l).1.Perm l)
    (distinct : (docs.map Doc.id).Nodup) (thirty : docs.length = 30)
    (found : largestRemainderAllocation a (sizesOf docs) devSize = .ok counts)
    (allocated : Allocated (sizesOf docs) devSize counts) :
    ∃ split, buildSplit a random shuffle docs seed = .ok split ∧
      split.assignment =
        (reportsOf random shuffle docs counts seed).flatMap StratumReport.entries ∧
      split.strata = reportsOf random shuffle docs counts seed ∧ split.Partitions docs := by
  refine ⟨_, buildSplit_eq permutes distinct thirty found allocated, rfl, rfl, ?_⟩
  apply Split.partitions_of_reports distinct rfl (ids_reportsOf permutes)
    (dev_total permutes allocated) (test_total permutes allocated thirty)
    fun r member => (mem_reportsOf permutes allocated member).2.1
  show (List.map _ (reportsOf random shuffle docs counts seed)).Nodup ∧ ∀ key,
    key ∈ List.map _ (reportsOf random shuffle docs counts seed) ↔ _
  rw [keys_reportsOf]
  refine ⟨(sorted_perm _).nodup_iff.mpr (keys_strataOf_nodup docs), fun key => ?_⟩
  rw [(sorted_perm _).mem_iff, strataOf, mem_keys_group, List.map_map]
  rfl

/-- Thirty documents with distinct ids are split into twelve and eighteen, each stratum at its
count, and the split does not depend on their order. -/
theorem buildSplit_spec (a : Arithmetic) (random : ℤ → σ)
    (permutes : ∀ rng l, (shuffle rng l).1.Perm l) (distinct : (docs.map Doc.id).Nodup)
    (thirty : docs.length = 30) (seed : ℤ) :
    ∃ counts split, largestRemainderAllocation a (sizesOf docs) devSize = .ok counts ∧
      buildSplit a random shuffle docs seed = .ok split ∧ split.Partitions docs ∧
      (∀ r ∈ split.strata, (r.key, r.dev.length) ∈ counts) ∧
      ∀ docs', docs'.Perm docs → ∃ split', buildSplit a random shuffle docs' seed = .ok split' ∧
        split'.assignment = split.assignment ∧ split'.strata = split.strata := by
  obtain ⟨counts, found, allocated⟩ := allocation_docs a thirty
  obtain ⟨split, built, assignment, strata, parts⟩ :=
    buildSplit_partitions permutes distinct thirty found allocated
  refine ⟨counts, split, found, built, parts, ?_, ?_⟩
  · intro r member
    rw [strata] at member
    exact (mem_reportsOf permutes allocated member).2.2
  · intro docs' perm
    have thirty' : docs'.length = 30 := perm.length_eq.trans thirty
    have distinct' : (docs'.map Doc.id).Nodup := (perm.map _).nodup_iff.mpr distinct
    have keys : ((sizesOf docs).map Prod.fst).Nodup := by
      rw [keys_sizesOf]
      exact keys_strataOf_nodup docs
    obtain ⟨counts', found', same⟩ := allocation_perm keys (sizesOf_perm perm) found
    obtain ⟨_, again, allocated'⟩ := allocation_docs a thirty'
    obtain rfl := Except.ok.inj (found'.symm.trans again)
    obtain ⟨split', built', assignment', strata', _⟩ :=
      buildSplit_partitions permutes distinct' thirty' found' allocated'
    refine ⟨split', built', ?_, ?_⟩
    · rw [assignment', assignment, reportsOf_perm perm allocated allocated' same]
    · rw [strata', strata, reportsOf_perm perm allocated allocated' same]

end Build

/-- Thirty documents in four strata. -/
def thirtyDocs : List Doc := (List.range 30).map fun n =>
  { id := toString n
    org := "org"
    isOriginal10 := n < 10
    profile := if n % 3 = 0 then "oss_project" else "large_vendor"
    profileSource := "corpus_manifest" }

/-- A generator that turns a list farther each time. -/
def turn (rng : ℕ) (l : List String) : List String × ℕ := (l.rotate rng, rng + 1)

theorem buildSplit_spec_thirty : ∃ counts split,
    largestRemainderAllocation .doubles (sizesOf thirtyDocs) devSize = .ok counts ∧
      buildSplit .doubles Int.toNat turn thirtyDocs 20260918 = .ok split ∧
      split.Partitions thirtyDocs := by
  obtain ⟨counts, split, found, built, parts, _⟩ := @buildSplit_spec _ turn thirtyDocs
    .doubles Int.toNat (fun rng l => l.rotate_perm rng) (by decide) rfl 20260918
  exact ⟨counts, split, found, built, parts⟩

/-! ### The manifest -/

/-- An entry of the corpus manifest; a missing profile is one that is null. -/
structure ManifestDocument where
  id : String
  org : String
  profile : Option String
deriving DecidableEq, Repr

def original10 : List String := ["A", "B", "C", "D", "E", "F", "G", "H", "I", "J"]

def inferredProfile : Dict String :=
  [("A", "large_vendor"), ("B", "large_vendor"), ("C", "large_vendor"), ("D", "large_vendor"),
    ("E", "large_vendor"), ("F", "large_vendor"), ("G", "large_vendor"), ("H", "large_vendor"),
    ("I", "large_vendor"), ("J", "oss_project")]

/-- One turn of the loop of `load_documents`. -/
def loadDocument (d : ManifestDocument) : Except String Doc :=
  let isOriginal := decide (d.id ∈ original10)
  match d.profile with
  | some profile => .ok ⟨⟨d.org, isOriginal, profile, "corpus_manifest"⟩, d.id⟩
  | none => do
      let profile ← item inferredProfile d.id
      .ok ⟨⟨d.org, isOriginal, profile, "inferred_from_org_by_make_split.py"⟩, d.id⟩

def loadDocuments (manifest : List ManifestDocument) : Except String (List Doc) := do
  let docs ← manifest.mapM loadDocument
  if docs.length ≠ 30 then
    throw ("expected 30 documents, found " ++ toString docs.length)
  return docs

theorem loadDocument_id {d : ManifestDocument} {doc : Doc} (loaded : loadDocument d = .ok doc) :
    doc.id = d.id := by
  rw [loadDocument] at loaded
  cases profile : d.profile with
  | some found =>
      simp only [profile] at loaded
      cases loaded
      rfl
  | none =>
      simp only [profile] at loaded
      cases inferred : item inferredProfile d.id with
      | error e => simp [inferred, Bind.bind, Except.bind] at loaded
      | ok found =>
          simp only [inferred, Bind.bind, Except.bind] at loaded
          cases loaded
          rfl

/-- What is loaded are thirty documents with the ids of the manifest. -/
theorem loadDocuments_ids {manifest : List ManifestDocument} {docs : List Doc}
    (loaded : loadDocuments manifest = .ok docs) :
    docs.length = 30 ∧ docs.map Doc.id = manifest.map ManifestDocument.id := by
  have ids : ∀ {manifest : List ManifestDocument} {docs : List Doc},
      manifest.mapM loadDocument = .ok docs → docs.map Doc.id =
        manifest.map ManifestDocument.id := by
    intro manifest
    induction manifest with
    | nil =>
        intro docs found
        cases found
        rfl
    | cons d rest ih =>
        intro docs found
        rw [List.mapM_cons] at found
        cases first : loadDocument d with
        | error e => simp [first, Bind.bind, Except.bind] at found
        | ok doc =>
            cases later : rest.mapM loadDocument with
            | error e => simp [first, later, Bind.bind, Except.bind] at found
            | ok others =>
                simp only [first, later, Bind.bind, Except.bind, Pure.pure, Except.pure] at found
                cases found
                rw [List.map_cons, List.map_cons, loadDocument_id first, ih later]
  rw [loadDocuments] at loaded
  cases all : manifest.mapM loadDocument with
  | error e => simp [all, Bind.bind, Except.bind] at loaded
  | ok found =>
      simp only [all, Bind.bind, Except.bind, Pure.pure, Except.pure, throw, throwThe,
        MonadExceptOf.throw] at loaded
      split at loaded
      · cases loaded
      · next thirty =>
          obtain rfl := Except.ok.inj loaded
          exact ⟨not_not.mp thirty, ids all⟩

/-- The documents of a manifest with distinct ids are split, if they can be loaded. -/
theorem loaded_splits {σ : Type} {random : ℤ → σ}
    {shuffle : σ → List String → List String × σ} (permutes : ∀ rng l, (shuffle rng l).1.Perm l)
    {manifest : List ManifestDocument} {docs : List Doc}
    (distinct : (manifest.map ManifestDocument.id).Nodup)
    (loaded : loadDocuments manifest = .ok docs) (a : Arithmetic) (seed : ℤ) :
    ∃ split, buildSplit a random shuffle docs seed = .ok split ∧ split.Partitions docs := by
  obtain ⟨thirty, ids⟩ := loadDocuments_ids loaded
  obtain ⟨counts, found, allocated⟩ := allocation_docs a thirty
  obtain ⟨split, built, _, _, parts⟩ :=
    buildSplit_partitions permutes (ids ▸ distinct) thirty found allocated
  exact ⟨split, built, parts⟩

end IncidentPipeline.MakeSplit
