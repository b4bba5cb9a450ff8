import IncidentPipeline.Review.States
import IncidentPipeline.Worker.Changes

/-!
# The migration to review rows

Revision 0008 creates `field_reviews` and writes the rows of the extractions that are already
there, one for each key of the confidences of a complete extraction. A later extraction gets its
rows from `create_field_reviews`, so the two have to agree. The server joins the extractions
with their keys in an order of its own.
-/

namespace IncidentPipeline.Migration0008

open Python Tables Transactions

/-- The tables at revision 0007. -/
structure Revision0007 where
  sources : List Source
  documents : List Document
  jobs : List Job
  extractions : List Extraction

def Revision0007.createTable (r : Revision0007) : Database :=
  ⟨r.sources, r.documents, r.jobs, r.extractions, []⟩

/-- The rows are dropped with their table. -/
def downgrade (d : Database) : Revision0007 := ⟨d.sources, d.documents, d.jobs, d.extractions⟩

/-- `jsonb_each_text` of a column. NULL has no entries. -/
def entriesOf : Option Json → Except Exc (Dict Json)
  | none => .ok []
  | some (.obj members) => .ok members
  | some _ => .error (databaseError "cannot call jsonb_each_text on a non-object")

def notANumber : Exc := databaseError "invalid input syntax for type double precision"

def missingConfidence : Exc :=
  databaseError "null value in column \"confidence\" violates not-null constraint"

/-- `c.value::float`, for a column that takes no NULL. `spelled` reads the text of a string. -/
def castFloat (spelled : String → Option Confidence) : Json → Except Exc Confidence
  | .num q => .ok (q : ℚ)
  | .str s => (spelled s).elim (.error notANumber) .ok
  | .null => .error missingConfidence
  | _ => .error notANumber

/-- A row of `extractions e, jsonb_each_text(e.per_field_confidence) c`. -/
abbrev Entry := Extraction × String × Json

def entriesWith (x : Extraction) : Except Exc (List Entry) := do
  let entries ← entriesOf x.perFieldConfidence
  return entries.map fun c => (x, c)

/-- The join of the statement, `WHERE e.status = 'complete'`. -/
def joined (extractions : List Extraction) : Except Exc (List Entry) := do
  let lists ← (extractions.filter (·.status = .complete)).mapM entriesWith
  return lists.flatten

/-- `COALESCE(e.record -> c.key, 'null'::jsonb)` and the defaults of the other columns. -/
def backfilled (id : Uuid) (now : Time) (x : Extraction) (key : String) (confidence : Confidence) :
    FieldReview :=
  ⟨id, x.id, key, confidence, memberOf (x.record.getD .null) key, .unreviewed, none, 0, none, none,
    none, none, none, none, now⟩

/-- What the server brings to the statement: the order of the join, the random identifiers and
the time. -/
structure Environment where
  spelled : String → Option Confidence
  arrange : List Entry → List Entry
  arranges : ∀ entries, (arrange entries).Perm entries
  ids : Nat → Uuid
  distinct : Function.Injective ids
  now : Time

def Environment.row (env : Environment) (e : Entry × Nat) : Except Exc FieldReview := do
  let confidence ← castFloat env.spelled e.1.2.2
  return backfilled (env.ids e.2) env.now e.1.1 e.1.2.1 confidence

/-- `INSERT INTO field_reviews ... SELECT ...` into the new table. -/
def upgrade (env : Environment) (r : Revision0007) : Except Exc Database := do
  let entries ← joined r.extractions
  let rows ← (env.arrange entries).zipIdx.mapM env.row
  postgres.replay (rows.map .insertFieldReview) r.createTable

/-! ### What the statement selects -/

theorem mapM_eq_ok {α β : Type} {f : α → Except Exc β} {P : α → Prop} {g : α → β}
    (each : ∀ a b, f a = .ok b ↔ P a ∧ b = g a) {xs : List α} {ys : List β} :
    xs.mapM f = .ok ys ↔ (∀ a ∈ xs, P a) ∧ ys = xs.map g := by
  rw [except_mapM_ok]
  induction xs generalizing ys with
  | nil => simp
  | cons a rest ih =>
      rw [List.forall₂_cons_left_iff, List.forall_mem_cons]
      constructor
      · rintro ⟨b, bs, first, later, rfl⟩
        obtain ⟨holds, rfl⟩ := (each a b).mp first
        obtain ⟨others, rfl⟩ := ih.mp later
        exact ⟨⟨holds, others⟩, rfl⟩
      · rintro ⟨⟨holds, others⟩, rfl⟩
        exact ⟨g a, rest.map g, (each a _).mpr ⟨holds, rfl⟩, ih.mpr ⟨others, rfl⟩, rfl⟩

/-- The keys and values of the confidences, where they are an object. -/
def scores (x : Extraction) : Dict Json :=
  match x.perFieldConfidence with
  | some (.obj members) => members
  | _ => []

def Environment.number (env : Environment) (v : Json) : Confidence :=
  match castFloat env.spelled v with
  | .ok q => q
  | .error _ => ⊤

/-- The confidences can be listed, and each can be cast. -/
def Environment.Casts (env : Environment) (x : Extraction) : Prop :=
  (∃ entries, entriesOf x.perFieldConfidence = .ok entries) ∧
    ∀ c ∈ scores x, ∃ q, castFloat env.spelled c.2 = .ok q

def join (extractions : List Extraction) : List Entry :=
  (extractions.filter (·.status = .complete)).flatMap fun x => (scores x).map fun c => (x, c)

def Environment.rows (env : Environment) (extractions : List Extraction) : List FieldReview :=
  (env.arrange (join extractions)).zipIdx.map fun e =>
    backfilled (env.ids e.2) env.now e.1.1 e.1.2.1 (env.number e.1.2.2)

section Selected

variable {env : Environment} {x : Extraction} {xs : List Extraction} {r : Revision0007}
  {d : Database}

theorem entriesWith_eq_ok {l : List Entry} :
    entriesWith x = .ok l ↔
      (∃ entries, entriesOf x.perFieldConfidence = .ok entries) ∧
        l = (scores x).map fun c => (x, c) := by
  rw [entriesWith, scores]
  cases x.perFieldConfidence with
  | none => simp [entriesOf, pure, Except.pure, eq_comm]
  | some v => cases v <;> simp [entriesOf, pure, Except.pure, eq_comm]

theorem joined_eq_ok {entries : List Entry} :
    joined xs = .ok entries ↔
      (∀ x ∈ xs, x.status = .complete →
        ∃ entries, entriesOf x.perFieldConfidence = .ok entries) ∧ entries = join xs := by
  rw [joined, except_bind_ok]
  simp only [mapM_eq_ok @entriesWith_eq_ok, List.mem_filter, decide_eq_true_eq, and_imp]
  constructor
  · rintro ⟨_, ⟨listed, rfl⟩, done⟩
    exact ⟨listed, (Except.ok.inj done).symm⟩
  · rintro ⟨listed, rfl⟩
    exact ⟨_, ⟨listed, rfl⟩, rfl⟩

theorem Environment.row_eq_ok {e : Entry × Nat} {row : FieldReview} :
    env.row e = .ok row ↔
      (∃ q, castFloat env.spelled e.1.2.2 = .ok q) ∧
        row = backfilled (env.ids e.2) env.now e.1.1 e.1.2.1 (env.number e.1.2.2) := by
  rw [Environment.row, Environment.number]
  cases castFloat env.spelled e.1.2.2 with
  | ok q => simp [pure, Except.pure, eq_comm]
  | error e => simp

theorem mem_join {e : Entry} :
    e ∈ join xs ↔ e.1 ∈ xs ∧ e.1.status = .complete ∧ e.2 ∈ scores e.1 := by
  obtain ⟨x, c⟩ := e
  simp only [join, List.mem_flatMap, List.mem_filter, decide_eq_true_eq, List.mem_map,
    Prod.mk.injEq]
  constructor
  · rintro ⟨y, ⟨member, complete⟩, c, listed, rfl, rfl⟩
    exact ⟨member, complete, listed⟩
  · rintro ⟨member, complete, listed⟩
    exact ⟨x, ⟨member, complete⟩, c, listed, rfl, rfl⟩

/-- The statement goes through if every confidence can be cast and the rows can be inserted. -/
theorem upgrade_eq_ok :
    upgrade env r = .ok d ↔ (∀ x ∈ r.extractions, x.status = .complete → env.Casts x) ∧
      postgres.replay ((env.rows r.extractions).map .insertFieldReview) r.createTable = .ok d := by
  simp only [upgrade, except_bind_ok, joined_eq_ok, mapM_eq_ok (@Environment.row_eq_ok env)]
  have arranged : ∀ e, e ∈ env.arrange (join r.extractions) ↔ e ∈ join r.extractions := fun e =>
    (env.arranges _).mem_iff
  constructor
  · rintro ⟨_, ⟨listed, rfl⟩, _, ⟨casts, rfl⟩, done⟩
    refine ⟨fun x member complete => ⟨listed x member complete, fun c hc => ?_⟩, done⟩
    have there := (arranged (x, c)).mpr (mem_join.mpr ⟨member, complete, hc⟩)
    rw [← List.zipIdx_map_fst 0 (env.arrange (join r.extractions))] at there
    obtain ⟨e, numbered, same⟩ := List.mem_map.mp there
    exact congrArg (fun e : Entry => e.2.2) same ▸ casts e numbered
  · rintro ⟨casts, done⟩
    refine ⟨_, ⟨fun x member complete => (casts x member complete).1, rfl⟩, _, ⟨?_, rfl⟩, done⟩
    intro e he
    obtain ⟨member, complete, listed⟩ :=
      mem_join.mp ((arranged e.1).mp (List.fst_mem_of_mem_zipIdx he))
    exact (casts e.1.1 member complete).2 _ listed

end Selected

/-! ### The rows that are there afterwards -/

/-- What the types do not say of the stored tables: an id belongs to one row, and an object has
each key once. -/
structure Stored (r : Revision0007) : Prop where
  ids : Keyed Extraction.id r.extractions
  keys : ∀ x ∈ r.extractions, x.status = .complete → (scores x).keys.Nodup

/-- The confidences go with the fields of the record: numbers, and null for what is none. -/
structure Scored (x : Extraction) : Prop where
  fields : (scores x).keys.Perm recordFields
  numbers : ∀ c ∈ scores x, c.2 = .null ∨ ∃ q, c.2 = .num q
  column : x.perFieldConfidence = some (.obj (scores x))

/-- They can be cast if none is null. -/
theorem Scored.casts_iff {env : Environment} {x : Extraction} (scored : Scored x) :
    env.Casts x ↔ ∀ c ∈ scores x, c.2 ≠ .null := by
  constructor
  · rintro ⟨_, casts⟩ c listed none
    obtain ⟨q, cast⟩ := casts c listed
    rw [none] at cast
    cases cast
  · intro numbers
    refine ⟨⟨scores x, by rw [scored.column]; rfl⟩, fun c listed => ?_⟩
    obtain none | ⟨q, number⟩ := scored.numbers c listed
    · exact absurd none (numbers c listed)
    · exact ⟨(q : ℚ), by rw [number]; rfl⟩

/-- What is null becomes NaN in a row that `create_field_reviews` writes. -/
theorem Scored.number_eq {env : Environment} {x : Extraction} (scored : Scored x)
    {c : String × Json} (listed : c ∈ scores x) : env.number c.2 = numberOf c.2 := by
  obtain none | ⟨q, number⟩ := scored.numbers c listed
  · rw [none]
    rfl
  · rw [number]
    rfl

theorem Scored.number_eq_top_iff {x : Extraction} (scored : Scored x) {c : String × Json}
    (listed : c ∈ scores x) : numberOf c.2 = ⊤ ↔ c.2 = .null := by
  obtain none | ⟨q, number⟩ := scored.numbers c listed
  · exact iff_of_true (by rw [none]; rfl) none
  · rw [number]
    exact iff_of_false (WithTop.coe_ne_top) nofun

section Written

variable {env : Environment} {x : Extraction} {xs : List Extraction} {r : Revision0007}
  {d : Database}

theorem fresh_of_mem_rows {row : FieldReview} (member : row ∈ env.rows xs) :
    row.Fresh ∧ row.createdAt = env.now ∧
      ∃ x ∈ xs, x.id = row.extractionId ∧ x.status = .complete := by
  obtain ⟨e, he, rfl⟩ := List.mem_map.mp member
  have there := (env.arranges _).mem_iff.mp (List.fst_mem_of_mem_zipIdx he)
  obtain ⟨known, complete, _⟩ := mem_join.mp there
  exact ⟨⟨rfl, ⟨rfl, rfl, rfl, rfl⟩, rfl⟩, rfl, e.1.1, known, rfl, complete⟩

/-- What does not depend on the number that a row is drawn with comes from the join. -/
theorem rows_perm {β : Type} {read : FieldReview → β} {f : Entry → β}
    (reads : ∀ id (e : Entry), read (backfilled id env.now e.1 e.2.1 (env.number e.2.2)) = f e) :
    ((env.rows xs).map read).Perm ((join xs).map f) := by
  have same : (env.rows xs).map read = (env.arrange (join xs)).map f := by
    rw [← List.zipIdx_map_fst 0 (env.arrange (join xs)), List.map_map, Environment.rows,
      List.map_map]
    exact List.map_congr_left fun e _ => reads _ e.1
  exact same ▸ (env.arranges _).map f

theorem join_slots (ids : Keyed Extraction.id xs)
    (keys : ∀ x ∈ xs, x.status = .complete → (scores x).keys.Nodup) :
    ((join xs).map fun e => (e.1.id, e.2.1)).Nodup := by
  rw [join, List.map_flatMap, List.nodup_flatMap]
  refine ⟨fun x member => ?_, ?_⟩
  · rw [List.map_map]
    obtain ⟨known, complete⟩ := List.mem_filter.mp member
    have distinct := keys x known (of_decide_eq_true complete)
    exact (List.map_map (l := scores x) (g := Prod.mk x.id) (f := Prod.fst)) ▸
      distinct.map (Prod.mk_right_injective x.id)
  · refine ((List.pairwise_map.mp ids).filter _).imp fun {x y} apart e first second => ?_
    simp only [List.map_map, List.mem_map, Function.comp_apply] at first second
    obtain ⟨_, _, rfl⟩ := first
    obtain ⟨_, _, same⟩ := second
    exact apart (congrArg Prod.fst same).symm

theorem rows_legal (stored : Stored r) : LegalReviews (env.rows r.extractions) := by
  refine ⟨⟨?_, ?_⟩, fun row member => (fresh_of_mem_rows member).1.valid.checked⟩
  · have drawn : (env.rows r.extractions).map FieldReview.id =
        ((env.arrange (join r.extractions)).zipIdx.map Prod.snd).map env.ids := by
      rw [Environment.rows, List.map_map, List.map_map]
      rfl
    rw [Keyed, drawn, List.zipIdx_map_snd]
    exact List.Nodup.map env.distinct List.nodup_range'
  · have slots := @rows_perm env r.extractions _ FieldReview.slot (fun e => (e.1.id, e.2.1))
      fun _ _ => rfl
    exact slots.nodup_iff.mpr (join_slots stored.ids stored.keys)

/-- The entries of one extraction. -/
theorem join_filter (ids : Keyed Extraction.id xs) (member : x ∈ xs) :
    (join xs).filter (·.1.id = x.id) =
      if x.status = .complete then (scores x).map fun c => (x, c) else [] := by
  have through : ∀ ys : List Extraction,
      (ys.flatMap fun y => (scores y).map fun c => (y, c)).filter (·.1.id = x.id) =
        (ys.filter (·.id = x.id)).flatMap fun y => (scores y).map fun c => (y, c) := by
    intro ys
    induction ys with
    | nil => rfl
    | cons y rest ih =>
        rw [List.flatMap_cons, List.filter_append, ih, List.filter_map]
        by_cases same : y.id = x.id <;> simp [Function.comp_def, same]
  rw [join, through, List.filter_comm, ids.filter_key member]
  split
  · next complete => simp [complete]
  · next failed => simp [failed]

/-- The rows of one extraction, up to their order. -/
theorem rows_filter (ids : Keyed Extraction.id xs) (member : x ∈ xs) :
    (((env.rows xs).filter (·.extractionId = x.id)).map FieldReview.extracted).Perm
      (if x.status = .complete then
        (scores x).map fun c => (c.1, memberOf (x.record.getD .null) c.1, env.number c.2)
      else []) := by
  have through : ((env.rows xs).filter (·.extractionId = x.id)).map FieldReview.extracted =
      (((env.rows xs).map fun row => (row.extractionId, row.extracted)).filter
        (·.1 = x.id)).map Prod.snd := by
    rw [List.filter_map, List.map_map]
    rfl
  have content := @rows_perm env xs _ (fun row => (row.extractionId, row.extracted))
    (fun e => (e.1.id, e.2.1, memberOf (e.1.record.getD .null) e.2.1, env.number e.2.2))
    fun _ _ => rfl
  rw [through]
  refine ((content.filter _).map _).trans (.of_eq ?_)
  rw [List.filter_map, List.map_map]
  refine (congrArg (List.map _) (join_filter ids member)).trans ?_
  split
  · rw [List.map_map]
    rfl
  · rfl

/-- The statement writes what `create_field_reviews` would have written. -/
theorem expected_of_scored (complete : x.status = .complete) (scored : Scored x) :
    ((scores x).map fun c => (c.1, memberOf (x.record.getD .null) c.1, env.number c.2)).Perm
      x.expected := by
  have each : ((scores x).map fun c =>
        (c.1, memberOf (x.record.getD .null) c.1, env.number c.2)) =
      (scores x).keys.map fun field => (field, memberOf (x.record.getD .null) field,
        numberOf (memberOf (x.perFieldConfidence.getD .null) field)) := by
    rw [Dict.keys, List.map_map]
    refine List.map_congr_left fun c listed => ?_
    have nodup : (scores x).keys.Nodup := scored.fields.nodup_iff.mpr recordFields_nodup
    have found : memberOf (x.perFieldConfidence.getD .null) c.1 = c.2 := by
      rw [scored.column]
      exact memberOf_eq (Dict.get?_of_mem nodup listed)
    simp only [Function.comp_apply, found, scored.number_eq listed]
  rw [each, Extraction.expected, complete]
  exact scored.fields.map _

/-- The confidences can be cast exactly if no row of `create_field_reviews` says NaN. -/
theorem casts_iff_expected (complete : x.status = .complete) (scored : Scored x) :
    env.Casts x ↔ ∀ e ∈ x.expected, e.2.2 ≠ ⊤ := by
  have written : ((scores x).map fun c =>
      (c.1, memberOf (x.record.getD .null) c.1, env.number c.2)).Perm x.expected :=
    expected_of_scored complete scored
  have same : ∀ e, e ∈ x.expected ↔ ∃ c ∈ scores x,
      (c.1, memberOf (x.record.getD .null) c.1, env.number c.2) = e := fun e =>
    written.mem_iff.symm.trans List.mem_map
  rw [scored.casts_iff]
  constructor
  · intro numbers e expected
    obtain ⟨c, listed, rfl⟩ := (same e).mp expected
    show env.number c.2 ≠ ⊤
    rw [scored.number_eq listed, Ne, scored.number_eq_top_iff listed]
    exact numbers c listed
  · intro numbers c listed none
    refine numbers _ ((same _).mpr ⟨c, listed, rfl⟩) ?_
    show env.number c.2 = ⊤
    rw [scored.number_eq listed, scored.number_eq_top_iff listed]
    exact none

/-- The migration goes through exactly if it can read every confidence as a number. Then it keeps
the other tables, starts every row as a row that nobody has looked at, and gives an extraction the
rows that `create_field_reviews` gives to a new one. -/
theorem upgrade_reviews (stored : Stored r) :
    ((∃ d, upgrade env r = .ok d) ↔
        ∀ x ∈ r.extractions, x.status = .complete → env.Casts x) ∧
      ∀ d, upgrade env r = .ok d → downgrade d = r ∧ LegalReviews d.fieldReviews ∧
        (∀ row ∈ d.fieldReviews, row.Fresh ∧ row.createdAt = env.now ∧
          ∃ x ∈ r.extractions, x.id = row.extractionId ∧ x.status = .complete) ∧
        ∀ x ∈ r.extractions, (x.status = .complete → Scored x) →
          ((d.fieldReviews.filter (·.extractionId = x.id)).map FieldReview.extracted).Perm
            x.expected := by
  have legal := @rows_legal env r stored
  have replayed := @insertFieldReviews_replay (env.rows r.extractions) r.createTable
    (by simpa [Revision0007.createTable] using legal.table) legal.checked
  refine ⟨⟨fun ⟨d, done⟩ => (upgrade_eq_ok.mp done).1, fun casts =>
    ⟨_, upgrade_eq_ok.mpr ⟨casts, replayed⟩⟩⟩, fun d done => ?_⟩
  obtain rfl := Except.ok.inj (replayed.symm.trans (upgrade_eq_ok.mp done).2)
  have fresh : ∀ row ∈ env.rows r.extractions, _ := fun row member =>
    @fresh_of_mem_rows env r.extractions row member
  refine ⟨rfl, legal, fresh, fun x member scored => (rows_filter stored.ids member).trans ?_⟩
  cases status : x.status with
  | complete => exact expected_of_scored status (scored status)
  | failed => simp [Extraction.expected, status]

end Written

end IncidentPipeline.Migration0008
