import IncidentPipeline.Runtime

/-!
# Scoring a run against the gold set

The first half of `eval/scripts/score_m5_dev`: what is read for each document of the dev
split, and the counts from which every accuracy figure is made. A figure takes some of
these documents, all of them or those of one kind, and counts the correct ones.
-/

namespace IncidentPipeline.Scoring

open Python

/-- `FIELDS`. -/
inductive ScoredField where
  | trigger
  | mechanism
  | detectionMethod
deriving DecidableEq, Repr

def ScoredField.name : ScoredField → String
  | .trigger => "trigger"
  | .mechanism => "mechanism"
  | .detectionMethod => "detection_method"

/-- `GOLD_KEY`. -/
def ScoredField.goldKey : ScoredField → String
  | .trigger => "trigger_label"
  | .mechanism => "mechanism_label"
  | .detectionMethod => "detection_method"

/-! ### Reading decoded JSON -/

/-- `bool(value)`. -/
def truthy : Json → Bool
  | .null => false
  | .bool b => b
  | .num q => q ≠ 0
  | .nonFinite _ => true
  | .str s => s ≠ ""
  | .arr items => !items.isEmpty
  | .obj members => !members.isEmpty

/-- `value or {}` for what `get` returned. -/
def orEmpty : Option Json → Json
  | some v => if truthy v then v else .obj []
  | none => .obj []

/-- `value.get(key)`. -/
def getOf : Json → String → Except Exc (Option Json)
  | .obj members, key => .ok (Dict.get? members key)
  | _, _ => .error (foreign "AttributeError" "object has no attribute 'get'")

/-- `value[key]`. -/
def subscript : Json → String → Except Exc Json
  | .obj members, key =>
      match Dict.get? members key with
      | some v => .ok v
      | none => .error ⟨.keyError, key, []⟩
  | _, _ => .error (foreign "TypeError" "object is not subscriptable")

/-- What a `for` goes through. -/
def iterate : Json → Except Exc (List Json)
  | .arr items => .ok items
  | .str s => .ok (s.toList.map fun c => .str (String.singleton c))
  | .obj members => .ok (members.map fun entry => .str entry.1)
  | _ => .error (foreign "TypeError" "object is not iterable")

/-- What a `for` over `value or []` goes through. -/
def iterateOrEmpty (value : Json) : Except Exc (List Json) :=
  if truthy value then iterate value else .ok []

/-! ### What is read for a document -/

/-- The first document of the run with the identifier. -/
def documentOf (docId : String) : List Json → Except Exc Json
  | [] => .error ⟨.keyError, docId, []⟩
  | doc :: rest => do
      let id ← subscript doc "id"
      if id.pyEq (.str docId) then return doc else documentOf docId rest

def recordFor (documents : List Json) (docId : String) : Except Exc Json := do
  let doc ← documentOf docId documents
  let extraction := orEmpty (← getOf doc "extraction")
  return orEmpty (← getOf extraction "record")

def confidenceFor (documents : List Json) (docId : String) : Except Exc Json := do
  let doc ← documentOf docId documents
  let extraction := orEmpty (← getOf doc "extraction")
  return orEmpty (← getOf extraction "per_field_confidence")

def predValue (record : Json) : ScoredField → Except Exc Json
  | .detectionMethod => do return (← getOf record "detection_method").getD .null
  | field => do
      match (← getOf record field.name).getD .null with
      | .obj label => return (Dict.get? label "label").getD .null
      | node => return node

/-- `gold_by_id`; an identifier that is not a string is not one of a document, and a list or a
dictionary cannot be a key. -/
def goldById (goldList : List Json) : Except Exc (Dict Json) :=
  goldList.foldlM (fun byId g => do
    match ← subscript g "document_id" with
    | .str docId => return Dict.set byId docId g
    | .arr _ => .error (foreign "TypeError" "unhashable type: 'list'")
    | .obj _ => .error (foreign "TypeError" "unhashable type: 'dict'")
    | _ => return byId) []

/-- `gold_by_id[doc_id]`. -/
def goldOf (byId : Dict Json) (docId : String) : Except Exc Json :=
  match Dict.get? byId docId with
  | none => .error ⟨.keyError, docId, []⟩
  | some gold => .ok gold

def goldLabel (gold : Json) (field : ScoredField) : Except Exc Json := do
  return (← getOf gold field.goldKey).getD .null

structure Scored where
  gold : Json
  pred : Json
  correct : Bool
  confidence : Json

def scoreField (gold record confidence : Json) (field : ScoredField) : Except Exc Scored := do
  let label ← goldLabel gold field
  let pred ← predValue record field
  return ⟨label, pred, label.pyEq pred, (← getOf confidence field.name).getD .null⟩

/-- An entry of `per_doc`. -/
structure Entry where
  docId : String
  trigger : Scored
  mechanism : Scored
  detectionMethod : Scored

def Entry.score (e : Entry) : ScoredField → Scored
  | .trigger => e.trigger
  | .mechanism => e.mechanism
  | .detectionMethod => e.detectionMethod

def scoreDocument (byId : Dict Json) (documents : List Json) (docId : String) :
    Except Exc Entry := do
  let gold ← goldOf byId docId
  let record ← recordFor documents docId
  let confidence ← confidenceFor documents docId
  return ⟨docId, ← scoreField gold record confidence .trigger,
    ← scoreField gold record confidence .mechanism,
    ← scoreField gold record confidence .detectionMethod⟩

/-- The order of `(len(x), x)`. -/
def shorterFirst (a b : String) : Bool :=
  if a.length = b.length then decide (a ≤ b) else a.length < b.length

def devIds (assignment : Dict Json) : List String :=
  ((assignment.filter fun entry => entry.2.pyEq (.str "dev")).map Prod.fst).mergeSort shorterFirst

/-- `per_doc`, in the order of the identifiers. -/
def scoreDev (goldList documents : List Json) (assignment : Dict Json) :
    Except Exc (List Entry) := do
  let byId ← goldById goldList
  (devIds assignment).mapM (scoreDocument byId documents)

/-- The numerator of an accuracy figure over some of the documents. -/
def correctCount (entries : List Entry) (field : ScoredField) : Nat :=
  entries.countP fun e => (e.score field).correct

/-! ### Documents without a record -/

section Unextracted

variable {byId : Dict Json} {goldList documents : List Json} {assignment : Dict Json}
  {docId : String} {entry : Entry} {entries : List Entry}

/-- The label that a field of a document is compared with. -/
def labelOf (goldList : List Json) (docId : String) (field : ScoredField) : Except Exc Json := do
  let byId ← goldById goldList
  goldLabel (← goldOf byId docId) field

theorem pyEq_null (v : Json) : v.pyEq .null = true ↔ v = .null := by
  cases v <;> simp [Json.pyEq]

theorem predValue_empty (field : ScoredField) : predValue (.obj []) field = .ok .null := by
  cases field <;> rfl

/-- A field of a scored document. -/
theorem scoreField_of_document (scored : scoreDocument byId documents docId = .ok entry) :
    entry.docId = docId ∧ ∃ gold record confidence, goldOf byId docId = .ok gold ∧
      recordFor documents docId = .ok record ∧
      ∀ field, scoreField gold record confidence field = .ok (entry.score field) := by
  simp only [scoreDocument, except_bind_ok] at scored
  obtain ⟨gold, hgold, record, hrecord, confidence, _, trigger, first, mechanism, second,
    detection, third, same⟩ := scored
  cases same
  refine ⟨rfl, gold, record, confidence, hgold, hrecord, fun field => ?_⟩
  cases field
  · exact first
  · exact second
  · exact third

/-- Without a record, being correct is having nothing to find. -/
theorem correct_of_unextracted (goldIs : goldById goldList = .ok byId)
    (scored : scoreDocument byId documents docId = .ok entry)
    (missing : recordFor documents docId = .ok (.obj [])) (field : ScoredField) :
    (entry.score field).correct = true ↔ labelOf goldList docId field = .ok .null := by
  obtain ⟨_, gold, record, confidence, hgold, hrecord, each⟩ := scoreField_of_document scored
  obtain rfl : record = .obj [] := Except.ok.inj (hrecord.symm.trans missing)
  have scoredField := each field
  simp only [scoreField, except_bind_ok] at scoredField
  obtain ⟨label, hlabel, pred, hpred, value, _, same⟩ := scoredField
  obtain rfl : pred = .null := Except.ok.inj (hpred.symm.trans (predValue_empty field))
  have read : labelOf goldList docId field = .ok label := by
    rw [labelOf, goldIs]
    change (goldOf byId docId >>= _) = _
    rw [hgold]
    exact hlabel
  rw [read, ← Except.ok.inj same]
  exact (pyEq_null label).trans ⟨congrArg _, Except.ok.inj⟩

theorem scoreDev_ok (scored : scoreDev goldList documents assignment = .ok entries) :
    ∃ byId, goldById goldList = .ok byId ∧
      List.Forall₂ (fun docId entry => scoreDocument byId documents docId = .ok entry)
        (devIds assignment) entries := by
  obtain ⟨byId, goldIs, each⟩ := except_bind_ok.mp scored
  exact ⟨byId, goldIs, except_mapM_ok.mp each⟩

/-- No accuracy figure counts the document as correct. -/
def CountedNowhere (entries : List Entry) (docId : String) : Prop :=
  ∀ (kept : Entry → Bool) (field : ScoredField), correctCount (entries.filter kept) field =
    correctCount ((entries.filter kept).filter (·.docId ≠ docId)) field

theorem countedNowhere_iff :
    CountedNowhere entries docId ↔
      ∀ entry ∈ entries, entry.docId = docId → ∀ field, (entry.score field).correct = false := by
  constructor
  · intro nowhere entry member own field
    have counts := nowhere (fun e => decide (e.docId = docId)) field
    have nobody : (entries.filter fun e => decide (e.docId = docId)).filter (·.docId ≠ docId) =
        [] := by
      refine List.filter_eq_nil_iff.mpr fun e he => ?_
      simpa using (List.mem_filter.mp he).2
    rw [nobody] at counts
    have never := List.countP_eq_zero.mp counts entry
      (List.mem_filter.mpr ⟨member, decide_eq_true own⟩)
    exact Bool.eq_false_of_not_eq_true never
  · intro incorrect kept field
    rw [correctCount, correctCount, List.countP_filter (l := entries.filter kept)]
    refine List.countP_congr fun e member => ?_
    have scored := (List.mem_filter.mp member).1
    by_cases own : e.docId = docId
    · simp [incorrect e scored own field]
    · simp [own]

theorem mem_of_forall₂ {α β : Type} {R : α → β → Prop} {xs : List α} {ys : List β}
    (each : List.Forall₂ R xs ys) :
    (∀ x ∈ xs, ∃ y ∈ ys, R x y) ∧ ∀ y ∈ ys, ∃ x ∈ xs, R x y := by
  induction each with
  | nil => exact ⟨by simp, by simp⟩
  | cons first _ ih =>
      constructor
      · rintro x (_ | ⟨_, later⟩)
        · exact ⟨_, List.mem_cons_self, first⟩
        · obtain ⟨y, member, related⟩ := ih.1 x later
          exact ⟨y, List.mem_cons_of_mem _ member, related⟩
      · rintro y (_ | ⟨_, later⟩)
        · exact ⟨_, List.mem_cons_self, first⟩
        · obtain ⟨x, member, related⟩ := ih.2 y later
          exact ⟨x, List.mem_cons_of_mem _ member, related⟩

/-- A document of the dev split without a record stays out of every count of correct
fields exactly if the gold set has a label for each of its fields. -/
theorem unextracted_counted_nowhere_iff
    (scored : scoreDev goldList documents assignment = .ok entries)
    (dev : docId ∈ devIds assignment) (missing : recordFor documents docId = .ok (.obj [])) :
    CountedNowhere entries docId ↔ ∀ field, labelOf goldList docId field ≠ .ok .null := by
  obtain ⟨byId, goldIs, each⟩ := scoreDev_ok scored
  rw [countedNowhere_iff]
  constructor
  · intro incorrect field null
    obtain ⟨entry, member, own⟩ : ∃ entry ∈ entries,
        scoreDocument byId documents docId = .ok entry := (mem_of_forall₂ each).1 docId dev
    have correct := (correct_of_unextracted goldIs own missing field).mpr null
    rw [incorrect entry member (scoreField_of_document own).1 field] at correct
    cases correct
  · intro labelled entry member own field
    obtain ⟨id, _, scoredAs⟩ := (mem_of_forall₂ each).2 entry member
    obtain rfl : id = docId := (scoreField_of_document scoredAs).1.symm.trans own
    by_contra correct
    exact labelled field ((correct_of_unextracted goldIs scoredAs missing field).mp
      (Bool.of_not_eq_false correct))

/-! One document of the split, which the run could not extract. -/

def goldEntry (trigger : Json) : Json :=
  .obj [("document_id", .str "A"), ("trigger_label", trigger),
    ("mechanism_label", .str "software_defect"), ("detection_method", .str "monitoring_alert")]

def failedRun : List Json := [.obj [("id", .str "A"), ("extraction", .null)]]

theorem devIds_one : devIds [("A", .str "dev")] = ["A"] := List.mergeSort_singleton _

def failedEntry (trigger : Json) : Entry :=
  ⟨"A", ⟨trigger, .null, trigger.pyEq .null, .null⟩, ⟨.str "software_defect", .null, false, .null⟩,
    ⟨.str "monitoring_alert", .null, false, .null⟩⟩

theorem scoreDev_failedRun (trigger : Json) :
    scoreDev [goldEntry trigger] failedRun [("A", .str "dev")] = .ok [failedEntry trigger] := by
  rw [scoreDev, devIds_one]
  rfl

theorem failedRun_labelled : CountedNowhere [failedEntry (.str "config_change")] "A" := by
  have dev : "A" ∈ devIds [("A", .str "dev")] := devIds_one ▸ List.mem_cons_self
  refine (unextracted_counted_nowhere_iff
    (scoreDev_failedRun (.str "config_change")) dev rfl).mpr ?_
  intro field null
  cases field <;> cases Except.ok.inj null

/-- A null label is met by the record that is not there. -/
theorem failedRun_correct :
    scoreDev [goldEntry .null] failedRun [("A", .str "dev")] = .ok [failedEntry .null] ∧
      recordFor failedRun "A" = .ok (.obj []) ∧
      correctCount [failedEntry .null] .trigger = 1 ∧ ¬ CountedNowhere [failedEntry .null] "A" := by
  refine ⟨scoreDev_failedRun .null, rfl, rfl, fun nowhere => ?_⟩
  have counts : 1 = 0 := nowhere (fun _ => true) .trigger
  cases counts

end Unextracted

end IncidentPipeline.Scoring
