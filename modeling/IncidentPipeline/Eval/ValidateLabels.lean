import IncidentPipeline.Eval.Scoring
import IncidentPipeline.Extract.Schema

/-!
# Validating the labels of a gold set

`eval/scripts/validate_labels`. The problems of a document are texts, and the exit code goes by
whether they contain the words of the message for an empty field. So a problem is forgiven that
contains them otherwise: the one for a label without a date, and any other in which the id of
the document or the value of the field has them.
-/

namespace IncidentPipeline.ValidateLabels

open Python Scoring

def requiredFields : List String :=
  ["document_id", "org", "text_hash", "trigger_label", "mechanism_label", "detection_method",
    "labeled_on"]

/-- The closed enum of a label field. -/
def classes : ScoredField → List String
  | .trigger => triggerClasses
  | .mechanism => mechanismClasses
  | .detectionMethod => detectionMethods

/-- What follows the classes in the text for a value outside of them. -/
def orNull : ScoredField → String
  | .trigger => ", or null"
  | _ => ""

/-- The end of the text for `null`, where it is a problem. -/
def nullProblem : ScoredField → Option String
  | .trigger => none
  | .mechanism => some " is null (mechanism is required, not nullable)"
  | .detectionMethod => some (" is null (use the string 'unknown' instead, per ADR-002 — null " ++
      "is not a valid value for this field)")

/-- `f"{doc_id}: {text}"`. -/
def problem (docId text : String) : String := docId ++ ": " ++ text

def missingText (field : String) : String := "missing required field '" ++ field ++ "'"

def emptyText (f : ScoredField) : String := f.goldKey ++ " is empty"

def illegalText (rt : Runtime) (f : ScoredField) (value : Json) : String :=
  f.goldKey ++ " '" ++ rt.strOf value ++
    "' is not in the closed enum (" ++ ", ".intercalate (classes f) ++ orNull f ++ ")"

def undatedText : String :=
  "has at least one label set but labeled_on is empty " ++
    "(M5_PROTOCOL.md §3: labels are recorded with a date)"

/-- The problem of one label field, if it has one; a missing field counts as empty. -/
def labelProblem (rt : Runtime) (docId : String) (doc : Dict Json) (f : ScoredField) :
    Option String :=
  let value := (doc.get? f.goldKey).getD (.str "")
  if value.isNull then (nullProblem f).map fun text => problem docId (f.goldKey ++ text)
  else if value.pyEq (.str "") then some (problem docId (emptyText f))
  else if (classes f).any fun c => value.pyEq (.str c) then none
  else some (problem docId (illegalText rt f value))

def labelFields : List ScoredField := [.trigger, .mechanism, .detectionMethod]

def anyLabelSet (doc : Dict Json) : Bool :=
  labelFields.any fun f =>
    let value := (doc.get? f.goldKey).getD .null
    !(value.pyEq (.str "") || value.isNull)

def idText (rt : Runtime) (doc : Dict Json) : String :=
  rt.strOf ((doc.get? "document_id").getD (.str "<missing document_id>"))

def validateDocument (rt : Runtime) (doc : Dict Json) : List String :=
  let docId := idText rt doc
  (requiredFields.filter (· ∉ doc.keys)).map (fun field => problem docId (missingText field)) ++
    labelFields.filterMap (labelProblem rt docId doc) ++
    if anyLabelSet doc && !truthy ((doc.get? "labeled_on").getD .null) then
      [problem docId undatedText]
    else []

/-- The exit code for the documents of a list. -/
def exitCode (rt : Runtime) (strict : Bool) (docs : List (Dict Json)) : ℕ :=
  let allProblems := docs.flatMap (validateDocument rt)
  let emptyCount := allProblems.countP fun p => occursIn "is empty" p
  let invalidCount := allProblems.countP fun p => !occursIn "is empty" p
  if invalidCount > 0 ∨ strict = true ∧ emptyCount > 0 then 1 else 0

/-- What is done with the decoded file. -/
def main (rt : Runtime) (strict : Bool) : Json → Except Exc ℕ
  | .arr items => do
      let docs ← items.mapM fun
        | .obj doc => .ok doc
        | _ => .error (foreign "AttributeError" "object has no attribute 'get'")
      return exitCode rt strict docs
  | _ => .ok 2

/-! ### Findings -/

/-- What is wrong with a document. -/
inductive Finding where
  | missing (field : String)
  | empty (f : ScoredField)
  | null (f : ScoredField)
  | illegal (f : ScoredField) (value : Json)
  | undated

def Finding.text (rt : Runtime) : Finding → String
  | .missing field => missingText field
  | .empty f => emptyText f
  | .null f => f.goldKey ++ (nullProblem f).getD ""
  | .illegal f value => illegalText rt f value
  | .undated => undatedText

/-- Every finding but an empty label field. -/
def Finding.isFault : Finding → Bool
  | .empty _ => false
  | _ => true

/-- The words of the message for an empty field are in the message of a fault as well. -/
def Finding.hidden (rt : Runtime) (docId : String) : Finding → Bool
  | .missing _ | .null _ => occursIn "is empty" docId
  | .illegal _ value => occursIn "is empty" docId || occursIn "is empty" (rt.strOf value)
  | .empty _ => false
  | .undated => true

def labelFinding (doc : Dict Json) (f : ScoredField) : Option Finding :=
  let value := (doc.get? f.goldKey).getD (.str "")
  if value.isNull then (nullProblem f).map fun _ => .null f
  else if value.pyEq (.str "") then some (.empty f)
  else if (classes f).any fun c => value.pyEq (.str c) then none
  else some (.illegal f value)

def findings (doc : Dict Json) : List Finding :=
  (requiredFields.filter (· ∉ doc.keys)).map .missing ++ labelFields.filterMap (labelFinding doc) ++
    if anyLabelSet doc && !truthy ((doc.get? "labeled_on").getD .null) then [.undated] else []

section Findings

variable {rt : Runtime} {docId : String} {doc : Dict Json} {f : ScoredField} {finding : Finding}

theorem labelProblem_eq : labelProblem rt docId doc f =
    (labelFinding doc f).map fun finding => problem docId (finding.text rt) := by
  rw [labelProblem, labelFinding]
  split
  · cases onNull : nullProblem f with
    | none => rfl
    | some text => simp [Finding.text, onNull]
  · split
    · rfl
    · split <;> rfl

/-- The problems are the findings, told. -/
theorem validateDocument_eq (rt : Runtime) (doc : Dict Json) : validateDocument rt doc =
    (findings doc).map fun finding => problem (idText rt doc) (finding.text rt) := by
  have labels : labelFields.filterMap (labelProblem rt (idText rt doc) doc) =
      (labelFields.filterMap (labelFinding doc)).map
        fun finding => problem (idText rt doc) (finding.text rt) := by
    rw [List.map_filterMap]
    exact List.filterMap_congr fun f _ => labelProblem_eq
  rw [validateDocument, findings, List.map_append, List.map_append, List.map_map, labels]
  congr 1
  split <;> rfl

/-! ### The words for an empty field -/

/-- What the words do not have cuts a text in two. -/
theorem occursIn_split {c : Char} (absent : c ∉ "is empty".toList) (front back : String) :
    occursIn "is empty" (front ++ (String.singleton c ++ back)) =
      (occursIn "is empty" front || occursIn "is empty" back) := by
  rw [Bool.eq_iff_iff, Bool.or_eq_true, occursIn_iff, occursIn_iff, occursIn_iff,
    String.toList_append, String.toList_append, String.toList_singleton]
  exact infix_append_cons_iff absent

/-- They begin with no blank. -/
theorem occursIn_blank (text : String) :
    occursIn "is empty" (" " ++ text) = occursIn "is empty" text := by
  rw [Bool.eq_iff_iff, occursIn_iff, occursIn_iff, String.toList_append]
  show _ <:+: ' ' :: text.toList ↔ _
  rw [List.infix_cons_iff, or_iff_right]
  rintro ⟨rest, same⟩
  exact absurd (List.cons.inj same).1 (by decide)

theorem occursIn_problem (docId text : String) : occursIn "is empty" (problem docId text) =
    (occursIn "is empty" docId || occursIn "is empty" text) := by
  have colon : (": " : String) = String.singleton ':' ++ " " := by decide
  rw [problem, String.append_assoc, colon, String.append_assoc, occursIn_split (by decide),
    occursIn_blank]

theorem occursIn_quoted (front value back : String) :
    occursIn "is empty" (front ++ "'" ++ value ++ "'" ++ back) =
      (occursIn "is empty" front || occursIn "is empty" value || occursIn "is empty" back) := by
  have quote : ("'" : String) = String.singleton '\'' := by decide
  simp only [quote, String.append_assoc]
  rw [occursIn_split (by decide), occursIn_split (by decide), Bool.or_assoc]

/-- Nor do they have a comma. -/
theorem occursIn_join (parts : List String) :
    occursIn "is empty" (", ".intercalate parts) = parts.any (occursIn "is empty") := by
  have comma : (", " : String) = String.singleton ',' ++ " " := by decide
  induction parts with
  | nil => decide
  | cons first rest ih =>
      cases rest with
      | nil => rw [String.intercalate_singleton, List.any_cons, List.any_nil, Bool.or_false]
      | cons second rest =>
          rw [String.intercalate_cons_cons, List.any_cons, ← ih]
          generalize ", ".intercalate (second :: rest) = joined
          rw [String.append_assoc, comma, String.append_assoc, occursIn_split (by decide),
            occursIn_blank]

theorem occursIn_missing : ∀ field ∈ requiredFields,
    occursIn "is empty" (missingText field) = false := by
  decide +kernel

theorem occursIn_null (f : ScoredField) :
    occursIn "is empty" (f.goldKey ++ (nullProblem f).getD "") = false := by
  cases f <;> decide +kernel

theorem occursIn_empty (f : ScoredField) : occursIn "is empty" (emptyText f) = true := by
  cases f <;> decide +kernel

/-- The classes are listed without the words. -/
theorem occursIn_classes (f : ScoredField) :
    occursIn "is empty" (", ".intercalate (classes f) ++ orNull f ++ ")") = false := by
  have listed : occursIn "is empty" (", ".intercalate (classes f)) = false := by
    rw [occursIn_join]
    cases f <;> decide +kernel
  have close : occursIn "is empty" "" = false := by decide
  have null : occursIn "is empty" " or null)" = false := by decide +kernel
  have trigger : (", or null" ++ ")" : String) = String.singleton ',' ++ " or null)" := by decide
  have other : ("" ++ ")" : String) = String.singleton ')' ++ "" := by decide
  rw [String.append_assoc]
  cases f with
  | trigger =>
      show occursIn _ (_ ++ (", or null" ++ ")")) = _
      rw [trigger, occursIn_split (by decide), listed, null, Bool.or_self]
  | _ =>
      show occursIn _ (_ ++ ("" ++ ")")) = _
      rw [other, occursIn_split (by decide), listed, close, Bool.or_self]

theorem occursIn_illegal (f : ScoredField) (value : Json) :
    occursIn "is empty" (illegalText rt f value) = occursIn "is empty" (rt.strOf value) := by
  have front : occursIn "is empty" (f.goldKey ++ " ") = false := by
    cases f <;> decide +kernel
  have back : occursIn "is empty" (" is not in the closed enum (" ++
      ", ".intercalate (classes f) ++ orNull f ++ ")") = false := by
    have before : occursIn "is empty" " is not in the closed enum " = false := by decide +kernel
    have parenthesis : (" is not in the closed enum (" : String) =
        " is not in the closed enum " ++ String.singleton '(' := by decide
    have listed := occursIn_classes f
    rw [String.append_assoc] at listed
    rw [parenthesis, String.append_assoc, String.append_assoc, String.append_assoc,
      occursIn_split (by decide), before, listed, Bool.or_self]
  have parts : illegalText rt f value = f.goldKey ++ " " ++ "'" ++ rt.strOf value ++ "'" ++
      (" is not in the closed enum (" ++ ", ".intercalate (classes f) ++ orNull f ++ ")") := by
    have first : (" '" : String) = " " ++ "'" := by decide
    have second : ("' is not in the closed enum (" : String) =
        "'" ++ " is not in the closed enum (" := by decide
    rw [illegalText, first, second]
    simp only [String.append_assoc]
  rw [parts, occursIn_quoted, front, back, Bool.false_or, Bool.or_false]

theorem occursIn_undated : occursIn "is empty" undatedText = true := by
  decide +kernel

theorem Finding.isFault_of_hidden (hidden : finding.hidden rt docId = true) :
    finding.isFault = true := by
  cases finding with
  | empty f => cases hidden
  | _ => rfl

theorem missing_mem {field : String} (found : .missing field ∈ findings doc) :
    field ∈ requiredFields ∧ field ∉ doc.keys := by
  simp only [findings, List.mem_append, List.mem_map, List.mem_filter, List.mem_filterMap] at found
  obtain (⟨_, ⟨known, absent⟩, same⟩ | ⟨f, _, labelled⟩) | dated := found
  · cases same
    exact ⟨known, by simpa using absent⟩
  · rw [labelFinding] at labelled
    split at labelled
    · obtain ⟨_, _, same⟩ := Option.map_eq_some_iff.mp labelled
      cases same
    · split at labelled
      · cases labelled
      · split at labelled <;> cases labelled
  · split at dated
    · cases List.mem_singleton.mp dated
    · cases dated

/-- A problem has the words if it is about an empty field or its finding is hidden. -/
theorem occursIn_text (found : finding ∈ findings doc) :
    occursIn "is empty" (problem docId (finding.text rt)) =
      (!finding.isFault || finding.hidden rt docId) := by
  rw [occursIn_problem]
  cases finding with
  | missing field =>
      rw [Finding.text, occursIn_missing field (missing_mem found).1]
      exact Bool.or_comm _ _
  | empty f =>
      rw [Finding.text, occursIn_empty, Bool.or_true]
      rfl
  | null f =>
      rw [Finding.text, occursIn_null]
      exact Bool.or_comm _ _
  | illegal f value =>
      rw [Finding.text, occursIn_illegal]
      rfl
  | undated =>
      rw [Finding.text, occursIn_undated, Bool.or_true]
      rfl

/-! ### Well-formed documents -/

/-- A legal value of a label field. -/
def Legal (f : ScoredField) (value : Json) : Prop :=
  (value = .null ∧ f = .trigger) ∨ ∃ c ∈ classes f, value = .str c

/-- What the validation is for. -/
structure WellFormed (doc : Dict Json) : Prop where
  required : ∀ key ∈ requiredFields, key ∈ doc.keys
  labels : ∀ f value, doc.get? f.goldKey = some value → value = .str "" ∨ Legal f value
  dated : (∃ f value, doc.get? (ScoredField.goldKey f) = some value ∧ value ≠ .str "" ∧
    value ≠ .null) → ∃ date, doc.get? "labeled_on" = some date ∧ truthy date = true

theorem mem_labelFields (f : ScoredField) : f ∈ labelFields := by
  cases f <;> decide

/-- A label field without a fault is empty or legal. -/
theorem labelFinding_fault_iff : (∀ finding, labelFinding doc f = some finding →
      finding.isFault = false) ↔
    ∀ value, doc.get? f.goldKey = some value → value = .str "" ∨ Legal f value := by
  rw [labelFinding]
  cases found : doc.get? f.goldKey with
  | none =>
      rw [Option.getD_none]
      refine iff_of_true ?_ nofun
      rintro finding same
      cases same
      rfl
  | some value =>
      simp only [Option.getD_some, Option.some.injEq, forall_eq']
      split
      · next null =>
          obtain rfl := Json.isNull_iff.mp null
          cases f <;> simp [nullProblem, Legal, Finding.isFault]
      · next notNull =>
          have other : value ≠ .null := fun same => notNull (same ▸ rfl)
          split
          · next empty => simp [Json.pyEq_str_iff.mp empty, Finding.isFault]
          · next full =>
              have filled : value ≠ .str "" := fun same => full (Json.pyEq_str_iff.mpr same)
              have listed : ((classes f).any fun c => value.pyEq (.str c)) = true ↔
                  ∃ c ∈ classes f, value = .str c := by
                simp only [List.any_eq_true, Json.pyEq_str_iff]
              split
              · next legal => exact iff_of_true nofun (.inr (.inr (listed.mp legal)))
              · next illegal =>
                  refine iff_of_false (fun faultless => ?_) ?_
                  · exact absurd (faultless _ rfl) (by simp [Finding.isFault])
                  · rintro (same | ⟨same, _⟩ | legal)
                    · exact filled same
                    · exact other same
                    · exact illegal (listed.mpr legal)

theorem anyLabelSet_iff : anyLabelSet doc = true ↔ ∃ f value,
    doc.get? (ScoredField.goldKey f) = some value ∧ value ≠ .str "" ∧ value ≠ .null := by
  rw [anyLabelSet, List.any_eq_true]
  constructor
  · rintro ⟨f, _, set⟩
    cases found : doc.get? f.goldKey with
    | none => simp [found, Json.isNull] at set
    | some value =>
        simp only [found, Option.getD_some, Bool.not_eq_true', Bool.or_eq_false_iff] at set
        refine ⟨f, value, found, fun same => ?_, fun same => ?_⟩
        · rw [Json.pyEq_str_iff.mpr same] at set
          cases set.1
        · rw [Json.isNull_iff.mpr same] at set
          cases set.2
  · rintro ⟨f, value, found, filled, other⟩
    refine ⟨f, mem_labelFields f, ?_⟩
    simp only [found, Option.getD_some, Bool.not_eq_true', Bool.or_eq_false_iff]
    exact ⟨Bool.eq_false_of_not_eq_true (mt Json.pyEq_str_iff.mp filled),
      Bool.eq_false_of_not_eq_true (mt Json.isNull_iff.mp other)⟩

theorem dated_iff : truthy ((doc.get? "labeled_on").getD .null) = true ↔
    ∃ date, doc.get? "labeled_on" = some date ∧ truthy date = true := by
  cases doc.get? "labeled_on" with
  | none => simp [truthy]
  | some date => simp

/-- A document is well formed if the only findings are empty fields. -/
theorem wellFormed_iff : WellFormed doc ↔ ∀ finding ∈ findings doc, finding.isFault = false := by
  have keys : (∀ key ∈ requiredFields, key ∈ doc.keys) ↔
      ∀ finding ∈ (requiredFields.filter (· ∉ doc.keys)).map Finding.missing,
        finding.isFault = false := by
    constructor
    · intro required finding found
      obtain ⟨field, missing, rfl⟩ := List.mem_map.mp found
      obtain ⟨known, absent⟩ := List.mem_filter.mp missing
      exact absurd (required field known) (of_decide_eq_true absent)
    · intro faultless key known
      by_contra absent
      have missing : key ∈ requiredFields.filter (· ∉ doc.keys) :=
        List.mem_filter.mpr ⟨known, decide_eq_true absent⟩
      exact absurd (faultless _ (List.mem_map_of_mem missing)) (by simp [Finding.isFault])
  have labels : (∀ f value, doc.get? (ScoredField.goldKey f) = some value →
      value = .str "" ∨ Legal f value) ↔
        ∀ finding ∈ labelFields.filterMap (labelFinding doc), finding.isFault = false := by
    simp only [List.mem_filterMap, forall_exists_index, and_imp]
    constructor
    · exact fun legal finding f _ found => labelFinding_fault_iff.mpr (legal f) finding found
    · exact fun faultless f => labelFinding_fault_iff.mp fun finding found =>
        faultless finding f (mem_labelFields f) found
  have dated : (anyLabelSet doc = true → truthy ((doc.get? "labeled_on").getD .null) = true) ↔
      ∀ finding ∈ (if anyLabelSet doc && !truthy ((doc.get? "labeled_on").getD .null) then
        [Finding.undated] else []), finding.isFault = false := by
    cases anyLabelSet doc <;> cases truthy ((doc.get? "labeled_on").getD .null) <;>
      simp [Finding.isFault]
  simp only [findings, List.mem_append, or_imp, forall_and]
  rw [← keys, ← labels, ← dated, dated_iff, anyLabelSet_iff]
  exact ⟨fun w => ⟨⟨w.required, w.labels⟩, w.dated⟩, fun w => ⟨w.1.1, w.1.2, w.2⟩⟩

/-! ### The exit code -/

/-- Without `--strict` the run fails if some fault is told without the words. -/
theorem exitCode_eq_zero_iff (rt : Runtime) (docs : List (Dict Json)) :
    exitCode rt false docs = 0 ↔ ∀ doc ∈ docs, ∀ finding ∈ findings doc,
      finding.isFault = true → finding.hidden rt (idText rt doc) = true := by
  have counts : exitCode rt false docs = 0 ↔
      ∀ p ∈ docs.flatMap (validateDocument rt), occursIn "is empty" p = true := by
    simp [exitCode]
  rw [counts]
  constructor
  · intro forgiven doc member finding found fault
    have told : problem (idText rt doc) (finding.text rt) ∈ docs.flatMap (validateDocument rt) := by
      rw [List.mem_flatMap]
      refine ⟨doc, member, ?_⟩
      rw [validateDocument_eq]
      exact List.mem_map_of_mem found
    have words := forgiven _ told
    rwa [occursIn_text found, fault, Bool.not_true, Bool.false_or] at words
  · intro hidden p told
    obtain ⟨doc, member, listed⟩ := List.mem_flatMap.mp told
    rw [validateDocument_eq] at listed
    obtain ⟨finding, found, rfl⟩ := List.mem_map.mp listed
    rw [occursIn_text found]
    cases fault : finding.isFault with
    | false => rfl
    | true => exact hidden doc member finding found fault

theorem main_documents (rt : Runtime) (strict : Bool) (docs : List (Dict Json)) :
    main rt strict (.arr (docs.map .obj)) = .ok (exitCode rt strict docs) := by
  have read : (docs.map Json.obj).mapM (fun
      | .obj doc => .ok doc
      | _ => .error (foreign "AttributeError" "object has no attribute 'get'")) =
        (.ok docs : Except Exc (List (Dict Json))) := by
    rw [except_mapM_ok, List.forall₂_map_left_iff]
    exact List.forall₂_same.mpr fun _ _ => rfl
  rw [main, read]
  rfl

/-- The run tells well-formed documents from others if some fault is told without the words
for an empty field, or none is told with them. -/
theorem main_eq_zero_iff (rt : Runtime) (docs : List (Dict Json)) :
    (main rt false (.arr (docs.map .obj)) = .ok 0 ↔ ∀ doc ∈ docs, WellFormed doc) ↔
      (∃ doc ∈ docs, ∃ finding ∈ findings doc,
          finding.isFault = true ∧ finding.hidden rt (idText rt doc) = false) ∨
        ∀ doc ∈ docs, ∀ finding ∈ findings doc, finding.hidden rt (idText rt doc) = false := by
  have zero : main rt false (.arr (docs.map .obj)) = .ok 0 ↔ exitCode rt false docs = 0 := by
    rw [main_documents, Except.ok.injEq]
  rw [zero, exitCode_eq_zero_iff]
  simp only [wellFormed_iff]
  constructor
  · intro agree
    by_cases told : ∃ doc ∈ docs, ∃ finding ∈ findings doc,
        finding.isFault = true ∧ finding.hidden rt (idText rt doc) = false
    · exact .inl told
    · right
      intro doc member finding found
      by_contra hidden
      have words := Bool.eq_true_of_not_eq_false hidden
      have faultless := agree.mp (fun doc' member' finding' found' fault => by
        by_contra seen
        exact told ⟨doc', member', finding', found', fault, Bool.eq_false_of_not_eq_true seen⟩)
          doc member finding found
      rw [Finding.isFault_of_hidden words] at faultless
      cases faultless
  · rintro (⟨doc, member, finding, found, fault, seen⟩ | none_)
    · refine iff_of_false (fun forgiven => ?_) fun faultless => ?_
      · rw [forgiven doc member finding found fault] at seen
        cases seen
      · rw [faultless doc member finding found] at fault
        cases fault
    · constructor
      · intro forgiven doc member finding found
        by_contra fault
        have words := forgiven doc member finding found (Bool.eq_true_of_not_eq_false fault)
        rw [none_ doc member finding found] at words
        cases words
      · intro faultless doc member finding found fault
        rw [faultless doc member finding found] at fault
        cases fault

/-- Three legal labels without a date. -/
def undatedDocument : Dict Json :=
  [("document_id", .str "A"), ("org", .str "Cloudflare"), ("text_hash", .str "00"),
    ("trigger_label", .str "config_change"), ("mechanism_label", .str "route_deletion"),
    ("detection_method", .str "monitoring"), ("labeled_on", .str "")]

theorem undated_passes : main Runtime.ascii false (.arr ([undatedDocument].map .obj)) = .ok 0 ∧
    ¬ WellFormed undatedDocument ∧
    ¬ (main Runtime.ascii false (.arr ([undatedDocument].map .obj)) = .ok 0 ↔
      ∀ doc ∈ [undatedDocument], WellFormed doc) := by
  have passes : main Runtime.ascii false (.arr ([undatedDocument].map .obj)) = .ok 0 := by
    decide +kernel
  have undated : ¬ WellFormed undatedDocument := by
    intro formed
    obtain ⟨date, found, set⟩ := formed.dated
      ⟨.trigger, .str "config_change", rfl, by simp, by simp⟩
    cases found
    exact absurd set (by decide)
  exact ⟨passes, undated, fun agree => undated (agree.mp passes _ (List.mem_singleton_self _))⟩

end Findings

end IncidentPipeline.ValidateLabels
