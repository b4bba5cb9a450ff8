import IncidentPipeline.Eval.Scoring
import IncidentPipeline.Foundation.Double
import IncidentPipeline.Foundation.Text

/-!
# The reproducibility check

`scripts/repro_check`: two runs are compared on the documents that both have. The bar asks
that nine tenths of them carry the same mechanism label in both runs, and pairs of `other` do
not count; but two missing labels compare equal and do, and nine tenths are rounded.
-/

namespace IncidentPipeline.ReproCheck

open Python Scoring Double

structure ReportDocument where
  id : String
  members : Dict Json

/-- What is read of the report of a run. -/
structure Report where
  documents : List ReportDocument

/-- `{d["id"]: d for d in report["documents"]}`. -/
def Report.byId (r : Report) : Dict (Dict Json) :=
  r.documents.foldl (fun acc d => acc.set d.id d.members) []

/-- `_record`. -/
def record (doc : Dict Json) : Except Exc (Option Json) :=
  match doc.get? "extraction" with
  | none => .ok none
  | some extraction => if truthy extraction then getOf extraction "record" else .ok none

/-- `_field`, of the parts of the dotted path; nothing is `null`. -/
def field : Json → List String → Json
  | node, [] => node
  | .obj members, part :: rest => field ((Dict.get? members part).getD .null) rest
  | _, _ :: _ => .null

/-- `_attempt_errors`. -/
def attemptErrors (rt : Runtime) (doc : Dict Json) : Except Exc (List String) := do
  let extraction := orEmpty (doc.get? "extraction")
  let attempts ← iterateOrEmpty ((← getOf extraction "attempt_log").getD (.arr []))
  let errs ← attempts.mapM fun a => getOf a "validation_error"
  return (errs.map (Option.getD · .null)).filterMap fun err =>
    if truthy err then some (rt.strOf err) else none

/-- `attempts and attempts > 1`. -/
def moreThanOne (attempts : Json) : Except Exc Bool :=
  if truthy attempts then
    match attempts with
    | .num q => .ok (1 < q)
    | .nonFinite x => .ok (x = .infinity)
    | .bool _ => .ok false
    | _ => .error (foreign "TypeError" "'>' not supported between instances")
  else .ok false

/-- An error that mentions invented keys; `lower` is `str.lower`. -/
def isInvented (lower : String → String) (err : String) : Bool :=
  ["extra input", "additional", "unexpected", "not permitted"].any (occursIn · (lower err))

/-- A document where the runs differ: id, organisation and the two labels. -/
structure Disagreement where
  docId : String
  org : Json
  a : Json
  b : Json

/-- The counters and lists of the loop. -/
structure Tally where
  mechTotalEligible : ℕ := 0
  mechAgree : ℕ := 0
  mechBothOther : ℕ := 0
  mechDisagreeDocs : List Disagreement := []
  trigAgree : ℕ := 0
  trigDisagreeDocs : List Disagreement := []
  trigNullFlips : List Disagreement := []
  retryDocsA : List (String × Json × Json) := []
  retryDocsB : List (String × Json × Json) := []
  inventedKeyErrors : List (String × Json × String × String) := []

def mechanismLabel : List String := ["mechanism", "label"]

def triggerLabel : List String := ["trigger", "label"]

/-- The mechanism labels of one document. -/
def Tally.mechanism (t : Tally) (docId : String) (org a b : Json) : Tally :=
  if a.pyEq (.str "other") && b.pyEq (.str "other") then
    { t with mechBothOther := t.mechBothOther + 1 }
  else if a.pyEq b then
    { t with mechTotalEligible := t.mechTotalEligible + 1, mechAgree := t.mechAgree + 1 }
  else
    { t with
      mechTotalEligible := t.mechTotalEligible + 1
      mechDisagreeDocs := t.mechDisagreeDocs ++ [⟨docId, org, a, b⟩] }

/-- Its trigger labels. -/
def Tally.trigger (t : Tally) (docId : String) (org a b : Json) : Tally :=
  let t := if a.pyEq b then { t with trigAgree := t.trigAgree + 1 }
    else { t with trigDisagreeDocs := t.trigDisagreeDocs ++ [⟨docId, org, a, b⟩] }
  if a.isNull ≠ b.isNull then { t with trigNullFlips := t.trigNullFlips ++ [⟨docId, org, a, b⟩] }
  else t

/-- Its retries and their errors. -/
def Tally.retries (rt : Runtime) (lower : String → String) (t : Tally) (docId : String) (org : Json)
    (da db : Dict Json) : Except Exc Tally := do
  let attemptsA := (da.get? "validation_attempts").getD .null
  let attemptsB := (db.get? "validation_attempts").getD .null
  let retriedA ← moreThanOne attemptsA
  let retriedB ← moreThanOne attemptsB
  let errsA ← attemptErrors rt da
  let errsB ← attemptErrors rt db
  let invented := (errsA.filter (isInvented lower)).map (docId, org, "A", cut ·) ++
    (errsB.filter (isInvented lower)).map (docId, org, "B", cut ·)
  return { t with
    retryDocsA := t.retryDocsA ++ if retriedA then [(docId, org, attemptsA)] else []
    retryDocsB := t.retryDocsB ++ if retriedB then [(docId, org, attemptsB)] else []
    inventedKeyErrors := t.inventedKeyErrors ++ invented }
where
  /-- `err[:300]`. -/
  cut (err : String) : String := String.ofList (err.toList.take 300)

/-- The body of the loop over the documents. -/
def compareDocument (rt : Runtime) (lower : String → String) (aDocs bDocs : Dict (Dict Json))
    (t : Tally) (docId : String) : Except Exc Tally := do
  let da := (aDocs.get? docId).getD []
  let db := (bDocs.get? docId).getD []
  let ra := (← record da).getD .null
  let rb := (← record db).getD .null
  let org := (da.get? "org").getD (.str "")
  let t := t.mechanism docId org (field ra mechanismLabel) (field rb mechanismLabel)
  let t := t.trigger docId org (field ra triggerLabel) (field rb triggerLabel)
  t.retries rt lower docId org da db

/-- The documents that are compared. -/
def compared (a b : Report) : List String :=
  (a.byId.keys.filter (· ∈ b.byId.keys)).mergeSort shorterFirst

def tally (rt : Runtime) (lower : String → String) (a b : Report) : Except Exc Tally :=
  (compared a b).foldlM (compareDocument rt lower a.byId b.byId) {}

/-- `round(0.9 * n)`, in doubles. -/
def required (n : ℕ) : ℤ := roundHalfEven (nearest (nearest (9 / 10) * nearest n))

/-- What is printed for the bar; the proportion printed before it divides by the count. -/
def bar (rt : Runtime) (lower : String → String) (a b : Report) : Except Exc String := do
  let t ← tally rt lower a b
  let n := (compared a b).length
  if n = 0 then throw (foreign "ZeroDivisionError" "division by zero")
  return if required n ≤ t.mechAgree then "PASS" else "FAIL (bar: >=9/10, i.e. >=90%)"

/-! ### Labels -/

/-- The mechanism label of a document, `null` without one. -/
def labelOf (doc : Dict Json) : Json :=
  match record doc with
  | .ok r => field (r.getD .null) mechanismLabel
  | .error _ => .null

def hasRecord (doc : Dict Json) : Bool :=
  match record doc with
  | .ok r => !(r.getD .null).isNull
  | .error _ => false

/-- Both have a record, and the same label in it, which is not `other`. -/
def sameLabel (da db : Dict Json) : Bool :=
  hasRecord da && hasRecord db && !(labelOf da).isNull && !(labelOf db).isNull &&
    (labelOf da).pyEq (labelOf db) && !(labelOf da).pyEq (.str "other")

/-- Neither has a label. -/
def noLabels (da db : Dict Json) : Bool := (labelOf da).isNull && (labelOf db).isNull

/-- The number of compared documents of a kind. -/
def countDocuments (a b : Report) (kind : Dict Json → Dict Json → Bool) : ℕ :=
  (compared a b).countP fun docId =>
    kind ((a.byId.get? docId).getD []) ((b.byId.get? docId).getD [])

section Labels

variable {da db : Dict Json} {v w : Json}

theorem isNull_of_pyEq (same : v.pyEq w = true) : v.isNull = w.isNull := by
  cases v <;> cases w <;> simp_all [Json.pyEq, Json.isNull]

theorem field_null (path : List String) : field .null path = .null := by
  cases path <;> rfl

/-- A label is in a record. -/
theorem hasRecord_of_label (label : (labelOf da).isNull = false) : hasRecord da = true := by
  rw [labelOf] at label
  rw [hasRecord]
  cases found : record da with
  | error e =>
      simp only [found] at label
      cases label
  | ok r =>
      simp only [found] at label ⊢
      by_contra missing
      have null : r.getD .null = .null := Json.isNull_iff.mp (by simpa using missing)
      rw [null, field_null] at label
      cases label

/-- The pairs that the loop counts. -/
theorem counted_iff :
    ((labelOf da).pyEq (.str "other") && (labelOf db).pyEq (.str "other")) = false ∧
      (labelOf da).pyEq (labelOf db) = true ↔
    sameLabel da db = true ∨ noLabels da db = true := by
  constructor
  · rintro ⟨apart, same⟩
    have nulls := isNull_of_pyEq same
    cases null : (labelOf da).isNull with
    | true => exact .inr (by rw [noLabels, ← nulls, null, Bool.and_self])
    | false =>
        rw [null] at nulls
        have other : (labelOf da).pyEq (.str "other") = false := by
          by_contra other
          have first := Json.pyEq_str_iff.mp (Bool.eq_true_of_not_eq_false other)
          rw [first] at same apart
          rw [Json.str_pyEq_iff.mp same] at apart
          simp [Json.pyEq] at apart
        have left := hasRecord_of_label null
        have right := hasRecord_of_label nulls.symm
        exact .inl (by simp [sameLabel, left, right, null, ← nulls, same, other])
  · rintro (good | none_)
    · simp only [sameLabel, Bool.and_eq_true, Bool.not_eq_true'] at good
      obtain ⟨⟨_, same⟩, other⟩ := good
      exact ⟨by rw [other, Bool.false_and], same⟩
    · simp only [noLabels, Bool.and_eq_true, Json.isNull_iff] at none_
      rw [none_.1, none_.2]
      exact ⟨rfl, rfl⟩

theorem not_both_kinds : ¬ (sameLabel da db = true ∧ noLabels da db = true) := by
  rintro ⟨good, none_⟩
  simp_all [sameLabel, noLabels]

end Labels

/-! ### The count of the loop -/

section Loop

variable {rt : Runtime} {lower : String → String} {a b : Report} {aDocs bDocs : Dict (Dict Json)}
  {t t' : Tally} {docId : String}

theorem Tally.retries_mechAgree {org : Json} {da db : Dict Json}
    (done : t.retries rt lower docId org da db = .ok t') : t'.mechAgree = t.mechAgree := by
  obtain ⟨_, _, done⟩ := except_bind_ok.mp done
  obtain ⟨_, _, done⟩ := except_bind_ok.mp done
  obtain ⟨_, _, done⟩ := except_bind_ok.mp done
  obtain ⟨_, _, done⟩ := except_bind_ok.mp done
  rw [← Except.ok.inj done]

theorem Tally.trigger_mechAgree (org x y : Json) :
    (t.trigger docId org x y).mechAgree = t.mechAgree := by
  rw [Tally.trigger]
  split <;> split <;> rfl

theorem Tally.mechanism_mechAgree (org x y : Json) :
    (t.mechanism docId org x y).mechAgree = t.mechAgree +
      if (x.pyEq (.str "other") && y.pyEq (.str "other")) = false ∧ x.pyEq y = true then 1
      else 0 := by
  rw [Tally.mechanism]
  split
  · next both => simp [both]
  · next apart =>
      split
      · next same => simp [Bool.eq_false_of_not_eq_true apart, same]
      · next differ => simp [differ]

/-- A document counts if it has the same label in both runs, or none. -/
theorem compareDocument_mechAgree
    (done : compareDocument rt lower aDocs bDocs t docId = .ok t') :
    t'.mechAgree = t.mechAgree +
      if sameLabel ((aDocs.get? docId).getD []) ((bDocs.get? docId).getD []) = true ∨
        noLabels ((aDocs.get? docId).getD []) ((bDocs.get? docId).getD []) = true then 1
      else 0 := by
  obtain ⟨ra, foundA, done⟩ := except_bind_ok.mp done
  obtain ⟨rb, foundB, done⟩ := except_bind_ok.mp done
  have labelA : labelOf ((aDocs.get? docId).getD []) = field (ra.getD .null) mechanismLabel := by
    rw [labelOf, foundA]
  have labelB : labelOf ((bDocs.get? docId).getD []) = field (rb.getD .null) mechanismLabel := by
    rw [labelOf, foundB]
  rw [Tally.retries_mechAgree done, Tally.trigger_mechAgree, Tally.mechanism_mechAgree]
  simp only [← labelA, ← labelB, counted_iff]

theorem foldlM_mechAgree {ids : List String}
    (done : ids.foldlM (compareDocument rt lower aDocs bDocs) t = .ok t') :
    t'.mechAgree = t.mechAgree +
      (ids.countP fun docId =>
        sameLabel ((aDocs.get? docId).getD []) ((bDocs.get? docId).getD [])) +
      ids.countP fun docId =>
        noLabels ((aDocs.get? docId).getD []) ((bDocs.get? docId).getD []) := by
  induction ids generalizing t with
  | nil =>
      rw [← Except.ok.inj done]
      rfl
  | cons docId rest ih =>
      rw [List.foldlM_cons] at done
      obtain ⟨u, first, later⟩ := except_bind_ok.mp done
      rw [ih later, compareDocument_mechAgree first, List.countP_cons, List.countP_cons]
      have apart : ¬ (sameLabel ((aDocs.get? docId).getD []) ((bDocs.get? docId).getD []) = true ∧
        noLabels ((aDocs.get? docId).getD []) ((bDocs.get? docId).getD []) = true) :=
          not_both_kinds
      generalize sameLabel ((aDocs.get? docId).getD []) ((bDocs.get? docId).getD []) = x at apart ⊢
      generalize noLabels ((aDocs.get? docId).getD []) ((bDocs.get? docId).getD []) = y at apart ⊢
      cases x <;> cases y <;> simp_all <;> omega

/-- What the loop counts as agreement. -/
theorem tally_mechAgree (done : tally rt lower a b = .ok t) :
    t.mechAgree = countDocuments a b sameLabel + countDocuments a b noLabels := by
  rw [foldlM_mechAgree done, countDocuments, countDocuments]
  show 0 + _ + _ = _
  rw [zero_add]

theorem bar_eq_pass_iff (common : compared a b ≠ []) : bar rt lower a b = .ok "PASS" ↔
    (∃ t, tally rt lower a b = .ok t) ∧ required (compared a b).length ≤
      (countDocuments a b sameLabel + countDocuments a b noLabels : ℕ) := by
  have some_doc : (compared a b).length ≠ 0 := by
    rwa [ne_eq, List.length_eq_zero_iff]
  rw [bar]
  constructor
  · intro printed
    obtain ⟨t, done, rest⟩ := except_bind_ok.mp printed
    refine ⟨⟨t, done⟩, ?_⟩
    rw [← tally_mechAgree done]
    by_contra short
    simp [some_doc, short, Pure.pure, Except.pure] at rest
  · rintro ⟨⟨t, done⟩, enough⟩
    rw [← tally_mechAgree done] at enough
    simp [done, some_doc, enough, Pure.pure, Except.pure]

end Loop

/-! ### Reports that are compared to the end -/

/-- A log of attempts whose entries can be read. -/
def Logged (log : Json) : Prop :=
  truthy log = true → ∃ items, log = .arr items ∧ ∀ item ∈ items, ∃ entry, item = .obj entry

/-- A document as a run reports it: its attempts are counted, and its extraction, if there is
one, is an object with a log. -/
structure Shaped (doc : Dict Json) : Prop where
  attempts : ∀ v, doc.get? "validation_attempts" = some v → truthy v = true →
    (∃ q, v = .num q) ∨ (∃ x, v = .nonFinite x) ∨ ∃ flag, v = .bool flag
  extraction : ∀ v, doc.get? "extraction" = some v → truthy v = true → ∃ members,
    v = .obj members ∧ ∀ log, Dict.get? members "attempt_log" = some log → Logged log

section Completes

variable {rt : Runtime} {lower : String → String} {a b : Report} {doc : Dict Json}

theorem moreThanOne_ok_iff {v : Json} : (∃ more, moreThanOne v = .ok more) ↔
    (truthy v = true → (∃ q, v = .num q) ∨ (∃ x, v = .nonFinite x) ∨ ∃ flag, v = .bool flag) := by
  by_cases set : truthy v = true
  · cases v <;> simp [moreThanOne, set]
  · cases v <;> simp [moreThanOne, set]

theorem mapM_getOf_ok_iff {items : List Json} {key : String} :
    (∃ values, items.mapM (fun a => getOf a key) = .ok values) ↔
      ∀ item ∈ items, ∃ entry, item = .obj entry := by
  induction items with
  | nil => exact iff_of_true ⟨[], rfl⟩ nofun
  | cons item rest ih =>
      rw [List.forall_mem_cons, ← ih, List.mapM_cons]
      constructor
      · rintro ⟨values, read⟩
        obtain ⟨_, first, others⟩ := except_bind_ok.mp read
        obtain ⟨later, tail, _⟩ := except_bind_ok.mp others
        cases item with
        | obj entry => exact ⟨⟨entry, rfl⟩, later, tail⟩
        | _ => cases first
      · rintro ⟨⟨entry, rfl⟩, later, read⟩
        exact ⟨_, except_bind_ok.mpr ⟨_, rfl, except_bind_ok.mpr ⟨later, read, rfl⟩⟩⟩

/-- The entries of a log are read if it is empty or has objects in a row; the characters of a
text and the keys of an object are no objects. -/
theorem iterateOrEmpty_entries_iff {log : Json} :
    (∃ items, iterateOrEmpty log = .ok items ∧ ∀ item ∈ items, ∃ entry, item = .obj entry) ↔
      Logged log := by
  rw [iterateOrEmpty, Logged]
  split
  · next set =>
      cases log with
      | arr items => simp [iterate, set]
      | str s =>
          refine iff_of_false ?_ (by simp [set])
          rintro ⟨items, read, entries⟩
          obtain rfl := Except.ok.inj read
          obtain ⟨c, rest, chars⟩ : ∃ c rest, s.toList = c :: rest := by
            refine List.exists_cons_of_ne_nil fun empty => ?_
            rw [String.toList_eq_nil_iff.mp empty] at set
            cases set
          obtain ⟨entry, same⟩ := entries (.str (String.singleton c)) (by simp [chars])
          cases same
      | obj members =>
          refine iff_of_false ?_ (by simp [set])
          rintro ⟨items, read, entries⟩
          obtain rfl := Except.ok.inj read
          cases members with
          | nil => cases set
          | cons first rest =>
              obtain ⟨entry, same⟩ := entries (.str first.1) List.mem_cons_self
              cases same
      | _ => simp [iterate, set]
  · next unset => simp [unset]

theorem attemptErrors_ok_iff (rt : Runtime) : (∃ errs, attemptErrors rt doc = .ok errs) ↔
    ∀ v, doc.get? "extraction" = some v → truthy v = true → ∃ members, v = .obj members ∧
      ∀ log, Dict.get? members "attempt_log" = some log → Logged log := by
  have logs (members : Dict Json) :
      Logged ((Dict.get? members "attempt_log").getD (.arr [])) ↔
        ∀ log, Dict.get? members "attempt_log" = some log → Logged log := by
    cases Dict.get? members "attempt_log" with
    | none => simp [Logged, truthy]
    | some log => simp
  have read (members : Dict Json) (extraction : orEmpty (doc.get? "extraction") = .obj members) :
      (∃ errs, attemptErrors rt doc = .ok errs) ↔
        Logged ((Dict.get? members "attempt_log").getD (.arr [])) := by
    have logged : getOf (.obj members) "attempt_log" = .ok (Dict.get? members "attempt_log") := rfl
    rw [← iterateOrEmpty_entries_iff, attemptErrors, extraction, logged]
    simp only [except_ok_then, except_bind_ok, ← @mapM_getOf_ok_iff _ "validation_error"]
    constructor
    · rintro ⟨_, items, found, errs, each, _⟩
      exact ⟨items, found, errs, each⟩
    · rintro ⟨items, found, errs, each⟩
      exact ⟨_, items, found, errs, each, rfl⟩
  cases found : doc.get? "extraction" with
  | none =>
      rw [read [] (by rw [found]; rfl), logs]
      exact iff_of_true nofun nofun
  | some v =>
      simp only [Option.some.injEq, forall_eq']
      by_cases set : truthy v = true
      · have itself : orEmpty (doc.get? "extraction") = v := by rw [found, orEmpty, if_pos set]
        cases v with
        | obj members =>
            rw [read members itself, logs]
            simp [set]
        | _ =>
            rw [attemptErrors, itself]
            simp [getOf, set]
      · rw [read [] (by rw [found, orEmpty, if_neg set]), logs]
        exact iff_of_true nofun fun full => absurd full set

/-- What is read of a document is read if the document has the shape. -/
theorem shaped_iff (rt : Runtime) : Shaped doc ↔
    (∃ more, moreThanOne ((doc.get? "validation_attempts").getD .null) = .ok more) ∧
      ∃ errs, attemptErrors rt doc = .ok errs := by
  have attempts : (∃ more, moreThanOne ((doc.get? "validation_attempts").getD .null) = .ok more) ↔
      ∀ v, doc.get? "validation_attempts" = some v → truthy v = true →
        (∃ q, v = .num q) ∨ (∃ x, v = .nonFinite x) ∨ ∃ flag, v = .bool flag := by
    rw [moreThanOne_ok_iff]
    cases doc.get? "validation_attempts" with
    | none => simp [truthy]
    | some v => simp
  rw [attempts, attemptErrors_ok_iff]
  exact ⟨fun shaped => ⟨shaped.attempts, shaped.extraction⟩, fun parts => ⟨parts.1, parts.2⟩⟩

theorem Shaped.record (shaped : Shaped doc) : ∃ r, record doc = .ok r := by
  rw [ReproCheck.record]
  cases found : doc.get? "extraction" with
  | none => exact ⟨_, rfl⟩
  | some v =>
      dsimp only
      split
      · next set =>
          obtain ⟨members, rfl, _⟩ := shaped.extraction v found set
          exact ⟨_, rfl⟩
      · exact ⟨_, rfl⟩

/-- A pair is compared to the end if both documents have the shape. -/
theorem compareDocument_ok_iff {aDocs bDocs : Dict (Dict Json)} {t : Tally} {docId : String} :
    (∃ t', compareDocument rt lower aDocs bDocs t docId = .ok t') ↔
      Shaped ((aDocs.get? docId).getD []) ∧ Shaped ((bDocs.get? docId).getD []) := by
  constructor
  · rintro ⟨t', done⟩
    obtain ⟨_, _, done⟩ := except_bind_ok.mp done
    obtain ⟨_, _, done⟩ := except_bind_ok.mp done
    obtain ⟨moreA, retriedA, done⟩ := except_bind_ok.mp done
    obtain ⟨moreB, retriedB, done⟩ := except_bind_ok.mp done
    obtain ⟨errsA, readA, done⟩ := except_bind_ok.mp done
    obtain ⟨errsB, readB, _⟩ := except_bind_ok.mp done
    exact ⟨(shaped_iff rt).mpr ⟨⟨moreA, retriedA⟩, errsA, readA⟩,
      (shaped_iff rt).mpr ⟨⟨moreB, retriedB⟩, errsB, readB⟩⟩
  · rintro ⟨left, right⟩
    obtain ⟨ra, foundA⟩ := left.record
    obtain ⟨rb, foundB⟩ := right.record
    obtain ⟨⟨moreA, retriedA⟩, errsA, readA⟩ := (shaped_iff rt).mp left
    obtain ⟨⟨moreB, retriedB⟩, errsB, readB⟩ := (shaped_iff rt).mp right
    simp only [compareDocument, Tally.retries, foundA, foundB, retriedA, retriedB, readA, readB,
      except_ok_then]
    exact ⟨_, rfl⟩

/-- The loop comes to its end if every compared document has the shape in both reports. -/
theorem tally_ok_iff : (∃ t, tally rt lower a b = .ok t) ↔ ∀ docId ∈ compared a b,
    Shaped ((a.byId.get? docId).getD []) ∧ Shaped ((b.byId.get? docId).getD []) := by
  rw [tally]
  generalize (⟨0, 0, 0, [], 0, [], [], [], [], []⟩ : Tally) = start
  generalize compared a b = ids
  induction ids generalizing start with
  | nil => exact iff_of_true ⟨start, rfl⟩ nofun
  | cons docId rest ih =>
      rw [List.foldlM_cons, List.forall_mem_cons]
      constructor
      · rintro ⟨t, done⟩
        obtain ⟨next, first, later⟩ := except_bind_ok.mp done
        exact ⟨compareDocument_ok_iff.mp ⟨next, first⟩, (ih next).mp ⟨t, later⟩⟩
      · rintro ⟨pair, others⟩
        obtain ⟨next, first⟩ := compareDocument_ok_iff.mpr pair
        obtain ⟨t, later⟩ := (ih next).mpr others
        exact ⟨t, except_bind_ok.mpr ⟨next, first, later⟩⟩

end Completes

/-! ### The rounded bar -/

section Required

variable {n : ℕ}

/-- The double that `0.9` is. -/
theorem nearest_nine_tenths : nearest (9 / 10) = 8106479329266893 / 2 ^ 53 := by
  have rounded : nearest (9 / 10) = (8106479329266893 : ℤ) * 2 ^ (-53 : ℤ) := by
    apply nearest_eq_of_near
    · norm_num [zpow_neg, abs_of_pos]
    · norm_num [zpow_neg, abs_of_pos]
    · norm_num [zpow_neg, abs_lt]
  rw [rounded]
  norm_num [zpow_neg]

/-- The product before it is rounded: it is above nine tenths by a fifth of a last place. -/
theorem product_eq (small : n < 2 ^ 48) :
    nearest (9 / 10) * nearest n = 9 * n / 10 + n / (5 * 2 ^ 53) := by
  have whole : nearest (n : ℚ) = n := by
    have cast := @nearest_intCast (n : ℤ) (by rw [abs_of_nonneg (by positivity)]; omega)
    exact_mod_cast cast
  rw [nearest_nine_tenths, whole]
  ring

theorem required_of_near (small : n < 2 ^ 48) {m : ℤ} (near : |(9 * n / 10 : ℚ) - m| ≤ 2 / 5) :
    required n = m := by
  have bound : (n : ℚ) ≤ 2 ^ 48 := by exact_mod_cast small.le
  have nonneg : (0 : ℚ) ≤ 9 * n / 10 + n / (5 * 2 ^ 53) := by positivity
  have error := nearest_error (9 * n / 10 + n / (5 * 2 ^ 53) : ℚ)
  rw [abs_of_nonneg nonneg] at error
  rw [required, product_eq small]
  apply roundHalfEven_eq
  rw [abs_le] at error near
  rw [abs_lt]
  constructor <;> linarith

/-- The place of a positive number that is not large. -/
theorem exists_place {x : ℚ} (above : 0 < x) (below : x < 2 ^ 51) : ∃ k : ℕ,
    (2 : ℚ) ^ (-(k + 1 : ℤ) + 52) ≤ |x| ∧ |x| < (2 : ℚ) ^ (-(k + 1 : ℤ) + 53) := by
  have short : Int.log 2 x < 51 :=
    (Int.lt_zpow_iff_log_lt (by norm_num) above).mp (by exact_mod_cast below)
  obtain ⟨k, place⟩ : ∃ k : ℕ, (k : ℤ) + 1 = 52 - Int.log 2 x :=
    ⟨(51 - Int.log 2 x).toNat, by omega⟩
  refine ⟨k, ?_, ?_⟩
  · rw [abs_of_pos above, place]
    simpa using Int.zpow_log_le_self (by norm_num : 1 < 2) above
  · have exponent : -(k + 1 : ℤ) + 53 = Int.log 2 x + 1 := by omega
    rw [abs_of_pos above, exponent]
    exact Int.lt_zpow_succ_log_self (by norm_num : 1 < 2) x

theorem zpow_neg_succ (k : ℕ) : (2 : ℚ) ^ (-(k + 1 : ℤ)) = (2 ^ (k + 1))⁻¹ := by
  rw [zpow_neg]
  norm_cast

/-- What the product has too much is below half of its last place. -/
theorem excess_lt {k : ℕ}
    (high : (9 * n / 10 + n / (5 * 2 ^ 53) : ℚ) < (2 : ℚ) ^ (-(k + 1 : ℤ) + 53)) :
    (n : ℚ) / (5 * 2 ^ 53) * 2 ^ (k + 1) < 1 / 2 := by
  have nonneg : (0 : ℚ) ≤ n := by positivity
  set x : ℚ := 9 * n / 10 + n / (5 * 2 ^ 53) with product
  have units : (0 : ℚ) < 2 ^ (k + 1) := by positivity
  have scaled : x * 2 ^ (k + 1) < 2 ^ 53 := by
    rw [zpow_add₀ (by norm_num), zpow_neg_succ, inv_mul_eq_div] at high
    exact_mod_cast (lt_div_iff₀ units).mp high
  have share : (n : ℚ) / (5 * 2 ^ 53) ≤ x / 2 ^ 53 / 4 := by
    rw [product]
    linarith
  calc (n : ℚ) / (5 * 2 ^ 53) * 2 ^ (k + 1) ≤ x / 2 ^ 53 / 4 * 2 ^ (k + 1) := by gcongr
    _ = x * 2 ^ (k + 1) / (4 * 2 ^ 53) := by ring
    _ < 1 / 2 := by
        rw [div_lt_iff₀ (by positivity)]
        linarith

/-- A tie survives both roundings. -/
theorem required_of_tie (small : n < 2 ^ 48) {j : ℤ} (tie : (9 * n / 10 : ℚ) = j + 1 / 2)
    {m : ℤ} (rounded : roundHalfEven (j + 1 / 2) = m) : required n = m := by
  have positive : 0 < n := by
    by_contra zero
    rw [Nat.eq_zero_of_not_pos zero] at tie
    have half : ((2 * j + 1 : ℤ) : ℚ) = 0 := by
      push_cast at tie ⊢
      linarith
    have even : 2 * j + 1 = 0 := by exact_mod_cast half
    omega
  have scale : (0 : ℚ) < n := by exact_mod_cast positive
  have bound : (n : ℚ) ≤ 2 ^ 48 := by exact_mod_cast small.le
  have above : (0 : ℚ) < 9 * n / 10 + n / (5 * 2 ^ 53) := by positivity
  obtain ⟨k, low, high⟩ := exists_place above (by linarith)
  have whole : (9 * n / 10 : ℚ) * 2 ^ (k + 1) = ((2 * j + 1) * 2 ^ k : ℤ) := by
    rw [tie]
    push_cast
    ring
  have near : |(9 * n / 10 + n / (5 * 2 ^ 53) : ℚ) / 2 ^ (-(k + 1 : ℤ)) -
      ((2 * j + 1) * 2 ^ k : ℤ)| < 1 / 2 := by
    rw [← whole, zpow_neg_succ, div_inv_eq_mul, ← sub_mul, add_sub_cancel_left, abs_of_pos
      (by positivity)]
    rw [abs_of_pos above] at high
    exact excess_lt high
  rw [required, product_eq small, nearest_eq_of_near low high near, zpow_neg_succ, ← whole,
    mul_assoc, mul_inv_cancel₀ (by positivity), mul_one, tie, rounded]

/-- Nine tenths of the count, rounded; of two nearest integers the even one. -/
theorem required_eq (small : n < 2 ^ 48) :
    required n = if n % 20 = 5 then ((9 * n / 10 : ℕ) : ℤ) else (((9 * n + 5) / 10 : ℕ) : ℤ) := by
  by_cases five : n % 10 = 5
  · obtain ⟨j, count⟩ : ∃ j : ℕ, 9 * n = 10 * j + 5 := ⟨9 * n / 10, by omega⟩
    have tie : (9 * n / 10 : ℚ) = (j : ℤ) + 1 / 2 := by
      have cast : (9 * n : ℚ) = 10 * j + 5 := by exact_mod_cast count
      rw [cast]
      push_cast
      ring
    split
    · next low =>
        have even : (j : ℤ) % 2 = 0 := by omega
        have place : 9 * n / 10 = j := by omega
        rw [place]
        refine required_of_tie small tie (roundHalfEven_tie ?_ even)
        norm_num [abs_of_pos]
    · next high =>
        have even : ((j : ℤ) + 1) % 2 = 0 := by omega
        have place : (9 * n + 5) / 10 = j + 1 := by omega
        rw [place]
        refine required_of_tie small tie (roundHalfEven_tie ?_ (by exact_mod_cast even))
        push_cast
        norm_num [abs_of_neg]
  · rw [if_neg (by omega)]
    apply required_of_near small
    have low : 10 * ((9 * n + 5) / 10) ≤ 9 * n + 4 := by omega
    have high : 9 * n ≤ 10 * ((9 * n + 5) / 10) + 4 := by omega
    generalize (9 * n + 5) / 10 = m at low high ⊢
    have low' : (10 * m : ℚ) ≤ 9 * n + 4 := by exact_mod_cast low
    have high' : (9 * n : ℚ) ≤ 10 * m + 4 := by exact_mod_cast high
    rw [abs_le]
    push_cast
    constructor <;> linarith

/-- The bar is below nine tenths for four counts out of ten, and for every other tie. -/
theorem required_lt_iff (small : n < 2 ^ 48) :
    10 * required n < 9 * n ↔ 6 ≤ n % 10 ∨ n % 20 = 5 := by
  rw [required_eq small]
  obtain ⟨c, r, below, rfl⟩ : ∃ c r, r < 20 ∧ n = 20 * c + r :=
    ⟨n / 20, n % 20, Nat.mod_lt n (by decide), (Nat.div_add_mod n 20).symm⟩
  interval_cases r <;> split <;> omega

end Required

/-! ### The bar -/

/-- `PASS` stands for nine tenths of the documents unless missing labels or the rounding make
up for the difference. -/
theorem bar_pass_iff (rt : Runtime) (lower : String → String) (a b : Report) :
    (bar rt lower a b = .ok "PASS" →
        9 * (compared a b).length ≤ 10 * countDocuments a b sameLabel) ↔
      ¬ ((∀ docId ∈ compared a b, Shaped ((a.byId.get? docId).getD []) ∧
          Shaped ((b.byId.get? docId).getD [])) ∧
        required (compared a b).length ≤
          (countDocuments a b sameLabel + countDocuments a b noLabels : ℕ) ∧
        10 * countDocuments a b sameLabel < 9 * (compared a b).length) := by
  by_cases common : compared a b = []
  · simp [common]
  rw [bar_eq_pass_iff common, tally_ok_iff]
  constructor
  · rintro promised ⟨done, enough, short⟩
    exact absurd (promised ⟨done, enough⟩) (not_le.mpr short)
  · rintro within ⟨done, enough⟩
    by_contra short
    exact within ⟨done, enough, not_le.mp short⟩

/-- A run whose only extraction failed. -/
def failedReport : Report := ⟨[⟨"A", [("extraction", .null)]⟩]⟩

theorem compared_failedReport : compared failedReport failedReport = ["A"] := by
  simp [compared, failedReport, Report.byId, Dict.set, Dict.keys]

/-- The run passes against itself without a record. -/
theorem bar_failedReport : bar Runtime.ascii id failedReport failedReport = .ok "PASS" ∧
    countDocuments failedReport failedReport sameLabel = 0 ∧
    ¬ (bar Runtime.ascii id failedReport failedReport = .ok "PASS" →
      9 * (compared failedReport failedReport).length ≤
        10 * countDocuments failedReport failedReport sameLabel) := by
  have good : countDocuments failedReport failedReport sameLabel = 0 := by
    rw [countDocuments, compared_failedReport]
    rfl
  have none_ : countDocuments failedReport failedReport noLabels = 1 := by
    rw [countDocuments, compared_failedReport]
    rfl
  have done : ∃ t, tally Runtime.ascii id failedReport failedReport = .ok t := by
    rw [tally, compared_failedReport]
    exact ⟨_, rfl⟩
  have pass : bar Runtime.ascii id failedReport failedReport = .ok "PASS" := by
    rw [bar_eq_pass_iff (by simp [compared_failedReport]), good, none_, compared_failedReport]
    refine ⟨done, ?_⟩
    rw [List.length_singleton, required_eq (by decide)]
    decide
  refine ⟨pass, good, fun promised => ?_⟩
  have enough := promised pass
  rw [good, compared_failedReport] at enough
  exact absurd enough (by decide)

end IncidentPipeline.ReproCheck
