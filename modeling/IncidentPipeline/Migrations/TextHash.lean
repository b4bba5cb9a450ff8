import IncidentPipeline.Ingest.Pipeline

/-!
# The migration to one document per text

Revision 0005 adds `text_hash` to `documents`, and makes one document of those that share a
text: jobs and extractions of the later ones are pointed at the oldest, which takes the
provenance of the newest. A statement updates the rows of a table one after another, and
each new version of a row is checked against the others as they are then.
-/

namespace IncidentPipeline.Migration0005

open Python Tables

/-- A row of `documents` at revision 0004. -/
structure DocumentRow where
  id : Uuid
  sourceId : Uuid
  sourceUrl : String
  contentHash : String
  format : DocFormat
  fetchedAt : Time
  storageBackend : String
  rawBytes : Bytes
  text : String
  title : Option String
  createdAt : Time

/-- A row of `extractions` at revision 0004. -/
structure ExtractionRow where
  id : Uuid
  documentId : Uuid
  schemaVersion : String
  provider : String
  model : String
  status : ExtractionStatus
  record : Option Json
  perFieldConfidence : Option Json
  confidenceSource : String
  derived : Option Json
  attempts : Nat
  attemptLog : Json
  usage : Json
  error : Option String
  errorKind : Option ErrorKind
  createdAt : Time

/-- The tables that the migration reads. -/
structure Revision0004 where
  documents : List DocumentRow
  jobs : List Job
  extractions : List ExtractionRow

/-- The same tables once `documents` has its new column. -/
structure Revision0005 where
  documents : List Document
  jobs : List Job
  extractions : List ExtractionRow

inductive Failure where
  /-- The `RuntimeError` of the check. -/
  | cannotMerge (duplicate canonical : Uuid) (collisions : List (String × String × String))
  | violates (constraint : String)
  /-- An exception that the code does not foresee, by its class. -/
  | unforeseen (cls : String)
deriving DecidableEq

/-! ### The constraints at revision 0004 -/

def ExtractionRow.key (x : ExtractionRow) : String × String × String :=
  (x.schemaVersion, x.provider, x.model)

/-- Two rows that `ux_extractions_complete` does not allow side by side. -/
def Clash (x y : ExtractionRow) : Prop :=
  x.status = .complete ∧ y.status = .complete ∧ x.documentId = y.documentId ∧ x.key = y.key

instance (x y : ExtractionRow) : Decidable (Clash x y) := inferInstanceAs (Decidable (_ ∧ _))

def CompleteUnique (rows : List ExtractionRow) : Prop := rows.Pairwise fun x y => ¬ Clash x y

instance (rows : List ExtractionRow) : Decidable (CompleteUnique rows) :=
  inferInstanceAs (Decidable (List.Pairwise _ rows))

structure Revision0004.Constrained (d : Revision0004) : Prop where
  ids : Keyed DocumentRow.id d.documents
  contents : Keyed DocumentRow.contentHash d.documents
  complete : CompleteUnique d.extractions

/-! ### The migration -/

def DocumentRow.addTextHash (sha256 : Bytes → String) (r : DocumentRow) : Document :=
  ⟨r.id, r.sourceId, r.sourceUrl, r.contentHash, textHashOf sha256 r.text, r.format, r.fetchedAt,
    r.storageBackend, r.rawBytes, r.text, r.title, r.createdAt⟩

/-- The documents with one text hash, as the query names them. -/
structure Group where
  textHash : String
  ids : List Uuid

/-- What the query may answer: a group for each text hash of several documents, the oldest
first; which of two equally old ones comes first is not said. -/
structure Answers (documents : List Document) (groups : List Group) : Prop where
  hashes : (groups.map Group.textHash).Nodup
  shared : ∀ hash, hash ∈ groups.map Group.textHash ↔
    1 < (documents.filter (·.textHash = hash)).length
  ids : ∀ g ∈ groups, ∃ rows : List Document, rows.Perm (documents.filter (·.textHash = g.textHash)) ∧
    rows.Pairwise (·.createdAt ≤ ·.createdAt) ∧ g.ids = rows.map Document.id

/-- The complete extractions of a duplicate whose key the canonical document has too. -/
def collisions (canonical duplicate : Uuid) (rows : List ExtractionRow) :
    List (String × String × String) :=
  (rows.filter fun d => d.documentId = duplicate && d.status = .complete && rows.any fun c =>
    c.documentId = canonical && c.status = .complete && c.key = d.key).map ExtractionRow.key

def checkGroup (rows : List ExtractionRow) (g : Group) : Except Failure Unit :=
  match g.ids with
  | [] => .error (.unforeseen "ValueError")
  | canonical :: duplicates => duplicates.forM fun duplicate =>
      match collisions canonical duplicate rows with
      | [] => .ok ()
      | found => .error (.cannotMerge duplicate canonical found)

def repointJob (canonical duplicate : Uuid) (j : Job) : Job :=
  if j.documentId = some duplicate then { j with documentId := some canonical } else j

/-- The update of `extractions`; the rows of `done` have been looked at. -/
def repointExtractions (canonical duplicate : Uuid) :
    (done rest : List ExtractionRow) → Except Failure (List ExtractionRow)
  | done, [] => .ok done
  | done, x :: rest =>
      if x.documentId = duplicate then
        if (done ++ rest).any fun y => Clash { x with documentId := canonical } y then
          .error (.violates "ux_extractions_complete")
        else repointExtractions canonical duplicate
          (done ++ [{ x with documentId := canonical }]) rest
      else repointExtractions canonical duplicate (done ++ [x]) rest

def mergeDuplicate (canonical : Uuid) (d : Revision0005) (duplicate : Uuid) :
    Except Failure Revision0005 := do
  let jobs := d.jobs.map (repointJob canonical duplicate)
  let extractions ← repointExtractions canonical duplicate [] d.extractions
  return ⟨d.documents.filter (·.id ≠ duplicate), jobs, extractions⟩

def withProvenance (newest row : Document) : Document :=
  { row with
    sourceUrl := newest.sourceUrl, fetchedAt := newest.fetchedAt,
    contentHash := newest.contentHash, rawBytes := newest.rawBytes,
    storageBackend := newest.storageBackend }

def updateProvenance (canonical : Uuid) (newest : Document) (d : Revision0005) :
    Except Failure Revision0005 :=
  match d.documents.find? (·.id = canonical) with
  | none => .ok d
  | some row =>
      if (otherRows Document.id canonical d.documents).any (·.contentHash = newest.contentHash) then
        .error (.violates "documents_content_hash_key")
      else .ok { d with
        documents := replaceRow Document.id canonical (withProvenance newest row) d.documents }

def mergeGroup (d : Revision0005) (g : Group) : Except Failure Revision0005 :=
  match g.ids with
  | [] => .error (.unforeseen "ValueError")
  | canonical :: duplicates =>
      match duplicates.getLast? with
      | none => .error (.unforeseen "IndexError")
      | some last =>
          match d.documents.filter (·.id = last) with
          | [newest] => do
              let d ← duplicates.foldlM (mergeDuplicate canonical) d
              updateProvenance canonical newest d
          | _ => .error (.unforeseen "NoResultFound")

/-- The two loops over the groups that the query answered. -/
def mergeDocumentsSharingAText (groups : List Group) (d : Revision0005) :
    Except Failure Revision0005 := do
  groups.forM (checkGroup d.extractions)
  groups.foldlM mergeGroup d

def addTextHash (sha256 : Bytes → String) (d : Revision0004) : Revision0005 :=
  ⟨d.documents.map (·.addTextHash sha256), d.jobs, d.extractions⟩

def upgrade (sha256 : Bytes → String) (groups : List Group) (d : Revision0004) :
    Except Failure Revision0005 := do
  let merged ← mergeDocumentsSharingAText groups (addTextHash sha256 d)
  if (merged.documents.map Document.textHash).Nodup then return merged
  else .error (.violates "documents_text_hash_key")

/-! ### Pointing at another document -/

section Repointing

variable {rows done rest : List ExtractionRow} {x y : ExtractionRow} {canonical duplicate : Uuid}

theorem Clash.symm (clash : Clash x y) : Clash y x :=
  ⟨clash.2.1, clash.1, clash.2.2.1.symm, clash.2.2.2.symm⟩

def ExtractionRow.repoint (f : Uuid → Uuid) (x : ExtractionRow) : ExtractionRow :=
  { x with documentId := f x.documentId }

def Job.repoint (f : Uuid → Uuid) (j : Job) : Job := { j with documentId := j.documentId.map f }

/-- Where a reference goes when `duplicate` gives way. -/
def redirectOne (canonical duplicate id : Uuid) : Uuid := if id = duplicate then canonical else id

/-- Where a reference goes when several duplicates give way one after another. -/
def redirectAll (canonical : Uuid) (duplicates : List Uuid) (id : Uuid) : Uuid :=
  duplicates.foldl (fun id duplicate => redirectOne canonical duplicate id) id

/-- Where a reference goes when a group is merged. -/
def Group.redirect (g : Group) (id : Uuid) : Uuid :=
  match g.ids with
  | [] => id
  | canonical :: duplicates => redirectAll canonical duplicates id

/-- Where a reference goes when all groups are merged. -/
def redirect (groups : List Group) (id : Uuid) : Uuid := groups.foldl (fun id g => g.redirect id) id

theorem repoint_repoint (f g : Uuid → Uuid) (rows : List ExtractionRow) :
    (rows.map (ExtractionRow.repoint f)).map (ExtractionRow.repoint g) =
      rows.map (ExtractionRow.repoint (g ∘ f)) := by
  rw [List.map_map]
  rfl

theorem Job.repoint_repoint (f g : Uuid → Uuid) (jobs : List Job) :
    (jobs.map (Job.repoint f)).map (Job.repoint g) = jobs.map (Job.repoint (g ∘ f)) := by
  rw [List.map_map]
  refine List.map_congr_left fun j _ => ?_
  simp only [Function.comp_apply, Job.repoint, Option.map_map]

theorem repoint_stays {f : Uuid → Uuid} (stays : ∀ id, f id = id) (rows : List ExtractionRow) :
    rows.map (ExtractionRow.repoint f) = rows := by
  obtain rfl : f = id := funext stays
  exact List.map_id _

theorem Job.repoint_stays {f : Uuid → Uuid} (stays : ∀ id, f id = id) (jobs : List Job) :
    jobs.map (Job.repoint f) = jobs := by
  obtain rfl : f = id := funext stays
  refine (List.map_congr_left fun j _ => ?_).trans (List.map_id _)
  rw [Job.repoint, Option.map_id]
  rfl

theorem repointJob_eq (j : Job) :
    repointJob canonical duplicate j = Job.repoint (redirectOne canonical duplicate) j := by
  rw [repointJob]
  split
  · next same => rw [Job.repoint, same, Option.map_some, redirectOne, if_pos rfl]
  · next other =>
      have kept : j.documentId.map (redirectOne canonical duplicate) = j.documentId := by
        cases pointed : j.documentId with
        | none => rfl
        | some id =>
            rw [Option.map_some, redirectOne, if_neg]
            exact fun same => other (pointed.trans (congrArg some same))
      rw [Job.repoint, kept]

/-- Rows that may not stand side by side may not do so wherever their documents go. -/
theorem CompleteUnique.of_repoint {f : Uuid → Uuid}
    (unique : CompleteUnique (rows.map (ExtractionRow.repoint f))) : CompleteUnique rows := by
  rw [CompleteUnique, List.pairwise_map] at unique
  refine unique.imp fun separate clash => separate ?_
  exact ⟨clash.1, clash.2.1, congrArg f clash.2.2.1, clash.2.2.2⟩

theorem completeUnique_middle : CompleteUnique (done ++ x :: rest) ↔
    CompleteUnique (done ++ rest) ∧ ∀ y ∈ done ++ rest, ¬ Clash x y := by
  rw [CompleteUnique, List.pairwise_middle fun h clash => h clash.symm, List.pairwise_cons,
    and_comm]
  rfl

/-- Checking each new version against the rows of that moment is checking the table that
the update leads to. -/
theorem repointExtractions_eq (other : canonical ≠ duplicate)
    (unique : CompleteUnique (done ++ rest)) :
    repointExtractions canonical duplicate done rest =
      if CompleteUnique (done ++ rest.map (.repoint (redirectOne canonical duplicate))) then
        .ok (done ++ rest.map (.repoint (redirectOne canonical duplicate)))
      else .error (.violates "ux_extractions_complete") := by
  induction rest generalizing done with
  | nil =>
      rw [List.append_nil] at unique
      rw [repointExtractions, List.map_nil, List.append_nil, if_pos unique]
  | cons x rest ih =>
      obtain ⟨later, separate⟩ := completeUnique_middle.mp unique
      rw [repointExtractions, List.map_cons]
      split
      · next moves =>
          have moved : x.repoint (redirectOne canonical duplicate) =
              { x with documentId := canonical } := by
            rw [ExtractionRow.repoint, redirectOne, if_pos moves]
          rw [moved]
          split
          · next clashes =>
              -- the other row stays where it is, so the clash does too
              obtain ⟨y, member, clash⟩ := List.any_eq_true.mp clashes
              have clash := of_decide_eq_true clash
              have stays : y.repoint (redirectOne canonical duplicate) = y := by
                rw [ExtractionRow.repoint, redirectOne, if_neg]
                exact fun same => other (clash.2.2.1.trans same)
              have after : y ∈ done ++ rest.map (.repoint (redirectOne canonical duplicate)) := by
                obtain early | late := List.mem_append.mp member
                · exact List.mem_append_left _ early
                · exact List.mem_append_right _ (stays ▸ List.mem_map_of_mem late)
              rw [if_neg]
              exact fun unique => (completeUnique_middle.mp unique).2 y after clash
          · next free =>
              have free : ∀ y ∈ done ++ rest, ¬ Clash { x with documentId := canonical } y :=
                fun y member clash =>
                  free (List.any_eq_true.mpr ⟨y, member, decide_eq_true clash⟩)
              have table := completeUnique_middle.mpr ⟨later, free⟩
              rw [List.append_cons] at table
              rw [ih table, List.append_assoc]
              rfl
      · next stays =>
          have same : x.repoint (redirectOne canonical duplicate) = x := by
            rw [ExtractionRow.repoint, redirectOne, if_neg stays]
          rw [List.append_cons] at unique
          rw [same, ih unique, List.append_assoc]
          rfl

theorem mergeDuplicates_eq {duplicates : List Uuid} (absent : canonical ∉ duplicates)
    {d : Revision0005} (unique : CompleteUnique d.extractions) :
    duplicates.foldlM (mergeDuplicate canonical) d =
      if CompleteUnique (d.extractions.map (.repoint (redirectAll canonical duplicates))) then
        .ok ⟨d.documents.filter (·.id ∉ duplicates),
          d.jobs.map (Job.repoint (redirectAll canonical duplicates)),
          d.extractions.map (.repoint (redirectAll canonical duplicates))⟩
      else .error (.violates "ux_extractions_complete") := by
  induction duplicates generalizing d with
  | nil =>
      have stays : ∀ id, redirectAll canonical [] id = id := fun _ => rfl
      rw [Job.repoint_stays stays, repoint_stays stays, if_pos unique]
      simp only [List.foldlM_nil, List.not_mem_nil, not_false_eq_true, decide_true,
        List.filter_true]
      rfl
  | cons duplicate rest ih =>
      obtain ⟨other, absent⟩ := not_or.mp (mt List.mem_cons.mpr absent)
      have composed : redirectAll canonical (duplicate :: rest) =
          redirectAll canonical rest ∘ redirectOne canonical duplicate := rfl
      have gone : d.documents.filter (·.id ∉ duplicate :: rest) =
          (d.documents.filter (·.id ≠ duplicate)).filter (·.id ∉ rest) := by
        rw [List.filter_filter]
        refine List.filter_congr fun r _ => ?_
        rw [← Bool.decide_and, decide_eq_decide, List.mem_cons, not_or, and_comm]
      have first := @repointExtractions_eq [] d.extractions canonical duplicate other unique
      rw [List.nil_append] at first
      rw [List.foldlM_cons, mergeDuplicate, first, composed, ← repoint_repoint,
        ← Job.repoint_repoint]
      split
      · next unique' =>
          have later := @ih absent ⟨d.documents.filter (·.id ≠ duplicate),
            d.jobs.map (Job.repoint (redirectOne canonical duplicate)), _⟩ unique'
          rw [gone, funext repointJob_eq]
          exact later
      · next clash =>
          rw [if_neg fun unique => clash unique.of_repoint]
          rfl

end Repointing

/-! ### Merging a group -/

/-- The rows of a group as the query orders them. -/
structure SharedBy (documents : List Document) (g : Group) (canonical : Document)
    (between : List Document) (newest : Document) : Prop where
  rows : (canonical :: (between ++ [newest])).Perm (documents.filter (·.textHash = g.textHash))
  order : (canonical :: (between ++ [newest])).Pairwise (·.createdAt ≤ ·.createdAt)
  ids : g.ids = canonical.id :: (between ++ [newest]).map Document.id

/-- The documents once a group is merged. -/
def mergedDocuments (canonical : Document) (between : List Document) (newest : Document)
    (documents : List Document) : List Document :=
  replaceRow Document.id canonical.id (withProvenance newest canonical)
    (documents.filter (·.id ∉ (between ++ [newest]).map Document.id))

section Merging

variable {documents : List Document} {g : Group} {canonical newest : Document}
  {between : List Document}

theorem SharedBy.mem (shared : SharedBy documents g canonical between newest) {r : Document} :
    r ∈ canonical :: (between ++ [newest]) ↔ r ∈ documents ∧ r.textHash = g.textHash := by
  rw [shared.rows.mem_iff, List.mem_filter, decide_eq_true_eq]

theorem SharedBy.canonical_mem (shared : SharedBy documents g canonical between newest) :
    canonical ∈ documents ∧ canonical.textHash = g.textHash :=
  shared.mem.mp List.mem_cons_self

theorem SharedBy.newest_mem (shared : SharedBy documents g canonical between newest) :
    newest ∈ documents ∧ newest.textHash = g.textHash :=
  shared.mem.mp (by simp)

theorem SharedBy.canonical_stays (ids : Keyed Document.id documents)
    (shared : SharedBy documents g canonical between newest) :
    canonical.id ∉ (between ++ [newest]).map Document.id := by
  have group : ((documents.filter (·.textHash = g.textHash)).map Document.id).Nodup :=
    ids.sublist (List.filter_sublist.map _)
  have nodup := (shared.rows.map Document.id).nodup_iff.mpr group
  exact (List.nodup_cons.mp nodup).1

theorem mem_kept {r : Document} :
    r ∈ documents.filter (·.id ∉ (between ++ [newest]).map Document.id) ↔
      r ∈ documents ∧ r.id ∉ (between ++ [newest]).map Document.id := by
  rw [List.mem_filter, decide_eq_true_eq]

/-- The bytes of the newest row are free once the row is gone. -/
theorem SharedBy.bytes_free (contents : Keyed Document.contentHash documents)
    (shared : SharedBy documents g canonical between newest) :
    ∀ r ∈ documents.filter (·.id ∉ (between ++ [newest]).map Document.id),
      r.contentHash ≠ newest.contentHash := by
  intro r member same
  obtain ⟨member, stays⟩ := mem_kept.mp member
  have row := contents.eq_of_key member shared.newest_mem.1 same
  exact stays (row ▸ List.mem_map_of_mem (by simp))

theorem mergeGroup_eq {d : Revision0005} (ids : Keyed Document.id d.documents)
    (contents : Keyed Document.contentHash d.documents) (unique : CompleteUnique d.extractions)
    (shared : SharedBy d.documents g canonical between newest) :
    mergeGroup d g =
      if CompleteUnique (d.extractions.map (.repoint g.redirect)) then
        .ok ⟨mergedDocuments canonical between newest d.documents,
          d.jobs.map (Job.repoint g.redirect), d.extractions.map (.repoint g.redirect)⟩
      else .error (.violates "ux_extractions_complete") := by
  have stays := shared.canonical_stays ids
  have redirected : g.redirect =
      redirectAll canonical.id ((between ++ [newest]).map Document.id) := by
    funext id
    rw [Group.redirect, shared.ids]
  have last : ((between ++ [newest]).map Document.id).getLast? = some newest.id := by
    rw [List.map_append, List.map_singleton, List.getLast?_concat]
  have one : d.documents.filter (·.id = newest.id) = [newest] := ids.filter_key shared.newest_mem.1
  rw [mergeGroup, shared.ids]
  simp only [last, one]
  rw [mergeDuplicates_eq stays unique, ← redirected]
  split
  · have kept : Keyed Document.id
        (d.documents.filter (·.id ∉ (between ++ [newest]).map Document.id)) :=
      ids.sublist (List.filter_sublist.map _)
    have found := kept.find? (mem_kept.mpr ⟨shared.canonical_mem.1, stays⟩)
    have free : ¬ (otherRows Document.id canonical.id
        (d.documents.filter (·.id ∉ (between ++ [newest]).map Document.id))).any
          (·.contentHash = newest.contentHash) := by
      intro taken
      obtain ⟨r, member, same⟩ := List.any_eq_true.mp taken
      exact shared.bytes_free contents r (mem_otherRows.mp member).1 (of_decide_eq_true same)
    change updateProvenance canonical.id newest _ = _
    rw [updateProvenance]
    simp only [found]
    rw [if_neg free]
    rfl
  · rfl

theorem redirectAll_eq (canonical : Uuid) (duplicates : List Uuid) (id : Uuid) :
    redirectAll canonical duplicates id = if id ∈ duplicates then canonical else id := by
  induction duplicates generalizing id with
  | nil => rfl
  | cons duplicate rest ih =>
      have step : redirectAll canonical (duplicate :: rest) id =
          redirectAll canonical rest (redirectOne canonical duplicate id) := rfl
      rw [step, ih, redirectOne]
      by_cases same : id = duplicate
      · simp [same]
      · simp [same]

theorem SharedBy.redirect_eq (shared : SharedBy documents g canonical between newest) (id : Uuid) :
    g.redirect id =
      if id ∈ (between ++ [newest]).map Document.id then canonical.id else id := by
  rw [Group.redirect, shared.ids]
  exact redirectAll_eq _ _ id

theorem keyed_mergedDocuments (ids : Keyed Document.id documents) :
    Keyed Document.id (mergedDocuments canonical between newest documents) := by
  have kept : Keyed Document.id
      (documents.filter (·.id ∉ (between ++ [newest]).map Document.id)) :=
    ids.sublist (List.filter_sublist.map _)
  exact kept.replaceRow rfl

theorem SharedBy.contents_mergedDocuments (ids : Keyed Document.id documents)
    (contents : Keyed Document.contentHash documents)
    (shared : SharedBy documents g canonical between newest) :
    Keyed Document.contentHash (mergedDocuments canonical between newest documents) := by
  have kept : Keyed Document.id
      (documents.filter (·.id ∉ (between ++ [newest]).map Document.id)) :=
    ids.sublist (List.filter_sublist.map _)
  have bytes : Keyed Document.contentHash
      (documents.filter (·.id ∉ (between ++ [newest]).map Document.id)) :=
    contents.sublist (List.filter_sublist.map _)
  exact bytes.replaceRow_fresh kept (shared.bytes_free contents)

/-- A duplicate has the text of its group. -/
theorem SharedBy.duplicate_text (ids : Keyed Document.id documents)
    (shared : SharedBy documents g canonical between newest) {r : Document} (member : r ∈ documents)
    (duplicate : r.id ∈ (between ++ [newest]).map Document.id) : r.textHash = g.textHash := by
  obtain ⟨row, inGroup, same⟩ := List.mem_map.mp duplicate
  have found := shared.mem.mp (List.mem_cons_of_mem _ inGroup)
  rw [← ids.eq_of_key found.1 member same]
  exact found.2

/-- Documents with other texts are left alone. -/
theorem SharedBy.other_texts (ids : Keyed Document.id documents)
    (shared : SharedBy documents g canonical between newest) {hash : String}
    (other : hash ≠ g.textHash) :
    (mergedDocuments canonical between newest documents).filter (·.textHash = hash) =
      documents.filter (·.textHash = hash) := by
  have kept : Keyed Document.id
      (documents.filter (·.id ∉ (between ++ [newest]).map Document.id)) :=
    ids.sublist (List.filter_sublist.map _)
  have row : canonical ∈ documents.filter (·.id ∉ (between ++ [newest]).map Document.id) :=
    mem_kept.mpr ⟨shared.canonical_mem.1, shared.canonical_stays ids⟩
  have before : decide (canonical.textHash = hash) = false :=
    decide_eq_false (shared.canonical_mem.2 ▸ other.symm)
  have after : decide ((withProvenance newest canonical).textHash = hash) = false := before
  rw [mergedDocuments, kept.filter_replaceRow (·.textHash = hash) row before after,
    List.filter_filter]
  refine List.filter_congr fun r member => ?_
  rw [← Bool.decide_and, decide_eq_decide, and_iff_left_iff_imp]
  intro same duplicate
  exact other (same ▸ shared.duplicate_text ids member duplicate)

/-- Of the documents with the text one is left. -/
theorem SharedBy.own_text (ids : Keyed Document.id documents)
    (shared : SharedBy documents g canonical between newest) :
    (mergedDocuments canonical between newest documents).filter (·.textHash = g.textHash) =
      [withProvenance newest canonical] := by
  have kept : Keyed Document.id
      (documents.filter (·.id ∉ (between ++ [newest]).map Document.id)) :=
    ids.sublist (List.filter_sublist.map _)
  have stays := shared.canonical_stays ids
  have only : (documents.filter (·.id ∉ (between ++ [newest]).map Document.id)).filter
      (·.textHash = g.textHash) = [canonical] := by
    rw [List.filter_comm]
    have rest : (between ++ [newest]).filter
        (·.id ∉ (between ++ [newest]).map Document.id) = [] := by
      refine List.filter_eq_nil_iff.mpr fun r member stays => ?_
      exact of_decide_eq_true stays (List.mem_map_of_mem member)
    have row : (canonical :: (between ++ [newest])).filter
        (·.id ∉ (between ++ [newest]).map Document.id) = [canonical] := by
      rw [List.filter_cons, if_pos (decide_eq_true stays), rest]
    have left := shared.rows.filter (·.id ∉ (between ++ [newest]).map Document.id)
    rw [row] at left
    exact List.perm_singleton.mp left.symm
  have column : ∀ r ∈ documents.filter (·.id ∉ (between ++ [newest]).map Document.id),
      (if r.id = canonical.id then withProvenance newest canonical else r).textHash =
        r.textHash := by
    intro r member
    split
    · next same =>
        have row := kept.eq_of_key member (mem_kept.mpr ⟨shared.canonical_mem.1, stays⟩) same
        rw [row]
        rfl
    · rfl
  rw [mergedDocuments, replaceRow, List.filter_map,
    List.filter_congr (q := (·.textHash = g.textHash)), only, List.map_singleton, if_pos rfl]
  intro r member
  rw [Function.comp_apply, column r member]

/-- A reference to a document leads to one with the same text. -/
theorem SharedBy.redirect_mem (ids : Keyed Document.id documents)
    (shared : SharedBy documents g canonical between newest) {r : Document}
    (member : r ∈ documents) :
    ∃ r' ∈ mergedDocuments canonical between newest documents,
      r'.id = g.redirect r.id ∧ r'.textHash = r.textHash := by
  have row : canonical ∈ documents.filter (·.id ∉ (between ++ [newest]).map Document.id) :=
    mem_kept.mpr ⟨shared.canonical_mem.1, shared.canonical_stays ids⟩
  have survivor : withProvenance newest canonical ∈
      mergedDocuments canonical between newest documents := after_mem_replaceRow row rfl
  rw [shared.redirect_eq]
  split
  · next duplicate =>
      have text : canonical.textHash = r.textHash :=
        shared.canonical_mem.2.trans (shared.duplicate_text ids member duplicate).symm
      exact ⟨_, survivor, rfl, text⟩
  · next stays =>
      by_cases same : r.id = canonical.id
      · obtain rfl := ids.eq_of_key member shared.canonical_mem.1 same
        exact ⟨_, survivor, rfl, rfl⟩
      · exact ⟨r, mem_replaceRow_of_ne (mem_kept.mpr ⟨member, stays⟩) same, rfl, rfl⟩

end Merging

end IncidentPipeline.Migration0005
