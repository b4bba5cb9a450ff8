import IncidentPipeline.Ingest.Documents
import IncidentPipeline.Migrations.TextHash

/-!
# What the migration leaves

Merging a group touches the documents of one text and no others, so the groups can be
followed one after another. The updates are in conflict exactly when two documents of a
group have complete extractions with the same key, whichever of them is the oldest.
-/

namespace IncidentPipeline.Migration0005

open Python Tables

/-- The groups that are still to be merged. -/
structure Pending (documents : List Document) (groups : List Group) : Prop where
  hashes : (groups.map Group.textHash).Nodup
  rows : ∀ g ∈ groups, ∃ canonical between newest, SharedBy documents g canonical between newest

/-- What merging groups makes of the documents. -/
structure MergedInto (documents : List Document) (groups : List Group) (after : List Document) :
    Prop where
  ids : Keyed Document.id after
  contents : Keyed Document.contentHash after
  others : ∀ hash, hash ∉ groups.map Group.textHash →
    after.filter (·.textHash = hash) = documents.filter (·.textHash = hash)
  merged : ∀ g ∈ groups, ∃ canonical between newest,
    SharedBy documents g canonical between newest ∧
      after.filter (·.textHash = g.textHash) = [withProvenance newest canonical]
  pointers : ∀ r ∈ documents, ∃ r' ∈ after,
    r'.id = redirect groups r.id ∧ r'.textHash = r.textHash

section Run

variable {documents : List Document} {g : Group} {groups : List Group}
  {canonical newest : Document} {between : List Document}

theorem Answers.pending (answers : Answers documents groups) : Pending documents groups := by
  refine ⟨answers.hashes, fun g member => ?_⟩
  obtain ⟨rows, perm, order, ids⟩ := answers.ids g member
  have several := (answers.shared g.textHash).mp (List.mem_map_of_mem member)
  rw [← perm.length_eq] at several
  match rows, perm, order, ids, several with
  | canonical :: second :: rest, perm, order, ids, _ =>
      have split : second :: rest =
          (second :: rest).dropLast ++ [(second :: rest).getLast (List.cons_ne_nil _ _)] :=
        (List.dropLast_append_getLast _).symm
      rw [split] at perm order ids
      exact ⟨canonical, _, _, perm, order, ids⟩

/-- A group that is still to be merged is not touched by merging another one. -/
theorem SharedBy.frame (ids : Keyed Document.id documents)
    (shared : SharedBy documents g canonical between newest) {other : Group}
    (differs : other.textHash ≠ g.textHash) {c n : Document} {mid : List Document} :
    SharedBy (mergedDocuments canonical between newest documents) other c mid n ↔
      SharedBy documents other c mid n := by
  constructor
  · intro later
    exact ⟨shared.other_texts ids differs ▸ later.rows, later.order, later.ids⟩
  · intro before
    exact ⟨(shared.other_texts ids differs).symm ▸ before.rows, before.order, before.ids⟩

theorem Pending.cons (pending : Pending documents (g :: groups)) :
    (∃ canonical between newest, SharedBy documents g canonical between newest) ∧
      (∀ other ∈ groups, other.textHash ≠ g.textHash) := by
  refine ⟨pending.rows g List.mem_cons_self, fun other member same => ?_⟩
  exact (List.nodup_cons.mp pending.hashes).1 (same ▸ List.mem_map_of_mem member)

theorem Pending.tail (ids : Keyed Document.id documents) (pending : Pending documents (g :: groups))
    (shared : SharedBy documents g canonical between newest) :
    Pending (mergedDocuments canonical between newest documents) groups := by
  refine ⟨(List.nodup_cons.mp pending.hashes).2, fun other member => ?_⟩
  obtain ⟨c, mid, n, before⟩ := pending.rows other (List.mem_cons_of_mem _ member)
  exact ⟨c, mid, n, (shared.frame ids (pending.cons.2 other member)).mpr before⟩

theorem MergedInto.cons (ids : Keyed Document.id documents)
    (pending : Pending documents (g :: groups))
    (shared : SharedBy documents g canonical between newest) {after : List Document}
    (rest : MergedInto (mergedDocuments canonical between newest documents) groups after) :
    MergedInto documents (g :: groups) after where
  ids := rest.ids
  contents := rest.contents
  others := by
    intro hash absent
    obtain ⟨differs, later⟩ := not_or.mp (mt List.mem_cons.mpr absent)
    rw [rest.others hash later, shared.other_texts ids differs]
  merged := by
    intro other member
    obtain rfl | member := List.mem_cons.mp member
    · have absent := (List.nodup_cons.mp pending.hashes).1
      exact ⟨canonical, between, newest, shared, by rw [rest.others _ absent, shared.own_text ids]⟩
    · obtain ⟨c, mid, n, before, one⟩ := rest.merged other member
      exact ⟨c, mid, n, (shared.frame ids (pending.cons.2 other member)).mp before, one⟩
  pointers := by
    intro r member
    obtain ⟨middle, stored, id, text⟩ := shared.redirect_mem ids member
    obtain ⟨last, stored', id', text'⟩ := rest.pointers middle stored
    exact ⟨last, stored', by rw [id', id]; rfl, text'.trans text⟩

theorem redirect_nil (id : Uuid) : redirect [] id = id := rfl

theorem redirect_cons (g : Group) (groups : List Group) :
    redirect (g :: groups) = redirect groups ∘ g.redirect := rfl

/-- Merging the groups one after another. -/
theorem mergeGroups_ok {d : Revision0005} (ids : Keyed Document.id d.documents)
    (contents : Keyed Document.contentHash d.documents) (pending : Pending d.documents groups)
    (unique : CompleteUnique (d.extractions.map (.repoint (redirect groups)))) :
    ∃ after, groups.foldlM mergeGroup d =
        .ok ⟨after, d.jobs.map (Job.repoint (redirect groups)),
          d.extractions.map (.repoint (redirect groups))⟩ ∧
      MergedInto d.documents groups after := by
  induction groups generalizing d with
  | nil =>
      rw [Job.repoint_stays redirect_nil, repoint_stays redirect_nil]
      exact ⟨d.documents, rfl, ids, contents, fun _ _ => rfl, by simp,
        fun r member => ⟨r, member, rfl, rfl⟩⟩
  | cons g rest ih =>
      obtain ⟨canonical, between, newest, shared⟩ := pending.cons.1
      rw [redirect_cons, ← repoint_repoint] at unique
      have first := mergeGroup_eq ids contents unique.of_repoint.of_repoint shared
      rw [if_pos unique.of_repoint] at first
      obtain ⟨after, later, merged⟩ := @ih ⟨_, _, _⟩ (keyed_mergedDocuments ids)
        (shared.contents_mergedDocuments ids contents) (pending.tail ids shared) unique
      refine ⟨after, ?_, merged.cons ids pending shared⟩
      rw [List.foldlM_cons, first, redirect_cons, ← repoint_repoint, ← Job.repoint_repoint]
      exact later

/-- A conflict anywhere stops the merge. -/
theorem mergeGroups_error {d : Revision0005} (ids : Keyed Document.id d.documents)
    (contents : Keyed Document.contentHash d.documents) (pending : Pending d.documents groups)
    (before : CompleteUnique d.extractions)
    (conflict : ¬ CompleteUnique (d.extractions.map (.repoint (redirect groups)))) :
    groups.foldlM mergeGroup d = .error (.violates "ux_extractions_complete") := by
  induction groups generalizing d with
  | nil =>
      rw [repoint_stays redirect_nil] at conflict
      exact absurd before conflict
  | cons g rest ih =>
      obtain ⟨canonical, between, newest, shared⟩ := pending.cons.1
      have first := mergeGroup_eq ids contents before shared
      rw [List.foldlM_cons, first]
      split
      · next unique =>
          rw [redirect_cons, ← repoint_repoint] at conflict
          exact @ih ⟨_, _, _⟩ (keyed_mergedDocuments ids)
            (shared.contents_mergedDocuments ids contents) (pending.tail ids shared) unique conflict
      · rfl

end Run

/-! ### Which references come together -/

section Together

variable {documents : List Document} {g : Group} {groups : List Group}
  {canonical newest : Document} {between : List Document} {a b id : Uuid}

theorem SharedBy.mem_ids (shared : SharedBy documents g canonical between newest) :
    id ∈ g.ids ↔ ∃ r ∈ documents, r.textHash = g.textHash ∧ r.id = id := by
  rw [shared.ids, ← List.map_cons, List.mem_map]
  refine exists_congr fun r => ?_
  rw [shared.mem, and_assoc]

theorem SharedBy.survivor_mem (shared : SharedBy documents g canonical between newest) :
    canonical.id ∈ g.ids := by
  rw [shared.ids]
  exact List.mem_cons_self

theorem SharedBy.redirect_of_mem (shared : SharedBy documents g canonical between newest)
    (member : id ∈ g.ids) : g.redirect id = canonical.id := by
  rw [shared.redirect_eq]
  rw [shared.ids] at member
  obtain rfl | duplicate := List.mem_cons.mp member
  · exact ite_self _
  · exact if_pos duplicate

theorem SharedBy.redirect_of_not_mem (shared : SharedBy documents g canonical between newest)
    (absent : id ∉ g.ids) : g.redirect id = id := by
  rw [shared.redirect_eq]
  rw [shared.ids] at absent
  exact if_neg (not_or.mp (mt List.mem_cons.mpr absent)).2

theorem SharedBy.redirect_eq_iff (shared : SharedBy documents g canonical between newest) :
    g.redirect a = g.redirect b ↔ a = b ∨ a ∈ g.ids ∧ b ∈ g.ids := by
  have survivor := shared.survivor_mem
  constructor
  · intro same
    by_cases first : a ∈ g.ids <;> by_cases second : b ∈ g.ids
    · exact .inr ⟨first, second⟩
    · rw [shared.redirect_of_mem first, shared.redirect_of_not_mem second] at same
      exact absurd (same ▸ survivor) second
    · rw [shared.redirect_of_not_mem first, shared.redirect_of_mem second] at same
      exact absurd (same ▸ survivor) first
    · rw [shared.redirect_of_not_mem first, shared.redirect_of_not_mem second] at same
      exact .inl same
  · rintro (rfl | ⟨first, second⟩)
    · rfl
    · rw [shared.redirect_of_mem first, shared.redirect_of_mem second]

/-- Groups have no document in common. -/
theorem Pending.disjoint (ids : Keyed Document.id documents)
    (pending : Pending documents (g :: groups)) {other : Group} (member : other ∈ groups)
    (inside : id ∈ other.ids) : id ∉ g.ids := by
  intro first
  obtain ⟨_, _, _, shared⟩ := pending.rows g List.mem_cons_self
  obtain ⟨_, _, _, shared'⟩ := pending.rows other (List.mem_cons_of_mem _ member)
  obtain ⟨r, stored, text, same⟩ := shared.mem_ids.mp first
  obtain ⟨r', stored', text', same'⟩ := shared'.mem_ids.mp inside
  have row := ids.eq_of_key stored stored' (same.trans same'.symm)
  exact pending.cons.2 other member (by rw [← text, row, text'])

theorem Pending.redirect_eq_iff (ids : Keyed Document.id documents)
    (pending : Pending documents groups) :
    redirect groups a = redirect groups b ↔ a = b ∨ ∃ g ∈ groups, a ∈ g.ids ∧ b ∈ g.ids := by
  induction groups generalizing a b with
  | nil => simp [redirect_nil]
  | cons g rest ih =>
      obtain ⟨canonical, between, newest, shared⟩ := pending.cons.1
      have later : Pending documents rest := ⟨(List.nodup_cons.mp pending.hashes).2,
        fun other member => pending.rows other (List.mem_cons_of_mem _ member)⟩
      have outside : ∀ other ∈ rest, ∀ id, g.redirect id ∈ other.ids ↔ id ∈ other.ids := by
        intro other member id
        by_cases inGroup : id ∈ g.ids
        · have survivor := shared.survivor_mem
          rw [shared.redirect_of_mem inGroup]
          exact iff_of_false (fun h => pending.disjoint ids member h survivor)
            (fun h => pending.disjoint ids member h inGroup)
        · rw [shared.redirect_of_not_mem inGroup]
      rw [redirect_cons, Function.comp_apply, Function.comp_apply, ih later,
        shared.redirect_eq_iff]
      simp only [List.mem_cons, exists_eq_or_imp, or_assoc]
      refine or_congr_right (or_congr_right (exists_congr fun other => and_congr_right ?_))
      intro member
      rw [outside other member, outside other member]

/-- A table in conflict: two documents become one that both have the key. -/
theorem completeUnique_repoint {rows : List ExtractionRow} {f : Uuid → Uuid}
    (unique : CompleteUnique rows) :
    CompleteUnique (rows.map (.repoint f)) ↔ ∀ x ∈ rows, ∀ y ∈ rows, x.status = .complete →
      y.status = .complete → x.key = y.key → f x.documentId = f y.documentId →
      x.documentId = y.documentId := by
  rw [CompleteUnique, List.pairwise_map]
  constructor
  · intro later x hx y hy complete complete' key same
    by_contra apart
    have symmetric : Std.Symm fun x y : ExtractionRow => ¬ Clash (x.repoint f) (y.repoint f) :=
      ⟨fun _ _ separate clash => separate clash.symm⟩
    exact later.forall hx hy (fun h => apart (congrArg _ h)) ⟨complete, complete', same, key⟩
  · intro together
    refine unique.imp_of_mem fun hx hy separate clash => separate ?_
    exact ⟨clash.1, clash.2.1, together _ hx _ hy clash.1 clash.2.1 clash.2.2.2 clash.2.2.1,
      clash.2.2.2⟩

end Together

/-! ### The check before the merge -/

section Check

variable {rows : List ExtractionRow} {g : Group} {groups : List Group}

theorem forM_ok {α : Type} {f : α → Except Failure Unit} {xs : List α} :
    xs.forM f = .ok () ↔ ∀ x ∈ xs, f x = .ok () := by
  induction xs with
  | nil => simp [pure, Except.pure]
  | cons x rest ih =>
      rw [List.forall_mem_cons, ← ih, List.forM]
      cases f x with
      | error e => exact ⟨nofun, fun h => nomatch h.1⟩
      | ok u => exact ⟨fun h => ⟨rfl, h⟩, fun h => h.2⟩

theorem collisions_eq_nil {canonical duplicate : Uuid} :
    collisions canonical duplicate rows = [] ↔ ∀ d ∈ rows, ∀ c ∈ rows,
      d.documentId = duplicate → c.documentId = canonical → d.status = .complete →
        c.status = .complete → c.key ≠ d.key := by
  rw [collisions, List.map_eq_nil_iff, List.filter_eq_nil_iff]
  simp only [Bool.and_eq_true, decide_eq_true_eq, List.any_eq_true, not_and, not_exists]
  constructor
  · intro none d hd c hc at_duplicate at_canonical complete complete' same
    exact none d hd ⟨at_duplicate, complete⟩ c hc ⟨at_canonical, complete'⟩ same
  · rintro apart d hd ⟨at_duplicate, complete⟩ c hc ⟨at_canonical, complete'⟩ same
    exact apart d hd c hc at_duplicate at_canonical complete complete' same

/-- What the check compares: each later document with the oldest. -/
theorem checkGroup_ok {canonical : Uuid} {duplicates : List Uuid}
    (ids : g.ids = canonical :: duplicates) :
    checkGroup rows g = .ok () ↔
      ∀ duplicate ∈ duplicates, collisions canonical duplicate rows = [] := by
  rw [checkGroup, ids]
  dsimp only
  rw [forM_ok]
  refine forall₂_congr fun duplicate _ => ?_
  cases collisions canonical duplicate rows with
  | nil => simp
  | cons first rest => simp

end Check

/-! ### The whole migration -/

section Upgrade

variable {sha256 : Bytes → String} {groups : List Group} {before : Revision0004}
  {after : Revision0005}

theorem Revision0004.Constrained.ids_hashed (constrained : before.Constrained) :
    Keyed Document.id (addTextHash sha256 before).documents := by
  rw [Keyed, addTextHash, List.map_map]
  exact constrained.ids

theorem Revision0004.Constrained.contents_hashed (constrained : before.Constrained) :
    Keyed Document.contentHash (addTextHash sha256 before).documents := by
  rw [Keyed, addTextHash, List.map_map]
  exact constrained.contents

theorem merge_of_checked (checked : groups.forM (checkGroup before.extractions) = .ok ()) :
    mergeDocumentsSharingAText groups (addTextHash sha256 before) =
      groups.foldlM mergeGroup (addTextHash sha256 before) := by
  change (groups.forM (checkGroup before.extractions) >>= fun _ => groups.foldlM mergeGroup _) = _
  rw [checked]
  rfl

/-- What the check lets through and the updates do not: two later documents of a group with
complete extractions of one key. -/
theorem merge_conflict_iff (constrained : before.Constrained)
    (answers : Answers (addTextHash sha256 before).documents groups)
    (checked : groups.forM (checkGroup before.extractions) = .ok ()) :
    mergeDocumentsSharingAText groups (addTextHash sha256 before) ≠
        .error (.violates "ux_extractions_complete") ↔
      ∀ g ∈ groups, ∀ x ∈ before.extractions, ∀ y ∈ before.extractions,
        x.documentId ∈ g.ids.tail → y.documentId ∈ g.ids.tail → x.documentId ≠ y.documentId →
        x.status = .complete → y.status = .complete → x.key ≠ y.key := by
  have ids : Keyed Document.id (addTextHash sha256 before).documents := constrained.ids_hashed
  have contents : Keyed Document.contentHash (addTextHash sha256 before).documents :=
    constrained.contents_hashed
  have pending := answers.pending
  have merges : mergeDocumentsSharingAText groups (addTextHash sha256 before) ≠
      .error (.violates "ux_extractions_complete") ↔
        CompleteUnique (before.extractions.map (.repoint (redirect groups))) := by
    rw [merge_of_checked checked]
    constructor
    · intro free
      by_contra conflict
      exact free (mergeGroups_error ids contents pending constrained.complete conflict)
    · intro unique
      obtain ⟨_, finished, _⟩ := mergeGroups_ok ids contents pending unique
      rw [finished]
      exact nofun
  rw [merges, completeUnique_repoint constrained.complete]
  constructor
  · intro together g member x hx y hy first second apart complete complete' key
    refine apart (together x hx y hy complete complete' key ?_)
    exact (pending.redirect_eq_iff ids).mpr
      (.inr ⟨g, member, List.mem_of_mem_tail first, List.mem_of_mem_tail second⟩)
  · intro free x hx y hy complete complete' key same
    obtain equal | ⟨g, member, first, second⟩ := (pending.redirect_eq_iff ids).mp same
    · exact equal
    by_contra apart
    obtain ⟨canonical, between, newest, shared⟩ := pending.rows g member
    have compared := (checkGroup_ok shared.ids).mp (forM_ok.mp checked g member)
    have later := free g member
    rw [shared.ids, List.tail_cons] at later
    rw [shared.ids] at first second
    obtain oldest | first := List.mem_cons.mp first <;>
      obtain oldest' | second := List.mem_cons.mp second
    · exact apart (oldest.trans oldest'.symm)
    · exact collisions_eq_nil.mp (compared _ second) y hy x hx rfl oldest complete' complete key
    · exact collisions_eq_nil.mp (compared _ first) x hx y hy rfl oldest' complete complete'
        key.symm
    · exact later x hx y hy first second apart complete complete' key

/-- A finished migration has merged every group. -/
theorem upgrade_ok (constrained : before.Constrained)
    (answers : Answers (addTextHash sha256 before).documents groups)
    (finished : upgrade sha256 groups before = .ok after) :
    MergedInto (addTextHash sha256 before).documents groups after.documents ∧
      after.jobs = before.jobs.map (Job.repoint (redirect groups)) ∧
      after.extractions = before.extractions.map (.repoint (redirect groups)) ∧
      (after.documents.map Document.textHash).Nodup := by
  have ids : Keyed Document.id (addTextHash sha256 before).documents := constrained.ids_hashed
  have contents : Keyed Document.contentHash (addTextHash sha256 before).documents :=
    constrained.contents_hashed
  have pending := answers.pending
  rw [upgrade] at finished
  obtain ⟨merged, merge, rest⟩ := except_bind_ok.mp finished
  rw [mergeDocumentsSharingAText] at merge
  obtain ⟨_, _, merge⟩ := except_bind_ok.mp merge
  split at rest
  · next texts =>
      cases rest
      by_cases unique : CompleteUnique
          ((addTextHash sha256 before).extractions.map (.repoint (redirect groups)))
      · obtain ⟨documents, run, into⟩ := mergeGroups_ok ids contents pending unique
        rw [run] at merge
        cases merge
        exact ⟨into, rfl, rfl, texts⟩
      · rw [mergeGroups_error ids contents pending constrained.complete unique] at merge
        cases merge
  · cases rest

/-- The oldest row of a text, with where the newest came from. -/
structure Survivor (before : Revision0004) (sha256 : Bytes → String) (r : Document)
    (oldest newest : DocumentRow) : Prop where
  oldest_mem : oldest ∈ before.documents
  newest_mem : newest ∈ before.documents
  row : r = withProvenance (newest.addTextHash sha256) (oldest.addTextHash sha256)
  text : newest.text = oldest.text
  order : ∀ o ∈ before.documents, o.text = r.text →
    oldest.createdAt ≤ o.createdAt ∧ o.createdAt ≤ newest.createdAt

theorem SharedBy.oldest {documents : List Document} {g : Group} {canonical newest : Document}
    {between : List Document} (shared : SharedBy documents g canonical between newest)
    {r : Document} (member : r ∈ documents) (text : r.textHash = g.textHash) :
    canonical.createdAt ≤ r.createdAt ∧ r.createdAt ≤ newest.createdAt := by
  have row := shared.mem.mpr ⟨member, text⟩
  have order := shared.order
  rw [← List.cons_append, List.pairwise_append] at order
  obtain ⟨first, _, last⟩ := order
  rw [← List.cons_append, List.mem_append, List.mem_singleton] at row
  have least : canonical.createdAt ≤ newest.createdAt :=
    last canonical List.mem_cons_self newest (List.mem_singleton_self _)
  obtain early | rfl := row
  · refine ⟨?_, last r early newest (List.mem_singleton_self _)⟩
    obtain rfl | later := List.mem_cons.mp early
    · exact le_rfl
    · exact (List.pairwise_cons.mp first).1 r later
  · exact ⟨least, le_rfl⟩

/-- Every row that is left is the survivor of its text. -/
theorem MergedInto.survivor
    (collisionFree : ∀ a ∈ before.documents, ∀ b ∈ before.documents,
      textHashOf sha256 a.text = textHashOf sha256 b.text → a.text = b.text)
    (answers : Answers (addTextHash sha256 before).documents groups) {rows : List Document}
    (into : MergedInto (addTextHash sha256 before).documents groups rows) {r : Document}
    (member : r ∈ rows) : ∃ oldest newest, Survivor before sha256 r oldest newest := by
  have hashed : ∀ {row : Document}, row ∈ (addTextHash sha256 before).documents →
      ∃ old ∈ before.documents, old.addTextHash sha256 = row := fun h => List.mem_map.mp h
  have own : r ∈ rows.filter (·.textHash = r.textHash) :=
    List.mem_filter.mpr ⟨member, decide_eq_true rfl⟩
  by_cases grouped : r.textHash ∈ groups.map Group.textHash
  · obtain ⟨g, inGroups, text⟩ := List.mem_map.mp grouped
    obtain ⟨canonical, between, newest, shared, one⟩ := into.merged g inGroups
    rw [← text, one, List.mem_singleton] at own
    obtain ⟨inTable, canonicalText⟩ := shared.canonical_mem
    obtain ⟨inTable', newestText⟩ := shared.newest_mem
    obtain ⟨oldest, oldest_mem, rfl⟩ := hashed inTable
    obtain ⟨last, last_mem, rfl⟩ := hashed inTable'
    refine ⟨oldest, last, oldest_mem, last_mem, own, ?_, ?_⟩
    · exact collisionFree last last_mem oldest oldest_mem (newestText.trans canonicalText.symm)
    · intro o ho same
      have sameText : o.text = oldest.text := by rw [same, own]; rfl
      exact shared.oldest (List.mem_map_of_mem ho)
        ((congrArg (textHashOf sha256) sameText).trans canonicalText)
  · rw [into.others _ grouped] at own
    obtain ⟨old, old_mem, rfl⟩ := hashed (List.mem_filter.mp own).1
    refine ⟨old, old, old_mem, old_mem, rfl, rfl, fun o ho same => ?_⟩
    have single := mt (answers.shared _).mpr grouped
    have other : o.addTextHash sha256 ∈ (addTextHash sha256 before).documents.filter
        (·.textHash = (old.addTextHash sha256).textHash) := by
      refine List.mem_filter.mpr ⟨List.mem_map_of_mem ho, decide_eq_true ?_⟩
      exact congrArg (textHashOf sha256) same
    have equal : o.addTextHash sha256 = old.addTextHash sha256 := by
      obtain ⟨x, only⟩ := List.length_eq_one_iff.mp
        (le_antisymm (not_lt.mp single) (List.length_pos_of_mem own))
      rw [only] at other own
      exact (List.mem_singleton.mp other).trans (List.mem_singleton.mp own).symm
    have time : o.createdAt = old.createdAt := congrArg Document.createdAt equal
    exact ⟨time.ge, time.le⟩

/-- A reference to a document has become one to a document with the same text. -/
def StillPointsAt (before : Revision0004) (after : Revision0005) (id id' : Uuid) : Prop :=
  ∀ r ∈ before.documents, r.id = id → ∃ r' ∈ after.documents, r'.id = id' ∧ r'.text = r.text

structure JobMoved (before : Revision0004) (after : Revision0005) (j j' : Job) : Prop where
  row : j' = { j with documentId := j'.documentId }
  points : Option.Rel (StillPointsAt before after) j.documentId j'.documentId

structure ExtractionMoved (before : Revision0004) (after : Revision0005) (x x' : ExtractionRow) :
    Prop where
  row : x' = { x with documentId := x'.documentId }
  points : StillPointsAt before after x.documentId x'.documentId

/-- A migration that finishes keeps the texts, one row for each, and every reference to
them. -/
theorem upgrade_merges (constrained : before.Constrained)
    (collisionFree : ∀ a ∈ before.documents, ∀ b ∈ before.documents,
      textHashOf sha256 a.text = textHashOf sha256 b.text → a.text = b.text)
    (answers : Answers (addTextHash sha256 before).documents groups)
    (finished : upgrade sha256 groups before = .ok after) :
    (after.documents.map Document.text).Nodup ∧
      (after.documents.map Document.contentHash).Nodup ∧
      (∀ text, text ∈ after.documents.map Document.text ↔
        text ∈ before.documents.map DocumentRow.text) ∧
      (∀ r ∈ after.documents, ∃ oldest newest, Survivor before sha256 r oldest newest) ∧
      List.Forall₂ (JobMoved before after) before.jobs after.jobs ∧
      List.Forall₂ (ExtractionMoved before after) before.extractions after.extractions := by
  obtain ⟨into, jobs, extractions, texts⟩ := upgrade_ok constrained answers finished
  have survivors : ∀ r ∈ after.documents, ∃ oldest newest,
      Survivor before sha256 r oldest newest := fun r member =>
    into.survivor collisionFree answers member
  have hashed : ∀ r ∈ after.documents, r.textHash = textHashOf sha256 r.text := by
    intro r member
    obtain ⟨oldest, newest, survivor⟩ := survivors r member
    rw [survivor.row]
    rfl
  have points : ∀ id, StillPointsAt before after id (redirect groups id) := by
    rintro id r member rfl
    obtain ⟨r', stored, id, text⟩ := into.pointers _ (List.mem_map_of_mem member)
    refine ⟨r', stored, id, ?_⟩
    obtain ⟨oldest, newest, survivor⟩ := survivors r' stored
    have own : r'.text = oldest.text := by rw [survivor.row]; rfl
    rw [hashed r' stored, own] at text
    rw [own]
    exact collisionFree oldest survivor.oldest_mem r member text
  refine ⟨?_, into.contents, ?_, survivors, ?_, ?_⟩
  · have column : after.documents.map Document.textHash =
        (after.documents.map Document.text).map (textHashOf sha256) := by
      rw [List.map_map]
      exact List.map_congr_left hashed
    rw [column] at texts
    exact List.Nodup.of_map _ texts
  · intro text
    constructor
    · intro kept
      obtain ⟨r, member, rfl⟩ := List.mem_map.mp kept
      obtain ⟨oldest, newest, survivor⟩ := survivors r member
      rw [survivor.row]
      exact List.mem_map_of_mem survivor.oldest_mem
    · intro old
      obtain ⟨r, member, rfl⟩ := List.mem_map.mp old
      obtain ⟨r', stored, _, text⟩ := points r.id r member rfl
      exact text ▸ List.mem_map_of_mem stored
  · rw [jobs, List.forall₂_map_right_iff, List.forall₂_same]
    intro j _
    refine ⟨rfl, ?_⟩
    rw [Job.repoint]
    cases pointed : j.documentId with
    | none => exact .none
    | some id => exact .some (points id)
  · rw [extractions, List.forall₂_map_right_iff, List.forall₂_same]
    exact fun x _ => ⟨rfl, points x.documentId⟩

/-! Three copies of a text; the two later ones have been extracted with the same key. -/

def copyOf (id : Uuid) (contentHash : String) : DocumentRow :=
  ⟨id, 0, "status", contentHash, .html, id, "postgres", [], "outage", none, id⟩

def extractionOf (id documentId : Uuid) (model : String) : ExtractionRow :=
  ⟨id, documentId, "v1", "anthropic", model, .complete, some .null, none, "self_report", none, 1,
    .arr [], .obj [], none, none, 0⟩

def threeCopies (first second : String) : Revision0004 where
  documents := [copyOf 1 "a", copyOf 2 "b", copyOf 3 "c"]
  jobs := [⟨1, 0, .extract, some 2, .succeeded, 1, 0, none, none, none⟩]
  extractions := [extractionOf 1 2 first, extractionOf 2 3 second]

def copiesGroup : Group := ⟨textHashOf spelledHash "outage", [1, 2, 3]⟩

theorem threeCopies_constrained (first second : String) :
    (threeCopies first second).Constrained := by
  have ids : ([1, 2, 3] : List Uuid).Nodup := by decide
  have contents : ["a", "b", "c"].Nodup := by decide
  refine ⟨ids, contents, List.pairwise_pair.mpr fun clash => ?_⟩
  have same : (2 : Uuid) = 3 := clash.2.2.1
  exact absurd same (by decide)

theorem threeCopies_answers (first second : String) :
    Answers (addTextHash spelledHash (threeCopies first second)).documents [copiesGroup] := by
  have text : ∀ r ∈ (addTextHash spelledHash (threeCopies first second)).documents,
      r.textHash = textHashOf spelledHash "outage" := by
    intro r member
    obtain ⟨row, stored, rfl⟩ := List.mem_map.mp member
    simp only [threeCopies, List.mem_cons, List.not_mem_nil, or_false] at stored
    obtain rfl | rfl | rfl := stored <;> rfl
  have all : (addTextHash spelledHash (threeCopies first second)).documents.filter
      (·.textHash = textHashOf spelledHash "outage") =
        (addTextHash spelledHash (threeCopies first second)).documents :=
    List.filter_eq_self.mpr fun r member => decide_eq_true (text r member)
  refine ⟨List.nodup_singleton _, fun hash => ?_, fun g member => ?_⟩
  · rw [List.map_singleton, List.mem_singleton]
    by_cases same : hash = copiesGroup.textHash
    · rw [same]
      exact iff_of_true rfl (all ▸ (by decide : 1 < 3))
    · have none : (addTextHash spelledHash (threeCopies first second)).documents.filter
          (·.textHash = hash) = [] :=
        List.filter_eq_nil_iff.mpr fun r member found =>
          same ((of_decide_eq_true found).symm.trans (text r member))
      rw [none]
      exact iff_of_false same (by decide)
  · rw [List.mem_singleton.mp member]
    refine ⟨_, (List.Perm.of_eq all).symm, ?_, rfl⟩
    have order : ([1, 2, 3] : List Time).Pairwise (· ≤ ·) := by decide
    exact List.pairwise_map.mp order

/-- Two keys: the three copies become one document with both records. -/
theorem threeCopies_merge :
    mergeDocumentsSharingAText [copiesGroup]
        (addTextHash spelledHash (threeCopies "opus" "sonnet")) ≠
      .error (.violates "ux_extractions_complete") := by
  refine (merge_conflict_iff (threeCopies_constrained _ _) (threeCopies_answers _ _) rfl).mpr ?_
  intro g _ x hx y hy _ _ apart _ _ key
  simp only [threeCopies, List.mem_cons, List.not_mem_nil, or_false] at hx hy
  obtain rfl | rfl := hx <;> obtain rfl | rfl := hy
  · exact apart rfl
  · exact absurd key (by decide)
  · exact absurd key (by decide)
  · exact apart rfl

/-- One key: nothing is reported, and the second update violates the index. -/
theorem threeCopies_conflict :
    (threeCopies "opus" "opus").Constrained ∧
      Answers (addTextHash spelledHash (threeCopies "opus" "opus")).documents [copiesGroup] ∧
      [copiesGroup].forM (checkGroup (threeCopies "opus" "opus").extractions) = .ok () ∧
      mergeDocumentsSharingAText [copiesGroup]
          (addTextHash spelledHash (threeCopies "opus" "opus")) =
        .error (.violates "ux_extractions_complete") :=
  ⟨threeCopies_constrained _ _, threeCopies_answers _ _, rfl, rfl⟩

theorem threeCopies_upgrade :
    ∃ after, upgrade spelledHash [copiesGroup] (threeCopies "opus" "sonnet") = .ok after ∧
      (after.documents.map Document.text).Nodup ∧
      List.Forall₂ (JobMoved (threeCopies "opus" "sonnet") after)
        (threeCopies "opus" "sonnet").jobs after.jobs := by
  have law := @upgrade_merges spelledHash [copiesGroup] (threeCopies "opus" "sonnet") _
    (threeCopies_constrained _ _) (fun _ _ _ _ same => spelledHash_injective same)
    (threeCopies_answers _ _) rfl
  exact ⟨_, rfl, law.1, law.2.2.2.2.1⟩

end Upgrade

end IncidentPipeline.Migration0005
