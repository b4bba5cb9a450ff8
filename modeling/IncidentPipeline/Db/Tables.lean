import IncidentPipeline.Db.Schema

/-!
# What statements do to the tables

A statement that succeeds has written its row operations one after another. For
`field_reviews`, whose rows are updated many at a time, the result is a map over the
table, and no constraint is in the way if the new versions meet the constraints on a
single row.
-/

namespace IncidentPipeline

open Tables Transactions

theorem replay_singleton {op : RowOp} {d d' : Database} :
    postgres.replay [op] d = .ok d' ↔
      (∀ check ∈ op.checks d, check.2 = true) ∧ d' = op.write d := by
  rw [← RowOp.apply_eq_ok, Server.replay_cons_ok]
  constructor
  · rintro ⟨middle, first, last⟩
    rw [Server.replay_nil, Except.ok.injEq] at last
    exact last ▸ first
  · exact fun h => ⟨d', h, rfl⟩

/-- A statement that only reads. -/
theorem ends_select {ρ : Type} {texts : List String} {read : Database → ρ} {context : Context}
    {post : Except Exc ρ → Local Database → Prop} {d : Database}
    (refused : ∀ e, post (.error e) ⟨d, false⟩) (done : post (.ok (read d)) ⟨d, false⟩) :
    (Prog.execute (select texts read)).ends postgres context post ⟨d, false⟩ :=
  Prog.ends_send rfl rfl refused done

/-- One that has no text parameters cannot even be refused. -/
theorem serial_select {ρ : Type} {read : Database → ρ} {context : Context} {d : Database} :
    (Prog.execute (select [] read)).serial postgres context ⟨d, false⟩ =
      (.ok (read d), ⟨d, false⟩) :=
  Prog.serial_execute_ok rfl rfl rfl

theorem writes_select {ρ : Type} {P : RowOp → Prop} {texts : List String} {read : Database → ρ} :
    (Prog.execute (select texts read) : Db ρ).Writes P := by
  refine Prog.writes_execute fun context d reply ops answer o ho => ?_
  cases answer
  cases ho

/-- A statement that only reads, in a transaction that stays alive. -/
theorem run_select_bind_alive {ρ α : Type} {texts : List String} {read : Database → ρ}
    {f : ρ → Db α} {schedule : Nat → Moment Context Database Exc} {session : Session RowOp}
    (alive : (((Prog.execute (select texts read)).bind f).run postgres schedule
      session).session.aborted = false) :
    (∃ e, refusedText texts = some e ∧ ((Prog.execute (select texts read)).bind f).run postgres
      schedule session = ⟨.error e, session, fun n => schedule (n + 1)⟩) ∨
    (refusedText texts = none ∧ ∃ visible,
      postgres.replay session.log (schedule 0).committed = .ok visible ∧
        ((Prog.execute (select texts read)).bind f).run postgres schedule session =
          (f (read visible)).run postgres (fun n => schedule (n + 1)) session) := by
  obtain refused | ⟨sent, visible, reply, ops, seen, answer, run⟩ :=
    Prog.run_execute_bind_alive alive
  · exact .inl refused
  · cases answer
    rw [List.append_nil] at run
    exact .inr ⟨sent, visible, seen, run⟩

/-! ### Jobs and extractions -/

theorem Job.checks_ok {j : Job} {others : List Job}
    (h : ∀ check ∈ j.checks others, check.2 = true) :
    ∀ k ∈ others, k.id ≠ j.id := by
  have pkey := h _ List.mem_cons_self
  simpa using pkey

theorem Extraction.checks_ok {x : Extraction} {others : List Extraction}
    (h : ∀ check ∈ x.checks others, check.2 = true) :
    (∀ y ∈ others, y.id ≠ x.id) ∧
      (x.status = .complete → ∀ y ∈ others, y.status = .complete → y.identity ≠ x.identity) := by
  simp only [Extraction.checks, List.forall_mem_cons, List.all_eq_true, decide_eq_true_eq,
    Bool.or_eq_true, ne_eq, List.not_mem_nil, false_imp_iff, implies_true, and_true] at h
  obtain ⟨ids, -, complete⟩ := h
  refine ⟨ids, fun status y hy first same => ?_⟩
  obtain failed | others := complete
  · exact failed status
  · exact (others y hy).elim (fun failed => failed first) fun differs => differs same

/-- A complete row with a new identifier and a new identity goes in. -/
theorem replay_insertExtraction {x : Extraction} {d : Database}
    (ids : ∀ y ∈ d.extractions, y.id ≠ x.id)
    (record : x.status = .complete ↔ x.record.isSome = true)
    (unique : ∀ y ∈ d.extractions, y.status = .complete → y.identity ≠ x.identity) :
    postgres.replay [.insertExtraction x] d =
      .ok { d with extractions := d.extractions ++ [x] } := by
  refine replay_singleton.mpr ⟨?_, rfl⟩
  simp only [RowOp.checks, Extraction.checks, List.forall_mem_cons, List.all_eq_true,
    decide_eq_true_eq, Bool.or_eq_true, ne_eq, List.not_mem_nil, false_imp_iff, implies_true,
    and_true]
  exact ⟨ids, record, .inr fun y hy => Decidable.not_or_of_imp (unique y hy)⟩

/-! ### Documents -/

/-- The uniqueness constraints of `documents`. -/
structure DocumentTable (rows : List Document) : Prop where
  ids : Keyed Document.id rows
  contents : Keyed Document.contentHash rows
  texts : Keyed Document.textHash rows

theorem documentTable_nil : DocumentTable [] := ⟨keyed_nil, keyed_nil, keyed_nil⟩

theorem Document.checks_ok {row : Document} {others : List Document} :
    (∀ check ∈ row.checks others, check.2 = true) ↔
      (∀ o ∈ others, o.id ≠ row.id) ∧ (∀ o ∈ others, o.contentHash ≠ row.contentHash) ∧
        ∀ o ∈ others, o.textHash ≠ row.textHash := by
  simp only [Document.checks, List.forall_mem_cons, List.all_eq_true, decide_eq_true_eq,
    List.not_mem_nil, false_imp_iff, implies_true, and_true]

/-- A row with a new identifier and two new hashes goes in. -/
theorem DocumentTable.insert {d : Database} {row : Document} (table : DocumentTable d.documents)
    (id : ∀ o ∈ d.documents, o.id ≠ row.id)
    (content : ∀ o ∈ d.documents, o.contentHash ≠ row.contentHash)
    (text : ∀ o ∈ d.documents, o.textHash ≠ row.textHash) :
    postgres.replay [.insertDocument row] d = .ok { d with documents := d.documents ++ [row] } ∧
      DocumentTable (d.documents ++ [row]) :=
  ⟨replay_singleton.mpr ⟨Document.checks_ok.mpr ⟨id, content, text⟩, rfl⟩,
    table.ids.append id, table.contents.append content, table.texts.append text⟩

/-- A row may move to other bytes if their hash is new. -/
theorem DocumentTable.update {d : Database} {row after : Document}
    (table : DocumentTable d.documents) (member : row ∈ d.documents) (id : after.id = row.id)
    (text : after.textHash = row.textHash)
    (content : ∀ o ∈ d.documents, o.contentHash ≠ after.contentHash) :
    postgres.replay [.updateDocument row after] d =
        .ok { d with documents := replaceRow Document.id row.id after d.documents } ∧
      DocumentTable (replaceRow Document.id row.id after d.documents) := by
  have others : ∀ o ∈ otherRows Document.id row.id d.documents,
      o ∈ d.documents ∧ o.id ≠ row.id := fun o ho => mem_otherRows.mp ho
  refine ⟨replay_singleton.mpr ⟨Document.checks_ok.mpr ⟨?_, ?_, ?_⟩, rfl⟩, ?_, ?_, ?_⟩
  · exact fun o ho => id ▸ (others o ho).2
  · exact fun o ho => content o (others o ho).1
  · intro o ho same
    obtain ⟨ho, other⟩ := others o ho
    exact other (congrArg Document.id (table.texts.eq_of_key ho member (same.trans text)))
  · exact table.ids.replaceRow id
  · exact table.contents.replaceRow_fresh table.ids content
  · refine table.texts.map fun o ho => ?_
    split
    · next same => rw [text, table.ids.eq_of_key ho member same]
    · rfl

/-! ### Review rows -/

/-- The columns under the second uniqueness constraint. -/
def FieldReview.slot (r : FieldReview) : Uuid × String := (r.extractionId, r.field)

/-- The uniqueness constraints of `field_reviews`. -/
structure ReviewTable (rows : List FieldReview) : Prop where
  ids : Keyed FieldReview.id rows
  slots : Keyed FieldReview.slot rows

theorem reviewTable_nil : ReviewTable [] := ⟨keyed_nil, keyed_nil⟩

/-- The constraints on a single row. -/
def FieldReview.Checked (r : FieldReview) : Prop := ∀ check ∈ r.rowChecks, check.2 = true

/-- A new version keeps what identifies a row. -/
def FieldReview.SameKeys (r s : FieldReview) : Prop := s.id = r.id ∧ s.slot = r.slot

theorem ReviewTable.map {rows : List FieldReview} (table : ReviewTable rows)
    {f : FieldReview → FieldReview} (same : ∀ r ∈ rows, r.SameKeys (f r)) :
    ReviewTable (rows.map f) :=
  ⟨table.ids.map fun r hr => (same r hr).1, table.slots.map fun r hr => (same r hr).2⟩

theorem FieldReview.checks_ok {r : FieldReview} {others : List FieldReview} :
    (∀ check ∈ r.checks others, check.2 = true) ↔
      (∀ s ∈ others, s.id ≠ r.id) ∧ (∀ s ∈ others, s.slot ≠ r.slot) ∧ r.Checked := by
  simp only [FieldReview.checks, List.forall_mem_append, List.forall_mem_cons,
    List.all_eq_true, decide_eq_true_eq, FieldReview.Checked, FieldReview.slot, Bool.or_eq_true,
    ne_eq, Prod.mk.injEq, not_and_or, List.not_mem_nil, false_imp_iff, implies_true, and_true,
    and_assoc]

/-- An update of a row of a table is only up against the constraints on a single row. -/
theorem ReviewTable.update_ok {d : Database} {r after : FieldReview}
    (table : ReviewTable d.fieldReviews) (member : r ∈ d.fieldReviews) (same : r.SameKeys after)
    (checked : after.Checked) :
    postgres.apply (.updateFieldReview r after) d =
      .ok { d with fieldReviews := replaceRow FieldReview.id r.id after d.fieldReviews } := by
  refine RowOp.apply_eq_ok.mpr ⟨FieldReview.checks_ok.mpr ⟨?_, ?_, checked⟩, rfl⟩
  · intro s hs
    rw [same.1]
    exact (mem_otherRows.mp hs).2
  · intro s hs equal
    obtain ⟨hs, other⟩ := mem_otherRows.mp hs
    rw [same.2] at equal
    exact other (congrArg FieldReview.id (table.slots.eq_of_key hs member equal))

/-- Several rows updated one after another: the table is mapped. -/
theorem ReviewTable.replay_update {d : Database} (table : ReviewTable d.fieldReviews)
    {chosen : FieldReview → Bool} {f : FieldReview → FieldReview}
    (same : ∀ r ∈ d.fieldReviews, r.SameKeys (f r))
    (checked : ∀ r ∈ d.fieldReviews, chosen r = true → (f r).Checked) :
    postgres.replay ((d.fieldReviews.filter chosen).map fun r => .updateFieldReview r (f r)) d =
      .ok { d with fieldReviews := d.fieldReviews.map fun r => if chosen r then f r else r } := by
  -- the rows before the current one are mapped already
  suffices h : ∀ done rest : List FieldReview, ReviewTable (done ++ rest) →
      (∀ r ∈ rest, r.SameKeys (f r)) → (∀ r ∈ rest, chosen r = true → (f r).Checked) →
      postgres.replay ((rest.filter chosen).map fun r => .updateFieldReview r (f r))
        { d with fieldReviews := done ++ rest } =
      .ok { d with fieldReviews := done ++ rest.map fun r => if chosen r then f r else r } by
    simpa using h [] d.fieldReviews (by simpa using table) same checked
  intro done rest
  induction rest generalizing done with
  | nil => intro _ _ _; simp
  | cons r rest ih =>
      intro table same checked
      have absent : ∀ s ∈ done ++ rest, s.id ≠ r.id := by
        have keys := table.ids
        rw [Keyed, List.map_append, List.map_cons, List.nodup_middle, List.nodup_cons] at keys
        intro s hs equal
        refine keys.1 ?_
        rw [← List.map_append, ← equal]
        exact List.mem_map_of_mem hs
      have later := ih (done ++ [if chosen r then f r else r])
      simp only [List.append_assoc, List.singleton_append, List.map_cons] at later ⊢
      cases hc : chosen r with
      | false =>
          simp only [hc, List.filter_cons, Bool.false_eq_true, if_false] at later ⊢
          exact later table (fun s hs => same s (List.mem_cons_of_mem _ hs))
            (fun s hs => checked s (List.mem_cons_of_mem _ hs))
      | true =>
          have keeps := same r List.mem_cons_self
          have first := @ReviewTable.update_ok { d with fieldReviews := done ++ r :: rest } r (f r)
            table (by simp) keeps (checked r List.mem_cons_self hc)
          have replaced : replaceRow FieldReview.id r.id (f r) (done ++ r :: rest) =
              done ++ f r :: rest := by
            have left : ∀ s ∈ done, s.id ≠ r.id := fun s hs =>
              absent s (List.mem_append_left _ hs)
            have right : ∀ s ∈ rest, s.id ≠ r.id := fun s hs =>
              absent s (List.mem_append_right _ hs)
            rw [replaceRow_append, replaceRow_of_absent left, replaceRow, List.map_cons, if_pos rfl]
            exact congrArg (fun tail => done ++ f r :: tail) (replaceRow_of_absent right)
          rw [replaced] at first
          simp only [hc, List.filter_cons, if_true, List.map_cons] at later ⊢
          rw [Server.replay, first]
          refine later ?_ (fun s hs => same s (List.mem_cons_of_mem _ hs))
            (fun s hs => checked s (List.mem_cons_of_mem _ hs))
          rw [← replaced]
          exact ⟨table.ids.replaceRow keeps.1, by
            have moved : replaceRow FieldReview.id r.id (f r) (done ++ r :: rest) =
                (done ++ r :: rest).map fun s => if s.id = r.id then f r else s := rfl
            rw [moved]
            refine table.slots.map fun s hs => ?_
            split
            · next equal =>
                rw [keeps.2, table.ids.eq_of_key hs (by simp) equal]
            · rfl⟩

/-- Rows inserted one after another. -/
theorem replay_insertFieldReviews {rows : List FieldReview} {d d' : Database}
    (table : ReviewTable d.fieldReviews)
    (h : postgres.replay (rows.map .insertFieldReview) d = .ok d') :
    d' = { d with fieldReviews := d.fieldReviews ++ rows } ∧
      ReviewTable (d.fieldReviews ++ rows) := by
  induction rows generalizing d with
  | nil =>
      rw [List.map_nil, Server.replay_nil, Except.ok.injEq] at h
      simpa [h] using table
  | cons row rest ih =>
      obtain ⟨middle, first, later⟩ := Server.replay_cons_ok.mp h
      obtain ⟨checks, rfl⟩ := RowOp.apply_eq_ok.mp first
      obtain ⟨ids, slots, _⟩ := FieldReview.checks_ok.mp checks
      have extended := ih ⟨table.ids.append ids, table.slots.append slots⟩ later
      simpa [RowOp.write] using extended

/-- Rows with which the table meets its constraints can be inserted. -/
theorem insertFieldReviews_replay {rows : List FieldReview} {d : Database}
    (table : ReviewTable (d.fieldReviews ++ rows)) (checked : ∀ r ∈ rows, r.Checked) :
    postgres.replay (rows.map .insertFieldReview) d =
      .ok { d with fieldReviews := d.fieldReviews ++ rows } := by
  induction rows generalizing d with
  | nil => simp
  | cons row rest ih =>
      have apart : ∀ {κ : Type} {key : FieldReview → κ},
          Keyed key (d.fieldReviews ++ row :: rest) → ∀ s ∈ d.fieldReviews, key s ≠ key row := by
        intro κ key keyed s hs
        rw [Keyed, List.map_append, List.nodup_append] at keyed
        exact keyed.2.2 _ (List.mem_map_of_mem hs) _ (List.mem_map_of_mem List.mem_cons_self)
      have first : postgres.apply (.insertFieldReview row) d =
          .ok { d with fieldReviews := d.fieldReviews ++ [row] } :=
        RowOp.apply_eq_ok.mpr ⟨FieldReview.checks_ok.mpr
          ⟨apart table.ids, apart table.slots, checked row List.mem_cons_self⟩, rfl⟩
      have whole : d.fieldReviews ++ row :: rest = (d.fieldReviews ++ [row]) ++ rest := by simp
      rw [whole] at table ⊢
      rw [List.map_cons, Server.replay, first]
      exact @ih { d with fieldReviews := d.fieldReviews ++ [row] } table fun r hr =>
        checked r (List.mem_cons_of_mem _ hr)

end IncidentPipeline
