import Mathlib.Tactic

/-!
# Keyed tables

A table is a list of rows with a key that no two rows share. A row is replaced by
a new version of itself; a statement that updates several rows replaces them one
after another, and the result is a map over the table.
-/

namespace Tables

variable {α κ : Type} [DecidableEq κ]

/-- No two rows share a key. -/
def Keyed (key : α → κ) (rows : List α) : Prop := (rows.map key).Nodup

/-- The rows of a table with the one of the given key replaced. -/
def replaceRow (key : α → κ) (id : κ) (after : α) (rows : List α) : List α :=
  rows.map fun row => if key row = id then after else row

/-- The rows of a table other than the one of the given key. -/
def otherRows (key : α → κ) (id : κ) (rows : List α) : List α :=
  rows.filter fun row => key row ≠ id

variable {key : α → κ} {rows : List α}

omit [DecidableEq κ] in
theorem keyed_nil : Keyed key ([] : List α) := List.nodup_nil

omit [DecidableEq κ] in
/-- A key determines its row. -/
theorem Keyed.eq_of_key (keyed : Keyed key rows) {a b : α} (ha : a ∈ rows) (hb : b ∈ rows)
    (same : key a = key b) : a = b :=
  List.inj_on_of_nodup_map keyed ha hb same

omit [DecidableEq κ] in
/-- A row goes in where its key is new. -/
theorem Keyed.append (keyed : Keyed key rows) {row : α} (fresh : ∀ r ∈ rows, key r ≠ key row) :
    Keyed key (rows ++ [row]) := by
  rw [Keyed, List.map_append, List.nodup_append]
  refine ⟨keyed, by simp, ?_⟩
  intro k hk l hl
  obtain ⟨r, hr, rfl⟩ := List.mem_map.mp hk
  simp only [List.map_cons, List.map_nil, List.mem_singleton] at hl
  exact hl ▸ fresh r hr

omit [DecidableEq κ] in
/-- A map that keeps the keys keeps a table keyed. -/
theorem Keyed.map (keyed : Keyed key rows) {f : α → α} (keeps : ∀ r ∈ rows, key (f r) = key r) :
    Keyed key (rows.map f) := by
  have same : (rows.map f).map key = rows.map key := by
    rw [List.map_map]
    exact List.map_congr_left keeps
  rw [Keyed, same]
  exact keyed

theorem Keyed.find? (keyed : Keyed key rows) {row : α} (member : row ∈ rows) :
    rows.find? (fun r => key r = key row) = some row := by
  cases found : rows.find? (fun r => key r = key row) with
  | none => exact absurd (List.find?_eq_none.mp found row member) (by simp)
  | some r =>
      have same : key r = key row := by simpa using List.find?_some found
      rw [keyed.eq_of_key (List.mem_of_find?_eq_some found) member same]

/-- At most one row is selected by its key. -/
theorem Keyed.filter_key (keyed : Keyed key rows) {row : α} (member : row ∈ rows) :
    rows.filter (fun r => key r = key row) = [row] := by
  induction rows with
  | nil => simp at member
  | cons r rest ih =>
      have split := List.nodup_cons.mp keyed
      obtain rfl | later := List.mem_cons.mp member
      · have none_later : rest.filter (fun r => key r = key row) = [] := by
          refine List.filter_eq_nil_iff.mpr fun x hx => ?_
          intro same
          exact split.1 (List.mem_map.mpr ⟨x, hx, by simpa using same⟩)
        simp [none_later]
      · have other : key r ≠ key row := fun same =>
          split.1 (same ▸ List.mem_map_of_mem later)
        rw [List.filter_cons_of_neg (by simpa using other)]
        exact ih split.2 later

theorem filter_key_eq_nil {id : κ} (absent : ∀ r ∈ rows, key r ≠ id) :
    rows.filter (fun r => key r = id) = [] :=
  List.filter_eq_nil_iff.mpr fun r hr => by simpa using absent r hr

theorem mem_otherRows {id : κ} {r : α} : r ∈ otherRows key id rows ↔ r ∈ rows ∧ key r ≠ id := by
  simp [otherRows]

theorem replaceRow_of_absent {id : κ} {after : α} (absent : ∀ r ∈ rows, key r ≠ id) :
    replaceRow key id after rows = rows := by
  refine (List.map_congr_left fun r hr => ?_).trans (List.map_id rows)
  rw [if_neg (absent r hr)]
  rfl

theorem replaceRow_append {id : κ} {after : α} (first second : List α) :
    replaceRow key id after (first ++ second) =
      replaceRow key id after first ++ replaceRow key id after second := List.map_append

theorem replaceRow_keys {id : κ} {after : α} (same : key after = id) :
    (replaceRow key id after rows).map key = rows.map key := by
  rw [replaceRow, List.map_map]
  refine List.map_congr_left fun r _ => ?_
  rw [Function.comp_apply]
  split
  · next h => rw [same, h]
  · rfl

theorem Keyed.replaceRow (keyed : Keyed key rows) {id : κ} {after : α} (same : key after = id) :
    Keyed key (replaceRow key id after rows) := by
  rw [Keyed, replaceRow_keys same]
  exact keyed

theorem mem_replaceRow {id : κ} {after r : α} (h : r ∈ replaceRow key id after rows) :
    r = after ∨ (r ∈ rows ∧ key r ≠ id) := by
  obtain ⟨row, member, rfl⟩ := List.mem_map.mp h
  split
  · exact .inl rfl
  · next other => exact .inr ⟨member, other⟩

theorem after_mem_replaceRow {id : κ} {after row : α} (member : row ∈ rows) (same : key row = id) :
    after ∈ replaceRow key id after rows :=
  List.mem_map.mpr ⟨row, member, if_pos same⟩

theorem mem_replaceRow_of_ne {id : κ} {after row : α} (member : row ∈ rows) (other : key row ≠ id) :
    row ∈ replaceRow key id after rows :=
  List.mem_map.mpr ⟨row, member, if_neg other⟩

/-- A second key stays one when a row gets a new value of it that no row had. -/
theorem Keyed.replaceRow_fresh {ν : Type} {other : α → ν} (keyed : Keyed other rows)
    (ids : Keyed key rows) {id : κ} {after : α} (fresh : ∀ r ∈ rows, other r ≠ other after) :
    Keyed other (Tables.replaceRow key id after rows) := by
  rw [Keyed, Tables.replaceRow, List.map_map]
  refine List.Nodup.map_on ?_ (List.Nodup.of_map _ ids)
  intro r hr s hs same
  simp only [Function.comp_apply] at same
  split at same
  · next first =>
      split at same
      · next second => exact ids.eq_of_key hr hs (first.trans second.symm)
      · exact absurd same.symm (fresh s hs)
  · split at same
    · exact absurd same (fresh r hr)
    · exact keyed.eq_of_key hr hs same

/-- A column stays without duplicates if the new version differs in it from the other rows. -/
theorem Keyed.replaceRow_others {ν : Type} {other : α → ν} (keyed : Keyed other rows)
    (ids : Keyed key rows) {id : κ} {after : α}
    (fresh : ∀ r ∈ otherRows key id rows, other r ≠ other after) :
    Keyed other (Tables.replaceRow key id after rows) := by
  induction rows with
  | nil => exact keyed
  | cons r rest ih =>
      obtain ⟨absent, tail⟩ := List.nodup_cons.mp keyed
      obtain ⟨absentId, tailId⟩ := List.nodup_cons.mp ids
      have later := ih tail tailId fun s hs => by
        obtain ⟨member, differs⟩ := mem_otherRows.mp hs
        exact fresh s (mem_otherRows.mpr ⟨List.mem_cons_of_mem _ member, differs⟩)
      rw [Tables.replaceRow, List.map_cons]
      by_cases same : key r = id
      · have others : ∀ s ∈ rest, key s ≠ id := fun s hs equal =>
          absentId (same.trans equal.symm ▸ List.mem_map_of_mem hs)
        have kept : Tables.replaceRow key id after rest = rest := replaceRow_of_absent others
        rw [Tables.replaceRow] at kept
        rw [if_pos same, kept, Keyed, List.map_cons, List.nodup_cons]
        refine ⟨fun member => ?_, tail⟩
        obtain ⟨s, hs, equal⟩ := List.mem_map.mp member
        exact fresh s (mem_otherRows.mpr ⟨List.mem_cons_of_mem _ hs, others s hs⟩) equal
      · rw [if_neg same, Keyed, List.map_cons, List.nodup_cons]
        refine ⟨fun member => ?_, later⟩
        obtain ⟨s, hs, equal⟩ := List.mem_map.mp member
        obtain rfl | ⟨old, _⟩ := mem_replaceRow hs
        · exact fresh r (mem_otherRows.mpr ⟨List.mem_cons_self, same⟩) equal.symm
        · exact absent (equal ▸ List.mem_map_of_mem old)

theorem replaceRow_replaceRow {id : κ} {first second : α} (same : key first = id) :
    replaceRow key id second (replaceRow key id first rows) = replaceRow key id second rows := by
  rw [replaceRow, replaceRow, replaceRow, List.map_map]
  refine List.map_congr_left fun r _ => ?_
  by_cases h : key r = id
  · simp [h, same]
  · simp [h]

/-- A column that the new version shares with the old one stays as it is. -/
theorem Keyed.map_replaceRow {ν : Type} {column : α → ν} (keyed : Keyed key rows) {row after : α}
    (member : row ∈ rows) (same : column after = column row) :
    (Tables.replaceRow key (key row) after rows).map column = rows.map column := by
  rw [Tables.replaceRow, List.map_map]
  refine List.map_congr_left fun r hr => ?_
  rw [Function.comp_apply]
  split
  · next h => rw [same, keyed.eq_of_key hr member h]
  · rfl

/-- A selection that neither version belongs to stays as it is. -/
theorem Keyed.filter_replaceRow (keyed : Keyed key rows) (p : α → Bool) {row after : α}
    (member : row ∈ rows) (before : p row = false) (later : p after = false) :
    (Tables.replaceRow key (key row) after rows).filter p = rows.filter p := by
  have none_gone : ∀ r ∈ rows, key r = key row → p r = false := fun r hr same =>
    keyed.eq_of_key hr member same ▸ before
  clear keyed member
  induction rows with
  | nil => rfl
  | cons r rest ih =>
      have tail := ih fun x hx => none_gone x (List.mem_cons_of_mem _ hx)
      rw [Tables.replaceRow] at tail ⊢
      rw [List.map_cons]
      by_cases same : key r = key row
      · rw [if_pos same, List.filter_cons_of_neg (by simp [later]), tail,
          List.filter_cons_of_neg (by simp [none_gone r List.mem_cons_self same])]
      · rw [if_neg same, List.filter_cons, List.filter_cons, tail]

/-- A selection that the new version does not belong to loses the row. -/
theorem filter_replaceRow_of_not {id : κ} (p : α → Bool) {after : α} (later : p after = false) :
    (replaceRow key id after rows).filter p = (rows.filter p).filter (key · ≠ id) := by
  rw [replaceRow, List.filter_filter]
  induction rows with
  | nil => rfl
  | cons r rest ih =>
      rw [List.map_cons, List.filter_cons, List.filter_cons, ih]
      by_cases same : key r = id <;> simp [same, later]

/-- Summing over a table in which one row has moved on. -/
theorem Keyed.sum_replaceRow (keyed : Keyed key rows) (weight : α → Nat) {row : α}
    (member : row ∈ rows) (after : α) :
    ((Tables.replaceRow key (key row) after rows).map weight).sum + weight row =
      (rows.map weight).sum + weight after := by
  induction rows with
  | nil => simp at member
  | cons r rest ih =>
      have split := List.nodup_cons.mp keyed
      rw [Tables.replaceRow, List.map_cons, List.map_cons, List.sum_cons, List.map_cons,
        List.sum_cons]
      obtain rfl | later := List.mem_cons.mp member
      · have absent : ∀ x ∈ rest, key x ≠ key row := fun x hx same =>
          split.1 (same ▸ List.mem_map_of_mem hx)
        have tail : Tables.replaceRow key (key row) after rest = rest := replaceRow_of_absent absent
        rw [Tables.replaceRow] at tail
        rw [tail, if_pos rfl]
        omega
      · have other : key r ≠ key row := fun same => split.1 (same ▸ List.mem_map_of_mem later)
        have tail := ih split.2 later
        rw [Tables.replaceRow] at tail
        rw [if_neg other]
        omega

theorem countP_eq_sum (p : α → Bool) (rows : List α) :
    rows.countP p = (rows.map fun row => if p row then 1 else 0).sum := by
  induction rows with
  | nil => rfl
  | cons row rest ih =>
      rw [List.countP_cons, List.map_cons, List.sum_cons, ih]
      omega

/-- Counting over a table in which one row has moved on. -/
theorem Keyed.countP_replaceRow (keyed : Keyed key rows) (p : α → Bool) {row : α}
    (member : row ∈ rows) (after : α) :
    (Tables.replaceRow key (key row) after rows).countP p + (if p row then 1 else 0) =
      rows.countP p + (if p after then 1 else 0) := by
  rw [countP_eq_sum, countP_eq_sum]
  exact keyed.sum_replaceRow (fun row => if p row then 1 else 0) member after

end Tables
