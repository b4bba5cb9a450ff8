import Mathlib.Tactic

/-!
# Grouping by key

One pass puts every value behind those with its key; a key stands where it came first. The
groups are the sublists of the values with one key, so that another order of the values gives
the same keys and each group up to order.
-/

namespace Grouping

variable {κ α : Type} [DecidableEq κ]

/-- The groups with one value more: behind those with its key, or in a new group. -/
def append : List (κ × List α) → κ → α → List (κ × List α)
  | [], key, value => [(key, [value])]
  | (k, values) :: rest, key, value =>
      if k = key then (k, values ++ [value]) :: rest
      else (k, values) :: append rest key value

def group (entries : List (κ × α)) : List (κ × List α) :=
  entries.foldl (fun groups entry => append groups entry.1 entry.2) []

/-- The values with a key, in order. -/
def under (entries : List (κ × α)) (key : κ) : List α :=
  (entries.filter fun entry => entry.1 = key).map Prod.snd

theorem lookup_cons_ite {β : Type} (entry : κ × β) (rest : List (κ × β)) (key : κ) :
    (entry :: rest).lookup key = if key = entry.1 then some entry.2 else rest.lookup key := by
  obtain ⟨k, value⟩ := entry
  rw [List.lookup_cons]
  by_cases same : key = k
  · simp [same]
  · simp [same, beq_eq_false_iff_ne.mpr same]

@[simp] theorem under_nil (key : κ) : under ([] : List (κ × α)) key = [] := rfl

theorem under_append (entries : List (κ × α)) (entry : κ × α) (key : κ) :
    under (entries ++ [entry]) key =
      under entries key ++ if entry.1 = key then [entry.2] else [] := by
  rw [under, under, List.filter_append, List.map_append]
  by_cases same : entry.1 = key
  · simp [same]
  · simp [same]

theorem mem_under {entries : List (κ × α)} {key : κ} {value : α} :
    value ∈ under entries key ↔ (key, value) ∈ entries := by
  rw [under, List.mem_map]
  constructor
  · rintro ⟨⟨k, v⟩, member, rfl⟩
    obtain ⟨inside, same⟩ := List.mem_filter.mp member
    rwa [← of_decide_eq_true same]
  · exact fun member => ⟨_, List.mem_filter.mpr ⟨member, decide_eq_true rfl⟩, rfl⟩

/-! ### One value more -/

theorem keys_append (groups : List (κ × List α)) (key : κ) (value : α) :
    (append groups key value).map Prod.fst =
      groups.map Prod.fst ++ if key ∈ groups.map Prod.fst then [] else [key] := by
  induction groups with
  | nil => simp [append]
  | cons g rest ih =>
      rw [append]
      by_cases same : g.1 = key
      · simp [same]
      · rw [if_neg same, List.map_cons, ih, List.map_cons, List.cons_append]
        simp only [List.mem_cons, Ne.symm same, false_or]

theorem lookup_append (groups : List (κ × List α)) (key : κ) (value : α) (k : κ) :
    (append groups key value).lookup k =
      if k = key then some ((groups.lookup key).getD [] ++ [value]) else groups.lookup k := by
  induction groups with
  | nil =>
      rw [append, lookup_cons_ite]
      simp
  | cons g rest ih =>
      rw [append]
      by_cases first : g.1 = key
      · simp only [lookup_cons_ite, first, if_true, Option.getD_some]
        by_cases same : k = key
        · simp [same]
        · simp [same]
      · simp only [if_neg first, lookup_cons_ite, ih, if_neg (Ne.symm first)]
        by_cases same : k = key
        · simp [same, Ne.symm first]
        · simp [same]

/-! ### All values -/

theorem group_append (entries : List (κ × α)) (entry : κ × α) :
    group (entries ++ [entry]) = append (group entries) entry.1 entry.2 := by
  rw [group, List.foldl_append]
  rfl

theorem keys_group_nodup (entries : List (κ × α)) : ((group entries).map Prod.fst).Nodup := by
  induction entries using List.reverseRecOn with
  | nil => exact List.nodup_nil
  | append_singleton entries entry ih =>
      rw [group_append, keys_append]
      split
      · rwa [List.append_nil]
      · next absent =>
          rw [← List.concat_eq_append]
          exact ih.concat absent

/-- A key has a group if it has a value, and then the group of its values. -/
theorem lookup_group (entries : List (κ × α)) (key : κ) : (group entries).lookup key =
    if under entries key = [] then none else some (under entries key) := by
  induction entries using List.reverseRecOn with
  | nil => rfl
  | append_singleton entries entry ih =>
      rw [group_append, lookup_append, under_append]
      by_cases same : key = entry.1
      · subst same
        have full : under entries entry.1 ++ [entry.2] ≠ [] :=
          List.append_ne_nil_of_right_ne_nil _ (List.cons_ne_nil _ _)
        rw [if_pos rfl, if_pos rfl, ih, if_neg full]
        split
        · next empty => rw [empty, Option.getD_none]
        · rfl
      · rw [if_neg same, if_neg (Ne.symm same), List.append_nil, ih]

theorem mem_iff_lookup {β : Type} {entries : List (κ × β)}
    (nodup : (entries.map Prod.fst).Nodup) {key : κ} {value : β} :
    (key, value) ∈ entries ↔ entries.lookup key = some value := by
  induction entries with
  | nil => simp
  | cons g rest ih =>
      obtain ⟨first, later⟩ := List.nodup_cons.mp nodup
      rw [List.mem_cons, lookup_cons_ite, ih later]
      by_cases same : key = g.1
      · have absent : rest.lookup key = none := by
          rw [List.lookup_eq_none_iff]
          intro entry member
          have differ : key ≠ entry.1 := fun equal =>
            first (same ▸ equal ▸ List.mem_map_of_mem member)
          simpa using differ
        rw [absent, if_pos same]
        simp [same, Prod.ext_iff, eq_comm]
      · simp [same, Prod.ext_iff]

theorem mem_group {entries : List (κ × α)} {key : κ} {values : List α} :
    (key, values) ∈ group entries ↔ values = under entries key ∧ values ≠ [] := by
  rw [mem_iff_lookup (keys_group_nodup entries), lookup_group]
  split
  · next empty => simp [empty]
  · next full =>
      constructor
      · rintro ⟨rfl⟩
        exact ⟨rfl, full⟩
      · rintro ⟨rfl, _⟩
        rfl

theorem mem_keys_group {entries : List (κ × α)} {key : κ} :
    key ∈ (group entries).map Prod.fst ↔ key ∈ entries.map Prod.fst := by
  constructor
  · intro member
    obtain ⟨⟨k, values⟩, inside, rfl⟩ := List.mem_map.mp member
    obtain ⟨rfl, full⟩ := mem_group.mp inside
    obtain ⟨value, found⟩ := List.exists_mem_of_ne_nil _ full
    exact List.mem_map_of_mem (mem_under.mp found)
  · intro member
    obtain ⟨⟨k, value⟩, inside, rfl⟩ := List.mem_map.mp member
    have found : value ∈ under entries k := mem_under.mpr inside
    exact List.mem_map_of_mem (mem_group.mpr ⟨rfl, List.ne_nil_of_mem found⟩)

/-- Another order of the values gives the same keys, up to order. -/
theorem keys_group_perm {entries entries' : List (κ × α)} (perm : entries'.Perm entries) :
    ((group entries').map Prod.fst).Perm ((group entries).map Prod.fst) := by
  apply (List.perm_ext_iff_of_nodup (keys_group_nodup _) (keys_group_nodup _)).mpr
  intro key
  rw [mem_keys_group, mem_keys_group]
  exact (perm.map _).mem_iff

/-- No value is lost. -/
theorem values_group (entries : List (κ × α)) :
    ((group entries).flatMap Prod.snd).Perm (entries.map Prod.snd) := by
  have appended : ∀ (groups : List (κ × List α)) (key : κ) (value : α),
      ((append groups key value).flatMap Prod.snd).Perm (groups.flatMap Prod.snd ++ [value]) := by
    intro groups key value
    induction groups with
    | nil => exact List.Perm.refl _
    | cons g rest ih =>
        rw [append]
        split
        · simp only [List.flatMap_cons, List.append_assoc]
          exact (List.perm_append_comm).append_left _
        · simpa only [List.flatMap_cons, List.append_assoc] using ih.append_left _
  induction entries using List.reverseRecOn with
  | nil => exact List.Perm.refl _
  | append_singleton entries entry ih =>
      rw [group_append, List.map_append]
      exact (appended _ _ _).trans (ih.append_right _)

end Grouping
