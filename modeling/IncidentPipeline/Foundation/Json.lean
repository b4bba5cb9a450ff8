import Mathlib.Tactic

/-!
# Python dictionaries and JSON values

A dictionary keeps insertion order and holds each key once, so it is an
association list whose writers replace a present key in place. `Json.pyEq` is
Python's `==` on the values `json.loads` returns: objects compare without regard
to the order of their keys, and a boolean equals the number it counts as.

A finite number is rational. The decoder also lets the literals `NaN`, `Infinity` and
`-Infinity` through, and `NaN` equals nothing.
-/

namespace Python

universe u

/-- A Python dictionary with string keys, in insertion order. -/
abbrev Dict (α : Type u) := List (String × α)

namespace Dict

variable {α : Type u}

/-- `d.get(key)`. -/
def get? (d : Dict α) (key : String) : Option α := List.lookup key d

/-- `list(d)`. -/
def keys (d : Dict α) : List String := d.map Prod.fst

/-- `d[key] = value`: a present key keeps its place. -/
def set : Dict α → String → α → Dict α
  | [], key, value => [(key, value)]
  | (k, v) :: rest, key, value =>
      if k = key then (k, value) :: rest else (k, v) :: set rest key value

/-- `d.update(e)`. -/
def update (d e : Dict α) : Dict α := e.foldl (fun acc entry => acc.set entry.1 entry.2) d

@[simp] theorem get?_nil (key : String) : get? ([] : Dict α) key = none := rfl

theorem get?_cons (k key : String) (v : α) (rest : Dict α) :
    get? ((k, v) :: rest) key = if k = key then some v else get? rest key := by
  by_cases h : k = key
  · rw [get?, h, List.lookup_cons_self, if_pos rfl]
  · have hne : (key == k) = false := by simpa using fun e : key = k => h e.symm
    rw [get?, List.lookup_cons, hne, if_neg h, get?]

@[simp] theorem get?_cons_self (key : String) (v : α) (rest : Dict α) :
    get? ((key, v) :: rest) key = some v := by simp [get?_cons]

theorem get?_set (d : Dict α) (key other : String) (value : α) :
    (d.set key value).get? other = if key = other then some value else d.get? other := by
  induction d with
  | nil => simp [set, get?_cons]
  | cons entry rest ih =>
      obtain ⟨k, v⟩ := entry
      by_cases hk : k = key
      · subst hk
        by_cases ho : k = other <;> simp [set, get?_cons, ho]
      · rw [set, if_neg hk, get?_cons, get?_cons, ih]
        by_cases ho : k = other
        · have hne : ¬ key = other := fun e => hk (ho.trans e.symm)
          rw [if_pos ho, if_pos ho, if_neg hne]
        · rw [if_neg ho, if_neg ho]

theorem isSome_get?_iff (d : Dict α) (key : String) :
    (d.get? key).isSome ↔ key ∈ d.keys := by
  induction d with
  | nil => simp [keys]
  | cons entry rest ih =>
      obtain ⟨k, v⟩ := entry
      by_cases h : k = key
      · simp [keys, h]
      · have hne : key ≠ k := fun e => h e.symm
        simpa [get?_cons, keys, h, hne] using ih

theorem get?_eq_none_iff (d : Dict α) (key : String) : d.get? key = none ↔ key ∉ d.keys := by
  rw [← isSome_get?_iff, Option.not_isSome_iff_eq_none]

/-- A later entry of `e` wins over an earlier one of `d`. -/
theorem get?_update {e : Dict α} (nodup : e.keys.Nodup) (d : Dict α) (key : String) :
    (d.update e).get? key = (e.get? key).or (d.get? key) := by
  induction e generalizing d with
  | nil => simp [update]
  | cons entry rest ih =>
      obtain ⟨k, v⟩ := entry
      simp only [keys, List.map_cons, List.nodup_cons] at nodup
      have hstep : d.update ((k, v) :: rest) = (d.set k v).update rest := rfl
      rw [hstep, ih nodup.2, get?_set, get?_cons]
      by_cases h : k = key
      · subst h
        have habsent : get? rest k = none := (get?_eq_none_iff rest k).mpr nodup.1
        simp [habsent]
      · simp [h]

theorem mem_keys_set (d : Dict α) (key other : String) (value : α) :
    other ∈ (d.set key value).keys ↔ other = key ∨ other ∈ d.keys := by
  rw [← isSome_get?_iff, get?_set, ← isSome_get?_iff]
  by_cases h : key = other
  · simp [h]
  · have hne : ¬ other = key := fun e => h e.symm
    simp [h, hne]

theorem mem_keys_update (d e : Dict α) (key : String) :
    key ∈ (d.update e).keys ↔ key ∈ d.keys ∨ key ∈ e.keys := by
  induction e generalizing d with
  | nil => simp [update, keys]
  | cons entry rest ih =>
      have hstep : d.update (entry :: rest) = (d.set entry.1 entry.2).update rest := rfl
      rw [hstep, ih, mem_keys_set]
      simp only [keys, List.map_cons, List.mem_cons]
      tauto

theorem keys_set_nodup {d : Dict α} (nodup : d.keys.Nodup) (key : String) (value : α) :
    (d.set key value).keys.Nodup := by
  induction d with
  | nil => simp [set, keys]
  | cons entry rest ih =>
      obtain ⟨k, v⟩ := entry
      simp only [keys, List.map_cons, List.nodup_cons] at nodup
      by_cases hk : k = key
      · rw [set, if_pos hk]
        simpa only [keys, List.map_cons, List.nodup_cons] using nodup
      · have hfresh : k ∉ (set rest key value).keys := by
          rw [mem_keys_set]
          rintro (same | later)
          · exact hk same
          · exact nodup.1 later
        simpa [set, hk, keys] using ⟨by simpa [keys] using hfresh, ih nodup.2⟩

theorem keys_update_nodup {d : Dict α} (nodup : d.keys.Nodup) (e : Dict α) :
    (d.update e).keys.Nodup := by
  induction e generalizing d with
  | nil => exact nodup
  | cons entry rest ih => exact ih (keys_set_nodup nodup entry.1 entry.2)

/-- With distinct keys every entry is the one its key finds. -/
theorem get?_of_mem {d : Dict α} (nodup : d.keys.Nodup) {key : String} {value : α}
    (member : (key, value) ∈ d) : d.get? key = some value := by
  induction d with
  | nil => cases member
  | cons entry rest ih =>
      obtain ⟨k, v⟩ := entry
      simp only [keys, List.map_cons, List.nodup_cons] at nodup
      obtain same | later := List.mem_cons.mp member
      · cases same
        simp
      · have hne : ¬ k = key := by
          rintro rfl
          exact nodup.1 (List.mem_map.mpr ⟨(k, value), later, rfl⟩)
        rw [get?_cons, if_neg hne]
        exact ih nodup.2 later

end Dict

/-- The floats that are no number. -/
inductive NonFinite where
  | nan
  | infinity
  | negInfinity
deriving DecidableEq, Repr

/-- A decoded JSON value. -/
inductive Json where
  | null
  | bool (b : Bool)
  | num (q : ℚ)
  | nonFinite (x : NonFinite)
  | str (s : String)
  | arr (items : List Json)
  | obj (members : List (String × Json))

namespace Json

/-- Python's `==`. A boolean is the integer 0 or 1; a dictionary equals another of
the same size that holds an equal value under each of its keys. -/
def pyEq : Json → Json → Bool
  | null, null => true
  | bool a, bool b => a == b
  | bool a, num q => q == (if a then 1 else 0)
  | num p, bool b => p == (if b then 1 else 0)
  | num p, num q => p == q
  | nonFinite x, nonFinite y => x == y && x != .nan
  | str a, str b => a == b
  | arr xs, arr ys => pyEqItems xs ys
  | obj a, obj b => a.length == b.length && pyEqMembers a b
  | _, _ => false
where
  pyEqItems : List Json → List Json → Bool
    | [], [] => true
    | x :: xs, y :: ys => pyEq x y && pyEqItems xs ys
    | _, _ => false
  pyEqMembers : List (String × Json) → List (String × Json) → Bool
    | [], _ => true
    | (key, x) :: rest, other =>
        (match Dict.get? other key with
          | some y => pyEq x y
          | none => false) && pyEqMembers rest other

theorem pyEqMembers_iff {a b : Dict Json} :
    pyEq.pyEqMembers a b = true ↔
      ∀ entry ∈ a, ∃ y, Dict.get? b entry.1 = some y ∧ pyEq entry.2 y = true := by
  induction a with
  | nil => simp [pyEq.pyEqMembers]
  | cons entry rest ih =>
      obtain ⟨key, x⟩ := entry
      rw [pyEq.pyEqMembers, Bool.and_eq_true, ih, List.forall_mem_cons]
      cases Dict.get? b key <;> simp

theorem pyEqItems_iff {xs ys : List Json} :
    pyEq.pyEqItems xs ys = true ↔ List.Forall₂ (fun x y => pyEq x y = true) xs ys := by
  induction xs generalizing ys with
  | nil => cases ys <;> simp [pyEq.pyEqItems]
  | cons x xs ih => cases ys <;> simp [pyEq.pyEqItems, ih]

theorem pyEq_str_iff {v : Json} {s : String} : v.pyEq (.str s) = true ↔ v = .str s := by
  cases v <;> simp [pyEq]

theorem str_pyEq_iff {v : Json} {s : String} : (str s).pyEq v = true ↔ v = .str s := by
  cases v with
  | str t =>
      rw [pyEq, beq_iff_eq, str.injEq]
      exact eq_comm
  | _ => simp [pyEq]

/-- `value is None`. -/
def isNull : Json → Bool
  | null => true
  | _ => false

theorem isNull_iff {v : Json} : v.isNull = true ↔ v = .null := by
  cases v <;> simp [isNull]

/-- `value[key]` of an object, and nothing of any other value. -/
def member? : Json → String → Option Json
  | obj members, key => Dict.get? members key
  | _, _ => none

end Json

end Python
