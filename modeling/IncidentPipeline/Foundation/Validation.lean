import IncidentPipeline.Foundation.Json

/-!
# Closed object schemas

The annotations and field constraints of a pydantic model without defaults,
validated in lax mode on decoded JSON. A model forbids extra keys. Its errors are
collected in the order of its fields, the extra keys last. A field's constraints
are not part of its annotation: they are checked on the annotation's value,
lengths first, then the field's own validators in order, which also see the
fields before it that were accepted.

A validated model is represented by the object it dumps to.
-/

namespace Pydantic

open Python

/-- One step of an error's location. -/
inductive Loc where
  | key (name : String)
  | index (i : Nat)
deriving DecidableEq, Repr

structure ErrorDetail where
  loc : List Loc
  msg : String
deriving DecidableEq, Repr

/-- The errors of a part, located in the whole. -/
def ErrorDetail.within (step : Loc) (e : ErrorDetail) : ErrorDetail :=
  { e with loc := step :: e.loc }

abbrev Validated (α : Type) := Except (List ErrorDetail) α

def Validated.within {α : Type} (step : Loc) (r : Validated α) : Validated α :=
  r.mapError (List.map (ErrorDetail.within step))

/-- What `Field(...)` and the validators of a field add to its annotation. -/
structure Metadata (V : Type) where
  minLength : Option Nat := none
  maxLength : Option Nat := none
  ge : Option ℚ := none
  le : Option ℚ := none
  after : List V := []

/-- A field's type without its metadata; `V` names the custom validators. -/
inductive Ty (V : Type) where
  | str
  | bool
  | float
  | literal (options : List String)
  | nullable (inner : Ty V)
  | list (items : Ty V)
  | model (name : String) (fields : List (String × Metadata V × Ty V))

/-- The declaration of one field: its name, metadata and annotation. -/
abbrev FieldInfo (V : Type) := String × Metadata V × Ty V

namespace FieldInfo

variable {V : Type}

def name (f : FieldInfo V) : String := f.1
def metadata (f : FieldInfo V) : Metadata V := f.2.1
def annotation (f : FieldInfo V) : Ty V := f.2.2

end FieldInfo

/-- What a custom validator makes of a value, given the accepted fields before it,
and how a number is read from a string. -/
structure Validators (V : Type) where
  custom : V → Dict Json → Json → Except String Json
  floatOfString : String → Option (ℚ ⊕ NonFinite)

variable {V : Type}

/-- The strings that a boolean is read from, compared without regard to case. -/
def boolOfString? (s : String) : Option Bool :=
  let lower := s.map Char.toLower
  if lower ∈ ["0", "f", "n", "no", "off", "false"] then some false
  else if lower ∈ ["1", "t", "y", "yes", "on", "true"] then some true
  else none

def fail {α : Type} (msg : String) : Validated α := .error [⟨[], msg⟩]

def validateBool : Json → Validated Json
  | .bool b => .ok (.bool b)
  | .str s =>
      match boolOfString? s with
      | some b => .ok (.bool b)
      | none => fail "Input should be a valid boolean, unable to interpret input"
  | .num q =>
      if q = 0 then .ok (.bool false)
      else if q = 1 then .ok (.bool true)
      else if q.den = 1 then fail "Input should be a valid boolean, unable to interpret input"
      else fail "Input should be a valid boolean"
  | _ => fail "Input should be a valid boolean"

/-- Booleans count as 0 and 1. -/
def validateFloat (floatOfString : String → Option (ℚ ⊕ NonFinite)) : Json → Validated Json
  | .num q => .ok (.num q)
  | .nonFinite x => .ok (.nonFinite x)
  | .bool b => .ok (.num (if b then 1 else 0))
  | .str s =>
      match floatOfString s with
      | some (.inl q) => .ok (.num q)
      | some (.inr x) => .ok (.nonFinite x)
      | none => fail "Input should be a valid number, unable to parse string as a number"
  | _ => fail "Input should be a valid number"

/-- `'a', 'b' or 'c'`. -/
def alternatives : List String → String
  | [] => ""
  | [x] => "'" ++ x ++ "'"
  | [x, y] => "'" ++ x ++ "' or '" ++ y ++ "'"
  | x :: rest => "'" ++ x ++ "', " ++ alternatives rest

def characters (n : Nat) : String :=
  toString n ++ (if n = 1 then " character" else " characters")

/-- The length constraints on a string and the range of a number. NaN is neither above
nor below a bound. -/
def Metadata.checkBounds (m : Metadata V) : Json → Validated Json
  | .str s =>
      if m.minLength.any (s.length < ·) then
        fail ("String should have at least " ++ characters (m.minLength.getD 0))
      else if m.maxLength.any (· < s.length) then
        fail ("String should have at most " ++ characters (m.maxLength.getD 0))
      else .ok (.str s)
  | .num q =>
      if m.le.any (· < q) then
        fail ("Input should be less than or equal to " ++ toString (m.le.getD 0))
      else if m.ge.any (q < ·) then
        fail ("Input should be greater than or equal to " ++ toString (m.ge.getD 0))
      else .ok (.num q)
  | .nonFinite x =>
      if x = .infinity ∧ m.le.isSome then
        fail ("Input should be less than or equal to " ++ toString (m.le.getD 0))
      else if x = .negInfinity ∧ m.ge.isSome then
        fail ("Input should be greater than or equal to " ++ toString (m.ge.getD 0))
      else .ok (.nonFinite x)
  | v => .ok v

def runValidators (run : Validators V) (data : Dict Json) : List V → Json → Validated Json
  | [], v => .ok v
  | f :: rest, v =>
      match run.custom f data v with
      | .ok w => runValidators run data rest w
      | .error msg => fail ("Value error, " ++ msg)

def Metadata.check (run : Validators V) (data : Dict Json) (m : Metadata V) (v : Json) :
    Validated Json := do
  runValidators run data m.after (← m.checkBounds v)

def Validated.errors {α : Type} : Validated α → List ErrorDetail
  | .ok _ => []
  | .error es => es

/-- Every value, or all the errors. -/
def gather {α : Type} : List (Validated α) → Validated (List α)
  | [] => .ok []
  | .ok v :: rest => (gather rest).map (v :: ·)
  | .error es :: rest => .error (es ++ (gather rest).errors)

/-- Validation of a value against an annotation. -/
def Ty.validate (run : Validators V) : Ty V → Json → Validated Json
  | .str, v =>
      match v with
      | .str s => .ok (.str s)
      | _ => fail "Input should be a valid string"
  | .bool, v => validateBool v
  | .float, v => validateFloat run.floatOfString v
  | .literal options, v =>
      match v with
      | .str s =>
          if s ∈ options then .ok (.str s) else fail ("Input should be " ++ alternatives options)
      | _ => fail ("Input should be " ++ alternatives options)
  | .nullable inner, v =>
      match v with
      | .null => .ok .null
      | v => inner.validate run v
  | .list items, v =>
      match v with
      | .arr xs =>
          (gather (xs.zipIdx.map fun x =>
            (items.validate run x.1).within (.index x.2))).map Json.arr
      | _ => fail "Input should be a valid list"
  | .model name fields, v =>
      match v with
      | .obj members =>
          let extra := ((Dict.keys members).filter (· ∉ fields.map FieldInfo.name)).map
            fun key => ⟨[.key key], "Extra inputs are not permitted"⟩
          match validateFields fields members [], extra with
          | .ok data, [] => .ok (.obj data)
          | checked, extra => .error (checked.errors ++ extra)
      | _ => fail ("Input should be a valid dictionary or instance of " ++ name)
where
  /-- The accepted fields, after those accepted so far, or the errors. -/
  validateFields : List (FieldInfo V) → Dict Json → Dict Json → Validated (Dict Json)
    | [], _, data => .ok data
    | (name, metadata, annotation) :: rest, members, data =>
        let checked : Validated Json :=
          match Dict.get? members name with
          | none => fail "Field required"
          | some v => do metadata.check run data (← annotation.validate run v)
        match checked.within (.key name) with
        | .ok w => validateFields rest members (data ++ [(name, w)])
        | .error es => .error (es ++ (validateFields rest members data).errors)

/-- Validation of one member against a whole field declaration. -/
def FieldInfo.validate (run : Validators V) (data : Dict Json) (f : FieldInfo V) (v : Json) :
    Validated Json := do
  f.metadata.check run data (← f.annotation.validate run v)

/-! ### What validation accepts -/

theorem Validated.within_eq_ok {α : Type} {step : Loc} {r : Validated α} {a : α} :
    r.within step = .ok a ↔ r = .ok a := by
  cases r with
  | ok b => exact Iff.rfl
  | error es => simp [Validated.within, Except.mapError]

theorem gather_eq_ok {α : Type} {results : List (Validated α)} {vs : List α} :
    gather results = .ok vs ↔ results = vs.map .ok := by
  induction results generalizing vs with
  | nil => cases vs <;> simp [gather]
  | cons r rest ih =>
      cases r with
      | error es => cases vs <;> simp [gather]
      | ok v =>
          cases h : gather rest with
          | error es =>
              cases vs with
              | nil => simp [gather, h, Except.map]
              | cons w ws =>
                  have hne : rest ≠ ws.map .ok := fun e => by simp [ih.mpr e] at h
                  simp [gather, h, Except.map, hne]
          | ok us =>
              have hus := ih.mp h
              subst hus
              cases vs with
              | nil => simp [gather, h, Except.map]
              | cons w ws =>
                  have hinj : us.map (Except.ok (ε := List ErrorDetail)) = ws.map .ok ↔ us = ws :=
                    List.map_inj_right (fun _ _ e => Except.ok.inj e)
                  simp [gather, h, Except.map, hinj]

section Models

variable {run : Validators V} {name : String} {fields : List (FieldInfo V)}
variable {members data : Dict Json}

/-- The outcome for one field of an object, its validators seeing `data`. -/
def FieldInfo.result (run : Validators V) (members data : Dict Json) (f : FieldInfo V) :
    Validated Json :=
  match Dict.get? members f.name with
  | none => fail "Field required"
  | some v => f.validate run data v

theorem validateFields_cons (f : FieldInfo V) :
    Ty.validate.validateFields run (f :: fields) members data =
      match f.result run members data with
      | .ok w => Ty.validate.validateFields run fields members (data ++ [(f.name, w)])
      | .error es =>
          .error (es.map (ErrorDetail.within (.key f.name)) ++
            (Ty.validate.validateFields run fields members data).errors) := by
  obtain ⟨name, metadata, annotation⟩ := f
  simp only [Ty.validate.validateFields, FieldInfo.result, FieldInfo.validate, FieldInfo.name,
    FieldInfo.metadata, FieldInfo.annotation]
  cases Dict.get? members name with
  | none => rfl
  | some v =>
      cases h : (do metadata.check run data (← annotation.validate run v) : Validated Json) with
      | ok w => simp [h, Validated.within, Except.mapError]
      | error es => simp [h, Validated.within, Except.mapError]

theorem validateFields_cons_eq_ok {f : FieldInfo V} {out : Dict Json} :
    Ty.validate.validateFields run (f :: fields) members data = .ok out ↔
      ∃ w, f.result run members data = .ok w ∧
        Ty.validate.validateFields run fields members (data ++ [(f.name, w)]) = .ok out := by
  rw [validateFields_cons]
  cases f.result run members data with
  | ok w => simp
  | error es => simp

theorem FieldInfo.result_eq_ok {f : FieldInfo V} {w : Json} :
    f.result run members data = .ok w ↔
      ∃ v, Dict.get? members f.name = some v ∧ f.validate run data v = .ok w := by
  rw [FieldInfo.result]
  cases Dict.get? members f.name with
  | none => simp [fail]
  | some v => simp

/-- A field without lengths and bounds. -/
theorem FieldInfo.validate_after {after : List V} {t : Ty V} {v w : Json} :
    FieldInfo.validate run data (name, { after := after }, t) v = .ok w ↔
      ∃ u, t.validate run v = .ok u ∧ runValidators run data after u = .ok w := by
  have unbounded : ∀ u, Metadata.checkBounds (V := V) { after := after } u = .ok u := by
    intro u
    cases u <;> simp [Metadata.checkBounds]
  rw [FieldInfo.validate]
  show (t.validate run v).bind _ = .ok w ↔ _
  cases t.validate run v with
  | error es => simp [Except.bind]
  | ok u =>
      simp [Metadata.check, FieldInfo.metadata, unbounded, Bind.bind, Except.bind]

theorem runValidators_nil {v w : Json} : runValidators run data [] v = .ok w ↔ w = v := by
  rw [runValidators, Except.ok.injEq, eq_comm]

theorem runValidators_single {f : V} {v w : Json} :
    runValidators run data [f] v = .ok w ↔ run.custom f data v = .ok w := by
  rw [runValidators]
  cases run.custom f data v <;> simp [runValidators, fail]

/-- A field without metadata holds what its type makes of the member. -/
theorem FieldInfo.result_plain {t : Ty V} {w : Json} :
    FieldInfo.result run members data (name, {}, t) = .ok w ↔
      ∃ v, Dict.get? members name = some v ∧ t.validate run v = .ok w := by
  rw [FieldInfo.result_eq_ok]
  refine exists_congr fun v => and_congr_right fun _ => FieldInfo.validate_after.trans ?_
  constructor
  · rintro ⟨u, passed, same⟩
    rwa [runValidators_nil.mp same]
  · exact fun passed => ⟨w, passed, runValidators_nil.mpr rfl⟩

theorem validate_str_eq_ok {v w : Json} :
    (Ty.str : Ty V).validate run v = .ok w ↔ ∃ s, v = .str s ∧ w = .str s := by
  cases v <;> simp [Ty.validate, fail, eq_comm]

theorem validate_literal_eq_ok {options : List String} {v w : Json} :
    (Ty.literal options : Ty V).validate run v = .ok w ↔
      ∃ s ∈ options, v = .str s ∧ w = .str s := by
  cases v with
  | str s =>
      rw [Ty.validate]
      split
      · next member => simp [member, eq_comm]
      · next absent => simp [absent, fail]
  | _ => simp [Ty.validate, fail]

/-- An object is accepted when its fields are and it has no other key. -/
theorem validate_model_eq_ok {out : Json} :
    (Ty.model name fields).validate run (.obj members) = .ok out ↔
      (∃ accepted, Ty.validate.validateFields run fields members [] = .ok accepted ∧
        out = .obj accepted) ∧
      ∀ key ∈ Dict.keys members, key ∈ fields.map FieldInfo.name := by
  rw [Ty.validate]
  split
  · next accepted checked noExtra =>
      have hextra : ∀ key ∈ Dict.keys members, key ∈ fields.map FieldInfo.name := by
        simpa [List.filter_eq_nil_iff] using noExtra
      simp only [checked, Except.ok.injEq, and_iff_left hextra]
      exact ⟨fun h => ⟨accepted, rfl, h.symm⟩, fun ⟨_, h, e⟩ => by rw [e, h]⟩
  · next refused =>
      simp only [reduceCtorEq, false_iff]
      intro ⟨⟨accepted, checked, _⟩, noExtra⟩
      refine refused accepted checked ?_
      simpa [List.filter_eq_nil_iff] using noExtra

/-- The fields are accepted when each of them is, and then they come out in order.
No field here has a validator that looks at the others. -/
theorem validateFields_eq_ok (plain : ∀ f ∈ fields, f.metadata.after = []) {out : Dict Json} :
    Ty.validate.validateFields run fields members data = .ok out ↔
      ∃ values, out = data ++ values ∧
        List.Forall₂ (fun f entry => entry.1 = f.name ∧
          f.result run members [] = .ok entry.2) fields values := by
  induction fields generalizing data out with
  | nil => simp [Ty.validate.validateFields, eq_comm]
  | cons f rest ih =>
      have same : f.result run members data = f.result run members [] := by
        have hplain := plain f (by simp)
        simp only [FieldInfo.result, FieldInfo.validate, Metadata.check, hplain, runValidators]
      rw [validateFields_cons, same]
      cases h : f.result run members [] with
      | error es =>
          simp only [reduceCtorEq, false_iff]
          intro ⟨values, _, accepted⟩
          cases accepted with
          | cons head _ => simp [h] at head
      | ok w =>
          simp only [ih (fun g hg => plain g (by simp [hg]))]
          constructor
          · intro ⟨values, hout, accepted⟩
            exact ⟨(f.name, w) :: values, by simp [hout], .cons ⟨rfl, h⟩ accepted⟩
          · intro ⟨values, hout, accepted⟩
            cases accepted with
            | @cons _ entry _ values head tail =>
                obtain ⟨key, value⟩ := entry
                obtain ⟨rfl, hvalue⟩ := head
                cases h.symm.trans hvalue
                exact ⟨values, by simp [hout], tail⟩

theorem get?_of_forall₂ {P : FieldInfo V → Json → Prop} {values : Dict Json}
    (h : List.Forall₂ (fun f entry => entry.1 = f.name ∧ P f entry.2) fields values)
    (nodup : (fields.map FieldInfo.name).Nodup) {f : FieldInfo V} (hf : f ∈ fields) :
    ∃ w, Dict.get? values f.name = some w ∧ P f w := by
  induction h with
  | nil => cases hf
  | @cons g entry fields values head tail ih =>
      obtain ⟨key, w⟩ := entry
      obtain ⟨rfl, hw⟩ := head
      rw [List.map_cons, List.nodup_cons] at nodup
      rw [Dict.get?_cons]
      cases List.mem_cons.mp hf with
      | inl same =>
          subst same
          exact ⟨w, by simp, hw⟩
      | inr later =>
          have hne : g.name ≠ f.name := fun e =>
            nodup.1 (List.mem_map.mpr ⟨f, later, e.symm⟩)
          rw [if_neg hne]
          exact ih nodup.2 later

/-- Field by field: an object is accepted exactly when every field's member is and no
other key is there. -/
theorem accepts_model_iff (plain : ∀ f ∈ fields, f.metadata.after = []) :
    (∃ out, (Ty.model name fields).validate run (.obj members) = .ok out) ↔
      (∀ f ∈ fields, ∃ w, f.result run members [] = .ok w) ∧
        ∀ key ∈ Dict.keys members, key ∈ fields.map FieldInfo.name := by
  simp only [validate_model_eq_ok, validateFields_eq_ok plain]
  constructor
  · intro ⟨out, ⟨accepted, ⟨values, _, hvalues⟩, _⟩, noExtra⟩
    refine ⟨fun f hf => ?_, noExtra⟩
    obtain ⟨i, hi, rfl⟩ := List.getElem_of_mem hf
    have := (List.forall₂_iff_get.mp hvalues).2 i hi (by
      rw [← (List.forall₂_iff_get.mp hvalues).1]
      exact hi)
    exact ⟨_, this.2⟩
  · intro ⟨accepted, noExtra⟩
    have hvalues : ∃ values, List.Forall₂ (fun (f : FieldInfo V) (entry : String × Json) =>
        entry.1 = f.name ∧ f.result run members [] = .ok entry.2) fields values := by
      clear noExtra plain
      induction fields with
      | nil => exact ⟨[], .nil⟩
      | cons f rest ih =>
          obtain ⟨w, hw⟩ := accepted f (by simp)
          obtain ⟨values, hvalues⟩ := ih (fun g hg => accepted g (by simp [hg]))
          exact ⟨(f.name, w) :: values, .cons ⟨rfl, hw⟩ hvalues⟩
    obtain ⟨values, hvalues⟩ := hvalues
    exact ⟨_, ⟨_, ⟨values, rfl, hvalues⟩, rfl⟩, noExtra⟩

/-- What an accepted object stores under a field is the outcome for that field. -/
theorem member_of_validate_model (plain : ∀ f ∈ fields, f.metadata.after = [])
    (nodup : (fields.map FieldInfo.name).Nodup) {out : Json}
    (h : (Ty.model name fields).validate run (.obj members) = .ok out) {f : FieldInfo V}
    (hf : f ∈ fields) :
    ∃ w, f.result run members [] = .ok w ∧ out.member? f.name = some w := by
  obtain ⟨⟨accepted, checked, rfl⟩, _⟩ := validate_model_eq_ok.mp h
  obtain ⟨values, rfl, hvalues⟩ := (validateFields_eq_ok plain).mp checked
  obtain ⟨w, hget, hw⟩ := get?_of_forall₂ (P := fun f w => f.result run members [] = .ok w)
    hvalues nodup hf
  exact ⟨w, hw, hget⟩

end Models

/-! ### The values that come out -/

/-- Validators that check a value and hand it on. -/
def Preserving (run : Validators V) : Prop :=
  ∀ f data v w, run.custom f data v = .ok w → w = v

/-- The lengths and the range as a property. -/
def Metadata.Meets (m : Metadata V) : Json → Prop
  | .str s => (∀ n ∈ m.minLength, n ≤ s.length) ∧ (∀ n ∈ m.maxLength, s.length ≤ n)
  | .num q => (∀ p ∈ m.le, q ≤ p) ∧ (∀ p ∈ m.ge, p ≤ q)
  | .nonFinite x => (x = .infinity → m.le = none) ∧ (x = .negInfinity → m.ge = none)
  | _ => True

/-- What a validated value of a type looks like. -/
def Ty.Shape : Ty V → Json → Prop
  | .str, v => ∃ s, v = .str s
  | .bool, v => ∃ b, v = .bool b
  | .float, v => (∃ q, v = .num q) ∨ ∃ x, v = .nonFinite x
  | .literal options, v => ∃ s ∈ options, v = .str s
  | .nullable inner, v => v = .null ∨ inner.Shape v
  | .list items, v => ∃ xs, v = .arr xs ∧ ∀ x ∈ xs, items.Shape x
  | .model _ fields, v => ∃ members, v = .obj members ∧ ShapeFields fields members
where
  /-- One member for each field, in order. -/
  ShapeFields : List (FieldInfo V) → Dict Json → Prop
    | [], members => members = []
    | (name, metadata, annotation) :: rest, members =>
        ∃ w tail, members = (name, w) :: tail ∧ annotation.Shape w ∧ metadata.Meets w ∧
          ShapeFields rest tail

private theorem not_any_iff {α : Type} {o : Option α} {p : α → Bool} :
    ¬ o.any p = true ↔ ∀ a ∈ o, ¬ p a = true := by
  cases o <;> simp

theorem Metadata.checkBounds_eq_ok {m : Metadata V} {v w : Json}
    (h : m.checkBounds v = .ok w) : w = v ∧ m.Meets v := by
  cases v with
  | str s =>
      simp only [Metadata.checkBounds] at h
      split at h
      · simp [fail] at h
      · next hmin =>
          split at h
          · simp [fail] at h
          · next hmax =>
              rw [not_any_iff] at hmin hmax
              exact ⟨(Except.ok.inj h).symm, by simpa using hmin, by simpa using hmax⟩
  | num q =>
      simp only [Metadata.checkBounds] at h
      split at h
      · simp [fail] at h
      · next hle =>
          split at h
          · simp [fail] at h
          · next hge =>
              rw [not_any_iff] at hle hge
              exact ⟨(Except.ok.inj h).symm, by simpa using hle, by simpa using hge⟩
  | nonFinite x =>
      simp only [Metadata.checkBounds] at h
      split at h
      · simp [fail] at h
      · next hle =>
          split at h
          · simp [fail] at h
          · next hge =>
              refine ⟨(Except.ok.inj h).symm, fun same => ?_, fun same => ?_⟩
              · simpa [same] using hle
              · simpa [same] using hge
  | _ => exact ⟨(Except.ok.inj h).symm, trivial⟩

theorem runValidators_eq_ok {run : Validators V} (preserving : Preserving run)
    {data : Dict Json} {fs : List V} {v w : Json}
    (h : runValidators run data fs v = .ok w) : w = v := by
  induction fs generalizing v with
  | nil => exact (Except.ok.inj h).symm
  | cons f rest ih =>
      rw [runValidators] at h
      split at h
      · next u hu => rw [ih h, preserving f data v u hu]
      · simp [fail] at h

theorem Metadata.check_eq_ok {run : Validators V} (preserving : Preserving run)
    {data : Dict Json} {m : Metadata V} {v w : Json} (h : m.check run data v = .ok w) :
    w = v ∧ m.Meets v := by
  rw [Metadata.check] at h
  cases hlen : m.checkBounds v with
  | error es => simp [hlen, Bind.bind, Except.bind] at h
  | ok u =>
      obtain ⟨rfl, meets⟩ := Metadata.checkBounds_eq_ok hlen
      rw [hlen] at h
      exact ⟨runValidators_eq_ok preserving h, meets⟩

theorem FieldInfo.validate_eq_ok {run : Validators V} (preserving : Preserving run)
    {data : Dict Json} {f : FieldInfo V} {v w : Json} (h : f.validate run data v = .ok w) :
    f.annotation.validate run v = .ok w ∧ f.metadata.Meets w := by
  rw [FieldInfo.validate] at h
  cases ha : f.annotation.validate run v with
  | error es => simp [ha, Bind.bind, Except.bind] at h
  | ok u =>
      rw [ha] at h
      obtain ⟨rfl, meets⟩ := Metadata.check_eq_ok preserving h
      exact ⟨rfl, meets⟩

theorem validateBool_eq_ok {v w : Json} (h : validateBool v = .ok w) : ∃ b, w = .bool b := by
  cases v with
  | bool b => exact ⟨b, (Except.ok.inj h).symm⟩
  | str s =>
      rw [validateBool] at h
      split at h
      · next b _ => exact ⟨b, (Except.ok.inj h).symm⟩
      · simp [fail] at h
  | num q =>
      rw [validateBool] at h
      split at h
      · exact ⟨false, (Except.ok.inj h).symm⟩
      · split at h
        · exact ⟨true, (Except.ok.inj h).symm⟩
        · split at h <;> simp [fail] at h
  | _ => simp [validateBool, fail] at h

theorem validateFloat_eq_ok {read : String → Option (ℚ ⊕ NonFinite)} {v w : Json}
    (h : validateFloat read v = .ok w) : (∃ q, w = .num q) ∨ ∃ x, w = .nonFinite x := by
  cases v with
  | num q => exact .inl ⟨q, (Except.ok.inj h).symm⟩
  | nonFinite x => exact .inr ⟨x, (Except.ok.inj h).symm⟩
  | bool b => exact .inl ⟨_, (Except.ok.inj h).symm⟩
  | str s =>
      rw [validateFloat] at h
      split at h
      · next q _ => exact .inl ⟨q, (Except.ok.inj h).symm⟩
      · next x _ => exact .inr ⟨x, (Except.ok.inj h).symm⟩
      · simp [fail] at h
  | _ => simp [validateFloat, fail] at h

mutual

/-- What validation returns has the shape of the type. -/
theorem Ty.shape_of_validate {run : Validators V} (preserving : Preserving run) :
    ∀ (t : Ty V) {v w : Json}, t.validate run v = .ok w → t.Shape w
  | .str, v, w, h => by
      cases v with
      | str s => exact ⟨s, (Except.ok.inj h).symm⟩
      | _ => simp [Ty.validate, fail] at h
  | .bool, v, w, h => validateBool_eq_ok h
  | .float, v, w, h => validateFloat_eq_ok h
  | .literal options, v, w, h => by
      cases v with
      | str s =>
          simp only [Ty.validate] at h
          split at h
          · next member => exact ⟨s, member, (Except.ok.inj h).symm⟩
          · simp [fail] at h
      | _ => simp [Ty.validate, fail] at h
  | .nullable inner, v, w, h => by
      cases v with
      | null => exact .inl (Except.ok.inj h).symm
      | _ => exact .inr (Ty.shape_of_validate preserving inner h)
  | .list items, v, w, h => by
      cases v with
      | arr xs =>
          simp only [Ty.validate] at h
          cases hg : gather (xs.zipIdx.map fun x =>
              (items.validate run x.1).within (.index x.2)) with
          | error es => simp [hg, Except.map] at h
          | ok ws =>
              rw [hg] at h
              refine ⟨ws, (Except.ok.inj h).symm, ?_⟩
              intro y hy
              have hall := gather_eq_ok.mp hg
              have hmem : Except.ok y ∈ xs.zipIdx.map fun x =>
                  (items.validate run x.1).within (.index x.2) := by
                rw [hall]
                exact List.mem_map_of_mem hy
              obtain ⟨x, _, hx⟩ := List.mem_map.mp hmem
              exact Ty.shape_of_validate preserving items (Validated.within_eq_ok.mp hx)
      | _ => simp [Ty.validate, fail] at h
  | .model name fields, v, w, h => by
      cases v with
      | obj members =>
          obtain ⟨⟨accepted, checked, rfl⟩, _⟩ := validate_model_eq_ok.mp h
          obtain ⟨tail, rfl, shape⟩ := shapeFields_of_validateFields preserving fields checked
          exact ⟨_, rfl, shape⟩
      | _ => simp [Ty.validate, fail] at h

theorem shapeFields_of_validateFields {run : Validators V} (preserving : Preserving run) :
    ∀ (fields : List (FieldInfo V)) {members data out : Dict Json},
      Ty.validate.validateFields run fields members data = .ok out →
        ∃ tail, out = data ++ tail ∧ Ty.Shape.ShapeFields fields tail
  | [], members, data, out, h => ⟨[], by simpa using (Except.ok.inj h).symm, rfl⟩
  | (name, metadata, annotation) :: rest, members, data, out, h => by
      rw [validateFields_cons] at h
      split at h
      · next w hw =>
          obtain ⟨tail, rfl, shape⟩ := shapeFields_of_validateFields preserving rest h
          rw [FieldInfo.result] at hw
          split at hw
          · simp [fail] at hw
          · next v hv =>
              obtain ⟨haccepted, meets⟩ := FieldInfo.validate_eq_ok preserving hw
              refine ⟨(name, w) :: tail, by simp [FieldInfo.name], w, tail, rfl, ?_, meets, shape⟩
              exact Ty.shape_of_validate preserving annotation haccepted
      · simp at h

end

/-- What a validated object holds under the name of a field. -/
theorem Ty.get?_of_shapeFields {fields : List (FieldInfo V)} {members : Dict Json}
    (shape : Ty.Shape.ShapeFields fields members) (nodup : (fields.map FieldInfo.name).Nodup)
    {f : FieldInfo V} (hf : f ∈ fields) :
    ∃ w, Dict.get? members f.name = some w ∧ f.annotation.Shape w ∧ f.metadata.Meets w := by
  induction fields generalizing members with
  | nil => cases hf
  | cons g rest ih =>
      obtain ⟨name, metadata, annotation⟩ := g
      obtain ⟨w, tail, rfl, hshape, hmeets, hrest⟩ := shape
      rw [List.map_cons, List.nodup_cons] at nodup
      rw [Dict.get?_cons]
      cases List.mem_cons.mp hf with
      | inl same =>
          subst same
          exact ⟨w, by simp [FieldInfo.name], hshape, hmeets⟩
      | inr later =>
          have hne : name ≠ f.name := fun e => nodup.1 (List.mem_map.mpr ⟨f, later, e.symm⟩)
          rw [if_neg hne]
          exact ih hrest nodup.2 later

end Pydantic
