import IncidentPipeline.Extract.Schema

/-!
# Correction forms

`review/forms`: the input tree of a field, derived from its type; the tree with
names and values bound; the submitted mapping read back. `encode` is the one of the
tests, which submits what a bound form holds. Labels serve as names; the texts
shown beside the inputs and the row template are left out.
-/

namespace IncidentPipeline

open Python Pydantic

/-- The kinds of input that hold one value. -/
inductive InputKind where
  | text
  | textarea
  | select (options : List String)
  | bool
deriving DecidableEq, Repr

/-- The input tree of a field. -/
inductive Spec where
  | input (kind : InputKind) (label : String) (nullable : Bool)
  | lines (label : String) (nullable : Bool)
  | object (label : String) (nullable : Bool) (children : List Spec)
  | rows (label : String) (nullable : Bool) (row : Spec)

namespace Spec

def label : Spec → String
  | .input _ label _ => label
  | .lines label _ => label
  | .object label _ _ => label
  | .rows label _ _ => label

def children : Spec → List Spec
  | .object _ _ children => children
  | _ => []

/-- `spec.kind in ("text", "textarea")`. -/
def isText : Spec → Bool
  | .input .text _ _ => true
  | .input .textarea _ _ => true
  | _ => false

end Spec

/-- `_LONG_TEXT`. -/
def longText : List String := ["summary", "description", "text", "qualitative"]

/-- Whether an array's item type, `null` aside, is an object. -/
def hasProperties : Ty Validator → Bool
  | .nullable inner => hasProperties inner
  | .model _ _ => true
  | _ => false

/-- `_build`, on the type that the JSON schema is emitted from. A vocabulary of one
value is emitted as `const`, which has no input. -/
def build (label : String) (nullable : Bool) : Ty Validator → Except Exc Spec
  | .nullable inner => build label true inner
  | .literal options =>
      if options.length = 1 then
        .error ⟨.valueError, "no input for schema node " ++ label, []⟩
      else .ok (.input (.select options) label nullable)
  | .bool => .ok (.input .bool label nullable)
  | .str =>
      .ok (.input (if label ∈ longText then .textarea else .text) label nullable)
  | .float => .error ⟨.valueError, "no input for schema node " ++ label, []⟩
  | .list items =>
      if hasProperties items then (build label false items).map (.rows label nullable)
      else .ok (.lines label nullable)
  | .model _ fields => (buildFields fields).map (.object label nullable)
where
  buildFields : List (FieldInfo Validator) → Except Exc (List Spec)
    | [] => .ok []
    | (name, _, annotation) :: rest => do
        let child ← build name false annotation
        return child :: (← buildFields rest)

/-- `IncidentRecord.model_fields[field]`. -/
def modelField? (field : String) : Option (FieldInfo Validator) :=
  modelFields.find? fun f => f.name = field

def formSpec (rt : Runtime) (field : String) : Except Exc Spec :=
  match modelField? field with
  | none => .error ⟨.keyError, rt.repr field ++ " is not an IncidentRecord field", []⟩
  | some f => build field false f.annotation

/-- The tree with input names and values; `isNull` is the null toggle. -/
inductive Bound where
  | input (kind : InputKind) (nullable : Bool) (name : String) (value : Json)
  | lines (name : String) (value : List String)
  | object (nullable : Bool) (name : String) (isNull : Bool) (children : List Bound)
  | rows (name : String) (rows : List Bound)

/-- `f"{name}.{segment}"`. -/
def dotted (name segment : String) : String := name ++ "." ++ segment

def isNone : Json → Bool
  | .null => true
  | _ => false

/-- The members of an object, and none for any other value. -/
def membersOf : Json → Dict Json
  | .obj members => members
  | _ => []

/-- The items of a list, and none for any other value. -/
def itemsOf : Json → List Json
  | .arr items => items
  | _ => []

def bind (rt : Runtime) : Spec → String → Json → Bound
  | .input kind _ nullable, name, value => .input kind nullable name value
  | .lines _ _, name, value => .lines name ((itemsOf value).map rt.strOf)
  | .object _ nullable children, name, value =>
      .object nullable name (isNone value) (bindMembers children name (membersOf value))
  | .rows _ _ row, name, value =>
      .rows name ((itemsOf value).zipIdx.map fun item =>
        bind rt row (dotted name (Nat.repr item.2)) item.1)
where
  bindMembers : List Spec → String → Dict Json → List Bound
    | [], _, _ => []
    | c :: rest, name, members =>
        bind rt c (dotted name c.label) ((Dict.get? members c.label).getD .null) ::
          bindMembers rest name members

/-- The tests' `encode`. It submits the value of a select also where that is no option; on the
page such a select stands on its empty choice. -/
def encode (rt : Runtime) : Bound → Dict String
  | .input .bool _ name value =>
      [(name, match value with
        | .bool true => "true"
        | .bool false => "false"
        | .num q => if q = 1 then "true" else if q = 0 then "false" else ""
        | _ => "")]
  | .input _ nullable name value =>
      Dict.set (if nullable && isNone value then [(dotted name "null", "1")] else []) name
        (if isNone value then "" else rt.strOf value)
  | .lines name value => [(name, "\n".intercalate value)]
  | .object nullable name isNull children =>
      encodeAll (if nullable && isNull then [(dotted name "null", "1")] else []) children
  | .rows _ rows => encodeAll [] rows
where
  encodeAll : Dict String → List Bound → Dict String
    | data, [] => data
    | data, b :: rest => encodeAll (Dict.update data (encode rt b)) rest

/-! ### Reading the form back -/

/-- `(data.get(name) or "").strip()`. -/
def textOf (data : Dict String) (name : String) : String := strip ((data.get? name).getD "")

/-- Whether the null toggle of `name` was submitted. -/
def nullToggled (data : Dict String) (name : String) : Bool :=
  (data.get? (dotted name "null")).getD "" ≠ ""

/-- The index in a key that the pattern `name.(\d+).` matches. -/
def rowIndex? (name key : String) : Option Nat :=
  let stem := (name ++ ".").toList
  if stem.isPrefixOf key.toList then
    let rest := key.toList.drop stem.length
    let digits := rest.takeWhile isDigit
    if digits ≠ [] ∧ (rest.drop digits.length).head? = some '.' then some (intOfDigits digits)
    else none
  else none

/-- The distinct row indices among the submitted keys, in increasing order. -/
def rowIndices (name : String) (data : Dict String) : List Nat :=
  ((Dict.keys data).filterMap (rowIndex? name)).toFinset.sort

/-- A row with text inputs all of which are empty. -/
def isBlankRow (row : Spec) (value : Json) : Bool :=
  let texts := row.children.filter Spec.isText
  texts ≠ [] && texts.all fun c =>
    match value.member? c.label with
    | some (.str s) => s = ""
    | some .null => true
    | some _ => false
    | none => true

def parse : Spec → String → Dict String → Json
  | .object _ nullable children, name, data =>
      if nullable && nullToggled data name then .null
      else .obj (parseMembers children name data)
  | .rows _ _ row, name, data =>
      .arr (((rowIndices name data).map fun i =>
        parse row (dotted name (Nat.repr i)) data).filter fun value => !isBlankRow row value)
  | .lines _ _, name, data =>
      .arr ((((splitlines ((data.get? name).getD "")).map strip).filter (· ≠ "")).map .str)
  | .input kind _ nullable, name, data =>
      if nullable && nullToggled data name then .null
      else
        let raw := textOf data name
        match kind with
        | .bool => if raw = "true" then .bool true else if raw = "false" then .bool false else .null
        | _ => if raw = "" && nullable then .null else .str raw
where
  parseMembers : List Spec → String → Dict String → Dict Json
    | [], _, _ => []
    | c :: rest, name, data =>
        (c.label, parse c (dotted name c.label) data) :: parseMembers rest name data

end IncidentPipeline
