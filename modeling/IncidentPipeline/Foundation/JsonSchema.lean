import IncidentPipeline.Foundation.Json

/-!
# JSON Schema

The keywords by which a schema describes objects, arrays and closed sets of values, over
JSON values. Equality of values and the assertions of all other keywords are those of a
dialect. An instance is valid by a derivation, so that a reference that only leads to
itself accepts nothing.
-/

namespace JsonSchema

open Python

/-- What a validator decides by itself: when two values are the same, and what a keyword
without subschemas asserts. -/
structure Dialect where
  same : Json → Json → Prop
  asserts : String → Json → Json → Prop

/-- The value of a keyword that maps names to schemas. -/
def mapKeywords : List String := ["properties", "$defs"]

def textKeywords : List String := ["type", "$ref", "description"]

def listKeywords : List String := ["anyOf", "enum"]

theorem mem_mapKeywords {key : String} :
    key ∈ mapKeywords ↔ key = "properties" ∨ key = "$defs" := by
  simp [mapKeywords]

theorem mem_textKeywords {key : String} :
    key ∈ textKeywords ↔ key = "type" ∨ key = "$ref" ∨ key = "description" := by
  simp [textKeywords]

theorem mem_listKeywords {key : String} : key ∈ listKeywords ↔ key = "anyOf" ∨ key = "enum" := by
  simp [listKeywords]

/-- The keywords that are read here. -/
def keywords : List String :=
  ["type", "properties", "required", "items", "anyOf", "enum", "const", "$ref", "$defs",
    "description", "additionalProperties"]

def HasType : String → Json → Prop
  | "object", .obj _ => True
  | "array", .arr _ => True
  | "string", .str _ => True
  | "number", .num _ => True
  | "number", .nonFinite _ => True
  | "integer", .num q => q.den = 1
  | "boolean", .bool _ => True
  | "null", .null => True
  | _, _ => False

def defsPointer : String := "#/$defs/"

/-- What a reference points at: the whole schema or one of its definitions. -/
def resolve (root : Json) (ref : String) : Option Json :=
  if ref = "#" then some root
  else if defsPointer.toList.isPrefixOf ref.toList then
    (root.member? "$defs").bind
      (·.member? (String.ofList (ref.toList.drop defsPointer.toList.length)))
  else none

/-- The names that `properties` of the same node describes. -/
def propertyNames (node : Dict Json) : List String :=
  match Dict.get? node "properties" with
  | some (.obj names) => Dict.keys names
  | _ => []

/-- The schemas inside a schema, itself included. -/
inductive Node (root : Json) : Json → Prop
  | root : Node root root
  | named {node names : Dict Json} {key name : String} {s : Json} (inside : Node root (.obj node))
      (map : key ∈ mapKeywords) (value : Dict.get? node key = some (.obj names))
      (entry : Dict.get? names name = some s) : Node root s
  | items {node : Dict Json} {s : Json} (inside : Node root (.obj node))
      (value : Dict.get? node "items" = some s) : Node root s
  | additional {node : Dict Json} {s : Json} (inside : Node root (.obj node))
      (value : Dict.get? node "additionalProperties" = some s) : Node root s
  | alternative {node : Dict Json} {alternatives : List Json} {s : Json}
      (inside : Node root (.obj node)) (value : Dict.get? node "anyOf" = some (.arr alternatives))
      (member : s ∈ alternatives) : Node root s

/-- The entries of a node are what their keywords ask for; `other` are the keywords without
subschemas that may stand in it. -/
structure WellFormed (other : List String) (node : Dict Json) : Prop where
  nodup : node.keys.Nodup
  known : ∀ key ∈ node.keys, key ∈ keywords ∨ key ∈ other
  maps : ∀ key ∈ mapKeywords, ∀ v, node.get? key = some v →
    ∃ names, v = .obj names ∧ (Dict.keys names).Nodup
  texts : ∀ key ∈ textKeywords, ∀ v, node.get? key = some v → ∃ s, v = .str s
  lists : ∀ key ∈ listKeywords, ∀ v, node.get? key = some v → ∃ vs, v = .arr vs
  required : ∀ v, node.get? "required" = some v → ∃ names : List String, v = .arr (names.map .str)

/-- A node that lists nothing is well formed if its texts are. -/
theorem WellFormed.flat {other : List String} {node : Dict Json} (nodup : node.keys.Nodup)
    (known : ∀ key ∈ node.keys, key ∈ keywords ∨ key ∈ other)
    (without : ∀ key ∈ "required" :: (mapKeywords ++ listKeywords), (node.get? key).isNone = true)
    (texts : ∀ key ∈ textKeywords, ∀ v, node.get? key = some v → ∃ s, v = .str s) :
    WellFormed other node := by
  have absent : ∀ key ∈ "required" :: (mapKeywords ++ listKeywords), ∀ v,
      node.get? key ≠ some v := by
    intro key member v own
    have none := without key member
    rw [own] at none
    cases none
  refine ⟨nodup, known, fun key map v own => ?_, texts, fun key list v own => ?_, fun v own => ?_⟩
  · exact absurd own (absent key (List.mem_cons_of_mem _ (List.mem_append_left _ map)) v)
  · exact absurd own (absent key (List.mem_cons_of_mem _ (List.mem_append_right _ list)) v)
  · exact absurd own (absent "required" List.mem_cons_self v)

/-- A schema is a boolean or a node, and so are all schemas inside it. -/
def IsSchema (other : List String) (root : Json) : Prop :=
  ∀ s, Node root s → (∃ b, s = .bool b) ∨ ∃ node, s = .obj node ∧ WellFormed other node

/-- `instance` is valid under a schema that stands in `root`. -/
inductive Valid (dialect : Dialect) (root : Json) : Json → Json → Prop
  | anything {v : Json} : Valid dialect root (.bool true) v
  | node {node : Dict Json} {v : Json} (target alternative : Json)
      (found : ∀ r, Dict.get? node "$ref" = some (.str r) → resolve root r = some target)
      (ref : ∀ r, Dict.get? node "$ref" = some (.str r) → Valid dialect root target v)
      (type : ∀ t, Dict.get? node "type" = some (.str t) → HasType t v)
      (enum : ∀ options, Dict.get? node "enum" = some (.arr options) →
        ∃ option ∈ options, dialect.same option v)
      (const : ∀ c, Dict.get? node "const" = some c → dialect.same c v)
      (among : ∀ alternatives, Dict.get? node "anyOf" = some (.arr alternatives) →
        alternative ∈ alternatives)
      (anyOf : ∀ alternatives, Dict.get? node "anyOf" = some (.arr alternatives) →
        Valid dialect root alternative v)
      (properties : ∀ names name s w, Dict.get? node "properties" = some (.obj names) →
        Dict.get? names name = some s → v.member? name = some w → Valid dialect root s w)
      (required : ∀ names name members, Dict.get? node "required" = some (.arr names) →
        Json.str name ∈ names → v = .obj members → name ∈ Dict.keys members)
      (items : ∀ s values w, Dict.get? node "items" = some s → v = .arr values → w ∈ values →
        Valid dialect root s w)
      (additional : ∀ s members name w, Dict.get? node "additionalProperties" = some s →
        v = .obj members → Dict.get? members name = some w → name ∉ propertyNames node →
        Valid dialect root s w)
      (others : ∀ key value, (key, value) ∈ node → key ∉ keywords → dialect.asserts key value v) :
      Valid dialect root (.obj node) v

/-- A node and a looser one: whatever the second demands the first demands too, where
related schemas stand in the same places. -/
structure Loosens (related : Json → Json → Prop) (root root' : Json) (node node' : Dict Json) :
    Prop where
  ref : ∀ r, Dict.get? node' "$ref" = some (.str r) → Dict.get? node "$ref" = some (.str r) ∧
    ∀ target, resolve root r = some target →
      ∃ target', resolve root' r = some target' ∧ related target target'
  type : ∀ t, Dict.get? node' "type" = some (.str t) → Dict.get? node "type" = some (.str t)
  enum : ∀ options, Dict.get? node' "enum" = some (.arr options) →
    Dict.get? node "enum" = some (.arr options)
  const : ∀ c, Dict.get? node' "const" = some c → Dict.get? node "const" = some c
  anyOf : ∀ alternatives', Dict.get? node' "anyOf" = some (.arr alternatives') →
    ∃ alternatives, Dict.get? node "anyOf" = some (.arr alternatives) ∧
      ∀ s ∈ alternatives, ∃ s' ∈ alternatives', related s s'
  properties : ∀ names' name s', Dict.get? node' "properties" = some (.obj names') →
    Dict.get? names' name = some s' → ∃ names s, Dict.get? node "properties" = some (.obj names) ∧
      Dict.get? names name = some s ∧ related s s'
  required : ∀ names, Dict.get? node' "required" = some (.arr names) →
    Dict.get? node "required" = some (.arr names)
  items : ∀ s', Dict.get? node' "items" = some s' →
    ∃ s, Dict.get? node "items" = some s ∧ related s s'
  additional : ∀ s', Dict.get? node' "additionalProperties" = some s' →
    propertyNames node' = propertyNames node ∧
      ∃ s, Dict.get? node "additionalProperties" = some s ∧ related s s'
  others : ∀ key value, (key, value) ∈ node' → key ∉ keywords → (key, value) ∈ node

/-- What is valid stays valid when every node is loosened. -/
theorem Valid.loosen {dialect : Dialect} {related : Json → Json → Prop} {root root' : Json}
    (anything : ∀ s', related (.bool true) s' → s' = .bool true)
    (nodes : ∀ node s', related (.obj node) s' →
      ∃ node', s' = .obj node' ∧ Loosens related root root' node node')
    {s s' v : Json} (valid : Valid dialect root s v) (rel : related s s') :
    Valid dialect root' s' v := by
  induction valid generalizing s' with
  | anything =>
      rw [anything s' rel]
      exact .anything
  | @node node v target alternative found _ type enum const among _ _ required _ _ others
      ref anyOf properties items additional =>
      obtain ⟨node', rfl, loose⟩ := nodes node s' rel
      -- what the looser node refers to, and the alternative that stands for the chosen one
      have pointed : ∃ target', ∀ r, Dict.get? node' "$ref" = some (.str r) →
          resolve root' r = some target' ∧ Valid dialect root' target' v := by
        cases value : Dict.get? node' "$ref" with
        | none => exact ⟨.null, fun r => by simp⟩
        | some value' =>
            cases value' with
            | str r =>
                obtain ⟨same, targets⟩ := loose.ref r value
                obtain ⟨target', resolved, rel'⟩ := targets target (found r same)
                refine ⟨target', ?_⟩
                rintro r' ⟨⟩
                exact ⟨resolved, ref r same rel'⟩
            | _ => exact ⟨.null, fun r => by simp⟩
      have chosen : ∃ alternative', ∀ alternatives',
          Dict.get? node' "anyOf" = some (.arr alternatives') → alternative' ∈ alternatives' ∧
            Valid dialect root' alternative' v := by
        cases value : Dict.get? node' "anyOf" with
        | none => exact ⟨.null, fun r => by simp⟩
        | some value' =>
            cases value' with
            | arr alternatives' =>
                obtain ⟨alternatives, same, each⟩ := loose.anyOf alternatives' value
                obtain ⟨alternative', member, rel'⟩ := each alternative (among alternatives same)
                refine ⟨alternative', ?_⟩
                rintro alternatives'' ⟨⟩
                exact ⟨member, anyOf alternatives same rel'⟩
            | _ => exact ⟨.null, fun r => by simp⟩
      obtain ⟨target', pointed⟩ := pointed
      obtain ⟨alternative', chosen⟩ := chosen
      refine .node target' alternative' (fun r h => (pointed r h).1) (fun r h => (pointed r h).2)
        (fun t h => type t (loose.type t h)) (fun options h => enum options (loose.enum options h))
        (fun c h => const c (loose.const c h)) (fun alts h => (chosen alts h).1)
        (fun alts h => (chosen alts h).2) ?_ ?_ ?_ ?_ ?_
      · intro names' name s' w value entry present
        obtain ⟨names, s, same, entry', rel'⟩ := loose.properties names' name s' value entry
        exact properties names name s _ same entry' present rel'
      · intro names name members value
        exact required names name members (loose.required names value)
      · intro s' values w value shape member
        obtain ⟨s, same, rel'⟩ := loose.items s' value
        exact items s values w same shape member rel'
      · intro s' members name w value shape present outside
        obtain ⟨names, s, same, rel'⟩ := loose.additional s' value
        exact additional s members name w same shape present (names ▸ outside) rel'
      · intro key value member other
        exact others key value (loose.others key value member other) other

end JsonSchema
