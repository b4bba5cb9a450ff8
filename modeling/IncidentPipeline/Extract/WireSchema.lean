import IncidentPipeline.Extract.Schema
import IncidentPipeline.Foundation.JsonSchema

/-!
# The schema that is sent

`wire_schema` of `extract/schema` sends a copy of the generated schema without the keywords
that the API does not accept. The copy is made over JSON values of any kind; under
`properties` and `$defs` the keys are names, which are kept whatever they are.
-/

namespace IncidentPipeline.WireSchema

open Python JsonSchema

/-- `_UNSUPPORTED_KEYWORDS`. -/
def unsupportedKeywords : List String :=
  ["minLength", "maxLength", "pattern", "minimum", "maximum", "exclusiveMinimum",
    "exclusiveMaximum", "multipleOf", "minItems", "maxItems", "format", "default", "title"]

/-- An object that says nothing about further properties gets none. -/
def close (out : Dict Json) : Dict Json :=
  match out.get? "type", out.get? "additionalProperties" with
  | some (.str "object"), none => out ++ [("additionalProperties", .bool false)]
  | _, _ => out

/-- `_strip`; `stripMap` is what becomes of the value of `properties` and `$defs`. -/
def strip : Json → Json
  | .obj members => .obj (close (stripMembers members))
  | .arr items => .arr (stripItems items)
  | v => v
where
  stripMap : Json → Json
    | .obj names => .obj (stripNames names)
    | .arr items => .arr (stripItems items)
    | v => v
  stripMembers : List (String × Json) → List (String × Json)
    | [] => []
    | (key, value) :: rest =>
        if key ∈ unsupportedKeywords then stripMembers rest
        else (key, if key ∈ mapKeywords then stripMap value else strip value) :: stripMembers rest
  stripNames : List (String × Json) → List (String × Json)
    | [] => []
    | (name, sub) :: rest => (name, strip sub) :: stripNames rest
  stripItems : List Json → List Json
    | [] => []
    | item :: rest => strip item :: stripItems rest

/-- What becomes of the value of a keyword that is kept. -/
def stripValue (key : String) (value : Json) : Json :=
  if key ∈ mapKeywords then strip.stripMap value else strip value

/-! ### Entries of the copy -/

section Entries

variable {members names out : Dict Json} {key name : String}

theorem stripItems_eq (items : List Json) : strip.stripItems items = items.map strip := by
  induction items with
  | nil => rfl
  | cons item rest ih => rw [strip.stripItems, ih, List.map_cons]

theorem stripNames_keys (names : Dict Json) : Dict.keys (strip.stripNames names) = names.keys := by
  induction names with
  | nil => rfl
  | cons entry rest ih =>
      rw [strip.stripNames, Dict.keys, List.map_cons, ← Dict.keys, ih]
      rfl

theorem get?_stripNames (names : Dict Json) (name : String) :
    Dict.get? (strip.stripNames names) name = (names.get? name).map strip := by
  induction names with
  | nil => rfl
  | cons entry rest ih =>
      rw [strip.stripNames, Dict.get?_cons, Dict.get?_cons, ih]
      split <;> rfl

theorem get?_stripMembers_unsupported (dropped : key ∈ unsupportedKeywords)
    (members : Dict Json) : Dict.get? (strip.stripMembers members) key = none := by
  induction members with
  | nil => rfl
  | cons entry rest ih =>
      rw [strip.stripMembers]
      split
      · exact ih
      · next kept =>
          have other : entry.1 ≠ key := fun same => kept (same ▸ dropped)
          rw [Dict.get?_cons, if_neg other, ih]

theorem get?_stripMembers (supported : key ∉ unsupportedKeywords) (members : Dict Json) :
    Dict.get? (strip.stripMembers members) key = (members.get? key).map (stripValue key) := by
  induction members with
  | nil => rfl
  | cons entry rest ih =>
      obtain ⟨k, value⟩ := entry
      rw [strip.stripMembers, Dict.get?_cons]
      split
      · next dropped =>
          have other : k ≠ key := fun same => supported (same ▸ dropped)
          rw [if_neg other, ih]
      · rw [Dict.get?_cons, ih]
        split
        · next same => rw [same]; rfl
        · rfl

theorem close_cases (out : Dict Json) :
    (out.get? "type" = some (.str "object") ∧ out.get? "additionalProperties" = none ∧
        close out = out ++ [("additionalProperties", .bool false)]) ∨
      (out.get? "type" = some (.str "object") → out.get? "additionalProperties" ≠ none) ∧
        close out = out := by
  rw [close]
  split
  · next isObject unsaid => exact .inl ⟨isObject, unsaid, rfl⟩
  · next other => exact .inr ⟨fun isObject unsaid => other isObject unsaid, rfl⟩

theorem get?_append_singleton (out : Dict Json) (name : String) (value : Json) :
    Dict.get? (out ++ [(name, value)]) key =
      (out.get? key).or (if name = key then some value else none) := by
  have last := Dict.get?_cons name key value []
  rw [Dict.get?, List.lookup_append]
  exact congrArg _ last

theorem get?_close (other : key ≠ "additionalProperties") (out : Dict Json) :
    (close out).get? key = out.get? key := by
  obtain ⟨_, _, closed⟩ | ⟨_, same⟩ := close_cases out
  · rw [closed, get?_append_singleton, if_neg (Ne.symm other), Option.or_none]
  · rw [same]

/-- An object says no, or what it said before. -/
theorem get?_close_object {out : Dict Json} (isObject : out.get? "type" = some (.str "object")) :
    (close out).get? "additionalProperties" =
      some ((out.get? "additionalProperties").getD (.bool false)) := by
  obtain ⟨_, unsaid, closed⟩ | ⟨said, same⟩ := close_cases out
  · rw [closed, get?_append_singleton, unsaid]
    rfl
  · obtain ⟨s, said⟩ := Option.ne_none_iff_exists'.mp (said isObject)
    rw [same, said]
    rfl

theorem close_close (out : Dict Json) : close (close out) = close out := by
  obtain ⟨isObject, said, _⟩ | ⟨_, same⟩ := close_cases (close out)
  · rw [get?_close (by decide)] at isObject
    rw [get?_close_object isObject] at said
    cases said
  · exact same

end Entries

/-! ### Stripping twice -/

theorem stripMembers_append (first second : Dict Json) :
    strip.stripMembers (first ++ second) =
      strip.stripMembers first ++ strip.stripMembers second := by
  induction first with
  | nil => rfl
  | cons entry rest ih =>
      rw [List.cons_append, strip.stripMembers, strip.stripMembers, ih]
      split <;> rfl

/-- What closing adds is left alone. -/
theorem stripMembers_close {out : Dict Json} (stable : strip.stripMembers out = out) :
    strip.stripMembers (close out) = close out := by
  obtain ⟨_, _, closed⟩ | ⟨_, same⟩ := close_cases out
  · rw [closed, stripMembers_append, stable]
    rfl
  · rw [same, stable]

mutual

theorem strip_strip : ∀ v : Json, strip (strip v) = strip v
  | .obj members => by
      have stable := stripMembers_close (stripMembers_twice members)
      rw [strip, strip, stable, close_close]
  | .arr items => by rw [strip, strip, stripItems_twice items]
  | .null => rfl
  | .bool _ => rfl
  | .num _ => rfl
  | .nonFinite _ => rfl
  | .str _ => rfl

theorem stripMap_twice : ∀ v : Json, strip.stripMap (strip.stripMap v) = strip.stripMap v
  | .obj names => by rw [strip.stripMap, strip.stripMap, stripNames_twice names]
  | .arr items => by rw [strip.stripMap, strip.stripMap, stripItems_twice items]
  | .null => rfl
  | .bool _ => rfl
  | .num _ => rfl
  | .nonFinite _ => rfl
  | .str _ => rfl

theorem stripMembers_twice : ∀ members : List (String × Json),
    strip.stripMembers (strip.stripMembers members) = strip.stripMembers members
  | [] => rfl
  | (key, value) :: rest => by
      rw [strip.stripMembers]
      split
      · exact stripMembers_twice rest
      · next supported =>
          rw [strip.stripMembers, if_neg supported, stripMembers_twice rest]
          split
          · rw [stripMap_twice value]
          · rw [strip_strip value]

theorem stripNames_twice : ∀ names : List (String × Json),
    strip.stripNames (strip.stripNames names) = strip.stripNames names
  | [] => rfl
  | (_, sub) :: rest => by
      rw [strip.stripNames, strip.stripNames, strip_strip sub, stripNames_twice rest]

theorem stripItems_twice : ∀ items : List Json,
    strip.stripItems (strip.stripItems items) = strip.stripItems items
  | [] => rfl
  | item :: rest => by
      rw [strip.stripItems, strip.stripItems, strip_strip item, stripItems_twice rest]

end

/-! ### The schemas inside the copy -/

section Nodes

variable {root s' : Json} {node : Dict Json}

theorem strip_eq_obj {s : Json} {node' : Dict Json} (same : strip s = .obj node') :
    ∃ node, s = .obj node ∧ node' = close (strip.stripMembers node) := by
  cases s with
  | obj node =>
      cases same
      exact ⟨node, rfl, rfl⟩
  | _ => cases same

theorem strip_eq_arr {s : Json} {items' : List Json} (same : strip s = .arr items') :
    ∃ items, s = .arr items ∧ items' = items.map strip := by
  cases s with
  | arr items =>
      cases same
      exact ⟨items, rfl, stripItems_eq items⟩
  | _ => cases same

theorem strip_eq_str {s : Json} {text : String} (same : strip s = .str text) : s = .str text := by
  cases s with
  | str _ => exact same
  | _ => cases same

/-- An entry of a stripped node is the node's own, stripped, or the one that closes it. -/
theorem get?_strip {key : String} {value' : Json}
    (entry : (close (strip.stripMembers node)).get? key = some value') :
    key ∉ unsupportedKeywords ∧
      ((∃ value, node.get? key = some value ∧ value' = stripValue key value) ∨
        key = "additionalProperties" ∧ value' = .bool false ∧ node.get? key = none ∧
          node.get? "type" = some (.str "object")) := by
  by_cases closing : key = "additionalProperties"
  · have supported : key ∉ unsupportedKeywords := closing ▸ by decide
    refine ⟨supported, ?_⟩
    have own := get?_stripMembers supported node
    obtain ⟨isObject, unsaid, closed⟩ | ⟨_, same⟩ := close_cases (strip.stripMembers node)
    · rw [closed, get?_append_singleton, if_pos closing.symm, closing, unsaid] at entry
      cases entry
      rw [closing, unsaid, eq_comm, Option.map_eq_none_iff] at own
      rw [get?_stripMembers (by decide)] at isObject
      obtain ⟨value, type, same⟩ := Option.map_eq_some_iff.mp isObject
      rw [strip_eq_str same] at type
      exact .inr ⟨closing, rfl, closing ▸ own, type⟩
    · rw [same, own] at entry
      obtain ⟨value, value_eq, rfl⟩ := Option.map_eq_some_iff.mp entry
      exact .inl ⟨value, value_eq, rfl⟩
  · rw [get?_close closing] at entry
    by_cases dropped : key ∈ unsupportedKeywords
    · rw [get?_stripMembers_unsupported dropped] at entry
      cases entry
    · rw [get?_stripMembers dropped] at entry
      obtain ⟨value, value_eq, rfl⟩ := Option.map_eq_some_iff.mp entry
      exact ⟨dropped, .inl ⟨value, value_eq, rfl⟩⟩

/-- What a keyword other than those with names says, in the copy. -/
theorem get?_strip_same {key : String} {value' : Json} (other : key ∉ mapKeywords)
    (unclosed : key ≠ "additionalProperties")
    (entry : (close (strip.stripMembers node)).get? key = some value') :
    ∃ value, node.get? key = some value ∧ value' = strip value := by
  obtain ⟨_, ⟨value, own, rfl⟩ | ⟨closing, _⟩⟩ := get?_strip entry
  · exact ⟨value, own, if_neg other⟩
  · exact absurd closing unclosed

theorem get?_strip_of_same {key : String} {value : Json} (supported : key ∉ unsupportedKeywords)
    (other : key ∉ mapKeywords) (own : node.get? key = some value) :
    (close (strip.stripMembers node)).get? key = some (strip value) := by
  have copied := get?_stripMembers supported node
  rw [own, Option.map_some, stripValue, if_neg other] at copied
  obtain ⟨_, _, closed⟩ | ⟨_, same⟩ := close_cases (strip.stripMembers node)
  · rw [closed, get?_append_singleton, copied]
    rfl
  · rw [same, copied]

/-- The names under `properties` or `$defs` of the copy are those of the original. -/
theorem get?_strip_names {key : String} {names' : Dict Json} (map : key ∈ mapKeywords)
    (entry : (close (strip.stripMembers node)).get? key = some (.obj names')) :
    ∃ names, node.get? key = some (.obj names) ∧ names' = strip.stripNames names := by
  obtain ⟨_, ⟨value, own, same⟩ | ⟨closing, _⟩⟩ := get?_strip entry
  · rw [stripValue, if_pos map] at same
    cases value with
    | obj names =>
        cases same
        exact ⟨names, own, rfl⟩
    | _ => cases same
  · subst closing
    exact absurd map (by decide)

theorem get?_strip_of_names {key : String} {names : Dict Json} (map : key ∈ mapKeywords)
    (own : node.get? key = some (.obj names)) :
    (close (strip.stripMembers node)).get? key = some (.obj (strip.stripNames names)) := by
  have unclosed : key ≠ "additionalProperties" := by
    rintro rfl
    exact absurd map (by decide)
  have supported : key ∉ unsupportedKeywords := by
    obtain rfl | rfl : key = "properties" ∨ key = "$defs" := by simpa [mapKeywords] using map
    all_goals decide
  rw [get?_close unclosed, get?_stripMembers supported, own, Option.map_some, stripValue,
    if_pos map]
  rfl

/-- A schema inside the copy is the copy of a schema inside the original, or what closes an
object. -/
theorem node_strip (inside : Node (strip root) s') :
    s' = .bool false ∨ ∃ s, Node root s ∧ s' = strip s := by
  have original : ∀ {node' : Dict Json},
      (Json.obj node' = .bool false ∨ ∃ s, Node root s ∧ .obj node' = strip s) →
        ∃ node, Node root (.obj node) ∧ node' = close (strip.stripMembers node) := by
    rintro node' (same | ⟨s, inside, same⟩)
    · cases same
    · obtain ⟨node, rfl, copy⟩ := strip_eq_obj same.symm
      exact ⟨node, inside, copy⟩
  induction inside with
  | root => exact .inr ⟨root, .root, rfl⟩
  | named _ map value entry ih =>
      obtain ⟨node, inside, rfl⟩ := original ih
      obtain ⟨names, own, rfl⟩ := get?_strip_names map value
      rw [get?_stripNames] at entry
      obtain ⟨s, found, rfl⟩ := Option.map_eq_some_iff.mp entry
      exact .inr ⟨s, .named inside map own found, rfl⟩
  | items _ value ih =>
      obtain ⟨node, inside, rfl⟩ := original ih
      obtain ⟨s, own, rfl⟩ := get?_strip_same (by decide) (by decide) value
      exact .inr ⟨s, .items inside own, rfl⟩
  | additional _ value ih =>
      obtain ⟨node, inside, rfl⟩ := original ih
      obtain ⟨_, ⟨s, own, rfl⟩ | ⟨_, rfl, _⟩⟩ := get?_strip value
      · exact .inr ⟨s, .additional inside own, rfl⟩
      · exact .inl rfl
  | alternative _ value member ih =>
      obtain ⟨node, inside, rfl⟩ := original ih
      obtain ⟨alternatives, own, same⟩ := get?_strip_same (by decide) (by decide) value
      obtain ⟨schemas, rfl, rfl⟩ := strip_eq_arr same.symm
      obtain ⟨s, schema, rfl⟩ := List.mem_map.mp member
      exact .inr ⟨s, .alternative inside own schema, rfl⟩

/-- Every schema inside the original has its copy in the same place. -/
theorem strip_node {s : Json} (inside : Node root s) : Node (strip root) (strip s) := by
  induction inside with
  | root => exact .root
  | @named node names key name s _ map value entry ih =>
      have copied : Dict.get? (strip.stripNames names) name = some (strip s) := by
        rw [get?_stripNames, entry, Option.map_some]
      exact .named ih map (get?_strip_of_names map value) copied
  | items _ value ih => exact .items ih (get?_strip_of_same (by decide) (by decide) value)
  | additional _ value ih => exact .additional ih (get?_strip_of_same (by decide) (by decide) value)
  | @alternative node alternatives s _ value member ih =>
      have copied := get?_strip_of_same (by decide) (by decide) value
      rw [strip, stripItems_eq] at copied
      exact .alternative ih copied (List.mem_map_of_mem member)

/-- What stripping leaves of a node. -/
structure Stripped (node node' : Dict Json) : Prop where
  supported : ∀ key ∈ node'.keys, key ∉ unsupportedKeywords
  names : ∀ key ∈ mapKeywords, ∀ names, node.get? key = some (.obj names) →
    ∃ names', node'.get? key = some (.obj names') ∧ Dict.keys names' = Dict.keys names
  required : node'.get? "required" = node.get? "required"
  additional : node.get? "type" = some (.str "object") →
    node'.get? "additionalProperties" =
      some (((node.get? "additionalProperties").map strip).getD (.bool false))

theorem strip_strings (names : List String) :
    strip (.arr (names.map .str)) = .arr (names.map .str) := by
  rw [strip, stripItems_eq, List.map_map]
  rfl

theorem stripped (formed : WellFormed unsupportedKeywords node) :
    Stripped node (close (strip.stripMembers node)) where
  supported := by
    intro key member
    obtain ⟨value', entry⟩ := Option.isSome_iff_exists.mp ((Dict.isSome_get?_iff _ key).mpr member)
    exact (get?_strip entry).1
  names := by
    intro key map names own
    exact ⟨strip.stripNames names, get?_strip_of_names map own, stripNames_keys names⟩
  required := by
    cases own : node.get? "required" with
    | none => rw [get?_close (by decide), get?_stripMembers (by decide), own]; rfl
    | some value =>
        obtain ⟨names, rfl⟩ := formed.required value own
        rw [get?_strip_of_same (by decide) (by decide) own, strip_strings]
  additional := by
    intro isObject
    have isObject' := get?_strip_of_same (by decide) (by decide) isObject
    rw [get?_close (by decide)] at isObject'
    rw [get?_close_object isObject', get?_stripMembers (by decide)]
    rfl

end Nodes

/-! ### Validity under the copy -/

theorem resolve_strip {root target : Json} {r : String} (found : resolve root r = some target) :
    resolve (strip root) r = some (strip target) ∧ Node root target := by
  rw [resolve] at found ⊢
  split at found
  · next whole =>
      cases found
      exact ⟨if_pos whole, .root⟩
  · next part =>
      rw [if_neg part]
      split at found
      · next named =>
          rw [if_pos named]
          obtain ⟨defs, defined, entry⟩ := Option.bind_eq_some_iff.mp found
          cases root with
          | obj node =>
              cases defs with
              | obj names =>
                  rw [Json.member?] at entry defined
                  rw [strip, Json.member?, get?_strip_of_names (by decide) defined,
                    Option.bind_some, Json.member?, get?_stripNames, entry]
                  exact ⟨rfl, .named .root (by decide) defined entry⟩
              | _ => cases entry
          | _ => cases defined
      · cases found

/-- The values that are compared with an instance, which stripping must not touch. -/
def PlainValues (root : Json) : Prop :=
  ∀ node, Node root (.obj node) → ∀ key ∈ ["enum", "const"], ∀ value,
    Dict.get? node key = some value → strip value = value

/-- Every object says something about further properties. -/
def ObjectsSpeak (root : Json) : Prop :=
  ∀ node, Node root (.obj node) → Dict.get? node "type" = some (.str "object") →
    Dict.get? node "additionalProperties" ≠ none

theorem propertyNames_strip {node : Dict Json} (formed : WellFormed unsupportedKeywords node) :
    propertyNames (close (strip.stripMembers node)) = propertyNames node := by
  rw [propertyNames, propertyNames]
  cases own : node.get? "properties" with
  | none => rw [get?_close (by decide), get?_stripMembers (by decide), own]; rfl
  | some value =>
      obtain ⟨names, rfl, _⟩ := formed.maps "properties" (by decide) value own
      rw [get?_strip_of_names (by decide) own]
      exact stripNames_keys names

/-- A schema of the original and its copy. -/
def CopiedIn (root s s' : Json) : Prop := Node root s ∧ s' = strip s

/-- A node that says all that its copy says is loosened by the copy. -/
theorem loosens {root : Json} {node : Dict Json} (inside : Node root (.obj node))
    (formed : WellFormed unsupportedKeywords node) (plain : PlainValues root)
    (speaks : ObjectsSpeak root) :
    Loosens (CopiedIn root) root (strip root) node (close (strip.stripMembers node)) where
  ref := by
    intro r entry
    obtain ⟨value, own, same⟩ := get?_strip_same (by decide) (by decide) entry
    rw [strip_eq_str same.symm] at own
    exact ⟨own, fun target found =>
      ⟨strip target, (resolve_strip found).1, (resolve_strip found).2, rfl⟩⟩
  type := by
    intro t entry
    obtain ⟨value, own, same⟩ := get?_strip_same (by decide) (by decide) entry
    rw [own, strip_eq_str same.symm]
  enum := by
    intro options entry
    obtain ⟨value, own, same⟩ := get?_strip_same (by decide) (by decide) entry
    rw [own, same, plain node inside "enum" (by decide) value own]
  const := by
    intro c entry
    obtain ⟨value, own, same⟩ := get?_strip_same (by decide) (by decide) entry
    rw [own, same, plain node inside "const" (by decide) value own]
  anyOf := by
    intro alternatives' entry
    obtain ⟨value, own, same⟩ := get?_strip_same (by decide) (by decide) entry
    obtain ⟨alternatives, rfl, rfl⟩ := strip_eq_arr same.symm
    exact ⟨alternatives, own, fun s member =>
      ⟨strip s, List.mem_map_of_mem member, .alternative inside own member, rfl⟩⟩
  properties := by
    intro names' name s' entry present
    obtain ⟨names, own, rfl⟩ := get?_strip_names (by decide) entry
    rw [get?_stripNames] at present
    obtain ⟨s, found, rfl⟩ := Option.map_eq_some_iff.mp present
    exact ⟨names, s, own, found, .named inside (by decide) own found, rfl⟩
  required := by
    intro names entry
    rw [← (stripped formed).required, entry]
  items := by
    intro s' entry
    obtain ⟨s, own, rfl⟩ := get?_strip_same (by decide) (by decide) entry
    exact ⟨s, own, .items inside own, rfl⟩
  additional := by
    intro s' entry
    obtain ⟨_, ⟨s, own, rfl⟩ | ⟨_, _, unsaid, isObject⟩⟩ := get?_strip entry
    · exact ⟨propertyNames_strip formed, s, own, .additional inside own, rfl⟩
    · exact absurd unsaid (speaks node inside isObject)
  others := by
    intro key value member other
    have present : key ∈ Dict.keys (close (strip.stripMembers node)) :=
      List.mem_map_of_mem member
    obtain ⟨value', entry⟩ := Option.isSome_iff_exists.mp ((Dict.isSome_get?_iff _ key).mpr present)
    obtain ⟨supported, ⟨_, own, _⟩ | ⟨rfl, _⟩⟩ := get?_strip entry
    · have named : key ∈ node.keys := by rw [← Dict.isSome_get?_iff, own]; rfl
      obtain known | dropped := formed.known key named
      · exact absurd known other
      · exact absurd dropped supported
    · exact absurd (by decide) other

/-- The copy of a schema: a second copy changes nothing, every schema inside keeps its
place, no node of it has an unsupported keyword, and each node keeps its names, what it
requires and what it says about further properties. An instance of the original is one of
the copy when no object is silent about further properties. -/
theorem strip_schema {root : Json} (schema : IsSchema unsupportedKeywords root) :
    strip (strip root) = strip root ∧
      (∀ s, Node root s → Node (strip root) (strip s)) ∧
      (∀ node, Node root (.obj node) →
        ∃ node', strip (.obj node) = .obj node' ∧ Stripped node node') ∧
      (∀ node', Node (strip root) (.obj node') →
        ∃ node, Node root (.obj node) ∧ strip (.obj node) = .obj node') ∧
      (ObjectsSpeak root → PlainValues root → ∀ dialect v,
        Valid dialect root root v → Valid dialect (strip root) (strip root) v) := by
  have formed : ∀ {node : Dict Json}, Node root (.obj node) →
      WellFormed unsupportedKeywords node := by
    intro node inside
    obtain ⟨_, bool⟩ | ⟨_, same, formed⟩ := schema _ inside
    · cases bool
    · cases same
      exact formed
  refine ⟨strip_strip root, fun s => strip_node, fun node inside =>
    ⟨_, rfl, stripped (formed inside)⟩, ?_, ?_⟩
  · intro node' inside'
    obtain bool | ⟨s, inside, same⟩ := node_strip inside'
    · cases bool
    · obtain ⟨node, rfl, rfl⟩ := strip_eq_obj same.symm
      exact ⟨node, inside, rfl⟩
  · intro speaks plain dialect v valid
    have nodes : ∀ node s', CopiedIn root (.obj node) s' →
        ∃ node', s' = .obj node' ∧ Loosens (CopiedIn root) root (strip root) node node' := by
      rintro node s' ⟨inside, rfl⟩
      exact ⟨_, rfl, loosens inside (formed inside) plain speaks⟩
    have anything : ∀ s', CopiedIn root (.bool true) s' → s' = .bool true := fun s' same => same.2
    exact valid.loosen anything nodes ⟨.root, rfl⟩

/-- Values compared as Python compares them; nothing else is asserted. -/
def equality : Dialect where
  same a b := a.pyEq b = true
  asserts _ _ _ := True

/-- A record with a field that has the name of a keyword. -/
def titledRecord : Json :=
  .obj [("type", .str "object"), ("title", .str "Record"),
    ("properties", .obj [("title", .obj [("type", .str "string"), ("maxLength", .num 80)])]),
    ("required", .arr [.str "title"]), ("additionalProperties", .bool false)]

theorem titledRecord_nodes {s : Json} (inside : Node titledRecord s) :
    s = titledRecord ∨ s = .obj [("type", .str "string"), ("maxLength", .num 80)] ∨
      s = .bool false := by
  induction inside with
  | root => exact .inl rfl
  | named _ map value entry ih =>
      obtain rfl | rfl := mem_mapKeywords.mp map
      all_goals obtain h | h | h := ih <;> cases h <;> cases value
      rw [Dict.get?_cons] at entry
      split at entry <;> cases entry
      exact .inr (.inl rfl)
  | items _ value ih => obtain h | h | h := ih <;> cases h <;> cases value
  | additional _ value ih =>
      obtain h | h | h := ih <;> cases h <;> cases value
      exact .inr (.inr rfl)
  | alternative _ value member ih => obtain h | h | h := ih <;> cases h <;> cases value

theorem titledRecord_isSchema : IsSchema unsupportedKeywords titledRecord := by
  intro s inside
  obtain rfl | rfl | rfl := titledRecord_nodes inside
  · refine .inr ⟨_, rfl, by decide, by decide, ?_, ?_, ?_, ?_⟩
    · intro key map v own
      obtain rfl | rfl := mem_mapKeywords.mp map <;> cases own
      exact ⟨_, rfl, by decide⟩
    · intro key text v own
      obtain rfl | rfl | rfl := mem_textKeywords.mp text <;> cases own
      exact ⟨_, rfl⟩
    · intro key list v own
      obtain rfl | rfl := mem_listKeywords.mp list <;> cases own
    · rintro v ⟨⟩
      exact ⟨["title"], rfl⟩
  · refine .inr ⟨_, rfl, .flat (by decide) (by decide) (by decide) fun key text v own => ?_⟩
    obtain rfl | rfl | rfl := mem_textKeywords.mp text <;> cases own
    exact ⟨_, rfl⟩
  · exact .inl ⟨false, rfl⟩

theorem outage_valid :
    Valid equality titledRecord titledRecord (.obj [("title", .str "Outage")]) := by
  have title : Valid equality titledRecord
      (.obj [("type", .str "string"), ("maxLength", .num 80)]) (.str "Outage") := by
    apply Valid.node .null .null
    case type =>
      rintro t ⟨⟩
      trivial
    case others =>
      intros
      trivial
    all_goals nofun
  apply Valid.node .null .null
  case type =>
    rintro t ⟨⟩
    trivial
  case properties =>
    rintro names name s w ⟨⟩ entry present
    rw [Dict.get?_cons] at entry
    split at entry
    · next named =>
        cases entry
        subst named
        cases present
        exact title
    · cases entry
  case required =>
    rintro names name members ⟨⟩ asked ⟨⟩
    cases List.mem_singleton.mp asked
    exact List.mem_singleton_self _
  case additional =>
    rintro s members name w ⟨⟩ ⟨⟩ present outside
    rw [Dict.get?_cons] at present
    split at present
    · next named =>
        subst named
        exact absurd (by decide) outside
    · cases present
  case others =>
    intros
    trivial
  all_goals nofun

/-- An instance stays one when the longest title is forgotten. -/
theorem strip_titledRecord :
    Valid equality (strip titledRecord) (strip titledRecord)
      (.obj [("title", .str "Outage")]) := by
  refine (strip_schema titledRecord_isSchema).2.2.2.2 ?_ ?_ equality _ outage_valid
  · intro node inside isObject
    obtain h | h | h := titledRecord_nodes inside <;> cases h
    · exact Option.some_ne_none _
    · exact absurd (Json.str.inj (Option.some.inj isObject)) (by decide)
  · intro node inside key compared value own
    obtain h | h | h := titledRecord_nodes inside <;> cases h
    all_goals
      obtain rfl | rfl : key = "enum" ∨ key = "const" := by simpa using compared
      all_goals cases own

/-- An object that allows more. -/
def openObject : Json := .obj [("type", .str "object"), ("additionalProperties", .bool true)]

/-- A constant with the name of a keyword in it. -/
def titledConstant : Json := .obj [("const", .obj [("title", .str "a")])]

theorem openObject_isSchema : IsSchema unsupportedKeywords openObject := by
  have nodes : ∀ s, Node openObject s → s = openObject ∨ s = .bool true := by
    intro s inside
    induction inside with
    | root => exact .inl rfl
    | named _ map value _ ih =>
        obtain h | h := ih <;> cases h
        obtain rfl | rfl := mem_mapKeywords.mp map <;> cases value
    | items _ value ih =>
        obtain h | h := ih <;> cases h
        cases value
    | additional _ value ih =>
        obtain h | h := ih <;> cases h
        cases value
        exact .inr rfl
    | alternative _ value _ ih =>
        obtain h | h := ih <;> cases h
        cases value
  intro s inside
  obtain rfl | rfl := nodes s inside
  · refine .inr ⟨_, rfl, .flat (by decide) (by decide) (by decide) fun key text v own => ?_⟩
    obtain rfl | rfl | rfl := mem_textKeywords.mp text <;> cases own
    exact ⟨_, rfl⟩
  · exact .inl ⟨true, rfl⟩

theorem titledConstant_nodes {s : Json} (inside : Node titledConstant s) : s = titledConstant := by
  induction inside with
  | root => rfl
  | named _ map value _ ih =>
      cases ih
      obtain rfl | rfl := mem_mapKeywords.mp map <;> cases value
  | items _ value ih =>
      cases ih
      cases value
  | additional _ value ih =>
      cases ih
      cases value
  | alternative _ value _ ih =>
      cases ih
      cases value

theorem titledConstant_isSchema : IsSchema unsupportedKeywords titledConstant := by
  intro s inside
  rw [titledConstant_nodes inside]
  refine .inr ⟨_, rfl, .flat (by decide) (by decide) (by decide) fun key text v own => ?_⟩
  obtain rfl | rfl | rfl := mem_textKeywords.mp text <;> cases own

/-- An open object stays open, and a constant may lose a name, so that its own value is no
longer an instance. -/
theorem strip_open_object :
    IsSchema unsupportedKeywords openObject ∧ strip openObject = openObject ∧
      IsSchema unsupportedKeywords titledConstant ∧ ObjectsSpeak titledConstant ∧
      Valid equality titledConstant titledConstant (.obj [("title", .str "a")]) ∧
      ¬ Valid equality (strip titledConstant) (strip titledConstant)
        (.obj [("title", .str "a")]) := by
  refine ⟨openObject_isSchema, by rfl, titledConstant_isSchema, ?_, ?_, ?_⟩
  · intro node inside isObject
    cases titledConstant_nodes inside
    cases isObject
  · apply Valid.node .null .null
    case const =>
      rintro c ⟨⟩
      exact (by decide : Json.pyEq (.obj [("title", .str "a")]) (.obj [("title", .str "a")]) = true)
    case others =>
      intros
      trivial
    all_goals nofun
  · intro valid
    cases valid with
    | node _ _ _ _ _ _ const =>
        have same : Json.pyEq (.obj []) (.obj [("title", .str "a")]) = true := const (.obj []) rfl
        exact absurd same (by decide)

end IncidentPipeline.WireSchema
