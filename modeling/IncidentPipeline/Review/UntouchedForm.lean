import IncidentPipeline.Review.Correction
import IncidentPipeline.Review.RoundTrip

/-!
# Pressing Correct on an untouched form

For a value that a validated record dumps, the form gives the value back exactly when
its texts are typable. The fields of the record are forms that hold their values
whole, which is checked on the record's type.
-/

namespace IncidentPipeline

open Python Pydantic

/-! ### Types whose values the form holds -/

/-- A field whose value is a text that is not empty. -/
def requiresText (f : FieldInfo Validator) : Bool :=
  match f.annotation with
  | .str => f.metadata.minLength.any (0 < ·)
  | _ => false

/-- `null` aside, a list. -/
def isList : Ty Validator → Bool
  | .nullable inner => isList inner
  | .list _ => true
  | _ => false

/-- The types a form holds whole: lists cannot be null, and they hold strings, or
objects that always have a text. -/
def formable : Ty Validator → Bool
  | .literal options => options.all fun option => strip option = option && option ≠ ""
  | .nullable inner => !isList inner && formable inner
  | .list items =>
      formable items && match items with
        | .str => true
        | .model _ fields => fields.any requiresText
        | _ => false
  | .model _ fields => decide (fields.map FieldInfo.name).Nodup && formableFields fields
  | .str => true
  | .bool => true
  | .float => false
where
  formableFields : List (FieldInfo Validator) → Bool
    | [] => true
    | (_, _, annotation) :: rest => formable annotation && formableFields rest

theorem build_label :
    ∀ (t : Ty Validator) {label : String} {nullable : Bool} {spec : Spec},
      build label nullable t = .ok spec → spec.label = label
  | .nullable inner, _, _, _, h => build_label inner h
  | .literal options, _, _, _, h => by
      simp only [build] at h
      split at h
      · cases h
      · cases h
        rfl
  | .bool, _, _, _, h => by cases h; rfl
  | .str, _, _, _, h => by cases h; rfl
  | .list items, label, nullable, spec, h => by
      simp only [build] at h
      split at h
      · cases hb : build label false items with
        | error e => simp [hb, Except.map] at h
        | ok row =>
            rw [hb] at h
            cases h
            rfl
      · cases h
        rfl
  | .model _ fields, label, nullable, spec, h => by
      simp only [build] at h
      cases hb : build.buildFields fields with
      | error e => simp [hb, Except.map] at h
      | ok children =>
          rw [hb] at h
          cases h
          rfl

/-- A built object has a child for each field, in order. -/
theorem buildFields_cons {f : FieldInfo Validator} {rest : List (FieldInfo Validator)}
    {children : List Spec} (h : build.buildFields (f :: rest) = .ok children) :
    ∃ child later, children = child :: later ∧ build f.name false f.annotation = .ok child ∧
      build.buildFields rest = .ok later := by
  obtain ⟨name, metadata, annotation⟩ := f
  simp only [build.buildFields] at h
  cases hb : build name false annotation with
  | error e => simp [hb, Bind.bind, Except.bind] at h
  | ok child =>
      cases hr : build.buildFields rest with
      | error e => simp [hb, hr, Bind.bind, Except.bind] at h
      | ok later =>
          simp only [hb, hr, Bind.bind, Except.bind, Pure.pure, Except.pure] at h
          cases h
          exact ⟨child, later, rfl, hb, rfl⟩

theorem mem_buildFields {fields : List (FieldInfo Validator)} {children : List Spec}
    (h : build.buildFields fields = .ok children) {f : FieldInfo Validator} (hf : f ∈ fields) :
    ∃ child ∈ children, build f.name false f.annotation = .ok child := by
  induction fields generalizing children with
  | nil => cases hf
  | cons g rest ih =>
      obtain ⟨child, later, rfl, hchild, hlater⟩ := buildFields_cons h
      cases List.mem_cons.mp hf with
      | inl same =>
          subst same
          exact ⟨child, by simp, hchild⟩
      | inr further =>
          obtain ⟨c, hc, hbuild⟩ := ih hlater further
          exact ⟨c, by simp [hc], hbuild⟩

/-- A row that requires a text is never blank. -/
theorem isBlankRow_eq_false {fields : List (FieldInfo Validator)} {children : List Spec}
    {label : String} {nullable : Bool} {members : Dict Json}
    (hbuild : build.buildFields fields = .ok children)
    (hnodup : (fields.map FieldInfo.name).Nodup) (hshape : Ty.Shape.ShapeFields fields members)
    (hrequired : fields.any requiresText = true) :
    isBlankRow (.object label nullable children) (.obj members) = false := by
  obtain ⟨f, hf, hrequires⟩ := List.any_eq_true.mp hrequired
  obtain ⟨w, hw, hwshape, hmeets⟩ := Ty.get?_of_shapeFields hshape hnodup hf
  obtain ⟨child, hchild, hspec⟩ := mem_buildFields hbuild hf
  rw [requiresText] at hrequires
  split at hrequires
  · next hstr =>
      rw [hstr] at hwshape hspec
      obtain ⟨s, rfl⟩ := hwshape
      have hs : s ≠ "" := by
        intro hempty
        obtain ⟨n, hn, hpos⟩ := Option.any_eq_true _ _ |>.mp hrequires
        have := hmeets.1 n hn
        simp [hempty] at this
        simp [this] at hpos
      have hlabel := build_label .str hspec
      have htext : child.isText = true := by
        cases hspec
        by_cases hlong : f.name ∈ longText <;> simp [hlong, Spec.isText]
      have hmem : child ∈ children.filter Spec.isText := List.mem_filter.mpr ⟨hchild, htext⟩
      rw [isBlankRow, Bool.and_eq_false_iff]
      right
      rw [List.all_eq_false]
      exact ⟨child, hmem, by simp [Json.member?, hlabel, hw, hs]⟩
  · cases hrequires

/-- A validated value of the type, or the `null` that a nullable type adds. -/
def Holds (nullable : Bool) (t : Ty Validator) (v : Json) : Prop :=
  t.Shape v ∨ (nullable = true ∧ isList t = false ∧ v = .null)

private theorem trimmed_of_formable {options : List String} {s : String}
    (h : formable (.literal options) = true) (hs : s ∈ options) : strip s = s ∧ s ≠ "" := by
  have := List.all_eq_true.mp h s hs
  simpa using this

private theorem stable_lines {label : String} {nullable : Bool} {xs : List Json}
    (hxs : ∀ x ∈ xs, Ty.Shape (V := Validator) .str x)
    (typable : (Spec.lines label nullable).Typable (.arr xs)) :
    (Spec.lines label nullable).Stable (.arr xs) := by
  have hitems : ∃ items : List String, xs = items.map .str := by
    clear typable
    induction xs with
    | nil => exact ⟨[], rfl⟩
    | cons x rest ih =>
        obtain ⟨s, rfl⟩ := hxs x (by simp)
        obtain ⟨items, rfl⟩ := ih fun y hy => hxs y (by simp [hy])
        exact ⟨s :: items, rfl⟩
  obtain ⟨items, rfl⟩ := hitems
  exact ⟨items, rfl, fun item hitem => typable item (List.mem_map_of_mem hitem)⟩

/-- The condition on the later members does not look at the first. -/
private theorem typableMembers_tail {fields : List (FieldInfo Validator)} {children : List Spec}
    {key : String} {w : Json} {tail : Dict Json}
    (hbuild : build.buildFields fields = .ok children) (hne : ∀ f ∈ fields, f.name ≠ key)
    (typable : Spec.Typable.TypableMembers children ((key, w) :: tail)) :
    Spec.Typable.TypableMembers children tail := by
  induction fields generalizing children with
  | nil =>
      cases hbuild
      trivial
  | cons f rest ih =>
      obtain ⟨child, later, rfl, hchild, hlater⟩ := buildFields_cons hbuild
      have hlabel : child.label = f.name := build_label f.annotation hchild
      refine ⟨?_, ih hlater (fun g hg => hne g (by simp [hg])) typable.2⟩
      intro u hu
      apply typable.1 u
      rw [Dict.get?_cons, if_neg (by rw [hlabel]; exact fun same => hne f (by simp) same.symm)]
      exact hu

mutual

/-- A validated value with typable texts is stable. -/
theorem stable_of_typable :
    ∀ (t : Ty Validator) {label : String} {nullable : Bool} {spec : Spec} {v : Json},
      formable t = true → build label nullable t = .ok spec → Holds nullable t v →
        spec.Typable v → spec.Stable v
  | .str, label, nullable, spec, v, _, hbuild, holds, typable => by
      cases hbuild
      cases holds with
      | inl shape =>
          obtain ⟨s, rfl⟩ := shape
          right
          by_cases hlong : label ∈ longText
          · simp only [hlong, if_true, Spec.Typable] at typable ⊢
            exact ⟨s, rfl, typable s rfl⟩
          · simp only [hlong, if_false, Spec.Typable] at typable ⊢
            exact ⟨s, rfl, typable s rfl⟩
      | inr absent => exact .inl ⟨absent.1, absent.2.2⟩
  | .bool, label, nullable, spec, v, _, hbuild, holds, _ => by
      cases hbuild
      cases holds with
      | inl shape => exact .inr (.inr shape)
      | inr absent => exact .inr (.inl absent.2.2)
  | .literal options, label, nullable, spec, v, hform, hbuild, holds, _ => by
      simp only [build] at hbuild
      split at hbuild
      · cases hbuild
      · cases hbuild
        cases holds with
        | inl shape =>
            obtain ⟨s, hs, rfl⟩ := shape
            obtain ⟨hstrip, hne⟩ := trimmed_of_formable hform hs
            exact .inr ⟨s, rfl, hstrip, fun _ => hne⟩
        | inr absent => exact .inl ⟨absent.1, absent.2.2⟩
  | .nullable inner, label, nullable, spec, v, hform, hbuild, holds, typable => by
      simp only [formable, Bool.and_eq_true, Bool.not_eq_true'] at hform
      refine stable_of_typable inner hform.2 hbuild ?_ typable
      cases holds with
      | inl shape =>
          cases shape with
          | inl hnull => exact .inr ⟨rfl, hform.1, hnull⟩
          | inr shape => exact .inl shape
      | inr absent => exact .inr ⟨rfl, hform.1, absent.2.2⟩
  | .list items, label, nullable, spec, v, hform, hbuild, holds, typable => by
      cases holds with
      | inr absent => cases absent.2.1
      | inl shape =>
          obtain ⟨xs, rfl, hxs⟩ := shape
          simp only [formable, Bool.and_eq_true] at hform
          obtain ⟨hitems, hkind⟩ := hform
          cases items with
          | str =>
              cases hbuild
              exact stable_lines hxs typable
          | model name fields =>
              simp only [build, hasProperties, if_true] at hbuild
              cases hb : build.buildFields fields with
              | error e => simp [hb, Except.map] at hbuild
              | ok children =>
                  rw [hb] at hbuild
                  cases hbuild
                  have hrow : build label false (.model name fields) =
                      .ok (.object label false children) := by
                    rw [build, hb]
                    rfl
                  refine ⟨xs, rfl, ?_⟩
                  intro x hx
                  obtain ⟨members, rfl, hmembers⟩ := hxs x hx
                  have hnodup : (fields.map FieldInfo.name).Nodup := by
                    simp only [formable, Bool.and_eq_true, decide_eq_true_eq] at hitems
                    exact hitems.1
                  refine ⟨?_, isBlankRow_eq_false hb hnodup hmembers hkind⟩
                  exact stable_of_typable (.model name fields) hitems hrow
                    (.inl ⟨members, rfl, hmembers⟩) (typable _ hx)
          | _ => cases hkind
  | .model name fields, label, nullable, spec, v, hform, hbuild, holds, typable => by
      simp only [build] at hbuild
      cases hb : build.buildFields fields with
      | error e => simp [hb, Except.map] at hbuild
      | ok children =>
          rw [hb] at hbuild
          cases hbuild
          cases holds with
          | inr absent => exact .inl ⟨absent.1, absent.2.2⟩
          | inl shape =>
              obtain ⟨members, rfl, hmembers⟩ := shape
              simp only [formable, Bool.and_eq_true, decide_eq_true_eq] at hform
              exact .inr ⟨members, rfl,
                stableMembers_of_typable fields hform.1 hform.2 hb hmembers typable⟩

theorem stableMembers_of_typable :
    ∀ (fields : List (FieldInfo Validator)) {children : List Spec} {members : Dict Json},
      (fields.map FieldInfo.name).Nodup → formable.formableFields fields = true →
      build.buildFields fields = .ok children → Ty.Shape.ShapeFields fields members →
      Spec.Typable.TypableMembers children members →
        Spec.Stable.StableMembers children members
  | [], children, members, _, _, hbuild, shape, _ => by
      cases hbuild
      exact shape
  | (name, metadata, annotation) :: rest, children, members, hnodup, hform, hbuild, shape,
      typable => by
      obtain ⟨child, later, rfl, hchild, hlater⟩ := buildFields_cons hbuild
      obtain ⟨w, tail, rfl, hshape, _, hrest⟩ := shape
      simp only [formable.formableFields, Bool.and_eq_true] at hform
      rw [List.map_cons, List.nodup_cons] at hnodup
      have hlabel : child.label = name := build_label annotation hchild
      refine ⟨w, tail, by rw [hlabel], ?_, ?_⟩
      · exact stable_of_typable annotation hform.1 hchild (.inl hshape)
          (typable.1 w (by rw [hlabel, Dict.get?_cons_self]))
      · refine stableMembers_of_typable rest hnodup.2 hform.2 hlater hrest ?_
        refine typableMembers_tail hlater ?_ typable.2
        intro f hf same
        exact hnodup.1 (List.mem_map.mpr ⟨f, hf, same⟩)

end

/-! ### The fields of the record -/

/-- `v` is what some validated record dumps for a field. -/
def Dumped (rt : Runtime) (field : String) (v : Json) : Prop :=
  ∃ input record, incidentRecord.validate (validators rt) input = .ok record ∧
    record.member? field = some v

/-- Every field's type is formable and its form well formed. -/
theorem modelFields_formable :
    (modelFields.all fun f => formable f.annotation &&
      match build f.name false f.annotation with
      | .ok spec => spec.wellFormed
      | .error _ => false) = true := by decide +kernel

theorem formSpec_of_mem (rt : Runtime) {field : String} (h : field ∈ recordFields) :
    ∃ f ∈ modelFields, f.name = field ∧ formable f.annotation = true ∧
      ∃ spec, formSpec rt field = .ok spec ∧ build field false f.annotation = .ok spec ∧
        spec.wellFormed = true := by
  obtain ⟨f, hf, hfound, hname⟩ := modelField?_eq_some h
  have hall := List.all_eq_true.mp modelFields_formable f hf
  simp only [Bool.and_eq_true, hname] at hall
  cases hb : build field false f.annotation with
  | error e => simp [hb] at hall
  | ok spec =>
      rw [hb] at hall
      have hspec : formSpec rt field = .ok spec := by
        rw [formSpec, hfound]
        exact hb
      exact ⟨f, hf, hname, hall.1, spec, hspec, hb, hall.2⟩

/-- The value of a field in a validated record has the shape of the field's type. -/
theorem Dumped.shape {rt : Runtime} {field : String} {v : Json} (h : Dumped rt field v)
    {f : FieldInfo Validator} (hf : f ∈ modelFields) (hname : f.name = field) :
    f.annotation.Shape v := by
  obtain ⟨input, record, hvalid, hmember⟩ := h
  obtain ⟨members, rfl, hshape⟩ :=
    Ty.shape_of_validate (validators_preserving rt) incidentRecord hvalid
  obtain ⟨w, hw, hwshape, _⟩ := Ty.get?_of_shapeFields hshape recordFields_nodup hf
  rw [hname] at hw
  have hmember' : Dict.get? members field = some v := hmember
  cases hw.symm.trans hmember'
  exact hwshape

/-- Submitting the untouched form of a model's value gives that value back exactly
when its texts are typable. -/
theorem untouched_form_iff (rt : Runtime) {field : String} (hfield : field ∈ recordFields) :
    ∃ spec, formSpec rt field = .ok spec ∧ ∀ v, Dumped rt field v →
      ((parse spec "v" (encode rt (bind rt spec "v" v))).pyEq v = true ↔ spec.Typable v) := by
  obtain ⟨f, hf, hname, hform, spec, hspec, hbuild, wf⟩ := formSpec_of_mem rt hfield
  refine ⟨spec, hspec, ?_⟩
  intro v hdumped
  constructor
  · intro same
    exact typable_of_pyEq spec (stable_parse spec "v" _) same
  · intro typable
    have stable : spec.Stable v :=
      stable_of_typable f.annotation hform hbuild (.inl (hdumped.shape hf hname)) typable
    rw [parse_encode_bind rt spec "v" wf stable]
    exact pyEq_self_of_stable spec wf stable

theorem dumped_padded : Dumped .ascii "publisher_org" (.str " Cloudflare") :=
  ⟨.obj (sparseRecord " Cloudflare"), .obj (sparseRecord " Cloudflare"), rfl, rfl⟩

theorem untouched_form_cloudflare :
    ∃ spec, formSpec .ascii "publisher_org" = .ok spec ∧
      ((parse spec "v" (encode .ascii (bind .ascii spec "v" (.str "Cloudflare")))).pyEq
        (.str "Cloudflare") = true ↔ spec.Typable (.str "Cloudflare")) := by
  obtain ⟨spec, hspec, hiff⟩ := @untouched_form_iff .ascii "publisher_org" (by decide)
  exact ⟨spec, hspec,
    hiff _ ⟨.obj (sparseRecord "Cloudflare"), .obj (sparseRecord "Cloudflare"), rfl, rfl⟩⟩

/-- A publisher with a leading space, which the record accepts, comes back without it. -/
theorem untouched_form_padded :
    ¬ ∀ field ∈ recordFields, ∀ v, Dumped .ascii field v → ∃ spec,
      formSpec .ascii field = .ok spec ∧
        (parse spec "v" (encode .ascii (bind .ascii spec "v" v))).pyEq v = true := by
  intro h
  obtain ⟨spec, hspec, same⟩ := h "publisher_org" (by decide) _ dumped_padded
  have hbuilt : formSpec .ascii "publisher_org" = .ok (.input .text "publisher_org" false) := rfl
  cases hspec.symm.trans hbuilt
  exact absurd same (by decide)

/-! ### Pressing Correct again on a rejected correction -/

/-- Every form that is built is well formed. -/
theorem formSpec_wellFormed {rt : Runtime} {field : String} {spec : Spec}
    (built : formSpec rt field = .ok spec) : spec.wellFormed = true := by
  have known : field ∈ recordFields := by
    rw [formSpec] at built
    cases found : modelField? field with
    | none => simp [found] at built
    | some f =>
        have named : f.name = field := by simpa using List.find?_some found
        exact named ▸ List.mem_map_of_mem (List.mem_of_find?_eq_some found)
  obtain ⟨_, _, _, _, _, built', _, wf⟩ := formSpec_of_mem rt known
  cases built.symm.trans built'
  exact wf

/-- A form holds whatever was read from it: bound again and submitted untouched, it is read as
the same value. -/
theorem resubmitted_form (rt : Runtime) :
    (∀ field spec, formSpec rt field = .ok spec → spec.wellFormed = true) ∧
      ∀ spec : Spec, spec.wellFormed = true → ∀ name data,
        parse spec name (encode rt (bind rt spec name (parse spec name data))) =
          parse spec name data := by
  constructor
  · intro field spec built
    exact formSpec_wellFormed built
  · intro spec wf name data
    have stable := stable_parse spec name data
    exact parse_encode_bind rt spec name wf stable

end IncidentPipeline
