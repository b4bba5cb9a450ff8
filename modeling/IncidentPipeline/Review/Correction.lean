import IncidentPipeline.Review.Forms

/-!
# Validating a correction

`validate_correction` checks a reviewer's value against the annotation of its field.
The record checks the same value against the whole field declaration. The two differ
in what `Field(...)` adds at the top level of the record.
-/

namespace IncidentPipeline

open Python Pydantic

/-- One line for each error, the field itself standing for an empty location. -/
def correctionProblems (field : String) (errors : List ErrorDetail) : String :=
  "; ".intercalate <| errors.map fun e =>
    (if locPath e.loc = "" then field else locPath e.loc) ++ ": " ++ e.msg

def validateCorrection (rt : Runtime) (field : String) (value : Json) : Except Exc Json :=
  match modelField? field with
  | none =>
      .error ⟨.invalidCorrectionError, rt.repr field ++ " is not an IncidentRecord field", []⟩
  | some f =>
      match f.annotation.validate (validators rt) value with
      | .ok validated => .ok validated
      | .error errors =>
          .error ⟨.invalidCorrectionError,
            "corrected value is not a valid " ++ field ++ ": " ++ correctionProblems field errors,
            []⟩

/-- A correction is refused with one exception class, whatever is wrong. -/
theorem cls_of_validateCorrection {rt : Runtime} {field : String} {v : Json} {e : Exc}
    (h : validateCorrection rt field v = .error e) : e.cls = .invalidCorrectionError := by
  rw [validateCorrection] at h
  split at h
  · cases h
    rfl
  · split at h
    · cases h
    · cases h
      rfl

/-- The two validations of `v` for `field` of the record `r`: they accept together,
and the correction is stored as the record would store it. -/
def CorrectionAgrees (rt : Runtime) (field : String) (v : Json) (r : Dict Json) : Prop :=
  ((∃ w, validateCorrection rt field v = .ok w) ↔
    ∃ out, incidentRecord.validate (validators rt) (.obj (r.set field v)) = .ok out) ∧
  ∀ w out, validateCorrection rt field v = .ok w →
    incidentRecord.validate (validators rt) (.obj (r.set field v)) = .ok out →
      out.member? field = some w

/-- The fields that the record wants not to be empty. -/
def nonemptyFields : List String := ["publisher_org", "affected_org", "title", "summary"]

/-- What `Field(...)` adds to the fields of the record. -/
theorem modelFields_metadata :
    ∀ f ∈ modelFields,
      (f.name ∈ nonemptyFields ∧ f.metadata = minLength1 ∧ f.annotation = .str) ∨
        (f.name ∉ nonemptyFields ∧ f.metadata = {}) := by
  simp [modelFields, FieldInfo.name, FieldInfo.metadata, FieldInfo.annotation, nonemptyFields]

/-- Replacing one member leaves the outcome of the other fields alone. -/
theorem result_set {rt : Runtime} {r : Dict Json} {v : Json} {f g : FieldInfo Validator}
    (hne : f.name ≠ g.name) :
    g.result (validators rt) (r.set f.name v) [] = g.result (validators rt) r [] := by
  rw [FieldInfo.result, FieldInfo.result, Dict.get?_set, if_neg hne]

theorem result_set_self {rt : Runtime} {r : Dict Json} {v : Json} {f : FieldInfo Validator} :
    f.result (validators rt) (r.set f.name v) [] = f.validate (validators rt) [] v := by
  rw [FieldInfo.result, Dict.get?_set, if_pos rfl]

/-- The record takes a replaced member exactly when the member's field does. -/
theorem accepts_set_iff {rt : Runtime} {r : Dict Json} {v : Json} {f : FieldInfo Validator}
    (hf : f ∈ modelFields)
    (valid : ∃ out, incidentRecord.validate (validators rt) (.obj r) = .ok out) :
    (∃ out, incidentRecord.validate (validators rt) (.obj (r.set f.name v)) = .ok out) ↔
      ∃ w, f.validate (validators rt) [] v = .ok w := by
  rw [incidentRecord, accepts_model_iff modelFields_plain] at valid ⊢
  obtain ⟨hfields, hkeys⟩ := valid
  constructor
  · intro ⟨accepted, _⟩
    rw [← result_set_self (r := r)]
    exact accepted f hf
  · intro accepted
    refine ⟨?_, ?_⟩
    · intro g hg
      by_cases hsame : f.name = g.name
      · have hfg : f = g := List.inj_on_of_nodup_map recordFields_nodup hf hg hsame
        rw [← hfg, result_set_self]
        exact accepted
      · rw [result_set hsame]
        exact hfields g hg
    · intro key hkey
      cases (Dict.mem_keys_set _ _ _ _).mp hkey with
      | inl same => exact same ▸ List.mem_map_of_mem hf
      | inr old => exact hkeys key old

theorem validateCorrection_eq_ok {rt : Runtime} {field : String} {f : FieldInfo Validator}
    (h : modelField? field = some f) {v w : Json} :
    validateCorrection rt field v = .ok w ↔ f.annotation.validate (validators rt) v = .ok w := by
  simp only [validateCorrection, h]
  cases hv : f.annotation.validate (validators rt) v <;> simp

/-- A field that adds nothing takes what its annotation takes. -/
theorem validate_of_no_metadata {rt : Runtime} {f : FieldInfo Validator} (h : f.metadata = {})
    (v : Json) :
    f.validate (validators rt) [] v = f.annotation.validate (validators rt) v := by
  rw [FieldInfo.validate, h]
  cases f.annotation.validate (validators rt) v with
  | error es => rfl
  | ok w =>
      have hcheck : (({} : Metadata Validator).check (validators rt) [] w) = .ok w := by
        cases w with
        | nonFinite x => cases x <;> rfl
        | _ => rfl
      exact hcheck

/-- A field that wants a text not to be empty takes every other text, and no value
that is not a text. -/
theorem validate_of_minLength1 {rt : Runtime} {f : FieldInfo Validator}
    (hmeta : f.metadata = minLength1) (hstr : f.annotation = .str) {v w : Json} :
    f.validate (validators rt) [] v = .ok w ↔
      f.annotation.validate (validators rt) v = .ok w ∧ v ≠ .str "" := by
  rw [FieldInfo.validate, hmeta, hstr]
  cases v with
  | str s =>
      by_cases hs : s = ""
      · subst hs
        simp [Ty.validate, Metadata.check, Metadata.checkBounds, minLength1, fail, Bind.bind,
          Except.bind]
      · have hlen : ¬ s.length < 1 := by
          intro hlt
          have : s.length = 0 := by omega
          exact hs (String.length_eq_zero_iff.mp this)
        have hcheck : minLength1.check (validators rt) [] (.str s) = .ok (.str s) := by
          simp [Metadata.check, Metadata.checkBounds, minLength1, runValidators, hs, Bind.bind,
            Except.bind]
        simp [Ty.validate, Bind.bind, Except.bind, hcheck, hs]
  | _ => simp [Ty.validate, fail, Bind.bind, Except.bind]

/-- What the record stores for a replaced member is the outcome of its field. -/
theorem member_of_validate_set {rt : Runtime} {r : Dict Json} {v out : Json}
    {f : FieldInfo Validator} (hf : f ∈ modelFields)
    (h : incidentRecord.validate (validators rt) (.obj (r.set f.name v)) = .ok out) :
    ∃ w, f.validate (validators rt) [] v = .ok w ∧ out.member? f.name = some w := by
  obtain ⟨w, hw, hmember⟩ := member_of_validate_model modelFields_plain recordFields_nodup h hf
  rw [result_set_self] at hw
  exact ⟨w, hw, hmember⟩

theorem modelField?_eq_some {field : String} (h : field ∈ recordFields) :
    ∃ f ∈ modelFields, modelField? field = some f ∧ f.name = field := by
  obtain ⟨f, hf, hname⟩ := List.mem_map.mp h
  have hsome : (modelField? field).isSome := by
    rw [modelField?, List.find?_isSome]
    exact ⟨f, hf, by simpa using hname⟩
  obtain ⟨g, hg⟩ := Option.isSome_iff_exists.mp hsome
  refine ⟨g, List.mem_of_find?_eq_some hg, hg, ?_⟩
  simpa using List.find?_some hg

/-- The two validations differ exactly on the empty text for the four fields that the
record wants not to be empty. -/
theorem correction_agrees_iff (rt : Runtime) {field : String} (hfield : field ∈ recordFields)
    (v : Json) {r : Dict Json}
    (valid : ∃ out, incidentRecord.validate (validators rt) (.obj r) = .ok out) :
    CorrectionAgrees rt field v r ↔ ¬ (field ∈ nonemptyFields ∧ v = .str "") := by
  obtain ⟨f, hf, hfound, rfl⟩ := modelField?_eq_some hfield
  have hcorrection : ∀ w, validateCorrection rt f.name v = .ok w ↔
      f.annotation.validate (validators rt) v = .ok w := fun w => validateCorrection_eq_ok hfound
  rw [CorrectionAgrees, accepts_set_iff hf valid]
  -- what the two sides store, whenever both accept
  have stored : (∀ w, f.validate (validators rt) [] v = .ok w →
      f.annotation.validate (validators rt) v = .ok w) →
      ∀ w out, validateCorrection rt f.name v = .ok w →
        incidentRecord.validate (validators rt) (.obj (r.set f.name v)) = .ok out →
          out.member? f.name = some w := by
    intro same w out hw hout
    obtain ⟨u, hu, hmember⟩ := member_of_validate_set hf hout
    have hw' := (hcorrection w).mp hw
    rw [same u hu] at hw'
    cases hw'
    exact hmember
  cases modelFields_metadata f hf with
  | inl required =>
      obtain ⟨hname, hmeta, hstr⟩ := required
      have hiff : ∀ w, f.validate (validators rt) [] v = .ok w ↔
          f.annotation.validate (validators rt) v = .ok w ∧ v ≠ .str "" :=
        fun w => validate_of_minLength1 hmeta hstr
      simp only [hname, true_and]
      constructor
      · intro ⟨together, _⟩ hempty
        have haccepted : ∃ w, validateCorrection rt f.name v = .ok w := by
          refine ⟨.str "", (hcorrection _).mpr ?_⟩
          rw [hempty, hstr]
          rfl
        obtain ⟨w, hw⟩ := together.mp haccepted
        exact ((hiff w).mp hw).2 hempty
      · intro hne
        refine ⟨?_, stored fun w hw => ((hiff w).mp hw).1⟩
        constructor
        · intro ⟨w, hw⟩
          exact ⟨w, (hiff w).mpr ⟨(hcorrection w).mp hw, hne⟩⟩
        · intro ⟨w, hw⟩
          exact ⟨w, (hcorrection w).mpr ((hiff w).mp hw).1⟩
  | inr free =>
      obtain ⟨hname, hmeta⟩ := free
      have hsame := @validate_of_no_metadata rt f hmeta v
      simp only [hname, false_and, not_false_eq_true, iff_true]
      refine ⟨?_, stored fun w hw => hsame ▸ hw⟩
      simp only [hsame, hcorrection]

/-- A record for which nothing was found, published by `publisher`. -/
def sparseRecord (publisher : String) : Dict Json :=
  [("publisher_org", .str publisher),
    ("affected_org", .str "Acme"),
    ("vendor_org", .null),
    ("affected_org_kind", .str "company"),
    ("title", .str "Outage"),
    ("title_source", .str "synthesized"),
    ("summary", .str "The service was down."),
    ("affected", .obj
      [("services", .arr []), ("regions", .arr []), ("all_services", .bool true),
        ("list_is_complete", .null)]),
    ("trigger", .null),
    ("mechanism", .obj
      [("label", .str "other"), ("description", .str "A disk failed."), ("quote", .null)]),
    ("contributing_factors", .arr []),
    ("detection_method", .str "unknown"),
    ("detection_quote", .null),
    ("change_at", .null),
    ("impact_start", .null),
    ("detected_at", .null),
    ("mitigated_at", .null),
    ("resolved_at", .null),
    ("time_to_detect_text", .null),
    ("time_to_mitigate_text", .null),
    ("blast_radius", .obj [("qualitative", .null), ("quantitative", .arr [])]),
    ("mitigations", .arr []),
    ("remediations", .arr [])]

theorem correction_agrees_cloudflare :
    CorrectionAgrees .ascii "publisher_org" (.str "Cloudflare") (sparseRecord "Acme") ↔
      ¬ ("publisher_org" ∈ nonemptyFields ∧ Json.str "Cloudflare" = .str "") :=
  correction_agrees_iff .ascii (by decide) _ ⟨.obj (sparseRecord "Acme"), rfl⟩

/-- An empty title passes as a correction, and the record refuses it. -/
theorem correction_disagrees_title :
    ¬ ∀ field ∈ recordFields, ∀ v r,
      (∃ out, incidentRecord.validate (validators .ascii) (.obj r) = .ok out) →
        CorrectionAgrees .ascii field v r := by
  intro h
  have hvalid : ∃ out,
      incidentRecord.validate (validators .ascii) (.obj (sparseRecord "Acme")) = .ok out :=
    ⟨.obj (sparseRecord "Acme"), rfl⟩
  obtain ⟨together, _⟩ := h "title" (by decide) (.str "") _ hvalid
  obtain ⟨out, hout⟩ := together.mp ⟨.str "", rfl⟩
  have hrefused : incidentRecord.validate (validators .ascii)
      (.obj ((sparseRecord "Acme").set "title" (.str ""))) =
        .error [⟨[.key "title"], "String should have at least 1 character"⟩] := rfl
  cases hrefused.symm.trans hout

end IncidentPipeline
