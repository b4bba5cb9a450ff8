import IncidentPipeline.Review.Forms

/-!
# The correction form and its value

Which values survive the page: `parse` after `encode` after `bind`. Input names are
paths, so the entries of one part of a form are the keys under its name, and parts
with different segments under one name have no key in common. `Stable` describes the
values that the parser returns, and these are exactly the ones that survive.
-/

namespace IncidentPipeline

open Python Pydantic

/-! ### Names -/

/-- `key` is `name` itself or a path below it. -/
def Under (name key : String) : Prop := key = name ∨ (name.toList ++ ['.']) <+: key.toList

/-- No dot, so that a name holds the segment whole. -/
def Segment (s : String) : Prop := '.' ∉ s.toList

instance (s : String) : Decidable (Segment s) := inferInstanceAs (Decidable ('.' ∉ s.toList))

/-- Two names with no key under both. -/
def Apart (a b : String) : Prop := ∀ key, Under a key → ¬ Under b key

theorem toList_dotted (name segment : String) :
    (dotted name segment).toList = name.toList ++ '.' :: segment.toList := by
  simp [dotted]

theorem Under.self (name : String) : Under name name := .inl rfl

/-- A key under a longer name, spelled out. -/
theorem under_dotted_iff {name segment key : String} :
    Under (dotted name segment) key ↔
      ∃ rest, (rest = [] ∨ rest.head? = some '.') ∧
        key.toList = name.toList ++ '.' :: (segment.toList ++ rest) := by
  constructor
  · intro h
    cases h with
    | inl same => exact ⟨[], .inl rfl, by simp [same, toList_dotted]⟩
    | inr below =>
        obtain ⟨rest, hrest⟩ := below
        refine ⟨'.' :: rest, .inr rfl, ?_⟩
        rw [← hrest, toList_dotted]
        simp
  · intro ⟨rest, hrest, hkey⟩
    cases rest with
    | nil =>
        left
        rw [← String.toList_inj, hkey, toList_dotted]
        simp
    | cons c rest =>
        have hc : c = '.' := by simpa using hrest
        subst hc
        exact .inr ⟨rest, by rw [hkey, toList_dotted]; simp⟩

theorem Under.of_dotted {name segment key : String} (h : Under (dotted name segment) key) :
    Under name key := by
  obtain ⟨rest, _, hkey⟩ := under_dotted_iff.mp h
  exact .inr ⟨segment.toList ++ rest, by rw [hkey]; simp⟩

theorem Under.ne_of_dotted {name segment key : String} (h : Under (dotted name segment) key) :
    key ≠ name := by
  obtain ⟨rest, _, hkey⟩ := under_dotted_iff.mp h
  intro same
  have hlen := congrArg List.length hkey
  simp only [same, List.length_append, List.length_cons] at hlen
  omega

private theorem takeWhile_exact {p : Char → Bool} {cs rest : List Char}
    (inside : ∀ c ∈ cs, p c = true) (boundary : ∀ c ∈ rest.head?, p c = false) :
    (cs ++ rest).takeWhile p = cs := by
  rw [List.takeWhile_append_of_pos inside]
  cases rest with
  | nil => simp
  | cons c rest => simp [boundary c (by simp)]

private theorem segment_takeWhile {cs rest : List Char} (h : '.' ∉ cs)
    (hrest : rest = [] ∨ rest.head? = some '.') : (cs ++ rest).takeWhile (· ≠ '.') = cs := by
  apply takeWhile_exact
  · intro c hc
    simpa using fun same : c = '.' => h (same ▸ hc)
  · intro c hc
    cases hrest with
    | inl hnil => simp [hnil] at hc
    | inr hdot =>
        rw [hdot] at hc
        cases hc
        decide

/-- Different segments under one name have no key in common. -/
theorem apart_dotted {name a b : String} (ha : Segment a) (hb : Segment b) (hne : a ≠ b) :
    Apart (dotted name a) (dotted name b) := by
  intro key hkeya hkeyb
  obtain ⟨resta, ra, hka⟩ := under_dotted_iff.mp hkeya
  obtain ⟨restb, rb, hkb⟩ := under_dotted_iff.mp hkeyb
  have hsame : a.toList ++ resta = b.toList ++ restb := by
    have := hka.symm.trans hkb
    simpa using this
  have hcs := congrArg (List.takeWhile (· ≠ '.')) hsame
  rw [segment_takeWhile ha ra, segment_takeWhile hb rb] at hcs
  exact hne (String.toList_inj.mp hcs)

theorem segment_repr (n : Nat) : Segment (Nat.repr n) := by
  intro h
  exact absurd (isDigit_of_mem_repr h) (by decide)

/-- The row index of a key under a row's name is that row's. -/
theorem rowIndex?_of_under {name key : String} {i : Nat}
    (h : Under (dotted name (Nat.repr i)) key) :
    rowIndex? name key = if key = dotted name (Nat.repr i) then none else some i := by
  obtain ⟨rest, hrest, hkey⟩ := under_dotted_iff.mp h
  have hprefix : (name ++ ".").toList.isPrefixOf key.toList = true := by
    rw [List.isPrefixOf_iff_prefix]
    exact ⟨(Nat.repr i).toList ++ rest, by rw [hkey]; simp⟩
  have hdrop : key.toList.drop (name ++ ".").toList.length = (Nat.repr i).toList ++ rest := by
    rw [hkey]
    simp
  have hdigits : ((Nat.repr i).toList ++ rest).takeWhile isDigit = (Nat.repr i).toList := by
    refine takeWhile_exact (fun c hc => isDigit_of_mem_repr hc) ?_
    intro c hc
    cases hrest with
    | inl hnil => simp [hnil] at hc
    | inr hdot =>
        rw [hdot] at hc
        cases hc
        decide
  have hnonempty : (Nat.repr i).toList ≠ [] := by
    rw [Nat.toList_repr]
    exact Nat.toDigits_ne_nil
  simp only [rowIndex?, hprefix, if_true, hdrop, hdigits, List.drop_left, intOfDigits_repr]
  have hkey' : key = dotted name (Nat.repr i) ↔ rest = [] := by
    rw [← String.toList_inj, hkey, toList_dotted]
    simp
  cases hrest with
  | inl hnil => simp [hkey', hnil]
  | inr hdot =>
      have hne : rest ≠ [] := by
        intro hnil
        simp [hnil] at hdot
      rw [if_pos ⟨hnonempty, hdot⟩, if_neg (by rw [hkey']; exact hne)]

/-- A key with a row index lies under the form's name. -/
theorem under_of_rowIndex? {name key : String} {i : Nat} (h : rowIndex? name key = some i) :
    Under name key := by
  simp only [rowIndex?] at h
  split at h
  · next hprefix =>
      obtain ⟨rest, hrest⟩ := List.isPrefixOf_iff_prefix.mp hprefix
      exact .inr ⟨rest, by rw [← hrest]; simp⟩
  · cases h

/-! ### The submitted entries -/

def Bound.name : Bound → String
  | .input _ _ name _ => name
  | .lines name _ => name
  | .object _ name _ _ => name
  | .rows name _ => name

/-- The parts of a bound form have names of their own, one segment below the whole. -/
def Bound.Tidy : Bound → Prop
  | .object _ name _ children => TidyParts name children
  | .rows name parts => TidyParts name parts
  | _ => True
where
  TidyParts : String → List Bound → Prop
    | _, [] => True
    | name, b :: rest =>
        b.Tidy ∧
          (∃ segment, b.name = dotted name segment ∧ Segment segment ∧ segment ≠ "null") ∧
          (∀ c ∈ rest, Apart b.name c.name) ∧ TidyParts name rest

theorem tidy_of_mem {name : String} {bounds : List Bound} {b : Bound}
    (h : Bound.Tidy.TidyParts name bounds) (member : b ∈ bounds) : b.Tidy := by
  induction bounds with
  | nil => cases member
  | cons c rest ih =>
      cases List.mem_cons.mp member with
      | inl same => exact same ▸ h.1
      | inr later => exact ih h.2.2.2 later

theorem keys_encodeAll_nodup {rt : Runtime} {acc : Dict String} (h : (Dict.keys acc).Nodup)
    (bounds : List Bound) : (Dict.keys (encode.encodeAll rt acc bounds)).Nodup := by
  induction bounds generalizing acc with
  | nil => exact h
  | cons b rest ih => exact ih (Dict.keys_update_nodup h _)

private theorem keys_toggle_nodup (name : String) (on : Bool) :
    (Dict.keys (if on then [(dotted name "null", "1")] else [])).Nodup := by
  cases on <;> simp [Dict.keys]

theorem keys_encode_nodup (rt : Runtime) (b : Bound) : (Dict.keys (encode rt b)).Nodup := by
  cases b with
  | input kind nullable name value =>
      cases kind with
      | bool => simp [encode, Dict.keys]
      | _ => exact Dict.keys_set_nodup (keys_toggle_nodup name _) _ _
  | lines name value => simp [encode, Dict.keys]
  | object nullable name isNull children =>
      exact keys_encodeAll_nodup (keys_toggle_nodup name _) children
  | rows name rows => exact keys_encodeAll_nodup (by simp [Dict.keys]) rows

theorem mem_keys_encodeAll {rt : Runtime} {acc : Dict String} {bounds : List Bound}
    {key : String} :
    key ∈ Dict.keys (encode.encodeAll rt acc bounds) ↔
      key ∈ Dict.keys acc ∨ ∃ b ∈ bounds, key ∈ Dict.keys (encode rt b) := by
  induction bounds generalizing acc with
  | nil => simp [encode.encodeAll]
  | cons b rest ih =>
      rw [encode.encodeAll, ih, Dict.mem_keys_update]
      simp [or_assoc]

private theorem under_of_mem_toggle {name key : String} {on : Bool}
    (h : key ∈ Dict.keys (if on then [(dotted name "null", "1")] else [])) :
    key = dotted name "null" := by
  cases on with
  | false => simp [Dict.keys] at h
  | true => simpa [Dict.keys] using h

mutual

/-- The entries of a bound form lie under its name. -/
theorem under_of_mem_encode {rt : Runtime} :
    ∀ {b : Bound} {key : String}, b.Tidy → key ∈ Dict.keys (encode rt b) → Under b.name key
  | .input kind nullable name value, key, _, h => by
      cases kind with
      | bool => exact .inl (List.mem_singleton.mp h)
      | _ =>
          simp only [encode] at h
          cases (Dict.mem_keys_set _ _ _ _).mp h with
          | inl same => exact .inl same
          | inr toggle => exact (under_of_mem_toggle toggle) ▸ (Under.self _).of_dotted
  | .lines name value, key, _, h => .inl (List.mem_singleton.mp h)
  | .object nullable name isNull children, key, tidy, h => by
      rw [encode] at h
      cases mem_keys_encodeAll.mp h with
      | inl toggle => exact (under_of_mem_toggle toggle) ▸ (Under.self _).of_dotted
      | inr part =>
          obtain ⟨b, hb, hkey⟩ := part
          exact under_of_mem_part tidy hb hkey
  | .rows name rows, key, tidy, h => by
      rw [encode] at h
      cases mem_keys_encodeAll.mp h with
      | inl impossible => simp [Dict.keys] at impossible
      | inr part =>
          obtain ⟨b, hb, hkey⟩ := part
          exact under_of_mem_part tidy hb hkey

theorem under_of_mem_part {rt : Runtime} :
    ∀ {bounds : List Bound} {name key : String} {b : Bound},
      Bound.Tidy.TidyParts name bounds → b ∈ bounds → key ∈ Dict.keys (encode rt b) →
        Under name key
  | c :: rest, name, key, b, tidy, member, h => by
      obtain ⟨hc, ⟨segment, hname, _, _⟩, _, hrest⟩ := tidy
      cases List.mem_cons.mp member with
      | inl same =>
          have hunder := under_of_mem_encode hc (same ▸ h)
          rw [hname] at hunder
          exact hunder.of_dotted
      | inr later => exact under_of_mem_part hrest later h

end

/-- Where no part has an entry, the entries before the parts stand. -/
theorem get?_encodeAll_of_notMem {rt : Runtime} {acc : Dict String} {bounds : List Bound}
    {key : String} (h : ∀ b ∈ bounds, key ∉ Dict.keys (encode rt b)) :
    Dict.get? (encode.encodeAll rt acc bounds) key = Dict.get? acc key := by
  induction bounds generalizing acc with
  | nil => rfl
  | cons b rest ih =>
      have habsent := (Dict.get?_eq_none_iff _ key).mpr (h b (by simp))
      rw [encode.encodeAll, ih (fun c hc => h c (by simp [hc])),
        Dict.get?_update (keys_encode_nodup rt b), habsent]
      rfl

/-- Under the name of one part the whole form has just that part's entries. -/
theorem get?_encodeAll {rt : Runtime} {acc : Dict String} {bounds : List Bound} {b : Bound}
    {name key : String} (tidy : Bound.Tidy.TidyParts name bounds) (member : b ∈ bounds)
    (hkey : Under b.name key) (fresh : Dict.get? acc key = none) :
    Dict.get? (encode.encodeAll rt acc bounds) key = Dict.get? (encode rt b) key := by
  induction bounds generalizing acc with
  | nil => cases member
  | cons c rest ih =>
      obtain ⟨hc, _, hapart, hrest⟩ := tidy
      rw [encode.encodeAll]
      cases List.mem_cons.mp member with
      | inl same =>
          subst same
          rw [get?_encodeAll_of_notMem, Dict.get?_update (keys_encode_nodup rt b), fresh,
            Option.or_none]
          intro d hd hmem
          exact hapart d hd key hkey (under_of_mem_encode (tidy_of_mem hrest hd) hmem)
      | inr later =>
          refine ih hrest later ?_
          have habsent : key ∉ Dict.keys (encode rt c) := by
            intro hmem
            exact hapart b later key (under_of_mem_encode hc hmem) hkey
          rw [Dict.get?_update (keys_encode_nodup rt c), (Dict.get?_eq_none_iff _ key).mpr habsent,
            fresh, Option.none_or]

/-! ### Forms as they are built -/

def Spec.isInput : Spec → Bool
  | .input _ _ _ => true
  | _ => false

/-- Labels are distinct segments other than `null`, options are texts that the parser
leaves alone, and every row of a list has an input, so that it is submitted. -/
def Spec.wellFormed : Spec → Bool
  | .input (.select options) _ _ => options.all fun option => strip option = option && option ≠ ""
  | .input _ _ _ => true
  | .lines _ _ => true
  | .object _ _ children => wellFormedAll children
  | .rows _ _ row => row.wellFormed && row.children.any Spec.isInput
where
  wellFormedAll : List Spec → Bool
    | [] => true
    | c :: rest =>
        decide (Segment c.label) && c.label ≠ "null" && rest.all (·.label ≠ c.label) &&
          c.wellFormed && wellFormedAll rest

theorem wellFormedAll_cons {c : Spec} {rest : List Spec} :
    Spec.wellFormed.wellFormedAll (c :: rest) = true ↔
      Segment c.label ∧ c.label ≠ "null" ∧ (∀ d ∈ rest, d.label ≠ c.label) ∧
        c.wellFormed = true ∧ Spec.wellFormed.wellFormedAll rest = true := by
  simp [Spec.wellFormed.wellFormedAll, and_assoc]

@[simp] theorem bind_name (rt : Runtime) (spec : Spec) (name : String) (v : Json) :
    (bind rt spec name v).name = name := by
  cases spec <;> rfl

theorem mem_bindMembers {rt : Runtime} {children : List Spec} {name : String}
    {members : Dict Json} {b : Bound} :
    b ∈ bind.bindMembers rt children name members ↔
      ∃ c ∈ children,
        b = bind rt c (dotted name c.label) ((Dict.get? members c.label).getD .null) := by
  induction children with
  | nil => simp [bind.bindMembers]
  | cons c rest ih => simp [bind.bindMembers, ih]

theorem repr_injective {i j : Nat} (h : Nat.repr i = Nat.repr j) : i = j := by
  rw [← intOfDigits_repr i, h, intOfDigits_repr]

theorem repr_ne_null (i : Nat) : Nat.repr i ≠ "null" := by
  intro h
  have hdigit := isDigit_of_mem_repr (n := i) (c := 'n') (by rw [h]; decide)
  exact absurd hdigit (by decide)

/-- The rows of a list as they are bound, from row `k` on. -/
def bindRows (rt : Runtime) (row : Spec) (name : String) (items : List Json) (k : Nat) :
    List Bound :=
  (items.zipIdx k).map fun item => bind rt row (dotted name (Nat.repr item.2)) item.1

theorem mem_bindRows {rt : Runtime} {row : Spec} {name : String} {items : List Json} {k : Nat}
    {b : Bound} :
    b ∈ bindRows rt row name items k ↔
      ∃ i, ∃ h : i < items.length, b = bind rt row (dotted name (Nat.repr (k + i))) items[i] := by
  induction items generalizing k with
  | nil => simp [bindRows]
  | cons item rest ih =>
      have hcons : bindRows rt row name (item :: rest) k =
          bind rt row (dotted name (Nat.repr k)) item :: bindRows rt row name rest (k + 1) := rfl
      rw [hcons, List.mem_cons, ih]
      constructor
      · intro h
        cases h with
        | inl first => exact ⟨0, by simp, by simpa using first⟩
        | inr later =>
            obtain ⟨i, hi, hb⟩ := later
            refine ⟨i + 1, by simpa using hi, ?_⟩
            rw [hb, Nat.add_right_comm]
            rfl
      · intro ⟨i, hi, hb⟩
        cases i with
        | zero => exact .inl (by simpa using hb)
        | succ i =>
            refine .inr ⟨i, by simpa using hi, ?_⟩
            rw [hb, Nat.add_right_comm]
            rfl

mutual

theorem bind_tidy (rt : Runtime) :
    ∀ (spec : Spec) (name : String) (v : Json), spec.wellFormed = true →
      (bind rt spec name v).Tidy
  | .input _ _ _, _, _, _ => trivial
  | .lines _ _, _, _, _ => trivial
  | .object _ _ children, name, v, wf => bindMembers_tidy rt children name (membersOf v) wf
  | .rows label nullable row, name, v, wf => by
      have hrow : row.wellFormed = true := by
        simp only [Spec.wellFormed, Bool.and_eq_true] at wf
        exact wf.1
      exact bindRows_tidy rt row name (itemsOf v) 0 (fun n w => bind_tidy rt row n w hrow)

theorem bindMembers_tidy (rt : Runtime) :
    ∀ (children : List Spec) (name : String) (members : Dict Json),
      Spec.wellFormed.wellFormedAll children = true →
        Bound.Tidy.TidyParts name (bind.bindMembers rt children name members)
  | [], _, _, _ => trivial
  | c :: rest, name, members, wf => by
      obtain ⟨hsegment, hnull, hdistinct, hc, hrest⟩ := wellFormedAll_cons.mp wf
      refine ⟨bind_tidy rt c _ _ hc, ⟨c.label, bind_name .., hsegment, hnull⟩, ?_,
        bindMembers_tidy rt rest name members hrest⟩
      intro b hb
      obtain ⟨d, hd, rfl⟩ := mem_bindMembers.mp hb
      rw [bind_name, bind_name]
      refine apart_dotted hsegment ?_ (fun same => hdistinct d hd same.symm)
      exact wellFormedAll_segment rest hrest d hd

theorem wellFormedAll_segment :
    ∀ (children : List Spec), Spec.wellFormed.wellFormedAll children = true →
      ∀ c ∈ children, Segment c.label
  | c :: rest, wf, d, hd => by
      obtain ⟨hsegment, _, _, _, hrest⟩ := wellFormedAll_cons.mp wf
      cases List.mem_cons.mp hd with
      | inl same => exact same ▸ hsegment
      | inr later => exact wellFormedAll_segment rest hrest d later

theorem bindRows_tidy (rt : Runtime) (row : Spec) (name : String) :
    ∀ (items : List Json) (k : Nat), (∀ n w, (bind rt row n w).Tidy) →
      Bound.Tidy.TidyParts name (bindRows rt row name items k)
  | [], _, _ => trivial
  | item :: rest, k, tidy => by
      refine ⟨tidy _ _, ⟨Nat.repr k, bind_name .., segment_repr k, repr_ne_null k⟩, ?_,
        bindRows_tidy rt row name rest (k + 1) tidy⟩
      intro b hb
      obtain ⟨i, _, rfl⟩ := mem_bindRows.mp hb
      rw [bind_name, bind_name]
      refine apart_dotted (segment_repr k) (segment_repr _) ?_
      intro same
      have := repr_injective same
      omega

end

/-! ### Parsing looks only below the name -/

theorem nullToggled_congr {name : String} {d e : Dict String}
    (agree : ∀ key, Under name key → Dict.get? d key = Dict.get? e key) :
    nullToggled d name = nullToggled e name := by
  rw [nullToggled, agree _ (Under.self _).of_dotted, nullToggled]

mutual

theorem parse_congr :
    ∀ (spec : Spec) {name : String} {d e : Dict String},
      (∀ key, Under name key → Dict.get? d key = Dict.get? e key) →
        parse spec name d = parse spec name e
  | .input kind _ nullable, name, d, e, agree => by
      have htext : textOf d name = textOf e name := by
        rw [textOf, agree name (Under.self name), textOf]
      simp only [parse, nullToggled_congr agree, htext]
  | .lines _ _, name, d, e, agree => by
      simp only [parse, agree name (Under.self name)]
  | .object _ nullable children, name, d, e, agree => by
      simp only [parse, nullToggled_congr agree, parseMembers_congr children agree]
  | .rows _ _ row, name, d, e, agree => by
      have hindices : rowIndices name d = rowIndices name e := by
        have hset : ((Dict.keys d).filterMap (rowIndex? name)).toFinset =
            ((Dict.keys e).filterMap (rowIndex? name)).toFinset := by
          ext i
          have hmem : ∀ key, rowIndex? name key = some i →
              (key ∈ Dict.keys d ↔ key ∈ Dict.keys e) := by
            intro key hkey
            rw [← Dict.isSome_get?_iff, ← Dict.isSome_get?_iff,
              agree key (under_of_rowIndex? hkey)]
          simp only [List.mem_toFinset, List.mem_filterMap]
          constructor
          · intro ⟨key, hkey, hindex⟩
            exact ⟨key, (hmem key hindex).mp hkey, hindex⟩
          · intro ⟨key, hkey, hindex⟩
            exact ⟨key, (hmem key hindex).mpr hkey, hindex⟩
        rw [rowIndices, hset, rowIndices]
      have hrow : ∀ i, parse row (dotted name (Nat.repr i)) d =
          parse row (dotted name (Nat.repr i)) e :=
        fun i => parse_congr row fun key hkey => agree key hkey.of_dotted
      simp only [parse, hindices, hrow]

theorem parseMembers_congr :
    ∀ (children : List Spec) {name : String} {d e : Dict String},
      (∀ key, Under name key → Dict.get? d key = Dict.get? e key) →
        parse.parseMembers children name d = parse.parseMembers children name e
  | [], _, _, _, _ => rfl
  | c :: rest, name, d, e, agree => by
      rw [parse.parseMembers, parse.parseMembers, parseMembers_congr rest agree,
        parse_congr c fun key hkey => agree key hkey.of_dotted]

end

/-! ### The values that survive -/

/-- What the parser returns for a form: texts without surrounding white space, an
empty one only where the value cannot be null; lines that are one line each, with
something on it; rows with something in them. -/
def Spec.Stable : Spec → Json → Prop
  | .input kind _ nullable, v =>
      (nullable = true ∧ v = .null) ∨
        match kind with
        | .bool => v = .null ∨ ∃ b, v = .bool b
        | _ => ∃ s, v = .str s ∧ strip s = s ∧ (nullable = true → s ≠ "")
  | .lines _ _, v =>
      ∃ items : List String, v = .arr (items.map .str) ∧
        ∀ item ∈ items, strip item = item ∧ item ≠ "" ∧ ∀ c ∈ item.toList, isLineBreak c = false
  | .object _ nullable children, v =>
      (nullable = true ∧ v = .null) ∨ ∃ members, v = .obj members ∧ StableMembers children members
  | .rows _ _ row, v =>
      ∃ items, v = .arr items ∧ ∀ item ∈ items, row.Stable item ∧ isBlankRow row item = false
where
  StableMembers : List Spec → Dict Json → Prop
    | [], members => members = []
    | c :: rest, members =>
        ∃ w tail, members = (c.label, w) :: tail ∧ c.Stable w ∧ StableMembers rest tail

theorem isLineBreak_of_mem_strip {s : String} (h : ∀ c ∈ s.toList, isLineBreak c = false) :
    ∀ c ∈ (strip s).toList, isLineBreak c = false := by
  intro c hc
  apply h
  rw [strip, String.toList_ofList, stripChars] at hc
  have hfront : c ∈ s.toList.dropWhile isSpace := by
    simpa using (List.dropWhile_sublist isSpace).subset (List.mem_reverse.mp hc)
  exact (List.dropWhile_sublist isSpace).subset hfront

mutual

/-- Whatever was submitted, the parser returns a stable value. -/
theorem stable_parse :
    ∀ (spec : Spec) (name : String) (data : Dict String), spec.Stable (parse spec name data)
  | .input kind _ nullable, name, data => by
      rw [parse]
      split
      · next toggled =>
          have hnullable : nullable = true := by
            simp only [Bool.and_eq_true] at toggled
            exact toggled.1
          exact .inl ⟨hnullable, rfl⟩
      · cases kind with
        | bool =>
            right
            simp only
            split
            · exact .inr ⟨true, rfl⟩
            · split
              · exact .inr ⟨false, rfl⟩
              · exact .inl rfl
        | _ =>
            simp only
            split
            · next empty =>
                simp only [Bool.and_eq_true, decide_eq_true_eq] at empty
                exact .inl ⟨empty.2, rfl⟩
            · next filled =>
                right
                refine ⟨textOf data name, rfl, strip_strip _, ?_⟩
                intro hnullable hempty
                simp [hempty, hnullable] at filled
  | .lines _ _, name, data => by
      refine ⟨_, rfl, ?_⟩
      intro item hitem
      rw [List.mem_filter] at hitem
      obtain ⟨line, hline, rfl⟩ := List.mem_map.mp hitem.1
      refine ⟨strip_strip line, by simpa using hitem.2, ?_⟩
      exact isLineBreak_of_mem_strip (isLineBreak_of_mem_splitlines hline)
  | .object _ nullable children, name, data => by
      rw [parse]
      split
      · next toggled =>
          have hnullable : nullable = true := by
            simp only [Bool.and_eq_true] at toggled
            exact toggled.1
          exact .inl ⟨hnullable, rfl⟩
      · exact .inr ⟨_, rfl, stable_parseMembers children name data⟩
  | .rows _ _ row, name, data => by
      refine ⟨_, rfl, ?_⟩
      intro item hitem
      rw [List.mem_filter] at hitem
      obtain ⟨i, _, rfl⟩ := List.mem_map.mp hitem.1
      exact ⟨stable_parse row _ data, by simpa using hitem.2⟩

theorem stable_parseMembers :
    ∀ (children : List Spec) (name : String) (data : Dict String),
      Spec.Stable.StableMembers children (parse.parseMembers children name data)
  | [], _, _ => rfl
  | c :: rest, name, data =>
      ⟨_, _, rfl, stable_parse c _ data, stable_parseMembers rest name data⟩

end

theorem dotted_null_ne (name : String) : dotted name "null" ≠ name :=
  (Under.self (dotted name "null")).ne_of_dotted

theorem parse_encode_input (rt : Runtime) (kind : InputKind) (label : String) (nullable : Bool)
    (name : String) {v : Json} (stable : (Spec.input kind label nullable).Stable v) :
    parse (.input kind label nullable) name
      (encode rt (bind rt (.input kind label nullable) name v)) = v := by
  have hne : ¬ name = dotted name "null" := fun same => dotted_null_ne name same.symm
  have empty : strip "" = "" := by decide
  cases stable with
  | inl absent =>
      obtain ⟨hnullable, rfl⟩ := absent
      cases kind with
      | bool =>
          simp [bind, encode, parse, nullToggled, textOf, Dict.get?_cons, hne, empty]
      | _ =>
          simp [bind, encode, parse, nullToggled, hnullable, isNone, Dict.get?_set, hne]
  | inr present =>
      cases kind with
      | bool =>
          have htrue : strip "true" = "true" := by decide
          have hfalse : strip "false" = "false" := by decide
          cases present with
          | inl hnull =>
              simp [bind, encode, parse, nullToggled, textOf, Dict.get?_cons, hne, empty, hnull]
          | inr hbool =>
              obtain ⟨b, rfl⟩ := hbool
              cases b <;>
                simp [bind, encode, parse, nullToggled, textOf, Dict.get?_cons, hne, htrue, hfalse]
      | _ =>
          obtain ⟨s, rfl, hstrip, hfilled⟩ := present
          have hgiven : ¬ (s = "" ∧ nullable = true) := fun both => hfilled both.2 both.1
          simp [bind, encode, parse, nullToggled, textOf, isNone, Runtime.strOf, Dict.set,
            Dict.get?_cons, hne, hstrip, hgiven]

theorem parse_encode_lines (rt : Runtime) (label : String) (nullable : Bool) (name : String)
    {v : Json} (stable : (Spec.lines label nullable).Stable v) :
    parse (.lines label nullable) name (encode rt (bind rt (.lines label nullable) name v)) = v := by
  obtain ⟨items, rfl, hitems⟩ := stable
  have htexts : (items.map Json.str).map rt.strOf = items := by
    rw [List.map_map]
    exact List.map_id' items
  have hlines : splitlines (String.intercalate "\n" items) = items :=
    splitlines_intercalate (fun item h => (hitems item h).2.2) (fun item h => (hitems item h).2.1)
  have hstrip : items.map strip = items := by
    conv_rhs => rw [← List.map_id items]
    exact List.map_congr_left fun item h => (hitems item h).1
  have hfilter : items.filter (· ≠ "") = items := by
    rw [List.filter_eq_self]
    exact fun item h => by simpa using (hitems item h).2.1
  simp only [bind, encode, parse, itemsOf, htexts, Dict.get?_cons_self, Option.getD_some, hlines,
    hstrip, hfilter]

/-- An input of an object is always submitted. -/
theorem mem_keys_encode_input {rt : Runtime} {spec c : Spec} {name : String} {v : Json}
    (hc : c ∈ spec.children) (hinput : c.isInput = true) :
    dotted name c.label ∈ Dict.keys (encode rt (bind rt spec name v)) := by
  cases spec with
  | object label nullable children =>
      refine mem_keys_encodeAll.mpr (.inr ⟨_, mem_bindMembers.mpr ⟨c, hc, rfl⟩, ?_⟩)
      cases c with
      | input kind label nullable =>
          cases kind with
          | bool => exact List.mem_singleton.mpr rfl
          | _ => exact (Dict.mem_keys_set _ _ _ _).mpr (.inl rfl)
      | _ => cases hinput
  | _ => cases hc

/-- The rows that were bound are the rows that are found. -/
theorem rowIndices_encode {rt : Runtime} {row : Spec} {name : String} {items : List Json}
    (wf : row.wellFormed = true) (hinput : row.children.any Spec.isInput = true) :
    rowIndices name (encode.encodeAll rt [] (bindRows rt row name items 0)) =
      List.range items.length := by
  rw [rowIndices, ← Finset.sort_range]
  congr 1
  ext i
  simp only [List.mem_toFinset, List.mem_filterMap, Finset.mem_range]
  constructor
  · intro ⟨key, hkey, hindex⟩
    cases mem_keys_encodeAll.mp hkey with
    | inl impossible => simp [Dict.keys] at impossible
    | inr part =>
        obtain ⟨b, hb, hmem⟩ := part
        obtain ⟨j, hj, rfl⟩ := mem_bindRows.mp hb
        have hunder := under_of_mem_encode (bind_tidy rt row _ _ wf) hmem
        rw [bind_name] at hunder
        have := rowIndex?_of_under hunder
        rw [hindex] at this
        split at this
        · cases this
        · cases this
          simpa using hj
  · intro hi
    have hbound : bind rt row (dotted name (Nat.repr i)) items[i] ∈ bindRows rt row name items 0 :=
      mem_bindRows.mpr ⟨i, hi, by rw [Nat.zero_add]⟩
    obtain ⟨c, hc, hcinput⟩ := List.any_eq_true.mp hinput
    refine ⟨dotted (dotted name (Nat.repr i)) c.label, ?_, ?_⟩
    · refine mem_keys_encodeAll.mpr (.inr ⟨_, hbound, ?_⟩)
      exact mem_keys_encode_input hc hcinput
    · have hunder : Under (dotted name (Nat.repr i)) (dotted (dotted name (Nat.repr i)) c.label) :=
        (Under.self _).of_dotted
      rw [rowIndex?_of_under hunder, if_neg (Under.self _).ne_of_dotted]

theorem stableMembers_labels {children : List Spec} {members : Dict Json}
    (h : Spec.Stable.StableMembers children members) :
    Dict.keys members = children.map Spec.label := by
  induction children generalizing members with
  | nil => rw [show members = [] from h]; rfl
  | cons c rest ih =>
      obtain ⟨w, tail, rfl, _, htail⟩ := h
      have := ih htail
      simp only [Dict.keys, List.map_cons] at this ⊢
      rw [this]

theorem wellFormedAll_nodup {children : List Spec}
    (h : Spec.wellFormed.wellFormedAll children = true) : (children.map Spec.label).Nodup := by
  induction children with
  | nil => simp
  | cons c rest ih =>
      obtain ⟨_, _, hdistinct, _, hrest⟩ := wellFormedAll_cons.mp h
      rw [List.map_cons, List.nodup_cons]
      refine ⟨?_, ih hrest⟩
      intro hmem
      obtain ⟨d, hd, hlabel⟩ := List.mem_map.mp hmem
      exact hdistinct d hd hlabel

/-- No part of an object uses the name of its null toggle. -/
theorem null_notMem_part {rt : Runtime} {children : List Spec} {name : String}
    {members : Dict Json} (wf : Spec.wellFormed.wellFormedAll children = true) :
    ∀ b ∈ bind.bindMembers rt children name members,
      dotted name "null" ∉ Dict.keys (encode rt b) := by
  intro b hb hmem
  have tidy := bindMembers_tidy rt children name members wf
  have hunder := under_of_mem_encode (tidy_of_mem tidy hb) hmem
  obtain ⟨c, hc, rfl⟩ := mem_bindMembers.mp hb
  rw [bind_name] at hunder
  have hlabel : c.label ≠ "null" := by
    clear hb hmem hunder tidy
    induction children with
    | nil => cases hc
    | cons d rest ih =>
        obtain ⟨_, hnull, _, _, hrest⟩ := wellFormedAll_cons.mp wf
        cases List.mem_cons.mp hc with
        | inl same => exact same ▸ hnull
        | inr later => exact ih hrest later
  exact apart_dotted (wellFormedAll_segment children wf c hc) (by decide) hlabel _ hunder
    (Under.self _)

mutual

/-- A stable value comes back from the untouched form. -/
theorem parse_encode_bind (rt : Runtime) :
    ∀ (spec : Spec) (name : String) {v : Json}, spec.wellFormed = true → spec.Stable v →
      parse spec name (encode rt (bind rt spec name v)) = v
  | .input kind label nullable, name, v, _, stable =>
      parse_encode_input rt kind label nullable name stable
  | .lines label nullable, name, v, _, stable =>
      parse_encode_lines rt label nullable name stable
  | .object label nullable children, name, v, wf, stable => by
      cases stable with
      | inl absent =>
          obtain ⟨hnullable, rfl⟩ := absent
          have htoggle : Dict.get?
              (encode rt (bind rt (.object label nullable children) name .null))
              (dotted name "null") = some "1" := by
            simp only [bind, encode, hnullable, isNone, Bool.and_true, if_true]
            rw [get?_encodeAll_of_notMem (null_notMem_part wf), Dict.get?_cons_self]
          rw [parse, nullToggled, htoggle]
          simp [hnullable]
      | inr present =>
          obtain ⟨members, rfl, hmembers⟩ := present
          have htoggle : Dict.get? (encode rt
              (bind rt (.object label nullable children) name (.obj members)))
                (dotted name "null") = none := by
            simp only [bind, encode, isNone, Bool.and_false]
            rw [get?_encodeAll_of_notMem (null_notMem_part wf)]
            rfl
          have hparts := parseMembers_encode rt children name
            (encode rt (bind rt (.object label nullable children) name (.obj members))) wf hmembers
          rw [parse, hparts]
          · simp [nullToggled, htoggle]
          · intro c w hc hw key hkey
            have hget : (Dict.get? members c.label).getD .null = w := by
              have hnodup : (Dict.keys members).Nodup := by
                rw [stableMembers_labels hmembers]
                exact wellFormedAll_nodup wf
              rw [Dict.get?_of_mem hnodup hw, Option.getD_some]
            have hpart : bind rt c (dotted name c.label) w ∈
                bind.bindMembers rt children name members :=
              mem_bindMembers.mpr ⟨c, hc, by rw [hget]⟩
            simp only [bind, encode, isNone, Bool.and_false, membersOf]
            exact get?_encodeAll (bindMembers_tidy rt children name members wf) hpart
              (by rwa [bind_name]) rfl
  | .rows label nullable row, name, v, wf, stable => by
      obtain ⟨items, rfl, hitems⟩ := stable
      simp only [Spec.wellFormed, Bool.and_eq_true] at wf
      have tidy := bindRows_tidy rt row name items 0 (fun n w => bind_tidy rt row n w wf.1)
      have hdata : encode rt (bind rt (.rows label nullable row) name (.arr items)) =
          encode.encodeAll rt [] (bindRows rt row name items 0) := rfl
      have hrows : (List.range items.length).map (fun i => parse row (dotted name (Nat.repr i))
          (encode.encodeAll rt [] (bindRows rt row name items 0))) = items := by
        apply List.ext_getElem
        · simp
        · intro i hi hi'
          have hbound : bind rt row (dotted name (Nat.repr i)) items[i] ∈
              bindRows rt row name items 0 :=
            mem_bindRows.mpr ⟨i, hi', by rw [Nat.zero_add]⟩
          have hstable := (hitems items[i] (List.getElem_mem hi')).1
          rw [List.getElem_map, List.getElem_range]
          calc parse row (dotted name (Nat.repr i))
                (encode.encodeAll rt [] (bindRows rt row name items 0))
              = parse row (dotted name (Nat.repr i))
                  (encode rt (bind rt row (dotted name (Nat.repr i)) items[i])) :=
                parse_congr row fun key hkey => get?_encodeAll tidy hbound (by rwa [bind_name]) rfl
            _ = items[i] := parse_encode_bind rt row _ wf.1 hstable
      have hkept : items.filter (fun value => !isBlankRow row value) = items := by
        rw [List.filter_eq_self]
        exact fun item h => by simp [(hitems item h).2]
      rw [hdata, parse, rowIndices_encode wf.1 wf.2, hrows, hkept]

theorem parseMembers_encode (rt : Runtime) :
    ∀ (children : List Spec) (name : String) (data : Dict String) {members : Dict Json},
      Spec.wellFormed.wellFormedAll children = true →
      Spec.Stable.StableMembers children members →
      (∀ c w, c ∈ children → (c.label, w) ∈ members → ∀ key, Under (dotted name c.label) key →
        Dict.get? data key = Dict.get? (encode rt (bind rt c (dotted name c.label) w)) key) →
      parse.parseMembers children name data = members
  | [], _, _, _, _, stable, _ => by rw [show _ = [] from stable]; rfl
  | c :: rest, name, data, members, wf, stable, agree => by
      obtain ⟨w, tail, rfl, hc, htail⟩ := stable
      obtain ⟨_, _, _, hcwf, hrest⟩ := wellFormedAll_cons.mp wf
      have hfirst : parse c (dotted name c.label) data = w :=
        calc parse c (dotted name c.label) data
            = parse c (dotted name c.label) (encode rt (bind rt c (dotted name c.label) w)) :=
              parse_congr c (agree c w (by simp) (by simp))
          _ = w := parse_encode_bind rt c _ hcwf hc
      have hlater := parseMembers_encode rt rest name data hrest htail
        (fun d u hd hu => agree d u (by simp [hd]) (by simp [hu]))
      rw [parse.parseMembers, hfirst, hlater]

end

/-- The untouched form gives back exactly the stable values. -/
theorem parse_encode_bind_iff (rt : Runtime) {spec : Spec} (wf : spec.wellFormed = true)
    (name : String) (v : Json) :
    parse spec name (encode rt (bind rt spec name v)) = v ↔ spec.Stable v :=
  ⟨fun h => h ▸ stable_parse spec name _, parse_encode_bind rt spec name wf⟩

/-! ### The values of a field -/

/-- The condition on the texts of a value: those typed into an input carry no
surrounding white space, and none is empty where the input can be null; the items of
a list of strings are not blank, carry no surrounding white space and are one line
each. -/
def Spec.Typable : Spec → Json → Prop
  | .input kind _ nullable, v =>
      match kind with
      | .bool => True
      | .select _ => True
      | _ => ∀ s, v = .str s → strip s = s ∧ (nullable = true → s ≠ "")
  | .lines _ _, v =>
      ∀ s, .str s ∈ itemsOf v →
        strip s = s ∧ s ≠ "" ∧ ∀ c ∈ s.toList, isLineBreak c = false
  | .object _ _ children, v => TypableMembers children (membersOf v)
  | .rows _ _ row, v => ∀ item ∈ itemsOf v, row.Typable item
where
  TypableMembers : List Spec → Dict Json → Prop
    | [], _ => True
    | c :: rest, members =>
        (∀ w, Dict.get? members c.label = some w → c.Typable w) ∧ TypableMembers rest members

private theorem forall₂_mem_right {α β : Type} {R : α → β → Prop} {xs : List α} {ys : List β}
    (h : List.Forall₂ R xs ys) {y : β} (hy : y ∈ ys) : ∃ x ∈ xs, R x y := by
  induction h with
  | nil => cases hy
  | cons head _ ih =>
      cases List.mem_cons.mp hy with
      | inl same => exact ⟨_, by simp, same ▸ head⟩
      | inr later =>
          obtain ⟨x, hx, hxy⟩ := ih later
          exact ⟨x, by simp [hx], hxy⟩

mutual

/-- A value that the parser's answer equals has nothing in its texts that the form
would lose. -/
theorem typable_of_pyEq :
    ∀ (spec : Spec) {w v : Json}, spec.Stable w → w.pyEq v = true → spec.Typable v
  | .input kind label nullable, w, v, stable, same => by
      have hgiven : ∀ s, (nullable = true ∧ w = .null ∨
          ∃ s, w = .str s ∧ strip s = s ∧ (nullable = true → s ≠ "")) → v = .str s →
            strip s = s ∧ (nullable = true → s ≠ "") := by
        intro s hw hv
        rw [hv] at same
        have hws := Json.pyEq_str_iff.mp same
        cases hw with
        | inl absent => simp [hws] at absent
        | inr present =>
            obtain ⟨t, ht, hstrip, hfilled⟩ := present
            cases hws.symm.trans ht
            exact ⟨hstrip, hfilled⟩
      cases kind with
      | bool => trivial
      | select options => trivial
      | text => exact fun s hv => hgiven s stable hv
      | textarea => exact fun s hv => hgiven s stable hv
  | .lines _ _, w, v, stable, same => by
      obtain ⟨items, rfl, hitems⟩ := stable
      intro s hs
      cases v with
      | arr ys =>
          rw [Json.pyEq] at same
          obtain ⟨x, hx, hxs⟩ := forall₂_mem_right (Json.pyEqItems_iff.mp same) hs
          obtain ⟨item, hitem, rfl⟩ := List.mem_map.mp hx
          cases Json.pyEq_str_iff.mp hxs
          exact hitems s hitem
      | _ => cases hs
  | .object _ nullable children, w, v, stable, same => by
      cases stable with
      | inl absent =>
          rw [absent.2] at same
          cases v with
          | obj _ => simp [Json.pyEq] at same
          | _ => exact typableMembers_nil children
      | inr present =>
          obtain ⟨members, rfl, hmembers⟩ := present
          cases v with
          | obj others =>
              rw [Json.pyEq, Bool.and_eq_true] at same
              exact typableMembers_of_pyEq children hmembers (Json.pyEqMembers_iff.mp same.2)
          | _ => exact typableMembers_nil children
  | .rows _ _ row, w, v, stable, same => by
      obtain ⟨items, rfl, hitems⟩ := stable
      intro item hitem
      cases v with
      | arr ys =>
          rw [Json.pyEq] at same
          obtain ⟨x, hx, hxy⟩ := forall₂_mem_right (Json.pyEqItems_iff.mp same) hitem
          exact typable_of_pyEq row (hitems x hx).1 hxy
      | _ => cases hitem

theorem typableMembers_of_pyEq :
    ∀ (children : List Spec) {members others : Dict Json},
      Spec.Stable.StableMembers children members →
      (∀ entry ∈ members, ∃ y, Dict.get? others entry.1 = some y ∧ entry.2.pyEq y = true) →
        Spec.Typable.TypableMembers children others
  | [], _, _, _, _ => trivial
  | c :: rest, members, others, stable, same => by
      obtain ⟨w, tail, rfl, hc, htail⟩ := stable
      refine ⟨?_, typableMembers_of_pyEq rest htail fun entry h => same entry (by simp [h])⟩
      intro u hu
      obtain ⟨y, hy, hwy⟩ := same (c.label, w) (by simp)
      cases hu.symm.trans hy
      exact typable_of_pyEq c hc hwy

theorem typableMembers_nil :
    ∀ (children : List Spec), Spec.Typable.TypableMembers children []
  | [] => trivial
  | _ :: rest => ⟨by simp, typableMembers_nil rest⟩

end

mutual

/-- Python's `==` holds of a stable value and itself. -/
theorem pyEq_self_of_stable :
    ∀ (spec : Spec) {v : Json}, spec.wellFormed = true → spec.Stable v → v.pyEq v = true
  | .input kind _ _, v, _, stable => by
      cases stable with
      | inl absent => simp [absent.2, Json.pyEq]
      | inr present =>
          cases kind with
          | bool =>
              cases present with
              | inl hnull => simp [hnull, Json.pyEq]
              | inr hbool =>
                  obtain ⟨b, rfl⟩ := hbool
                  simp [Json.pyEq]
          | _ =>
              obtain ⟨s, rfl, _⟩ := present
              simp [Json.pyEq]
  | .lines _ _, v, _, stable => by
      obtain ⟨items, rfl, _⟩ := stable
      rw [Json.pyEq, Json.pyEqItems_iff, List.forall₂_same]
      intro x hx
      obtain ⟨item, _, rfl⟩ := List.mem_map.mp hx
      simp [Json.pyEq]
  | .object _ _ children, v, wf, stable => by
      cases stable with
      | inl absent => simp [absent.2, Json.pyEq]
      | inr present =>
          obtain ⟨members, rfl, hmembers⟩ := present
          have hnodup : (Dict.keys members).Nodup := by
            rw [stableMembers_labels hmembers]
            exact wellFormedAll_nodup wf
          rw [Json.pyEq, Bool.and_eq_true, Json.pyEqMembers_iff]
          refine ⟨beq_self_eq_true _, ?_⟩
          intro entry hentry
          exact ⟨entry.2, Dict.get?_of_mem hnodup hentry,
            pyEq_self_of_stableMembers children wf hmembers entry hentry⟩
  | .rows _ _ row, v, wf, stable => by
      obtain ⟨items, rfl, hitems⟩ := stable
      simp only [Spec.wellFormed, Bool.and_eq_true] at wf
      rw [Json.pyEq, Json.pyEqItems_iff, List.forall₂_same]
      exact fun item hitem => pyEq_self_of_stable row wf.1 (hitems item hitem).1

theorem pyEq_self_of_stableMembers :
    ∀ (children : List Spec) {members : Dict Json},
      Spec.wellFormed.wellFormedAll children = true →
      Spec.Stable.StableMembers children members →
        ∀ entry ∈ members, entry.2.pyEq entry.2 = true
  | [], members, _, stable => by rw [show members = [] from stable]; simp
  | c :: rest, members, wf, stable => by
      obtain ⟨w, tail, rfl, hc, htail⟩ := stable
      obtain ⟨_, _, _, hcwf, hrest⟩ := wellFormedAll_cons.mp wf
      intro entry hentry
      cases List.mem_cons.mp hentry with
      | inl same =>
          subst same
          exact pyEq_self_of_stable c hcwf hc
      | inr later => exact pyEq_self_of_stableMembers rest hrest htail entry later

end

end IncidentPipeline
