import Mathlib.Tactic

/-!
# Text in a browser

What becomes of a text between an HTML response and a script: the parser turns the line
ends `\r\n` and `\r` into newlines and drops a newline right behind a `pre` tag, and the
script sees UTF-16 code units. Each step changes positions; the lemmas count by how much.
-/

namespace Browser

/-- A character outside the Basic Multilingual Plane. -/
def isAstral (c : Char) : Bool := 0x10000 ≤ c.toNat

/-- The UTF-16 code units of a character. -/
def charUnits (c : Char) : List ℕ :=
  if isAstral c then
    [0xd800 + (c.toNat - 0x10000) / 0x400, 0xdc00 + (c.toNat - 0x10000) % 0x400]
  else [c.toNat]

/-- A string of a script. -/
def units (cs : List Char) : List ℕ := cs.flatMap charUnits

/-- `s.slice(start, end)` for positions that are not negative. -/
def slice (s : List ℕ) (start stop : ℕ) : List ℕ := (s.drop start).take (stop - start)

/-- The line ends of an input stream. -/
def normalizeNewlines : List Char → List Char
  | [] => []
  | '\r' :: '\n' :: cs => '\n' :: normalizeNewlines cs
  | '\r' :: cs => '\n' :: normalizeNewlines cs
  | c :: cs => c :: normalizeNewlines cs

/-- The newline right behind a `pre` tag is not content. -/
def dropNewline : List Char → List Char
  | '\n' :: cs => cs
  | cs => cs

/-- The text content of a `pre` element with the given source. -/
def preContent (cs : List Char) : List Char := dropNewline (normalizeNewlines cs)

/-! ### Code units -/

@[simp] theorem units_nil : units [] = [] := rfl

@[simp] theorem units_append (cs ds : List Char) : units (cs ++ ds) = units cs ++ units ds :=
  List.flatMap_append

theorem units_cons (c : Char) (cs : List Char) : units (c :: cs) = charUnits c ++ units cs := rfl

theorem length_units (cs : List Char) : (units cs).length = cs.length + cs.countP isAstral := by
  induction cs with
  | nil => rfl
  | cons c cs ih =>
      rw [units_cons, List.length_append, ih, List.length_cons, List.countP_cons, charUnits]
      split
      · simp only [List.length_cons, List.length_nil]
        omega
      · simp only [List.length_cons, List.length_nil]
        omega

/-- Surrogates are no characters: a code unit below them is a character of the text. -/
theorem mem_units {cs : List Char} {c : Char} (low : c.toNat < 0xd800) :
    c.toNat ∈ units cs ↔ c ∈ cs := by
  have own : ∀ d : Char, c.toNat ∈ charUnits d ↔ c = d := by
    intro d
    rw [charUnits]
    split
    · next astral =>
        have large : 0x10000 ≤ d.toNat := by simpa [isAstral] using astral
        constructor
        · intro member
          obtain same | member := List.mem_cons.mp member
          · omega
          · have := List.mem_singleton.mp member
            omega
        · rintro rfl
          omega
    · rw [List.mem_singleton, Char.toNat_inj]
  rw [units, List.mem_flatMap]
  constructor
  · rintro ⟨d, hd, member⟩
    rwa [(own d).mp member]
  · intro member
    exact ⟨c, member, (own c).mpr rfl⟩

/-! ### Line ends -/

/-- The number of pairs `\r\n`. -/
def countPairs : List Char → ℕ
  | [] => 0
  | '\r' :: '\n' :: cs => countPairs cs + 1
  | _ :: cs => countPairs cs

/-- Whether the newline behind the `pre` tag is lost from the text. -/
def leadingNewline (cs : List Char) : ℕ :=
  if cs.head? = some '\n' ∨ cs.head? = some '\r' then 1 else 0

theorem length_normalizeNewlines (cs : List Char) :
    (normalizeNewlines cs).length + countPairs cs = cs.length := by
  fun_induction normalizeNewlines cs with
  | case1 => rfl
  | case2 cs ih =>
      rw [countPairs, List.length_cons, List.length_cons, List.length_cons]
      omega
  | case3 cs other ih =>
      rw [countPairs, List.length_cons, List.length_cons]
      · omega
      · exact fun rest _ same => other rest same
  | case4 c cs first second ih =>
      rw [countPairs, List.length_cons, List.length_cons]
      · omega
      · exact fun rest same => first rest same

theorem countP_normalizeNewlines (cs : List Char) :
    (normalizeNewlines cs).countP isAstral = cs.countP isAstral := by
  have newline : isAstral '\n' = false := by decide
  have carriage : isAstral '\r' = false := by decide
  fun_induction normalizeNewlines cs with
  | case1 => rfl
  | case2 cs ih => simp [newline, carriage, ih]
  | case3 cs _ ih => simp [newline, carriage, ih]
  | case4 c cs _ _ ih => rw [List.countP_cons, List.countP_cons, ih]

theorem carriage_notMem_normalizeNewlines (cs : List Char) : '\r' ∉ normalizeNewlines cs := by
  fun_induction normalizeNewlines cs with
  | case1 => simp
  | case2 cs ih => simp [ih]
  | case3 cs _ ih => simp [ih]
  | case4 c cs _ carriage ih =>
      rw [List.mem_cons, not_or]
      exact ⟨fun same => carriage same.symm, ih⟩

/-- A text can be cut anywhere but inside a pair. -/
theorem normalizeNewlines_append {front back : List Char} (apart : back.head? ≠ some '\n') :
    normalizeNewlines (front ++ back) = normalizeNewlines front ++ normalizeNewlines back := by
  fun_induction normalizeNewlines front with
  | case1 => rfl
  | case2 cs ih => rw [List.cons_append, List.cons_append, normalizeNewlines, ih, List.cons_append]
  | case3 cs other ih =>
      rw [List.cons_append, normalizeNewlines, ih, List.cons_append]
      intro rest same
      cases cs with
      | nil =>
          rw [List.nil_append] at same
          rw [same] at apart
          exact apart rfl
      | cons c cs => exact other cs (congrArg (· :: cs) (List.cons.inj same).1)
  | case4 c cs pair carriage ih =>
      rw [List.cons_append, normalizeNewlines, ih, List.cons_append]
      · intro rest same
        exact fun _ => carriage same
      · exact carriage

theorem normalizeNewlines_of_clean {front : List Char} (clean : '\r' ∉ front) (back : List Char) :
    normalizeNewlines (front ++ back) = front ++ normalizeNewlines back := by
  induction front with
  | nil => rfl
  | cons c front ih =>
      rw [List.mem_cons, not_or] at clean
      rw [List.cons_append, normalizeNewlines, ih clean.2, List.cons_append]
      · exact fun rest same => absurd same.symm clean.1
      · exact fun same => clean.1 same.symm

theorem head_normalizeNewlines (cs : List Char) :
    (normalizeNewlines cs).head? = some '\n' ↔
      cs.head? = some '\n' ∨ cs.head? = some '\r' := by
  fun_cases normalizeNewlines cs with
  | case1 => simp
  | case2 cs => simp
  | case3 cs _ => simp
  | case4 c cs _ carriage =>
      rw [List.head?_cons, List.head?_cons]
      constructor
      · exact Or.inl
      · rintro (newline | same)
        · exact newline
        · exact absurd (Option.some.inj same) carriage

/-! ### The content of the element -/

theorem dropNewline_of_head {cs : List Char} (other : cs.head? ≠ some '\n') :
    dropNewline cs = cs := by
  rw [dropNewline]
  rintro rest rfl
  exact other rfl

theorem preContent_append {front back : List Char} (newline : back.head? ≠ some '\n')
    (carriage : back.head? ≠ some '\r') :
    preContent (front ++ back) = preContent front ++ normalizeNewlines back := by
  have later : (normalizeNewlines back).head? ≠ some '\n' := by
    rw [Ne, head_normalizeNewlines, not_or]
    exact ⟨newline, carriage⟩
  rw [preContent, preContent, normalizeNewlines_append newline]
  cases normalizeNewlines front with
  | nil => exact dropNewline_of_head later
  | cons c cs =>
      by_cases first : c = '\n'
      · rw [first]
        rfl
      · rw [dropNewline_of_head (by simpa using first), dropNewline_of_head (by simpa using first)]

theorem carriage_notMem_preContent (cs : List Char) : '\r' ∉ preContent cs := by
  have clean := carriage_notMem_normalizeNewlines cs
  rw [preContent]
  by_cases first : (normalizeNewlines cs).head? = some '\n'
  · obtain ⟨rest, same⟩ := List.head?_eq_some_iff.mp first
    rw [same] at clean ⊢
    exact fun member => clean (List.mem_cons_of_mem _ member)
  · rw [dropNewline_of_head first]
    exact clean

/-- By how much the text in front of a place in the source and the code units in front of
it in the script differ. -/
theorem length_units_preContent (cs : List Char) :
    (units (preContent cs)).length + countPairs cs + leadingNewline cs =
      cs.length + cs.countP isAstral := by
  have pairs := length_normalizeNewlines cs
  have astral := countP_normalizeNewlines cs
  rw [length_units, preContent, leadingNewline]
  by_cases first : (normalizeNewlines cs).head? = some '\n'
  · rw [if_pos ((head_normalizeNewlines cs).mp first)]
    obtain ⟨rest, same⟩ := List.head?_eq_some_iff.mp first
    rw [same] at pairs astral ⊢
    rw [List.countP_cons_of_neg (by decide)] at astral
    rw [List.length_cons] at pairs
    change rest.length + rest.countP isAstral + countPairs cs + 1 = _
    omega
  · rw [if_neg (fun either => first ((head_normalizeNewlines cs).mpr either)),
      dropNewline_of_head first]
    omega

/-! ### Slices -/

/-- Where a string reads `middle` at one place, it reads it at another one if and only if it
repeats itself there. -/
theorem slice_eq_iff (front middle back : List ℕ) (start : ℕ) :
    slice (front ++ (middle ++ back)) start (start + middle.length) = middle ↔
      ∀ k < middle.length, (front ++ (middle ++ back))[start + k]? =
        (front ++ (middle ++ back))[front.length + k]? := by
  have own : ∀ k < middle.length,
      (front ++ (middle ++ back))[front.length + k]? = middle[k]? := by
    intro k short
    rw [List.getElem?_append_right (by omega), Nat.add_sub_cancel_left,
      List.getElem?_append_left short]
  rw [slice, Nat.add_sub_cancel_left]
  constructor
  · intro same k short
    rw [own k short]
    conv_rhs => rw [← same]
    rw [List.getElem?_take_of_lt short, List.getElem?_drop]
  · intro repeats
    apply List.ext_getElem?
    intro k
    by_cases short : k < middle.length
    · rw [List.getElem?_take_of_lt short, List.getElem?_drop, repeats k short, own k short]
    · rw [List.getElem?_take, if_neg short, List.getElem?_eq_none (not_lt.mp short)]

end Browser
