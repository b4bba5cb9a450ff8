import Mathlib.Data.List.TakeWhile
import Mathlib.Tactic

/-!
# Python strings

The text operations of `str` that strip, split and join, on sequences of code
points. White space is what `str.isspace` accepts; line boundaries are those of
`str.splitlines`. Decimal digits are the Unicode ones that `\d` matches and
`int` reads.
-/

namespace Python

/-- `c.isspace()`. -/
def isSpace (c : Char) : Bool :=
  let n := c.toNat
  (9 ≤ n && n ≤ 13) || (28 ≤ n && n ≤ 32) || n == 0x85 || n == 0xa0 || n == 0x1680 ||
    (0x2000 ≤ n && n ≤ 0x200a) || n == 0x2028 || n == 0x2029 || n == 0x202f || n == 0x205f ||
    n == 0x3000

/-- The class `[ \t]`. -/
def isBlank (c : Char) : Bool := c = ' ' || c = '\t'

/-- The boundaries of `str.splitlines`. -/
def isLineBreak (c : Char) : Bool :=
  let n := c.toNat
  (10 ≤ n && n ≤ 13) || (28 ≤ n && n ≤ 30) || n == 0x85 || n == 0x2028 || n == 0x2029

/-- Characters with white space removed at both ends. -/
def stripChars (cs : List Char) : List Char :=
  ((cs.dropWhile isSpace).reverse.dropWhile isSpace).reverse

/-- `s.strip()`. -/
def strip (s : String) : String := String.ofList (stripChars s.toList)

/-- Neither end is white space. -/
def Trimmed (cs : List Char) : Prop :=
  (∀ c ∈ cs.head?, isSpace c = false) ∧ (∀ c ∈ cs.getLast?, isSpace c = false)

theorem stripChars_of_trimmed {cs : List Char} (h : Trimmed cs) : stripChars cs = cs := by
  have front : cs.dropWhile isSpace = cs := by
    cases cs with
    | nil => rfl
    | cons c rest => simp [h.1 c (by simp)]
  have back : cs.reverse.dropWhile isSpace = cs.reverse := by
    cases hr : cs.reverse with
    | nil => rfl
    | cons c rest =>
        have hlast : c ∈ cs.getLast? := by
          rw [← List.head?_reverse, hr]
          simp
        simp [h.2 c hlast]
  rw [stripChars, front, back, List.reverse_reverse]

theorem trimmed_stripChars (cs : List Char) : Trimmed (stripChars cs) := by
  set front := cs.dropWhile isSpace with hfront
  have hhead : ∀ c ∈ front.head?, isSpace c = false := by
    intro c hc
    have := List.head?_dropWhile_not isSpace cs
    rw [← hfront] at this
    cases hf : front.head? with
    | none => simp [hf] at hc
    | some d =>
        rw [hf] at this hc
        cases hc
        simpa using this
  constructor
  · intro c hc
    obtain ⟨kept, dropped, hsplit, hdropped⟩ :
        ∃ kept dropped, front = kept ++ dropped ∧ kept = stripChars cs := by
      refine ⟨stripChars cs, (front.reverse.takeWhile isSpace).reverse, ?_, rfl⟩
      rw [stripChars, ← hfront, ← List.reverse_append, List.takeWhile_append_dropWhile,
        List.reverse_reverse]
    rw [← hdropped] at hc
    apply hhead
    rw [hsplit]
    cases kept with
    | nil => simp at hc
    | cons d rest => simpa using hc
  · intro c hc
    rw [stripChars, List.getLast?_reverse] at hc
    have := List.head?_dropWhile_not isSpace front.reverse
    cases hf : (front.reverse.dropWhile isSpace).head? with
    | none => rw [← hfront, hf] at hc; simp at hc
    | some d =>
        rw [← hfront, hf] at hc
        rw [hf] at this
        cases hc
        simpa using this

@[simp] theorem strip_strip (s : String) : strip (strip s) = strip s := by
  simp only [strip, String.toList_ofList]
  rw [stripChars_of_trimmed (trimmed_stripChars _)]

theorem stripChars_cons {c : Char} (space : isSpace c = true) (cs : List Char) :
    stripChars (c :: cs) = stripChars cs := by
  rw [stripChars, List.dropWhile_cons_of_pos space, ← stripChars]

theorem stripChars_append_singleton {c : Char} (space : isSpace c = true) (cs : List Char) :
    stripChars (cs ++ [c]) = stripChars cs := by
  induction cs with
  | nil => simp [stripChars, space]
  | cons d cs ih =>
      by_cases first : isSpace d = true
      · rw [List.cons_append, stripChars_cons first, stripChars_cons first, ih]
      · rw [stripChars, stripChars, List.cons_append, List.dropWhile_cons_of_neg first,
          List.dropWhile_cons_of_neg first, ← List.cons_append, List.reverse_append,
          List.reverse_singleton, List.singleton_append, List.dropWhile_cons_of_pos space]

/-- What `strip` removes is white space. -/
theorem filter_stripChars (cs : List Char) :
    (stripChars cs).filter (!isSpace ·) = cs.filter (!isSpace ·) := by
  have dropped : ∀ ds : List Char, (ds.dropWhile isSpace).filter (!isSpace ·) =
      ds.filter (!isSpace ·) := by
    intro ds
    induction ds with
    | nil => rfl
    | cons d ds ih =>
        by_cases first : isSpace d = true
        · rw [List.dropWhile_cons_of_pos first, ih, List.filter_cons_of_neg (by simp [first])]
        · rw [List.dropWhile_cons_of_neg first]
  rw [stripChars, List.filter_reverse, dropped, List.filter_reverse, List.reverse_reverse, dropped]

/-! ### Leading runs -/

theorem length_sub_dropWhile {α : Type} (p : α → Bool) (xs : List α) :
    xs.length - (xs.dropWhile p).length = (xs.takeWhile p).length := by
  have whole := congrArg List.length (List.takeWhile_append_dropWhile (p := p) (l := xs))
  rw [List.length_append] at whole
  omega

theorem read_takeWhile {α : Type} {p : α → Bool} {xs : List α} {i : ℕ}
    (h : i < (xs.takeWhile p).length) : ∃ x, xs[i]? = some x ∧ p x = true := by
  refine ⟨(xs.takeWhile p)[i], ?_, List.mem_takeWhile_imp (List.getElem_mem h)⟩
  have leading : xs.takeWhile p <+: xs := List.takeWhile_prefix p
  rw [leading.getElem h, List.getElem?_eq_getElem]

/-- A leading run is as long as it can be. -/
theorem read_behind_takeWhile {α : Type} {p : α → Bool} {xs : List α} {x : α}
    (read : xs[(xs.takeWhile p).length]? = some x) : p x = false := by
  have behind : (xs.dropWhile p).head? = some x := by
    rw [← read, List.head?_eq_getElem?]
    nth_rewrite 2 [← List.takeWhile_append_dropWhile (p := p) (l := xs)]
    rw [List.getElem?_append_right le_rfl, Nat.sub_self]
  have stops := List.head?_dropWhile_not p xs
  rw [behind] at stops
  exact stops

/-! ### Lines -/

/-- The scan behind `str.splitlines`, with the current line reversed. A final
line without a boundary counts only if it is not empty. -/
def splitlinesFrom (line : List Char) : List Char → List (List Char)
  | [] => if line = [] then [] else [line.reverse]
  | '\r' :: '\n' :: rest => line.reverse :: splitlinesFrom [] rest
  | c :: rest =>
      if isLineBreak c then line.reverse :: splitlinesFrom [] rest
      else splitlinesFrom (c :: line) rest

/-- `s.splitlines()`. -/
def splitlines (s : String) : List String := (splitlinesFrom [] s.toList).map String.ofList

theorem splitlinesFrom_cons {c : Char} (h : isLineBreak c = false) (line rest : List Char) :
    splitlinesFrom line (c :: rest) = splitlinesFrom (c :: line) rest := by
  cases rest with
  | nil => simp [splitlinesFrom, h]
  | cons d rest =>
      have hr : c ≠ '\r' := by
        rintro rfl
        simp [isLineBreak] at h
      rw [splitlinesFrom, if_neg (by simp [h])]
      intro _ hc
      exact absurd hc hr

/-- A run of ordinary characters only extends the current line. -/
theorem splitlinesFrom_append {item : List Char} (h : ∀ c ∈ item, isLineBreak c = false)
    (line rest : List Char) :
    splitlinesFrom line (item ++ rest) = splitlinesFrom (item.reverse ++ line) rest := by
  induction item generalizing line with
  | nil => rfl
  | cons c item ih =>
      rw [List.cons_append, splitlinesFrom_cons (h c (by simp)),
        ih (fun d hd => h d (by simp [hd]))]
      simp

theorem splitlinesFrom_newline (line rest : List Char) :
    splitlinesFrom line ('\n' :: rest) = line.reverse :: splitlinesFrom [] rest := by
  simp [splitlinesFrom, isLineBreak]

/-- Lines joined by newlines split into themselves, provided that they contain no
boundary of their own and the last one is not empty. -/
theorem splitlinesFrom_intercalate {items : List (List Char)}
    (clean : ∀ item ∈ items, ∀ c ∈ item, isLineBreak c = false)
    (nonempty : ∀ item ∈ items, item ≠ []) :
    splitlinesFrom [] (['\n'].intercalate items) = items := by
  induction items with
  | nil => simp [splitlinesFrom]
  | cons item rest ih =>
      have hitem := clean item (by simp)
      cases rest with
      | nil =>
          have hne : item ≠ [] := nonempty item (by simp)
          rw [List.intercalate_singleton]
          have := splitlinesFrom_append hitem [] []
          simpa [splitlinesFrom, hne] using this
      | cons next rest =>
          rw [List.intercalate_cons_cons, List.append_assoc, splitlinesFrom_append hitem,
            List.singleton_append, splitlinesFrom_newline,
            ih (fun i hi => clean i (by simp [hi])) (fun i hi => nonempty i (by simp [hi]))]
          simp

/-- No produced line contains a boundary. -/
theorem isLineBreak_of_mem_splitlinesFrom (line cs : List Char)
    (hline : ∀ c ∈ line, isLineBreak c = false) :
    ∀ item ∈ splitlinesFrom line cs, ∀ c ∈ item, isLineBreak c = false := by
  fun_induction splitlinesFrom line cs with
  | case1 => simp
  | case2 line => simpa using hline
  | case3 line rest ih =>
      intro item hitem
      obtain rfl | later := List.mem_cons.mp hitem
      · simpa using hline
      · exact ih (by simp) item later
  | case4 line c rest _ _ ih =>
      intro item hitem
      obtain rfl | later := List.mem_cons.mp hitem
      · simpa using hline
      · exact ih (by simp) item later
  | case5 line c rest _ hc ih =>
      refine ih ?_
      intro d hd
      obtain rfl | hd := List.mem_cons.mp hd
      · simpa using hc
      · exact hline d hd

theorem isLineBreak_of_mem_splitlines {s item : String} (h : item ∈ splitlines s) :
    ∀ c ∈ item.toList, isLineBreak c = false := by
  obtain ⟨line, hline, rfl⟩ := List.mem_map.mp h
  rw [String.toList_ofList]
  exact isLineBreak_of_mem_splitlinesFrom [] s.toList (by simp) line hline

theorem splitlines_intercalate {items : List String}
    (clean : ∀ item ∈ items, ∀ c ∈ item.toList, isLineBreak c = false)
    (nonempty : ∀ item ∈ items, item ≠ "") :
    splitlines (String.intercalate "\n" items) = items := by
  have hlines : splitlinesFrom [] (['\n'].intercalate (items.map String.toList)) =
      items.map String.toList := by
    apply splitlinesFrom_intercalate
    · simpa using clean
    · simpa using nonempty
  rw [splitlines, String.toList_intercalate]
  change (splitlinesFrom [] (['\n'].intercalate _)).map String.ofList = items
  rw [hlines, List.map_map]
  simp [Function.comp_def, String.ofList_toList]

/-! ### Decimal digits -/

/-- The zeros of the decimal digit ranges of Unicode 15. -/
def digitZeros : List Nat :=
  [0x30, 0x660, 0x6f0, 0x7c0, 0x966, 0x9e6, 0xa66, 0xae6, 0xb66, 0xbe6, 0xc66, 0xce6, 0xd66,
   0xde6, 0xe50, 0xed0, 0xf20, 0x1040, 0x1090, 0x17e0, 0x1810, 0x1946, 0x19d0, 0x1a80, 0x1a90,
   0x1b50, 0x1bb0, 0x1c40, 0x1c50, 0xa620, 0xa8d0, 0xa900, 0xa9d0, 0xa9f0, 0xaa50, 0xabf0,
   0xff10, 0x104a0, 0x10d30, 0x11066, 0x110f0, 0x11136, 0x111d0, 0x112f0, 0x11450, 0x114d0,
   0x11650, 0x116c0, 0x11730, 0x118e0, 0x11950, 0x11c50, 0x11d50, 0x11da0, 0x11f50, 0x16a60,
   0x16ac0, 0x16b50, 0x1d7ce, 0x1d7d8, 0x1d7e2, 0x1d7ec, 0x1d7f6, 0x1e140, 0x1e2f0, 0x1e4f0,
   0x1e950, 0x1fbf0]

/-- The value of a character that the pattern `\d` matches. -/
def digitValue? (c : Char) : Option Nat :=
  (digitZeros.find? (fun z => z ≤ c.toNat && c.toNat < z + 10)).map (c.toNat - ·)

/-- Whether the pattern `\d` matches `c`. -/
def isDigit (c : Char) : Bool := (digitValue? c).isSome

/-- `int(text)` on a run of decimal digits. -/
def intOfDigits (cs : List Char) : Nat :=
  cs.foldl (fun acc c => 10 * acc + (digitValue? c).getD 0) 0

theorem digitValue?_of_ascii {c : Char} (h : c.isDigit = true) :
    digitValue? c = some (c.toNat - 48) := by
  have hrange : 48 ≤ c.toNat ∧ c.toNat ≤ 57 := by
    simp only [Char.isDigit, ge_iff_le, Bool.and_eq_true, decide_eq_true_eq,
      UInt32.le_iff_toNat_le] at h
    exact h
  have hfind : digitZeros.find? (fun z => z ≤ c.toNat && c.toNat < z + 10) = some 48 := by
    rw [digitZeros, List.find?_cons_of_pos]
    simp only [Bool.and_eq_true, decide_eq_true_eq]
    omega
  rw [digitValue?, hfind, Option.map_some]

theorem isDigit_of_mem_repr {n : Nat} {c : Char} (h : c ∈ (Nat.repr n).toList) :
    isDigit c = true := by
  rw [Nat.toList_repr] at h
  rw [isDigit, digitValue?_of_ascii (Nat.isDigit_of_mem_toDigits (by decide) (by decide) h)]
  rfl

@[simp] theorem intOfDigits_repr (n : Nat) : intOfDigits (Nat.repr n).toList = n := by
  have hfold : ∀ (cs : List Char), (∀ c ∈ cs, c.isDigit = true) → ∀ acc,
      cs.foldl (fun acc c => 10 * acc + (digitValue? c).getD 0) acc =
        Nat.ofDigitChars 10 cs acc := by
    intro cs
    induction cs with
    | nil => simp
    | cons c cs ih =>
        intro hdigits acc
        rw [List.foldl_cons, Nat.ofDigitChars_cons, ih (fun d hd => hdigits d (by simp [hd])),
          digitValue?_of_ascii (hdigits c (by simp))]
        rfl
  rw [Nat.toList_repr, intOfDigits,
    hfold _ (fun c hc => Nat.isDigit_of_mem_toDigits (by decide) (by decide) hc)]
  exact Nat.ofDigitChars_ten_toDigits

/-! ### Lower case and separators -/

/-- One character of `s.lower()`, as far as comparisons with ASCII text can tell: the Kelvin
sign is the one character outside ASCII whose lower case is a single ASCII letter. -/
def lowerChar (c : Char) : Char := if c = '\u212a' then 'k' else c.toLower

/-- `s.lower()`, as far as comparisons with ASCII text can tell. -/
def lowerText (s : String) : String := s.map lowerChar

theorem lowerText_eq (s : String) : lowerText s = String.ofList (s.toList.map lowerChar) := by
  rw [lowerText]
  rw [← String.toList_map, String.ofList_toList]

/-- `s.partition(sep)`; without a separator there is nothing behind it. -/
def partition (sep : Char) (s : String) : String × Option String :=
  (String.ofList (s.toList.takeWhile (· ≠ sep)),
    match s.toList.dropWhile (· ≠ sep) with
    | [] => none
    | _ :: after => some (String.ofList after))

theorem dropWhile_stops {sep c : Char} {cs after : List Char}
    (rest : cs.dropWhile (· ≠ sep) = c :: after) : c = sep := by
  induction cs with
  | nil => cases rest
  | cons d cs ih =>
      rw [List.dropWhile_cons] at rest
      split at rest
      · exact ih rest
      · next stop =>
          cases rest
          simpa using stop

/-- The parts determine the text. -/
theorem partition_injective {sep : Char} {s t : String} (same : partition sep s = partition sep t) :
    s = t := by
  have back : ∀ u : String, u.toList = (partition sep u).1.toList ++
      match (partition sep u).2 with
      | none => []
      | some after => sep :: after.toList := by
    intro u
    have whole : u.toList = u.toList.takeWhile (· ≠ sep) ++ u.toList.dropWhile (· ≠ sep) :=
      List.takeWhile_append_dropWhile.symm
    rw [partition]
    rw [String.toList_ofList]
    cases rest : u.toList.dropWhile (· ≠ sep) with
    | nil =>
        rw [rest] at whole
        exact whole
    | cons c after =>
        rw [rest, dropWhile_stops rest] at whole
        simpa only [String.toList_ofList] using whole
  have lists := back s
  rw [same, ← back t] at lists
  exact String.toList_inj.mp lists

/-! ### Occurrences -/

/-- `needle in text`. -/
def occursIn (needle text : String) : Bool := decide (needle.toList <:+: text.toList)

theorem occursIn_iff {needle text : String} :
    occursIn needle text = true ↔ needle.toList <:+: text.toList := decide_eq_true_iff

/-- What does not contain a character occurs on one side of it. -/
theorem infix_append_cons_iff {α : Type} {part before after : List α} {c : α}
    (absent : c ∉ part) :
    part <:+: before ++ c :: after ↔ part <:+: before ∨ part <:+: after := by
  constructor
  · rintro ⟨front, back, whole⟩
    obtain ⟨rest, rfl, _⟩ | ⟨rest, ends, split⟩ := List.append_eq_append_iff.mp whole
    · exact .inl ⟨front, rest, rfl⟩
    · cases rest with
      | nil => exact .inl ⟨front, [], by simpa using ends⟩
      | cons d rest =>
          obtain ⟨rfl, rfl⟩ := List.cons.inj split
          obtain ⟨_, _, inside⟩ | ⟨gap, _, inside⟩ := List.append_eq_append_iff.mp ends
          · exact absurd (inside ▸ List.mem_append_right _ List.mem_cons_self) absent
          · cases gap with
            | nil => exact absurd (inside ▸ List.mem_cons_self : c ∈ [] ++ part) absent
            | cons d gap =>
                obtain ⟨_, rfl⟩ := List.cons.inj inside
                exact .inr ⟨gap, back, rfl⟩
  · rintro (⟨front, back, rfl⟩ | ⟨front, back, rfl⟩)
    · exact ⟨front, back ++ c :: after, by simp⟩
    · exact ⟨before ++ c :: front, back, by simp⟩

end Python
