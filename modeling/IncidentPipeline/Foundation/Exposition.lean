import IncidentPipeline.Foundation.Lines

/-!
# Metrics as text

The text format in which metrics are exposed: for each family a line with its help, one with
its type, and one line for each sample. What is written can be read back, if names consist of
the characters of names, values have no newline and label values have no quotes either.
-/

namespace Exposition

open Lines

structure Sample where
  name : List Char
  label : Option (List Char × List Char)
  value : List Char
deriving DecidableEq, Repr

structure Family where
  name : List Char
  help : List Char
  kind : List Char
  samples : List Sample
deriving DecidableEq, Repr

/-! ### Writing -/

def Sample.line (s : Sample) : List Char :=
  match s.label with
  | none => s.name ++ ' ' :: s.value
  | some (key, value) =>
      s.name ++ '{' :: (key ++ '=' :: '"' :: (value ++ '"' :: '}' :: ' ' :: s.value))

def helpMark : List Char := ['#', ' ', 'H', 'E', 'L', 'P', ' ']

def typeMark : List Char := ['#', ' ', 'T', 'Y', 'P', 'E', ' ']

def Family.lines (f : Family) : List (List Char) :=
  (helpMark ++ (f.name ++ ' ' :: f.help)) :: (typeMark ++ (f.name ++ ' ' :: f.kind)) ::
    f.samples.map Sample.line

/-- Every line ends with a newline. -/
def text (families : List Family) : List Char :=
  (families.flatMap Family.lines).flatMap (· ++ ['\n'])

/-! ### Reading -/

def isNameChar (c : Char) : Bool := c.isAlphanum || c = '_' || c = ':'

def readSample (line : List Char) : Option Sample :=
  match line.dropWhile isNameChar with
  | ' ' :: value => some ⟨line.takeWhile isNameChar, none, value⟩
  | '{' :: rest =>
      match rest.dropWhile isNameChar with
      | '=' :: '"' :: quoted =>
          match quoted.dropWhile (· ≠ '"') with
          | '"' :: '}' :: ' ' :: value =>
              some ⟨line.takeWhile isNameChar,
                some (rest.takeWhile isNameChar, quoted.takeWhile (· ≠ '"')), value⟩
          | _ => none
      | _ => none
  | _ => none

/-- A name, a blank and a text. -/
def readHeader (line : List Char) : Option (List Char × List Char) :=
  match line.dropWhile isNameChar with
  | ' ' :: rest => some (line.takeWhile isNameChar, rest)
  | _ => none

/-- What has been read of the lines behind: samples and a type whose family has not begun yet, and
the families behind them. -/
structure Behind where
  kind : Option (List Char × List Char)
  samples : List Sample
  families : List Family

def Behind.line (line : List Char) (behind : Behind) : Option Behind :=
  if helpMark <+: line then do
    let (name, help) ← readHeader (line.drop helpMark.length)
    match behind.kind with
    | some (typed, kind) =>
        if typed = name then
          some ⟨none, [], ⟨name, help, kind, behind.samples⟩ :: behind.families⟩
        else none
    | none => none
  else
    match behind.kind with
    | some _ => none
    | none =>
        if typeMark <+: line then do
          let header ← readHeader (line.drop typeMark.length)
          some { behind with kind := some header }
        else do
          let sample ← readSample line
          some { behind with samples := sample :: behind.samples }

def readLines : List (List Char) → Option Behind
  | [] => some ⟨none, [], []⟩
  | line :: rest => do
      let behind ← readLines rest
      behind.line line

/-- The families of a text in which every line is ended. -/
def read (cs : List Char) : Option (List Family) := do
  let behind ← readLines (lines cs).dropLast
  if behind.kind = none ∧ behind.samples = [] then some behind.families else none

/-! ### Round trip -/

structure Sample.WellFormed (s : Sample) : Prop where
  named : s.name ≠ []
  name : ∀ c ∈ s.name, isNameChar c = true
  label : ∀ key value, s.label = some (key, value) →
    (∀ c ∈ key, isNameChar c = true) ∧ ∀ c ∈ value, c ≠ '"' ∧ c ≠ '\n'
  value : '\n' ∉ s.value

structure Family.WellFormed (f : Family) : Prop where
  name : ∀ c ∈ f.name, isNameChar c = true
  help : '\n' ∉ f.help
  kind : '\n' ∉ f.kind
  samples : ∀ s ∈ f.samples, s.WellFormed

/-- Reading stops at a character that does not belong to what is read. -/
theorem span_append {p : Char → Bool} {xs : List Char} (all : ∀ c ∈ xs, p c = true) {c : Char}
    (stop : p c = false) (rest : List Char) :
    (xs ++ c :: rest).takeWhile p = xs ∧ (xs ++ c :: rest).dropWhile p = c :: rest := by
  induction xs with
  | nil => simp [stop]
  | cons x xs ih =>
      obtain ⟨first, others⟩ := List.forall_mem_cons.mp all
      obtain ⟨taken, dropped⟩ := ih others
      simp [first, taken, dropped]

theorem readHeader_append {name : List Char} (all : ∀ c ∈ name, isNameChar c = true)
    (rest : List Char) : readHeader (name ++ ' ' :: rest) = some (name, rest) := by
  obtain ⟨taken, dropped⟩ := span_append all (c := ' ') (by decide) rest
  rw [readHeader, dropped, taken]
  rfl

theorem readSample_line {s : Sample} (wellFormed : s.WellFormed) : readSample s.line = some s := by
  obtain ⟨name, label, value⟩ := s
  have named := wellFormed.name
  cases label with
  | none =>
      obtain ⟨taken, dropped⟩ := span_append named (c := ' ') (by decide) value
      rw [readSample, Sample.line, dropped, taken]
      rfl
  | some pair =>
      obtain ⟨key, quoted⟩ := pair
      obtain ⟨keyed, plain⟩ := wellFormed.label key quoted rfl
      have inside : ∀ c ∈ quoted, decide (c ≠ '"') = true := fun c hc => by simp [(plain c hc).1]
      obtain ⟨first, afterName⟩ := span_append named (c := '{') (by decide)
        (key ++ '=' :: '"' :: (quoted ++ '"' :: '}' :: ' ' :: value))
      obtain ⟨second, afterKey⟩ := span_append keyed (c := '=') (by decide)
        ('"' :: (quoted ++ '"' :: '}' :: ' ' :: value))
      obtain ⟨third, afterValue⟩ := span_append inside (c := '"') (by decide)
        ('}' :: ' ' :: value)
      simp only [readSample, Sample.line, afterName, first, afterKey, second, afterValue, third]

theorem not_mark_of_name {c : Char} (named : isNameChar c = true) (mark rest : List Char) :
    ¬ '#' :: mark <+: c :: rest := by
  rintro ⟨_, same⟩
  cases same
  revert named
  decide

theorem line_sample {s : Sample} (wellFormed : s.WellFormed) (samples : List Sample)
    (families : List Family) :
    Behind.line s.line ⟨none, samples, families⟩ = some ⟨none, s :: samples, families⟩ := by
  have begins : ∃ c rest, s.line = c :: rest ∧ isNameChar c = true := by
    obtain ⟨c, later, name⟩ := List.exists_cons_of_ne_nil wellFormed.named
    have first := wellFormed.name c (name ▸ List.mem_cons_self)
    rw [Sample.line, name]
    cases s.label <;> exact ⟨c, _, rfl, first⟩
  obtain ⟨c, rest, line, named⟩ := begins
  have read := readSample_line wellFormed
  rw [line] at read ⊢
  simp only [Behind.line, helpMark, typeMark, if_neg (not_mark_of_name named _ _), read]
  rfl

theorem line_samples {samples : List Sample} (wellFormed : ∀ s ∈ samples, s.WellFormed)
    {rest : List (List Char)} {families : List Family}
    (behind : readLines rest = some ⟨none, [], families⟩) :
    readLines (samples.map Sample.line ++ rest) = some ⟨none, samples, families⟩ := by
  induction samples with
  | nil => exact behind
  | cons s samples ih =>
      obtain ⟨first, others⟩ := List.forall_mem_cons.mp wellFormed
      rw [List.map_cons, List.cons_append, readLines, ih others]
      exact line_sample first samples families

theorem line_family {f : Family} (wellFormed : f.WellFormed) {rest : List (List Char)}
    {families : List Family} (behind : readLines rest = some ⟨none, [], families⟩) :
    readLines (f.lines ++ rest) = some ⟨none, [], f :: families⟩ := by
  obtain ⟨name, help, kind, samples⟩ := f
  have typed : Behind.line (typeMark ++ (name ++ ' ' :: kind)) ⟨none, samples, families⟩ =
      some ⟨some (name, kind), samples, families⟩ := by
    have other : ¬ helpMark <+: typeMark ++ (name ++ ' ' :: kind) := by
      rintro ⟨_, same⟩
      cases same
    simp only [Behind.line, if_neg other, List.prefix_append, if_true, List.drop_left,
      readHeader_append wellFormed.name]
    rfl
  simp only [Family.lines, List.cons_append, readLines, line_samples wellFormed.samples behind,
    Option.bind_eq_bind, Option.bind_some, typed]
  simp only [Behind.line, List.prefix_append, if_true, List.drop_left,
    readHeader_append wellFormed.name, Option.bind_eq_bind, Option.bind_some]

theorem readLines_families {families : List Family} (wellFormed : ∀ f ∈ families, f.WellFormed) :
    readLines (families.flatMap Family.lines) = some ⟨none, [], families⟩ := by
  induction families with
  | nil => rfl
  | cons f families ih =>
      obtain ⟨first, others⟩ := List.forall_mem_cons.mp wellFormed
      rw [List.flatMap_cons]
      exact line_family first (ih others)

theorem isNameChar_newline : isNameChar '\n' = false := by decide

theorem not_newline_of_name {cs : List Char} (named : ∀ c ∈ cs, isNameChar c = true) :
    '\n' ∉ cs := by
  intro member
  cases isNameChar_newline.symm.trans (named _ member)

theorem Sample.WellFormed.line {s : Sample} (wellFormed : s.WellFormed) : '\n' ∉ s.line := by
  have name := not_newline_of_name wellFormed.name
  have value := wellFormed.value
  rw [Sample.line]
  cases label : s.label with
  | none => simp [name, value]
  | some pair =>
      obtain ⟨keyed, plain⟩ := wellFormed.label pair.1 pair.2 label
      have key := not_newline_of_name keyed
      have quoted : '\n' ∉ pair.2 := fun member => (plain _ member).2 rfl
      simp [name, value, key, quoted]

theorem Family.WellFormed.lines {f : Family} (wellFormed : f.WellFormed) :
    ∀ line ∈ f.lines, '\n' ∉ line := by
  have name := not_newline_of_name wellFormed.name
  intro line member
  rw [Family.lines, List.mem_cons, List.mem_cons, List.mem_map] at member
  obtain rfl | rfl | ⟨s, hs, rfl⟩ := member
  · simp [helpMark, name, wellFormed.help]
  · simp [typeMark, name, wellFormed.kind]
  · exact (wellFormed.samples s hs).line

/-- Lines that are ended are read back. -/
theorem lines_ended {ls : List (List Char)} (plain : ∀ line ∈ ls, '\n' ∉ line) :
    lines (ls.flatMap (· ++ ['\n'])) = ls ++ [[]] := by
  induction ls with
  | nil => rfl
  | cons line ls ih =>
      obtain ⟨first, others⟩ := List.forall_mem_cons.mp plain
      rw [List.flatMap_cons, List.append_assoc, List.singleton_append, lines_append_newline,
        lines_of_notMem first, ih others]
      rfl

/-- What is written is read back. -/
theorem read_text {families : List Family} (wellFormed : ∀ f ∈ families, f.WellFormed) :
    read (text families) = some families := by
  have plain : ∀ line ∈ families.flatMap Family.lines, '\n' ∉ line := by
    intro line member
    obtain ⟨f, hf, inside⟩ := List.mem_flatMap.mp member
    exact (wellFormed f hf).lines line inside
  rw [read, text, lines_ended plain, List.dropLast_concat, readLines_families wellFormed]
  rfl

end Exposition
