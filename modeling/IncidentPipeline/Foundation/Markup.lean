import Mathlib.Data.List.Forall2
import Mathlib.Tactic

/-!
# Marked-up text

Trees of elements and texts, the searches that a scraper makes in them, and the wrapping
of a phrase in an element. The content of the texts is a parameter, so that the same
searches apply to a document in which one phrase is singled out.
-/

namespace Markup

structure Tag where
  name : String
  attrs : List (String × String)
deriving DecidableEq, Repr

/-- Siblings in document order. -/
inductive Forest (α : Type) where
  | nil
  | text (content : α) (rest : Forest α)
  | element (tag : Tag) (children rest : Forest α)
deriving Repr

namespace Forest

variable {α β : Type}

/-- The texts below, in document order. -/
def strings : Forest α → List α
  | nil => []
  | text content rest => content :: strings rest
  | element _ children rest => strings children ++ strings rest

/-- The elements below with one of the names, in document order, outer ones first. -/
def findAll (names : List String) : Forest α → List (Tag × Forest α)
  | nil => []
  | text _ rest => findAll names rest
  | element tag children rest =>
      (if tag.name ∈ names then [(tag, children)] else []) ++
        (findAll names children ++ findAll names rest)

/-- The forest without the elements that have one of the names. -/
def decompose (names : List String) : Forest α → Forest α
  | nil => nil
  | text content rest => text content (decompose names rest)
  | element tag children rest =>
      if tag.name ∈ names then decompose names rest
      else element tag (decompose names children) (decompose names rest)

def map (g : α → β) : Forest α → Forest β
  | nil => nil
  | text content rest => text (g content) (map g rest)
  | element tag children rest => element tag (map g children) (map g rest)

@[simp] theorem strings_map (g : α → β) (f : Forest α) : (f.map g).strings = f.strings.map g := by
  induction f with
  | nil => rfl
  | text content rest ih => rw [map, strings, strings, ih, List.map_cons]
  | element tag children rest ihc ihr => rw [map, strings, strings, ihc, ihr, List.map_append]

theorem findAll_map (g : α → β) (names : List String) (f : Forest α) :
    (f.map g).findAll names = (f.findAll names).map fun found => (found.1, found.2.map g) := by
  induction f with
  | nil => rfl
  | text content rest ih => rw [map, findAll, findAll, ih]
  | element tag children rest ihc ihr =>
      rw [map, findAll, findAll, ihc, ihr, List.map_append, List.map_append]
      split
      · rfl
      · rfl

theorem decompose_of_absent {names : List String} {f : Forest α} (absent : f.findAll names = []) :
    f.decompose names = f := by
  induction f with
  | nil => rfl
  | text content rest ih => rw [decompose, ih absent]
  | element tag children rest ihc ihr =>
      rw [findAll, List.append_eq_nil_iff, List.append_eq_nil_iff] at absent
      obtain ⟨here, inChildren, inRest⟩ := absent
      have other : tag.name ∉ names := by
        intro member
        rw [if_pos member] at here
        cases here
      rw [decompose, if_neg other, ihc inChildren, ihr inRest]

/-- The number of characters of all texts below. -/
def textLength (size : α → ℕ) (f : Forest α) : ℕ := (f.strings.map size).sum

end Forest

/-- `max(best :: xs, key=size)`: the first one of the greatest size. -/
def firstMax {α : Type} (size : α → ℕ) (best : α) : List α → α
  | [] => best
  | x :: xs => firstMax size (if size best < size x then x else best) xs

theorem firstMax_rel {α β : Type} {size : α → ℕ} {size' : β → ℕ} {R : α → β → Prop}
    (agree : ∀ a b, R a b → size a = size' b) {a : α} {b : β} {as : List α} {bs : List β}
    (first : R a b) (others : List.Forall₂ R as bs) :
    R (firstMax size a as) (firstMax size' b bs) := by
  induction others generalizing a b with
  | nil => exact first
  | @cons x y xs ys next _ ih =>
      rw [firstMax, firstMax, agree a b first, agree x y next]
      split
      · exact ih next
      · exact ih first

theorem firstMax_mem {α : Type} (size : α → ℕ) (best : α) (xs : List α) :
    firstMax size best xs ∈ best :: xs := by
  induction xs generalizing best with
  | nil => exact List.mem_singleton_self best
  | cons x xs ih =>
      rw [firstMax]
      split
      · exact List.mem_cons_of_mem best (ih x)
      · obtain same | later := List.mem_cons.mp (ih best)
        · exact List.mem_cons.mpr (Or.inl same)
        · exact List.mem_cons_of_mem best (List.mem_cons_of_mem x later)

/-! ### A phrase singled out -/

/-- A text as a list of parts, none for the empty text. -/
def unlessEmpty (content : List Char) : List (List Char) := if content = [] then [] else [content]

/-- A forest in which a phrase is selected. The phrase may start and stop inside texts:
`before` is what precedes it in the text where it starts, `after` what follows it in the
text where it stops. -/
inductive Selected where
  | phrase (before : List Char) (content : Forest (List Char)) (after : List Char)
      (rest : Forest (List Char))
  | text (content : List Char) (rest : Selected)
  | inside (tag : Tag) (children : Selected) (rest : Forest (List Char))
  | behind (tag : Tag) (children : Forest (List Char)) (rest : Selected)

/-- One more text in front, unless it is empty. -/
def addText (content : List Char) (f : Forest (List Char)) : Forest (List Char) :=
  if content = [] then f else .text content f

/-- The first text, if the forest starts with one, continues `content`. -/
def glueFront (content : List Char) : Forest (List (List Char)) → Forest (List (List Char))
  | .text parts rest => .text (unlessEmpty content ++ parts) rest
  | f => if content = [] then f else .text [content] f

/-- `rest` behind the forest, whose last text, if it ends with one, `content` continues. -/
def glueBack (content : List Char) (rest : Forest (List (List Char))) :
    Forest (List (List Char)) → Forest (List (List Char))
  | .nil => if content = [] then rest else .text [content] rest
  | .text parts .nil => .text (parts ++ unlessEmpty content) rest
  | .text parts f => .text parts (glueBack content rest f)
  | .element tag children f => .element tag children (glueBack content rest f)

namespace Selected

/-- The forest with its texts in parts, broken where the phrase starts and where it stops. -/
def marked : Selected → Forest (List (List Char))
  | phrase before content after rest =>
      glueFront before (glueBack after (rest.map fun s => [s]) (content.map fun s => [s]))
  | text content rest => .text [content] rest.marked
  | inside tag children rest => .element tag children.marked (rest.map fun s => [s])
  | behind tag children rest => .element tag (children.map fun s => [s]) rest.marked

/-- The forest without regard to the selection. -/
def plain (s : Selected) : Forest (List Char) := s.marked.map List.flatten

/-- The forest with the phrase wrapped in an element of its own. -/
def wrapped (tag : Tag) : Selected → Forest (List Char)
  | phrase before content after rest =>
      addText before (.element tag content (addText after rest))
  | text content rest => .text content (rest.wrapped tag)
  | inside outer children rest => .element outer (children.wrapped tag) rest
  | behind outer children rest => .element outer children (rest.wrapped tag)

end Selected

/-- The texts of `f` are the parts of the texts of `m`. -/
def Breaks (m : Forest (List (List Char))) (f : Forest (List Char)) : Prop :=
  f.strings = m.strings.flatten

theorem breaks_map (f : Forest (List Char)) : Breaks (f.map fun s => [s]) f := by
  rw [Breaks, Forest.strings_map]
  induction f.strings with
  | nil => rfl
  | cons s rest ih => rw [List.map_cons, List.flatten_cons, ← ih, List.singleton_append]

@[simp] theorem strings_addText (content : List Char) (f : Forest (List Char)) :
    (addText content f).strings = unlessEmpty content ++ f.strings := by
  rw [addText, unlessEmpty]
  split
  · rfl
  · rfl

@[simp] theorem findAll_addText (names : List String) (content : List Char)
    (f : Forest (List Char)) : (addText content f).findAll names = f.findAll names := by
  rw [addText]
  split
  · rfl
  · rfl

theorem flatten_strings_glueFront (content : List Char) (f : Forest (List (List Char))) :
    (glueFront content f).strings.flatten = unlessEmpty content ++ f.strings.flatten := by
  have alone : ∀ f : Forest (List (List Char)),
      (if content = [] then f else .text [content] f).strings.flatten =
        unlessEmpty content ++ f.strings.flatten := by
    intro f
    rw [unlessEmpty]
    split
    · rfl
    · rfl
  cases f with
  | nil => exact alone .nil
  | text parts rest =>
      rw [glueFront, Forest.strings, Forest.strings, List.flatten_cons, List.flatten_cons,
        List.append_assoc]
  | element tag children rest => exact alone (.element tag children rest)

theorem findAll_glueFront (names : List String) (content : List Char)
    (f : Forest (List (List Char))) : (glueFront content f).findAll names = f.findAll names := by
  have alone : ∀ f : Forest (List (List Char)),
      (if content = [] then f else .text [content] f).findAll names = f.findAll names := by
    intro f
    split
    · rfl
    · rfl
  cases f with
  | nil => exact alone .nil
  | text parts rest => rfl
  | element tag children rest => exact alone (.element tag children rest)

theorem flatten_strings_glueBack (content : List Char) (rest f : Forest (List (List Char))) :
    (glueBack content rest f).strings.flatten =
      f.strings.flatten ++ (unlessEmpty content ++ rest.strings.flatten) := by
  fun_induction glueBack content rest f with
  | case1 empty => rw [unlessEmpty, if_pos empty]; rfl
  | case2 some => rw [unlessEmpty, if_neg some]; rfl
  | case3 parts => simp [Forest.strings]
  | case4 parts f _ ih =>
      rw [Forest.strings, Forest.strings, List.flatten_cons, List.flatten_cons, ih,
        List.append_assoc]
  | case5 tag children f ih =>
      rw [Forest.strings, Forest.strings, List.flatten_append, List.flatten_append, ih,
        List.append_assoc]

theorem findAll_glueBack (names : List String) (content : List Char)
    (rest f : Forest (List (List Char))) :
    (glueBack content rest f).findAll names = f.findAll names ++ rest.findAll names := by
  fun_induction glueBack content rest f with
  | case1 empty => rfl
  | case2 some => rfl
  | case3 parts => rfl
  | case4 parts f _ ih => exact ih
  | case5 tag children f ih => rw [Forest.findAll, Forest.findAll, ih]; simp

theorem flatten_length_sum (parts : List (List (List Char))) :
    (parts.map fun p => p.flatten.length).sum = (parts.flatten.map List.length).sum := by
  induction parts with
  | nil => rfl
  | cons p rest ih =>
      rw [List.map_cons, List.sum_cons, ih, List.flatten_cons, List.map_append, List.sum_append,
        List.length_flatten]

/-- Parts are as long as the texts that they make up. -/
theorem Breaks.textLength {m : Forest (List (List Char))} {f : Forest (List Char)}
    (breaks : Breaks m f) :
    m.textLength (fun parts => parts.flatten.length) = f.textLength List.length := by
  rw [Forest.textLength, Forest.textLength, breaks, flatten_length_sum]

namespace Selected

theorem breaks_wrapped (s : Selected) (tag : Tag) : Breaks s.marked (s.wrapped tag) := by
  induction s with
  | phrase before content after rest =>
      have inner := breaks_map content
      have outer := breaks_map rest
      rw [Breaks] at inner outer ⊢
      rw [wrapped, marked, flatten_strings_glueFront, flatten_strings_glueBack, strings_addText,
        Forest.strings, strings_addText, inner, outer]
  | text content rest ih =>
      rw [Breaks] at ih ⊢
      rw [wrapped, marked, Forest.strings, Forest.strings, ih, List.flatten_cons,
        List.singleton_append]
  | inside outer children rest ih =>
      have later := breaks_map rest
      rw [Breaks] at ih later ⊢
      rw [wrapped, marked, Forest.strings, Forest.strings, ih, later, List.flatten_append]
  | behind outer children rest ih =>
      have earlier := breaks_map children
      rw [Breaks] at ih earlier ⊢
      rw [wrapped, marked, Forest.strings, Forest.strings, ih, earlier, List.flatten_append]

/-- Found by the same name, with the same texts up to their parts. -/
def SameFind (m : Tag × Forest (List (List Char))) (f : Tag × Forest (List Char)) : Prop :=
  m.1 = f.1 ∧ Breaks m.2 f.2

theorem findAll_unselected (names : List String) (f : Forest (List Char)) :
    List.Forall₂ SameFind ((f.map fun s => [s]).findAll names) (f.findAll names) := by
  rw [Forest.findAll_map]
  apply List.forall₂_map_left_iff.mpr
  apply List.forall₂_same.mpr
  intro found _
  exact ⟨rfl, breaks_map found.2⟩

/-- A search that does not look for the wrapping element finds the same elements. -/
theorem findAll_wrapped {names : List String} {tag : Tag} (other : tag.name ∉ names)
    (s : Selected) :
    List.Forall₂ SameFind (s.marked.findAll names) ((s.wrapped tag).findAll names) := by
  induction s with
  | phrase before content after rest =>
      rw [wrapped, marked, findAll_glueFront, findAll_glueBack, findAll_addText, Forest.findAll,
        if_neg other, List.nil_append, findAll_addText]
      exact List.rel_append (findAll_unselected names content) (findAll_unselected names rest)
  | text content rest ih => exact ih
  | inside outer children rest ih =>
      rw [wrapped, marked, Forest.findAll, Forest.findAll]
      apply List.rel_append
      · split
        · exact List.Forall₂.cons ⟨rfl, children.breaks_wrapped tag⟩ List.Forall₂.nil
        · exact List.Forall₂.nil
      · exact List.rel_append ih (findAll_unselected names rest)
  | behind outer children rest ih =>
      rw [wrapped, marked, Forest.findAll, Forest.findAll]
      apply List.rel_append
      · split
        · exact List.Forall₂.cons ⟨rfl, breaks_map children⟩ List.Forall₂.nil
        · exact List.Forall₂.nil
      · exact List.rel_append (findAll_unselected names children) ih

end Selected

/-- Every text of the forest has a part. -/
def Filled (m : Forest (List (List Char))) : Prop := ∀ parts ∈ m.strings, parts ≠ []

theorem filled_map (f : Forest (List Char)) : Filled (f.map fun s => [s]) := by
  intro parts member
  rw [Forest.strings_map] at member
  obtain ⟨s, -, rfl⟩ := List.mem_map.mp member
  exact List.cons_ne_nil s []

theorem filled_text {parts : List (List Char)} {rest : Forest (List (List Char))} :
    Filled (.text parts rest) ↔ parts ≠ [] ∧ Filled rest := List.forall_mem_cons

theorem filled_element {tag : Tag} {children rest : Forest (List (List Char))} :
    Filled (.element tag children rest) ↔ Filled children ∧ Filled rest :=
  List.forall_mem_append

theorem Filled.glueFront {f : Forest (List (List Char))} (filled : Filled f)
    (content : List Char) : Filled (glueFront content f) := by
  have alone : ∀ f : Forest (List (List Char)), Filled f →
      Filled (if content = [] then f else .text [content] f) := by
    intro f filled
    split
    · exact filled
    · exact filled_text.mpr ⟨List.cons_ne_nil content [], filled⟩
  cases f with
  | nil => exact alone .nil filled
  | text parts rest =>
      obtain ⟨some, later⟩ := filled_text.mp filled
      exact filled_text.mpr ⟨List.append_ne_nil_of_right_ne_nil _ some, later⟩
  | element tag children rest => exact alone (.element tag children rest) filled

theorem Filled.glueBack {rest f : Forest (List (List Char))} (filled : Filled f)
    (later : Filled rest) (content : List Char) : Filled (glueBack content rest f) := by
  fun_induction Markup.glueBack content rest f with
  | case1 empty => exact later
  | case2 some => exact filled_text.mpr ⟨List.cons_ne_nil content [], later⟩
  | case3 parts =>
      have some := (filled_text.mp filled).1
      exact filled_text.mpr ⟨List.append_ne_nil_of_left_ne_nil some _, later⟩
  | case4 parts f _ ih =>
      obtain ⟨some, inner⟩ := filled_text.mp filled
      exact filled_text.mpr ⟨some, ih inner⟩
  | case5 tag children f ih =>
      obtain ⟨below, inner⟩ := filled_element.mp filled
      exact filled_element.mpr ⟨below, ih inner⟩

theorem Selected.filled_marked (s : Selected) : Filled s.marked := by
  induction s with
  | phrase before content after rest =>
      exact ((filled_map content).glueBack (filled_map rest) after).glueFront before
  | text content rest ih => exact filled_text.mpr ⟨List.cons_ne_nil content [], ih⟩
  | inside tag children rest ih => exact filled_element.mpr ⟨ih, filled_map rest⟩
  | behind tag children rest ih => exact filled_element.mpr ⟨filled_map children, ih⟩

/-- What is found holds no texts of its own. -/
theorem Forest.strings_subset {α : Type} {names : List String} {f : Forest α}
    {found : Tag × Forest α} (member : found ∈ f.findAll names) :
    ∀ s ∈ found.2.strings, s ∈ f.strings := by
  induction f with
  | nil => cases member
  | text content rest ih => exact fun s hs => List.mem_cons_of_mem _ (ih member s hs)
  | element tag children rest ihc ihr =>
      intro s hs
      rw [findAll, List.mem_append, List.mem_append] at member
      rw [strings, List.mem_append]
      obtain here | inChildren | inRest := member
      · split at here
        · obtain rfl := List.mem_singleton.mp here
          exact Or.inl hs
        · cases here
      · exact Or.inl (ihc inChildren s hs)
      · exact Or.inr (ihr inRest s hs)

end Markup
