import IncidentPipeline.Foundation.Spans
import IncidentPipeline.Foundation.Text
import Mathlib.Data.Finset.Sort
import Mathlib.Data.Prod.Lex

/-!
# Candidate passages

`review/candidates`: a document is cut into sentences, consecutive sentences are packed
into passages, and the passages that the cues of a field favour are shown to the
reviewer. The cues themselves are parameters: what a pattern finds in a text belongs to
the regular expression library.
-/

namespace IncidentPipeline

open Python Spans

/-- `WINDOW_CHARS`. -/
def windowChars : ℤ := 400

/-- `MAX_CANDIDATES`. -/
def maxCandidates : ℕ := 5

/-- `MIN_CANDIDATES`. -/
def minCandidates : ℕ := 3

structure Passage where
  start : ℕ
  «end» : ℕ
  text : String
deriving DecidableEq, Repr

structure Candidate where
  start : ℕ
  «end» : ℕ
  text : String
  cues : List String
deriving DecidableEq, Repr

/-- A `_Cue`: `hits` is `len(pattern.findall(text))` and `search` is the truth of
`pattern.search(text)`, which agree on whether there is a match at all. -/
structure Cue where
  name : String
  hits : String → ℕ
  search : String → Bool
  search_iff : ∀ text, search text = true ↔ hits text ≠ 0

/-! ### Sentences -/

def isStop (c : Char) : Bool := c = '.' || c = '!' || c = '?'

def isCloser (c : Char) : Bool := c = '"' || c = '\'' || c = ')' || c = ']'

/-- A match of `_BOUNDARY`: `stop` is where the sentence before it ends, `match.end("punct")`
or else `match.start()`; `finish` is `match.end()`. -/
structure Boundary where
  stop : ℕ
  finish : ℕ
deriving DecidableEq, Repr

/-- `_BOUNDARY` at the head of `cs`: the lengths of `punct` and of the whole match. No
shorter run of a class lets the pattern match where the longest one fails. -/
def matchBoundary (cs : List Char) : Option (ℕ × ℕ) :=
  let run := cs.takeWhile isStop
  let closers := (cs.drop run.length).takeWhile isCloser
  let punct := run.length + closers.length
  let space := (cs.drop punct).takeWhile isSpace
  if run ≠ [] ∧ space ≠ [] then some (punct, punct + space.length)
  else if cs.head? = some '\n' then some (0, 1)
  else none

/-- `_BOUNDARY.finditer` from position `pos`, where `skip` characters still belong to the
match found last. -/
def boundariesFrom (pos : ℕ) : ℕ → List Char → List Boundary
  | _, [] => []
  | skip + 1, _ :: cs => boundariesFrom (pos + 1) skip cs
  | 0, c :: cs =>
      match matchBoundary (c :: cs) with
      | some (punct, length) =>
          ⟨pos + punct, pos + length⟩ :: boundariesFrom (pos + 1) (length - 1) cs
      | none => boundariesFrom (pos + 1) 0 cs

/-- The closure `add`, for the piece that starts at `start` and ends at `stop`. -/
def addSentence (document : List Char) (start stop : ℕ) : List Span :=
  let text := (Span.mk start stop).slice document
  let lead := text.length - (text.dropWhile isSpace).length
  let trail := text.length - (text.reverse.dropWhile isSpace).length
  if start + lead < stop - trail then [⟨start + lead, stop - trail⟩] else []

/-- The loop of `_sentences` over the boundaries. -/
def sentencesFrom (document : List Char) (start : ℕ) : List Boundary → List Span
  | [] => addSentence document start document.length
  | m :: ms => addSentence document start m.stop ++ sentencesFrom document m.finish ms

/-- `_sentences`. -/
def sentences (document : String) : List Span :=
  sentencesFrom document.toList 0 (boundariesFrom 0 0 document.toList)

/-! ### Passages -/

/-- `_PARAGRAPH_BREAK.search`. -/
def paragraphBreak : List Char → Bool
  | [] => false
  | c :: cs => (c = '\n' && (cs.dropWhile isBlank).head? = some '\n') || paragraphBreak cs

/-- `document[start:end]`. -/
def textAt (document : String) (s : Span) : String := String.ofList (s.slice document.toList)

/-- The characters between the current passage and the next sentence. -/
def gap (document : String) (current next : Span) : List Char :=
  (Span.mk current.stop next.start).slice document.toList

/-- The test under which `passages` extends the current passage. -/
def joins (document : String) (window : ℤ) (current next : Span) : Bool :=
  ((next.stop : ℤ) - current.start ≤ window) && !paragraphBreak (gap document current next)

def passageSpans (document : String) (window : ℤ) : List Span :=
  match sentences document with
  | [] => []
  | current :: rest => pack (joins document window) current rest

def Passage.ofSpan (document : String) (s : Span) : Passage :=
  ⟨s.start, s.stop, textAt document s⟩

def passages (document : String) (window : ℤ) : List Passage :=
  (passageSpans document window).map (Passage.ofSpan document)

/-! ### Candidates -/

/-- The numbers of matches of the cues. -/
def matched (cues : List Cue) (text : String) : List ℕ := cues.map fun cue => cue.hits text

def distinct (cues : List Cue) (text : String) : ℕ := (matched cues text).countP (· ≠ 0)

/-- The tuple `(distinct, hits, -start, index)`. -/
abbrev Score (n : ℕ) := ℕ ×ₗ ℕ ×ₗ ℤ ×ₗ Fin n

def score (cues : List Cue) (ps : List Passage) (index : Fin ps.length) : Score ps.length :=
  let p := ps.get index
  toLex (distinct cues p.text, toLex ((matched cues p.text).sum, toLex (-(p.start : ℤ), index)))

def Score.index {n : ℕ} (s : Score n) : Fin n := (ofLex (ofLex (ofLex s).2).2).2

/-- `scored`, after `scored.sort(reverse=True)`. -/
def scored (cues : List Cue) (ps : List Passage) : List (Score ps.length) :=
  (((List.finRange ps.length).filter fun index => distinct cues (ps.get index).text ≠ 0).map
    (score cues ps)).mergeSort fun a b => b ≤ a

/-- The loop that adds the earliest passages while fewer than `MIN_CANDIDATES` are chosen. -/
def fill {n : ℕ} (chosen : Finset (Fin n)) : List (Fin n) → Finset (Fin n)
  | [] => chosen
  | index :: rest => if minCandidates ≤ chosen.card then chosen else fill (insert index chosen) rest

def chosen (cues : List Cue) (ps : List Passage) : Finset (Fin ps.length) :=
  fill (((scored cues ps).take maxCandidates).map Score.index).toFinset (List.finRange ps.length)

def Candidate.ofPassage (cues : List Cue) (p : Passage) : Candidate where
  start := p.start
  «end» := p.end
  text := p.text
  cues := (cues.filter fun cue => cue.search p.text).map Cue.name

def chooseCandidates (cues : List Cue) (document : String) : List Candidate :=
  let ps := passages document windowChars
  ((chosen cues ps).sort (· ≤ ·)).map fun index => Candidate.ofPassage cues (ps.get index)

/-- `candidates`; a field without an entry in `FIELD_CUES` is a `KeyError`. -/
def candidates (fieldCues : String → Option (List Cue)) (field document : String) :
    Option (List Candidate) :=
  (fieldCues field).map fun cues => chooseCandidates cues document

end IncidentPipeline
