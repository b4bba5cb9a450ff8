import IncidentPipeline.Foundation.Lines
import IncidentPipeline.Foundation.Markup
import IncidentPipeline.Ingest.Pipeline

/-!
# Parsing HTML

`_parse_html` of `ingest/parse`, from the tree that BeautifulSoup builds. Texts of the
tree are sequences of characters; the searches are those of the markup library.
-/

namespace IncidentPipeline

open Python Lines Markup

/-- `_TAIL_MARKERS`. -/
def tailMarkers : List String :=
  ["related posts", "related news", "recommended reading", "further reading", "previous post",
   "next post", "share this article", "we do newsletters, too"]

/-- `_CHROME_TAGS`. -/
def chromeTags : List String :=
  ["script", "style", "noscript", "nav", "header", "footer", "svg", "iframe", "form", "aside"]

/-! ### Tail markers -/

/-- `line.strip().lower() in _TAIL_MARKERS`. -/
def isTailMarker (line : List Char) : Bool :=
  (stripChars line).map lowerChar ∈ tailMarkers.map String.toList

/-- The lines in front of the first marker, if there is one. -/
def linesBeforeMarker : List (List Char) → Option (List (List Char))
  | [] => none
  | line :: rest =>
      if isTailMarker line then some [] else (linesBeforeMarker rest).map (line :: ·)

/-- `_truncate_at_tail_marker`. -/
def truncateAtTailMarker (text : List Char) : List Char :=
  match linesBeforeMarker (lines text) with
  | some front => stripChars (['\n'].intercalate front)
  | none => text

/-! ### White space -/

/-- `re.sub(r"[ \t]+", " ", text)`: each run is replaced where it ends. -/
def collapseBlanks : List Char → List Char
  | [] => []
  | c :: cs =>
      if isBlank c then
        if cs.head?.any isBlank then collapseBlanks cs else ' ' :: collapseBlanks cs
      else c :: collapseBlanks cs

/-- How much of `cs` the pattern `\n\s*\n+` takes behind a newline: the white space up to
its last newline. -/
def breakLength (cs : List Char) : ℕ :=
  let run := cs.takeWhile isSpace
  run.length - (run.reverse.takeWhile (· ≠ '\n')).length

/-- `re.sub(r"\n\s*\n+", "\n\n", text)`, where `skip` characters still belong to the match
replaced last. -/
def squeezeFrom : ℕ → List Char → List Char
  | _, [] => []
  | skip + 1, _ :: cs => squeezeFrom skip cs
  | 0, c :: cs =>
      if c = '\n' ∧ '\n' ∈ cs.takeWhile isSpace then
        '\n' :: '\n' :: squeezeFrom (breakLength cs) cs
      else c :: squeezeFrom 0 cs

/-! ### Title -/

/-- `tag.string`: the text of an element that has no other content. -/
def onlyString : Forest (List Char) → Option (List Char)
  | .text content .nil => some content
  | .element _ children .nil => onlyString children
  | _ => none

/-- `text.rpartition(sep)`, if the separator occurs. -/
def rpartition (sep : List Char) : List Char → Option (List Char × List Char)
  | [] => none
  | c :: cs =>
      match rpartition sep cs with
      | some (head, tail) => some (c :: head, tail)
      | none => if sep.isPrefixOf (c :: cs) then some ([], (c :: cs).drop sep.length) else none

/-- The loop that strips a trailing site name off a title. -/
def dropSiteName (rawTitle : List Char) : List (List Char) → List Char
  | [] => rawTitle
  | sep :: seps =>
      match rpartition sep rawTitle with
      | some (head, tail) =>
          if head ≠ [] ∧ tail.length < 40 then stripChars head else dropSiteName rawTitle seps
      | none => dropSiteName rawTitle seps

/-- The content of the first `og:title`, if it has one that is not blank. -/
def ogTitle (soup : Forest (List Char)) : Option String :=
  ((soup.findAll ["meta"]).find? fun found =>
      found.1.attrs.lookup "property" = some "og:title").bind
    fun found => (found.1.attrs.lookup "content").bind fun content =>
      if strip content = "" then none else some (strip content)

/-- `_extract_html_title`. -/
def extractHtmlTitle (soup : Forest (List Char)) : Option String :=
  match ogTitle soup with
  | some title => some title
  | none =>
      (soup.findAll ["title"]).head?.bind fun title => (onlyString title.2).bind fun content =>
        if content = [] then none
        else some (String.ofList (dropSiteName (stripChars content)
          [" - ".toList, " | ".toList, " – ".toList]))

/-! ### The document -/

/-- The content of the longest `article` or `main`, or of `body`, or the whole soup; `size`
measures a text. -/
def mainContent {α : Type} (size : α → ℕ) (soup : Forest α) : Forest α :=
  match soup.findAll ["article", "main"] with
  | first :: others => firstMax (Forest.textLength size) first.2 (others.map Prod.snd)
  | [] =>
      match soup.findAll ["body"] with
      | body :: _ => body.2
      | [] => soup

/-- `node.get_text("\n")`. -/
def getText (node : Forest (List Char)) : List Char := ['\n'].intercalate node.strings

/-- What `_parse_html` does to the text of the node. -/
def tidy (text : List Char) : List Char :=
  truncateAtTailMarker (stripChars (squeezeFrom 0 (collapseBlanks text)))

/-- `_parse_html`, behind BeautifulSoup. -/
def parseSoup (soup : Forest (List Char)) : ParsedDocument where
  title := extractHtmlTitle soup
  text := String.ofList (tidy (getText (mainContent List.length (soup.decompose chromeTags))))

def parseHtml (beautifulSoup : Bytes → Forest (List Char)) (rawBytes : Bytes) : ParsedDocument :=
  parseSoup (beautifulSoup rawBytes)

end IncidentPipeline
