import Linksurf.Components
import Linksurf.UrlJoin

/-!
# The links of a page

`LinksExtractor.extract` over what BeautifulSoup finds in the document: the
base element and the anchors. An address that raises ends the loop, and
`ExtractorsRegistry.extract` leaves no link of the page.
-/
namespace Linksurf.Pipeline

/-- `str.isspace`. -/
def isSpace (c : Char) : Bool :=
  (0x09 ≤ c.toNat && c.toNat ≤ 0x0d) || (0x1c ≤ c.toNat && c.toNat ≤ 0x20) || (0x2000 ≤ c.toNat && c.toNat ≤ 0x200a) ||
    [0x85, 0xa0, 0x1680, 0x2028, 0x2029, 0x202f, 0x205f, 0x3000].contains c.toNat

/-- `str.strip`. -/
def stripSpaces (s : List Char) : List Char := ((s.dropWhile isSpace).reverse.dropWhile isSpace).reverse

/-- An `a` element: its `href` and `rel`, and its text without surrounding
space. -/
structure Anchor where
  href : Option (List Char)
  rel : Option String
  text : String

/-- A value that is not empty: `value or None`. -/
def nonempty (s : String) : Option String := if s = "" then none else some s

/-- Links that lead to no page. -/
def skipped (href : List Char) : Bool :=
  href = [] || ["#", "mailto:", "javascript:"].any (fun start => start.toList.isPrefixOf href)

namespace LinksExtractor

variable (rt : Runtime)

/-- The base of the links, `none` where the base element raises. -/
def resolveBase (page : URL) : Option (List Char) → Option (List Char)
  | none => some page.address
  | some href => do
    let resolved ← rt.urljoin page.address (stripSpaces href)
    let url ← URL.ofAddress rt resolved
    if (url.scheme = http || url.scheme = https) && url.domain.isSome then return resolved
    else return page.address

/-- The link of an anchor whose `href` leads to a URL; both domains are needed. -/
def makeLink (page : URL) (a : Anchor) (href target : List Char) (url : URL) : Option Link :=
  match page.domain, url.domain with
  | some source, some host =>
    some { source := String.ofList page.address
           target := String.ofList target
           rawTarget := String.ofList href
           type := if source = host then .internal else .external
           text := nonempty a.text
           rel := a.rel.bind nonempty }
  | _, _ => none

/-- The body of the loop: a link or none, and `none` where it raises. -/
def visit (page : URL) (base : List Char) (a : Anchor) : Option (Option Link) :=
  match a.href with
  | none => some none
  | some href =>
    if skipped href then some none
    else do
      let target ← rt.urljoin base href
      let url ← URL.ofAddress rt target
      return makeLink page a href target url

def visitAll (page : URL) (base : List Char) : List Anchor → Option (List Link)
  | [] => some []
  | a :: anchors => do
    let link ← visit rt page base a
    let links ← visitAll page base anchors
    return link.toList ++ links

/-- `extract`, `none` where it raises. -/
def extract (page : URL) (base : Option (List Char)) (anchors : List Anchor) : Option (List Link) := do
  visitAll rt page (← resolveBase rt page base) anchors

/-- The entry of `ExtractorsRegistry.extract` for the links. -/
def result (page : URL) (base : Option (List Char)) (anchors : List Anchor) : ExtractorResult :=
  match extract rt page base anchors with
  | some links => ⟨"links", true, .list (links.map .record), none⟩
  | none => ⟨"links", true, .none, some ⟨"builtins.ValueError"⟩⟩

/-! ## One anchor after the other -/

variable {rt} {page : URL} {base : List Char} {a : Anchor}

deriving instance DecidableEq for Link

end LinksExtractor

end Linksurf.Pipeline
