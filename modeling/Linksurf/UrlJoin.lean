import Linksurf.UrlParse

/-!
# Joining a base and a reference

`urlparse`, `urlunparse` and `urljoin` of `urllib.parse`.
-/
namespace UrlParse

open Percent (partition)

/-- `uses_relative`. -/
def usesRelative : List (List Char) :=
  ["", "ftp", "http", "gopher", "nntp", "imap", "wais", "file", "https", "shttp", "mms", "prospero", "rtsp",
    "rtsps", "rtspu", "sftp", "svn", "svn+ssh", "ws", "wss"].map String.toList

/-- `uses_params`. -/
def usesParams : List (List Char) :=
  ["", "ftp", "hdl", "prospero", "http", "imap", "https", "shttp", "rtsp", "rtsps", "rtspu", "sip", "sips",
    "mms", "sftp", "tel"].map String.toList

structure ParseResult where
  scheme : List Char
  netloc : List Char
  path : List Char
  params : List Char
  query : List Char
  fragment : List Char
  deriving DecidableEq

/-- `_splitparams`: the parameters of the last segment. -/
def splitparams (path : List Char) : List Char × List Char :=
  let last := (path.reverse.takeWhile (· ≠ '/')).reverse
  let front := (path.reverse.dropWhile (· ≠ '/')).reverse
  if ';' ∈ last then (front ++ (partition ';' last).1, (partition ';' last).2) else (path, [])

/-- `urlparse` with a default scheme. -/
def urlparse (valid : List Char → Bool) (scheme url : List Char) : Option ParseResult :=
  (urlsplit valid url).map (fun split =>
    let scheme := if split.scheme = [] then scheme else split.scheme
    let parted := if usesParams.contains scheme then splitparams split.path else (split.path, [])
    ⟨scheme, split.netloc, parted.1, parted.2, split.query, split.fragment⟩)

def urlunparse (p : ParseResult) : List Char :=
  urlunsplit ⟨p.scheme, p.netloc, joinPart ';' p.path p.params, p.query, p.fragment⟩

/-- Drop the empty segments between the first and the last one. -/
def compact : List (List Char) → List (List Char)
  | [] => []
  | first :: rest => first :: (rest.dropLast.filter (· ≠ []) ++ rest.getLast?.toList)

/-- The segments so far, last one first, and those to come. -/
def resolveDots : List (List Char) → List (List Char) → List (List Char)
  | resolved, [] => resolved.reverse
  | resolved, seg :: segs =>
    if seg = ['.', '.'] then resolveDots resolved.tail segs
    else if seg = ['.'] then resolveDots resolved segs
    else resolveDots (seg :: resolved) segs

/-- The path of a reference as seen from the path of the base. -/
def resolvePath (base path : List Char) : List Char :=
  let baseParts := base.splitOn '/'
  let directory := if baseParts.getLast? = some [] then baseParts else baseParts.dropLast
  let segments := if rooted path then path.splitOn '/' else compact (directory ++ path.splitOn '/')
  let trailing := if segments.getLast? = some ['.'] || segments.getLast? = some ['.', '.'] then [[]] else []
  let joined := List.intercalate ['/'] (resolveDots [] segments ++ trailing)
  if joined = [] then ['/'] else joined

/-- What a parsed reference refers to, where it is relative to the base. -/
def joinParsed (base ref : ParseResult) : List Char :=
  if usesNetloc.contains ref.scheme && ref.netloc ≠ [] then urlunparse ref
  else
    let netloc := if usesNetloc.contains ref.scheme then base.netloc else ref.netloc
    if ref.path = [] && ref.params = [] then
      urlunparse { ref with
                   netloc
                   path := base.path
                   params := base.params
                   query := if ref.query = [] then base.query else ref.query }
    else urlunparse { ref with netloc, path := resolvePath base.path ref.path }

/-- `urljoin`, `none` where it raises. -/
def urljoin (valid : List Char → Bool) (base url : List Char) : Option (List Char) :=
  if base = [] then some url
  else if url = [] then some base
  else do
    let parsedBase ← urlparse valid [] base
    let parsed ← urlparse valid parsedBase.scheme url
    if parsed.scheme ≠ parsedBase.scheme || !usesRelative.contains parsed.scheme then return url
    else return joinParsed parsedBase parsed

example : urljoin (fun _ => true) "http://site/a//b;c".toList "../d/./e/..?f".toList = some "http://site/d/?f".toList := by
  decide +kernel

end UrlParse
