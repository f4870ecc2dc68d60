import ModAtlas.Files.Path
import ModAtlas.Files.Authority
import ModAtlas.Text.Percent

/-!
# File URIs

`ofPath` writes an absolute path as a `file:` URI, every octet but letters, digits and `_.-~/`
as a percent escape. `toPath` reads a URI: the path of a `file:` URI, decoded; any other URI is
its own path. An authority that is not sound is an error.
-/

namespace ModAtlas.Files.Uri
open ModAtlas.Text

/-- Why a URI cannot be read. -/
inductive Error where
  | badAuthority
deriving DecidableEq, Repr

/-- The URI of a path, which is taken as absolute. -/
def ofPath (p : Path) : String :=
  "file://" ++ String.ofList (Percent.encode p.toString.toList)

/-- Controls and blanks before a URI are dropped, line ends and tabs everywhere in it. -/
def cleaned (uri : List Char) : List Char :=
  (uri.dropWhile fun c => c.toNat ≤ 0x20).filter fun c => c != '\t' && c != '\r' && c != '\n'

/-- A letter of ASCII. -/
def isLetter (c : Char) : Bool := ('a' ≤ c && c ≤ 'z') || ('A' ≤ c && c ≤ 'Z')

/-- Characters of a scheme. -/
def isSchemeChar (c : Char) : Bool :=
  isLetter c || isAsciiDigit c || c == '+' || c == '-' || c == '.'

/-- The scheme of a URI in lower case, empty if there is none, and the text after it. -/
def splitScheme (uri : List Char) : List Char × List Char :=
  match cut? ':' uri with
  | some (scheme, rest) =>
    match scheme with
    | [] => ([], uri)
    | c :: _ =>
      if isLetter c && scheme.all isSchemeChar then (scheme.map Char.toLower, rest) else ([], uri)
  | none => ([], uri)

/-- Ends the authority. -/
def endsAuthority (c : Char) : Bool := c == '/' || c == '?' || c == '#'

/-- The authority after two slashes, and the text after it. -/
def splitAuthority : List Char → List Char × List Char
  | '/' :: '/' :: rest =>
    (rest.takeWhile (!endsAuthority ·), rest.dropWhile (!endsAuthority ·))
  | rest => ([], rest)

/-- A path such as `/C:/mod` without its first slash. -/
def dropDriveSlash : List Char → List Char
  | '/' :: drive :: ':' :: rest => drive :: ':' :: rest
  | path => path

/-- The path that a URI leads to. -/
def toPath (uri : String) : Except Error String :=
  let (scheme, rest) := splitScheme (cleaned uri.toList)
  let (authority, rest) := splitAuthority rest
  if !Authority.isSound authority then .error .badAuthority
  else if scheme != "file".toList then .ok uri
  else .ok (String.ofList (dropDriveSlash (Percent.decode (before '?' (before '#' rest)))))

/-- The name of the file that a URI leads to. -/
def fileName (uri : String) : Except Error String := (toPath uri).map Files.fileName

end ModAtlas.Files.Uri
