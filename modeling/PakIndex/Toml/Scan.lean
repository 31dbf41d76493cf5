/-!
# Characters and blanks of a TOML document

Readers take the characters that are left and yield a result with what is left after it, or nothing
if the text is malformed.

* `Toml.Reader`: a reader.
* `Toml.skipSpaces`, `Toml.skipBlanks`, `Toml.endLine`: what may stand between values and at the end
  of a line.
-/

namespace PakIndex.Toml

/-- Reads something off the characters that are left. -/
abbrev Reader (α : Type) := List Char → Option (α × List Char)

/-- A space or tabulator. -/
def isSpace (c : Char) : Bool := c == ' ' || c == '\t'

/-- A character that may stand in a comment. -/
def isPlain (c : Char) : Bool := c == '\t' || (' ' ≤ c && c ≤ '~') || '\u0080' ≤ c

/-- What is left after spaces and tabulators. -/
def skipSpaces (s : List Char) : List Char := s.dropWhile isSpace

/-- What is left after spaces, line ends and comments. -/
def skipBlanks : (inComment : Bool) → List Char → Option (List Char)
  | _, [] => some []
  | _, '\n' :: s => skipBlanks false s
  | _, '\r' :: '\n' :: s => skipBlanks false s
  | true, c :: s => if isPlain c then skipBlanks true s else none
  | false, c :: s =>
    if isSpace c then skipBlanks false s
    else if c = '#' then skipBlanks true s
    else some (c :: s)

/-- What is left after the end of a line, with a comment before it perhaps. -/
def endLine (s : List Char) : Option (List Char) :=
  let s := skipSpaces s
  let s := match s with
    | '#' :: s => s.dropWhile isPlain
    | s => s
  match s with
  | [] => some []
  | '\n' :: s => some s
  | '\r' :: '\n' :: s => some s
  | _ => none

/-- What is left after a given character. -/
def expect (c : Char) : List Char → Option (List Char)
  | [] => none
  | d :: s => if d = c then some s else none

end PakIndex.Toml
