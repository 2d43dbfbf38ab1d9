/-!
# Source texts

Places in a source text are code point offsets from its start.  A text is cut into lines at a line
feed, a carriage return, or the two together; `position` turns an offset into a line and a column,
and `excerpt` shows the line of an offset, marked, between its neighbours.
-/

namespace GraphQLTyping.Source

/-- A **span** of a source text: the offsets of its first character and just past its last. -/
structure Span where
  start : Nat
  stop : Nat
deriving DecidableEq, Inhabited, Repr

/-- A line and a column, both counted from one. -/
structure Position where
  line : Nat
  column : Nat
deriving DecidableEq, Inhabited

/-- The two characters that end lines. -/
def isLineEnd (c : Char) : Bool := c == '\n' || c == '\r'

/-- The lines of a text; a text without line ends is one line. -/
def lines : List Char → List (List Char)
  | [] => [[]]
  | '\r' :: '\n' :: rest => [] :: lines rest
  | c :: rest =>
    if isLineEnd c then [] :: lines rest
    else match lines rest with
      | [] => [[c]]
      | line :: others => (c :: line) :: others

/-- The position reached from a given one after so many characters of the text. -/
def advance (p : Position) : List Char → Nat → Position
  | _, 0 => p
  | [], _ => p
  | '\r' :: '\n' :: rest, n + 2 => advance ⟨p.line + 1, 1⟩ rest n
  | c :: rest, n + 1 =>
    if isLineEnd c then advance ⟨p.line + 1, 1⟩ rest n
    else advance ⟨p.line, p.column + 1⟩ rest n

/-- The position of an offset. -/
def position (source : List Char) (offset : Nat) : Position := advance ⟨1, 1⟩ source offset

/-- A text moved to the right end of a field of the given width. -/
def padLeft (width : Nat) (text : String) : String :=
  String.ofList (List.replicate (width - text.length) ' ') ++ text

/-- Rows of an excerpt: each has its label, labels are aligned at their ends, and one space comes
before a text that is not empty. -/
def rows (labelled : List (String × String)) : List String :=
  let width := (labelled.map (·.1.length)).foldl max 0
  labelled.map fun (label, text) =>
    padLeft width label ++ if text.isEmpty then "" else " " ++ text

/-- The most characters of a line that is shown in one piece. -/
def wholeWidth : Nat := 120

/-- The characters of the pieces in which a longer line is shown. -/
def pieceWidth : Nat := 80

/-- A line in pieces, the last of them perhaps shorter. -/
def pieces (line : List Char) : List String :=
  (List.range ((line.length + pieceWidth - 1) / pieceWidth)).map fun i =>
    String.ofList ((line.drop (pieceWidth * i)).take pieceWidth)

/-- The rows for a position in a long line: its pieces up to the one of the column, a mark, and one
piece more. -/
def longRows (p : Position) (line : List Char) : List (String × String) :=
  let last := p.column / pieceWidth
  let labelled := (pieces line).zipIdx.map fun (piece, i) =>
    (if i = 0 then s!"{p.line} |" else "|", piece)
  labelled.take (last + 1) ++ ("|", padLeft (p.column % pieceWidth) "^")
    :: (labelled.drop (last + 1)).take 1

/-- The **excerpt** at an offset: its position, the line before it if there is one, its own line, a
mark under its column, and the line after it if there is one.  A long line is shown alone. -/
def excerpt (source : List Char) (offset : Nat) : String :=
  let p := position source offset
  let all := lines source
  let numbered (n : Nat) : List (String × String) :=
    if n = 0 then []
    else match all[n - 1]? with
      | some line => [(s!"{n} |", String.ofList line)]
      | none => []
  let mark := [("|", padLeft p.column "^")]
  let own := all[p.line - 1]?.getD []
  let shown :=
    if wholeWidth < own.length then longRows p own
    else numbered (p.line - 1) ++ numbered p.line ++ mark ++ numbered (p.line + 1)
  String.intercalate "\n" (s!"GraphQL request:{p.line}:{p.column}" :: rows shown)

end GraphQLTyping.Source
