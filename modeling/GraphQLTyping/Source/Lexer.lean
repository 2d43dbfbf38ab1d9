import GraphQLTyping.Source.Token

/-!
# Reading tokens

`Tokens.read` cuts a text into tokens.  Blanks, commas, line ends, byte order marks and comments
stand between tokens and are passed over.  A part that starts no token, or starts one that is
broken off, ends the tokens with the failure and its place; nothing after it is read.

Each reader below is given the offset at which its characters start, and answers how many of them it
takes.
-/

namespace GraphQLTyping.Source

/-- A character as messages show it: printable ASCII in quotes, any other by its code point. -/
def showChar (c : Char) : String :=
  if c == '"' then "'\"'"
  else if ' ' ≤ c ∧ c ≤ '~' then "'" ++ c.toString ++ "'"
  else
    let digits := (Nat.toDigits 16 c.toNat).map Char.toUpper
    "U+" ++ String.ofList (List.replicate (4 - digits.length) '0' ++ digits)

/-- The first character of what is left, as messages show it. -/
def showNext : List Char → String
  | [] => "<EOF>"
  | c :: _ => showChar c

/-- The characters that are ignored between tokens. -/
def isIgnored (c : Char) : Bool :=
  c == ' ' || c == '\t' || c == ',' || c == '\ufeff' || isLineEnd c

/-- The characters a name starts with. -/
def isNameStart (c : Char) : Bool := c.isAlpha || c == '_'

/-- The characters a name goes on with. -/
def isNamePart (c : Char) : Bool := isNameStart c || c.isDigit

/-! ### Numbers -/

/-- One digit or more, and what follows them. -/
def readDigits (offset : Nat) (cs : List Char) :
    Except SyntaxError (List Char × List Char) :=
  match cs.span Char.isDigit with
  | ([], rest) => .error ⟨s!"Invalid number, expected digit but got: {showNext rest}.", offset⟩
  | split => .ok split

/-- The digits before the point: a zero alone, or digits that may go on. -/
def readWhole (offset : Nat) : List Char → Except SyntaxError (List Char × List Char)
  | '0' :: rest =>
    match rest with
    | c :: _ =>
      if c.isDigit then
        .error ⟨s!"Invalid number, unexpected digit after 0: {showChar c}.", offset + 1⟩
      else .ok (['0'], rest)
    | [] => .ok (['0'], [])
  | cs => readDigits offset cs

/-- A point and digits, or nothing. -/
def readFraction (offset : Nat) : List Char → Except SyntaxError (List Char × List Char)
  | '.' :: rest => do
    let (digits, rest) ← readDigits (offset + 1) rest
    return ('.' :: digits, rest)
  | cs => .ok ([], cs)

/-- An exponent mark, a sign or none, and digits; or nothing. -/
def readExponent (offset : Nat) (cs : List Char) :
    Except SyntaxError (List Char × List Char) :=
  match cs with
  | mark :: rest =>
    if mark == 'e' || mark == 'E' then
      match rest with
      | sign :: after =>
        if sign == '+' || sign == '-' then do
          let (digits, rest) ← readDigits (offset + 2) after
          return (mark :: sign :: digits, rest)
        else do
          let (digits, rest) ← readDigits (offset + 1) rest
          return (mark :: digits, rest)
      | [] => do
        let (digits, rest) ← readDigits (offset + 1) rest
        return (mark :: digits, rest)
    else .ok ([], cs)
  | [] => .ok ([], [])

/-- A number.  Neither a point nor the start of a name may follow it. -/
def readNumber (offset : Nat) (cs : List Char) : Except SyntaxError (Lexeme × Nat) := do
  let (sign, rest) := match cs with
    | '-' :: rest => (['-'], rest)
    | _ => ([], cs)
  let (whole, rest) ← readWhole (offset + sign.length) rest
  let before := sign ++ whole
  let (fraction, rest) ← readFraction (offset + before.length) rest
  let before := before ++ fraction
  let (exponent, rest) ← readExponent (offset + before.length) rest
  let text := before ++ exponent
  match rest with
  | c :: _ =>
    if c == '.' || isNameStart c then
      throw ⟨s!"Invalid number, expected digit but got: {showChar c}.", offset + text.length⟩
  | [] => pure ()
  let digits := String.ofList text
  return (if fraction.isEmpty && exponent.isEmpty then .int digits else .float digits,
    text.length)

/-! ### Strings -/

/-- The value of a hexadecimal digit. -/
def hexDigit? (c : Char) : Option Nat :=
  if '0' ≤ c ∧ c ≤ '9' then some (c.toNat - '0'.toNat)
  else if 'A' ≤ c ∧ c ≤ 'F' then some (c.toNat - 'A'.toNat + 10)
  else if 'a' ≤ c ∧ c ≤ 'f' then some (c.toNat - 'a'.toNat + 10)
  else none

/-- The number that hexadecimal digits write. -/
def hexNumber? (cs : List Char) : Option Nat :=
  cs.foldlM (fun n c => (hexDigit? c).map (16 * n + ·)) 0

/-- Four hexadecimal digits at the start of the characters. -/
def fourHexDigits? (cs : List Char) : Option Nat :=
  if (cs.take 4).length = 4 then hexNumber? (cs.take 4) else none

/-- The character of a code point, if the code point is one. -/
def scalar? (n : Nat) : Option Char := if n.isValidChar then some (Char.ofNat n) else none

/-- The failure of an escape that takes so many characters, the backslash included. -/
def badUnicodeEscape (offset : Nat) (cs : List Char) (width : Nat) : SyntaxError :=
  ⟨s!"Invalid Unicode escape sequence: '{String.ofList (cs.take width)}'.", offset⟩

/-- An escape of four hexadecimal digits; two that form a surrogate pair are one character. -/
def readFixedEscape (offset : Nat) (cs : List Char) : Except SyntaxError (Char × Nat) :=
  let paired : Option (Char × Nat) := do
    let high ← fourHexDigits? (cs.drop 2)
    guard (0xD800 ≤ high ∧ high ≤ 0xDBFF)
    guard ((cs.drop 6).take 2 = ['\\', 'u'])
    let low ← fourHexDigits? (cs.drop 8)
    guard (0xDC00 ≤ low ∧ low ≤ 0xDFFF)
    let c ← scalar? (0x10000 + 0x400 * (high - 0xD800) + (low - 0xDC00))
    return (c, 12)
  match (fourHexDigits? (cs.drop 2)).bind scalar? with
  | some c => .ok (c, 6)
  | none =>
    match paired with
    | some answer => .ok answer
    | none => .error (badUnicodeEscape offset cs 6)

/-- An escape of one to eight hexadecimal digits in braces.  A failure shows the escape up to the
character at which it failed. -/
def readBracedEscape (offset : Nat) (cs : List Char) : Except SyntaxError (Char × Nat) :=
  go (min 12 cs.length - 3) 3 0 (cs.drop 3)
where
  /-- Reads on, with so many characters to go, from a width and a value reached. -/
  go : Nat → Nat → Nat → List Char → Except SyntaxError (Char × Nat)
    | left + 1, width, value, c :: rest =>
      if c == '\x7d' then
        match (if width < 4 then none else scalar? value) with
        | some answer => .ok (answer, width + 1)
        | none => .error (badUnicodeEscape offset cs (width + 1))
      else
        match hexDigit? c with
        | some digit => go left (width + 1) (16 * value + digit) rest
        | none => .error (badUnicodeEscape offset cs (width + 1))
    | _, width, _, _ => .error (badUnicodeEscape offset cs width)

/-- The character that a letter after a backslash stands for. -/
def escapedChar? : Char → Option Char
  | '"' => some '"'
  | '/' => some '/'
  | '\\' => some '\\'
  | 'b' => some '\x08'
  | 'f' => some '\x0c'
  | 'n' => some '\n'
  | 'r' => some '\r'
  | 't' => some '\t'
  | _ => none

/-- The escape at the start of the characters, a backslash. -/
def readEscape (offset : Nat) (cs : List Char) : Except SyntaxError (Char × Nat) :=
  match cs.drop 1 with
  | 'u' :: '\x7b' :: _ => readBracedEscape offset cs
  | 'u' :: _ => readFixedEscape offset cs
  | letters =>
    match letters.head?.bind escapedChar? with
    | some c => .ok (c, 2)
    | none =>
      .error ⟨s!"Invalid character escape sequence: '{String.ofList (cs.take 2)}'.", offset⟩

/-- The value of a string up to its closing quote, and the offset past the quote. -/
def readString (offset : Nat) : List Char → Except SyntaxError (List Char × Nat)
  | [] => .error ⟨"Unterminated string.", offset⟩
  | c :: rest =>
    if c == '"' then .ok ([], offset + 1)
    else if isLineEnd c then .error ⟨"Unterminated string.", offset⟩
    else if c == '\\' then do
      let (escaped, width) ← readEscape offset (c :: rest)
      let (value, stop) ← readString (offset + width) (rest.drop (width - 1))
      return (escaped :: value, stop)
    else do
      let (value, stop) ← readString (offset + 1) rest
      return (c :: value, stop)
termination_by cs => cs.length
decreasing_by all_goals simp only [List.length_drop, List.length_cons]; omega

/-- The raw text of a block string up to its closing quotes, and the offset past them.  Three
quotes after a backslash are part of the text. -/
def readBlock (offset : Nat) : List Char → Except SyntaxError (List Char × Nat)
  | '"' :: '"' :: '"' :: _ => .ok ([], offset + 3)
  | '\\' :: '"' :: '"' :: '"' :: rest => do
    let (value, stop) ← readBlock (offset + 4) rest
    return ('"' :: '"' :: '"' :: value, stop)
  | c :: rest => do
    let (value, stop) ← readBlock (offset + 1) rest
    return (c :: value, stop)
  | [] => .error ⟨"Unterminated string.", offset⟩

/-- The blanks that indent a line. -/
def indentation (line : List Char) : Nat :=
  (line.takeWhile fun c => c == ' ' || c == '\t').length

/-- Whether a line holds blanks only. -/
def isBlank (line : List Char) : Bool := indentation line == line.length

/-- The lines of a block string without the indentation that all but the first share, and without
blank lines before and after the others. -/
def dedent (source : List (List Char)) : List (List Char) :=
  let indented := (source.drop 1).filter (!isBlank ·)
  let common := (indented.map indentation).min?.getD 0
  let shifted := source.take 1 ++ (source.drop 1).map (·.drop common)
  ((shifted.dropWhile isBlank).reverse.dropWhile isBlank).reverse

/-- The value of a block string with the given raw text. -/
def blockValue (raw : List Char) : String :=
  String.intercalate "\n" ((dedent (lines raw)).map String.ofList)

/-! ### Tokens -/

/-- The token at the start of characters that are not ignored, and how many it takes. -/
def readToken (offset : Nat) (cs : List Char) : Except SyntaxError (Lexeme × Nat) :=
  match cs with
  | '"' :: '"' :: '"' :: rest => do
    let (raw, stop) ← readBlock (offset + 3) rest
    return (.string (blockValue raw) true, stop - offset)
  | '"' :: rest => do
    let (value, stop) ← readString (offset + 1) rest
    return (.string (String.ofList value) false, stop - offset)
  | '.' :: '.' :: '.' :: _ => .ok (.punctuator .spread, 3)
  | c :: _ =>
    match Punctuator.ofChar? c with
    | some mark => .ok (.punctuator mark, 1)
    | none =>
      if c.isDigit || c == '-' then readNumber offset cs
      else if isNameStart c then
        let text := cs.takeWhile isNamePart
        .ok (.name (String.ofList text), text.length)
      else if c == '\'' then
        .error ⟨"Unexpected single quote character ('), did you mean to use a double quote (\")?",
          offset⟩
      else .error ⟨s!"Unexpected character: {showChar c}.", offset⟩
  | [] => .ok (.endOfText, 0)

/-- The tokens of the characters from an offset on. -/
def readTokens (offset : Nat) : List Char → Tokens
  | [] => ⟨[], .ok offset⟩
  | c :: rest =>
    if isIgnored c then readTokens (offset + 1) rest
    else if c == '#' then
      let width := (rest.takeWhile (!isLineEnd ·)).length
      readTokens (offset + 1 + width) (rest.drop width)
    else
      match readToken offset (c :: rest) with
      | .error failure => ⟨[], .error failure⟩
      | .ok (lexeme, width) =>
        let others := readTokens (offset + width) (rest.drop (width - 1))
        { others with tokens := ⟨lexeme, offset, offset + width⟩ :: others.tokens }
termination_by cs => cs.length
decreasing_by all_goals simp only [List.length_drop, List.length_cons]; omega

/-- The tokens of a text. -/
def Tokens.read (source : String) : Tokens := readTokens 0 source.toList

end GraphQLTyping.Source
