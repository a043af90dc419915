import NovaLang.Decimal.Numeral
import NovaLang.Report
import NovaLang.Text.Line

namespace NovaLang

/-! # Scanning

A source text is cut into pieces from left to right, each determined by the
characters it begins with: marks, words, numbers, quoted texts, comments,
blanks, and characters that belong to nothing. A scanner keeps the piece under
way and what follows it; every token and every complaint carries the line that
is reached at the end of its piece.
-/

namespace Token

/-! ## Character classes -/

/-- A decimal digit. -/
def isDigit (c : Char) : Bool := '0' ≤ c && c ≤ '9'

/-- A letter or the underscore. -/
def isAlpha (c : Char) : Bool :=
  'a' ≤ c && c ≤ 'z' || 'A' ≤ c && c ≤ 'Z' || c == '_'

/-- A letter, a digit or the underscore. -/
def isAlphanumeric (c : Char) : Bool := isAlpha c || isDigit c

/-- The text lies between two characters in the order of texts by code points. -/
def between (low high : Char) (cs : List Char) : Bool :=
  decide (¬ cs < [low]) && decide (¬ [high] < cs)

/-- `isDigit` for texts of any length, in the order of texts. -/
def isDigitText (s : String) : Bool := between '0' '9' s.toList

/-- `isAlpha` for texts of any length, in the order of texts. -/
def isAlphaText (s : String) : Bool :=
  between 'a' 'z' s.toList || between 'A' 'Z' s.toList || s == "_"

/-- `isAlphanumeric` for texts of any length, in the order of texts. -/
def isAlphanumericText (s : String) : Bool := isAlphaText s || isDigitText s

/-! ## Pieces -/

/-- What a piece of a source text is. -/
inductive Shape where
  | mark (kind : Kind)
  | word
  | number
  | quoted
  /-- A text whose closing quotation mark is missing. -/
  | unclosed
  | comment
  | blank
  /-- A character that no token begins with. -/
  | stray
  deriving DecidableEq, Repr

/-- A piece: its shape and its characters. -/
structure Piece where
  shape : Shape
  text : List Char
  deriving DecidableEq, Repr

/-- The mark a character always is. -/
def soleMark? (c : Char) : Option Kind :=
  if c = '(' then some .leftParen
  else if c = ')' then some .rightParen
  else if c = '\x7b' then some .leftBrace
  else if c = '\x7d' then some .rightBrace
  else if c = ',' then some .comma
  else if c = '.' then some .dot
  else if c = '-' then some .minus
  else if c = '+' then some .plus
  else if c = ';' then some .semicolon
  else if c = '*' then some .star
  else none

/-- The marks a character is with and without an equals sign after it. -/
def pairedMark? (c : Char) : Option (Kind × Kind) :=
  if c = '!' then some (.bangEqual, .bang)
  else if c = '=' then some (.equalEqual, .equal)
  else if c = '<' then some (.lessEqual, .less)
  else if c = '>' then some (.greaterEqual, .greater)
  else none

/-- The rest of a word. -/
def wordTail (cs : List Char) : List Char × List Char :=
  (cs.takeWhile isAlphanumeric, cs.dropWhile isAlphanumeric)

/-- The rest of a number: digits, and a point only when a digit follows it. -/
def numberTail (cs : List Char) : List Char × List Char :=
  let whole := cs.takeWhile isDigit
  match cs.dropWhile isDigit with
  | '.' :: d :: rest =>
    if isDigit d then
      (whole ++ '.' :: (d :: rest).takeWhile isDigit, (d :: rest).dropWhile isDigit)
    else (whole, '.' :: d :: rest)
  | rest => (whole, rest)

/-- The rest of a comment, up to the line break. -/
def commentTail (cs : List Char) : List Char × List Char :=
  (cs.takeWhile (· != '\n'), cs.dropWhile (· != '\n'))

/-- The rest of a quoted text, its closing quotation mark included. -/
def quotedTail (cs : List Char) : Shape × List Char × List Char :=
  let body := cs.takeWhile (· != '"')
  match cs.dropWhile (· != '"') with
  | [] => (.unclosed, body, [])
  | mark :: rest => (.quoted, body ++ [mark], rest)

/-- The piece that `c :: cs` begins with, and the text after it. -/
def nextPiece (c : Char) (cs : List Char) : Piece × List Char :=
  match soleMark? c with
  | some kind => (⟨.mark kind, [c]⟩, cs)
  | none =>
    match pairedMark? c with
    | some (withEqual, alone) =>
      match cs with
      | '=' :: rest => (⟨.mark withEqual, [c, '=']⟩, rest)
      | _ => (⟨.mark alone, [c]⟩, cs)
    | none =>
      if c = '/' then
        match cs with
        | '/' :: rest =>
          let (tail, rest) := commentTail rest
          (⟨.comment, c :: '/' :: tail⟩, rest)
        | _ => (⟨.mark .slash, [c]⟩, cs)
      else if c = ' ' || c = '\r' || c = '\t' || c = '\n' then (⟨.blank, [c]⟩, cs)
      else if c = '"' then
        let (shape, tail, rest) := quotedTail cs
        (⟨shape, c :: tail⟩, rest)
      else if isDigit c then
        let (tail, rest) := numberTail cs
        (⟨.number, c :: tail⟩, rest)
      else if isAlpha c then
        let (tail, rest) := wordTail cs
        (⟨.word, c :: tail⟩, rest)
      else (⟨.stray, [c]⟩, cs)

end Token

/-! ## The scanner -/

/-- A scanner at work. -/
structure Scanner where
  /-- The number of characters in front of the piece under way. -/
  start : Nat
  /-- The characters of the piece under way. -/
  lexeme : List Char
  /-- The characters still to come. -/
  rest : List Char
  line : Int
  tokens : Array Token
  report : Report
  deriving Repr

/-- Why a step of a scanner fails. -/
inductive ScanFault where
  /-- There is no character left. -/
  | pastEnd
  /-- The characters under way are no numeral. -/
  | notNumeral (text : String)
  deriving DecidableEq, Repr

/-- The wording of a scanner's failure. -/
def ScanFault.message : ScanFault → String
  | .pastEnd => "string index out of range"
  | .notNumeral text => "could not convert string to float: " ++ Text.quoted text

namespace Scanner

open Token

/-- A scanner in front of a source text. -/
def ofSource (source : String) (report : Report) : Scanner :=
  { start := 0, lexeme := [], rest := source.toList, line := 1, tokens := #[], report }

/-- The number of characters passed so far. -/
def position (s : Scanner) : Nat := s.start + s.lexeme.length

/-- The characters under way as a text. -/
def text (s : Scanner) : String := String.ofList s.lexeme

/-- Nothing is left. -/
def isAtEnd (s : Scanner) : Bool := s.rest.isEmpty

/-- The next character; at the end the null character. -/
def peek (s : Scanner) : Char := s.rest.headD '\x00'

/-- The character after the next one; at the end the null character. -/
def peekNext (s : Scanner) : Char := (s.rest.drop 1).headD '\x00'

/-- Starts a new piece. -/
def begin (s : Scanner) : Scanner :=
  { s with start := s.position, lexeme := [] }

/-- Adds characters to the piece under way and leaves `rest`. -/
def extend (s : Scanner) (text rest : List Char) : Scanner :=
  { s with lexeme := s.lexeme ++ text, rest, line := s.line + Text.lineBreaks text }

/-- Passes one character. -/
def advance (s : Scanner) : Except ScanFault Char × Scanner :=
  match s.rest with
  | [] => (.error .pastEnd, s)
  | c :: rest => (.ok c, { s with lexeme := s.lexeme ++ [c], rest })

/-- Passes the next character if it is the whole of the expected text. -/
def accept (s : Scanner) (expected : String) : Bool × Scanner :=
  match s.rest with
  | [] => (false, s)
  | c :: rest =>
    if expected.toList = [c] then (true, { s with lexeme := s.lexeme ++ [c], rest })
    else (false, s)

/-- Ends the piece under way as a token. -/
def addToken (s : Scanner) (kind : Kind) (literal : Value) : Scanner :=
  { s with tokens := s.tokens.push (.scanned kind s.text literal s.line) }

/-- Complains at the current line. -/
def complain (s : Scanner) (complaint : Complaint) : Scanner :=
  { s with report := s.report.atLine s.line complaint }

/-- The double that the piece under way stands for. -/
def numeral? (s : Scanner) : Option Float :=
  (Decimal.readPlain? s.lexeme).orElse fun _ => Decimal.read? s.text

/-- Ends the piece under way, which has a shape. -/
def finish (s : Scanner) : Shape → Except ScanFault Unit × Scanner
  | .mark kind => (.ok (), s.addToken kind .nil)
  | .word => (.ok (), s.addToken (Kind.ofWord s.text) .nil)
  | .number =>
    match s.numeral? with
    | some x => (.ok (), s.addToken .number (.number x))
    | none => (.error (.notNumeral s.text), s)
  | .quoted => (.ok (), s.addToken .string (.text (String.ofList (s.lexeme.drop 1).dropLast)))
  | .unclosed => (.ok (), s.complain .unterminatedString)
  | .stray => (.ok (), s.complain .unexpectedCharacter)
  | .comment | .blank => (.ok (), s)

/-- Passes the rest of a quoted text and ends it. -/
def quotedText (s : Scanner) : Except ScanFault Unit × Scanner :=
  let (shape, tail, rest) := quotedTail s.rest
  (s.extend tail rest).finish shape

/-- Passes the rest of a number and ends it. -/
def number (s : Scanner) : Except ScanFault Unit × Scanner :=
  let (tail, rest) := numberTail s.rest
  (s.extend tail rest).finish .number

/-- Passes the rest of a word and ends it. -/
def word (s : Scanner) : Except ScanFault Unit × Scanner :=
  let (tail, rest) := wordTail s.rest
  (s.extend tail rest).finish .word

/-- Passes one piece and ends it. -/
def scanToken (s : Scanner) : Except ScanFault Unit × Scanner :=
  match s.rest with
  | [] => (.error .pastEnd, s)
  | c :: cs =>
    let (piece, rest) := nextPiece c cs
    (s.extend piece.text rest).finish piece.shape

/-- Adds the token that ends every token list. -/
def addEnd (s : Scanner) : Scanner :=
  { s with tokens := s.tokens.push (.scanned .eof "" .nil s.line) }

/-- Passes pieces until nothing is left; there are at most as many as characters. -/
def scanPieces : (count : Nat) → Scanner → Except ScanFault Unit × Scanner
  | 0, s => (.ok (), s)
  | count + 1, s =>
    if s.isAtEnd then (.ok (), s)
    else match s.begin.scanToken with
      | (.ok (), s) => scanPieces count s
      | (.error fault, s) => (.error fault, s)

/-- Scans all that is left and ends the token list. -/
def scanTokens (s : Scanner) : Except ScanFault Unit × Scanner :=
  match s.scanPieces s.rest.length with
  | (.ok (), s) => (.ok (), s.addEnd)
  | (.error fault, s) => (.error fault, s)

end Scanner

/-- The tokens of a source text and the report with the static errors found in it added. -/
def Token.scan (source : String) (report : Report) : List Token × Report :=
  let s := (Scanner.ofSource source report).scanTokens.2
  (s.tokens.toList, s.report)

end NovaLang
