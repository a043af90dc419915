import NovaLang.Report
import NovaLang.Text.Line
import NovaLang.Text.Word
import NovaLang.Token.Scan

namespace NovaLang.Grammar

/-! # Lexemes by what is accepted

The next lexeme of a text depends on the kinds that are accepted there. Of marks
the longest accepted one is taken. A word is a keyword only where that keyword
is accepted; where identifiers are accepted but the keyword is not, it is an
identifier. Where identifiers are not accepted, an accepted keyword is cut off
the front of whatever follows.
-/

/-- A lexeme: its kind, its characters and the line it begins on. -/
structure Lexeme where
  kind : Kind
  text : List Char
  line : Int
  deriving DecidableEq, Repr, Inhabited

/-- The characters of a lexeme as a text. -/
def Lexeme.string (l : Lexeme) : String := String.ofList l.text

/-- The words that are no identifiers and occur in no production. -/
def reservedWords : List String := ["class", "fun", "return", "super", "this"]

/-- The keywords that occur in productions. -/
def keywords : List (String × Kind) := [
  ("and", .kwAnd), ("else", .kwElse), ("false", .kwFalse), ("for", .kwFor), ("if", .kwIf),
  ("nil", .kwNil), ("or", .kwOr), ("print", .kwPrint), ("true", .kwTrue), ("var", .kwVar),
  ("while", .kwWhile)]

/-- The marks, longer ones first. -/
def marks : List (String × Kind) := [
  ("!=", .bangEqual), ("==", .equalEqual), (">=", .greaterEqual), ("<=", .lessEqual),
  ("(", .leftParen), (")", .rightParen), ("\x7b", .leftBrace), ("\x7d", .rightBrace),
  (",", .comma), ("-", .minus), ("+", .plus), (";", .semicolon), ("/", .slash), ("*", .star),
  ("!", .bang), ("=", .equal), (">", .greater), ("<", .less)]

/-- Every kind that occurs in a production. -/
def terminals : List Kind :=
  marks.map (·.2) ++ keywords.map (·.2) ++ [.identifier, .string, .number]

/-- Skips blanks and comments; `comment` says whether a comment is under way. -/
def skip : (comment : Bool) → (line : Int) → List Char → Int × List Char
  | _, line, [] => (line, [])
  | true, line, c :: rest => if c = '\n' then skip false (line + 1) rest else skip true line rest
  | false, line, c :: rest =>
    if c = '\n' then skip false (line + 1) rest
    else if c = ' ' || c = '\t' || c = '\r' then skip false line rest
    else if c = '/' && rest.head? = some '/' then skip true line rest
    else (line, c :: rest)

/-- A reserved word stands at the front and ends at a word boundary. -/
def reservedAt (cs : List Char) : Bool :=
  reservedWords.any fun w =>
    w.toList.isPrefixOf cs && !((cs.drop w.length).head?.any Text.isWordChar)

/-- The first of some fixed texts that stands at the front and is accepted. -/
def fixedAt? (texts : List (String × Kind)) (accepted : List Kind) (cs : List Char) :
    Option (Kind × List Char) :=
  (texts.find? fun (text, kind) => accepted.contains kind && text.toList.isPrefixOf cs).map
    fun (text, kind) => (kind, text.toList)

/-- The identifier or accepted keyword at the front. -/
def wordAt? (accepted : List Kind) (cs : List Char) : Option (Kind × List Char) :=
  if reservedAt cs then none
  else
    let word := cs.takeWhile Token.isAlphanumeric
    match (keywords.lookup (String.ofList word)) with
    | some kind => some (if accepted.contains kind then kind else .identifier, word)
    | none => some (.identifier, word)

/-- The kind and the characters of the accepted lexeme at the front of a text. -/
def lexemeAt? (accepted : List Kind) (cs : List Char) : Option (Kind × List Char) :=
  match cs with
  | [] => none
  | c :: rest =>
    if Token.isAlpha c then
      if accepted.contains .identifier then wordAt? accepted cs
      else fixedAt? keywords accepted cs
    else if Token.isDigit c then
      if accepted.contains .number then some (.number, c :: (Token.numberTail rest).1) else none
    else if c = '"' then
      match Token.quotedTail rest with
      | (.quoted, tail, _) => if accepted.contains .string then some (.string, c :: tail) else none
      | _ => none
    else fixedAt? marks accepted cs

/-- What is wrong at the front of a text where nothing that is accepted stands:
any lexeme or reserved word is named. -/
def complaintAt (cs : List Char) : Complaint :=
  match lexemeAt? terminals cs with
  | some (_, text) => .unexpected (String.ofList text)
  | none =>
    let word := String.ofList (cs.takeWhile Token.isAlphanumeric)
    if reservedWords.contains word then .unexpected word else .unexpectedCharacter

/-- What comes next in a text. -/
inductive Next where
  | lexeme (l : Lexeme) (rest : List Char)
  | endOfInput
  | error (line : Int) (complaint : Complaint)
  deriving DecidableEq, Repr

/-- The next accepted lexeme of a text that begins on a line. -/
def nextLexeme (accepted : List Kind) (line : Int) (cs : List Char) : Next :=
  match skip false line cs with
  | (_, []) => .endOfInput
  | (line, cs) =>
    match lexemeAt? accepted cs with
    | some (kind, text) => .lexeme ⟨kind, text, line⟩ (cs.drop text.length)
    | none => .error line (complaintAt cs)

end NovaLang.Grammar
