import NovaLang.Value

namespace NovaLang

/-! # Tokens

A token is the smallest unit of a source text: its kind, its characters, the
value it denotes and its line. In a tree file, data of any kind may stand in the
place of the characters and of the line.
-/

/-- The kinds of tokens. -/
inductive Kind where
  | leftParen | rightParen | leftBrace | rightBrace | comma | dot | minus | plus
  | semicolon | slash | star
  | bang | bangEqual | equal | equalEqual | greater | greaterEqual | less | lessEqual
  | identifier | string | number
  | kwAnd | kwClass | kwElse | kwFalse | kwFun | kwFor | kwIf | kwNil | kwOr | kwPrint
  | kwReturn | kwSuper | kwThis | kwTrue | kwVar | kwWhile
  | eof
  deriving DecidableEq, Repr, Inhabited

namespace Kind

/-- Every kind of token. -/
def all : List Kind := [
  .leftParen, .rightParen, .leftBrace, .rightBrace, .comma, .dot, .minus, .plus, .semicolon,
  .slash, .star, .bang, .bangEqual, .equal, .equalEqual, .greater, .greaterEqual, .less,
  .lessEqual, .identifier, .string, .number, .kwAnd, .kwClass, .kwElse, .kwFalse, .kwFun,
  .kwFor, .kwIf, .kwNil, .kwOr, .kwPrint, .kwReturn, .kwSuper, .kwThis, .kwTrue, .kwVar,
  .kwWhile, .eof]

/-- The name of a kind in listings and tree files. -/
def name : Kind → String
  | .leftParen => "LEFT_PAREN"
  | .rightParen => "RIGHT_PAREN"
  | .leftBrace => "LEFT_BRACE"
  | .rightBrace => "RIGHT_BRACE"
  | .comma => "COMMA"
  | .dot => "DOT"
  | .minus => "MINUS"
  | .plus => "PLUS"
  | .semicolon => "SEMICOLON"
  | .slash => "SLASH"
  | .star => "STAR"
  | .bang => "BANG"
  | .bangEqual => "BANG_EQUAL"
  | .equal => "EQUAL"
  | .equalEqual => "EQUAL_EQUAL"
  | .greater => "GREATER"
  | .greaterEqual => "GREATER_EQUAL"
  | .less => "LESS"
  | .lessEqual => "LESS_EQUAL"
  | .identifier => "IDENTIFIER"
  | .string => "STRING"
  | .number => "NUMBER"
  | .kwAnd => "AND"
  | .kwClass => "CLASS"
  | .kwElse => "ELSE"
  | .kwFalse => "FALSE"
  | .kwFun => "FUN"
  | .kwFor => "FOR"
  | .kwIf => "IF"
  | .kwNil => "NIL"
  | .kwOr => "OR"
  | .kwPrint => "PRINT"
  | .kwReturn => "RETURN"
  | .kwSuper => "SUPER"
  | .kwThis => "THIS"
  | .kwTrue => "TRUE"
  | .kwVar => "VAR"
  | .kwWhile => "WHILE"
  | .eof => "EOF"

/-- The kind of a name. -/
def ofName? (name : String) : Option Kind :=
  all.find? fun k => k.name == name

/-- The keywords of the language. -/
def keywords : List (String × Kind) := [
  ("and", .kwAnd), ("class", .kwClass), ("else", .kwElse), ("false", .kwFalse),
  ("for", .kwFor), ("fun", .kwFun), ("if", .kwIf), ("nil", .kwNil), ("or", .kwOr),
  ("print", .kwPrint), ("return", .kwReturn), ("super", .kwSuper), ("this", .kwThis),
  ("true", .kwTrue), ("var", .kwVar), ("while", .kwWhile)]

/-- The kind of a keyword. -/
def keyword? (word : String) : Option Kind :=
  (keywords.find? fun k => k.1 == word).map (·.2)

/-- The kind of a word: a keyword's own kind, else an identifier. -/
def ofWord (word : String) : Kind :=
  (keyword? word).getD .identifier

theorem mem_all (k : Kind) : k ∈ all := by
  cases k <;> decide

end Kind

/-- A token. -/
structure Token where
  kind : Kind
  lexeme : Json
  literal : Value
  line : Json
  deriving DecidableEq, Repr, Inhabited

namespace Token

/-- A token of a source text: its lexeme is a text and its line a number. -/
def scanned (kind : Kind) (lexeme : String) (literal : Value) (line : Int) : Token :=
  ⟨kind, .str lexeme, literal, .int line⟩

/-- The lexeme as it is named in messages. -/
def text (t : Token) : String := t.lexeme.plain

/-- The line as it is named in messages. -/
def lineText (t : Token) : String := t.line.plain

@[simp] theorem text_scanned (kind : Kind) (lexeme : String) (literal : Value) (line : Int) :
    (scanned kind lexeme literal line).text = lexeme := rfl

@[simp] theorem lineText_scanned (kind : Kind) (lexeme : String) (literal : Value) (line : Int) :
    (scanned kind lexeme literal line).lineText = toString line := rfl

/-- The line of a token listing: kind, lexeme and literal. -/
def listing (t : Token) : String :=
  t.kind.name ++ " " ++ t.text ++ " " ++ t.literal.listing

end Token

end NovaLang
