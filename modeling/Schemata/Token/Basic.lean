import Schemata.Position

/-!
# Tokens

A source is a sequence of tokens.  A `TokenKind` says what a token is, and the reserved words and
the symbols are two tables from spellings to kinds.  Some kinds have two spellings: `||` and `or`,
`!` and `not`, `^` and `**`.
-/

namespace Schemata

/-- The reserved words that open or continue a statement. -/
inductive Keyword where
  | collection
  | function
  | ifWord
  | elseWord
  | returnWord
  | constWord
  | letWord
  deriving DecidableEq, Repr, Inhabited

namespace Keyword

/-- Every keyword. -/
def all : List Keyword :=
  [.collection, .function, .ifWord, .elseWord, .returnWord, .constWord, .letWord]

/-- How a keyword is written. -/
def spelling : Keyword → String
  | .collection => "collection"
  | .function => "function"
  | .ifWord => "if"
  | .elseWord => "else"
  | .returnWord => "return"
  | .constWord => "const"
  | .letWord => "let"

end Keyword

/-- What a token is. -/
inductive TokenKind where
  /-- A run of blank characters. -/
  | whitespace
  /-- A comment to the end of its line, or one between its two marks. -/
  | comment
  /-- One of the two truth values. -/
  | boolean
  /-- A decimal number without sign or exponent. -/
  | number
  /-- A text between single or double quotes. -/
  | string
  /-- A word that is not reserved. -/
  | name
  | keyword (word : Keyword)
  | and
  | or
  | not
  | leftParen
  | rightParen
  | leftBracket
  | rightBracket
  | leftBrace
  | rightBrace
  | colon
  | comma
  | semicolon
  | dot
  | atSign
  | question
  | assign
  | addAssign
  | subAssign
  | equal
  | notEqual
  | less
  | lessEqual
  | greater
  | greaterEqual
  | plus
  | minus
  | star
  | slash
  | percent
  | power
  | ampersand
  deriving DecidableEq, Repr, Inhabited

namespace TokenKind

/-- Whether tokens of this kind only separate others. -/
def isTrivia : TokenKind → Bool
  | whitespace | comment => true
  | _ => false

/-- The short name of a kind: a word, or the first spelling of a symbol. -/
def label : TokenKind → String
  | whitespace => "whitespace"
  | comment => "comment"
  | boolean => "boolean"
  | number => "number"
  | string => "string"
  | name => "name"
  | keyword word => word.spelling
  | and => "&&"
  | or => "||"
  | not => "!"
  | leftParen => "("
  | rightParen => ")"
  | leftBracket => "["
  | rightBracket => "]"
  | leftBrace => "\x7b"
  | rightBrace => "\x7d"
  | colon => ":"
  | comma => ","
  | semicolon => ";"
  | dot => "."
  | atSign => "@"
  | question => "?"
  | assign => "="
  | addAssign => "+="
  | subAssign => "-="
  | equal => "=="
  | notEqual => "!="
  | less => "<"
  | lessEqual => "<="
  | greater => ">"
  | greaterEqual => ">="
  | plus => "+"
  | minus => "-"
  | star => "*"
  | slash => "/"
  | percent => "%"
  | power => "^"
  | ampersand => "&"

/-- Whether a kind is named by a word rather than by a symbol. -/
def isWord : TokenKind → Bool
  | whitespace | comment | boolean | number | string | name | keyword _ => true
  | _ => false

/-- How a kind is named in messages: a word stands for itself, a symbol in quotes. -/
def describe (kind : TokenKind) : String :=
  if kind.isWord then kind.label else "\"" ++ kind.label ++ "\""

/-- Every kind of token. -/
def all : List TokenKind :=
  [whitespace, comment, boolean, number, string, name] ++ Keyword.all.map keyword ++
    [and, or, not, leftParen, rightParen, leftBracket, rightBracket, leftBrace, rightBrace, colon,
     comma, semicolon, dot, atSign, question, assign, addAssign, subAssign, equal, notEqual, less,
     lessEqual, greater, greaterEqual, plus, minus, star, slash, percent, power, ampersand]

/-- Every kind is listed. -/
theorem mem_all (kind : TokenKind) : kind ∈ all := by
  cases kind with
  | keyword word => cases word <;> decide
  | _ => decide

/-- The kind with the given short name. -/
def ofLabel? (text : String) : Option TokenKind :=
  all.find? (·.label == text)

/-- A kind is found by its short name. -/
@[simp] theorem ofLabel?_label (kind : TokenKind) : ofLabel? kind.label = some kind := by
  cases kind with
  | keyword word => cases word <;> decide
  | _ => decide

/-- The symbols, those of two characters first, so that the first match is the longest. -/
def symbols : List (List Char × TokenKind) :=
  [(['&', '&'], and), (['|', '|'], or), (['*', '*'], power), (['=', '='], equal),
   (['!', '='], notEqual), (['<', '='], lessEqual), (['>', '='], greaterEqual),
   (['+', '='], addAssign), (['-', '='], subAssign),
   (['('], leftParen), ([')'], rightParen), (['['], leftBracket), ([']'], rightBracket),
   (['\x7b'], leftBrace), (['\x7d'], rightBrace), ([':'], colon), ([','], comma),
   ([';'], semicolon), (['.'], dot), (['@'], atSign), (['?'], question), (['!'], not),
   (['='], assign), (['<'], less), (['>'], greater), (['+'], plus), (['-'], minus),
   (['*'], star), (['/'], slash), (['%'], percent), (['^'], power), (['&'], ampersand)]

/-- The reserved words. -/
def reserved : List (String × TokenKind) :=
  Keyword.all.map (fun word => (word.spelling, keyword word)) ++
    [("true", boolean), ("false", boolean), ("or", or), ("not", not)]

/-- The kind of a reserved word. -/
def ofReserved? (word : String) : Option TokenKind :=
  reserved.lookup word

/-- The kind of a word: its own if it is reserved, a name otherwise. -/
def ofWord (word : String) : TokenKind :=
  (ofReserved? word).getD name

end TokenKind

/-- A token as it was read.  The `value` is what the token means (a string without its quotes and
    escapes), the `text` is the piece of source it was read from. -/
structure Token where
  kind : TokenKind
  value : String
  text : String
  position : Position
  /-- The number of newlines in the text. -/
  lineBreaks : Nat
  deriving DecidableEq, Repr, Inhabited

end Schemata
