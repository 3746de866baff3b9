/-!
The words of the language: literals, names, keywords and punctuation, each with the byte offset
where it starts, and the way messages speak of them.
-/
namespace Reckon

/-- Keywords and punctuation, the words with one spelling each. -/
inductive Symbol where
  | function | xor | and | or | not | inUnit | toUnit
  | plus | minus | star | slash | caret | percent
  | leftParen | rightParen | leftBracket | rightBracket | comma | semicolon
  | equals | equalEqual | bangEqual | lessEqual | greaterEqual | less | greater
  | bang | apostrophe | newline
  deriving DecidableEq, Repr

namespace Symbol

def spelling : Symbol → String
  | function => "function"
  | xor => "xor"
  | and => "and"
  | or => "or"
  | not => "not"
  | inUnit => "in"
  | toUnit => "to"
  | plus => "+"
  | minus => "-"
  | star => "*"
  | slash => "/"
  | caret => "^"
  | percent => "%"
  | leftParen => "("
  | rightParen => ")"
  | leftBracket => "["
  | rightBracket => "]"
  | comma => ","
  | semicolon => ";"
  | equals => "="
  | equalEqual => "=="
  | bangEqual => "!="
  | lessEqual => "<="
  | greaterEqual => ">="
  | less => "<"
  | greater => ">"
  | bang => "!"
  | apostrophe => "'"
  | newline => "\n"

def keywords : List Symbol := [function, xor, and, or, not, inUnit, toUnit]

def punctuation : List Symbol := [
  equalEqual, bangEqual, lessEqual, greaterEqual,
  plus, minus, star, slash, caret, percent, leftParen, rightParen, leftBracket, rightBracket,
  comma, semicolon, equals, less, greater, bang, apostrophe, newline]

/-- A line break has a name; every other symbol is shown between quotes. -/
def describe : Symbol → String
  | newline => "newline"
  | symbol => "'" ++ symbol.spelling ++ "'"

end Symbol

/-- A number keeps its text, since the settings decide later how it is read. -/
inductive Token where
  | number (digits : String)
  | boolean (value : Bool)
  | text (content : String)
  | identifier (name : String)
  | symbol (symbol : Symbol)
  deriving DecidableEq, Repr

namespace Token

def describe : Token → String
  | number digits => "number " ++ digits
  | boolean value => "boolean " ++ toString value
  | text content => "string \"" ++ content ++ "\""
  | identifier name => "identifier " ++ name
  | symbol s => s.describe

/-- The meaning of a word of letters: a truth value, a keyword, or else a name. -/
def ofWord (word : String) : Token :=
  if word = "true" then boolean true
  else if word = "false" then boolean false
  else match Symbol.keywords.find? (fun s => s.spelling = word) with
    | some keyword => symbol keyword
    | none => identifier word

end Token

structure Located where
  token : Token
  offset : Nat
  deriving DecidableEq, Repr

structure Unrecognized where
  text : String
  offset : Nat
  deriving DecidableEq, Repr

end Reckon
