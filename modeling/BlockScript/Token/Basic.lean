import BlockScript.Double.Text
import BlockScript.Location
import BlockScript.Text.Quoted

/-!
# Tokens

A token is a stretch of source text with its kind.  Numbers carry their value and identifiers their
name; every other kind is fixed.  Text that is no token of the language is a token of the kind
`invalid`, so that scanning never fails, and the end of the source is a token too.
-/

namespace BlockScript

/-- What a token is. -/
inductive Token.Kind where
  /-- An integer literal. -/
  | integer (n : Nat)
  /-- A literal with a fraction or an exponent. -/
  | float (x : Double)
  /-- A name that is no keyword. -/
  | identifier (name : String)
  /-- The keyword `var`. -/
  | var
  | leftBrace
  | rightBrace
  | leftParen
  | rightParen
  | semicolon
  | plus
  | minus
  | star
  | slash
  | equal
  | equalEqual
  | notEqual
  /-- The end of the source. -/
  | eof
  /-- Text that is no token of the language. -/
  | invalid
deriving DecidableEq

namespace Token.Kind

/-- The name of a kind, without what the token carries. -/
def name : Kind → String
  | integer _ => "Integer"
  | float _ => "Float"
  | identifier _ => "Identifier"
  | var => "Var"
  | leftBrace => "LeftBrace"
  | rightBrace => "RightBrace"
  | leftParen => "LeftParen"
  | rightParen => "RightParen"
  | semicolon => "Semicolon"
  | plus => "Plus"
  | minus => "Minus"
  | star => "Star"
  | slash => "Slash"
  | equal => "Equal"
  | equalEqual => "EqualEqual"
  | notEqual => "NotEqual"
  | eof => "Eof"
  | invalid => "Invalid"

/-- What a token carries beside its kind, as text. -/
def payload? : Kind → Option String
  | integer n => some (toString n)
  | float x => some x.text
  | identifier name => some name
  | _ => none

/-- A kind as messages show it, with what the token carries in parentheses. -/
def describe (k : Kind) : String :=
  match k with
  | integer n => s!"{k.name}({n})"
  | float x => s!"{k.name}({x.text})"
  | identifier name => s!"{k.name}({Text.quoted name})"
  | _ => k.name

/-- Whether the token is a keyword. -/
def isKeyword : Kind → Bool
  | var => true
  | _ => false

/-- Whether an expression can start with the token. -/
def startsExpression : Kind → Bool
  | integer _ | float _ | identifier _ | leftParen => true
  | _ => false

end Token.Kind

/-- A token: its kind, its text and its place. -/
structure Token where
  /-- What the token is. -/
  kind : Token.Kind
  /-- The source text of the token. -/
  text : List Char
  /-- The place of its first character. -/
  start : Position
  /-- The place behind its last character. -/
  stop : Position
deriving DecidableEq

/-- The tokens of a source: those before the end, and the one at the end. -/
structure Tokens where
  /-- The tokens before the end, in order. -/
  items : List Token
  /-- The token at the end of the source. -/
  finish : Token

end BlockScript
