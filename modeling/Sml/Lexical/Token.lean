import Sml.Source.Span

/-!
# Tokens

Reserved words and reserved symbols are ordinary identifiers and symbols
here; what they mean is decided where phrases are read.
-/

namespace Sml

/-- The classes of token, in order of preference: of two classes that match
equally many characters the earlier one wins. -/
inductive TokenKind where
  | leftParen
  | rightParen
  | leftBracket
  | rightBracket
  | leftBrace
  | rightBrace
  | comma
  | semicolon
  | ellipsis
  | underscore
  | identifier
  | typeVariable
  | charLiteral
  | symbol
  | real
  | integer
  | stringLiteral
deriving DecidableEq, Repr

namespace TokenKind

def all : List TokenKind :=
  [.leftParen, .rightParen, .leftBracket, .rightBracket, .leftBrace,
    .rightBrace, .comma, .semicolon, .ellipsis, .underscore, .identifier,
    .typeVariable, .charLiteral, .symbol, .real, .integer, .stringLiteral]

end TokenKind

structure Token where
  kind : TokenKind
  text : String
  span : Span
deriving DecidableEq, Repr

namespace Token

def describe (token : Token) : String :=
  match token.kind with
  | .identifier => "identifier '" ++ token.text ++ "'"
  | .typeVariable => "type variable '" ++ token.text ++ "'"
  | .charLiteral => "character " ++ token.text
  | .real => "real '" ++ token.text ++ "'"
  | .integer => "integer '" ++ token.text ++ "'"
  | .stringLiteral => "string " ++ token.text
  | _ => "'" ++ token.text ++ "'"

def name? (token : Token) : Option String :=
  match token.kind with
  | .identifier | .symbol => some token.text
  | _ => none

end Token

end Sml
