import Sml.Lexical.Token

/-!
# From text to tokens

Each class of token says how many characters it matches at the front of a
text.  The scanner skips blanks and takes the class that matches most, the
earliest such class on a tie.  Columns count bytes, and only a line feed
between tokens starts a new line: one inside a string literal does not.
-/

namespace Sml

def isBlank (c : Char) : Bool :=
  c == ' ' || c == '\t' || c == '\n' || c == '\x0c' || c == '\r'

def isSymbolic (c : Char) : Bool :=
  "!%&$#+-/:<=>?@\\~`^|*".toList.contains c

def isNameTail (c : Char) : Bool :=
  c.isAlphanum || c == '_' || c == '\''

def countWhile (p : Char → Bool) (text : List Char) : Nat :=
  (text.takeWhile p).length

def atLeastOne (count : Nat) : Option Nat :=
  if count = 0 then none else some count

/-- What continues an identifier: letters, digits, underscores and primes,
and a point with a letter after it. -/
def identifierTail : List Char → Nat
  | [] => 0
  | '.' :: c :: rest => if c.isAlpha then 2 + identifierTail rest else 0
  | c :: rest => if isNameTail c then 1 + identifierTail rest else 0

def matchIdentifier : List Char → Option Nat
  | c :: rest => if c.isAlpha then some (1 + identifierTail rest) else none
  | [] => none

def matchTypeVariable : List Char → Option Nat
  | '\'' :: rest => (atLeastOne (countWhile isNameTail rest)).map (1 + ·)
  | _ => none

/-- Up to and including the closing quote.  A backslash takes one more
character, which is not a line feed. -/
def quotedTail : List Char → Option Nat
  | [] => none
  | '"' :: _ => some 1
  | '\\' :: [] => none
  | '\\' :: c :: rest =>
    if c = '\n' then none else (quotedTail rest).map (2 + ·)
  | _ :: rest => (quotedTail rest).map (1 + ·)

def matchString : List Char → Option Nat
  | '"' :: rest => (quotedTail rest).map (1 + ·)
  | _ => none

def matchChar : List Char → Option Nat
  | '#' :: '"' :: rest => (quotedTail rest).map (2 + ·)
  | _ => none

def matchSymbol (text : List Char) : Option Nat :=
  atLeastOne (countWhile isSymbolic text)

def matchInteger : List Char → Option Nat
  | '~' :: rest => (atLeastOne (countWhile Char.isDigit rest)).map (1 + ·)
  | text => atLeastOne (countWhile Char.isDigit text)

def matchExponent : List Char → Option Nat
  | 'e' :: rest | 'E' :: rest => (matchInteger rest).map (1 + ·)
  | _ => none

def matchReal (text : List Char) : Option Nat := do
  let whole ← matchInteger text
  match text.drop whole with
  | '.' :: rest =>
    let digits ← atLeastOne (countWhile Char.isDigit rest)
    let exponent := (matchExponent (rest.drop digits)).getD 0
    return whole + 1 + digits + exponent
  | rest =>
    let exponent ← matchExponent rest
    return whole + exponent

def matchText (word : List Char) (text : List Char) : Option Nat :=
  if word.isPrefixOf text then some word.length else none

namespace TokenKind

def match? : TokenKind → List Char → Option Nat
  | .leftParen => matchText ['(']
  | .rightParen => matchText [')']
  | .leftBracket => matchText ['[']
  | .rightBracket => matchText [']']
  | .leftBrace => matchText ['\x7b']
  | .rightBrace => matchText ['\x7d']
  | .comma => matchText [',']
  | .semicolon => matchText [';']
  | .ellipsis => matchText ['.', '.', '.']
  | .underscore => matchText ['_']
  | .identifier => matchIdentifier
  | .typeVariable => matchTypeVariable
  | .charLiteral => matchChar
  | .symbol => matchSymbol
  | .real => matchReal
  | .integer => matchInteger
  | .stringLiteral => matchString

end TokenKind

def longestMatch (text : List Char) : Option (TokenKind × Nat) :=
  TokenKind.all.foldl
    (fun best kind =>
      match best, kind.match? text with
      | some (_, length), some more =>
        if length < more then some (kind, more) else best
      | none, some length => some (kind, length)
      | _, none => best)
    none

/-- No token matches `offset` bytes into the text, where `rest` begins. -/
structure LexError where
  source : String
  offset : Nat
  rest : String
deriving DecidableEq, Repr

namespace LexError

def message (error : LexError) : String :=
  "Failed to lex '" ++ error.source ++ "' at position " ++
    toString error.offset ++ "; remaining '" ++ error.rest ++ "'"

end LexError

def byteSize (text : List Char) : Nat :=
  text.foldr (fun c total => c.utf8Size + total) 0

/-- The tokens of `text`, which begins at `point`, `offset` bytes into
`source`, and whose first `skip` characters belong to the token before. -/
def tokensFrom (source : String) :
    (skip : Nat) → Point → (offset : Nat) → List Char →
      Except LexError (List Token)
  | _, _, _, [] => .ok []
  | skip + 1, point, offset, _ :: rest =>
    tokensFrom source skip point offset rest
  | 0, point, offset, c :: rest =>
    if isBlank c then
      tokensFrom source 0
        (if c = '\n' then point.nextLine else point.right 1) (offset + 1) rest
    else
      match longestMatch (c :: rest) with
      | none => .error ⟨source, offset, String.ofList (c :: rest)⟩
      | some (kind, length) =>
        let lexeme := (c :: rest).take length
        let size := byteSize lexeme
        let stop := point.right size
        (tokensFrom source (length - 1) stop (offset + size) rest).map
          (⟨kind, String.ofList lexeme, ⟨point, stop, source⟩⟩ :: ·)

def tokenize (text : String) : Except LexError (List Token) :=
  tokensFrom text 0 {} 0 text.toList

end Sml
