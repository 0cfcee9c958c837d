import Sml.Source.Blank

/-!
# Escape sequences

The body of a string or character literal stands for a text in which escape
sequences are resolved.  A backslash begins an escape: a letter or symbol for
a single character, `\^c` for a control character, up to three decimal digits
or `\u` with up to four hexadecimal digits for a code point, or a gap of white
space that a second backslash closes.
-/

namespace Sml

inductive EscapeFault where
  | atEnd
  | control
  | hexadecimal
  | decimal (digits : String)
  | gap
  | unknown (escaped : Char)
deriving DecidableEq, Repr

namespace EscapeFault

def message : EscapeFault → String
  | .atEnd => "invalid escape sequence at end of literal"
  | .control => "invalid escape sequence \\^"
  | .hexadecimal => "invalid escape sequence \\u"
  | .decimal digits => "invalid escape sequence \\" ++ digits
  | .gap => "invalid escape sequence in string gap"
  | .unknown escaped =>
    "invalid escape sequence \\" ++ String.singleton escaped

end EscapeFault

def digitValue? (c : Char) : Option Nat :=
  if c.isDigit then some (c.toNat - '0'.toNat)
  else if 'a' ≤ c && c ≤ 'f' then some (c.toNat - 'a'.toNat + 10)
  else if 'A' ≤ c && c ≤ 'F' then some (c.toNat - 'A'.toNat + 10)
  else none

def readDigits? (base : Nat) (text : List Char) : Option Nat :=
  if text.isEmpty then none
  else
    text.foldl
      (fun total c => do
        let value ← digitValue? c
        if value < base then some ((← total) * base + value) else none)
      (some 0)

/-- Hexadecimal digits, which a plus sign may precede. -/
def readHex? : List Char → Option Nat
  | '+' :: rest => readDigits? 16 rest
  | text => readDigits? 16 text

def scalar? (code : Nat) : Option Char :=
  if code.isValidChar then some (Char.ofNat code) else none

def simpleEscape? : Char → Option Char
  | 'n' => some '\n'
  | 't' => some '\t'
  | 'a' => some '\x07'
  | 'b' => some '\x08'
  | 'v' => some '\x0b'
  | 'f' => some '\x0c'
  | 'r' => some '\r'
  | '\\' => some '\\'
  | '"' => some '"'
  | _ => none

def hexScalar (digits : List Char) : Except EscapeFault Char :=
  match readHex? digits >>= scalar? with
  | some c => .ok c
  | none => .error .hexadecimal

def decimalScalar (digits : List Char) : Except EscapeFault Char :=
  match readDigits? 10 digits >>= scalar? with
  | some c => .ok c
  | none => .error (.decimal (String.ofList digits))

def isControlName (c : Char) : Bool :=
  '@' ≤ c && c ≤ '_'

def put (c : Except EscapeFault Char)
    (rest : Except EscapeFault (List Char)) :
    Except EscapeFault (List Char) := do
  let c ← c
  let rest ← rest
  return c :: rest

/-- The text that the rest of a literal stands for, from inside a gap or
not. -/
def unescapeFrom (gap : Bool) : List Char → Except EscapeFault (List Char)
  | [] => if gap then .error .gap else .ok []
  | c :: rest =>
    if gap then
      if c = '\\' then unescapeFrom false rest
      else if isWhiteSpace c then unescapeFrom true rest
      else .error .gap
    else if c ≠ '\\' then put (.ok c) (unescapeFrom false rest)
    else
      match rest with
      | [] => .error .atEnd
      | '^' :: name :: rest =>
        if isControlName name then
          put (.ok (Char.ofNat (name.toNat - 64))) (unescapeFrom false rest)
        else .error .control
      | '^' :: [] => .error .control
      | 'u' :: a :: b :: c :: d :: rest =>
        put (hexScalar [a, b, c, d]) (unescapeFrom false rest)
      | 'u' :: rest => put (hexScalar rest) (.ok [])
      | c :: rest =>
        match simpleEscape? c with
        | some meaning => put (.ok meaning) (unescapeFrom false rest)
        | none =>
          if c.isDigit then
            match rest with
            | a :: b :: rest =>
              put (decimalScalar [c, a, b]) (unescapeFrom false rest)
            | rest => put (decimalScalar (c :: rest)) (.ok [])
          else if isWhiteSpace c then unescapeFrom true rest
          else .error (.unknown c)

def unescape (body : List Char) : Except EscapeFault (List Char) :=
  unescapeFrom false body

end Sml
