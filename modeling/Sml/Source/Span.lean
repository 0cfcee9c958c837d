/-!
# Places in a source text

A span points at a stretch of its source by line and by column, both counted
from zero, columns in bytes of UTF-8.  A span is only data: it may be
inverted, or lie outside its source, when it was put together from the ends
of two phrases.  `Span.render?` writes a message under the lines of a span
and has no answer for a span that does not lie in its source.
-/

namespace Sml

structure Point where
  line : Nat := 0
  column : Nat := 0
deriving DecidableEq, Repr, Inhabited

namespace Point

def le (first second : Point) : Bool :=
  first.line < second.line ||
    (first.line == second.line && first.column ≤ second.column)

def lt (first second : Point) : Bool :=
  first.line < second.line ||
    (first.line == second.line && first.column < second.column)

def right (point : Point) (columns : Nat) : Point :=
  ⟨point.line, point.column + columns⟩

def nextLine (point : Point) : Point :=
  ⟨point.line + 1, 0⟩

end Point

structure Span where
  start : Point := {}
  stop : Point := {}
  source : String := ""
deriving DecidableEq, Repr, Inhabited

/-- Cuts a text at its line feeds.  What follows the last one is a line only
if it is not empty, and a carriage return before a line feed belongs to the
line's end. -/
def linesOf (text : List Char) : List (List Char) :=
  go [] text
where
  dropReturn : List Char → List Char
    | '\r' :: rest => rest
    | line => line
  go : List Char → List Char → List (List Char)
    | [], [] => []
    | line, [] => [line.reverse]
    | line, '\n' :: rest => (dropReturn line).reverse :: go [] rest
    | line, c :: rest => go (c :: line) rest

/-- Whether `offset` bytes into the text a character begins or the text
ends. -/
def isBoundary : List Char → Nat → Bool
  | _, 0 => true
  | [], _ + 1 => false
  | c :: rest, offset =>
    if c.utf8Size ≤ offset then isBoundary rest (offset - c.utf8Size)
    else false

namespace Span

def merge (first second : Span) : Span :=
  ⟨first.start, second.stop, first.source⟩

/-- Whether the span is ordered and both its ends lie on lines of its
source. -/
def hasContext (span : Span) : Bool :=
  let lines := linesOf span.source.toList
  let within (point : Point) : Bool :=
    match lines[point.line]? with
    | some line => isBoundary line point.column
    | none => false
  !span.source.isEmpty && span.start.le span.stop &&
    0 < span.stop.column && within span.start && within span.stop

private def spaces (count : Nat) : String :=
  String.ofList (List.replicate count ' ')

/-- The lines of the span with `message` pointing at its last column, or
nothing if the span has no such lines or columns. -/
def render? (span : Span) (message : String) : Option String := do
  let lines := linesOf span.source.toList
  let first := span.start.line
  let last := span.stop.line
  let firstLine ← lines[first]?
  guard (isBoundary firstLine span.start.column)
  guard (first ≠ last ∨
    (span.start.column ≤ span.stop.column ∧
      isBoundary firstLine span.stop.column = true))
  guard (0 < span.stop.column)
  let between ← ((List.range (last - first)).map (first + 1 + ·)).mapM
    fun number => lines[number]?
  let before :=
    if first = 0 then [] else (lines[first - 1]?).getD []
  let margin := spaces (toString last).length
  return margin ++ " |\n" ++ margin ++ " |" ++ String.ofList before ++ " \n" ++
    toString (first + 1) ++ " |" ++ String.ofList firstLine ++
    String.join (between.map fun line =>
      "\n" ++ margin ++ " |" ++ String.ofList line) ++
    "\n" ++ toString (last + 2) ++ " |" ++ spaces (span.stop.column - 1) ++
    "^--- " ++ message ++ "\n" ++ margin ++ " |"

def annotate (span : Span) (message : String) : String :=
  if span.hasContext then (span.render? message).getD message else message

end Span

end Sml
