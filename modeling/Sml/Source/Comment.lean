import Sml.Source.Span

/-!
# Comments

Comments are written between `(*` and `*)` and nest.  They are blanked out
before the text is read any further: every character of a comment becomes a
space, except that line feeds stay, so all other characters keep their line
and column.  Inside a string literal nothing opens a comment, and inside a
comment nothing opens a string literal.
-/

namespace Sml

inductive CommentMode where
  | code
  | literal
  | comment (depth : Nat) (opened : Point)
deriving DecidableEq, Repr

/-- A comment that is still open at the end of the text, by the line and
column (in characters) of its outermost opening. -/
structure UnterminatedComment where
  opened : Point
deriving DecidableEq, Repr

namespace UnterminatedComment

def message (error : UnterminatedComment) : String :=
  "unterminated comment starting at line " ++
    toString (error.opened.line + 1) ++ ", column " ++
    toString (error.opened.column + 1)

end UnterminatedComment

private def after (point : Point) (c : Char) : Point :=
  if c = '\n' then point.nextLine else point.right 1

private def emit (c : Char) (rest : Except UnterminatedComment (List Char)) :
    Except UnterminatedComment (List Char) :=
  rest.map (c :: ·)

def blankComments :
    CommentMode → Point → List Char →
      Except UnterminatedComment (List Char)
  | .comment _ opened, _, [] => .error ⟨opened⟩
  | _, _, [] => .ok []
  | .literal, point, '\\' :: c :: rest =>
    emit '\\' (emit c (blankComments .literal (point.right 2) rest))
  | .literal, point, c :: rest =>
    emit c (blankComments (if c = '"' then .code else .literal)
      (after point c) rest)
  | .code, point, '(' :: '*' :: rest =>
    emit ' ' (emit ' '
      (blankComments (.comment 1 point) (point.right 2) rest))
  | .code, point, c :: rest =>
    emit c (blankComments (if c = '"' then .literal else .code)
      (after point c) rest)
  | .comment depth opened, point, '(' :: '*' :: rest =>
    emit ' ' (emit ' '
      (blankComments (.comment (depth + 1) opened) (point.right 2) rest))
  | .comment depth opened, point, '*' :: ')' :: rest =>
    emit ' ' (emit ' '
      (blankComments
        (if depth ≤ 1 then .code else .comment (depth - 1) opened)
        (point.right 2) rest))
  | .comment depth opened, point, c :: rest =>
    emit (if c = '\n' then '\n' else ' ')
      (blankComments (.comment depth opened) (after point c) rest)

def stripComments (text : String) : Except UnterminatedComment String :=
  (blankComments .code {} text.toList).map String.ofList

end Sml
