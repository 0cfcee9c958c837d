import Mathlib.Data.List.Induction
import Sml.Proofs.Literals

/-!
# Blanking blanks the comments and nothing else

A text is cut into pieces from left to right: comments, string literals and
single characters.  A comment or a literal that is not closed takes the rest
of the text.  The pieces are described without the reading that blanks them:
what closes a comment or a literal is a grammar over its text alone.
-/

namespace Sml

open List Point Turns

variable {c : Char} {count : Nat} {tail counted : List Char}

/-- From behind the opening of a comment to its end.  The comments in it are
closed before it is. -/
inductive ClosesComment : List Char → Prop
  | close : ClosesComment ['*', ')']
  | nested {inner outer : List Char} (hinner : ClosesComment inner) (houter : ClosesComment outer) :
    ClosesComment ('(' :: '*' :: (inner ++ outer))
  | char {c : Char} {text : List Char} (hopen : c = '(' → text.head? ≠ some '*')
    (hclose : c = '*' → text.head? ≠ some ')') (htext : ClosesComment text) :
    ClosesComment (c :: text)

/-- From behind the opening quote of a literal to its closing one. -/
inductive ClosesLiteral : List Char → Prop
  | close : ClosesLiteral ['"']
  | escaped {text : List Char} (c : Char) (htext : ClosesLiteral text) :
    ClosesLiteral ('\\' :: c :: text)
  | char {c : Char} {text : List Char} (hquote : c ≠ '"') (hslash : c ≠ '\\')
    (htext : ClosesLiteral text) : ClosesLiteral (c :: text)

/-- No start of the text is closed. -/
def StaysOpen (closes : List Char → Prop) (text : List Char) : Prop :=
  ∀ body after, text = body ++ after → ¬ closes body

inductive Piece where
  | kept (text : List Char)
  | comment (text : List Char)

namespace Piece

def text : Piece → List Char
  | kept text | comment text => text

def blank (c : Char) : Char :=
  if c = '\n' then '\n' else ' '

def blanked : Piece → List Char
  | kept text => text
  | comment text => text.map blank

/-- A literal with its escapes as they are counted: a line feed that is
escaped is no end of a line. -/
def escapesCounted : List Char → List Char
  | '\\' :: c :: text => '\\' :: (if c = '\n' then ' ' else c) :: escapesCounted text
  | c :: text => c :: escapesCounted text
  | [] => []

theorem escapesCounted_cons {text : List Char} (h : c = '\\' → text = []) :
    escapesCounted (c :: text) = c :: escapesCounted text := by
  rw [escapesCounted]
  rintro _ _ hc rfl
  cases h hc

/-- The first text has fewer line feeds, unless it is the second. -/
def FewerFeeds (counted text : List Char) : Prop :=
  counted = text ∨ counted.count '\n' < text.count '\n'

theorem FewerFeeds.count_le {text : List Char} (h : FewerFeeds counted text) :
    counted.count '\n' ≤ text.count '\n' := by
  rcases h with rfl | h
  · exact Nat.le_refl _
  · exact Nat.le_of_lt h

theorem FewerFeeds.append {text counted' text' : List Char} (h : FewerFeeds counted text)
    (h' : FewerFeeds counted' text') : FewerFeeds (counted ++ counted') (text ++ text') := by
  have hle := h.count_le
  have hle' := h'.count_le
  rw [FewerFeeds, count_append, count_append]
  rcases h with rfl | h
  · rcases h' with rfl | h'
    · exact .inl rfl
    · exact .inr (by omega)
  · exact .inr (by omega)

theorem fewerFeeds_escapesCounted (text : List Char) : FewerFeeds (escapesCounted text) text := by
  fun_induction escapesCounted text with
  | case1 c text ih =>
    have hescape : FewerFeeds ['\\', if c = '\n' then ' ' else c] ['\\', c] := by
      by_cases hc : c = '\n'
      · subst hc
        exact .inr (by decide)
      · exact .inl (by rw [if_neg hc])
    exact hescape.append ih
  | case2 c text _ ih => exact FewerFeeds.append (.inl rfl : FewerFeeds [c] [c]) ih
  | case3 => exact .inl rfl

def measured : Piece → List Char
  | kept text => escapesCounted text
  | comment text => text

theorem fewerFeeds_measured (pieces : List Piece) :
    FewerFeeds (pieces.flatMap measured) (pieces.flatMap text) := by
  induction pieces with
  | nil => exact .inl rfl
  | cons piece pieces ih =>
    refine FewerFeeds.append ?_ ih
    cases piece with
    | kept text => exact fewerFeeds_escapesCounted text
    | comment text => exact .inl rfl

theorem length_blanked (piece : Piece) : piece.blanked.length = piece.text.length := by
  cases piece with
  | kept text => rfl
  | comment text => exact length_map blank

theorem length_flatMap_blanked (pieces : List Piece) :
    (pieces.flatMap blanked).length = (pieces.flatMap text).length := by
  simp [length_flatMap, length_blanked]

end Piece

/-- A text is cut into pieces up to a rest, where the next piece begins. -/
inductive Cut : List Char → List Piece → List Char → Prop
  | stop (rest : List Char) : Cut rest [] rest
  | char {c : Char} {text rest : List Char} {pieces : List Piece} (hquote : c ≠ '"')
    (hopen : c = '(' → text.head? ≠ some '*') (htext : Cut text pieces rest) :
    Cut (c :: text) (.kept [c] :: pieces) rest
  | literal {body text rest : List Char} {pieces : List Piece} (hbody : ClosesLiteral body)
    (htext : Cut text pieces rest) :
    Cut ('"' :: (body ++ text)) (.kept ('"' :: body) :: pieces) rest
  | comment {body text rest : List Char} {pieces : List Piece} (hbody : ClosesComment body)
    (htext : Cut text pieces rest) :
    Cut ('(' :: '*' :: (body ++ text)) (.comment ('(' :: '*' :: body) :: pieces) rest

/-- The pieces of a whole text.  The last one may be a literal that is not
closed. -/
inductive Splits : List Char → List Piece → Prop
  | whole {text : List Char} {pieces : List Piece} (h : Cut text pieces []) : Splits text pieces
  | openLiteral {text tail : List Char} {pieces : List Piece} (h : Cut text pieces ('"' :: tail))
    (htail : StaysOpen ClosesLiteral tail) : Splits text (pieces ++ [.kept ('"' :: tail)])

/-- The text ends in a comment, one that begins outside all literals. -/
def EndsInComment (text : List Char) : Prop :=
  ∃ pieces tail, Cut text pieces ('(' :: '*' :: tail) ∧ StaysOpen ClosesComment tail

variable {text rest body : List Char} {pieces : List Piece}

/-! ## What is closed -/

theorem ClosesLiteral.turns (h : ClosesLiteral body) (after : List Char) :
    Turns .literal .code body body (Piece.escapesCounted body) after := by
  induction h with
  | close => exact .closeQuote after
  | escaped c _ ih =>
    have hcounted : (if c = '\n' then ' ' else c) ≠ '\n' := by
      split
      · decide
      · assumption
    exact (Turns.escaped c hcounted _).append ih
  | char hquote hslash _ ih =>
    rw [Piece.escapesCounted_cons fun hc => (hslash hc).elim]
    exact (Turns.literal hquote hslash _).append ih

/-- The mode behind a comment that is closed inside of `depth` others. -/
def CommentMode.outside (opened : Point) (depth : Nat) : CommentMode :=
  if depth = 0 then .code else .comment depth opened

theorem Turns.closing (opened : Point) (depth : Nat) (after : List Char) :
    Turns (.comment (depth + 1) opened) (.outside opened depth) ['*', ')'] [' ', ' '] ['*', ')']
      after := by
  intro point
  have hmode : (if depth + 1 ≤ 1 then CommentMode.code else .comment (depth + 1 - 1) opened) =
      .outside opened depth := by
    simp [CommentMode.outside]
  rw [cons_append, singleton_append, blankComments, hmode]
  exact map_append_map _ [' '] [' ']

theorem Turns.opening (opened : Point) (depth : Nat) (after : List Char) :
    Turns (.comment depth opened) (.comment (depth + 1) opened) ['(', '*'] [' ', ' '] ['(', '*']
      after := by
  intro point
  rw [cons_append, singleton_append, blankComments]
  exact map_append_map _ [' '] [' ']

theorem Turns.commented (hopen : c = '(' → rest.head? ≠ some '*')
    (hclose : c = '*' → rest.head? ≠ some ')') (opened : Point) (depth : Nat) :
    Turns (.comment depth opened) (.comment depth opened) [c] [Piece.blank c] [c] rest := by
  intro point
  rw [singleton_append, blankComments]
  · rfl
  · rintro _ rfl rfl
    exact hopen rfl rfl
  · rintro _ rfl rfl
    exact hclose rfl rfl

theorem ClosesComment.head?_append (h : ClosesComment body) (after : List Char) :
    (body ++ after).head? = body.head? := by
  cases h with
  | close | nested | char => rfl

theorem ClosesComment.turns (h : ClosesComment body) (opened : Point) (depth : Nat)
    (after : List Char) :
    Turns (.comment (depth + 1) opened) (.outside opened depth) body (body.map Piece.blank) body
      after := by
  induction h generalizing depth after with
  | close => exact .closing opened depth after
  | @nested inner outer _ _ ihinner ihouter =>
    have hinner := ihinner (depth + 1) (outer ++ after)
    have hboth := (opening opened (depth + 1) _).append (hinner.append (ihouter depth after))
    rw [← map_append] at hboth
    exact hboth
  | @char c text hopen hclose htext ih =>
    rw [← htext.head?_append after] at hopen hclose
    exact (commented hopen hclose opened (depth + 1)).append (ih depth after)

theorem ClosesComment.turns_code (h : ClosesComment body) (after : List Char) :
    Turns .code .code ('(' :: '*' :: body) (' ' :: ' ' :: body.map Piece.blank) ('(' :: '*' :: body)
      after := by
  intro point
  have hbody := h.turns point 0 after (point.right 2)
  change blankComments _ _ _ = (blankComments .code _ _).map _ at hbody
  rw [cons_append, cons_append, blankComments, hbody]
  exact (map_append_map _ [' '] [' ']).trans (map_append_map _ [' ', ' '] _)

/-! ## What stays open -/

theorem StaysOpen.of_append {closes closes' : List Char → Prop} (start : List Char)
    (h : StaysOpen closes (start ++ text))
    (hstart : ∀ body after, text = body ++ after → closes' body → closes (start ++ body)) :
    StaysOpen closes' text := by
  rintro body after rfl hbody
  exact h (start ++ body) after (append_assoc ..).symm (hstart body after rfl hbody)

theorem StaysOpen.blankComments_literal (h : StaysOpen ClosesLiteral text) (point : Point) :
    blankComments .literal point text = .ok text := by
  generalize hmode : CommentMode.literal = mode
  fun_induction blankComments mode point text with
  | case2 => rfl
  | case3 point c rest ih =>
    have hrest : StaysOpen ClosesLiteral rest := h.of_append ['\\', c] fun _ _ _ => .escaped c
    rw [ih hrest rfl]
    rfl
  | case4 point c rest hescape ih =>
    have hquote : c ≠ '"' := by
      rintro rfl
      exact h ['"'] rest rfl .close
    rw [if_neg hquote] at ih ⊢
    cases rest with
    | nil => rfl
    | cons next rest =>
      have hslash : c ≠ '\\' := fun hc => hescape next rest hc rfl
      have hrest : StaysOpen ClosesLiteral (next :: rest) :=
        h.of_append [c] fun _ _ _ => .char hquote hslash
      rw [ih hrest rfl]
      rfl
  | case1 | case5 | case6 | case7 | case8 | case9 => cases hmode

/-- From inside of so many comments to the end of the outermost. -/
inductive ClosesComments : Nat → List Char → Prop
  | nil : ClosesComments 0 []
  | cons {count : Nat} {body rest : List Char} (hbody : ClosesComment body)
    (hrest : ClosesComments count rest) : ClosesComments (count + 1) (body ++ rest)

theorem ClosesComments.one_iff : ClosesComments 1 text ↔ ClosesComment text := by
  constructor
  · rintro (_ | ⟨hbody, ⟨⟩⟩)
    rwa [append_nil]
  · intro h
    rw [← append_nil text]
    exact .cons h .nil

theorem ClosesComments.head?_append (h : ClosesComments (count + 1) body) (after : List Char) :
    (body ++ after).head? = body.head? := by
  cases h with
  | cons hbody _ => rw [append_assoc, hbody.head?_append, hbody.head?_append]

theorem ClosesComments.nested (h : ClosesComments (count + 2) body) :
    ClosesComments (count + 1) ('(' :: '*' :: body) := by
  obtain _ | ⟨hinner, _ | ⟨houter, hrest⟩⟩ := h
  rw [← append_assoc]
  exact .cons (.nested hinner houter) hrest

theorem ClosesComments.char (hopen : c = '(' → body.head? ≠ some '*')
    (hclose : c = '*' → body.head? ≠ some ')') (h : ClosesComments (count + 1) body) :
    ClosesComments (count + 1) (c :: body) := by
  obtain _ | ⟨hbody, hrest⟩ := h
  rw [hbody.head?_append] at hopen hclose
  exact .cons (.char hopen hclose hbody) hrest

theorem StaysOpen.blankComments_comment {opened : Point} {depth : Nat}
    (h : StaysOpen (ClosesComments (depth + 1)) text) (point : Point) :
    blankComments (.comment (depth + 1) opened) point text = .error ⟨opened⟩ := by
  generalize hmode : CommentMode.comment (depth + 1) opened = mode
  fun_induction blankComments mode point text generalizing depth with
  | case1 =>
    cases hmode
    rfl
  | case7 _ _ point rest ih =>
    cases hmode
    have hrest : StaysOpen (ClosesComments (depth + 2)) rest :=
      h.of_append ['(', '*'] fun _ _ _ => .nested
    rw [ih hrest rfl]
    rfl
  | case8 _ _ point rest ih =>
    cases hmode
    have hrest : StaysOpen (ClosesComments depth) rest :=
      h.of_append ['*', ')'] fun _ _ _ => .cons .close
    cases depth with
    | zero => exact (hrest [] rest rfl .nil).elim
    | succ depth =>
      rw [if_neg (by omega)] at ih ⊢
      rw [ih hrest rfl]
      rfl
  | case9 _ _ point c rest hopen hclose ih =>
    cases hmode
    have hrest : StaysOpen (ClosesComments (depth + 1)) rest := by
      refine h.of_append [c] fun body after hbody hcloses => ?_
      have hhead : rest.head? = body.head? := by rw [hbody, hcloses.head?_append]
      change ClosesComments (depth + 1) (c :: body)
      refine hcloses.char (fun hc hstar => ?_) fun hc hparen => ?_
      · exact hopen _ hc (eq_cons_of_mem_head? (hhead.trans hstar))
      · exact hclose _ hc (eq_cons_of_mem_head? (hhead.trans hparen))
    rw [ih hrest rfl]
    rfl
  | case2 mode _ hmodes => exact (hmodes _ _ hmode.symm).elim
  | case3 | case4 | case5 | case6 => cases hmode

/-! ## Every text is cut -/

theorem Cut.text_eq (h : Cut text pieces rest) : text = pieces.flatMap Piece.text ++ rest := by
  induction h with
  | stop => rfl
  | char _ _ _ ih => exact congrArg (_ :: ·) ih
  | literal _ _ ih | comment _ _ ih => simp [Piece.text, ih]

/-- Blanking comes to the rest with the pieces blanked. -/
theorem Cut.turns (h : Cut text pieces rest) (point : Point) :
    blankComments .code point text =
      (blankComments .code (point.past (pieces.flatMap Piece.measured)) rest).map
        (pieces.flatMap Piece.blanked ++ ·) := by
  have hturns : Turns .code .code (pieces.flatMap Piece.text) (pieces.flatMap Piece.blanked)
      (pieces.flatMap Piece.measured) rest := by
    induction h with
    | stop rest =>
      intro point
      exact (congrFun Except.map_id _).symm
    | @char c _ _ _ hquote hopen htext ih =>
      rw [htext.text_eq] at hopen
      have hmeasured : (Piece.kept [c]).measured = [c] := Piece.escapesCounted_cons fun _ => rfl
      rw [flatMap_cons, flatMap_cons, flatMap_cons, hmeasured]
      exact (code hquote hopen).append ih
    | literal hbody _ ih => exact ((openQuote _).append (hbody.turns _)).append ih
    | comment hbody _ ih => exact (hbody.turns_code _).append ih
  rw [h.text_eq]
  exact hturns point

theorem Splits.blankComments_eq (h : Splits text pieces) (point : Point) :
    blankComments .code point text = .ok (pieces.flatMap Piece.blanked) := by
  cases h with
  | whole h =>
    rw [h.turns point]
    simp [blankComments, Except.map]
  | @openLiteral tail pieces h htail =>
    have hquote := openQuote tail (point.past (pieces.flatMap Piece.measured))
    rw [singleton_append, htail.blankComments_literal] at hquote
    rw [h.turns point, hquote]
    simp [Except.map, Piece.blanked]

theorem Cut.blankComments_eq (hcut : Cut text pieces ('(' :: '*' :: tail))
    (htail : StaysOpen ClosesComment tail) (point : Point) :
    blankComments .code point text = .error ⟨point.past (pieces.flatMap Piece.measured)⟩ := by
  have hopen : StaysOpen (ClosesComments (0 + 1)) tail := fun body after htext hbody =>
    htail body after htext (ClosesComments.one_iff.mp hbody)
  rw [hcut.turns point, blankComments, hopen.blankComments_comment]
  rfl

/-- What is left of a text when nothing more can be cut off. -/
inductive Left : List Char → Prop
  | nil : Left []
  | literal {tail : List Char} (h : StaysOpen ClosesLiteral tail) : Left ('"' :: tail)
  | comment {tail : List Char} (h : StaysOpen ClosesComment tail) : Left ('(' :: '*' :: tail)

theorem exists_of_not_staysOpen {closes : List Char → Prop} (h : ¬ StaysOpen closes text) :
    ∃ body after, text = body ++ after ∧ closes body := by
  simpa [StaysOpen] using h

theorem length_lt_of_append (start : Char) (body after : List Char) :
    after.length < (start :: (body ++ after)).length := by
  rw [length_cons, length_append]
  omega

theorem exists_cut (text : List Char) : ∃ pieces rest, Cut text pieces rest ∧ Left rest := by
  induction hlength : text.length using Nat.strongRecOn generalizing text with
  | ind length ih =>
    subst hlength
    cases text with
    | nil => exact ⟨[], [], .stop [], .nil⟩
    | cons c text =>
      by_cases hquote : c = '"'
      · subst hquote
        by_cases htail : StaysOpen ClosesLiteral text
        · exact ⟨[], _, .stop _, .literal htail⟩
        · obtain ⟨body, after, rfl, hbody⟩ := exists_of_not_staysOpen htail
          have hshorter := length_lt_of_append '"' body after
          obtain ⟨pieces, rest, hcut, hrest⟩ := ih after.length hshorter after rfl
          exact ⟨_, rest, .literal hbody hcut, hrest⟩
      by_cases hopen : c = '(' → text.head? ≠ some '*'
      · obtain ⟨pieces, rest, hcut, hrest⟩ := ih text.length (Nat.lt_succ_self _) text rfl
        exact ⟨_, rest, .char hquote hopen hcut, hrest⟩
      obtain ⟨rfl, hstar⟩ : c = '(' ∧ text.head? = some '*' := by simpa using hopen
      obtain ⟨tail, rfl⟩ := head?_eq_some_iff.mp hstar
      by_cases htail : StaysOpen ClosesComment tail
      · exact ⟨[], _, .stop _, .comment htail⟩
      · obtain ⟨body, after, rfl, hbody⟩ := exists_of_not_staysOpen htail
        have hshorter := length_lt_of_append '(' ('*' :: body) after
        obtain ⟨pieces, rest, hcut, hrest⟩ := ih after.length hshorter after rfl
        exact ⟨_, rest, .comment hbody hcut, hrest⟩

theorem splits_or_endsInComment (text : List Char) :
    (∃ pieces, Splits text pieces) ∨ EndsInComment text := by
  obtain ⟨pieces, rest, hcut, hrest⟩ := exists_cut text
  cases hrest with
  | nil => exact .inl ⟨_, .whole hcut⟩
  | literal htail => exact .inl ⟨_, .openLiteral hcut htail⟩
  | comment htail => exact .inr ⟨_, _, hcut, htail⟩

/-! ## A blanked text has no comments -/

def Piece.afresh : Piece → List Piece
  | kept text => [kept text]
  | comment text => text.map fun c => kept [blank c]

theorem Piece.blanked_afresh (piece : Piece) : piece.afresh.flatMap blanked = piece.blanked := by
  cases piece with
  | kept text => simp [afresh, blanked]
  | comment text =>
    induction text with
    | nil => rfl
    | cons c text ih => exact congrArg (blank c :: ·) ih

theorem Piece.flatMap_blanked_afresh (pieces : List Piece) :
    (pieces.flatMap afresh).flatMap blanked = pieces.flatMap blanked := by
  rw [flatMap_assoc]
  exact flatMap_congr fun piece _ => piece.blanked_afresh

theorem Cut.head?_of_blanked (h : Cut text pieces rest)
    (hstar : (pieces.flatMap Piece.blanked ++ rest).head? = some '*') : text.head? = some '*' := by
  cases h with
  | stop | char => exact hstar
  | literal | comment => simp [Piece.blanked, Piece.blank] at hstar

theorem Cut.blanks (h : Cut text pieces rest) (body : List Char) :
    Cut (body.map Piece.blank ++ text) (body.map (fun c => .kept [Piece.blank c]) ++ pieces)
      rest := by
  induction body with
  | nil => exact h
  | cons c body ih =>
    have hblank : Piece.blank c ≠ '"' ∧ Piece.blank c ≠ '(' := by
      unfold Piece.blank
      split <;> decide
    exact .char hblank.1 (fun hopen => (hblank.2 hopen).elim) ih

theorem Cut.afresh (h : Cut text pieces rest) :
    Cut (pieces.flatMap Piece.blanked ++ rest) (pieces.flatMap Piece.afresh) rest := by
  induction h with
  | stop rest => exact .stop rest
  | char hquote hopen htext ih =>
    exact .char hquote (fun hc hstar => hopen hc (htext.head?_of_blanked hstar)) ih
  | literal hbody _ ih =>
    rw [flatMap_cons, append_assoc]
    exact .literal hbody ih
  | comment hbody _ ih =>
    rw [flatMap_cons, append_assoc]
    exact ih.blanks _

theorem Splits.afresh (h : Splits text pieces) :
    Splits (pieces.flatMap Piece.blanked) (pieces.flatMap Piece.afresh) := by
  cases h with
  | whole h =>
    have hafresh := h.afresh
    rw [append_nil] at hafresh
    exact .whole hafresh
  | openLiteral h htail =>
    rw [flatMap_append, flatMap_append, flatMap_singleton, flatMap_singleton]
    exact .openLiteral h.afresh htail

theorem Splits.text_eq (h : Splits text pieces) : text = pieces.flatMap Piece.text := by
  cases h with
  | whole h => rw [h.text_eq, append_nil]
  | openLiteral h _ => simp [h.text_eq, Piece.text]

theorem Splits.stripComments_eq {text : String} (h : Splits text.toList pieces) :
    stripComments text = .ok (.ofList (pieces.flatMap Piece.blanked)) := by
  rw [stripComments, h.blankComments_eq]
  rfl

theorem Cut.stripComments_eq {text : String} (hcut : Cut text.toList pieces ('(' :: '*' :: tail))
    (htail : StaysOpen ClosesComment tail) :
    stripComments text = .error ⟨past {} (pieces.flatMap Piece.measured)⟩ := by
  rw [stripComments, hcut.blankComments_eq htail]
  rfl

theorem EndsInComment.stripComments_eq {text : String} (h : EndsInComment text.toList) :
    ∃ opened, stripComments text = .error ⟨opened⟩ := by
  obtain ⟨pieces, tail, hcut, htail⟩ := h
  exact ⟨_, hcut.stripComments_eq htail⟩

/-- Blanking fails where the text ends in a comment that begins outside all
literals.  Otherwise the text has pieces, every character of a comment is
blanked and every other one stays, and blanking the result changes nothing. -/
theorem stripComments_blanks (text : String) :
    ((∃ error, stripComments text = .error error) ↔ EndsInComment text.toList) ∧
    (∀ stripped, stripComments text = .ok stripped ↔
      ∃ pieces, Splits text.toList pieces ∧ text.toList = pieces.flatMap Piece.text ∧
        stripped.toList = pieces.flatMap Piece.blanked) ∧
    ∀ stripped, stripComments text = .ok stripped →
      stripped.length = text.length ∧ stripComments stripped = .ok stripped := by
  rcases splits_or_endsInComment text.toList with ⟨pieces, hpieces⟩ | hends
  · have hrun := hpieces.stripComments_eq
    have hafresh : Splits (String.ofList (pieces.flatMap Piece.blanked)).toList
        (pieces.flatMap Piece.afresh) := by
      rw [String.toList_ofList]
      exact hpieces.afresh
    refine ⟨⟨?_, fun hends => ?_⟩, fun stripped => ⟨fun h => ?_, ?_⟩, fun stripped h => ?_⟩
    · rintro ⟨error, herror⟩
      cases hrun.symm.trans herror
    · obtain ⟨opened, herror⟩ := hends.stripComments_eq
      exact ⟨_, herror⟩
    · cases hrun.symm.trans h
      exact ⟨pieces, hpieces, hpieces.text_eq, String.toList_ofList⟩
    · rintro ⟨others, hothers, -, hblanked⟩
      rw [hothers.stripComments_eq, ← hblanked, String.ofList_toList]
    · cases hrun.symm.trans h
      refine ⟨?_, ?_⟩
      · rw [String.length_ofList, Piece.length_flatMap_blanked, ← hpieces.text_eq,
          String.length_toList]
      · rw [hafresh.stripComments_eq, Piece.flatMap_blanked_afresh]
  · obtain ⟨opened, hrun⟩ := hends.stripComments_eq
    have hnone (stripped : String) : stripComments text ≠ .ok stripped := by
      rw [hrun]
      nofun
    refine ⟨⟨fun _ => hends, fun _ => ⟨_, hrun⟩⟩, fun stripped => ⟨fun h => ?_, ?_⟩,
      fun stripped h => (hnone stripped h).elim⟩
    · exact (hnone stripped h).elim
    · rintro ⟨others, hothers, -⟩
      exact (hnone _ hothers.stripComments_eq).elim

/-! ## Where a comment is left open -/

/-- Where a text stops: the lines that end in it, and the characters behind
the last of them. -/
def Point.behind (text : List Char) : Point :=
  ⟨text.count '\n', (text.reverse.takeWhile (· ≠ '\n')).length⟩

theorem Point.past_start (text : List Char) : Point.past {} text = .behind text := by
  induction text using reverseRecOn with
  | nil => rfl
  | append_singleton text c ih =>
    rw [past] at ih ⊢
    rw [foldl_append, ih]
    by_cases hc : c = '\n' <;> simp [behind, nextLine, right, hc]

/-- Blanking fails at the comment that is left open, with a line feed that is
escaped before it counted as a column.  So it points at the character where
that comment opens if and only if no line feed before is escaped. -/
theorem stripComments_error_iff (text : String) (error : UnterminatedComment) :
    stripComments text = .error error ↔
      ∃ pieces tail, Cut text.toList pieces ('(' :: '*' :: tail) ∧ StaysOpen ClosesComment tail ∧
        error.opened = .behind (pieces.flatMap Piece.measured) ∧
        (error.opened = .behind (pieces.flatMap Piece.text) ↔
          pieces.flatMap Piece.measured = pieces.flatMap Piece.text) := by
  constructor
  · intro herror
    rcases splits_or_endsInComment text.toList with ⟨_, hpieces⟩ | ⟨pieces, tail, hcut, htail⟩
    · cases hpieces.stripComments_eq.symm.trans herror
    have hopened : error.opened = .behind (pieces.flatMap Piece.measured) := by
      cases (hcut.stripComments_eq htail).symm.trans herror
      exact past_start _
    refine ⟨pieces, tail, hcut, htail, hopened, ?_⟩
    rw [hopened]
    refine ⟨fun hplace => ?_, congrArg behind⟩
    have hline : (pieces.flatMap Piece.measured).count '\n' =
        (pieces.flatMap Piece.text).count '\n' := congrArg line hplace
    exact (Piece.fewerFeeds_measured pieces).resolve_right (by omega)
  · rintro ⟨pieces, tail, hcut, htail, hopened, -⟩
    rw [hcut.stripComments_eq htail, past_start, ← hopened]

theorem stripComments_behind_escaped_feed :
    stripComments "\"\\\n\" (* open" = .error ⟨⟨0, 5⟩⟩ ∧
      behind "\"\\\n\" ".toList = ⟨1, 2⟩ := by
  decide

end Sml
