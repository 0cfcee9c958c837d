import Mathlib.Data.List.Basic
import Sml.Proofs.Lexemes

/-!
# The words of a written text

Names, labels and lists of texts are read as the words they are put together
from, if what separates them ends a word.
-/

namespace Sml

open Lexeme List

variable {name between : String} {text : List Char} {c : Char}

/-! ## Names -/

def isAlphanumeric (name : String) : Bool :=
  match name.toList with
  | [] => false
  | c :: rest => c.isAlpha && rest.all isNameTail

def isVariable (name : String) : Bool :=
  match name.toList with
  | '\'' :: rest => !rest.isEmpty && rest.all isNameTail
  | _ => false

def isPosition (label : String) : Bool :=
  match label.toList with
  | [] => false
  | c :: rest => c != '0' && (c :: rest).all Char.isDigit

def isLabel (label : String) : Bool := isAlphanumeric label && !isReserved label || isPosition label

theorem exists_of_isAlphanumeric (h : isAlphanumeric name = true) :
    ∃ c rest, name.toList = c :: rest ∧ c.isAlpha = true ∧ ∀ c ∈ rest, isNameTail c = true := by
  unfold isAlphanumeric at h
  split at h
  · cases h
  · rename_i c rest heq
    simp only [Bool.and_eq_true, all_eq_true] at h
    exact ⟨c, rest, heq, h.1, h.2⟩

theorem point_not_mem (h : isAlphanumeric name = true) : '.' ∉ name.toList := by
  obtain ⟨c, rest, hname, hc, hrest⟩ := exists_of_isAlphanumeric h
  rw [hname, mem_cons]
  rintro (rfl | hpoint)
  · exact absurd hc (by decide)
  · exact absurd (hrest '.' hpoint) (by decide)

theorem identifierTail_of_isNameTail (h : ∀ c ∈ text, isNameTail c = true) (more : List Char) :
    identifierTail (text ++ more) = text.length + identifierTail more := by
  induction text with
  | nil => simp
  | cons c text ih =>
    have hc := h c (by simp)
    rw [cons_append, identifierTail, if_pos hc, ih fun c hc => h c (by simp [hc]), length_cons]
    · omega
    · rintro _ _ rfl
      exact absurd hc (by decide)

variable {parts : List String}

theorem matchIdentifier_qualified (hnil : parts ≠ [])
    (h : ∀ part ∈ parts, isAlphanumeric part = true) :
    matchIdentifier (".".intercalate parts).toList =
      some (".".intercalate parts).toList.length := by
  suffices hwhole : ∃ c rest, (".".intercalate parts).toList = c :: rest ∧
      c.isAlpha = true ∧ identifierTail rest = rest.length by
    obtain ⟨c, rest, htext, hc, hrest⟩ := hwhole
    rw [htext, matchIdentifier, if_pos hc, hrest, length_cons, Nat.add_comm]
  induction parts with
  | nil => exact absurd rfl hnil
  | cons part parts ih =>
    obtain ⟨c, rest, hpart, hc, hrest⟩ := exists_of_isAlphanumeric (h part (by simp))
    cases parts with
    | nil =>
      have htail := identifierTail_of_isNameTail hrest []
      rw [append_nil] at htail
      exact ⟨c, rest, by rw [String.intercalate_singleton, hpart], hc, htail⟩
    | cons next parts =>
      obtain ⟨c', rest', htext, hc', htail⟩ :=
        ih (by simp) fun part hpart => h part (by simp [hpart])
      refine ⟨c, rest ++ '.' :: c' :: rest', ?_, hc, ?_⟩
      · simp [String.intercalate_cons_cons, hpart, htext]
      · rw [identifierTail_of_isNameTail hrest, identifierTail, if_pos hc', htail]
        simp
        omega

namespace LongName

theorem splitAtPoints_append (h : '.' ∉ text) (part more : List Char) :
    ofText.splitAtPoints part (text ++ more) =
      ofText.splitAtPoints (text.reverse ++ part) more := by
  induction text generalizing part with
  | nil => rfl
  | cons c text ih =>
    rw [mem_cons, not_or] at h
    rw [cons_append, ofText.splitAtPoints, ih h.2]
    · simp
    · exact fun hc => h.1 hc.symm

theorem splitAtPoints_intercalate (hnil : parts ≠ []) (h : ∀ part ∈ parts, '.' ∉ part.toList) :
    ofText.splitAtPoints [] (".".intercalate parts).toList = parts := by
  induction parts with
  | nil => exact absurd rfl hnil
  | cons part parts ih =>
    have hpart := splitAtPoints_append (h part (by simp)) []
    cases parts with
    | nil =>
      have hsplit := hpart []
      rw [append_nil] at hsplit
      simp [hsplit, ofText.splitAtPoints]
    | cons next parts =>
      have hrest := ih (by simp) fun part hpart => h part (by simp [hpart])
      rw [String.intercalate_cons_cons, String.toList_append,
        String.toList_append, append_assoc, hpart]
      simpa [ofText.splitAtPoints] using hrest

theorem ofText_text {name : LongName}
    (h : ∀ part ∈ name.parts, '.' ∉ part.toList) : ofText name.text = name := by
  have hparts : ofText.splitAtPoints [] name.text.toList = name.parts :=
    splitAtPoints_intercalate (by simp [parts]) h
  rw [ofText, hparts]
  simp [parts]

end LongName

namespace Lexeme

def identifier (name : String) : Lexeme := ⟨.identifier, name⟩

def typeVariable (name : String) : Lexeme := ⟨.typeVariable, name⟩

def symbol (text : String) : Lexeme := ⟨.symbol, text⟩

def label (name : String) : Lexeme := ⟨if isAlphanumeric name then .identifier else .integer, name⟩

theorem matchIdentifier_of_isAlphanumeric (h : isAlphanumeric name = true) :
    matchIdentifier name.toList = some name.toList.length := by
  have hmatch := @matchIdentifier_qualified [name] (by simp) (by simpa)
  rwa [String.intercalate_singleton] at hmatch

def listed {ι : Type} (separator : Lexeme) (spelled : ι → List Lexeme) : List ι → List Lexeme
  | [] => []
  | entry :: entries =>
    spelled entry ++ entries.flatMap fun entry => separator :: spelled entry

theorem length_le_listed {ι : Type} (separator : Lexeme)
    (spelled : ι → List Lexeme) {items : List ι} {item : ι} (h : item ∈ items) :
    (spelled item).length ≤ (listed separator spelled items).length := by
  obtain ⟨before, after, rfl⟩ := append_of_mem h
  cases before with
  | nil => simp [listed]
  | cons first before =>
    simp only [cons_append, listed, flatMap_append, flatMap_cons, length_append, length_cons]
    omega

variable {name : String} {after : List Char}

theorem stands_variable (h : isVariable name = true) (hafter : Delimited after) :
    (typeVariable name).Stands after := by
  refine stands_typeVariable ?_ hafter
  unfold isVariable at h
  split at h
  · rename_i rest heq
    simp only [Bool.and_eq_true, Bool.not_eq_true', isEmpty_eq_false_iff, all_eq_true] at h
    have hcount : countWhile isNameTail (rest ++ []) = rest.length :=
      countWhile_append h.2 (by simp)
    rw [append_nil] at hcount
    simp [heq, matchTypeVariable, hcount, atLeastOne, h.1, Nat.add_comm]
  · cases h

theorem not_isAlphanumeric_of_isPosition (h : isPosition name = true) :
    isAlphanumeric name = false := by
  unfold isPosition at h
  unfold isAlphanumeric
  split at h
  · cases h
  · rename_i c rest heq
    simp only [Bool.and_eq_true, all_cons] at h
    have hc : c.isAlpha = false := by
      by_contra halpha
      have hdigit := not_isDigit_of_isAlpha (Bool.of_not_eq_false halpha)
      rw [h.2.1] at hdigit
      cases hdigit
    simp [hc]

theorem stands_label (h : isLabel name = true) (hafter : Delimited after) :
    (label name).Stands after := by
  simp only [isLabel, Bool.or_eq_true, Bool.and_eq_true] at h
  unfold label
  rcases h with ⟨hname, -⟩ | hposition
  · rw [if_pos hname]
    exact stands_identifier (matchIdentifier_of_isAlphanumeric hname) hafter
  · rw [not_isAlphanumeric_of_isPosition hposition]
    unfold isPosition at hposition
    split at hposition
    · cases hposition
    · rename_i c rest heq
      simp only [Bool.and_eq_true, all_eq_true] at hposition
      have htext : name.toList = sign false ++ c :: rest := heq
      exact stands_integer htext (by simp) hposition.2 hafter

end Lexeme

/-! ## Wording -/

/-- Between words, the text is read as this one. -/
structure Separator (text : String) (word : Lexeme) : Prop where
  starts : ∀ after, Delimited (text.toList ++ after)
  spells : ∀ after, Spells text.toList [word] after

theorem separator_comma : Separator ", " .comma where
  starts after := by simp [Delimited, isNameTail]
  spells after := (Spells.word (stands_closed .comma (by decide) _)).append (.space after)

variable {rest : List Char}

theorem spells_symbol_space (sym : String) (hsym : sym.toList = c :: rest)
    (hsymbolic : sym.toList.all isSymbolic = true) (hchar : c ≠ '#') (hsign : c ≠ '~')
    (after : List Char) : Spells (sym ++ " ").toList [.symbol sym] after := by
  rw [String.toList_append]
  refine (Spells.word (stands_symbol hsym (all_eq_true.mp hsymbolic) hchar hsign ?_)).append
    (.space after)
  simp [isSymbolic]

theorem separator_symbol (sym : String) (hsym : sym.toList = c :: rest)
    (hsymbolic : sym.toList.all isSymbolic = true) (hchar : c ≠ '#') (hsign : c ≠ '~') :
    Separator (" " ++ (sym ++ " ")) (.symbol sym) where
  starts after := by simp [Delimited, isNameTail]
  spells after := by
    rw [String.toList_append]
    exact (Spells.space _).append (spells_symbol_space sym hsym hsymbolic hchar hsign after)

theorem separator_star : Separator " * " (.symbol "*") :=
  separator_symbol "*" (c := '*') rfl (by decide) (by decide) (by decide)

theorem separator_arrow : Separator " -> " (.symbol "->") :=
  separator_symbol "->" (c := '-') rfl (by decide) (by decide) (by decide)

theorem separator_equals : Separator " = " (.symbol "=") :=
  separator_symbol "=" (c := '=') rfl (by decide) (by decide) (by decide)

theorem separator_colon : Separator ": " (.symbol ":") where
  starts after := by simp [Delimited, isNameTail]
  spells after := spells_symbol_space ":" (c := ':') rfl (by decide) (by decide) (by decide) after

/-- Before whatever ends a word, the text is read as these words.  It does not
turn a parenthesis before it into a comment. -/
structure Wording (text : String) (words : List Lexeme) : Prop where
  spells : ∀ after, Delimited after → Spells text.toList words after
  opens : ∀ after, (text.toList ++ after).head? ≠ some '*'

namespace Wording

variable {text other : String} {words others : List Lexeme} {word : Lexeme}

theorem delimited_nil : Delimited [] := by
  simp [Delimited]

theorem of_stands (h : ∀ after, Delimited after → word.Stands after)
    (htext : word.text.toList = c :: rest) (hc : c ≠ '*') : Wording word.text [word] where
  spells after hafter := .word (h after hafter)
  opens after := by simp [htext, hc]

theorem typeVariable (h : isVariable name = true) : Wording name [.typeVariable name] := by
  obtain ⟨rest, htext⟩ : ∃ rest, name.toList = '\'' :: rest := by
    unfold isVariable at h
    split at h
    · exact ⟨_, by assumption⟩
    · cases h
  exact of_stands (fun _ => stands_variable h) htext (by decide)

theorem qualified (hnil : parts ≠ []) (h : ∀ part ∈ parts, isAlphanumeric part = true) :
    Wording (".".intercalate parts) [.identifier (".".intercalate parts)] := by
  have hmatch := matchIdentifier_qualified hnil h
  cases htext : (".".intercalate parts).toList with
  | nil => simp [htext, matchIdentifier] at hmatch
  | cons c rest =>
    refine of_stands (fun _ => stands_identifier hmatch) htext ?_
    rintro rfl
    simp [htext, matchIdentifier] at hmatch

theorem label (h : isLabel name = true) : Wording name [.label name] := by
  cases htext : name.toList with
  | nil => simp [isLabel, isAlphanumeric, isPosition, htext] at h
  | cons c rest =>
    refine of_stands (fun _ => stands_label h) htext ?_
    rintro rfl
    simp [isLabel, isAlphanumeric, isPosition, htext] at h

theorem join (hfirst : Wording text words) (hbetween : Separator between word)
    (hsecond : Wording other others) :
    Wording (text ++ between ++ other) (words ++ word :: others) where
  spells after hafter := by
    rw [String.toList_append, String.toList_append, append_assoc]
    refine (hfirst.spells _ ?_).append ((hbetween.spells _).append (hsecond.spells after hafter))
    rw [append_assoc]
    exact hbetween.starts _
  opens after := by
    rw [String.toList_append, String.toList_append, append_assoc, append_assoc]
    exact hfirst.opens _

theorem space (hfirst : Wording text words) (hsecond : Wording other others) :
    Wording (text ++ " " ++ other) (words ++ others) where
  spells after hafter := by
    rw [String.toList_append, String.toList_append, append_assoc]
    refine (hfirst.spells _ ?_).append ((Spells.space _).append (hsecond.spells after hafter))
    simp [Delimited, isNameTail]
  opens after := by
    rw [String.toList_append, String.toList_append, append_assoc, append_assoc]
    exact hfirst.opens _

section

variable (h : Wording text words)
include h

theorem enclose {left right : String} {opening closing : Lexeme}
    (hleft : ∀ after, after.head? ≠ some '*' → Spells left.toList [opening] after)
    (hopens : ∀ after, (left.toList ++ after).head? ≠ some '*') (hright : Separator right closing) :
    Wording (left ++ text ++ right) (opening :: words ++ [closing]) where
  spells after hafter := by
    rw [String.toList_append, String.toList_append]
    have htext := (h.spells _ (hright.starts after)).append (hright.spells after)
    rw [append_assoc]
    refine (hleft _ ?_).append htext
    rw [append_assoc]
    exact h.opens _
  opens after := by
    rw [String.toList_append, String.toList_append, append_assoc, append_assoc]
    exact hopens _

theorem parens : Wording ("(" ++ text ++ ")") (.leftParen :: words ++ [.rightParen]) :=
  h.enclose (fun _ hafter => .word (stands_leftParen hafter)) (by simp)
    ⟨by simp [Delimited, isNameTail],
      fun after => .word (stands_closed .rightParen (by decide) after)⟩

theorem brackets : Wording ("[" ++ text ++ "]") (.leftBracket :: words ++ [.rightBracket]) :=
  h.enclose (fun after _ => .word (stands_closed .leftBracket (by decide) after)) (by simp)
    ⟨by simp [Delimited, isNameTail],
      fun after => .word (stands_closed .rightBracket (by decide) after)⟩

theorem braces : Wording ("\x7b" ++ text ++ "\x7d") (.leftBrace :: words ++ [.rightBrace]) :=
  h.enclose (fun after _ => .word (stands_closed .leftBrace (by decide) after)) (by simp)
    ⟨by simp [Delimited, isNameTail],
      fun after => .word (stands_closed .rightBrace (by decide) after)⟩

theorem spacedBraces :
    Wording ("\x7b " ++ text ++ " \x7d") (.leftBrace :: words ++ [.rightBrace]) :=
  h.enclose (fun after _ =>
      (Spells.word (stands_closed .leftBrace (by decide) _)).append (.space after))
    (by simp)
    ⟨by simp [Delimited, isNameTail], fun after =>
      (Spells.space _).append (.word (stands_closed .rightBrace (by decide) after))⟩

end

theorem listed {ι : Type} {spelled : ι → String} {read : ι → List Lexeme}
    (hbetween : Separator between word) {items : List ι} (hnil : items ≠ [])
    (h : ∀ item ∈ items, Wording (spelled item) (read item)) :
    Wording (between.intercalate (items.map spelled)) (Lexeme.listed word read items) := by
  induction items with
  | nil => exact absurd rfl hnil
  | cons item items ih =>
    have hitem := h item (by simp)
    cases items with
    | nil => simpa [Lexeme.listed] using hitem
    | cons next items =>
      have hrest := ih (by simp) fun item hitem => h item (by simp [hitem])
      have hboth := hitem.join hbetween hrest
      simpa [Lexeme.listed, String.intercalate_cons_cons] using hboth

end Wording

end Sml
