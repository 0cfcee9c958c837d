import Mathlib.Data.List.Basic
import Sml.Dynamic.ValueText
import Sml.Lexical.Scan
import Sml.Reading.Word
import Sml.Source.Comment

/-!
# Constants that are written out

The text of an integer, a string or a character means the constant itself.
Neither a comment nor the end of the literal is found inside it.
-/

namespace Sml

open List Option

variable {c : Char} {length : Nat} {digits body more text after : List Char}

/-! ## Escapes -/

theorem unescapeFrom_cons (h : c ≠ '\\') (rest : List Char) :
    unescapeFrom false (c :: rest) = (unescapeFrom false rest).map (c :: ·) := by
  conv_lhs => rw [unescapeFrom.eq_def]
  simp only [Bool.false_eq_true, if_false, if_pos h]
  rfl

theorem unescape_escapeChars (text : List Char) : unescape (escapeChars text) = .ok text := by
  unfold unescape
  fun_induction escapeChars text with
  | case1 => rfl
  | case2 rest ih | case3 rest ih | case4 rest ih | case5 rest ih =>
    exact congrArg (Except.map (List.cons _)) ih
  | case6 c rest _ hslash _ _ ih =>
    rw [unescapeFrom_cons hslash, ih]
    rfl

/-- A text between quotes.  A backslash takes the next character with it,
which is no line feed. -/
inductive LiteralBody : List Char → Prop
  | nil : LiteralBody []
  | escaped {c : Char} {body : List Char} (hfeed : c ≠ '\n') (hbody : LiteralBody body) :
    LiteralBody ('\\' :: c :: body)
  | char {c : Char} {body : List Char} (hquote : c ≠ '"') (hslash : c ≠ '\\')
    (hbody : LiteralBody body) : LiteralBody (c :: body)

theorem literalBody_escapeChars (text : List Char) : LiteralBody (escapeChars text) := by
  fun_induction escapeChars text with
  | case1 => exact .nil
  | case2 _ ih | case3 _ ih | case4 _ ih | case5 _ ih => exact .escaped (by decide) ih
  | case6 _ _ hquote hslash _ _ ih => exact .char hquote hslash ih

theorem LiteralBody.quotedTail_append (h : LiteralBody body) (rest : List Char) :
    quotedTail (body ++ '"' :: rest) = some (body.length + 1) := by
  induction h with
  | nil => rfl
  | escaped hfeed _ ih =>
    simp [quotedTail, hfeed, ih]
    omega
  | char hquote hslash _ ih =>
    rw [cons_append, quotedTail, ih]
    · simp
      omega
    · exact hquote
    · exact fun h _ => hslash h
    · exact fun _ _ h _ => hslash h

theorem exists_of_quotedTail (h : quotedTail text = some length) :
    ∃ body rest, text = body ++ '"' :: rest ∧ LiteralBody body ∧ length = body.length + 1 := by
  fun_induction quotedTail text generalizing length with
  | case1 | case3 | case4 => cases h
  | case2 rest =>
    cases h
    exact ⟨[], rest, rfl, .nil, rfl⟩
  | case5 c rest hfeed ih =>
    obtain ⟨tail, htail, rfl⟩ := map_eq_some_iff.mp h
    obtain ⟨body, after, rfl, hbody, rfl⟩ := ih htail
    exact ⟨'\\' :: c :: body, after, rfl, .escaped hfeed hbody, by simp; omega⟩
  | case6 c rest hquote hlast hslash ih =>
    obtain ⟨tail, htail, rfl⟩ := map_eq_some_iff.mp h
    obtain ⟨body, after, rfl, hbody, rfl⟩ := ih htail
    refine ⟨c :: body, after, rfl, .char hquote ?_ hbody, by simp; omega⟩
    rintro rfl
    cases body with
    | nil => exact hslash _ _ rfl rfl
    | cons => exact hslash _ _ rfl rfl

/-! ## Comments -/

/-- Where a text stops that starts at the point, by lines and characters. -/
def Point.past (point : Point) (text : List Char) : Point :=
  text.foldl (fun point c => if c = '\n' then point.nextLine else point.right 1) point

/-- Blanking comments makes another text of a text and goes on in another
mode, at the place where the measured text stops. -/
def Turns (mode next : CommentMode) (text blanked measured after : List Char) : Prop :=
  ∀ point, blankComments mode point (text ++ after) =
    (blankComments next (point.past measured) after).map (blanked ++ ·)

/-- Blanking comments takes the text as it is and goes on in another mode. -/
def Passes (mode next : CommentMode) (text after : List Char) : Prop :=
  ∀ point, ∃ point', blankComments mode point (text ++ after) =
    (blankComments next point' after).map (text ++ ·)

theorem map_append_map {ε : Type} (result : Except ε (List Char)) (first second : List Char) :
    (result.map (second ++ ·)).map (first ++ ·) = result.map (first ++ second ++ ·) := by
  cases result with
  | error => rfl
  | ok text => simp [Except.map]

namespace Turns

variable {first second third : CommentMode} {text blanked measured after : List Char}

theorem append {blanked' measured' : List Char}
    (hfirst : Turns first second text blanked measured (more ++ after))
    (hsecond : Turns second third more blanked' measured' after) :
    Turns first third (text ++ more) (blanked ++ blanked') (measured ++ measured') after := by
  intro point
  rw [List.append_assoc, hfirst, hsecond, map_append_map, Point.past, Point.past, Point.past,
    List.foldl_append]

theorem passes (h : Turns first second text text measured after) : Passes first second text after :=
  fun point => ⟨_, h point⟩

theorem code (hquote : c ≠ '"') (hopen : c = '(' → after.head? ≠ some '*') :
    Turns .code .code [c] [c] [c] after := by
  intro point
  rw [singleton_append, blankComments, if_neg hquote]
  · rfl
  · rintro rest rfl rfl
    exact hopen rfl rfl

theorem openQuote (after : List Char) : Turns .code .literal ['"'] ['"'] ['"'] after := fun _ => rfl

theorem closeQuote (after : List Char) : Turns .literal .code ['"'] ['"'] ['"'] after :=
  fun _ => rfl

/-- An escape takes two columns, whatever is escaped. -/
theorem escaped (c : Char) {counted : Char} (hcounted : counted ≠ '\n') (after : List Char) :
    Turns .literal .literal ['\\', c] ['\\', c] ['\\', counted] after := by
  intro point
  have hplace : point.past ['\\', counted] = point.right 2 := by
    simp [Point.past, Point.right, hcounted]
  rw [cons_append, singleton_append, blankComments, hplace]
  exact map_append_map _ ['\\'] [c]

theorem literal (hquote : c ≠ '"') (hslash : c ≠ '\\') (after : List Char) :
    Turns .literal .literal [c] [c] [c] after := by
  intro point
  rw [List.singleton_append, blankComments, if_neg hquote]
  · rfl
  · exact fun _ _ h _ => hslash h

end Turns

namespace Passes

theorem refl (mode : CommentMode) (after : List Char) : Passes mode mode [] after := by
  intro point
  refine ⟨point, ?_⟩
  rw [List.nil_append]
  cases blankComments mode point after with
  | error | ok => rfl

theorem append {first second third : CommentMode}
    (hfirst : Passes first second text (more ++ after)) (hsecond : Passes second third more after) :
    Passes first third (text ++ more) after := by
  intro point
  obtain ⟨middle, hmiddle⟩ := hfirst point
  obtain ⟨last, hlast⟩ := hsecond middle
  exact ⟨last, by rw [List.append_assoc, hmiddle, hlast, map_append_map]⟩

theorem literal (h : LiteralBody body) (after : List Char) :
    Passes .literal .literal body after := by
  induction h with
  | nil => exact refl .literal after
  | escaped hfeed _ ih => exact (Turns.escaped _ hfeed _).passes.append ih
  | char hquote hslash _ ih => exact (Turns.literal hquote hslash _).passes.append ih

theorem quoted (h : LiteralBody body) (after : List Char) :
    Passes .code .code ('"' :: body ++ ['"']) after :=
  ((Turns.openQuote _).passes.append (literal h _)).append (Turns.closeQuote after).passes

theorem plain (h : ∀ c ∈ text, c ≠ '"' ∧ c ≠ '(') : Passes .code .code text after := by
  induction text with
  | nil => exact refl .code after
  | cons c text ih =>
    obtain ⟨hquote, hopen⟩ := h c (by simp)
    have hrest := ih fun c hc => h c (by simp [hc])
    exact (Turns.code hquote fun hc => absurd hc hopen).passes.append hrest

end Passes

/-! ## Numbers -/

theorem digitValue?_of_isDigit (h : c.isDigit = true) :
    digitValue? c = some (c.toNat - 48) ∧ c.toNat - 48 < 10 := by
  refine ⟨by simp [digitValue?, h], ?_⟩
  simp only [Char.isDigit, Bool.and_eq_true, decide_eq_true_eq, UInt32.le_iff_toNat_le] at h
  have hle : c.toNat ≤ 57 := h.2
  omega

theorem readDigits?_eq_ofDigitChars (hdigits : ∀ c ∈ digits, c.isDigit = true)
    (hnil : digits ≠ []) : readDigits? 10 digits = some (Nat.ofDigitChars 10 digits 0) := by
  have hfold : ∀ total, digits.foldl (fun total c => do
      let value ← digitValue? c
      if value < 10 then some ((← total) * 10 + value) else none)
        (some total) = some (Nat.ofDigitChars 10 digits total) := by
    clear hnil
    induction digits with
    | nil => exact fun total => rfl
    | cons c digits ih =>
      intro total
      obtain ⟨hvalue, hlt⟩ := digitValue?_of_isDigit (hdigits c (by simp))
      have hrest := ih (fun c hc => hdigits c (by simp [hc])) (10 * total + (c.toNat - 48))
      rw [foldl_cons]
      simp only [hvalue, bind_eq_bind, bind_some, if_pos hlt]
      rw [Nat.mul_comm total]
      exact hrest
  unfold readDigits?
  rw [if_neg (by simpa using hnil)]
  exact hfold 0

def decimal (number : Nat) : List Char := Nat.toDigits 10 number

theorem toList_toString (number : Nat) : (toString number).toList = decimal number := by
  rw [Nat.toString_eq_repr, Nat.toList_repr]
  rfl

theorem isDigit_of_mem_decimal {number : Nat} {c : Char}
    (h : c ∈ decimal number) : c.isDigit = true :=
  Nat.isDigit_of_mem_toDigits (by omega) (Nat.le_refl 10) h

theorem readDigits?_decimal (number : Nat) : readDigits? 10 (decimal number) = some number := by
  rw [readDigits?_eq_ofDigitChars (fun _ => isDigit_of_mem_decimal) Nat.toDigits_ne_nil]
  exact congrArg some Nat.ofDigitChars_ten_toDigits

theorem toList_intText (value : Int64) : (intText value).toList =
      (if value.toInt < 0 then ['~'] else []) ++ decimal value.toInt.natAbs := by
  unfold intText
  split
  · rw [String.toList_append, toList_toString]
    rfl
  · rename_i hsign
    obtain ⟨number, hnumber⟩ := Int.eq_ofNat_of_zero_le (Int.not_lt.mp hsign)
    rw [hnumber]
    exact toList_toString number

/-! ## Literals -/

theorem toList_stringText (value : String) : ("\"" ++ escape value ++ "\"").toList =
      '"' :: escapeChars value.toList ++ ['"'] := by
  simp [escape]

theorem toList_charText (value : Char) : ("#\"" ++ escape value.toString ++ "\"").toList =
      '#' :: '"' :: escapeChars [value] ++ ['"'] := by
  simp [escape]

variable {token : Token}

namespace Token

theorem signed_of_isDigit (h : ∀ c ∈ digits, c.isDigit = true) :
    signed digits = (false, digits) := by
  unfold signed
  split
  · exact absurd (h '~' (by simp)) (by decide)
  · rfl

theorem integer_intText (value : Int64) : integer (intText value).toList = value.toInt := by
  rw [toList_intText]
  by_cases hsign : value.toInt < 0
  · have hsigned : signed (['~'] ++ decimal value.toInt.natAbs) =
        (true, decimal value.toInt.natAbs) := rfl
    rw [if_pos hsign, integer, hsigned]
    simp only [readDigits?_decimal, getD_some, if_true]
    omega
  · rw [if_neg hsign, nil_append, integer, signed_of_isDigit fun _ => isDigit_of_mem_decimal]
    simp only [readDigits?_decimal, getD_some, Bool.false_eq_true, if_false]
    omega

/-! ## Constants -/

theorem constant?_int {value : Int64} (hkind : token.kind = .integer)
    (htext : token.text = intText value) : token.constant? = some (.ok (.int value)) := by
  have hrange : Int64.minValue.toInt ≤ value.toInt ∧ value.toInt ≤ Int64.maxValue.toInt :=
    ⟨value.minValue_le_toInt, value.toInt_le⟩
  simp only [constant?, hkind, htext, integer_intText, if_pos hrange, Int64.ofInt_toInt]

theorem constant?_string {value : String} (hkind : token.kind = .stringLiteral)
    (htext : token.text = "\"" ++ escape value ++ "\"") :
    token.constant? = some (.ok (.string value)) := by
  have hbody : quoted 1 token.text = escapeChars value.toList := by
    rw [quoted, htext, toList_stringText]
    simp
  simp only [constant?, hkind, hbody, unescape_escapeChars]
  simp [Except.mapError, Except.map]

theorem constant?_char {value : Char} (hkind : token.kind = .charLiteral)
    (htext : token.text = "#\"" ++ escape value.toString ++ "\"") :
    token.constant? = some (.ok (.char value)) := by
  have hbody : quoted 2 token.text = escapeChars [value] := by
    rw [quoted, htext, toList_charText]
    simp
  simp only [constant?, hkind, hbody, unescape_escapeChars]

end Token

end Sml
