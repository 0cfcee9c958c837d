import Sml.Proofs.Literals

/-!
# The grammar of escape sequences

Which bodies of literals have their escapes resolved, and to which texts.
-/

namespace Sml

open List

variable {c : Char} {raw text : List Char} {lax gap : Bool}

/-- An escape has so many digits.  Read laxly it may have fewer, where the
literal ends. -/
def FillsDigits (lax : Bool) (count : Nat) (digits raw : List Char) : Prop :=
  digits.length = count ∨ lax = true ∧ digits.length < count ∧ raw = []

/-- The text that the rest of a literal stands for, from inside a gap or not.
Read laxly, a hexadecimal escape may have a sign for its first digit. -/
inductive Escaped (lax : Bool) : Bool → List Char → List Char → Prop
  | nil : Escaped lax false [] []
  | char {c : Char} {raw text : List Char} (hc : c ≠ '\\') (hraw : Escaped lax false raw text) :
    Escaped lax false (c :: raw) (c :: text)
  | simple {c meaning : Char} {raw text : List Char} (hc : simpleEscape? c = some meaning)
    (hraw : Escaped lax false raw text) : Escaped lax false ('\\' :: c :: raw) (meaning :: text)
  | control {name : Char} {raw text : List Char} (hname : isControlName name = true)
    (hraw : Escaped lax false raw text) :
    Escaped lax false ('\\' :: '^' :: name :: raw) (Char.ofNat (name.toNat - 64) :: text)
  | decimal {c first : Char} {digits raw rest text : List Char} (hfirst : first.isDigit = true)
    (hrest : rest = digits ++ raw) (hdigits : FillsDigits lax 2 digits raw)
    (hc : readDigits? 10 (first :: digits) >>= scalar? = some c)
    (hraw : Escaped lax false raw text) : Escaped lax false ('\\' :: first :: rest) (c :: text)
  | hexadecimal {c : Char} {digits raw rest text : List Char} (hrest : rest = digits ++ raw)
    (hdigits : FillsDigits lax 4 digits raw) (hsign : lax = true ∨ '+' ∉ digits)
    (hc : readHex? digits >>= scalar? = some c) (hraw : Escaped lax false raw text) :
    Escaped lax false ('\\' :: 'u' :: rest) (c :: text)
  | openGap {c : Char} {raw text : List Char} (hc : isWhiteSpace c = true)
    (hraw : Escaped lax true raw text) : Escaped lax false ('\\' :: c :: raw) text
  | blank {c : Char} {raw text : List Char} (hc : isWhiteSpace c = true)
    (hraw : Escaped lax true raw text) : Escaped lax true (c :: raw) text
  | closeGap {raw text : List Char} (hraw : Escaped lax false raw text) :
    Escaped lax true ('\\' :: raw) text

theorem put_eq_ok_iff {head : Except EscapeFault Char} {result : Except EscapeFault (List Char)} :
    put head result = .ok text ↔
      ∃ c rest, head = .ok c ∧ result = .ok rest ∧ text = c :: rest := by
  rcases head with fault | c <;> rcases result with fault' | rest <;>
    simp [put, bind, Except.bind, pure, Except.pure, eq_comm]

theorem decimalScalar_eq_ok_iff {digits : List Char} :
    decimalScalar digits = .ok c ↔ readDigits? 10 digits >>= scalar? = some c := by
  rw [decimalScalar]
  cases readDigits? 10 digits >>= scalar? <;> simp

theorem hexScalar_eq_ok_iff {digits : List Char} :
    hexScalar digits = .ok c ↔ readHex? digits >>= scalar? = some c := by
  rw [hexScalar]
  cases readHex? digits >>= scalar? <;> simp

theorem unescapeFrom_escape (hcontrol : c ≠ '^') (hcode : c ≠ 'u') (rest : List Char) :
    unescapeFrom false ('\\' :: c :: rest) =
      match simpleEscape? c with
      | some meaning => put (.ok meaning) (unescapeFrom false rest)
      | none =>
        if c.isDigit then
          match rest with
          | a :: b :: rest => put (decimalScalar [c, a, b]) (unescapeFrom false rest)
          | rest => put (decimalScalar (c :: rest)) (.ok [])
        else if isWhiteSpace c then unescapeFrom true rest
        else .error (.unknown c) := by
  conv_lhs => rw [unescapeFrom.eq_def]
  simp only [Bool.false_eq_true, if_false, ne_eq, not_true_eq_false]
  split <;> rename_i heq <;> cases heq
  · exact absurd rfl hcontrol
  · exact absurd rfl hcontrol
  · exact absurd rfl hcode
  · exact absurd rfl hcode
  · rfl

/-- No digit and no blank begins another escape. -/
theorem simpleEscape?_eq_none (h : c.isDigit = true ∨ isWhiteSpace c = true) :
    c ≠ '^' ∧ c ≠ 'u' ∧ simpleEscape? c = none := by
  refine ⟨?_, ?_, ?_⟩
  · rintro rfl
    exact absurd h (by decide)
  · rintro rfl
    exact absurd h (by decide)
  · unfold simpleEscape?
    split <;> first | rfl | exact absurd h (by decide)

theorem isDigit_of_isWhiteSpace (h : isWhiteSpace c = true) : c.isDigit = false := by
  simp [isWhiteSpace, whiteSpaceRanges] at h
  simp only [Char.isDigit, UInt32.le_iff_toNat_le]
  grind [Char.toNat]

theorem Escaped.unescapeFrom_eq (h : Escaped lax gap raw text) :
    unescapeFrom gap raw = .ok text := by
  induction h with
  | nil => rfl
  | char hc _ ih =>
    rw [unescapeFrom_cons hc, ih]
    rfl
  | simple hc _ ih =>
    rw [unescapeFrom_escape (by rintro rfl; cases hc) (by rintro rfl; cases hc), hc]
    exact put_eq_ok_iff.mpr ⟨_, _, rfl, ih, rfl⟩
  | control hname _ ih =>
    rw [unescapeFrom]
    simp only [Bool.false_eq_true, if_false, ne_eq, not_true_eq_false, hname, if_true]
    exact put_eq_ok_iff.mpr ⟨_, _, rfl, ih, rfl⟩
  | decimal hfirst hrest hdigits hc hraw ih =>
    subst hrest
    obtain ⟨hcontrol, hcode, hsimple⟩ := simpleEscape?_eq_none (.inl hfirst)
    rw [unescapeFrom_escape hcontrol hcode, hsimple]
    simp only [hfirst, if_true]
    rcases hdigits with hdigits | ⟨-, hdigits, rfl⟩
    · obtain ⟨a, b, rfl⟩ := length_eq_two.mp hdigits
      exact put_eq_ok_iff.mpr ⟨_, _, decimalScalar_eq_ok_iff.mpr hc, ih, rfl⟩
    · cases hraw
      rw [append_nil]
      split
      · simp only [length_cons] at hdigits
        omega
      · exact put_eq_ok_iff.mpr ⟨_, _, decimalScalar_eq_ok_iff.mpr hc, rfl, rfl⟩
  | hexadecimal hrest hdigits _ hc hraw ih =>
    subst hrest
    rcases hdigits with hdigits | ⟨-, hdigits, rfl⟩
    · obtain ⟨a, b, d, e, rfl⟩ := length_eq_four.mp hdigits
      exact put_eq_ok_iff.mpr ⟨_, _, hexScalar_eq_ok_iff.mpr hc, ih, rfl⟩
    · cases hraw
      rw [append_nil, unescapeFrom]
      · exact put_eq_ok_iff.mpr ⟨_, _, hexScalar_eq_ok_iff.mpr hc, rfl, rfl⟩
      · rintro a b d e rest rfl
        simp only [length_cons] at hdigits
        omega
  | openGap hc _ ih =>
    obtain ⟨hcontrol, hcode, hsimple⟩ := simpleEscape?_eq_none (.inr hc)
    rw [unescapeFrom_escape hcontrol hcode, hsimple]
    simp only [isDigit_of_isWhiteSpace hc, Bool.false_eq_true, if_false, hc, if_true, ih]
  | @blank c _ _ hc _ ih =>
    have hslash : c ≠ '\\' := by
      rintro rfl
      exact absurd hc (by decide)
    rw [unescapeFrom.eq_def]
    simp only [if_true, if_neg hslash, if_pos hc]
    exact ih
  | closeGap _ ih =>
    rw [unescapeFrom.eq_def]
    exact ih

theorem escaped_of_unescapeFrom (h : unescapeFrom gap raw = .ok text) :
    Escaped true gap raw text := by
  fun_induction unescapeFrom gap raw generalizing text <;>
    simp_all only [Bool.not_eq_true, ne_eq, not_not, put_eq_ok_iff, decimalScalar_eq_ok_iff,
      hexScalar_eq_ok_iff, Except.ok.injEq, reduceCtorEq]
  case case2 => exact h ▸ .nil
  case case3 ih => exact .closeGap (ih rfl)
  case case4 hc ih => exact .blank hc (ih rfl)
  case case6 hc ih =>
    obtain ⟨_, _, rfl, hrest, rfl⟩ := h
    exact .char hc (ih hrest)
  case case8 hname ih =>
    obtain ⟨_, _, rfl, hrest, rfl⟩ := h
    exact .control hname (ih hrest)
  case case11 ih =>
    obtain ⟨_, _, hc, hrest, rfl⟩ := h
    exact @Escaped.hexadecimal _ _ [_, _, _, _] _ _ _ rfl (.inl rfl) (.inl rfl) hc (ih hrest)
  case case12 rest _ _ hshort =>
    obtain ⟨_, _, hc, rfl, rfl⟩ := h
    refine .hexadecimal (append_nil rest).symm (.inr ⟨rfl, ?_, rfl⟩) (.inl rfl) hc .nil
    rcases rest with _ | ⟨a, _ | ⟨b, _ | ⟨d, _ | ⟨e, rest⟩⟩⟩⟩
    case cons.cons.cons.cons => exact (hshort a b d e rest rfl).elim
    all_goals simp
  case case13 hc ih =>
    obtain ⟨_, _, rfl, hrest, rfl⟩ := h
    exact .simple hc (ih hrest)
  case case14 hfirst _ _ _ ih =>
    obtain ⟨_, _, hc, hrest, rfl⟩ := h
    exact @Escaped.decimal _ _ _ [_, _] _ _ _ hfirst rfl (.inl rfl) hc (ih hrest)
  case case15 rest _ _ _ _ hfirst hshort _ _ _ =>
    obtain ⟨_, _, hc, rfl, rfl⟩ := h
    refine .decimal hfirst (append_nil rest).symm (.inr ⟨rfl, ?_, rfl⟩) hc .nil
    rcases rest with _ | ⟨a, _ | ⟨b, rest⟩⟩
    case cons.cons => exact (hshort a b rest rfl).elim
    all_goals simp
  case case16 hc ih => exact .openGap hc (ih rfl)

/-- Escapes are resolved in those texts that have a lax reading, all texts
with a strict one among them, and what was written with escapes comes back. -/
theorem unescape_eq_ok_iff (raw text : List Char) :
    (unescape raw = .ok text ↔ Escaped true false raw text) ∧
    (Escaped false false raw text → unescape raw = .ok text) ∧
    unescape (escapeChars text) = .ok text :=
  ⟨⟨escaped_of_unescapeFrom, Escaped.unescapeFrom_eq⟩, Escaped.unescapeFrom_eq,
    unescape_escapeChars text⟩

/-- Two digits too few. -/
theorem unescape_short : unescape ['\\', '6'] = .ok ['\x06'] ∧
    ∀ text, ¬ Escaped false false ['\\', '6'] text := by
  refine ⟨by decide, fun text h => ?_⟩
  cases h with
  | char hc => exact hc rfl
  | simple hc | openGap hc => cases hc
  | decimal _ hrest hdigits =>
    rcases hdigits with hdigits | ⟨⟨⟩, _⟩
    simp_all

end Sml
