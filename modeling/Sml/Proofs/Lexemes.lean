import Sml.Proofs.Literals
import Sml.Proofs.TokenStarts

/-!
# Words that stand for themselves

A text is scanned as one word if no other class of token matches more of what
stands there.  Each kind of word says which texts may follow it, and a text
that is put together from such words is scanned as them, one after the other.
No comment is found in it.
-/

namespace Sml

open List TokenKind

/-! ## The longest match -/

variable {c : Char} {rest : List Char} {length : Nat} {p : Char → Bool} {kind : TokenKind}
variable {text after digits body : List Char} {negative : Bool}

namespace TokenKind

def begins : TokenKind → Char → Bool
  | .leftParen, c => c == '('
  | .rightParen, c => c == ')'
  | .leftBracket, c => c == '['
  | .rightBracket, c => c == ']'
  | .leftBrace, c => c == '\x7b'
  | .rightBrace, c => c == '\x7d'
  | .comma, c => c == ','
  | .semicolon, c => c == ';'
  | .ellipsis, c => c == '.'
  | .underscore, c => c == '_'
  | .identifier, c => c.isAlpha
  | .typeVariable, c => c == '\''
  | .charLiteral, c => c == '#'
  | .symbol, c => isSymbolic c
  | .real, c => c == '~' || c.isDigit
  | .integer, c => c == '~' || c.isDigit
  | .stringLiteral, c => c == '"'

theorem matchText_first {first : Char} {word : List Char}
    (h : matchText (first :: word) (c :: rest) = some length) : (c == first) = true := by
  unfold matchText at h
  split at h
  · rename_i hfirst
    simp only [isPrefixOf_cons_cons, Bool.and_eq_true, beq_iff_eq] at hfirst
    simp [hfirst.1]
  · cases h

theorem countWhile_first (h : atLeastOne (countWhile p (c :: rest)) = some length) :
    p c = true := by
  cases hc : p c with
  | true => rfl
  | false => simp [countWhile, hc, atLeastOne] at h

theorem matchInteger_first (h : matchInteger (c :: rest) = some length) :
    (c == '~' || c.isDigit) = true := by
  unfold matchInteger at h
  split at h
  · rename_i heq
    cases heq
    rfl
  · simp [countWhile_first h]

theorem begins_of_match? (h : kind.match? (c :: rest) = some length) : kind.begins c = true := by
  cases kind with
  | identifier =>
    simp only [match?, matchIdentifier] at h
    split at h
    · assumption
    · cases h
  | typeVariable =>
    simp only [match?, matchTypeVariable] at h
    split at h
    · rename_i heq
      cases heq
      rfl
    · cases h
  | charLiteral =>
    simp only [match?, matchChar] at h
    split at h
    · rename_i heq
      cases heq
      rfl
    · cases h
  | stringLiteral =>
    simp only [match?, matchString] at h
    split at h
    · rename_i heq
      cases heq
      rfl
    · cases h
  | symbol => exact countWhile_first h
  | real =>
    obtain ⟨whole, hwhole, -⟩ := Option.bind_eq_some_iff.mp h
    exact matchInteger_first hwhole
  | integer => exact matchInteger_first h
  | _ => exact matchText_first h

end TokenKind

/-- If the best match is given up only for a longer one, the class that
matches most is best in the end. -/
theorem foldl_longest {step : Option (TokenKind × Nat) → TokenKind → Option (TokenKind × Nat)}
    (hstep : ∀ best other, (step best other = best ∧ ∀ count, other.match? text = some count →
        ∃ found ∈ best, count ≤ found.2) ∨
      ∃ count, other.match? text = some count ∧
        step best other = some (other, count) ∧ ∀ found ∈ best, found.2 < count)
    (hkind : kind.match? text = some length) (hothers : ∀ other count, other ≠ kind →
      other.match? text = some count → count < length) (kinds : List TokenKind)
    {best : Option (TokenKind × Nat)}
    (hbest : ∀ found ∈ best, found = (kind, length) ∨ found.2 < length)
    (hmem : kind ∈ kinds ∨ best = some (kind, length)) :
    kinds.foldl step best = some (kind, length) := by
  induction kinds generalizing best with
  | nil => simpa using hmem
  | cons other kinds ih =>
    rw [foldl_cons]
    rcases hstep best other with ⟨hsame, hlonger⟩ | ⟨count, hcount, hnew, hshorter⟩
    · rw [hsame]
      refine ih hbest ?_
      rcases hmem with hmem | hmem
      · rcases mem_cons.mp hmem with rfl | hmem
        · obtain ⟨found, hfound, hle⟩ := hlonger length hkind
          rcases hbest found hfound with rfl | hlt
          · exact .inr hfound
          · omega
        · exact .inl hmem
      · exact .inr hmem
    · rw [hnew]
      by_cases hother : other = kind
      · subst hother
        rw [hkind] at hcount
        cases hcount
        exact ih (by simp) (.inr rfl)
      · have hlt := hothers other count hother hcount
        refine ih (by simp [hlt]) (.inl ?_)
        rcases hmem with hmem | rfl
        · exact (mem_cons.mp hmem).resolve_left (Ne.symm hother)
        · have hless := hshorter _ rfl
          simp only at hless
          omega

theorem longestMatch_eq (hkind : kind.match? text = some length)
    (hothers : ∀ other count, other ≠ kind → other.match? text = some count → count < length) :
    longestMatch text = some (kind, length) := by
  refine foldl_longest ?_ hkind hothers TokenKind.all (by simp)
    (.inl (by cases kind <;> simp [TokenKind.all]))
  intro best other
  split
  · rename_i more hmore
    split
    · exact .inr ⟨more, hmore, rfl, by simpa⟩
    · exact .inl ⟨rfl, by simp_all⟩
  · rename_i more hmore
    exact .inr ⟨more, hmore, rfl, by simp⟩
  · rename_i hnone
    exact .inl ⟨rfl, by simp [hnone]⟩

theorem longestMatch_of_begins (hkind : kind.match? (c :: rest) = some length)
    (hothers : ∀ other, other ≠ kind → other.begins c = false) :
    longestMatch (c :: rest) = some (kind, length) := by
  apply longestMatch_eq hkind
  intro other count hne hmatch
  have hbegins := begins_of_match? hmatch
  rw [hothers other hne] at hbegins
  cases hbegins

/-! ## Where a word ends -/

/-- Neither an identifier nor a number goes on. -/
def Delimited (after : List Char) : Prop := ∀ c ∈ after.head?, isNameTail c = false ∧ c ≠ '.'

theorem countWhile_append (htext : ∀ c ∈ text, p c = true)
    (hafter : ∀ c ∈ after.head?, p c = false) : countWhile p (text ++ after) = text.length := by
  have hnil : after.takeWhile p = [] := by
    cases after with
    | nil => rfl
    | cons c after => simp [hafter c rfl]
  rw [countWhile, takeWhile_append_of_pos htext, hnil, append_nil]

theorem of_countWhile_eq_length (h : countWhile p text = text.length) : ∀ c ∈ text, p c = true := by
  have heq : text.takeWhile p = text := (List.takeWhile_prefix p).eq_of_length h
  rw [← heq]
  exact fun c hc => all_eq_true.mp all_takeWhile c hc

theorem identifierTail_append (htext : identifierTail text = text.length)
    (hafter : Delimited after) : identifierTail (text ++ after) = text.length := by
  fun_induction identifierTail text with
  | case1 =>
    cases after with
    | nil => rfl
    | cons c after =>
      obtain ⟨htail, hpoint⟩ := hafter c rfl
      rw [nil_append, identifierTail]
      · simp [htail]
      · rintro _ _ rfl
        exact absurd rfl hpoint
  | case2 c rest hc ih =>
    simp only [length_cons] at htext
    have hrest := ih (by omega)
    simp only [cons_append, identifierTail, hc, if_true, hrest, length_cons]
    omega
  | case3 c rest hc => simp at htext
  | case4 c rest hpoint hc ih =>
    simp only [length_cons] at htext
    have hrest := ih (by omega)
    rw [cons_append, identifierTail]
    · simp only [hc, if_true, hrest, length_cons]
      omega
    · rintro _ _ rfl
      exact absurd hc (by decide)
  | case5 c rest hpoint hc => simp at htext

theorem of_identifierTail_eq_length (h : identifierTail text = text.length) :
    ∀ c ∈ text, isNameTail c = true ∨ c = '.' := by
  fun_induction identifierTail text with
  | case1 => simp
  | case2 c rest hc ih =>
    simp only [length_cons] at h
    have hrest := ih (by omega)
    simp only [mem_cons, forall_eq_or_imp]
    exact ⟨.inr trivial, .inl (by simp [isNameTail, Char.isAlphanum, hc]), hrest⟩
  | case3 c rest hc => simp at h
  | case4 c rest hpoint hc ih =>
    simp only [length_cons] at h
    simp only [mem_cons, forall_eq_or_imp]
    exact ⟨.inl hc, ih (by omega)⟩
  | case5 c rest hpoint hc => simp at h

theorem exists_of_matchTypeVariable (h : matchTypeVariable text = some text.length) :
    ∃ rest, text = '\'' :: rest ∧ rest ≠ [] ∧ ∀ c ∈ rest, isNameTail c = true := by
  unfold matchTypeVariable at h
  split at h
  · rename_i rest
    obtain ⟨count, hcount, hlength⟩ := Option.map_eq_some_iff.mp h
    unfold atLeastOne at hcount
    split at hcount
    · cases hcount
    · rename_i hpos
      cases hcount
      rw [length_cons] at hlength
      have hall : countWhile isNameTail rest = rest.length := by omega
      refine ⟨rest, rfl, ?_, of_countWhile_eq_length hall⟩
      rintro rfl
      exact hpos rfl
  · cases h

/-! ## Characters -/

theorem of_isSymbolic (h : "!%&$#+-/:<=>?@\\~`^|*".toList.all p = true)
    (hc : isSymbolic c = true) : p c = true :=
  all_eq_true.mp h c (contains_iff_mem.mp hc)

theorem not_isSymbolic_of_isNameTail (h : isNameTail c = true) : isSymbolic c = false := by
  cases hc : isSymbolic c with
  | false => rfl
  | true =>
    have hfalse := of_isSymbolic (p := fun c => !isNameTail c) (by decide) hc
    rw [h] at hfalse
    cases hfalse

theorem not_isDigit_of_isAlpha (h : c.isAlpha = true) : c.isDigit = false := by
  change (decide (c.val ≥ 'A'.val ∧ c.val ≤ 'Z'.val) ||
    (decide (c.val ≥ 'a'.val) && decide (c.val ≤ 'z'.val))) = true at h
  change (decide (c.val ≥ '0'.val) && decide (c.val ≤ '9'.val)) = false
  simp only [Bool.or_eq_true, Bool.and_eq_true, Bool.and_eq_false_iff,
    decide_eq_true_eq, decide_eq_false_iff_not, ge_iff_le,
    UInt32.le_iff_toNat_le] at *
  have hnine : ('9' : Char).val.toNat = 57 := rfl
  have hA : ('A' : Char).val.toNat = 65 := rfl
  have ha : ('a' : Char).val.toNat = 97 := rfl
  omega

theorem isNameTail_of_isAlpha (h : c.isAlpha = true) : isNameTail c = true := by
  simp [isNameTail, Char.isAlphanum, h]

theorem isNameTail_of_isDigit (h : c.isDigit = true) : isNameTail c = true := by
  simp [isNameTail, Char.isAlphanum, h]

/-- The characters of identifiers and numbers are no blanks and open neither
a literal nor a comment. -/
theorem isNameTail_ne (h : isNameTail c = true) (other : Char)
    (hother : isNameTail other = false) : c ≠ other := by
  rintro rfl
  rw [h] at hother
  cases hother

theorem not_isBlank_of_isNameTail (h : isNameTail c = true) : isBlank c = false := by
  have hne := isNameTail_ne h
  simp [isBlank, hne ' ' (by decide), hne '\t' (by decide),
    hne '\n' (by decide), hne '\x0c' (by decide), hne '\r' (by decide)]

theorem TokenKind.real_or_integer_of_begins (h : c.isDigit = true) (hkind : kind.begins c = true) :
    kind = .real ∨ kind = .integer := by
  have htail := isNameTail_of_isDigit h
  have hne := isNameTail_ne htail
  cases kind with
  | real => exact .inl rfl
  | integer => exact .inr rfl
  | identifier =>
    have hdigit := not_isDigit_of_isAlpha hkind
    rw [h] at hdigit
    cases hdigit
  | symbol =>
    rw [begins, not_isSymbolic_of_isNameTail htail] at hkind
    cases hkind
  | typeVariable | underscore =>
    rw [begins, beq_iff_eq] at hkind
    subst hkind
    exact absurd h (by decide)
  | _ => exact absurd (beq_iff_eq.mp hkind) (hne _ (by decide))

/-! ## Numbers -/

def sign (negative : Bool) : List Char := if negative then ['~'] else []

theorem matchInteger_append (hnil : digits ≠ []) (hdigits : ∀ c ∈ digits, c.isDigit = true)
    (hafter : Delimited after) :
    matchInteger ((sign negative ++ digits) ++ after) = some (sign negative ++ digits).length := by
  have hcount : countWhile Char.isDigit (digits ++ after) = digits.length := by
    refine countWhile_append hdigits fun c hc => ?_
    by_contra hdigit
    have htail := isNameTail_of_isDigit (Bool.of_not_eq_false hdigit)
    rw [(hafter c hc).1] at htail
    cases htail
  cases negative with
  | true => simp [sign, matchInteger, hcount, atLeastOne, hnil, Nat.add_comm]
  | false =>
    obtain ⟨first, rest, rfl⟩ := exists_cons_of_ne_nil hnil
    have hfirst : first ≠ '~' := by
      rintro rfl
      exact absurd (hdigits '~' (by simp)) (by decide)
    simp only [sign, Bool.false_eq_true, if_false, nil_append]
    unfold matchInteger
    split
    · rename_i heq
      cases heq
      exact absurd rfl hfirst
    · rw [hcount]
      simp [atLeastOne]

theorem matchReal_eq_none (h : matchInteger (text ++ after) = some text.length)
    (hafter : Delimited after) : matchReal (text ++ after) = none := by
  unfold matchReal
  simp only [h, Option.bind_eq_bind, Option.bind_some, drop_left]
  split
  · exact absurd rfl (hafter '.' rfl).2
  · rename_i rest hpoint
    have hexponent : matchExponent after = none := by
      unfold matchExponent
      split
      · exact absurd (hafter 'e' rfl).1 (by decide)
      · exact absurd (hafter 'E' rfl).1 (by decide)
      · rfl
    simp [hexponent]

theorem isSymbolic_ne (h : isSymbolic c = true) : c ≠ '"' ∧ c ≠ '(' := by
  constructor
  · rintro rfl
    exact absurd h (by decide)
  · rintro rfl
    exact absurd h (by decide)

theorem not_isBlank_of_isSymbolic (h : isSymbolic c = true) : isBlank c = false := by
  have hblank := of_isSymbolic (p := fun c => !isBlank c) (by decide) h
  simpa using hblank

theorem TokenKind.begins_of_isSymbolic (h : isSymbolic c = true) (hchar : c ≠ '#') (hsign : c ≠ '~')
    (hkind : kind ≠ .symbol) : kind.begins c = false := by
  have hbegins : (c == '#' || c == '~' || !kind.begins c) = true := by
    refine of_isSymbolic (p := fun c => c == '#' || c == '~' || !kind.begins c) ?_ h
    cases kind with
    | symbol => exact absurd rfl hkind
    | _ => decide
  simpa [hchar, hsign] using hbegins

theorem TokenKind.begins_of_isAlpha (h : c.isAlpha = true) (hkind : kind ≠ .identifier) :
    kind.begins c = false := by
  have htail := isNameTail_of_isAlpha h
  have hne := isNameTail_ne htail
  have hdigit := not_isDigit_of_isAlpha h
  have hprime : c ≠ '\'' := by
    rintro rfl
    exact absurd h (by decide)
  have hunder : c ≠ '_' := by
    rintro rfl
    exact absurd h (by decide)
  cases kind with
  | identifier => exact absurd rfl hkind
  | typeVariable => simp [begins, hprime]
  | underscore => simp [begins, hunder]
  | symbol => exact not_isSymbolic_of_isNameTail htail
  | real | integer => simp [begins, hdigit, hne '~' (by decide)]
  | _ => exact beq_false_of_ne (hne _ (by decide))

/-! ## Words -/

structure Lexeme where
  kind : TokenKind
  text : String
deriving DecidableEq

def Token.lexeme (token : Token) : Lexeme := ⟨token.kind, token.text⟩

namespace Lexeme

/-- Before this text, the word is no part of a comment and is scanned as it
is. -/
structure Stands (word : Lexeme) (after : List Char) : Prop where
  scanned : longestMatch (word.text.toList ++ after) = some (word.kind, word.text.toList.length)
  solid : ∀ c ∈ word.text.toList.head?, isBlank c = false
  kept : Passes .code .code word.text.toList after

variable {text : String} {after : List Char}

theorem stands_identifier (h : matchIdentifier text.toList = some text.toList.length)
    (hafter : Delimited after) : Stands ⟨.identifier, text⟩ after := by
  cases htext : text.toList with
  | nil => simp [htext, matchIdentifier] at h
  | cons c rest =>
    have hc : c.isAlpha = true := by
      by_contra hc
      simp [htext, matchIdentifier, hc] at h
    have htail : identifierTail rest = rest.length := by
      simp only [htext, matchIdentifier, hc, if_true, Option.some.injEq, length_cons] at h
      omega
    have hfirst := isNameTail_of_isAlpha hc
    refine ⟨?_, ?_, .plain ?_⟩
    · rw [htext]
      refine longestMatch_of_begins ?_ fun _ => begins_of_isAlpha hc
      simp [match?, matchIdentifier, hc, identifierTail_append htail hafter, Nat.add_comm]
    · simp [htext, not_isBlank_of_isNameTail hfirst]
    · intro other hother
      rw [htext, mem_cons] at hother
      have htails : isNameTail other = true ∨ other = '.' := by
        rcases hother with rfl | hother
        · exact .inl hfirst
        · exact of_identifierTail_eq_length htail other hother
      rcases htails with hother | rfl
      · exact ⟨isNameTail_ne hother _ (by decide), isNameTail_ne hother _ (by decide)⟩
      · decide

theorem stands_typeVariable (h : matchTypeVariable text.toList = some text.toList.length)
    (hafter : Delimited after) : Stands ⟨.typeVariable, text⟩ after := by
  obtain ⟨rest, htext, hnil, hrest⟩ := exists_of_matchTypeVariable h
  refine ⟨?_, ?_, .plain ?_⟩
  · rw [htext, cons_append]
    refine longestMatch_of_begins ?_ ?_
    · have happend := countWhile_append hrest fun c hc => (hafter c hc).1
      simp [match?, matchTypeVariable, happend, atLeastOne, hnil, Nat.add_comm]
    · intro other hother
      cases other <;> first | rfl | exact absurd rfl hother
  · rw [htext]
    simp [isBlank]
  · intro c hc
    rw [htext, mem_cons] at hc
    rcases hc with rfl | hc
    · decide
    · exact ⟨isNameTail_ne (hrest c hc) _ (by decide), isNameTail_ne (hrest c hc) _ (by decide)⟩

theorem stands_integer (htext : text.toList = sign negative ++ digits) (hnil : digits ≠ [])
    (hdigits : ∀ c ∈ digits, c.isDigit = true) (hafter : Delimited after) :
    Stands ⟨.integer, text⟩ after := by
  obtain ⟨first, digits, rfl⟩ := exists_cons_of_ne_nil hnil
  have hfirst := hdigits first (by simp)
  have hinteger : matchInteger (text.toList ++ after) = some text.toList.length := by
    rw [htext]
    exact matchInteger_append hnil hdigits hafter
  have hreal := matchReal_eq_none hinteger hafter
  refine ⟨longestMatch_eq hinteger ?_, ?_, .plain ?_⟩
  · intro other count hother hmatch
    dsimp only at hother
    have hother : other = .real ∨ other = .symbol ∧ negative = true := by
      have hbegins := hmatch
      rw [htext] at hbegins
      cases negative with
      | false =>
        have hbegins := real_or_integer_of_begins hfirst (begins_of_match? hbegins)
        exact .inl (hbegins.resolve_right hother)
      | true =>
        have hbegins : other.begins '~' = true := begins_of_match? hbegins
        revert hother hbegins
        cases other <;> decide
    rcases hother with rfl | ⟨rfl, rfl⟩
    · rw [match?, hreal] at hmatch
      cases hmatch
    · -- The sign alone is a symbol.
      have hsymbolic := not_isSymbolic_of_isNameTail (isNameTail_of_isDigit hfirst)
      have hone : countWhile isSymbolic (text.toList ++ after) = 1 := by
        rw [htext]
        simp [sign, countWhile, hsymbolic, show isSymbolic '~' = true by decide]
      rw [match?, matchSymbol, hone] at hmatch
      cases hmatch
      simp [htext, sign]
  · cases negative with
    | true => simp [htext, sign, isBlank]
    | false => simp [htext, sign, not_isBlank_of_isNameTail (isNameTail_of_isDigit hfirst)]
  · intro c hc
    rw [htext, mem_append] at hc
    rcases hc with hc | hc
    · cases negative with
      | true =>
        rw [mem_singleton.mp hc]
        decide
      | false => cases hc
    · have htail := isNameTail_of_isDigit (hdigits c hc)
      exact ⟨isNameTail_ne htail _ (by decide), isNameTail_ne htail _ (by decide)⟩

theorem stands_literal (h : LiteralBody body) (htext : text.toList = '"' :: body ++ ['"'])
    (after : List Char) : Stands ⟨.stringLiteral, text⟩ after := by
  refine ⟨?_, ?_, ?_⟩
  · rw [htext, cons_append, cons_append]
    refine longestMatch_of_begins ?_ ?_
    · rw [match?, matchString, append_assoc, singleton_append, h.quotedTail_append]
      simp [Nat.add_comm]
    · intro other hother
      cases other <;> first | rfl | exact absurd rfl hother
  · rw [htext]
    simp [isBlank]
  · rw [htext]
    exact .quoted h after

theorem stands_string (value : String) (after : List Char) :
    Stands ⟨.stringLiteral, "\"" ++ escape value ++ "\""⟩ after :=
  stands_literal (literalBody_escapeChars _) (toList_stringText value) after

theorem stands_char (value : Char) (after : List Char) :
    Stands ⟨.charLiteral, "#\"" ++ escape value.toString ++ "\""⟩ after := by
  have htext := toList_charText value
  refine ⟨?_, ?_, ?_⟩
  · rw [htext]
    simp only [cons_append]
    refine longestMatch_eq ?_ ?_
    · rw [match?, matchChar, append_assoc, singleton_append,
        (literalBody_escapeChars _).quotedTail_append]
      simp
      omega
    · intro other count hother hmatch
      have hbegins := begins_of_match? hmatch
      have hsymbol : other = .symbol := by
        revert hother hbegins
        cases other <;> decide
      subst hsymbol
      have hone : ∀ rest, countWhile isSymbolic ('#' :: '"' :: rest) = 1 := by
        intro rest
        simp [countWhile, show isSymbolic '#' = true by decide,
          show isSymbolic '"' = false by decide]
      rw [match?, matchSymbol, hone] at hmatch
      cases hmatch
      simp
  · rw [htext]
    simp [isBlank]
  · rw [htext]
    have hmark : Passes .code .code ['#'] (('"' :: escapeChars [value] ++ ['"']) ++ after) :=
      (Turns.code (by decide) fun h => absurd h (by decide)).passes
    exact hmark.append (.quoted (literalBody_escapeChars [value]) after)

theorem stands_symbol (htext : text.toList = c :: rest)
    (hsymbolic : ∀ c ∈ text.toList, isSymbolic c = true) (hchar : c ≠ '#') (hsign : c ≠ '~')
    (hafter : ∀ c ∈ after.head?, isSymbolic c = false) : Stands ⟨.symbol, text⟩ after := by
  have hc : isSymbolic c = true := hsymbolic c (by simp [htext])
  refine ⟨?_, ?_, .plain ?_⟩
  · have hcount := countWhile_append hsymbolic hafter
    rw [htext, cons_append] at hcount ⊢
    refine longestMatch_of_begins ?_ ?_
    · rw [match?, matchSymbol, hcount]
      rfl
    · exact fun other => begins_of_isSymbolic hc hchar hsign
  · rw [htext]
    simpa using not_isBlank_of_isSymbolic hc
  · exact fun c hc => isSymbolic_ne (hsymbolic c hc)

/-! ## Marks -/

def leftParen : Lexeme := ⟨.leftParen, "("⟩

def rightParen : Lexeme := ⟨.rightParen, ")"⟩

def leftBracket : Lexeme := ⟨.leftBracket, "["⟩

def rightBracket : Lexeme := ⟨.rightBracket, "]"⟩

def leftBrace : Lexeme := ⟨.leftBrace, "\x7b"⟩

def rightBrace : Lexeme := ⟨.rightBrace, "\x7d"⟩

def comma : Lexeme := ⟨.comma, ","⟩

theorem stands_mark (htext : text.toList = [c]) (hmatch : ∀ rest, kind.match? (c :: rest) = some 1)
    (hothers : ∀ other, other ≠ kind → other.begins c = false) (hblank : isBlank c = false)
    (hquote : c ≠ '"') (hopen : c ≠ '(' ∨ after.head? ≠ some '*') : Stands ⟨kind, text⟩ after := by
  refine ⟨?_, ?_, ?_⟩
  · rw [htext]
    exact longestMatch_of_begins (hmatch _) hothers
  · simpa [htext] using hblank
  · rw [htext]
    exact (Turns.code hquote fun hc => hopen.resolve_left (absurd hc)).passes

theorem stands_leftParen (h : after.head? ≠ some '*') : leftParen.Stands after :=
  stands_mark (c := '(') rfl (fun _ => rfl)
    (by intro other; cases other <;> decide) rfl (by decide) (.inr h)

/-- No other mark begins a longer word or a comment. -/
theorem stands_closed (mark : Lexeme) (h : mark ∈ [rightParen, leftBracket, rightBracket,
    leftBrace, rightBrace, comma]) (after : List Char) : mark.Stands after := by
  simp only [mem_cons, not_mem_nil, or_false] at h
  rcases h with rfl | rfl | rfl | rfl | rfl | rfl
  all_goals
    refine stands_mark rfl ?_ ?_ rfl (by decide) (.inl (by decide))
    · exact fun _ => rfl
    · intro other
      cases other <;> decide

end Lexeme

/-! ## Texts of words -/

/-- Before `after`, the text is scanned as these words, and no part of it is a
comment. -/
structure Spells (text : List Char) (words : List Lexeme) (after : List Char) : Prop where
  scanned : ∀ source point offset, ∃ tokens point' offset', tokens.map Token.lexeme = words ∧
      tokensFrom source 0 point offset (text ++ after) =
        (tokensFrom source 0 point' offset' after).map (tokens ++ ·)
  kept : Passes .code .code text after

variable {words : List Lexeme}

namespace Spells

attribute [local irreducible] longestMatch

theorem tokensFrom_skip (source : String) (text after : List Char) (point : Point) (offset : Nat) :
    tokensFrom source text.length point offset (text ++ after) =
      tokensFrom source 0 point offset after := by
  induction text with
  | nil => rfl
  | cons c text ih => exact ih

theorem append {more : List Char} {others : List Lexeme}
    (hfirst : Spells text words (more ++ after)) (hsecond : Spells more others after) :
    Spells (text ++ more) (words ++ others) after := by
  refine ⟨fun source point offset => ?_, hfirst.kept.append hsecond.kept⟩
  obtain ⟨tokens, middle, reached, hwords, hscan⟩ := hfirst.scanned source point offset
  obtain ⟨later, last, stop, hothers, hrest⟩ := hsecond.scanned source middle reached
  refine ⟨tokens ++ later, last, stop, by simp [hwords, hothers], ?_⟩
  rw [append_assoc, hscan, hrest]
  cases tokensFrom source 0 last stop after with
  | error error => rfl
  | ok rest => simp [Except.map]

theorem space (after : List Char) : Spells [' '] [] after := by
  refine ⟨fun source point offset => ?_, .plain (by simp)⟩
  refine ⟨[], point.right 1, offset + 1, rfl, ?_⟩
  rw [singleton_append, tokensFrom_cons, if_pos (by decide), if_neg (by decide)]
  cases tokensFrom source 0 (point.right 1) (offset + 1) after with
  | error | ok => rfl

theorem word {word : Lexeme} (h : word.Stands after) : Spells word.text.toList [word] after := by
  refine ⟨fun source point offset => ?_, h.kept⟩
  cases htext : word.text.toList with
  | nil =>
    have hpos := longestMatch_pos h.scanned
    simp [htext] at hpos
  | cons c rest =>
    have hscan := h.scanned
    have hsolid := h.solid c (by simp [htext])
    rw [htext, cons_append] at hscan
    have hword : String.ofList (c :: rest) = word.text := by rw [← htext, String.ofList_toList]
    let stop := point.right (byteSize (c :: rest))
    refine ⟨[⟨word.kind, word.text, ⟨point, stop, source⟩⟩], stop,
      offset + byteSize (c :: rest), rfl, ?_⟩
    have htake : (c :: (rest ++ after)).take (c :: rest).length = c :: rest := by simp
    rw [cons_append, tokensFrom_cons, if_neg (by simp [hsolid]), hscan]
    simp only [htake]
    rw [length_cons, Nat.add_sub_cancel, tokensFrom_skip, hword]
    rfl

theorem tokenize_eq {text : String} (h : Spells text.toList words []) :
    ∃ tokens, tokenize text = .ok tokens ∧ tokens.map Token.lexeme = words := by
  obtain ⟨tokens, point, offset, hwords, hscan⟩ := h.scanned text {} 0
  rw [append_nil] at hscan
  have hend : tokensFrom text 0 point offset [] = .ok [] := rfl
  refine ⟨tokens, ?_, hwords⟩
  rw [tokenize, hscan, hend, Except.map, append_nil]

theorem stripComments_eq {text : String} (h : Spells text.toList words []) :
    stripComments text = .ok text := by
  obtain ⟨point, hkept⟩ := h.kept {}
  rw [append_nil] at hkept
  rw [stripComments, hkept]
  simp [blankComments, Except.map]

end Spells

/-! ## String literals -/

def quote (body : List Char) : String := String.ofList ('"' :: body ++ ['"'])

theorem toList_quote (body : List Char) : (quote body).toList = '"' :: body ++ ['"'] :=
  String.toList_ofList

theorem literalBody_of_tokenize {token : Token} (h : tokenize (quote body) = .ok [token])
    (htoken : token.lexeme = ⟨.stringLiteral, quote body⟩) : LiteralBody body := by
  rw [tokenize, toList_quote, cons_append, tokensFrom_cons, if_neg (by decide)] at h
  split at h
  · cases h
  · rename_i kind length hmatch
    simp only [Except.map] at h
    split at h
    · cases h
    · cases h
      obtain ⟨rfl, htext⟩ := Lexeme.mk.inj htoken
      have hlength := congrArg List.length (String.ofList_injective htext)
      obtain ⟨count, hcount, rfl⟩ := Option.map_eq_some_iff.mp (match?_of_longestMatch hmatch)
      obtain ⟨start, rest, hstart, hbody, rfl⟩ := exists_of_quotedTail hcount
      have hrest := congrArg List.length hstart
      simp only [length_take, length_cons, length_append, length_nil] at hlength hrest
      obtain rfl := length_eq_zero_iff.mp (show rest.length = 0 by omega)
      rwa [append_cancel_right hstart]

/-- A text in quotes is one string, in which there is no comment, if and only
if every backslash in it takes a character with it other than a line feed, and
there is no quote besides. -/
theorem quote_isLiteral_iff (body : List Char) :
    (stripComments (quote body) = .ok (quote body) ∧ ∃ token,
      tokenize (quote body) = .ok [token] ∧ token.lexeme = ⟨.stringLiteral, quote body⟩) ↔
    LiteralBody body := by
  constructor
  · rintro ⟨-, token, hscan, htoken⟩
    exact literalBody_of_tokenize hscan htoken
  · intro h
    have hspells := Spells.word (Lexeme.stands_literal h (toList_quote body) [])
    obtain ⟨tokens, hscan, htokens⟩ := hspells.tokenize_eq
    obtain ⟨token, rfl, htoken⟩ := map_eq_singleton_iff.mp htokens
    exact ⟨hspells.stripComments_eq, token, hscan, htoken⟩

/-- A gap that begins with a line feed stands for nothing and is no part of a
string. -/
theorem quote_gap_not_literal : unescape ['\\', '\n', '\\'] = .ok [] ∧
    ∀ tokens, tokenize (quote ['\\', '\n', '\\']) ≠ .ok tokens := by
  constructor
  · decide
  · have hscan : tokenize (quote ['\\', '\n', '\\']) =
        .error ⟨"\"\\\n\\\"", 0, "\"\\\n\\\""⟩ := by decide
    rw [hscan]
    nofun

end Sml
