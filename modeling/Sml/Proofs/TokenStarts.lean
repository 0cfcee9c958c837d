import Mathlib.Data.List.Pairwise
import Sml.Lexical.Scan

/-!
# Where tokens start

Every class of token matches at least one character, so a token starts after
the one before it, and where a token starts tells which one it is.
-/

namespace Sml

open List Option Point

variable {second : Point}
variable {source : String} {skip offset : Nat} {point first third : Point}

namespace Point

theorem le_trans (hfirst : first.le second = true) (hsecond : second.le third = true) :
    first.le third = true := by
  simp only [le, Bool.or_eq_true, Bool.and_eq_true, decide_eq_true_eq, beq_iff_eq] at *
  omega

theorem lt_of_lt_of_le (hfirst : first.lt second = true) (hsecond : second.le third = true) :
    first.lt third = true := by
  simp only [le, lt, Bool.or_eq_true, Bool.and_eq_true, decide_eq_true_eq, beq_iff_eq] at *
  omega

theorem le_of_lt (h : first.lt second = true) : first.le second = true := by
  simp only [le, lt, Bool.or_eq_true, Bool.and_eq_true, decide_eq_true_eq, beq_iff_eq] at *
  omega

theorem le_refl (point : Point) : point.le point = true := by
  simp [le]

theorem ne_of_lt (h : first.lt second = true) : first ≠ second := by
  rintro rfl
  simp [lt] at h

theorem lt_right {columns : Nat} (h : 0 < columns) (point : Point) :
    point.lt (point.right columns) = true := by
  simp [lt, right, h]

theorem lt_nextLine (point : Point) : point.lt point.nextLine = true := by
  simp [lt, nextLine]

end Point

/-! ## Every token has a character -/

variable {length : Nat}

theorem atLeastOne_pos {count : Nat} (h : atLeastOne count = some length) : 0 < length := by
  unfold atLeastOne at h
  split at h
  · cases h
  · cases h
    omega

variable {text : List Char}

theorem matchText_pos {word : List Char} (hword : word ≠ [])
    (h : matchText word text = some length) : 0 < length := by
  unfold matchText at h
  split at h
  · cases h
    exact length_pos_iff.mpr hword
  · cases h

theorem matchInteger_pos (h : matchInteger text = some length) : 0 < length := by
  unfold matchInteger at h
  split at h
  · obtain ⟨count, -, rfl⟩ := map_eq_some_iff.mp h
    omega
  · exact atLeastOne_pos h

theorem matchReal_pos (h : matchReal text = some length) : 0 < length := by
  unfold matchReal at h
  obtain ⟨whole, hwhole, h⟩ := bind_eq_some_iff.mp h
  have hpos := matchInteger_pos hwhole
  split at h
  · obtain ⟨digits, -, h⟩ := bind_eq_some_iff.mp h
    cases h
    omega
  · obtain ⟨exponent, -, h⟩ := bind_eq_some_iff.mp h
    cases h
    omega

variable {kind : TokenKind}

theorem TokenKind.match?_pos (h : kind.match? text = some length) : 0 < length := by
  cases kind with
  | identifier =>
    simp only [match?, matchIdentifier] at h
    split at h
    · split at h
      · cases h
        omega
      · cases h
    · cases h
  | typeVariable =>
    simp only [match?, matchTypeVariable] at h
    split at h
    · obtain ⟨count, -, rfl⟩ := map_eq_some_iff.mp h
      omega
    · cases h
  | charLiteral =>
    simp only [match?, matchChar] at h
    split at h
    · obtain ⟨count, -, rfl⟩ := map_eq_some_iff.mp h
      omega
    · cases h
  | stringLiteral =>
    simp only [match?, matchString] at h
    split at h
    · obtain ⟨count, -, rfl⟩ := map_eq_some_iff.mp h
      omega
    · cases h
  | symbol => exact atLeastOne_pos h
  | real => exact matchReal_pos h
  | integer => exact matchInteger_pos h
  | _ => exact matchText_pos (by simp) h

theorem match?_of_longestMatch (h : longestMatch text = some (kind, length)) :
    kind.match? text = some length := by
  have hbest : ∀ found ∈ longestMatch text, found.1.match? text = some found.2 := by
    refine List.foldlRecOn (motive := fun best : Option (TokenKind × Nat) =>
      ∀ found ∈ best, found.1.match? text = some found.2) TokenKind.all _
      (by simp) ?_
    intro best hbest kind _ found hfound
    split at hfound
    · rename_i hmatch
      split at hfound
      · cases hfound
        exact hmatch
      · exact hbest found hfound
    · rename_i hmatch
      cases hfound
      exact hmatch
    · exact hbest found hfound
  exact hbest (kind, length) h

theorem longestMatch_pos (h : longestMatch text = some (kind, length)) : 0 < length :=
  TokenKind.match?_pos (match?_of_longestMatch h)

theorem byteSize_pos (h : text ≠ []) : 0 < byteSize text := by
  cases text with
  | nil => exact absurd rfl h
  | cons c rest =>
    have hsize := c.utf8Size_pos
    simp only [byteSize, foldr_cons]
    omega

/-! ## Tokens in order -/

private theorem except_map_eq_ok {ε α β : Type} {f : α → β} {result : Except ε α} {value : β}
    (h : result.map f = .ok value) : ∃ found, result = .ok found ∧ f found = value := by
  cases result with
  | error error => cases h
  | ok found =>
    cases h
    exact ⟨found, rfl, rfl⟩

def StartsInOrder (tokens : List Token) : Prop := tokens.Pairwise fun earlier later =>
    earlier.span.start.lt later.span.start = true

-- Unfolding the scanner must not run the matchers.
attribute [local irreducible] longestMatch

theorem tokensFrom_cons (source : String) (point : Point) (offset : Nat)
    (c : Char) (rest : List Char) :
    tokensFrom source 0 point offset (c :: rest) =
      if isBlank c then
        tokensFrom source 0 (if c = '\n' then point.nextLine else point.right 1) (offset + 1) rest
      else
        match longestMatch (c :: rest) with
        | none => .error ⟨source, offset, String.ofList (c :: rest)⟩
        | some (kind, length) =>
          let lexeme := (c :: rest).take length
          let size := byteSize lexeme
          let stop := point.right size
          (tokensFrom source (length - 1) stop (offset + size) rest).map
            (⟨kind, String.ofList lexeme, ⟨point, stop, source⟩⟩ :: ·) :=
  rfl

variable {tokens : List Token}

theorem tokensFrom_of_match? {Q : TokenKind → List Char → Prop}
    (hmatch : ∀ {kind : TokenKind} {text length},
      kind.match? text = some length → Q kind (text.take length))
    (h : tokensFrom source skip point offset text = .ok tokens) :
    ∀ token ∈ tokens, Q token.kind token.text.toList := by
  induction text generalizing skip point offset tokens with
  | nil =>
    cases h
    simp
  | cons c rest ih =>
    cases skip with
    | succ skip => exact ih h
    | zero =>
      rw [tokensFrom_cons] at h
      split at h
      · exact ih h
      · cases hfound : longestMatch (c :: rest) with
        | none =>
          rw [hfound] at h
          cases h
        | some found =>
          rw [hfound] at h
          obtain ⟨later, hlater, rfl⟩ := except_map_eq_ok h
          refine forall_mem_cons.mpr ⟨?_, ih hlater⟩
          simpa using hmatch (match?_of_longestMatch hfound)

theorem tokensFrom_startsInOrder (h : tokensFrom source skip point offset text = .ok tokens) :
    (∀ token ∈ tokens, point.le token.span.start = true) ∧ StartsInOrder tokens := by
  induction text generalizing skip point offset tokens with
  | nil =>
    cases h
    exact ⟨by simp, .nil⟩
  | cons c rest ih =>
    cases skip with
    | succ skip => exact ih h
    | zero =>
      rw [tokensFrom_cons] at h
      split at h
      · obtain ⟨hstarts, hordered⟩ := ih h
        refine ⟨fun token htoken => ?_, hordered⟩
        refine le_trans ?_ (hstarts token htoken)
        split
        · exact le_of_lt point.lt_nextLine
        · exact le_of_lt (point.lt_right (by omega))
      · cases hmatch : longestMatch (c :: rest) with
        | none =>
          rw [hmatch] at h
          cases h
        | some found =>
          rw [hmatch] at h
          obtain ⟨later, hlater, rfl⟩ := except_map_eq_ok h
          obtain ⟨hstarts, hordered⟩ := ih hlater
          have hlength := longestMatch_pos hmatch
          have hlexeme : (c :: rest).take found.2 ≠ [] := by simp [Nat.ne_of_gt hlength]
          have hstop := point.lt_right (byteSize_pos hlexeme)
          constructor
          · intro token htoken
            rcases mem_cons.mp htoken with rfl | htoken
            · exact le_refl point
            · exact le_of_lt (lt_of_lt_of_le hstop (hstarts token htoken))
          · exact .cons (fun token htoken =>
                lt_of_lt_of_le hstop (hstarts token htoken))
              hordered

theorem StartsInOrder.eq_of_start (h : StartsInOrder tokens)
    {first second : Token} (hfirst : first ∈ tokens) (hsecond : second ∈ tokens)
    (hstart : first.span.start = second.span.start) : first = second := by
  obtain ⟨i, hi, rfl⟩ := mem_iff_getElem.mp hfirst
  obtain ⟨j, hj, rfl⟩ := mem_iff_getElem.mp hsecond
  have hordered := pairwise_iff_getElem.mp h
  rcases Nat.lt_trichotomy i j with hlt | heq | hgt
  · exact absurd hstart (ne_of_lt (hordered i j hi hj hlt))
  · subst heq
    rfl
  · exact absurd hstart.symm (ne_of_lt (hordered j i hj hi hgt))

theorem tokenize_startsInOrder {text : String} (h : tokenize text = .ok tokens) :
    StartsInOrder tokens :=
  (tokensFrom_startsInOrder h).2

end Sml
