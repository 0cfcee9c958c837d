import Sml.Proofs.ReadingWords
import Sml.Proofs.Wording

/-!
# What readers read

A reader consumes words if, wherever they stand before others, it succeeds
past exactly them.  Readers of single tokens consume one word or look at the
next, and what they consume one after the other adds up.
-/

namespace Sml

open Lexeme List Option

/-- These words are ahead of the cursor, and these operators are in force. -/
structure Cursor.Faces (cursor : Cursor) (operators : OperatorTable)
    (words : List Lexeme) : Prop where
  words : (cursor.tokens.toList.drop cursor.index).map Token.lexeme = words
  operators : cursor.operators = operators
  inside : cursor.index ≤ cursor.tokens.size

namespace Cursor.Faces

variable {cursor : Cursor} {operators : OperatorTable} {words : List Lexeme}

theorem remaining (h : cursor.Faces operators words) : cursor.remaining = words.length := by
  simp [Cursor.remaining, ← h.words]

theorem at_end (h : cursor.Faces operators []) : cursor.index = cursor.tokens.size := by
  have hremaining := h.remaining
  have hinside := h.inside
  simp only [Cursor.remaining, length_nil] at hremaining
  omega

theorem peek? (h : cursor.Faces operators words) : cursor.peek?.map Token.lexeme = words.head? := by
  rw [← h.words, head?_map, head?_drop, Cursor.peek?, Array.getElem?_toList]

theorem exists_peek? {word : Lexeme} (h : cursor.Faces operators (word :: words)) :
    ∃ token, cursor.peek? = some token ∧ token.lexeme = word := by
  have hpeek := h.peek?
  rwa [head?_cons, map_eq_some_iff] at hpeek

theorem advance {word : Lexeme} (h : cursor.Faces operators (word :: words)) :
    cursor.advance.Faces operators words := by
  have hremaining := h.remaining
  simp only [Cursor.remaining, length_cons] at hremaining
  have hindex : cursor.index < cursor.tokens.size := by omega
  refine ⟨?_, ?_, ?_⟩
  · have hwords := congrArg List.tail h.words
    rw [← map_tail, tail_drop] at hwords
    simpa [Cursor.advance, hindex] using hwords
  · simpa [Cursor.advance, hindex] using h.operators
  · simp only [Cursor.advance, hindex, if_true]
    omega

end Cursor.Faces

def Lexeme.name? (word : Lexeme) : Option String :=
  match word.kind with
  | .identifier | .symbol => some word.text
  | _ => none

variable {check : Reader Bool} {kind : TokenKind} {text : String} {separator : Lexeme}
variable {found : Bool}

namespace Reader

variable {α β : Type} {operators : OperatorTable} {words others rest : List Lexeme}

/-- Where these words stand before the rest, the reader succeeds past them
with such a value. -/
def Consumes (operators : OperatorTable) (reader : Reader α)
    (words rest : List Lexeme) (Q : α → Prop) : Prop :=
  ∀ cursor : Cursor, cursor.Faces operators (words ++ rest) →
    ∃ value next, reader cursor = .ok value next ∧
      next.Faces operators rest ∧ next.tokens = cursor.tokens ∧ Q value

namespace Consumes

variable {reader : Reader α} {P Q : α → Prop} {R : β → Prop}
variable {yes no : Reader β} {next : α → Reader β}

theorem pure {value : α} (h : Q value) : Consumes operators (pure value) [] rest Q :=
  fun cursor hcursor => ⟨value, cursor, rfl, hcursor, rfl, h⟩

theorem mono (h : Consumes operators reader words rest P) (hvalue : ∀ value, P value → Q value) :
    Consumes operators reader words rest Q := by
  intro cursor hcursor
  obtain ⟨value, next, hread, hnext, htokens, hvalue'⟩ := h cursor hcursor
  exact ⟨value, next, hread, hnext, htokens, hvalue value hvalue'⟩

theorem bind (h : Consumes operators reader words (others ++ rest) P)
    (hnext : ∀ value, P value → Consumes operators (next value) others rest R) :
    Consumes operators (reader >>= next) (words ++ others) rest R := by
  intro cursor hcursor
  rw [append_assoc] at hcursor
  obtain ⟨value, middle, hread, hmiddle, htokens, hvalue⟩ := h cursor hcursor
  obtain ⟨result, last, hrest, hlast, hsame, hresult⟩ := hnext value hvalue middle hmiddle
  refine ⟨result, last, ?_, hlast, hsame.trans htokens, hresult⟩
  change EStateM.bind reader next cursor = _
  rw [EStateM.bind, hread]
  exact hrest

theorem look (h : Consumes operators reader [] (words ++ rest) P)
    (hnext : ∀ value, P value → Consumes operators (next value) words rest R) :
    Consumes operators (reader >>= next) words rest R :=
  bind h hnext

theorem first {word : Lexeme} (h : Consumes operators reader [word] (words ++ rest) P)
    (hnext : ∀ value, P value → Consumes operators (next value) words rest R) :
    Consumes operators (reader >>= next) (word :: words) rest R :=
  bind h hnext

theorem last (h : Consumes operators reader words rest P)
    (hnext : ∀ value, P value → Consumes operators (next value) [] rest R) :
    Consumes operators (reader >>= next) words rest R := by
  have hboth : Consumes operators (reader >>= next) (words ++ []) rest R := bind h hnext
  rwa [append_nil] at hboth

theorem some (h : Consumes operators reader words rest P) :
    Consumes operators (do return some (← reader)) words rest
      fun value? => ∃ value ∈ value?, P value :=
  h.last fun value hvalue => .pure ⟨value, rfl, hvalue⟩

/-! A test decides which reader goes on. -/

theorem lookYes (h : Consumes operators check [] (words ++ rest) (· = true))
    (hyes : Consumes operators yes words rest R) :
    Consumes operators (do if ← check then yes else no) words rest R := by
  refine h.look fun found hfound => ?_
  rw [hfound, if_pos rfl]
  exact hyes

theorem lookNo (h : Consumes operators check [] (words ++ rest) (· = false))
    (hno : Consumes operators no words rest R) :
    Consumes operators (do if ← check then yes else no) words rest R := by
  refine h.look fun found hfound => ?_
  rw [hfound, if_neg Bool.false_ne_true]
  exact hno

theorem firstYes {word : Lexeme} (h : Consumes operators check [word] (words ++ rest) (· = true))
    (hyes : Consumes operators yes words rest R) :
    Consumes operators (do if ← check then yes else no) (word :: words) rest R := by
  refine h.first fun found hfound => ?_
  rw [hfound, if_pos rfl]
  exact hyes

theorem of_view {f : Cursor → α}
    (h : ∀ cursor : Cursor, cursor.Faces operators rest → Q (f cursor)) :
    Consumes operators (view f) [] rest Q :=
  fun cursor hcursor => ⟨f cursor, cursor, rfl, hcursor, rfl, h cursor hcursor⟩

end Consumes

theorem consumes_currentSpan : Consumes operators currentSpan [] rest fun _ => True :=
  .of_view fun _ _ => trivial

theorem consumes_spanFrom (start : Span) :
    Consumes operators (spanFrom start) [] rest fun _ => True :=
  .of_view fun _ _ => trivial

theorem consumes_advance {word : Lexeme} :
    Consumes operators advance [word] rest fun _ => True := by
  intro cursor hcursor
  refine ⟨(), cursor.advance, rfl, hcursor.advance, ?_, trivial⟩
  exact cursor.onward_advance.1.tokens

/-! ## Single tokens -/

theorem consumes_peek? : Consumes operators peek? [] rest fun next? =>
      next?.map Token.lexeme = rest.head? :=
  .of_view fun _ hcursor => hcursor.peek?

theorem consumes_atKind (h : rest.head?.any (·.kind == kind) = found) :
    Consumes operators (atKind kind) [] rest (· = found) := by
  refine .of_view fun cursor hcursor => ?_
  rw [← h, ← hcursor.peek?, Option.any_map]
  rfl

theorem consumes_atWord (h : (rest.head?.bind name? == some text) = found) :
    Consumes operators (atWord text) [] rest (· = found) := by
  refine .of_view fun cursor hcursor => ?_
  rw [← h, ← hcursor.peek?, bind_map]
  rfl

theorem consumes_eatKind {word : Lexeme} (h : word.kind = kind) :
    Consumes operators (eatKind kind) [word] rest (· = true) := by
  exact (consumes_atKind (by simp [h])).lookYes (consumes_advance.last fun _ _ => .pure rfl)

theorem consumes_eatKind_ne (h : rest.head?.any (·.kind == kind) = false) :
    Consumes operators (eatKind kind) [] rest (· = false) := by
  exact (consumes_atKind h).lookNo (.pure rfl)

theorem consumes_eatWord {word : Lexeme} (h : word.name? = some text) :
    Consumes operators (eatWord text) [word] rest (· = true) := by
  exact (consumes_atWord (by simp [h])).lookYes (consumes_advance.last fun _ _ => .pure rfl)

theorem consumes_eatWord_ne (h : rest.head?.bind name? ≠ some text) :
    Consumes operators (eatWord text) [] rest (· = false) := by
  exact (consumes_atWord (beq_false_of_ne h)).lookNo (.pure rfl)

theorem consumes_punctuation {word : Lexeme} (h : word.kind = kind) (text : String) :
    Consumes operators (punctuation kind text) [word] rest fun _ => True := by
  refine (consumes_eatKind h).last fun found hfound => ?_
  rw [hfound]
  exact .pure trivial

theorem consumes_comma : Consumes operators comma [Lexeme.comma] rest fun _ => True :=
  consumes_punctuation rfl ","

theorem consumes_rightParen :
    Consumes operators rightParen [Lexeme.rightParen] rest fun _ => True :=
  consumes_punctuation rfl ")"

theorem consumes_rightBracket :
    Consumes operators rightBracket [Lexeme.rightBracket] rest fun _ => True :=
  consumes_punctuation rfl "]"

theorem consumes_rightBrace :
    Consumes operators rightBrace [Lexeme.rightBrace] rest fun _ => True :=
  consumes_punctuation rfl "\x7d"

theorem consumes_word {word : Lexeme} (h : word.name? = some text) :
    Consumes operators (Reader.word text) [word] rest fun _ => True := by
  refine (consumes_eatWord h).last fun found hfound => ?_
  rw [hfound]
  exact .pure trivial

theorem consumes_token {word : Lexeme} {f : Token → Option α} {value : α}
    (h : ∀ token : Token, token.lexeme = word → f token = some value) (expected : Expectation) :
    Consumes operators (token f expected) [word] rest (·.1 = value) := by
  refine consumes_peek?.look fun next? hnext => ?_
  obtain ⟨found, rfl, hfound⟩ := map_eq_some_iff.mp hnext
  simp only [h found hfound]
  exact consumes_advance.last fun _ _ => .pure rfl

theorem consumes_label {name : String} (h : isLabel name = true) :
    Consumes operators label [Lexeme.label name] rest (·.1 = name) := by
  refine consumes_token (fun token htoken => ?_) .label
  obtain ⟨hkind, htext⟩ := mk.inj htoken
  simp only [isLabel, Bool.or_eq_true, Bool.and_eq_true, Bool.not_eq_true'] at h
  rcases h with ⟨hname, hreserved⟩ | hposition
  · rw [if_pos hname] at hkind
    simp [Token.label?, Token.shortIdentifier?, hkind, htext, hreserved, point_not_mem hname]
  · rw [not_isAlphanumeric_of_isPosition hposition] at hkind
    have hhead : name.toList.head? ≠ some '~' ∧ name.toList.head? ≠ some '0' := by
      unfold isPosition at hposition
      split at hposition
      · cases hposition
      · rename_i c digits heq
        simp only [Bool.and_eq_true, bne_iff_ne, all_cons] at hposition
        refine ⟨?_, by simpa [heq] using hposition.1⟩
        rw [heq, head?_cons, ne_eq, Option.some.injEq]
        rintro rfl
        exact absurd hposition.2.1 (by decide)
    simp [Token.label?, Token.shortIdentifier?, hkind, htext, hhead]

def labelled (mark : String) (read : Reader α) : Reader (String × α) := do
  let (name, _) ← label
  word mark
  return (name, ← read)

theorem consumes_labelled {name mark : String} {read : Reader α} {Q : α → Prop}
    (hname : isLabel name = true) (hmark : (symbol mark).name? = some mark)
    (h : Consumes operators read words rest Q) :
    Consumes operators (labelled mark read) (.label name :: .symbol mark :: words) rest
      fun field => field.1 = name ∧ Q field.2 := by
  refine (consumes_label hname).first fun value hvalue => ?_
  refine (consumes_word hmark).first fun _ _ => ?_
  exact h.last fun value hread => .pure ⟨hvalue, hread⟩

/-! ## Repeating -/

theorem consumes_whileSome_none {first : α} {step : α → Reader (Option α)}
    (h : Consumes operators (step first) [] rest (· = none)) :
    Consumes operators (whileSome first step) [] rest (· = first) := by
  refine (Consumes.of_view (Q := fun _ => True) fun _ _ => trivial).look fun bound _ => ?_
  rw [iterate]
  refine h.look fun next? hnext => ?_
  rw [hnext]
  exact .pure rfl

theorem consumes_whileWord_none {first : α} {more : α → Reader (Option α)} {Q : α → Prop}
    (h : rest.head?.bind name? ≠ some text) (hfirst : Q first) :
    Consumes operators (whileSome first fun value => do
      if ← eatWord text then more value else return none) [] rest Q := by
  have hnone : Consumes operators (do
      if ← eatWord text then more first else return none) [] rest (· = none) :=
    (consumes_eatWord_ne h).lookNo (.pure rfl)
  refine (consumes_whileSome_none hnone).mono fun value hvalue => ?_
  rw [hvalue]
  exact hfirst

/-- However often the step may be repeated, if it is once for every word. -/
def Loops (operators : OperatorTable) (step : α → Reader (Option α))
    (value : α) (words rest : List Lexeme) (Q : α → Prop) : Prop :=
  ∀ bound, words.length < bound → Consumes operators (iterate step bound value) words rest Q

namespace Loops

variable {step : α → Reader (Option α)} {value : α} {P Q : α → Prop}

theorem done (hstep : Consumes operators (step value) [] rest (· = none))
    (h : Q value) : Loops operators step value [] rest Q := by
  intro bound hbound
  obtain ⟨bound, rfl⟩ := Nat.exists_eq_succ_of_ne_zero (Nat.ne_of_gt hbound)
  rw [iterate]
  refine hstep.look fun next? hnext => ?_
  rw [hnext]
  exact .pure h

theorem next (hwords : words ≠ []) (hstep : Consumes operators (step value) words (others ++ rest)
      fun next? => ∃ next ∈ next?, P next)
    (h : ∀ next, P next → Loops operators step next others rest Q) :
    Loops operators step value (words ++ others) rest Q := by
  intro bound hbound
  obtain ⟨bound, rfl⟩ := Nat.exists_eq_succ_of_ne_zero (Nat.ne_of_gt (Nat.zero_lt_of_lt hbound))
  rw [iterate]
  refine hstep.bind fun next? hnext => ?_
  obtain ⟨next, rfl, hnext⟩ := hnext
  have hpos := length_pos_iff.mpr hwords
  rw [length_append] at hbound
  exact h next hnext bound (by omega)

theorem whileSome (h : Loops operators step value words rest Q) :
    Consumes operators (whileSome value step) words rest Q := by
  have hremaining : Consumes operators (view Cursor.remaining) []
      (words ++ rest) (· = words.length + rest.length) := by
    refine .of_view fun cursor hcursor => ?_
    rw [hcursor.remaining, length_append]
  refine hremaining.look fun bound hbound => ?_
  exact h (bound + 1) (by omega)

end Loops

section Lists

variable {ι : Type} {items : List ι} {spelled : ι → List Lexeme}
  {Q : ι → α → Prop} {Stop : List Lexeme → Prop}
variable {item : Reader α}

/-- Items are read one after the other, if each can be read before what the
next one begins with. -/
theorem consumes_many {item : Reader (Option α)} (hitem : ∀ entry ∈ items, spelled entry ≠ [] ∧
      ∀ rest, Stop rest → Stop (spelled entry ++ rest) ∧
        Consumes operators item (spelled entry) rest fun value? => ∃ value ∈ value?, Q entry value)
    (hrest : Stop rest) (hnone : Consumes operators item [] rest (· = none)) :
    Consumes operators (many item) (items.flatMap spelled) rest (List.Forall₂ Q items) := by
  let step (values : List α) : Reader (Option (List α)) := do
    return (← item).map (· :: values)
  have hstop : ∀ entries : List ι, (∀ entry ∈ entries, entry ∈ items) →
      Stop (entries.flatMap spelled ++ rest) := by
    intro entries hentries
    induction entries with
    | nil => exact hrest
    | cons entry entries ih =>
      rw [flatMap_cons, append_assoc]
      have hlater := ih fun entry hentry => hentries entry (by simp [hentry])
      exact ((hitem entry (hentries entry (by simp))).2 _ hlater).1
  -- The values read so far stand in reverse.
  have hloop : ∀ (entries : List ι) (values : List α), (∀ entry ∈ entries, entry ∈ items) →
      Loops operators step values (entries.flatMap spelled) rest fun all =>
        ∃ found, all = found.reverse ++ values ∧ List.Forall₂ Q entries found := by
    intro entries
    induction entries with
    | nil =>
      intro values _
      refine .done (hnone.last fun value? hvalue => ?_) ⟨[], rfl, .nil⟩
      rw [hvalue]
      exact .pure rfl
    | cons entry entries ih =>
      intro values hentries
      have hlater : ∀ entry ∈ entries, entry ∈ items :=
        fun entry hentry => hentries entry (by simp [hentry])
      obtain ⟨hwords, hread⟩ := hitem entry (hentries entry (by simp))
      refine .next (P := fun next => ∃ value, Q entry value ∧ next = value :: values) hwords ?_ ?_
      · refine (hread _ (hstop entries hlater)).2.last fun value? hvalue => ?_
        obtain ⟨value, rfl, hvalue⟩ := hvalue
        exact .pure ⟨_, rfl, value, hvalue, rfl⟩
      · rintro _ ⟨value, hvalue, rfl⟩ bound hbound
        refine (ih (value :: values) hlater bound hbound).mono ?_
        rintro _ ⟨found, rfl, hfound⟩
        exact ⟨value :: found, by simp, .cons hvalue hfound⟩
  refine (hloop items [] fun _ h => h).whileSome.last fun all hall => ?_
  obtain ⟨found, rfl, hfound⟩ := hall
  exact .pure (by simpa using hfound)

section Listed

variable (hitem : ∀ entry ∈ items, ∀ rest, Stop rest →
    Consumes operators item (spelled entry) rest (Q entry)) (hitems : items ≠ [])
  (hseparator : ∀ rest, Stop (separator :: rest)) (hrest : Stop rest)
include hitem hitems hseparator hrest

theorem consumes_listed {more : Reader (Option α)}
    (hmore : ∀ {words rest} {P : α → Prop}, Consumes operators item words rest P →
      Consumes operators more (separator :: words) rest fun value? => ∃ value ∈ value?, P value)
    (hnone : Consumes operators more [] rest (· = none)) :
    Consumes operators (do
        let value ← item
        let values ← many more
        return value :: values)
      (listed separator spelled items) rest (List.Forall₂ Q items) := by
  obtain ⟨first, others, rfl⟩ := exists_cons_of_ne_nil hitems
  refine (hitem first (by simp) _ ?_).bind fun value hvalue => ?_
  · cases others with
    | nil => exact hrest
    | cons entry others => exact hseparator _
  have hothers : Consumes operators (many more)
      (others.flatMap fun entry => separator :: spelled entry) rest
      (List.Forall₂ Q others) := by
    refine consumes_many (fun entry hentry => ⟨by simp, fun rest hrest => ⟨hseparator _, ?_⟩⟩)
      hrest hnone
    exact hmore (hitem entry (mem_cons_of_mem _ hentry) rest hrest)
  exact hothers.last fun values hvalues => .pure (.cons hvalue hvalues)

theorem consumes_separatedByKind (hkind : separator.kind = kind)
    (hnone : rest.head?.any (·.kind == kind) = false) :
    Consumes operators (separatedByKind kind item)
      (listed separator spelled items) rest (List.Forall₂ Q items) :=
  consumes_listed hitem hitems hseparator hrest (fun h => (consumes_eatKind hkind).firstYes h.some)
    ((consumes_eatKind_ne hnone).lookNo (.pure rfl))

theorem consumes_separatedByWord (htext : separator.name? = some text)
    (hnone : rest.head?.bind name? ≠ some text) :
    Consumes operators (separatedByWord text item)
      (listed separator spelled items) rest (List.Forall₂ Q items) :=
  consumes_listed hitem hitems hseparator hrest (fun h => (consumes_eatWord htext).firstYes h.some)
    ((consumes_eatWord_ne hnone).lookNo (.pure rfl))

end Listed

theorem unexpected_eq_error (expected : Expectation) (cursor : Cursor) :
    ∃ error next, (unexpected expected : Reader α) cursor = .error error next := by
  unfold unexpected
  change ∃ error next, EStateM.bind peek? _ cursor = .error error next
  have hpeek : peek? cursor = .ok cursor.peek? cursor := rfl
  rw [EStateM.bind, hpeek]
  cases cursor.peek? with
  | none | some => exact ⟨_, _, rfl⟩

theorem punctuation_eq_error (text : String) {cursor : Cursor}
    (h : rest.head?.any (·.kind == kind) = false) (hcursor : cursor.Faces operators rest) :
    ∃ error next, punctuation kind text cursor = .error error next ∧
      next.tokens = cursor.tokens ∧ next.operators = cursor.operators := by
  obtain ⟨found, middle, heat, -, -, rfl⟩ := consumes_eatKind_ne h cursor hcursor
  obtain ⟨error, next, hfail⟩ := unexpected_eq_error (α := Unit) (.word text) middle
  have hread : punctuation kind text cursor = .error error next := by
    change EStateM.bind (eatKind kind) _ cursor = _
    rw [EStateM.bind, heat]
    exact hfail
  obtain ⟨-, hkeeps⟩ := moves_punctuation kind text cursor.operators cursor
    (⟨rfl, le_rfl, nofun, rfl⟩ : cursor.In ⟨cursor.tokens, cursor.index, false⟩ _)
  rw [hread] at hkeeps
  exact ⟨error, next, hread, hkeeps.1.tokens, hkeeps.2.2⟩

theorem consumes_attempt {reader : Reader α} {P : α → Prop}
    (h : Consumes operators reader words rest P) :
    Consumes operators (attempt reader) words rest
      fun result => ∃ value, result = .ok value ∧ P value := by
  intro cursor hcursor
  obtain ⟨value, next, hread, hnext, htokens, hvalue⟩ := h cursor hcursor
  refine ⟨.ok value, next, ?_, hnext, htokens, value, rfl, hvalue⟩
  rw [attempt, hread]

theorem consumes_separated (hitem : ∀ entry ∈ items, ∀ rest, Stop rest →
      Consumes operators item (spelled entry) rest (Q entry)) (hitems : items ≠ [])
    (hseparator : ∀ rest, Stop (.comma :: rest)) (hrest : Stop rest)
    (hnone : rest.head?.any (·.kind == .comma) = false) :
    Consumes operators (separated item comma)
      (listed .comma spelled items) rest (List.Forall₂ Q items) := by
  refine consumes_listed hitem hitems hseparator hrest (fun h => ?_) ?_
  · refine Consumes.look (.of_view (Q := fun _ => True) fun _ _ => trivial) fun index _ => ?_
    refine (consumes_attempt consumes_comma).first fun result hresult => ?_
    obtain ⟨-, rfl, -⟩ := hresult
    exact h.some
  · intro cursor hcursor
    obtain ⟨error, next, hread, htokens, hoperators⟩ := punctuation_eq_error "," hnone hcursor
    refine ⟨none, { next with index := cursor.index }, ?_, ?_, htokens, rfl⟩
    · change EStateM.bind (attempt (punctuation .comma ",")) _ cursor = _
      rw [EStateM.bind, attempt, hread]
      rfl
    · refine ⟨?_, hoperators.trans hcursor.operators, ?_⟩
      · rw [htokens]
        exact hcursor.words
      · rw [htokens]
        exact hcursor.inside

theorem consumes_fields {label : ι → String} (mark : String)
    (hmark : (symbol mark).name? = some mark)
    (hlabels : ∀ entry ∈ items, isLabel (label entry) = true)
    (hitem : ∀ entry ∈ items, ∀ rest, Stop rest →
      Consumes operators item (spelled entry) rest (Q entry)) (hitems : items ≠ [])
    (hseparator : ∀ rest, Stop (.comma :: rest)) (hrest : Stop rest)
    (hnone : rest.head?.any (·.kind == .comma) = false) :
    Consumes operators (separated (labelled mark item) comma) (listed .comma
        (fun entry => .label (label entry) :: .symbol mark :: spelled entry) items) rest
      (List.Forall₂ (fun entry field => field.1 = label entry ∧ Q entry field.2) items) :=
  consumes_separated (fun entry hentry rest hrest => consumes_labelled (hlabels entry hentry) hmark
    (hitem entry hentry rest hrest)) hitems hseparator hrest hnone

end Lists

end Reader

end Sml
