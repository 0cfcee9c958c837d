import Mathlib.Data.Option.Basic
import Sml.Session.Interpret

/-!
# Which errors can be shown

A message is written under the lines of a span if the span has them.  Errors
of elaboration and evaluation and warnings look whether it has; an error of
reading does not.
-/

namespace Sml

open List

theorem isSome_guard_bind {α : Type} {p : Prop} [Decidable p] {next : Unit → Option α} :
    (guard p >>= next).isSome = true ↔ p ∧ (next ()).isSome = true := by
  by_cases hp : p
  · simp [guard, hp]
  · simp [guard, hp, failure]

theorem isSome_mapM {α β : Type} {f : α → Option β} {items : List α} :
    (items.mapM f).isSome = true ↔ ∀ item ∈ items, (f item).isSome = true := by
  induction items with
  | nil => simp
  | cons item items ih =>
    rw [mapM_cons, forall_mem_cons, ← ih]
    cases f item with
    | none => simp
    | some => cases items.mapM f <;> simp

namespace Span

variable {span : Span}

/-- The source has the lines of the span, its ends are between characters of
them, and it is not inverted on one line.  A last line after others may be
shorter than the span. -/
structure Shows (span : Span) : Prop where
  lines : max span.start.line span.stop.line < (linesOf span.source.toList).length
  start : ∀ line ∈ (linesOf span.source.toList)[span.start.line]?,
    isBoundary line span.start.column = true
  single : span.start.line = span.stop.line → span.start.column ≤ span.stop.column ∧
    ∀ line ∈ (linesOf span.source.toList)[span.start.line]?, isBoundary line span.stop.column = true
  stop : 0 < span.stop.column

theorem shows_of_hasContext (h : span.hasContext = true) : span.Shows := by
  simp only [hasContext, Bool.and_eq_true, decide_eq_true_eq] at h
  obtain ⟨⟨⟨⟨-, hordered⟩, hstop⟩, hfirst⟩, hlast⟩ := h
  simp only [Point.le, Bool.or_eq_true, Bool.and_eq_true, decide_eq_true_eq, beq_iff_eq] at hordered
  split at hfirst
  · rename_i first hstart
    split at hlast
    · rename_i last hend
      have hless := (List.getElem?_eq_some_iff.mp hend).1
      refine ⟨by omega, ?_, fun hsame => ⟨by omega, ?_⟩, hstop⟩
      · simpa [hstart] using hfirst
      · simpa [hsame, hend] using hlast
    · cases hlast
  · cases hfirst

theorem isSome_render? (message : String) : (span.render? message).isSome = true ↔ span.Shows := by
  unfold render?
  cases hline : (linesOf span.source.toList)[span.start.line]? with
  | none =>
    have hless := getElem?_eq_none_iff.mp hline
    refine iff_of_false (by simp [hline]) fun h => ?_
    have hlines := h.lines
    omega
  | some line =>
    have hless := (List.getElem?_eq_some_iff.mp hline).1
    simp only [hline, Option.bind_eq_bind, Option.bind_some]
    simp only [← Option.bind_eq_bind, isSome_guard_bind, Option.pure_def]
    simp only [Option.bind_eq_bind, Option.isSome_bind, Option.isSome_some, Option.any_true,
      isSome_mapM, forall_mem_map, mem_range, isSome_getElem?]
    constructor
    · rintro ⟨hstart, hsingle, hstop, hbetween⟩
      refine ⟨?_, by simpa [hline] using hstart, fun hsame => ?_, hstop⟩
      · have hlast := hbetween (span.stop.line - span.start.line - 1)
        omega
      · simpa [hline] using hsingle.resolve_left (not_not.mpr hsame)
    · rintro ⟨hlines, hstart, hsingle, hstop⟩
      refine ⟨hstart line hline, ?_, hstop, fun number hnumber => by omega⟩
      by_cases hsame : span.start.line = span.stop.line
      · exact .inr ⟨(hsingle hsame).1, (hsingle hsame).2 line hline⟩
      · exact .inl hsame

/-- The message stands under lines that can be written, or alone. -/
theorem annotate_cases (span : Span) (message : String) :
    span.render? message = some (span.annotate message) ∨
      span.hasContext = false ∧ span.annotate message = message := by
  unfold annotate
  split
  · rename_i hcontext
    obtain ⟨text, htext⟩ := Option.isSome_iff_exists.mp
      ((isSome_render? message).mpr (shows_of_hasContext hcontext))
    exact .inl (by rw [htext, Option.getD_some])
  · exact .inr ⟨eq_false_of_ne_true ‹_›, rfl⟩

end Span

theorem ReadError.message?_eq_none_iff {error : ReadError} : error.message? = none ↔
    ∃ span, error.span = some span ∧ span.source ≠ "" ∧ ¬ span.Shows := by
  unfold message?
  cases error.span with
  | none => simp
  | some span =>
    by_cases hsource : span.source = ""
    · simp [hsource]
    · simp [hsource, ← Span.isSome_render? error.summary]

/-- Only an error of reading cannot be shown, one whose span its source does
not have. -/
theorem InputError.not_shown_iff (error : InputError) :
    (error.message? = none ↔ ∃ read span, error = .read read ∧ read.span = some span ∧
      span.source ≠ "" ∧ ¬ span.Shows) ∧
    ∀ (span : Span) (message : String), span.render? message = some (span.annotate message) ∨
      span.hasContext = false ∧ span.annotate message = message := by
  refine ⟨?_, Span.annotate_cases⟩
  cases error with
  | read read => simp [message?, ReadError.message?_eq_none_iff]
  | comment | lexical | elaboration | evaluation | outOfSteps => simp [message?]

/-- The clause has no head, and its span ends before it starts. -/
theorem interpret_not_shown : (match (interpret 0 {} "fun = 3" .basic).1 with
    | .error error => error.message?
    | .ok _ => some "") = none := by
  decide +kernel

end Sml
