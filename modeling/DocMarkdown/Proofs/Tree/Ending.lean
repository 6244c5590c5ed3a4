import DocMarkdown.Proofs.Tree.Growth

/-!
# Proofs/Tree/Ending — how the reading of a text ends

A builder takes tokens as long as they have a place in it, and **stops** at the first that has none.
So a text ends in one of three ways: at such a token (`Builder.Stops`), at the fault behind all
tokens, or at its own end, where the builder is finished (`Element.parse_of_feed?`).  In the first
two it is malformed, and the place that is told is a sum of what stands before it
(`Element.parse_eq_malformed_iff`).
-/

namespace DocMarkdown

open Markup (MarkupError Reading Token)
open Text (width)

namespace Builder

variable {b : Builder}

/-- **A builder stops at a token**, behind others that it has taken. -/
def Stops (b : Builder) (before : List Token) (t : Token) (error : MarkupError) : Prop :=
  ∃ mid, b.feed? before = some mid ∧ mid.step t = .error error

theorem stops_nil_iff {t : Token} {error : MarkupError} :
    b.Stops [] t error ↔ b.step t = .error error := by
  simp [Stops, feed?]

theorem stops_cons_iff {t s : Token} {ts : List Token} {error : MarkupError} :
    b.Stops (t :: ts) s error ↔ ∃ next, b.step t = .ok next ∧ next.Stops ts s error := by
  rcases hstep : b.step t with e | next
  · simp [Stops, feed?, hstep, Except.toOption]
  · simp [Stops, feed?, hstep, Except.toOption]

theorem run_of_stops {start : Nat} {before after : List Token} {t : Token} {error : MarkupError}
    (h : b.Stops before t error) : b.run start (before ++ t :: after) = .error (.malformed error
      (error.position (start + width (before.flatMap Token.source)) t)) := by
  induction before generalizing b start with
  | nil =>
    rw [List.nil_append, run, stops_nil_iff.mp h]
    rfl
  | cons s before ih =>
    obtain ⟨next, hstep, hnext⟩ := stops_cons_iff.mp h
    have hplace : start + width ((s :: before).flatMap Token.source)
        = start + s.size + width (before.flatMap Token.source) := by
      rw [List.flatMap_cons, Text.width_append, ← Nat.add_assoc]
      rfl
    rw [List.cons_append, run, hstep, hplace]
    exact ih hnext

theorem exists_stops_of_run {start : Nat} {ts : List Token} {err : LoadError}
    (h : b.run start ts = .error err) :
    ∃ before t after error, ts = before ++ t :: after ∧ b.Stops before t error := by
  induction ts generalizing b start with
  | nil => contradiction
  | cons t ts ih =>
    rw [run] at h
    rcases hstep : b.step t with e | next
    · exact ⟨[], t, ts, e, rfl, stops_nil_iff.mpr hstep⟩
    · rw [hstep] at h
      obtain ⟨before, s, after, error, rfl, hstops⟩ := ih h
      exact ⟨t :: before, s, after, error, rfl, stops_cons_iff.mpr ⟨next, hstep, hstops⟩⟩

/-- **A run fails where the builder stops**, and tells the place by what stands before it. -/
theorem run_eq_error_iff {start : Nat} {ts : List Token} {err : LoadError} :
    b.run start ts = .error err ↔ ∃ before t after error, ts = before ++ t :: after ∧
      b.Stops before t error ∧ err = .malformed error
        (error.position (start + width (before.flatMap Token.source)) t) := by
  constructor
  · intro h
    obtain ⟨before, t, after, error, rfl, hstops⟩ := exists_stops_of_run h
    exact ⟨before, t, after, error, rfl, hstops,
      Except.error.inj (h.symm.trans (run_of_stops hstops))⟩
  · rintro ⟨before, t, after, error, rfl, hstops, rfl⟩
    exact run_of_stops hstops

/-- A finished builder tells of no malformed text. -/
theorem finish_ne_malformed (error : MarkupError) (position : Nat) :
    b.finish ≠ .error (.malformed error position) := by
  rw [finish]
  rcases b.frames with _ | ⟨f, fs⟩
  · rcases b.root? with _ | root <;> simp
  · simp

end Builder

namespace Element

variable {text : String} {reading : Reading}

/-- **A text that is read to its end** has what the builder has finished. -/
theorem parse_of_feed? {b : Builder}
    (hreading : Reading.of (dropByteOrderMark text.toList) = reading)
    (hfault : reading.fault? = none) (hfeed : Builder.empty.feed? reading.tokens = some b) :
    parse text = b.finish := by
  rw [parse, ofReading, hreading, (Builder.run_eq_ok_iff 0 _).mpr hfeed, hfault]
  rfl

/-- **A text that is not malformed is read to its end.** -/
theorem exists_finish_of_parse
    (hreading : Reading.of (dropByteOrderMark text.toList) = reading)
    (h : ∀ error position, parse text ≠ .error (.malformed error position)) :
    reading.fault? = none ∧
      ∃ b, Builder.empty.feed? reading.tokens = some b ∧ parse text = b.finish := by
  rw [parse, ofReading, hreading] at h
  rcases hrun : Builder.empty.run 0 reading.tokens with err | b
  · obtain ⟨before, t, after, error, -, -, rfl⟩ := Builder.run_eq_error_iff.mp hrun
    rw [hrun] at h
    exact absurd rfl (h error _)
  · rcases hfault : reading.fault? with _ | f
    · have hfeed := (Builder.run_eq_ok_iff 0 _).mp hrun
      exact ⟨rfl, b, hfeed, parse_of_feed? hreading hfault hfeed⟩
    · rw [hrun, hfault] at h
      exact absurd rfl (h (.lexical f.error) f.offset)

/-- **A text is malformed where its reading stops**: at a token, or at a fault behind all of
them. -/
theorem parse_eq_malformed_iff {error : MarkupError} {position : Nat}
    (hreading : Reading.of (dropByteOrderMark text.toList) = reading) :
    parse text = .error (.malformed error position) ↔
      (∃ before t after, reading.tokens = before ++ t :: after ∧
        Builder.empty.Stops before t error ∧
        position = error.position (width (before.flatMap Token.source)) t) ∨
      (∃ b, Builder.empty.feed? reading.tokens = some b) ∧
        ∃ f, reading.fault? = some f ∧ error = .lexical f.error ∧ position = f.offset := by
  have hstopped : Builder.empty.run 0 reading.tokens = .error (.malformed error position) ↔
      ∃ before t after, reading.tokens = before ++ t :: after ∧
        Builder.empty.Stops before t error ∧
        position = error.position (width (before.flatMap Token.source)) t := by
    rw [Builder.run_eq_error_iff]
    simp only [Nat.zero_add, LoadError.malformed.injEq]
    constructor
    · rintro ⟨before, t, after, e, hts, hstops, rfl, rfl⟩
      exact ⟨before, t, after, hts, hstops, rfl⟩
    · rintro ⟨before, t, after, hts, hstops, rfl⟩
      exact ⟨before, t, after, error, hts, hstops, rfl, rfl⟩
  simp only [← hstopped, ← Builder.run_eq_ok_iff 0]
  rw [parse, ofReading, hreading]
  rcases Builder.empty.run 0 reading.tokens with err | b
  · simp [bind, Except.bind]
  · rcases reading.fault? with _ | f
    · simp [bind, Except.bind, Builder.finish_ne_malformed]
    · simp [bind, Except.bind, throw, throwThe, MonadExceptOf.throw, eq_comm]

end Element

end DocMarkdown
