import DocMarkdown.Markup.Basic

/-!
# Markup/Extent — how far a construct reaches

A construct of markup runs to the first character that closes it, and whether a character closes it
depends on what came before: a `>` between quotes is text.  A **closing rule** is that dependence, a
step from state to state with no next state where the construct closes; `extent` runs it.  A closed
extent stays as it is whatever is added behind it (`extent_append_of_closed`), and an open one is
continued from the state it stopped in (`extent_append_of_unclosed`).
-/

namespace DocMarkdown.Markup

/-- **The reach of a construct**: its body and what follows the character that closes it, or the
state in which the text ran out. -/
inductive Extent (σ : Type) where
  | closed (body rest : List Char)
  | unclosed (last : σ)
deriving DecidableEq, Repr

/-- One more character at the front of the body. -/
def Extent.cons {σ : Type} (c : Char) : Extent σ → Extent σ
  | closed body rest => closed (c :: body) rest
  | unclosed last => unclosed last

/-- The extent of a construct under a closing rule, from a state of it. -/
def extent {σ : Type} (rule : σ → Char → Option σ) : σ → List Char → Extent σ
  | s, [] => .unclosed s
  | s, c :: cs =>
    match rule s c with
    | none => .closed [] cs
    | some next => (extent rule next cs).cons c

variable {σ : Type} {rule : σ → Char → Option σ}

/-! ## What it keeps -/

/-- **A closed extent loses only the character that closes it.** -/
theorem eq_of_extent_closed {s : σ} {cs body rest : List Char}
    (h : extent rule s cs = .closed body rest) :
    ∃ last c, rule last c = none ∧ cs = body ++ c :: rest := by
  induction cs generalizing s body with
  | nil => simp [extent] at h
  | cons c cs ih =>
    simp only [extent] at h
    split at h
    · next hc => cases h; exact ⟨s, c, hc, rfl⟩
    · next next _ =>
      cases he : extent rule next cs with
      | unclosed last => simp [he, Extent.cons] at h
      | closed b r =>
        simp only [he, Extent.cons, Extent.closed.injEq] at h
        obtain ⟨rfl, rfl⟩ := h
        obtain ⟨last, d, hd, rfl⟩ := ih he
        exact ⟨last, d, hd, rfl⟩

/-! ## More text behind it

A longer text can only go on with an extent that is open, and how it goes on depends on the state
alone. -/

/-- **A closed extent does not see what is added behind it.** -/
theorem extent_append_of_closed {s : σ} {cs body rest : List Char} (more : List Char)
    (h : extent rule s cs = .closed body rest) :
    extent rule s (cs ++ more) = .closed body (rest ++ more) := by
  induction cs generalizing s body with
  | nil => simp [extent] at h
  | cons c cs ih =>
    simp only [extent, List.cons_append] at h ⊢
    split at h
    · cases h; rfl
    · next next _ =>
      cases he : extent rule next cs with
      | unclosed last => simp [he, Extent.cons] at h
      | closed b r =>
        simp only [he, Extent.cons, Extent.closed.injEq] at h
        obtain ⟨rfl, rfl⟩ := h
        simp [ih he, Extent.cons]

/-- **An open extent goes on from where it stopped.** -/
theorem extent_append_of_unclosed {s last : σ} {cs : List Char} (more : List Char)
    (h : extent rule s cs = .unclosed last) :
    extent rule s (cs ++ more) = (match extent rule last more with
      | .closed body rest => .closed (cs ++ body) rest
      | .unclosed final => .unclosed final) := by
  induction cs generalizing s with
  | nil =>
    simp only [extent, Extent.unclosed.injEq] at h
    subst h
    simp only [List.nil_append]
    split <;> simp_all
  | cons c cs ih =>
    simp only [extent, List.cons_append] at h ⊢
    split at h
    · contradiction
    · next next _ =>
      cases he : extent rule next cs with
      | closed b r => simp [he, Extent.cons] at h
      | unclosed l =>
        simp only [he, Extent.cons, Extent.unclosed.injEq] at h
        subst h
        rw [ih he]
        cases extent rule l more <;> rfl

end DocMarkdown.Markup
