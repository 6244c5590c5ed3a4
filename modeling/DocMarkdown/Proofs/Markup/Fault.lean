import DocMarkdown.Proofs.Markup.Seam

/-!
# Proofs/Markup/Fault — where a fault is told

A construct that is not closed is told where it begins, so nothing but tokens stands before the
place.  Only a document type without a name is told within its construct, before the `>` of it.
-/

namespace DocMarkdown.Markup

open Text (width)

/-! ## In the first token -/

/-- **A fault is told in a text** at its front, or within the document type that it begins with. -/
def Fault.ToldIn (f : Fault) (cs : List Char) : Prop :=
  ∃ inner behind, cs = inner ++ behind ∧ f.offset = width inner ∧
    (f.error ≠ .namelessDoctype → inner = [])

theorem Fault.toldIn_front (error : LexicalError) (cs : List Char) :
    Fault.ToldIn ⟨error, 0⟩ cs :=
  ⟨[], cs, rfl, rfl, fun _ => rfl⟩

namespace Token

variable {cs : List Char} {f : Fault}

theorem toldIn_of_readTo {mark : List Char} {make : List Char → Token} {error : LexicalError}
    (h : readTo mark make error cs = .error f) (text : List Char) : f.ToldIn text := by
  rw [readTo] at h
  split at h
  · contradiction
  · cases h
    exact Fault.toldIn_front _ text

theorem toldIn_of_readTag {make : List Char → Token} (h : readTag make cs = .error f)
    (text : List Char) : f.ToldIn text := by
  rw [readTag] at h
  split at h
  · contradiction
  · cases h
    exact Fault.toldIn_front _ text
  · cases h
    exact Fault.toldIn_front _ text

theorem toldIn_of_readDoctype (h : readDoctype cs = .error f) : f.ToldIn ('<' :: '!' :: cs) := by
  rw [readDoctype] at h
  split at h
  · cases h
    exact Fault.toldIn_front _ _
  · next body rest hclosed =>
    split at h
    · cases h
      exact Fault.toldIn_front _ _
    · split at h
      · cases h
        obtain ⟨-, c, -, rfl⟩ := eq_of_extent_closed hclosed
        exact ⟨'<' :: '!' :: body, c :: rest, rfl, rfl, fun hother => absurd rfl hother⟩
      · contradiction

theorem toldIn_of_readBang (h : readBang cs = .error f) : f.ToldIn ('<' :: '!' :: cs) := by
  unfold readBang at h
  split at h
  · exact toldIn_of_readTo h _
  · exact toldIn_of_readTo h _
  · cases h
    exact Fault.toldIn_front _ _
  · cases h
    exact Fault.toldIn_front _ _
  · exact toldIn_of_readDoctype h
  · exact toldIn_of_readDoctype h
  · cases h
    exact Fault.toldIn_front _ _

theorem toldIn_of_readMarkup (h : readMarkup cs = .error f) : f.ToldIn ('<' :: cs) := by
  unfold readMarkup at h
  split at h
  · exact toldIn_of_readBang h
  · cases h
    exact Fault.toldIn_front _ _
  · exact toldIn_of_readTo h _
  · exact toldIn_of_readTag h _
  · exact toldIn_of_readTag h _

/-- **A first token that cannot be read** is told at its front, or within it if it is a document
type. -/
theorem toldIn_of_read {c : Char} (h : read c cs = .error f) : f.ToldIn (c :: cs) := by
  rw [read] at h
  split at h
  · next hlt =>
    rw [hlt]
    exact toldIn_of_readMarkup h
  · split at h
    · rw [readReference] at h
      split at h
      · contradiction
      · cases h
        exact Fault.toldIn_front _ _
    · contradiction

end Token

/-! ## Behind all tokens -/

/-- **A fault is told behind all tokens of a text**, right there unless it is in a document type. -/
theorem Reading.exists_place_of_fault? {cs : List Char} {f : Fault} (h : (of cs).fault? = some f) :
    ∃ inner behind, cs = ((of cs).tokens.flatMap Token.source ++ inner) ++ behind ∧
      f.offset = width ((of cs).tokens.flatMap Token.source ++ inner) ∧
      (f.error ≠ .namelessDoctype → inner = []) := by
  obtain ⟨rest, hcs, hof, htokens⟩ := exists_rest_of_tokens (List.append_nil (of cs).tokens).symm
  rw [hof, fault?_prepend] at h
  obtain ⟨g, hg, rfl⟩ := Option.map_eq_some_iff.mp h
  rcases rest with _ | ⟨c, rest⟩
  · rw [of_nil] at hg
    contradiction
  · rcases hread : Token.read c rest with f | ⟨t, more⟩
    · rw [of_cons_of_fault hread] at hg
      obtain rfl := Option.some.inj hg
      obtain ⟨inner, behind, hrest, hoffset, hfront⟩ := Token.toldIn_of_read hread
      refine ⟨inner, behind, ?_, ?_, hfront⟩
      · rw [List.append_assoc, ← hrest]
        exact hcs
      · rw [Text.width_append, ← hoffset]
    · rw [of_cons_of_read hread] at htokens
      contradiction

end DocMarkdown.Markup
