import DocMarkdown.Proofs.Markup.Seam
import DocMarkdown.Proofs.Text.LineEnd
import DocMarkdown.Proofs.Tree.Provenance
import Mathlib.Data.List.Nodup

/-!
# Proofs/Tree/Tidy — every tree that is read is tidy

What a tidy element must not hold, no token brings: a tag has no key twice and declarations of
namespaces are left out of it (`nodup_plainAttributes`), running text becomes a text where it is not
all blank, and a CDATA section ends at the first mark that can end it.  Between two texts there is
always a mark of another kind (`isChain_marksAfter`).  So the marks of tokens are tidy, and with
them every element that a tree contains (`tidy_of_parse`).
-/

namespace DocMarkdown

open Markup (Attribute Reading Token declaresNamespace marksAfter plainAttributes tagAttributes)

/-! ## The attributes of a tag -/

namespace Markup

/-- A key that the tag has had is no key of the next attribute. -/
theorem Attribute.key_notMem_of_read {size : Nat} {earlier : List Attribute} {c : Char}
    {cs rest : List Char} {a : Attribute} (h : read size earlier c cs = .ok (a, rest)) :
    a.key ∉ earlier.map Attribute.key := by
  unfold read at h
  simp only [bind, Except.bind] at h
  split at h
  · contradiction
  · split at h
    · contradiction
    · next hnone =>
      split at h
      · contradiction
      · obtain ⟨rfl, -⟩ := Prod.mk.inj (Except.ok.inj h)
        rw [List.mem_map]
        rintro ⟨b, hb, hkey⟩
        exact List.find?_eq_none.mp hnone b hb (decide_eq_true hkey)

theorem Attribute.nodup_keys_of_readAll {size : Nat} {earlier as : List Attribute}
    {cs : List Char} (h : readAll size earlier cs = .ok as)
    (hearlier : (earlier.map Attribute.key).Nodup) : (as.map Attribute.key).Nodup := by
  fun_induction readAll size earlier cs with
  | case1 earlier cs hend =>
    obtain rfl := Except.ok.inj h
    rw [List.map_reverse]
    exact List.nodup_reverse.mpr hearlier
  | case2 => contradiction
  | case3 earlier cs c rest hcs a behind hread ih =>
    refine ih h ?_
    rw [List.map_cons]
    exact List.nodup_cons.mpr ⟨Attribute.key_notMem_of_read hread, hearlier⟩

/-- **No key comes twice in a tag.** -/
theorem nodup_keys_of_tagAttributes {content : List Char} {as : List Attribute}
    (h : tagAttributes content = .ok as) : (as.map Attribute.key).Nodup :=
  Attribute.nodup_keys_of_readAll h List.nodup_nil

theorem nodup_plainAttributes (content : List Char) :
    ((plainAttributes content).map Prod.fst).Nodup := by
  rw [plainAttributes]
  rcases has : tagAttributes content with error | as
  · exact List.nodup_nil
  · have hkeys : (as.filter (!·.isNamespace)).map (Prod.fst ∘ Attribute.pair)
        = ((as.filter (!·.isNamespace)).map Attribute.key).map String.ofList := by
      rw [List.map_map]
      rfl
    rw [List.map_map, hkeys]
    refine List.Nodup.map (fun _ _ => String.ofList_inj.mp) ?_
    exact (nodup_keys_of_tagAttributes has).sublist (List.filter_sublist.map _)

/-- No plain attribute declares a namespace. -/
theorem declaresNamespace_of_mem_plainAttributes {content : List Char} {a : String × String}
    (h : a ∈ plainAttributes content) : declaresNamespace a.1 = false := by
  rw [plainAttributes] at h
  rcases has : tagAttributes content with error | as
  · simp [has] at h
  · rw [has] at h
    obtain ⟨b, hb, rfl⟩ := List.mem_map.mp h
    rw [Attribute.declaresNamespace_pair, ← Bool.not_eq_true']
    exact (List.mem_filter.mp hb).2

end Markup

/-! ## Tidy marks

What an element must be to be tidy is said of its attributes and its children.  Said of marks, it is
a condition on each mark and on each two that stand side by side, and those can be met token by
token. -/

/-- **A mark of a tidy element.** -/
def Mark.Tidy : Mark → Prop
  | opening _ attributes => (∀ a ∈ attributes, declaresNamespace a.1 = false) ∧
      (attributes.map Prod.fst).Nodup
  | closing _ => True
  | text content => content.toList.all Text.isBlank = false
  | cdata content => '\r' ∉ content.toList ∧ ¬ [']', ']', '>'] <:+: content.toList

/-- The mark is text. -/
def Mark.isText : Mark → Bool
  | text _ => true
  | _ => false

/-- **Two marks that may stand side by side**: they are not both text. -/
def Mark.Apart (m n : Mark) : Prop :=
  ¬(m.isText = true ∧ n.isText = true)

/-- **An element is tidy when its marks are.** -/
theorem Element.tidy_of_marks {e : Element} (htidy : ∀ m ∈ e.marks, m.Tidy)
    (hapart : e.marks.IsChain Mark.Apart) : e.Tidy := by
  have hchild : ∀ n ∈ e.children, ∀ m ∈ n.marks, m.Tidy := fun n hn m hm =>
    htidy m (((Node.marks_isInfix hn).trans e.marksOfNodes_isInfix).subset hm)
  have hopening : Mark.Tidy (.opening e.name e.attributes) := by
    refine htidy _ ?_
    obtain ⟨name, attributes, children⟩ := e
    exact List.mem_cons_self
  refine ⟨hopening.1, hopening.2, fun t ht => ?_, ?_, fun t ht => ?_⟩
  · exact hchild _ ht _ (List.mem_singleton_self _)
  · refine List.isChain_iff_forall_rel_of_append_cons_cons.mpr fun m n front behind heq htexts => ?_
    -- two texts side by side would be two marks side by side
    have hmarks : (marksOfNodes e.children).IsChain Mark.Apart :=
      hapart.infix e.marksOfNodes_isInfix
    rw [heq, marksOfNodes_append] at hmarks
    obtain ⟨⟨t, rfl⟩, ⟨t', rfl⟩⟩ : (∃ t, m = .text t) ∧ ∃ t', n = .text t' := by
      cases m <;> cases n <;> simp_all [Node.isText]
    exact List.isChain_iff_forall_rel_of_append_cons_cons.mp hmarks rfl ⟨rfl, rfl⟩
  · exact hchild _ ht _ (List.mem_singleton_self _)

/-! ## The marks of tokens -/

namespace Markup

/-- A token that is whole has tidy marks. -/
theorem Token.tidy_of_mem_marks {t : Token} (ht : t.IsWhole) {m : Mark} (hm : m ∈ t.marks) :
    m.Tidy := by
  cases t with
  | startTag content =>
    obtain rfl := List.mem_singleton.mp hm
    exact ⟨fun a => declaresNamespace_of_mem_plainAttributes, nodup_plainAttributes content⟩
  | emptyTag content =>
    rcases List.mem_pair.mp hm with rfl | rfl
    · exact ⟨fun a => declaresNamespace_of_mem_plainAttributes, nodup_plainAttributes content⟩
    · trivial
  | endTag content =>
    obtain rfl := List.mem_singleton.mp hm
    trivial
  | cdata content =>
    obtain rfl := List.mem_singleton.mp hm
    rw [Mark.Tidy, String.toList_ofList]
    exact ⟨Text.carriageReturn_not_mem_unifyLineEnds content,
      mt (Text.infix_of_infix_unifyLineEnds (by decide)) ht⟩
  | _ => contradiction

/-- Running text becomes a tidy mark, if it becomes any. -/
theorem tidy_of_mem_proseNodes {pending : List Char} {m : Mark}
    (hm : m ∈ marksOfNodes (proseNodes pending)) : m.Tidy := by
  obtain rfl := eq_of_mem_proseNodes hm
  rw [Mark.Tidy, String.toList_ofList]
  unfold proseNodes at hm
  split at hm
  · contradiction
  · next hblank => exact Bool.eq_false_iff.mpr hblank

/-- **The marks of whole tokens are tidy.** -/
theorem tidy_of_mem_marksAfter {pending : List Char} {ts : List Token}
    (hts : ∀ t ∈ ts, t.IsWhole) {m : Mark} (hm : m ∈ marksAfter pending ts) : m.Tidy := by
  induction ts generalizing pending with
  | nil => exact tidy_of_mem_proseNodes hm
  | cons t ts ih =>
    obtain ⟨ht, hts⟩ := List.forall_mem_cons.mp hts
    rw [marksAfter] at hm
    split at hm
    · exact ih hts hm
    · split at hm
      · exact ih hts hm
      · rcases List.mem_append.mp hm with hm | hm
        · exact tidy_of_mem_proseNodes hm
        · rcases List.mem_append.mp hm with hm | hm
          · exact Token.tidy_of_mem_marks ht hm
          · exact ih hts hm

/-- A token that ends the running text before it has a mark, and none that is text. -/
theorem Token.marks_of_not_isLoose {t : Token} (hprose : t.prose? = none)
    (hsilent : t.isSilent = false) : t.marks ≠ [] ∧ ∀ m ∈ t.marks, m.isText = false := by
  cases t with
  | startTag content | emptyTag content | endTag content | cdata content =>
    simp [marks, Mark.isText]
  | _ => contradiction

theorem isChain_of_not_isText {ms : List Mark} (h : ∀ m ∈ ms, m.isText = false) :
    ms.IsChain Mark.Apart := by
  refine List.Pairwise.isChain (List.pairwise_of_forall_mem_list fun m hm n _ htexts => ?_)
  exact absurd htexts.1 (by rw [h m hm]; decide)

/-- **No two texts stand side by side among the marks of tokens.** -/
theorem isChain_marksAfter (pending : List Char) (ts : List Token) :
    (marksAfter pending ts).IsChain Mark.Apart := by
  have hprose : ∀ cs, (marksOfNodes (proseNodes cs)).IsChain Mark.Apart := by
    intro cs
    unfold proseNodes
    split
    · exact .nil
    · exact .singleton _
  induction ts generalizing pending with
  | nil => exact hprose pending
  | cons t ts ih =>
    rw [marksAfter]
    split
    · exact ih _
    · next hnone =>
      split
      · exact ih pending
      · next hsilent =>
        obtain ⟨hne, htext⟩ := t.marks_of_not_isLoose hnone (Bool.eq_false_iff.mpr hsilent)
        -- a mark of the token stands between the text before it and the text behind it
        refine List.isChain_append.mpr ⟨hprose pending, List.isChain_append.mpr
          ⟨isChain_of_not_isText htext, ih [], fun m hm n _ htexts => ?_⟩,
          fun m _ n hn htexts => ?_⟩
        · rw [htext m (List.mem_of_getLast? hm)] at htexts
          exact absurd htexts.1 (by decide)
        · rw [List.head?_append_of_ne_nil _ hne] at hn
          rw [htext n (List.mem_of_mem_head? hn)] at htexts
          exact absurd htexts.2 (by decide)

end Markup

/-! ## Trees -/

/-- Where no key comes twice, the attribute with a key is the one that is found. -/
theorem Element.Tidy.attr?_eq_some_iff {e : Element} (h : e.Tidy) {key value : String} :
    e.attr? key = some value ↔ (key, value) ∈ e.attributes := by
  rw [attr?, List.lookup_eq_some_iff]
  constructor
  · rintro ⟨front, behind, heq, -⟩
    rw [heq]
    exact List.mem_append_right front List.mem_cons_self
  · intro hmem
    obtain ⟨front, behind, heq⟩ := List.append_of_mem hmem
    refine ⟨front, behind, heq, fun a ha => ?_⟩
    have hnodup := h.nodup
    rw [heq, List.map_append, List.map_cons] at hnodup
    have hne := (List.nodup_append.mp hnodup).2.2 a.1 (List.mem_map_of_mem ha) key
      List.mem_cons_self
    exact bne_iff_ne.mpr hne.symm

/-- **Every element of a tree that is read is tidy**, so each of its attributes is found by its
key. -/
theorem tidy_of_parse {text : String} {root e : Element} (h : Element.parse text = .ok root)
    (he : root.Contains e) :
    e.Tidy ∧ ∀ key value, e.attr? key = some value ↔ (key, value) ∈ e.attributes := by
  have hwhole : ∀ t ∈ Markup.firstElement (Reading.of (dropByteOrderMark text.toList)).tokens,
      t.IsWhole := fun t ht =>
    Reading.isWhole_of_mem_tokens (Markup.firstElement_subset _ ht)
  have htold := Element.marks_of_parse h
  rw [Markup.marksOfTokens_eq] at htold
  have hmarks : ∀ m ∈ root.marks, m.Tidy := by
    rw [htold]
    exact fun m hm => Markup.tidy_of_mem_marksAfter hwhole hm
  have hchain : root.marks.IsChain Mark.Apart := by
    rw [htold]
    exact Markup.isChain_marksAfter [] _
  have hapart : e.marks.IsChain Mark.Apart := List.IsChain.infix hchain he.marks_isInfix
  have htidy : e.Tidy :=
    Element.tidy_of_marks (fun m hm => hmarks m (he.marks_isInfix.subset hm)) hapart
  exact ⟨htidy, fun key value => htidy.attr?_eq_some_iff⟩

/-- A text with all that a tidy tree must not hold, in an element below the root: a namespace, text
in pieces, blank text, and a CR and brackets in a CDATA section. -/
def untidyText : String :=
  "<a><p:b c='&amp;' xmlns='d'>x<!--n-->&lt;<e/> \r\n<![CDATA[\r]]]]></p:b></a>"

/-- The element below the root. -/
def tidiedElement : Element :=
  ⟨"b", [("c", "&")], [.text "x<", .element ⟨"e", [], []⟩, .cdata "\n]]"]⟩

theorem tidy_of_parse_untidyText :
    let root : Element := ⟨"a", [], [.element tidiedElement]⟩
    Element.parse untidyText = .ok root ∧ root.Contains tidiedElement ∧ tidiedElement.Tidy ∧
      ∀ key value, tidiedElement.attr? key = some value ↔
        (key, value) ∈ tidiedElement.attributes := by
  intro root
  have h : Element.parse untidyText = .ok root := by decide +kernel
  have hinner : root.Contains tidiedElement := .child .self List.mem_cons_self
  exact ⟨h, hinner, tidy_of_parse h hinner⟩

end DocMarkdown
