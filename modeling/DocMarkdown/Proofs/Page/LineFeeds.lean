import DocMarkdown.Proofs.Page.Places
import DocMarkdown.Proofs.Text.Indent
import Mathlib.Algebra.GroupWithZero.Nat

/-!
# Proofs/Page/LineFeeds — the line ends on a page

A page is broken into lines by its blocks only: running text comes out of its collapse without a
line end (`Text.newline_notMem_collapse`), so where what is printed beside it has none either, each
rendered element writes a number of line ends of its own (`ownLines`), and the page has their sum
(`lineFeeds_of_rendered`).  In a code sample the lines of the code are added, less the last one.
-/

namespace DocMarkdown

/-- **The line ends in a text.** -/
def lineFeeds (s : String) : Nat :=
  s.toList.count '\n'

@[simp] theorem lineFeeds_append (s t : String) :
    lineFeeds (s ++ t) = lineFeeds s + lineFeeds t := by
  rw [lineFeeds, String.toList_append, List.count_append]
  rfl

@[simp] theorem lineFeeds_empty : lineFeeds "" = 0 := rfl

theorem lineFeeds_eq_zero {s : String} : lineFeeds s = 0 ↔ '\n' ∉ s.toList :=
  List.count_eq_zero

/-! ## Own line ends

A kind writes a fixed number of line ends around what it holds.  A code sample alone has lines of
its own, those of its code that are not empty, with a line end between any two. -/

/-- The line ends that a block of this kind writes around what it holds. -/
def Kind.lines : Kind → Nat
  | page => 14
  | field | method | event | remarks | sample => 4
  | summary | exception | returns => 2
  | link | parameter | other => 0

theorem Kind.lineFeeds_frame {k : Kind} {value : String} (hflow : k.isFlow = true)
    (h : lineFeeds value = 0) :
    lineFeeds (k.before value) + lineFeeds (k.behind value) = k.lines := by
  cases k with
  | page | sample | other => contradiction
  | _ =>
    simp only [before, behind, lineFeeds_append, h]
    rfl

theorem lineFeeds_pageText {title : String} (fields methods events : String)
    (h : lineFeeds title = 0) :
    lineFeeds (pageText title fields methods events)
      = Kind.page.lines + lineFeeds fields + lineFeeds methods + lineFeeds events := by
  have hfields : lineFeeds " ##\n\n## Fields\n\n" = 4 := rfl
  have hmethods : lineFeeds "\n\n## Methods\n\n" = 4 := rfl
  have hevents : lineFeeds "\n\n## Events\n\n" = 4 := rfl
  have hend : lineFeeds "\n\n" = 2 := rfl
  have hbegin : lineFeeds "## " = 0 := rfl
  simp only [pageText, lineFeeds_append, hfields, hmethods, hevents, hend, hbegin, h, Kind.lines]
  omega

namespace Element

/-- **The line ends that an element writes itself**: those of its block, and between the lines of
its code, where it is a code sample. -/
def ownLines (e : Element) : Nat :=
  match Kind.of e with
  | .ok .sample => 4 + (((e.value.toList.splitOn '\n').filter (!·.isEmpty)).length - 1)
  | .ok k => k.lines
  | .error _ => 0

/-- **What is printed of an element, beside what it holds**: the attribute that goes with its kind,
or the name of the assembly. -/
def printed (e : Element) : List String :=
  match Kind.of e with
  | .error _ => []
  | .ok .page => (((e.child? "assembly").bind (·.child? "name")).map value).toList
  | .ok k => (k.key?.bind e.attr?).toList

/-- The line ends of all elements that are rendered. -/
def lines (e : Element) : Nat :=
  (e.rendered.map fun x => x.2.ownLines).sum

variable {e : Element} {k : Kind}

theorem ownLines_of_kind (h : Kind.of e = .ok k) (hk : k ≠ .sample) : e.ownLines = k.lines := by
  rw [ownLines, h]
  cases k <;> first | rfl | contradiction

theorem ownLines_of_sample (h : Kind.of e = .ok .sample) :
    e.ownLines = 4 + ((Text.solidLines e.value.toList).length - 1) := by
  rw [ownLines, h, Text.solidLines]

/-- **The line ends of an element and of what it lays out.** -/
theorem lines_eq (e : Element) :
    e.lines = e.ownLines + ((e.laid.map Prod.snd).map lines).sum := by
  rw [lines, rendered_eq, List.map_cons, List.sum_cons, List.map_flatMap, List.flatMap_def,
    List.sum_flatten, List.map_map, List.map_map]
  congr 2
  refine List.map_congr_left fun x _ => ?_
  rw [Function.comp_apply, Function.comp_apply, lines, List.map_map]
  rfl

theorem map_snd_laid_of_isFlow (h : Kind.of e = .ok k) (hk : k.isFlow = true) :
    e.laid.map Prod.snd = e.childElements := by
  rw [laid_of_isFlow h hk, List.map_map, childElements, ← map_snd_numbered]
  rfl

theorem map_snd_laid_of_page (h : Kind.of e = .ok .page) :
    e.laid.map Prod.snd = e.group .fields ++ e.group .methods ++ e.group .events := by
  rcases hms : e.child? "members" with _ | ms
  · have hlaid : e.laid = [] := by
      rw [laid, h]
      dsimp only
      rw [hms]
    have hmembers : e.members = [] := by rw [members, hms]
    simp [hlaid, group, hmembers]
  · have hgroup : ∀ g : Group,
        (g.laid (e.indexOf "members") ms.children).map Prod.snd = e.group g := by
      intro g
      rw [Group.laid, List.map_map, group, members, hms]
      change _ = ((ms.children.filterMap Node.element?).filter (·.name == "member")).filter g.has
      rw [← map_snd_numbered, List.filter_filter, List.filter_map]
      simp only [Bool.and_comm]
      rfl
    rw [laid_of_page h hms]
    simp [hgroup]

end Element

/-! ## Line ends of nodes and members -/

/-- **Nodes have the line ends of the elements among them.** -/
theorem lineFeeds_renderNodes {ns : List Node} {out : String} {f : Element → Nat}
    (hf : ∀ c ∈ ns.filterMap Node.element?, ∀ s, c.render = .ok s → lineFeeds s = f c)
    (h : renderNodes ns = .ok out) :
    lineFeeds out = ((ns.filterMap Node.element?).map f).sum := by
  induction ns generalizing out with
  | nil =>
    obtain rfl := Except.ok.inj h
    rfl
  | cons n ns ih =>
    rw [renderNodes_cons, followedBy_eq_ok_iff] at h
    obtain ⟨s, rest, hs, hrest, rfl⟩ := h
    cases n with
    | element c =>
      rw [filterMap_element?_cons] at hf ⊢
      obtain ⟨hc, hf⟩ := List.forall_mem_cons.mp hf
      rw [Node.render_element] at hs
      rw [lineFeeds_append, List.map_cons, List.sum_cons, hc s hs, ih hf hrest]
    | text t =>
      obtain rfl : Text.collapse t = s := Except.ok.inj hs
      rw [lineFeeds_append, lineFeeds_eq_zero.mpr (Text.newline_notMem_collapse t), Nat.zero_add]
      exact ih hf hrest
    | cdata t =>
      obtain rfl : "" = s := Except.ok.inj hs
      rw [lineFeeds_append, lineFeeds_empty, Nat.zero_add]
      exact ih hf hrest

/-- **A pass has the line ends of the members of its group.** -/
theorem lineFeeds_renderMembers {g : Group} {ms : List Element} {out : String} {f : Element → Nat}
    (hf : ∀ m ∈ ms.filter g.has, ∀ s, m.render = .ok s → lineFeeds s = f m)
    (h : renderMembers g ms = .ok out) :
    lineFeeds out = ((ms.filter g.has).map f).sum := by
  induction ms generalizing out with
  | nil =>
    obtain rfl := Except.ok.inj h
    rfl
  | cons m ms ih =>
    have hname : ∃ name, m.attr? "name" = some name := by
      rw [renderMembers_cons] at h
      obtain ⟨name, hname, -⟩ := Except.exists_of_bind_eq_ok h
      exact ⟨name, Element.requireAttr_eq_ok_iff.mp hname⟩
    obtain ⟨name, hname⟩ := hname
    by_cases hg : g.holds name = true
    · have hhas : g.has m = true := Group.has_iff.mpr ⟨name, hname, hg⟩
      rw [List.filter_cons_of_pos hhas] at hf ⊢
      obtain ⟨hm, hf⟩ := List.forall_mem_cons.mp hf
      rw [renderMembers_cons_of_holds ms hname hg, followedBy_eq_ok_iff] at h
      obtain ⟨s, rest, hs, hrest, rfl⟩ := h
      rw [lineFeeds_append, List.map_cons, List.sum_cons, hm s hs, ih hf hrest]
    · have hhas : ¬ g.has m = true := by rwa [Group.has, hname, Option.any_some]
      rw [List.filter_cons_of_neg hhas] at hf ⊢
      rw [renderMembers_cons_of_not_holds ms hname hg] at h
      exact ih hf h

/-! ## Line ends of an element

The induction is along the layout (`Lays.induction`): the line ends of an element are its own and
those of all that it lays out.  The condition on what is printed is one on every rendered element,
and so passes on to those further in. -/

namespace Element

variable {e : Element} {k : Kind} {out : String}

theorem mem_printed_of_page {assembly name : Element} (hk : Kind.of e = .ok .page)
    (hassembly : e.child? "assembly" = some assembly) (hname : assembly.child? "name" = some name) :
    name.value ∈ e.printed := by
  rw [printed, hk]
  dsimp only
  rw [hassembly, Option.bind_some, hname]
  exact List.mem_singleton_self _

theorem mem_printed_of_key {key v : String} (hk : Kind.of e = .ok k) (hkey : k.key? = some key)
    (hattr : e.attr? key = some v) : v ∈ e.printed := by
  have hprinted : e.printed = (k.key?.bind e.attr?).toList := by
    rw [printed, hk]
    cases k <;> first | rfl | contradiction
  rw [hprinted, hkey, Option.bind_some, hattr]
  exact List.mem_singleton_self _

/-- The value that an element is laid out with is without a line end. -/
theorem lineFeeds_value (hone : ∀ s ∈ e.printed, '\n' ∉ s.toList) (hk : Kind.of e = .ok k)
    {v : String} (h : k.value e = .ok v) : lineFeeds v = 0 := by
  rw [Kind.value] at h
  split at h
  · next key hkey =>
    exact lineFeeds_eq_zero.mpr
      (hone v (mem_printed_of_key hk hkey (requireAttr_eq_ok_iff.mp h)))
  · obtain rfl := Except.ok.inj h
    rfl

section Kinds

-- what the element lays out has the line ends that are counted for it
variable (hone : ∀ s ∈ e.printed, '\n' ∉ s.toList)
  (hlaid : ∀ c ∈ e.laid.map Prod.snd, ∀ s, c.render = .ok s → lineFeeds s = c.lines)

include hone hlaid

theorem lineFeeds_render_of_isFlow (hk : Kind.of e = .ok k) (hflow : k.isFlow = true)
    (h : e.render = .ok out) : lineFeeds out = e.lines := by
  rw [render_of_isFlow hk hflow] at h
  obtain ⟨value, hvalue, h⟩ := Except.exists_of_bind_eq_ok h
  obtain ⟨body, hbody, h⟩ := Except.exists_of_bind_eq_ok h
  obtain rfl := Except.ok.inj h
  rw [map_snd_laid_of_isFlow hk hflow] at hlaid
  have hsample : k ≠ .sample := by
    rintro rfl
    contradiction
  have hframe := Kind.lineFeeds_frame hflow (lineFeeds_value hone hk hvalue)
  have hchildren : lineFeeds body = (e.childElements.map lines).sum :=
    lineFeeds_renderNodes hlaid hbody
  rw [lines_eq, ownLines_of_kind hk hsample, map_snd_laid_of_isFlow hk hflow, lineFeeds_append,
    lineFeeds_append, hchildren]
  omega

theorem lineFeeds_render_of_page (hk : Kind.of e = .ok .page) (h : e.render = .ok out) :
    lineFeeds out = e.lines := by
  rw [render_of_page hk] at h
  obtain ⟨assembly, hassembly, h⟩ := Except.exists_of_bind_eq_ok h
  obtain ⟨name, hname, h⟩ := Except.exists_of_bind_eq_ok h
  obtain ⟨ms, hms, h⟩ := Except.exists_of_bind_eq_ok h
  obtain ⟨text, htext, rfl⟩ := renderPage_eq_ok_iff.mp h
  rw [requireChild_eq_ok_iff] at hassembly hname hms
  have htitle : lineFeeds name.value = 0 :=
    lineFeeds_eq_zero.mpr (hone _ (mem_printed_of_page hk hassembly hname))
  have hmembers : e.members = ms.childrenNamed "member" := by rw [members, hms]
  have hgroup : ∀ g : Group, lineFeeds (text g) = ((e.group g).map lines).sum := by
    intro g
    have hmem : ∀ m ∈ e.group g, m ∈ e.laid.map Prod.snd := by
      intro m hm
      rw [map_snd_laid_of_page hk]
      cases g <;> simp [hm]
    have hpass := htext g
    rw [← hmembers] at hpass
    exact lineFeeds_renderMembers (fun m hm => hlaid m (hmem m hm)) hpass
  rw [lines_eq, ownLines_of_kind hk (by decide), map_snd_laid_of_page hk,
    lineFeeds_pageText _ _ _ htitle, hgroup, hgroup, hgroup, List.map_append, List.map_append,
    List.sum_append, List.sum_append]
  omega

end Kinds

theorem lineFeeds_render_of_sample (hk : Kind.of e = .ok .sample) (h : e.render = .ok out) :
    lineFeeds out = e.lines := by
  rw [render_of_sample hk] at h
  obtain rfl := Except.ok.inj h
  have hcode : lineFeeds (Text.dedent e.value) = (Text.solidLines e.value.toList).length - 1 :=
    Text.count_newline_dedent e.value
  have hbegin : lineFeeds "**example**\n\n" = 2 := rfl
  have hend : lineFeeds "\n\n" = 2 := rfl
  rw [lines_eq, ownLines_of_sample hk, laid_of_not_isFlow hk rfl (by decide), lineFeeds_append,
    lineFeeds_append, hcode, hbegin, hend]
  simp only [List.map_nil, List.sum_nil]
  omega

/-- **An element has the line ends of all that is rendered in it.** -/
theorem lineFeeds_render (h : e.render = .ok out)
    (hone : ∀ p d, Rendered e p d → ∀ s ∈ d.printed, '\n' ∉ s.toList) :
    lineFeeds out = e.lines := by
  induction e using Lays.induction generalizing out with
  | step e ih =>
    have hlaid : ∀ c ∈ e.laid.map Prod.snd, ∀ s, c.render = .ok s → lineFeeds s = c.lines := by
      intro c hc s hs
      obtain ⟨⟨p, c⟩, hmem, rfl⟩ := List.mem_map.mp hc
      have hlays := mem_laid_iff.mp hmem
      exact ih p c hlays hs fun q d hd => hone (p ++ q) d (.within hlays hd)
    rcases hk : Kind.of e with err | k
    · rw [render_of_error hk] at h
      contradiction
    by_cases hflow : k.isFlow = true
    · exact lineFeeds_render_of_isFlow (hone [] e .root) hlaid hk hflow h
    · cases k with
      | page => exact lineFeeds_render_of_page (hone [] e .root) hlaid hk h
      | sample => exact lineFeeds_render_of_sample hk h
      | other =>
        rw [render_of_other hk] at h
        obtain rfl := Except.ok.inj h
        rw [lines_eq, ownLines_of_kind hk (by decide), laid_of_not_isFlow hk rfl (by decide)]
        rfl
      | _ => contradiction

end Element

/-- **A page has exactly the line ends that its elements write.**  Every rendered element is counted
once, at its place; what is printed beside running text is to be without a line end, and running
text itself never has one, however its source was broken into lines. -/
theorem lineFeeds_of_rendered {root : Element} {out : String} (hrender : root.render = .ok out)
    (hone : ∀ p e, Rendered root p e → ∀ s ∈ e.printed, '\n' ∉ s.toList) :
    ((root.rendered.map Prod.fst).Nodup ∧ ∀ p e, (p, e) ∈ root.rendered ↔ Rendered root p e) ∧
      out.toList.count '\n' = (root.rendered.map fun x => x.2.ownLines).sum ∧
      ∀ content, ∃ s, (Node.text content).render = .ok s ∧ '\n' ∉ s.toList :=
  ⟨⟨root.nodup_rendered, fun _ _ => Element.mem_rendered_iff⟩,
    Element.lineFeeds_render hrender hone,
    fun content => ⟨Text.collapse content, rfl, Text.newline_notMem_collapse content⟩⟩

/-- A code sample of two lines, and an empty one. -/
def twoLines : Element :=
  ⟨"example", [], [.cdata "\n  x\n\n  y\n"]⟩

/-- Remarks with a code sample, behind text of several lines. -/
def longRemarks : Element :=
  ⟨"remarks", [], [.text "a\n\n b\n", .element twoLines]⟩

/-- A method with these remarks. -/
def commentedMethod : Element :=
  ⟨"member", [("name", "M:m")], [.text "\n", .element longRemarks]⟩

/-- The method and a field, on one page. -/
def longPage : Element :=
  assemblyPage [.element commentedMethod, bareMember "F:a"]

theorem rendered_longPage : longPage.rendered =
    [([], longPage), ([1, 1], ⟨"member", [("name", "F:a")], []⟩), ([1, 0], commentedMethod),
      ([1, 0, 1], longRemarks), ([1, 0, 1, 1], twoLines)] := by
  have htwo : twoLines.rendered = [([], twoLines)] := Element.rendered_eq twoLines
  have hremarks : longRemarks.rendered = [([], longRemarks), ([1], twoLines)] := by
    rw [Element.rendered_eq, show longRemarks.laid = [([1], twoLines)] from rfl]
    simp [htwo]
  have hmethod : commentedMethod.rendered =
      [([], commentedMethod), ([1], longRemarks), ([1, 1], twoLines)] := by
    rw [Element.rendered_eq, show commentedMethod.laid = [([1], longRemarks)] from rfl]
    simp [hremarks]
  have hfield : Element.rendered ⟨"member", [("name", "F:a")], []⟩ =
      [([], ⟨"member", [("name", "F:a")], []⟩)] := Element.rendered_eq _
  have hpage : longPage.laid =
    [([1, 1], ⟨"member", [("name", "F:a")], []⟩), ([1, 0], commentedMethod)] := rfl
  rw [Element.rendered_eq, hpage]
  simp [hfield, hmethod]

theorem lineFeeds_of_rendered_longPage :
    (∀ p e, Rendered longPage p e → ∀ s ∈ e.printed, '\n' ∉ s.toList) ∧
      ∃ out, longPage.render = .ok out ∧ out.toList.count '\n' = 14 + 4 + 4 + 4 + (4 + 1) := by
  have hone : ∀ p e, Rendered longPage p e → ∀ s ∈ e.printed, '\n' ∉ s.toList := by
    intro p e h
    rw [← Element.mem_rendered_iff, rendered_longPage] at h
    have hall : ∀ x ∈ [([], longPage), ([1, 1], ⟨"member", [("name", "F:a")], []⟩),
        ([1, 0], commentedMethod), ([1, 0, 1], longRemarks), ([1, 0, 1, 1], twoLines)],
        ∀ s ∈ x.2.printed, '\n' ∉ s.toList := by decide
    exact hall (p, e) h
  obtain ⟨out, hout⟩ : ∃ out, longPage.render = .ok out := ⟨_, rfl⟩
  have hlines := (lineFeeds_of_rendered hout hone).2.1
  rw [rendered_longPage] at hlines
  exact ⟨hone, out, hout, hlines⟩

end DocMarkdown
