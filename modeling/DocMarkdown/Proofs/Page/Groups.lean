import DocMarkdown.Proofs.Page.Demand
import DocMarkdown.Proofs.Page.Slice
import Mathlib.Data.List.Forall2
import Mathlib.Tactic.Choose

/-!
# Proofs/Page/Groups — a page is its title and its groups

A page takes its members by their **mark**, the first two characters of their names, and lays each
of them out by its kind, which goes by the first character alone.  The two agree on every member of
a group (`Group.kind_of_has`), so each is laid out as an **entry** and none comes out empty.  What a
page renders to is then told by its title and by what belongs to each group, in order
(`render_of_groups`).
-/

namespace DocMarkdown

/-! ## Members of a group

A mark is a letter and a colon, and a kind goes by the letter.  So a member can have the kind of a
group without its mark.  It belongs to no group then, and no pass lays it out. -/

namespace Group

/-- The kind of a group's members. -/
def kind : Group → Kind
  | fields => .field
  | methods => .method
  | events => .event

/-- An element belongs to the group by its own name. -/
def has (g : Group) (m : Element) : Bool :=
  (m.attr? "name").any g.holds

theorem has_iff {g : Group} {m : Element} :
    g.has m = true ↔ ∃ name, m.attr? "name" = some name ∧ g.holds name = true := by
  rw [has, Option.any_eq_true]

/-- **Mark and first letter agree**: a member of a group has the kind of the group. -/
theorem kind_of_has {g : Group} {m : Element} (hm : m.name = "member") (h : g.has m = true) :
    Kind.of m = .ok g.kind := by
  obtain ⟨name, hname, hg⟩ := has_iff.mp h
  rw [holds, List.isPrefixOf_iff_prefix] at hg
  obtain ⟨rest, hrest⟩ := hg
  have hkind : Kind.ofMemberName name = g.kind := by
    rw [Kind.ofMemberName, ← hrest]
    cases g <;> rfl
  rw [Kind.of, if_pos hm, Element.requireAttr, hname, ← hkind]
  rfl

/-- **A member belongs to one group at most.** -/
theorem eq_of_has {g g' : Group} {m : Element} (h : g.has m = true) (h' : g'.has m = true) :
    g' = g := by
  obtain ⟨name, hname, hg⟩ := has_iff.mp h
  obtain ⟨name', hname', hg'⟩ := has_iff.mp h'
  obtain rfl : name' = name := Option.some.inj (hname'.symm.trans hname)
  exact eq_of_holds hg' hg

end Group

/-- **The members of a group**, in document order. -/
def Element.group (e : Element) (g : Group) : List Element :=
  e.members.filter g.has

theorem Element.name_of_mem_members {e m : Element} (h : m ∈ e.members) : m.name = "member" := by
  rw [members] at h
  split at h
  · exact (mem_childrenNamed.mp h).2
  · contradiction

/-! ## Entries -/

/-- **The entry of a member**: its name as a heading, and what is said of it. -/
def IsEntry (m : Element) (entry : String) : Prop :=
  ∃ name body, m.attr? "name" = some name ∧ renderNodes m.children = .ok body ∧
    entry = "### " ++ name ++ "\n\n" ++ body ++ "\n\n"

/-- A member of a group renders to its entry. -/
theorem Element.render_eq_ok_iff_isEntry {g : Group} {m : Element} {out : String}
    (hm : m.name = "member") (h : g.has m = true) : m.render = .ok out ↔ IsEntry m out := by
  obtain ⟨name, hname, -⟩ := Group.has_iff.mp h
  have hrender : m.render = do
      let body ← renderNodes m.children
      return "### " ++ name ++ "\n\n" ++ body ++ "\n\n" := by
    have hvalue : g.kind.value m = .ok name := by
      have hrequire : m.requireAttr "name" = .ok name := by rw [requireAttr, hname]
      cases g <;> exact hrequire
    rw [render_of_isFlow (Group.kind_of_has hm h) (by cases g <;> rfl), hvalue, Except.ok_bind]
    cases g <;> rfl
  rw [hrender, IsEntry]
  rcases hbody : renderNodes m.children with err | body
  · simp [bind, Except.bind]
  · simp [hname, bind, Except.bind, pure, Except.pure, eq_comm]

/-! ## One pass -/

/-- **A pass sees the members of its group only**, once all members have names. -/
theorem renderMembers_filter {g : Group} {ms : List Element}
    (h : ∀ m ∈ ms, (m.attr? "name").isSome = true) :
    renderMembers g (ms.filter g.has) = renderMembers g ms := by
  induction ms with
  | nil => rfl
  | cons m ms ih =>
    obtain ⟨hm, hms⟩ := List.forall_mem_cons.mp h
    obtain ⟨name, hname⟩ := Option.isSome_iff_exists.mp hm
    by_cases hg : g.holds name = true
    · rw [List.filter_cons_of_pos (Group.has_iff.mpr ⟨name, hname, hg⟩),
        renderMembers_cons_of_holds _ hname hg, renderMembers_cons_of_holds _ hname hg, ih hms]
    · have hnot : ¬ g.has m = true := by
        rw [Group.has, hname]
        exact hg
      rw [List.filter_cons_of_neg hnot, renderMembers_cons_of_not_holds _ hname hg, ih hms]

/-- **A pass writes one entry for each member of its group**, one behind the other. -/
theorem renderMembers_eq_ok_iff {g : Group} {ms : List Element} {out : String}
    (hmember : ∀ m ∈ ms, m.name = "member") (hg : ∀ m ∈ ms, g.has m = true) :
    renderMembers g ms = .ok out ↔
      ∃ entries, List.Forall₂ IsEntry ms entries ∧ String.join entries = out := by
  induction ms generalizing out with
  | nil => simp [renderMembers]
  | cons m ms ih =>
    obtain ⟨hm, hms⟩ := List.forall_mem_cons.mp hmember
    obtain ⟨hgm, hgms⟩ := List.forall_mem_cons.mp hg
    obtain ⟨name, hname, hholds⟩ := Group.has_iff.mp hgm
    rw [renderMembers_cons_of_holds ms hname hholds, followedBy_eq_ok_iff]
    constructor
    · rintro ⟨s, rest, hs, hrest, rfl⟩
      obtain ⟨entries, hentries, rfl⟩ := (ih hms hgms).mp hrest
      exact ⟨s :: entries, .cons ((m.render_eq_ok_iff_isEntry hm hgm).mp hs) hentries,
        String.join_cons⟩
    · rintro ⟨_, hentries, rfl⟩
      cases hentries with
      | cons hentry hentries =>
        exact ⟨_, _, (m.render_eq_ok_iff_isEntry hm hgm).mpr hentry,
          (ih hms hgms).mpr ⟨_, hentries, rfl⟩, String.join_cons.symm⟩

/-! ## The whole page -/

/-- **A documentation file with all that it needs**: the title of its assembly, a list of members,
and a name for each of them. -/
structure Element.Documents (e : Element) (title : String) : Prop where
  name_eq : e.name = "doc"
  title_eq : ∃ assembly name, e.child? "assembly" = some assembly ∧
    assembly.child? "name" = some name ∧ name.value = title
  has_members : (e.child? "members").isSome = true
  named : ∀ m ∈ e.members, (m.attr? "name").isSome = true

/-- Such a file is its title and a pass over each group. -/
theorem Element.Documents.render_eq {e : Element} {title : String} (h : e.Documents title) :
    e.render = renderPage title fun g => renderMembers g (e.group g) := by
  obtain ⟨assembly, name, hassembly, hname, rfl⟩ := h.title_eq
  obtain ⟨ms, hms⟩ := Option.isSome_iff_exists.mp h.has_members
  have hmembers : e.members = ms.childrenNamed "member" := by rw [members, hms]
  have hpass : ∀ g, renderMembers g (e.group g) = renderMembers g (ms.childrenNamed "member") :=
    fun g => hmembers ▸ renderMembers_filter h.named
  rw [render_of_page (kind_of_doc h.name_eq), requireChild_eq_ok_iff.mpr hassembly,
    Except.ok_bind, requireChild_eq_ok_iff.mpr hname, Except.ok_bind,
    requireChild_eq_ok_iff.mpr hms, Except.ok_bind]
  simp only [hpass]

/-- **A page is its title and its groups.**  Two documentation files with the same title and, group
by group, the same members in the same order render alike, whatever else they hold and however
their groups are mixed; an error of one is an error of the other.  What such a file renders to has
one section for each group and, in it, one entry for each member, in document order.  A member that
belongs to a group is of the group's kind, and belongs to no other group. -/
theorem render_of_groups {e : Element} {title : String} (h : e.Documents title) :
    (∀ e' : Element, e'.Documents title → (∀ g, e'.group g = e.group g) →
      e'.render = e.render) ∧
    (∀ out, e.render = .ok out ↔ ∃ entries : Group → List String,
      (∀ g, List.Forall₂ IsEntry (e.group g) (entries g)) ∧
      out = pageText title (String.join (entries .fields)) (String.join (entries .methods))
        (String.join (entries .events))) ∧
    ∀ m ∈ e.members, ∀ g : Group, g.has m = true →
      Kind.of m = .ok g.kind ∧ ∀ g' : Group, g'.has m = true → g' = g := by
  refine ⟨fun e' h' hgroups => ?_, fun out => ?_, fun m hm g hg => ?_⟩
  · rw [h.render_eq, h'.render_eq]
    simp only [hgroups]
  · have hpass : ∀ g text, renderMembers g (e.group g) = .ok text ↔
        ∃ entries, List.Forall₂ IsEntry (e.group g) entries ∧ String.join entries = text := by
      intro g text
      refine renderMembers_eq_ok_iff (fun m hm => ?_) fun m hm => (List.mem_filter.mp hm).2
      exact Element.name_of_mem_members (List.mem_filter.mp hm).1
    rw [h.render_eq, renderPage_eq_ok_iff]
    simp only [hpass]
    constructor
    · rintro ⟨text, htext, rfl⟩
      choose entries hentries hjoin using htext
      exact ⟨entries, hentries, by simp only [hjoin]⟩
    · rintro ⟨entries, hentries, rfl⟩
      exact ⟨fun g => String.join (entries g), fun g => ⟨entries g, hentries g, rfl⟩, rfl⟩
  · exact ⟨Group.kind_of_has (Element.name_of_mem_members hm) hg, fun g' => Group.eq_of_has hg⟩

/-- A member without documentation. -/
def bareMember (name : String) : Node :=
  .element ⟨"member", [("name", name)], []⟩

/-- A type, the documentation of which could not be laid out: a mention of nothing. -/
def brokenType : Node :=
  .element ⟨"member", [("name", "T:x")], [.element ⟨"see", [], []⟩]⟩

/-- A documentation file of an assembly with some members. -/
def assemblyPage (members : List Node) : Element :=
  ⟨"doc", [], [.element ⟨"assembly", [], [.element ⟨"name", [], [.text "A"]⟩]⟩,
    .element ⟨"members", [], members⟩]⟩

/-- Events around a field, with members of no group between them: one has the letter of a field but
not its mark. -/
def mixedPage : Element :=
  assemblyPage [bareMember "E:b", brokenType, bareMember "F:a", bareMember "Foo", bareMember "E:a"]

/-- The field, then the events. -/
def sortedPage : Element :=
  assemblyPage [bareMember "F:a", bareMember "E:b", bareMember "E:a"]

theorem render_of_groups_mixedPage :
    mixedPage.Documents "A" ∧ sortedPage.render = mixedPage.render ∧
      sortedPage.render = .ok ("## A ##\n\n## Fields\n\n### F:a\n\n\n\n\n\n## Methods\n\n" ++
        "\n\n## Events\n\n### E:b\n\n\n\n### E:a\n\n\n\n\n\n") := by
  have hmixed : mixedPage.Documents "A" := ⟨rfl, ⟨_, _, rfl, rfl, rfl⟩, rfl, by decide⟩
  have hsorted : sortedPage.Documents "A" := ⟨rfl, ⟨_, _, rfl, rfl, rfl⟩, rfl, by decide⟩
  have hgroups : ∀ g, sortedPage.group g = mixedPage.group g := by
    intro g
    cases g <;> rfl
  exact ⟨hmixed, (render_of_groups hmixed).1 sortedPage hsorted hgroups, rfl⟩

end DocMarkdown
