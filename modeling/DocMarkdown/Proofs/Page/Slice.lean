import DocMarkdown.Proofs.Page.Rendered

/-!
# Proofs/Page/Slice — one node, one slice of the page

A node at a rendered place may be exchanged for another (`Element.put`).  What the tree renders to
is then the same before and behind the node, whatever the node is, and the node's own Markdown in
between (`render_put_slice`).  It is enough to see this for one step of the layout: what an element
lays out stands in one piece in what the element renders to.
-/

namespace DocMarkdown

/-! ## Another node in its place -/

/-- The element with other children. -/
def Element.withChildren (e : Element) (children : List Node) : Element :=
  { e with children := children }

/-- A node with another in its place, or in a place within it. -/
def Node.put (new : Node) : List Nat → Node → Node
  | [], _ => new
  | i :: p, .element e => .element (e.withChildren (e.children.modify i (put new p)))
  | _ :: _, n => n

namespace Element

/-- **An element with another node in a place within it**: which child to take at every level. -/
def put (e : Element) (p : List Nat) (new : Node) : Element :=
  match p with
  | [] => e
  | i :: p => e.withChildren (e.children.modify i (new.put p))

/-- Only the children of an element change. -/
theorem put_eq (e : Element) (p : List Nat) (new : Node) :
    e.put p new = e.withChildren (e.put p new).children := by
  obtain ⟨name, attributes, children⟩ := e
  cases p <;> rfl

variable {e : Element} {front behind : List Node} {n : Node}

/-- Only one of them changes. -/
theorem put_cons (h : e.children = front ++ n :: behind) (p : List Nat) (new : Node) :
    e.put (front.length :: p) new = e.withChildren (front ++ new.put p n :: behind) := by
  have hmodify : (front ++ n :: behind).modify front.length (new.put p)
      = front ++ new.put p n :: behind := by simp [List.modify_eq_take_drop]
  rw [put, h, hmodify]

variable {i : Nat}

/-- A child with those before it and those behind it. -/
theorem children_eq_take_append (hi : i < e.children.length) :
    e.children = e.children.take i ++ e.children[i] :: e.children.drop (i + 1) := by
  rw [← List.drop_eq_getElem_cons hi, List.take_append_drop]

/-- Another node in the place of a child. -/
theorem put_singleton (new : Node) (hi : i < e.children.length) : e.put [i] new
    = e.withChildren (e.children.take i ++ new :: e.children.drop (i + 1)) := by
  have hlength : (e.children.take i).length = i := List.length_take_of_le (Nat.le_of_lt hi)
  have hput := e.put_cons (children_eq_take_append hi) [] new
  rw [hlength] at hput
  exact hput

end Element

/-! ## Slices

Whole and part are functions of what is exchanged, so `before` and `behind` are chosen before it
is.  Slices of slices are slices, which is all that a descent needs. -/

/-- **One result stands in one piece in another**, between strings that do not depend on it; and an
error of it is an error of the other. -/
def Slice {α : Type} (whole part : α → Except LayoutError String) : Prop :=
  ∃ before behind, ∀ a, whole a = (part a).map (before ++ · ++ behind)

namespace Slice

variable {α : Type} {whole middle part : α → Except LayoutError String}

theorem of_map {f : String → String} (hf : ∃ before behind, ∀ s, f s = before ++ s ++ behind)
    (h : ∀ a, whole a = (part a).map f) : Slice whole part := by
  obtain ⟨before, behind, hf⟩ := hf
  refine ⟨before, behind, fun a => ?_⟩
  rw [h, funext hf]

theorem trans (h : Slice whole middle) (h' : Slice middle part) : Slice whole part := by
  obtain ⟨before, behind, h⟩ := h
  obtain ⟨before', behind', h'⟩ := h'
  refine ⟨before ++ before', behind' ++ behind, fun a => ?_⟩
  rw [h, h']
  rcases part a with err | s
  · rfl
  · simp [Except.map, String.append_assoc]

theorem comp {β : Type} (h : Slice whole part) (f : β → α) :
    Slice (fun b => whole (f b)) (fun b => part (f b)) := by
  obtain ⟨before, behind, h⟩ := h
  exact ⟨before, behind, fun b => h (f b)⟩

/-- A part of what renders does so too. -/
theorem exists_ok (h : Slice whole part) {a : α} {out : String} (hout : whole a = .ok out) :
    ∃ s, part a = .ok s := by
  obtain ⟨before, behind, h⟩ := h
  rw [h] at hout
  rcases hpart : part a with err | s
  · simp [hpart, Except.map] at hout
  · exact ⟨s, rfl⟩

end Slice

/-! ## One step of the layout

What stands beside the part has to render, or the whole would fail whatever the part is.  This comes
from the hypothesis that the whole renders as it is. -/

/-- What stands between two results is a slice of all three. -/
theorem slice_followedBy {α : Type} (f : α → Except LayoutError String) (s rest : String) :
    Slice (fun a => followedBy (.ok s) (followedBy (f a) (.ok rest))) f := by
  refine ⟨s, rest, fun a => ?_⟩
  simp only
  rcases f a with err | t
  · rfl
  · exact congrArg Except.ok (String.append_assoc ..).symm

/-- **A node is a slice of the nodes among which it stands.** -/
theorem slice_renderNodes {front behind : List Node} {n : Node} {out : String}
    (h : renderNodes (front ++ n :: behind) = .ok out) :
    Slice (fun m => renderNodes (front ++ m :: behind)) Node.render := by
  have happend : ∀ m, renderNodes (front ++ m :: behind)
      = followedBy (renderNodes front) (followedBy m.render (renderNodes behind)) := by
    intro m
    rw [renderNodes_append, renderNodes_cons]
  rw [happend] at h
  obtain ⟨s, _, hfront, h, -⟩ := followedBy_eq_ok_iff.1 h
  obtain ⟨_, rest, -, hbehind, -⟩ := followedBy_eq_ok_iff.1 h
  simp only [happend, hfront, hbehind]
  exact slice_followedBy Node.render s rest

section

variable {g : Group} {ms ns : List Element} {m : Element} {name : String}

/-- **A name belongs to one group at most.** -/
theorem Group.eq_of_holds {h : Group} (hg : g.holds name = true) (hh : h.holds name = true) :
    g = h := by
  rw [holds, List.isPrefixOf_iff_prefix] at hg hh
  obtain ⟨rest, hg⟩ := hg
  obtain ⟨rest', hh⟩ := hh
  rw [← hg] at hh
  cases g <;> cases h <;> first | rfl | simp [mark] at hh

/-- **A member of a group is a slice of the group**, whatever it holds. -/
theorem slice_renderMembers {out : String} (hname : m.attr? "name" = some name)
    (hg : g.holds name = true) (h : renderMembers g (ms ++ m :: ns) = .ok out) :
    Slice (fun children => renderMembers g (ms ++ m.withChildren children :: ns))
      (fun children => (m.withChildren children).render) := by
  have happend : ∀ m' : Element, m'.attr? "name" = some name → renderMembers g (ms ++ m' :: ns)
      = followedBy (renderMembers g ms) (followedBy m'.render (renderMembers g ns)) := by
    intro m' hm'
    rw [renderMembers_append, renderMembers_cons_of_holds ns hm' hg]
  rw [happend m hname] at h
  obtain ⟨s, _, hfront, h, -⟩ := followedBy_eq_ok_iff.1 h
  obtain ⟨_, rest, -, hbehind, -⟩ := followedBy_eq_ok_iff.1 h
  have hwhole : ∀ children, renderMembers g (ms ++ m.withChildren children :: ns)
      = followedBy (.ok s) (followedBy ((m.withChildren children).render)
          (.ok rest)) := by
    intro children
    rw [happend (m.withChildren children) hname, hfront, hbehind]
  simp only [hwhole]
  exact slice_followedBy _ s rest

/-- A member of another group is no part of it, whatever it holds. -/
theorem renderMembers_of_not_holds (ms ns : List Element) (hname : m.attr? "name" = some name)
    (hg : ¬ g.holds name = true) (children : List Node) :
    renderMembers g (ms ++ m.withChildren children :: ns)
      = renderMembers g (ms ++ m :: ns) := by
  have hname' : (m.withChildren children).attr? "name" = some name := hname
  rw [renderMembers_append, renderMembers_append, renderMembers_cons_of_not_holds ns hname hg,
    renderMembers_cons_of_not_holds ns hname' hg]

end

/-! ## Pages

A page looks at a member in three passes.  Only the name decides which of them lays it out, and it
is the children that are exchanged; so the two other passes stay as they are. -/

section

variable (title fields methods events : String)

theorem exists_pageText_fields :
    ∃ front behind, ∀ s, pageText title s methods events = front ++ s ++ behind :=
  ⟨"## " ++ title ++ " ##\n\n## Fields\n\n", "\n\n## Methods\n\n" ++ methods ++
    "\n\n## Events\n\n" ++ events ++ "\n\n", fun s => by simp [pageText, String.append_assoc]⟩

theorem exists_pageText_methods :
    ∃ front behind, ∀ s, pageText title fields s events = front ++ s ++ behind :=
  ⟨"## " ++ title ++ " ##\n\n## Fields\n\n" ++ fields ++ "\n\n## Methods\n\n",
    "\n\n## Events\n\n" ++ events ++ "\n\n", fun s => by simp [pageText, String.append_assoc]⟩

theorem exists_pageText_events :
    ∃ front behind, ∀ s, pageText title fields methods s = front ++ s ++ behind :=
  ⟨"## " ++ title ++ " ##\n\n## Fields\n\n" ++ fields ++ "\n\n## Methods\n\n" ++ methods ++
    "\n\n## Events\n\n", "\n\n", fun s => by simp [pageText, String.append_assoc]⟩

/-- **A group is a slice of the page**, when nothing but that group depends on what it holds. -/
theorem slice_renderPage {α : Type} {pass : α → Group → Except LayoutError String} {g : Group}
    (h : ∀ other, g ≠ other → ∃ text, ∀ a, pass a other = .ok text) :
    Slice (fun a => renderPage title (pass a)) (pass · g) := by
  cases g with
  | fields =>
    obtain ⟨methods, hmethods⟩ := h .methods (by simp)
    obtain ⟨events, hevents⟩ := h .events (by simp)
    refine Slice.of_map (exists_pageText_fields title methods events) fun a => ?_
    rw [renderPage, hmethods, hevents]
    rfl
  | methods =>
    obtain ⟨fields, hfields⟩ := h .fields (by simp)
    obtain ⟨events, hevents⟩ := h .events (by simp)
    refine Slice.of_map (exists_pageText_methods title fields events) fun a => ?_
    rw [renderPage, hfields, hevents]
    rfl
  | events =>
    obtain ⟨fields, hfields⟩ := h .fields (by simp)
    obtain ⟨methods, hmethods⟩ := h .methods (by simp)
    refine Slice.of_map (exists_pageText_events title fields methods) fun a => ?_
    rw [renderPage, hfields, hmethods]
    rfl

end

namespace Element

variable {e : Element} {k : Kind} {front behind : List Node}

/-- **A child is a slice of an element of running documentation.** -/
theorem slice_child {n : Node} {out : String} (hk : Kind.of e = .ok k) (hflow : k.isFlow = true)
    (hchildren : e.children = front ++ n :: behind) (hout : e.render = .ok out) :
    Slice (fun m => (e.withChildren (front ++ m :: behind)).render) Node.render := by
  have hrender : ∀ children, (e.withChildren children).render = do
      let value ← k.value e
      let body ← renderNodes children
      return k.before value ++ body ++ k.behind value :=
    fun children => render_of_isFlow (show Kind.of (e.withChildren children) = .ok k from hk)
      hflow
  rw [render_of_isFlow hk hflow] at hout
  obtain ⟨value, hvalue, hout⟩ := Except.exists_of_bind_eq_ok hout
  obtain ⟨body, hbody, -⟩ := Except.exists_of_bind_eq_ok hout
  rw [hchildren] at hbody
  have hwhole : Slice (fun m => (e.withChildren (front ++ m :: behind)).render)
      (fun m => renderNodes (front ++ m :: behind)) := by
    refine ⟨k.before value, k.behind value, fun m => (hrender _).trans ?_⟩
    rw [hvalue]
    rfl
  exact hwhole.trans (slice_renderNodes hbody)

/-- Another child of the same name shows in no look-up for other names. -/
theorem child?_of_ne {c d : Element} {name : String} (hname : d.name = c.name)
    (hc : c.name ≠ name) : (e.withChildren (front ++ .element d :: behind)).child? name
      = (e.withChildren (front ++ .element c :: behind)).child? name := by
  have hd : d.name ≠ name := hname ▸ hc
  simp [child?, childrenNamed, childElements, withChildren, Node.element?, hc, hd]

theorem childrenNamed_append {c : Element} {name : String} (hc : c.name = name) :
    (e.withChildren (front ++ .element c :: behind)).childrenNamed name
      = (e.withChildren front).childrenNamed name ++
          c :: (e.withChildren behind).childrenNamed name := by
  simp [childrenNamed, childElements, withChildren, Node.element?, hc]

variable {ms m : Element} {before after : List Node} {g : Group} {name : String}

theorem withChildren_of_eq {children : List Node} (h : e.children = children) :
    e.withChildren children = e := by
  obtain ⟨name, attributes, children'⟩ := e
  obtain rfl : children' = children := h
  rfl

/-- What a page renders to, with any member in the place of one. -/
theorem render_withMember (before after : List Node) (hk : Kind.of e = .ok .page)
    (hchildren : e.children = front ++ .element ms :: behind) (hms : ms.name = "members")
    (hfirst : ∀ d, .element d ∈ front → d.name ≠ "members") (hm : m.name = "member") :
    (e.withChildren (front ++ .element (ms.withChildren
        (before ++ .element m :: after)) :: behind)).render = (do
      let assembly ← e.requireChild "assembly"
      let title ← assembly.requireChild "name"
      renderPage title.value (renderMembers · ((ms.withChildren before).childrenNamed "member" ++
        m :: (ms.withChildren after).childrenNamed "member"))) := by
  let ms' := ms.withChildren (before ++ .element m :: after)
  let e' := e.withChildren (front ++ .element ms' :: behind)
  have hk' : Kind.of e' = .ok .page := hk
  have hassembly : e'.requireChild "assembly" = e.requireChild "assembly" := by
    have hlookup : e'.child? "assembly" = e.child? "assembly" := by
      have hne : ms.name ≠ "assembly" := by
        rw [hms]
        decide
      rw [child?_of_ne (c := ms) (d := ms') rfl hne, withChildren_of_eq hchildren]
    rw [requireChild, hlookup]
    rfl
  have hmembers : e'.requireChild "members" = .ok ms' := by
    have hchild : e'.child? "members" = some ms' :=
      child?_eq_some_iff.mpr ⟨front, behind, rfl, hms, hfirst⟩
    rw [requireChild, hchild]
  rw [render_of_page hk', hassembly, hmembers]
  simp only [Except.ok_bind, ms', childrenNamed_append hm]

/-- **A member of a group is a slice of the page.** -/
theorem slice_member {out : String} (hk : Kind.of e = .ok .page)
    (hchildren : e.children = front ++ .element ms :: behind) (hms : ms.name = "members")
    (hfirst : ∀ d, .element d ∈ front → d.name ≠ "members")
    (hmembers : ms.children = before ++ .element m :: after) (hm : m.name = "member")
    (hname : m.attr? "name" = some name) (hg : g.holds name = true) (hout : e.render = .ok out) :
    Slice (fun children => (e.withChildren (front ++ .element (ms.withChildren
        (before ++ .element (m.withChildren children) :: after)) :: behind)).render)
      (fun children => (m.withChildren children).render) := by
  have hrender := fun m' hm' =>
    render_withMember (m := m') before after hk hchildren hms hfirst hm'
  have hout' := hrender m hm
  rw [withChildren_of_eq hmembers, withChildren_of_eq hchildren, hout] at hout'
  obtain ⟨assembly, hassembly, hout'⟩ := Except.exists_of_bind_eq_ok hout'.symm
  obtain ⟨title, htitle, hout'⟩ := Except.exists_of_bind_eq_ok hout'
  obtain ⟨text, hpasses, -⟩ := renderPage_eq_ok_iff.1 hout'
  have hwhole := fun children => hrender (m.withChildren children) hm
  simp only [hassembly, htitle, Except.ok_bind] at hwhole
  simp only [hwhole]
  refine Slice.trans (slice_renderPage title.value fun other hne => ?_)
    (slice_renderMembers hname hg (hpasses g))
  -- the passes for the other groups do not see the member
  refine ⟨text other, fun children => ?_⟩
  rw [renderMembers_of_not_holds _ _ hname fun hother => hne (Group.eq_of_holds hg hother),
    hpasses other]

end Element

/-! ## All steps -/

/-- **What is laid out is a slice of what it is laid out in**, whatever it holds: with other
children of the one, the other is put together as before. -/
theorem Lays.exists_slice {e c : Element} {p : List Nat} {out : String} (h : Lays e p c)
    (hout : e.render = .ok out) : ∃ whole : List Node → Element,
      Slice (fun children => (whole children).render)
        (fun children => (c.withChildren children).render) ∧ whole c.children = e ∧
      ∀ i q n, e.put (p ++ i :: q) n = whole (c.put (i :: q) n).children := by
  cases h with
  | @child _ k front behind hk hflow hchildren =>
    refine ⟨fun children => e.withChildren (front ++ .element (c.withChildren children) :: behind),
      ?_, ?_, fun i q n => ?_⟩
    · obtain ⟨before, after, hslice⟩ := Element.slice_child hk hflow hchildren hout
      refine ⟨before, after, fun children => (hslice _).trans ?_⟩
      rw [Node.render_element]
    · simp only [Element.withChildren_of_eq, ← hchildren]
    · exact e.put_cons hchildren _ n
  | @member ms _ front behind before after g name hk hchildren hms hfirst hmembers hm hname hg =>
    refine ⟨fun children => e.withChildren (front ++ .element (ms.withChildren
      (before ++ .element (c.withChildren children) :: after)) :: behind), ?_, ?_, fun i q n => ?_⟩
    · exact Element.slice_member hk hchildren hms hfirst hmembers hm hname hg hout
    · simp only [Element.withChildren_of_eq, ← hmembers, ← hchildren]
    · have hput : n.put (before.length :: i :: q) (.element ms) = .element (ms.withChildren
          (before ++ .element (c.withChildren (c.put (i :: q) n).children) :: after)) :=
        congrArg Node.element (ms.put_cons hmembers _ n)
      rw [List.cons_append, List.singleton_append, e.put_cons hchildren, hput]

/-- **A node at a rendered place is a slice of the page**, and the page has it there. -/
theorem Rendered.slice {t e : Element} {p : List Nat} {i : Nat} {k : Kind} {out : String}
    (h : Rendered t p e) (hout : t.render = .ok out) (hk : Kind.of e = .ok k)
    (hflow : k.isFlow = true) (hi : i < e.children.length) :
    Slice (fun n => (t.put (p ++ [i]) n).render) Node.render ∧
      t.put (p ++ [i]) e.children[i] = t := by
  induction h generalizing out with
  | root =>
    refine ⟨?_, ?_⟩
    · simp only [List.nil_append, Element.put_singleton _ hi]
      exact Element.slice_child hk hflow (Element.children_eq_take_append hi) hout
    · rw [List.nil_append, Element.put_singleton _ hi]
      exact Element.withChildren_of_eq (Element.children_eq_take_append hi)
  | @within t c e p q hlays hrendered ih =>
    obtain ⟨whole, hslice, hwhole, hput⟩ := hlays.exists_slice hout
    -- what is laid out renders, since the whole does
    obtain ⟨s, hs⟩ : ∃ s, (c.withChildren c.children).render = .ok s :=
      hslice.exists_ok (a := c.children) (hwhole ▸ hout)
    rw [Element.withChildren_of_eq rfl] at hs
    obtain ⟨j, r, hjr⟩ : ∃ j r, q ++ [i] = j :: r := List.exists_cons_of_ne_nil (by simp)
    obtain ⟨hwithin, hself⟩ := ih hs hk hi
    rw [hjr] at hwithin hself
    rw [List.append_assoc, hjr]
    refine ⟨?_, ?_⟩
    · have hstep := hslice.comp fun n => (c.put (j :: r) n).children
      simp only [← hput, ← Element.put_eq] at hstep
      exact hstep.trans hwithin
    · rw [hput, hself, hwhole]

/-- **A change of one node changes its own slice of the page.**  At every rendered place of a tree
that renders, the page is what comes before the node, the node, and what comes behind it.  With any
other node there, only the slice between changes, or the error of that node is that of the tree. -/
theorem render_put_slice {t e : Element} {p : List Nat} {i : Nat} {k : Kind} {out : String}
    (hout : t.render = .ok out) (hp : Rendered t p e) (hk : Kind.of e = .ok k)
    (hflow : k.isFlow = true) (hi : i < e.children.length) :
    ∃ before behind, (∃ s, e.children[i].render = .ok s ∧ out = before ++ s ++ behind) ∧
      ∀ n : Node,
        (∀ s, n.render = .ok s → (t.put (p ++ [i]) n).render = .ok (before ++ s ++ behind)) ∧
        ∀ err, n.render = .error err → (t.put (p ++ [i]) n).render = .error err := by
  obtain ⟨hslice, hself⟩ := hp.slice hout hk hflow hi
  have hok : (t.put (p ++ [i]) e.children[i]).render = .ok out := hself.symm ▸ hout
  obtain ⟨s, hs⟩ := hslice.exists_ok hok
  obtain ⟨before, behind, hslice⟩ := hslice
  refine ⟨before, behind, ⟨s, hs, ?_⟩, fun n => ⟨?_, ?_⟩⟩
  · have hwhole := hslice e.children[i]
    rw [hs] at hwhole
    exact Except.ok.inj (hok.symm.trans hwhole)
  · intro r hr
    refine (hslice n).trans ?_
    rw [hr]
    rfl
  · intro err herr
    refine (hslice n).trans ?_
    rw [herr]
    rfl

/-- A summary that mentions another member. -/
def smallSummary : Element :=
  ⟨"summary", [], [.text "see ", .element ⟨"see", [("cref", "E:b")], [.text "b"]⟩]⟩

/-- The field that it is a summary of. -/
def smallField : Element :=
  ⟨"member", [("name", "F:a")], [.element smallSummary]⟩

/-- An event, and the field. -/
def smallMembers : Element :=
  ⟨"members", [], [.element ⟨"member", [("name", "E:b")], []⟩, .text " ", .element smallField]⟩

/-- The page with both, the field first. -/
def smallPage : Element :=
  ⟨"doc", [], [.element ⟨"assembly", [], [.element ⟨"name", [], [.text "A"]⟩]⟩,
    .element smallMembers]⟩

/-- What it renders to. -/
def smallText : String :=
  "## A ##\n\n## Fields\n\n### F:a\n\nsee [b](E:b)\n\n\n\n" ++
    "\n\n## Methods\n\n\n\n## Events\n\n### E:b\n\n\n\n\n\n"

theorem render_put_slice_smallPage :
    smallPage.render = .ok smallText ∧ Rendered smallPage [1, 2, 0] smallSummary ∧
      Kind.of smallSummary = .ok .summary ∧ 1 < smallSummary.children.length ∧
      ∃ before behind, (∃ s, smallSummary.children[1].render = .ok s ∧
          smallText = before ++ s ++ behind) ∧
        ∀ n : Node,
          (∀ s, n.render = .ok s →
            (smallPage.put ([1, 2, 0] ++ [1]) n).render = .ok (before ++ s ++ behind)) ∧
          ∀ err, n.render = .error err →
            (smallPage.put ([1, 2, 0] ++ [1]) n).render = .error err := by
  have hout : smallPage.render = .ok smallText := rfl
  have hmembers : smallPage.children = [_] ++ .element smallMembers :: [] := rfl
  have hmember : smallMembers.children = [_, _] ++ .element smallField :: [] := rfl
  have hsummary : smallField.children = [] ++ .element smallSummary :: [] := rfl
  have hpage := Lays.member (g := .fields) rfl hmembers rfl (by simp) hmember rfl rfl rfl
  have hfield := Lays.child (k := .field) rfl rfl hsummary
  have hrendered : Rendered smallPage [1, 2, 0] smallSummary :=
    .within hpage (.within hfield .root)
  have hkind : Kind.of smallSummary = .ok .summary := rfl
  have hplace : 1 < smallSummary.children.length := Nat.lt_succ_self 1
  exact ⟨hout, hrendered, hkind, hplace, render_put_slice hout hrendered hkind rfl hplace⟩

end DocMarkdown
