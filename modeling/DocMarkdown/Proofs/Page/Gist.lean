import DocMarkdown.Proofs.Page.Groups

/-!
# Proofs/Page/Gist — what of a tree can be seen on its page

Much of a tree is dropped on the way to its page: CDATA and unknown elements with all that is below
them, blanks, attributes that no kind asks for, members of no group.  The **gist** of a tree is what
is left, as a tree again.  It renders as the tree does (`render_gist`), so trees of one gist have
one page, or fail in one way (`render_of_gist`).
-/

namespace DocMarkdown

/-! ## The gist of a tree

The gist is a tree again, so that it can be rendered.  A member of no group is left out of it, but
one without a name is not: it is an error in every pass. -/

/-- The attribute that a kind asks for: the first one with its key. -/
def Kind.keep (k : Kind) (e : Element) : List (String × String) :=
  match k.key? with
  | some key => ((e.attr? key).map (key, ·)).toList
  | none => []

namespace Element

/-- A name of an assembly, of which the value is printed. -/
def gistOfTitle (title : Element) : Element :=
  ⟨"name", [], [.text title.value]⟩

/-- An assembly, of which the first name counts. -/
def gistOfAssembly (assembly : Element) : Element :=
  ⟨"assembly", [], (assembly.child? "name").toList.map (.element ·.gistOfTitle)⟩

/-- A member is in a group, or it has no name and so is an error in all of them. -/
def isListed (m : Element) : Bool :=
  (m.attr? "name").isNone || [Group.fields, .methods, .events].any (·.has m)

end Element

mutual

/-- **The gist of an element**: what of it can be seen when it is rendered. -/
def Element.gist : Element → Element
  | ⟨tag, attributes, children⟩ =>
    let e : Element := ⟨tag, attributes, children⟩
    match Kind.of e with
    | .error _ => ⟨tag, [], []⟩
    | .ok .page =>
      ⟨tag, [], (e.child? "assembly").toList.map (.element ·.gistOfAssembly) ++
        gistOfMembers children⟩
    | .ok .sample => ⟨tag, [], [.text e.value]⟩
    | .ok .other => ⟨"", [], []⟩
    | .ok k => ⟨tag, k.keep e, gistOfNodes children⟩

/-- The gist of nodes, in their order. -/
def gistOfNodes : List Node → List Node
  | [] => []
  | .element e :: ns =>
    match Kind.of e with
    | .ok .other => gistOfNodes ns
    | _ => .element e.gist :: gistOfNodes ns
  | .text content :: ns => .text (Text.collapse content) :: gistOfNodes ns
  | .cdata _ :: ns => gistOfNodes ns

/-- The gist of the first `members` among the nodes. -/
def gistOfMembers : List Node → List Node
  | [] => []
  | .element ⟨tag, _, children⟩ :: ns =>
    if tag = "members" then [.element ⟨tag, [], gistOfGroups children⟩] else gistOfMembers ns
  | _ :: ns => gistOfMembers ns

/-- The gist of every `member` among the nodes that is in a group, or has no name. -/
def gistOfGroups : List Node → List Node
  | [] => []
  | .element m :: ns =>
    if m.name = "member" ∧ m.isListed then .element m.gist :: gistOfGroups ns else gistOfGroups ns
  | _ :: ns => gistOfGroups ns

end

/-! ## By kind -/

namespace Element

variable {e : Element} {k : Kind}

theorem gist_of_error {err : LayoutError} (h : Kind.of e = .error err) :
    e.gist = ⟨e.name, [], []⟩ := by
  obtain ⟨tag, attributes, children⟩ := e
  rw [gist, h]

theorem gist_of_page (h : Kind.of e = .ok .page) :
    e.gist = ⟨e.name, [], (e.child? "assembly").toList.map (.element ·.gistOfAssembly) ++
      gistOfMembers e.children⟩ := by
  obtain ⟨tag, attributes, children⟩ := e
  rw [gist, h]

theorem gist_of_sample (h : Kind.of e = .ok .sample) : e.gist = ⟨e.name, [], [.text e.value]⟩ := by
  obtain ⟨tag, attributes, children⟩ := e
  rw [gist, h]

theorem gist_of_other (h : Kind.of e = .ok .other) : e.gist = ⟨"", [], []⟩ := by
  obtain ⟨tag, attributes, children⟩ := e
  rw [gist, h]

theorem gist_of_isFlow (h : Kind.of e = .ok k) (hk : k.isFlow = true) :
    e.gist = ⟨e.name, k.keep e, gistOfNodes e.children⟩ := by
  obtain ⟨tag, attributes, children⟩ := e
  rw [gist, h]
  cases k with
  | page | sample | other => contradiction
  | _ => rfl

/-! ## What elements are asked for

The gist keeps the name of an element that can be seen, and the attribute that its kind prints.
That is enough for it to be of the same kind (`kind_gist`), and to be asked for the same and to have
it. -/

/-- **An attribute that a kind asks for is in the gist.** -/
theorem attr?_gist {key : String} (h : Kind.of e = .ok k) (hkey : k.key? = some key) :
    e.gist.attr? key = e.attr? key := by
  have hflow : k.isFlow = true := by
    cases k with
    | page | sample | other => contradiction
    | _ => rfl
  have hkeep : k.keep e = ((e.attr? key).map (key, ·)).toList := by rw [Kind.keep, hkey]
  rw [gist_of_isFlow h hflow, hkeep]
  rcases hattr : e.attr? key with _ | value
  · rfl
  · exact List.lookup_cons_self

theorem requireAttr_congr {e' : Element} {key : String} (hname : e'.name = e.name)
    (hattr : e'.attr? key = e.attr? key) : e'.requireAttr key = e.requireAttr key := by
  rw [requireAttr, requireAttr, hname, hattr]

theorem requireChild_map {e' : Element} {name : String} {f : Element → Element}
    (hname : e'.name = e.name) (hchild : e'.child? name = (e.child? name).map f) :
    e'.requireChild name = (e.requireChild name).map f := by
  rw [requireChild, requireChild, hname, hchild]
  cases e.child? name <;> rfl

/-- Of an element that is seen, the name is. -/
theorem name_gist (h : Kind.of e ≠ .ok .other) : e.gist.name = e.name := by
  rcases hk : Kind.of e with err | k
  · rw [gist_of_error hk]
  · cases k with
    | other => contradiction
    | page => rw [gist_of_page hk]
    | sample => rw [gist_of_sample hk]
    | _ => rw [gist_of_isFlow hk rfl]

end Element

/-- The kinds of members ask for the name. -/
theorem Kind.key?_of_member {e : Element} {k : Kind} (hname : e.name = "member")
    (h : Kind.of e = .ok k) (hother : k ≠ .other) : k.key? = some "name" := by
  rw [Kind.of, if_pos hname] at h
  rcases hattr : e.requireAttr "name" with err | name
  · rw [hattr] at h
    contradiction
  · rw [hattr] at h
    obtain rfl : ofMemberName name = k := Except.ok.inj h
    rw [ofMemberName] at hother ⊢
    split at hother
    · rfl
    · rfl
    · rfl
    · contradiction

/-- A member without a kind has no name. -/
theorem Kind.attr?_of_error {e : Element} {err : LayoutError} (h : Kind.of e = .error err) :
    e.attr? "name" = none := by
  rw [Kind.of] at h
  split at h
  · rw [Element.requireAttr] at h
    rcases hattr : e.attr? "name" with _ | name
    · rfl
    · rw [hattr] at h
      contradiction
  · contradiction

theorem Kind.of_congr {e e' : Element} (hname : e'.name = e.name)
    (hattr : e.name = "member" → e'.attr? "name" = e.attr? "name") : Kind.of e' = Kind.of e := by
  rw [Kind.of, Kind.of, hname]
  split
  · next hmember => rw [Element.requireAttr_congr hname (hattr hmember)]
  · rfl

namespace Element

variable {e : Element} {k : Kind}

/-- **Of a member that is seen, what it documents is.** -/
theorem attr?_name_gist (hname : e.name = "member") (h : Kind.of e ≠ .ok .other) :
    e.gist.attr? "name" = e.attr? "name" := by
  rcases hk : Kind.of e with err | k
  · rw [gist_of_error hk, Kind.attr?_of_error hk]
    rfl
  · exact attr?_gist hk (Kind.key?_of_member hname hk fun hother => h (hother ▸ hk))

/-- **The gist of an element has its kind.** -/
@[simp] theorem kind_gist (e : Element) : Kind.of e.gist = Kind.of e := by
  by_cases hother : Kind.of e = .ok .other
  · rw [gist_of_other hother, hother]
    rfl
  · exact Kind.of_congr (name_gist hother) fun hname => attr?_name_gist hname hother

end Element

/-! ## Running documentation -/

/-- **Nodes render as their gist does**, if the elements among them do. -/
theorem renderNodes_gistOfNodes {ns : List Node}
    (h : ∀ c, .element c ∈ ns → c.gist.render = c.render) :
    renderNodes (gistOfNodes ns) = renderNodes ns := by
  induction ns with
  | nil => rfl
  | cons n ns ih =>
    have hns := ih fun c hc => h c (List.mem_cons_of_mem n hc)
    cases n with
    | text content =>
      rw [gistOfNodes, renderNodes_cons, renderNodes_cons, hns, Node.render, Node.render,
        Block.ofNode, Block.ofNode, Text.collapse_collapse]
    | cdata content =>
      rw [gistOfNodes, renderNodes_cons, hns]
      exact (empty_followedBy _).symm
    | element c =>
      have hc := h c List.mem_cons_self
      rw [gistOfNodes, renderNodes_cons, Node.render_element]
      split
      · next hother => rw [hns, Element.render_of_other hother, empty_followedBy]
      · rw [renderNodes_cons, Node.render_element, hc, hns]

/-! ## Pages

A page finds its parts by name: the first assembly, the first name in it, and the first list of
members.  Its gist has these and no others. -/

namespace Element

/-- A listed member has no name, or a group that it is in. -/
theorem isListed_iff {m : Element} :
    m.isListed = true ↔ m.attr? "name" = none ∨ ∃ g : Group, g.has m = true := by
  have hgroups : [Group.fields, .methods, .events].any (·.has m) = true ↔
      ∃ g : Group, g.has m = true := by
    rw [List.any_eq_true]
    exact ⟨fun ⟨g, _, h⟩ => ⟨g, h⟩, fun ⟨g, h⟩ => ⟨g, by cases g <;> decide, h⟩⟩
  rw [isListed, Bool.or_eq_true, Option.isNone_iff_eq_none, hgroups]

/-- A listed member is seen. -/
theorem kind_ne_other_of_isListed {m : Element} (hname : m.name = "member")
    (h : m.isListed = true) : Kind.of m ≠ .ok .other := by
  intro hother
  rcases isListed_iff.mp h with hnone | ⟨g, hg⟩
  · rw [Kind.of, if_pos hname, requireAttr, hnone] at hother
    contradiction
  · rw [Group.kind_of_has hname hg] at hother
    cases g <;> contradiction

end Element

/-- A member that is listed is passed as its gist is. -/
theorem renderMembers_cons_gist (g : Group) {m : Element} (ms : List Element)
    (hname : m.name = "member") (hlisted : m.isListed = true)
    (h : g.has m = true → m.gist.render = m.render) :
    renderMembers g (m.gist :: ms) = renderMembers g (m :: ms) := by
  have hseen := Element.kind_ne_other_of_isListed hname hlisted
  rw [renderMembers_cons, renderMembers_cons, Element.requireAttr_congr (Element.name_gist hseen)
    (Element.attr?_name_gist hname hseen)]
  rcases hask : m.requireAttr "name" with err | name
  · rfl
  · rw [Except.ok_bind, Except.ok_bind]
    split
    · next hg => rw [h (Group.has_iff.mpr ⟨name, Element.requireAttr_eq_ok_iff.mp hask, hg⟩)]
    · rfl

/-- A member that is not listed is passed over. -/
theorem renderMembers_cons_of_not_isListed (g : Group) {m : Element} (ms : List Element)
    (h : m.isListed ≠ true) : renderMembers g (m :: ms) = renderMembers g ms := by
  obtain ⟨hnone, hgroups⟩ := not_or.mp (mt Element.isListed_iff.mpr h)
  obtain ⟨name, hname⟩ := Option.ne_none_iff_exists'.mp hnone
  exact renderMembers_cons_of_not_holds ms hname fun hg =>
    hgroups ⟨g, Group.has_iff.mpr ⟨name, hname, hg⟩⟩

/-- **A pass over members sees the gist of what is listed.** -/
theorem renderMembers_gistOfGroups (g : Group) {ns : List Node}
    (h : ∀ m, .element m ∈ ns → m.name = "member" → g.has m = true → m.gist.render = m.render) :
    renderMembers g (((gistOfGroups ns).filterMap Node.element?).filter (·.name == "member"))
      = renderMembers g ((ns.filterMap Node.element?).filter (·.name == "member")) := by
  induction ns with
  | nil => rfl
  | cons n ns ih =>
    have hns := ih fun m hm => h m (List.mem_cons_of_mem n hm)
    cases n with
    | text content | cdata content => exact hns
    | element m =>
      rw [gistOfGroups, filterMap_element?_cons]
      by_cases hname : m.name = "member"
      · rw [List.filter_cons_of_pos (by simpa using hname)]
        by_cases hlisted : m.isListed = true
        · have hseen := Element.kind_ne_other_of_isListed hname hlisted
          have hgist : m.gist.name = "member" := (Element.name_gist hseen).trans hname
          rw [if_pos ⟨hname, hlisted⟩, filterMap_element?_cons,
            List.filter_cons_of_pos (by simpa using hgist),
            renderMembers_cons_gist g _ hname hlisted (h m List.mem_cons_self hname),
            renderMembers_cons, renderMembers_cons, hns]
        · rw [if_neg fun hm => hlisted hm.2, renderMembers_cons_of_not_isListed g _ hlisted, hns]
      · rw [List.filter_cons_of_neg (by simpa using hname), if_neg fun hm => hname hm.1, hns]

namespace Element

/-- The first members of a page, as far as they are listed. -/
def gistOfListing (ms : Element) : Element :=
  ⟨"members", [], gistOfGroups ms.children⟩

theorem gistOfMembers_eq (e : Element) :
    gistOfMembers e.children = (e.child? "members").toList.map (.element ·.gistOfListing) := by
  rw [child?, childrenNamed, childElements]
  induction e.children with
  | nil => rfl
  | cons n ns ih =>
    cases n with
    | element ms =>
      obtain ⟨tag, attributes, children⟩ := ms
      rw [gistOfMembers, filterMap_element?_cons]
      by_cases htag : tag = "members"
      · rw [if_pos htag, List.filter_cons_of_pos (by simpa using htag), htag]
        rfl
      · rw [if_neg htag, List.filter_cons_of_neg (by simpa using htag), ih]
    | _ => exact ih

theorem child?_gistOfAssembly (assembly : Element) :
    assembly.gistOfAssembly.child? "name" = (assembly.child? "name").map gistOfTitle := by
  rw [gistOfAssembly]
  cases assembly.child? "name" <;> rfl

theorem child?_gist_of_page {e : Element} (h : Kind.of e = .ok .page) :
    e.gist.child? "assembly" = (e.child? "assembly").map gistOfAssembly ∧
      e.gist.child? "members" = (e.child? "members").map gistOfListing := by
  rw [gist_of_page h, gistOfMembers_eq]
  cases e.child? "assembly" <;> cases e.child? "members" <;> exact ⟨rfl, rfl⟩

/-- A page passes over what is listed, if the gist of its members renders as they do. -/
theorem renderMembers_gistOfListing {e ms : Element} (h : Kind.of e = .ok .page)
    (hms : e.child? "members" = some ms)
    (hmembers : ∀ p m, Lays e p m → m.gist.render = m.render) (g : Group) :
    renderMembers g (ms.gistOfListing.childrenNamed "member")
      = renderMembers g (ms.childrenNamed "member") := by
  refine renderMembers_gistOfGroups g fun m hm hmember hg => ?_
  have hmem : m ∈ e.members := by
    rw [members, hms]
    exact mem_childrenNamed.mpr ⟨hm, hmember⟩
  obtain ⟨p, hlays⟩ := exists_lays_iff.mpr (.inr ⟨h, hmem, g, Group.has_iff.mp hg⟩)
  exact hmembers p m hlays

/-- **A page renders as its gist does**, if its members do. -/
theorem render_gist_of_page {e : Element} (h : Kind.of e = .ok .page)
    (hmembers : ∀ p m, Lays e p m → m.gist.render = m.render) : e.gist.render = e.render := by
  obtain ⟨hassembly, hlisting⟩ := child?_gist_of_page h
  have hname : e.gist.name = e.name := name_gist (by simp [h])
  rw [render_of_page h, render_of_page ((kind_gist e).trans h), requireChild_map hname hassembly,
    requireChild_map hname hlisting, Except.bind_map]
  rcases hfirst : e.requireChild "assembly" with err | assembly
  · rfl
  have hcalled : assembly.gistOfAssembly.name = assembly.name := by
    obtain ⟨-, -, -, hcalled, -⟩ := child?_eq_some_iff.mp (requireChild_eq_ok_iff.mp hfirst)
    exact hcalled.symm
  rw [Except.ok_bind, Except.ok_bind, requireChild_map hcalled (child?_gistOfAssembly assembly),
    Except.bind_map]
  refine bind_congr fun title => ?_
  rw [Except.bind_map]
  rcases hms : e.requireChild "members" with err | ms
  · rfl
  have htitle : title.gistOfTitle.value = title.value := String.append_empty
  have hpass := renderMembers_gistOfListing h (requireChild_eq_ok_iff.mp hms) hmembers
  rw [Except.ok_bind, Except.ok_bind, htitle, funext hpass]

/-- What is printed with the children is in the gist. -/
theorem value_gist {e : Element} {k : Kind} (h : Kind.of e = .ok k) (hk : k.isFlow = true) :
    k.value e.gist = k.value e := by
  have hname : e.gist.name = e.name := by rw [gist_of_isFlow h hk]
  rw [Kind.value, Kind.value]
  split
  · next hkey => exact requireAttr_congr hname (attr?_gist h hkey)
  · rfl

/-- **An element renders as its gist does.** -/
theorem render_gist (e : Element) : e.gist.render = e.render := by
  induction e using Lays.induction with
  | step e ih =>
    have hkind := kind_gist e
    rcases hk : Kind.of e with err | k
    · rw [render_of_error hk, render_of_error (hkind.trans hk)]
    by_cases hflow : k.isFlow = true
    · have hchildren : renderNodes e.gist.children = renderNodes e.children := by
        rw [gist_of_isFlow hk hflow]
        refine renderNodes_gistOfNodes fun c hc => ?_
        obtain ⟨p, hlays⟩ := exists_lays_iff.mpr
          (.inl ⟨k, hk, hflow, mem_childElements.mpr hc⟩)
        exact ih p c hlays
      rw [render_of_isFlow hk hflow, render_of_isFlow (hkind.trans hk) hflow,
        value_gist hk hflow, hchildren]
    · cases k with
      | page => exact render_gist_of_page hk ih
      | sample =>
        have hvalue : e.gist.value = e.value := by
          rw [gist_of_sample hk]
          exact String.append_empty
        rw [render_of_sample hk, render_of_sample (hkind.trans hk), hvalue]
      | other => rw [render_of_other hk, render_of_other (hkind.trans hk)]
      | _ => contradiction

end Element

/-- **What is dropped cannot be seen on the page.**  Trees of one gist render to the same page, or
fail with the same error. -/
theorem render_of_gist {t u : Element} (h : t.gist = u.gist) : t.render = u.render := by
  rw [← t.render_gist, ← u.render_gist, h]

/-- A page with much that cannot be seen: among it an unknown element over a broken one, and a
broken member of no group. -/
def clutteredPage : Element :=
  ⟨"doc", [("lang", "en")],
    [.cdata "x",
      .element ⟨"assembly", [], [.element ⟨"name", [], [.text "A", .cdata "<"]⟩,
        .element ⟨"name", [], [.text "B"]⟩]⟩,
      .element ⟨"assembly", [], []⟩,
      .element ⟨"members", [],
        [.element ⟨"member", [("id", "1"), ("name", "F:a"), ("name", "M:b")],
          [.text " u \n\tv", .cdata "w", .element ⟨"c", [], [.element ⟨"see", [], []⟩]⟩]⟩,
        .element ⟨"member", [("name", "T:a")], [.element ⟨"see", [], []⟩]⟩]⟩,
      .element ⟨"members", [], [.element ⟨"member", [], []⟩]⟩]⟩

/-- The same page with nothing else in it. -/
def sparePage : Element :=
  ⟨"doc", [],
    [.element ⟨"assembly", [], [.element ⟨"name", [], [.text "A<"]⟩]⟩,
      .element ⟨"members", [], [.element ⟨"member", [("name", "F:a")], [.text " u v"]⟩]⟩]⟩

theorem render_of_gist_clutteredPage :
    clutteredPage.gist = sparePage.gist ∧ clutteredPage.render = sparePage.render := by
  have h : clutteredPage.gist = sparePage.gist := rfl
  exact ⟨h, render_of_gist h⟩

end DocMarkdown
