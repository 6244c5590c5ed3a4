import DocMarkdown.Page.Layout
import DocMarkdown.Proofs.Foundations

/-!
# Proofs/Page/Render — what each kind of element renders to

Layout goes through blocks; here is what comes of it in the end, one equation for each kind.  The
kinds that stand for a piece of running documentation all do the same with their own words: they
ask for one value at most, and put their children between two strings (`render_of_isFlow`).  A page
asks for two children and goes through its members three times (`render_of_page`).
-/

namespace DocMarkdown

/-! ## Kinds that hold running documentation

Nine kinds are laid out in one way.  What sets them apart is said by three functions: which
attribute is printed, and what stands before the children and behind them. -/

namespace Kind

/-- The kinds whose children are laid out, all of them and in order. -/
def isFlow : Kind → Bool
  | field | method | event | summary | remarks | link | parameter | exception | returns => true
  | page | sample | other => false

/-- The attribute that is printed with the children. -/
def key? : Kind → Option String
  | field | method | event | parameter => some "name"
  | link | exception => some "cref"
  | _ => none

/-- The value of that attribute, which the element needs. -/
def value (k : Kind) (e : Element) : Except LayoutError String :=
  match k.key? with
  | some key => e.requireAttr key
  | none => .ok ""

/-- The block that holds the blocks of the children. -/
def wrap (k : Kind) (value : String) (body : List Block) : Block :=
  match k with
  | field | method | event => .entry value body
  | summary => .summary body
  | remarks => .remarks body
  | link => .link value body
  | parameter => .parameter value body
  | exception => .exception value body
  | returns => .returns body
  | _ => .nothing

/-- What is printed before the children. -/
def before (k : Kind) (value : String) : String :=
  match k with
  | field | method | event => "### " ++ value ++ "\n\n"
  | remarks => "**remarks**\n\n"
  | link => "["
  | parameter | exception => "_" ++ value ++ "_: "
  | returns => "Returns: "
  | _ => ""

/-- What is printed behind them. -/
def behind (k : Kind) (value : String) : String :=
  match k with
  | link => "](" ++ value ++ ")"
  | parameter => ""
  | _ => "\n\n"

/-- **What a block holds stands in one piece**, between two strings. -/
theorem markdown_wrap {k : Kind} (hk : k.isFlow = true) (value : String) (body : List Block) :
    (k.wrap value body).markdown
      = k.before value ++ markdownOfBlocks body ++ k.behind value := by
  cases k with
  | page | sample | other => contradiction
  | summary => exact congrArg (· ++ "\n\n") String.empty_append.symm
  | link => exact (String.append_assoc ..).trans (String.append_assoc ..)
  | parameter => exact String.append_empty.symm
  | _ => rfl

end Kind

/-! ## Results in turn

Layout makes blocks first and prints them at the end.  To print each block as soon as it is there,
printing is moved past what may fail (`Except.map_bind`, `Except.bind_map`); what is left between
two results is their order (`followedBy`). -/

/-- One result and another behind it; the first error counts. -/
def followedBy (x y : Except LayoutError String) : Except LayoutError String := do
  let s ← x
  let rest ← y
  return s ++ rest

theorem followedBy_eq_ok_iff {x y : Except LayoutError String} {out : String} :
    followedBy x y = .ok out ↔ ∃ s rest, x = .ok s ∧ y = .ok rest ∧ s ++ rest = out := by
  constructor
  · intro h
    obtain ⟨s, hx, h⟩ := Except.exists_of_bind_eq_ok h
    obtain ⟨rest, hy, h⟩ := Except.exists_of_bind_eq_ok h
    exact ⟨s, rest, hx, hy, Except.ok.inj h⟩
  · rintro ⟨s, rest, rfl, rfl, rfl⟩
    rfl

@[simp] theorem empty_followedBy (y : Except LayoutError String) :
    followedBy (.ok "") y = y := by
  rcases y with err | rest
  · rfl
  · exact congrArg Except.ok String.empty_append

theorem followedBy_assoc (x y z : Except LayoutError String) :
    followedBy (followedBy x y) z = followedBy x (followedBy y z) := by
  rcases x with err | s
  · rfl
  rcases y with err | t
  · rfl
  rcases z with err | u
  · rfl
  exact congrArg Except.ok (String.append_assoc ..)

/-! ## Nodes -/

@[simp] theorem renderNodes_nil : renderNodes [] = .ok "" := rfl

theorem renderNodes_cons (n : Node) (ns : List Node) :
    renderNodes (n :: ns) = followedBy n.render (renderNodes ns) := by
  rw [renderNodes, renderNodes, Node.render, blocksOfNodes, followedBy]
  simp only [Except.map_bind, Except.bind_map]
  rfl

theorem renderNodes_append (ns ms : List Node) :
    renderNodes (ns ++ ms) = followedBy (renderNodes ns) (renderNodes ms) := by
  induction ns with
  | nil => rw [List.nil_append, renderNodes_nil, empty_followedBy]
  | cons n ns ih => rw [List.cons_append, renderNodes_cons, ih, renderNodes_cons, followedBy_assoc]

theorem Node.render_element (e : Element) : (Node.element e).render = e.render := by
  rw [Node.render, Element.render, Block.ofNode]

theorem filterMap_element?_cons (e : Element) (ns : List Node) :
    (Node.element e :: ns).filterMap Node.element? = e :: ns.filterMap Node.element? := rfl

/-! ## Members

The layout picks members out from among nodes.  A pass is over a list of members, and like the
layout it asks each of them for its name before it looks whether to lay it out. -/

/-- The Markdown of a group, of all members in their order. -/
def renderMembers (g : Group) : List Element → Except LayoutError String
  | [] => .ok ""
  | m :: ms => do
    if g.holds (← m.requireAttr "name") then followedBy m.render (renderMembers g ms)
    else renderMembers g ms

theorem renderMembers_cons (g : Group) (m : Element) (ms : List Element) :
    renderMembers g (m :: ms) = (do
      if g.holds (← m.requireAttr "name") then followedBy m.render (renderMembers g ms)
      else renderMembers g ms) := rfl

/-- A member of the group stands before the others. -/
theorem renderMembers_cons_of_holds {g : Group} {m : Element} {name : String} (ms : List Element)
    (h : m.attr? "name" = some name) (hg : g.holds name = true) :
    renderMembers g (m :: ms) = followedBy m.render (renderMembers g ms) := by
  rw [renderMembers_cons, Element.requireAttr, h]
  exact if_pos hg

/-- A member of another group is passed over, once its name is known. -/
theorem renderMembers_cons_of_not_holds {g : Group} {m : Element} {name : String}
    (ms : List Element) (h : m.attr? "name" = some name) (hg : ¬ g.holds name = true) :
    renderMembers g (m :: ms) = renderMembers g ms := by
  rw [renderMembers_cons, Element.requireAttr, h]
  exact if_neg hg

theorem renderMembers_append (g : Group) (ms ns : List Element) :
    renderMembers g (ms ++ ns) = followedBy (renderMembers g ms) (renderMembers g ns) := by
  induction ms with
  | nil => exact (empty_followedBy (renderMembers g ns)).symm
  | cons m ms ih =>
    rw [List.cons_append, renderMembers_cons, renderMembers_cons, ih]
    rcases m.requireAttr "name" with err | name
    · rfl
    · rw [Except.ok_bind, Except.ok_bind]
      split
      · exact (followedBy_assoc ..).symm
      · rfl

/-- The blocks of a group are those of the members, whatever stands between them. -/
theorem map_blocksOfGroup (g : Group) (ns : List Node) :
    (blocksOfGroup g ns).map markdownOfBlocks
      = renderMembers g ((ns.filterMap Node.element?).filter (·.name == "member")) := by
  induction ns with
  | nil => rfl
  | cons n ns ih =>
    cases n with
    | element m =>
      rw [blocksOfGroup, filterMap_element?_cons]
      by_cases hm : m.name = "member"
      · rw [if_pos hm, List.filter_cons_of_pos (by simpa using hm), renderMembers_cons, ← ih,
          Element.render, Except.map_bind]
        refine bind_congr fun name => ?_
        split
        · rw [followedBy]
          simp only [Except.map_bind, Except.bind_map]
          rfl
        · rfl
      · rw [if_neg hm, List.filter_cons_of_neg (by simpa using hm), ih]
    | _ => exact ih

/-- The members are those of the first `members` among the children. -/
theorem map_blocksOfMembers (g : Group) (e : Element) :
    (blocksOfMembers g e.children).map markdownOfBlocks
      = match e.child? "members" with
        | some ms => renderMembers g (ms.childrenNamed "member")
        | none => .ok "" := by
  rw [Element.child?, Element.childrenNamed, Element.childElements]
  induction e.children with
  | nil => rfl
  | cons n ns ih =>
    cases n with
    | element ms =>
      obtain ⟨tag, attributes, children⟩ := ms
      rw [blocksOfMembers, filterMap_element?_cons]
      by_cases htag : tag = "members"
      · rw [if_pos htag, List.filter_cons_of_pos (by simpa using htag)]
        exact map_blocksOfGroup g children
      · rw [if_neg htag, List.filter_cons_of_neg (by simpa using htag), ih]
    | _ => exact ih

/-! ## Elements -/

/-- The Markdown of a page, from its title and that of its groups. -/
def pageText (title fields methods events : String) : String :=
  "## " ++ title ++ " ##\n\n## Fields\n\n" ++ fields ++ "\n\n## Methods\n\n" ++ methods ++
    "\n\n## Events\n\n" ++ events ++ "\n\n"

/-- A page from its title and one pass for each group. -/
def renderPage (title : String) (pass : Group → Except LayoutError String) :
    Except LayoutError String := do
  let fields ← pass .fields
  let methods ← pass .methods
  let events ← pass .events
  return pageText title fields methods events

/-- A page renders when each of its passes does. -/
theorem renderPage_eq_ok_iff {title out : String} {pass : Group → Except LayoutError String} :
    renderPage title pass = .ok out ↔ ∃ text : Group → String, (∀ g, pass g = .ok (text g)) ∧
      out = pageText title (text .fields) (text .methods) (text .events) := by
  constructor
  · intro h
    obtain ⟨fields, hfields, h⟩ := Except.exists_of_bind_eq_ok h
    obtain ⟨methods, hmethods, h⟩ := Except.exists_of_bind_eq_ok h
    obtain ⟨events, hevents, h⟩ := Except.exists_of_bind_eq_ok h
    let text : Group → String := fun g => g.casesOn fields methods events
    have htext : ∀ g, pass g = .ok (text g) := by
      intro g
      cases g <;> assumption
    exact ⟨text, htext, (Except.ok.inj h).symm⟩
  · rintro ⟨text, htext, rfl⟩
    rw [renderPage, htext, htext, htext]
    rfl

namespace Element

variable {e : Element} {k : Kind}

theorem requireAttr_eq_ok_iff {key value : String} :
    e.requireAttr key = .ok value ↔ e.attr? key = some value := by
  rw [requireAttr]
  rcases e.attr? key with _ | v <;> simp

theorem requireChild_eq_ok_iff {c : Element} {name : String} :
    e.requireChild name = .ok c ↔ e.child? name = some c := by
  rw [requireChild]
  rcases e.child? name with _ | d <;> simp

/-- **An element of running documentation** is its children between two strings. -/
theorem render_of_isFlow (h : Kind.of e = .ok k) (hk : k.isFlow = true) :
    e.render = do
      let value ← k.value e
      let body ← renderNodes e.children
      return k.before value ++ body ++ k.behind value := by
  have hblock : Block.ofElement e = do
      let value ← k.value e
      return k.wrap value (← blocksOfNodes e.children) := by
    obtain ⟨tag, attributes, children⟩ := e
    rw [Block.ofElement, h]
    cases k with
    | page | sample | other => contradiction
    | _ => rfl
  rw [render, hblock, renderNodes, Except.map_bind]
  refine bind_congr fun value => ?_
  rw [Except.map_bind, Except.bind_map]
  exact bind_congr fun body => congrArg Except.ok (Kind.markdown_wrap hk value body)

/-- A code sample renders, whatever it holds. -/
theorem render_of_sample (h : Kind.of e = .ok .sample) :
    e.render = .ok ("**example**\n\n" ++ Text.dedent e.value ++ "\n\n") := by
  obtain ⟨tag, attributes, children⟩ := e
  rw [render, Block.ofElement, h]
  rfl

/-- What has no place on the page renders to nothing, whatever it holds. -/
theorem render_of_other (h : Kind.of e = .ok .other) : e.render = .ok "" := by
  obtain ⟨tag, attributes, children⟩ := e
  rw [render, Block.ofElement, h]
  rfl

/-- A member without a name does not render. -/
theorem render_of_error {err : LayoutError} (h : Kind.of e = .error err) :
    e.render = .error err := by
  obtain ⟨tag, attributes, children⟩ := e
  rw [render, Block.ofElement, h]
  rfl

/-- **A page** is the title and three passes over the members. -/
theorem render_of_page (h : Kind.of e = .ok .page) :
    e.render = (do
      let assembly ← e.requireChild "assembly"
      let title ← assembly.requireChild "name"
      let members ← e.requireChild "members"
      renderPage title.value (renderMembers · (members.childrenNamed "member"))) := by
  have hblock : Block.ofElement e = do
      let assembly ← e.requireChild "assembly"
      let title ← assembly.requireChild "name"
      let _ ← e.requireChild "members"
      let fields ← blocksOfMembers .fields e.children
      let methods ← blocksOfMembers .methods e.children
      let events ← blocksOfMembers .events e.children
      return .page title.value fields methods events := by
    obtain ⟨tag, attributes, children⟩ := e
    rw [Block.ofElement, h]
    rfl
  rw [render, hblock]
  simp only [Except.map_bind]
  refine bind_congr fun assembly => bind_congr fun title => ?_
  rcases hms : e.requireChild "members" with err | ms
  · rfl
  · -- all three passes go over the members of this child
    have hpass := fun g => map_blocksOfMembers g e
    rw [requireChild_eq_ok_iff.mp hms] at hpass
    simp only [Except.ok_bind, renderPage, ← hpass, Except.bind_map]
    rfl

end Element

end DocMarkdown
