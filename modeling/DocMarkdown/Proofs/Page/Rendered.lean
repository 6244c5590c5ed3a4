import DocMarkdown.Page.Layout
import DocMarkdown.Proofs.Page.Render

/-!
# Proofs/Page/Rendered — which elements are rendered

Layout goes down from an element to the elements that it lays out in turn: to all child elements,
where it stands for running documentation; to the members of its groups, where it is a page; to
nothing else (`Lays`).  The elements of a tree that are **rendered** are those it comes to
(`Rendered`), each at its place: a list of numbers, which child to take at every level.
-/

namespace DocMarkdown

/-! ## Look-ups, by position

A look-up takes the first of several, and to a proof it matters where that one stands: the children
are a front, in which no element has the name, the child, and what is behind. -/

namespace Element

theorem mem_childElements {e c : Element} : c ∈ e.childElements ↔ .element c ∈ e.children := by
  rw [childElements, List.mem_filterMap]
  constructor
  · rintro ⟨n, hn, hc⟩
    cases n with
    | element d =>
      obtain rfl : d = c := Option.some.inj hc
      exact hn
    | text t | cdata t => contradiction
  · intro hc
    exact ⟨.element c, hc, rfl⟩

theorem mem_childrenNamed {e c : Element} {name : String} :
    c ∈ e.childrenNamed name ↔ .element c ∈ e.children ∧ c.name = name := by
  rw [childrenNamed, List.mem_filter, mem_childElements, beq_iff_eq]

/-- The node is the first in a list that is an element with a name. -/
def IsFirst (name : String) (c : Element) (ns : List Node) : Prop :=
  ∃ front behind, ns = front ++ .element c :: behind ∧ c.name = name ∧
    ∀ d, .element d ∈ front → d.name ≠ name

theorem isFirst_cons_self {c d : Element} {ns : List Node} {name : String} (h : d.name = name) :
    IsFirst name c (.element d :: ns) ↔ d = c := by
  constructor
  · rintro ⟨front, behind, heq, -, hfront⟩
    rcases front with _ | ⟨n, front⟩
    · exact Node.element.inj (List.cons.inj heq).1
    · have hd : .element d ∈ n :: front := List.mem_cons.mpr (Or.inl (List.cons.inj heq).1)
      exact absurd h (hfront d hd)
  · rintro rfl
    exact ⟨[], ns, rfl, h, by simp⟩

theorem isFirst_cons_of_ne {c : Element} {n : Node} {ns : List Node} {name : String}
    (h : ∀ d, n = .element d → d.name ≠ name) : IsFirst name c (n :: ns) ↔ IsFirst name c ns := by
  constructor
  · rintro ⟨front, behind, heq, hc, hfront⟩
    rcases front with _ | ⟨m, front⟩
    · exact absurd hc (h c (List.cons.inj heq).1)
    · exact ⟨front, behind, (List.cons.inj heq).2, hc,
        fun d hd => hfront d (List.mem_cons_of_mem m hd)⟩
  · rintro ⟨front, behind, rfl, hc, hfront⟩
    refine ⟨n :: front, behind, rfl, hc, fun d hd => ?_⟩
    rcases List.mem_cons.mp hd with hn | hd
    · exact h d hn.symm
    · exact hfront d hd

/-- **The first child with a name** is the one that has none of that name before it. -/
theorem child?_eq_some_iff {e c : Element} {name : String} :
    e.child? name = some c ↔ IsFirst name c e.children := by
  rw [child?, childrenNamed, childElements, List.head?_filter]
  induction e.children with
  | nil => simp [IsFirst]
  | cons n ns ih =>
    cases n with
    | element d =>
      rw [filterMap_element?_cons, List.find?_cons]
      by_cases hd : d.name = name
      · rw [isFirst_cons_self hd, beq_iff_eq.mpr hd]
        exact Option.some_inj
      · rw [isFirst_cons_of_ne (by rintro d' ⟨⟩; exact hd), beq_eq_false_iff_ne.mpr hd]
        exact ih
    | text t | cdata t =>
      rw [isFirst_cons_of_ne fun d hd => by contradiction]
      exact ih

end Element

/-! ## The descent of the layout

A place is a list of positions, one for each level.  The members of a page lie two levels below it,
in the first `members`, and a page lays out nothing else. -/

/-- **An element lays another out**, at a place within it. -/
inductive Lays : Element → List Nat → Element → Prop
  | child {e c : Element} {k : Kind} {front behind : List Node} : Kind.of e = .ok k →
      k.isFlow = true → e.children = front ++ .element c :: behind → Lays e [front.length] c
  | member {e ms m : Element} {front behind before after : List Node} {g : Group}
      {name : String} : Kind.of e = .ok .page → e.children = front ++ .element ms :: behind →
      ms.name = "members" → (∀ d, .element d ∈ front → d.name ≠ "members") →
      ms.children = before ++ .element m :: after → m.name = "member" →
      m.attr? "name" = some name → g.holds name = true →
      Lays e [front.length, before.length] m

/-- **The elements that are rendered**, and their places. -/
inductive Rendered : Element → List Nat → Element → Prop
  | root {e : Element} : Rendered e [] e
  | within {e c d : Element} {p q : List Nat} : Lays e p c → Rendered c q d → Rendered e (p ++ q) d

namespace Element

/-- The members of a documentation file: those of its first `members`. -/
def members (e : Element) : List Element :=
  match e.child? "members" with
  | some ms => ms.childrenNamed "member"
  | none => []

theorem sizeOf_lt_of_children {e c : Element} {front behind : List Node}
    (h : e.children = front ++ .element c :: behind) : sizeOf c < sizeOf e := by
  have hmem : .element c ∈ e.children := by
    rw [h]
    exact List.mem_append_right front List.mem_cons_self
  have hlt := List.sizeOf_lt_of_mem hmem
  obtain ⟨name, attributes, children⟩ := e
  simp only [Node.element.sizeOf_spec, Element.mk.sizeOf_spec] at hlt ⊢
  omega

end Element

/-- **What is laid out is smaller** than what it is laid out in. -/
theorem Lays.sizeOf_lt {e c : Element} {p : List Nat} (h : Lays e p c) : sizeOf c < sizeOf e := by
  cases h with
  | child hk hflow hc => exact Element.sizeOf_lt_of_children hc
  | member hk hms hname hfirst hm hmember hattr hg =>
    exact Nat.lt_trans (Element.sizeOf_lt_of_children hm) (Element.sizeOf_lt_of_children hms)

/-- The elements that one lays out, wherever they stand in it. -/
theorem exists_lays_iff {e c : Element} :
    (∃ p, Lays e p c) ↔
      (∃ k, Kind.of e = .ok k ∧ k.isFlow = true ∧ c ∈ e.childElements) ∨
        (Kind.of e = .ok .page ∧ c ∈ e.members ∧
          ∃ g : Group, ∃ name, c.attr? "name" = some name ∧ g.holds name = true) := by
  constructor
  · rintro ⟨p, hlays⟩
    cases hlays with
    | child hk hflow hc =>
      refine Or.inl ⟨_, hk, hflow, Element.mem_childElements.mpr ?_⟩
      rw [hc]
      simp
    | member hk hms hname hfirst hm hmember hattr hg =>
      refine Or.inr ⟨hk, ?_, _, _, hattr, hg⟩
      have hchild := Element.child?_eq_some_iff.mpr ⟨_, _, hms, hname, hfirst⟩
      rw [Element.members, hchild]
      refine Element.mem_childrenNamed.mpr ⟨?_, hmember⟩
      rw [hm]
      simp
  · rintro (⟨k, hk, hflow, hc⟩ | ⟨hk, hc, g, name, hattr, hg⟩)
    · obtain ⟨front, behind, hchildren⟩ := List.append_of_mem (Element.mem_childElements.mp hc)
      exact ⟨_, .child hk hflow hchildren⟩
    · rw [Element.members] at hc
      rcases hms : e.child? "members" with _ | ms
      · simp [hms] at hc
      · rw [hms] at hc
        obtain ⟨hmem, hmember⟩ := Element.mem_childrenNamed.mp hc
        obtain ⟨front, behind, hchildren, hname, hfirst⟩ := Element.child?_eq_some_iff.mp hms
        obtain ⟨before, after, hm⟩ := List.append_of_mem hmem
        exact ⟨_, .member hk hchildren hname hfirst hm hmember hattr hg⟩

/-- **Induction along the layout**: what holds of an element if it holds of all that it lays out,
holds of every element. -/
theorem Lays.induction {motive : Element → Prop}
    (step : ∀ e, (∀ p c, Lays e p c → motive c) → motive e) (e : Element) : motive e :=
  step e fun _ c _hlays => Lays.induction step c
termination_by sizeOf e
decreasing_by exact _hlays.sizeOf_lt

end DocMarkdown
