import DocMarkdown.Proofs.Page.Rendered
import Mathlib.Tactic.MkIffOfInductiveProp

/-!
# Proofs/Page/Demand — what can be missing, and what is missed first

An element **demands** attributes and children before it is rendered, and so does every element
that it lays out.  In the order in which they are asked for, they make one list (`demands`), and
rendering fails with the first of them that is not met; so a tree renders when every rendered
element is complete (`render_of_demands`).
-/

namespace DocMarkdown

/-! ## Demands

What an element needs goes by its name and not by its kind.  The kind of a member is told by an
attribute, so a member that lacks it has no kind, and yet must be said to lack it. -/

/-- **What an element needs**: an attribute, or a child. -/
inductive Demand where
  | attr (e : Element) (key : String)
  | child (e : Element) (name : String)

/-- What is said when the demand is not met. -/
def Demand.failure? : Demand → Option LayoutError
  | attr e key =>
    if (e.attr? key).isSome then none else some (.missingAttribute e.name key)
  | child e name =>
    if (e.child? name).isSome then none else some (.missingChild e.name name)

@[simp] theorem Demand.failure?_attr_eq_none_iff {e : Element} {key : String} :
    (attr e key).failure? = none ↔ (e.attr? key).isSome := by
  rw [failure?]
  split <;> simp_all

@[simp] theorem Demand.failure?_child_eq_none_iff {e : Element} {name : String} :
    (child e name).failure? = none ↔ (e.child? name).isSome := by
  rw [failure?]
  split <;> simp_all

namespace Element

/-- **What an element needs itself**, by its name: it is asked for before anything within. -/
def needs (e : Element) : List Demand :=
  match e.name with
  | "member" | "field" | "method" | "event" | "param" => [.attr e "name"]
  | "see" | "exception" => [.attr e "cref"]
  | "doc" =>
    .child e "assembly" :: ((e.child? "assembly").toList.map (.child · "name") ++
      [.child e "members"])
  | _ => []

/-- All that is needed of an element: a documentation file needs a name of every member, whatever
its group. -/
def requirements (e : Element) : List Demand :=
  e.needs ++ if e.name = "doc" then e.members.map (.attr · "name") else []

/-- **Nothing is missing in an element.** -/
@[mk_iff] structure Complete (e : Element) : Prop where
  name : e.name ∈ ["member", "field", "method", "event", "param"] → (e.attr? "name").isSome
  cref : e.name ∈ ["see", "exception"] → (e.attr? "cref").isSome
  assembly : e.name = "doc" → ∃ assembly, e.child? "assembly" = some assembly ∧
    (assembly.child? "name").isSome
  members : e.name = "doc" → ∃ members, e.child? "members" = some members ∧
    ∀ m ∈ members.childrenNamed "member", (m.attr? "name").isSome

/-- An element is complete when it has all that is needed of it. -/
theorem complete_iff_requirements {e : Element} :
    e.Complete ↔ ∀ d ∈ e.requirements, d.failure? = none := by
  rw [complete_iff, requirements, needs]
  split
  case h_8 hname =>
    cases hassembly : e.child? "assembly" <;> cases hmembers : e.child? "members" <;>
      simp [hname, members, hassembly, hmembers]
  case h_9 => simp_all
  all_goals next hname => simp [hname]

end Element

/-! ## The order in which is asked

A page asks every member for its name in each of three passes, and lays out the members of one group
in between.  So demands come more than once in the list, and a member further on may be asked for
its name before one in front is laid out.  That does no harm: all that counts is the first demand
that is not met. -/

/-- **A task of the layout**: something is asked for, or an element is laid out. -/
inductive Task where
  | need (d : Demand)
  | visit (e : Element)

/-- The tasks of one pass over the members: every name is asked for, and the members of the group
are laid out. -/
def Group.agenda (g : Group) (ms : List Element) : List Task :=
  ms.flatMap fun m => .need (.attr m "name") ::
    if (m.attr? "name").any g.holds then [.visit m] else []

theorem Group.visit_mem_agenda_iff {g : Group} {ms : List Element} {c : Element} :
    .visit c ∈ g.agenda ms ↔ c ∈ ms ∧ ∃ name, c.attr? "name" = some name ∧ g.holds name = true := by
  rw [agenda, List.mem_flatMap]
  constructor
  · rintro ⟨m, hm, hvisit⟩
    split at hvisit
    · next hg =>
      obtain rfl : c = m := by simpa using hvisit
      exact ⟨hm, (Option.any_eq_true _ _).mp hg⟩
    · simp at hvisit
  · rintro ⟨hc, hg⟩
    refine ⟨c, hc, ?_⟩
    rw [if_pos ((Option.any_eq_true _ _).mpr hg)]
    simp

theorem Group.need_mem_agenda_iff {g : Group} {ms : List Element} {d : Demand} :
    .need d ∈ g.agenda ms ↔ ∃ m ∈ ms, .attr m "name" = d := by
  rw [agenda, List.mem_flatMap]
  refine exists_congr fun m => and_congr_right fun _ => ?_
  split <;> simp [eq_comm]

namespace Element

/-- What is laid out within an element: its child elements in order, or its members in three
passes. -/
def inner (e : Element) : List Task :=
  match Kind.of e with
  | .error _ => []
  | .ok .page => [Group.fields, .methods, .events].flatMap (·.agenda e.members)
  | .ok k => if k.isFlow then e.childElements.map .visit else []

theorem inner_of_page {e : Element} (h : Kind.of e = .ok .page) :
    e.inner = [Group.fields, .methods, .events].flatMap (·.agenda e.members) := by
  rw [inner, h]

theorem inner_of_ne_page {e : Element} {k : Kind} (h : Kind.of e = .ok k) (hk : k ≠ .page) :
    e.inner = if k.isFlow then e.childElements.map .visit else [] := by
  rw [inner, h]
  cases k <;> first | rfl | contradiction

/-- **The tasks of an element, in their order.** -/
def agenda (e : Element) : List Task :=
  e.needs.map .need ++ e.inner

/-- The elements that are laid out within one are those it lays out. -/
theorem visit_mem_agenda_iff {e c : Element} : .visit c ∈ e.agenda ↔ ∃ p, Lays e p c := by
  have hneeds : Task.visit c ∉ e.needs.map Task.need := by simp
  rw [exists_lays_iff, agenda, List.mem_append, or_iff_right hneeds]
  rcases hk : Kind.of e with err | k
  · simp [inner, hk]
  · by_cases hpage : k = .page
    · subst hpage
      have hgroups : (∃ g ∈ [Group.fields, .methods, .events], .visit c ∈ g.agenda e.members) ↔
          ∃ g : Group, .visit c ∈ g.agenda e.members :=
        ⟨fun ⟨g, _, h⟩ => ⟨g, h⟩, fun ⟨g, h⟩ => ⟨g, by cases g <;> decide, h⟩⟩
      rw [inner_of_page hk, List.mem_flatMap, hgroups]
      simp [Group.visit_mem_agenda_iff, Kind.isFlow]
    · rw [inner_of_ne_page hk hpage]
      simp [hpage]

/-- **Everything that the rendering of an element demands**, in the order in which it is asked. -/
def demands (e : Element) : List Demand :=
  e.agenda.attach.flatMap fun ⟨task, _h⟩ =>
    match task with
    | .need d => [d]
    | .visit c => c.demands
termination_by sizeOf e
decreasing_by
  obtain ⟨p, hlays⟩ := visit_mem_agenda_iff.mp _h
  exact hlays.sizeOf_lt

end Element

/-- What a task demands. -/
def Task.demands : Task → List Demand
  | need d => [d]
  | visit c => c.demands

theorem Element.demands_eq (e : Element) : e.demands = e.agenda.flatMap Task.demands := by
  rw [Element.demands]
  calc _ = e.agenda.attach.flatMap (fun t => t.1.demands) := by
        refine congrArg (e.agenda.attach.flatMap ·) (funext ?_)
        rintro ⟨d | c, _⟩ <;> rfl
    _ = (e.agenda.attach.map Subtype.val).flatMap Task.demands := by rw [List.flatMap_map]
    _ = e.agenda.flatMap Task.demands := by rw [List.attach_map_subtype_val]

/-! ## The first demand that is not met

Two steps fail with the error of the first, or else with that of the second (`failure?_bind`).  By
this rule each equation of the layout becomes one about tasks, and an element fails with the first
of its tasks that does (`failure?_render`).  From tasks to demands it is one more induction along
the layout. -/

/-- The error that a result is, if it is one. -/
def failure? {α : Type} : Except LayoutError α → Option LayoutError
  | .ok _ => none
  | .error err => some err

@[simp] theorem failure?_ok {α : Type} (a : α) : failure? (.ok a) = none := rfl

@[simp] theorem failure?_error {α : Type} (err : LayoutError) :
    failure? (.error err : Except LayoutError α) = some err := rfl

/-- The error that a task ends with, if it does. -/
def Task.failure? : Task → Option LayoutError
  | need d => d.failure?
  | visit e => DocMarkdown.failure? e.render

section

variable {α β : Type}

/-- **The first of two steps that fails is the one that is told.** -/
theorem failure?_bind {x : Except LayoutError α} {f : α → Except LayoutError β}
    {second : Option LayoutError} (h : ∀ a, x = .ok a → failure? (f a) = second) :
    failure? (x >>= f) = (failure? x).or second := by
  rcases x with err | a
  · rfl
  · exact h a rfl

end

theorem failure?_followedBy (x y : Except LayoutError String) :
    failure? (followedBy x y) = (failure? x).or (failure? y) :=
  failure?_bind fun s _ => by cases y <;> rfl

theorem failure?_requireAttr (e : Element) (key : String) :
    failure? (e.requireAttr key) = (Demand.attr e key).failure? := by
  rw [Element.requireAttr, Demand.failure?]
  rcases e.attr? key with _ | value <;> rfl

/-- Nodes fail with the first element among them that does. -/
theorem failure?_renderNodes (ns : List Node) :
    failure? (renderNodes ns)
      = ((ns.filterMap Node.element?).map Task.visit).findSome? Task.failure? := by
  induction ns with
  | nil => rfl
  | cons n ns ih =>
    rw [renderNodes_cons, failure?_followedBy, ih]
    cases n with
    | element e =>
      rw [Node.render_element, filterMap_element?_cons, List.map_cons, List.findSome?_cons,
        Task.failure?]
      cases failure? e.render <;> rfl
    | text t => rfl
    | cdata t => rfl

/-- A pass over members fails with the first task in it that does. -/
theorem failure?_renderMembers (g : Group) (ms : List Element) :
    failure? (renderMembers g ms) = (g.agenda ms).findSome? Task.failure? := by
  induction ms with
  | nil => rfl
  | cons m ms ih =>
    have hagenda : g.agenda (m :: ms) = .need (.attr m "name") ::
        ((if (m.attr? "name").any g.holds then [.visit m] else []) ++ g.agenda ms) := rfl
    rw [renderMembers_cons, hagenda, List.findSome?_cons, Task.failure?, Demand.failure?,
      Element.requireAttr]
    rcases m.attr? "name" with _ | name
    · rfl
    · simp only [Except.ok_bind, Option.isSome_some, if_true, Option.any_some,
        List.findSome?_append, ← ih]
      split
      · rw [failure?_followedBy, List.findSome?_singleton, Task.failure?]
      · rfl

/-- A page fails with the first task of its passes that does. -/
theorem failure?_renderPage (title : String) (ms : List Element) :
    failure? (renderPage title (renderMembers · ms))
      = ([Group.fields, .methods, .events].flatMap (·.agenda ms)).findSome? Task.failure? := by
  simp only [renderPage, List.flatMap_cons, List.flatMap_nil, List.append_nil,
    List.findSome?_append, ← failure?_renderMembers]
  refine failure?_bind fun fields _ => failure?_bind fun methods _ => ?_
  cases renderMembers .events ms <;> rfl

namespace Element

variable {e : Element} {k : Kind}

/-- A member that has a kind has a name, so nothing is missing. -/
theorem findSome?_needs_of_member (h : Kind.of e = .ok k) (hmember : e.name = "member") :
    e.needs.findSome? Demand.failure? = failure? (k.value e) := by
  rw [Kind.of, if_pos hmember, requireAttr] at h
  rcases hattr : e.attr? "name" with _ | name
  · simp [hattr, Except.map] at h
  · have hmet : e.needs.findSome? Demand.failure? = none := by
      simp [needs, hmember, hattr, Demand.failure?]
    rw [hattr] at h
    obtain rfl := Except.ok.inj h
    rw [hmet, Kind.ofMemberName]
    split <;> simp [Kind.value, Kind.key?, requireAttr, hattr]

/-- What an element needs itself is the value that its kind prints. -/
theorem findSome?_needs (h : Kind.of e = .ok k) (hk : k ≠ .page) :
    e.needs.findSome? Demand.failure? = failure? (k.value e) := by
  by_cases hmember : e.name = "member"
  · exact findSome?_needs_of_member h hmember
  · rw [Kind.of, if_neg hmember, Except.ok.injEq] at h
    unfold Kind.ofName at h
    split at h
    case h_1 => exact absurd h.symm hk
    case h_12 =>
      subst h
      rw [needs]
      split <;> simp_all [Kind.value, Kind.key?]
    all_goals next hname =>
      subst h
      simp [needs, hname, Kind.value, Kind.key?, failure?_requireAttr]

/-- A member without a name has no kind. -/
theorem findSome?_needs_of_error {err : LayoutError} (h : Kind.of e = .error err) :
    e.needs.findSome? Demand.failure? = some err := by
  by_cases hmember : e.name = "member"
  · rw [Kind.of, if_pos hmember, requireAttr] at h
    rcases hattr : e.attr? "name" with _ | name
    · rw [hattr] at h
      obtain rfl := Except.error.inj h
      simp [needs, hmember, hattr, Demand.failure?]
    · simp [hattr, Except.map] at h
  · rw [Kind.of, if_neg hmember] at h
    contradiction

theorem name_eq_of_page (h : Kind.of e = .ok .page) : e.name = "doc" := by
  rw [Kind.of] at h
  split at h
  · rcases hattr : e.requireAttr "name" with err | name
    · simp [hattr, Except.map] at h
    · rw [hattr] at h
      have hkind := Except.ok.inj h
      unfold Kind.ofMemberName at hkind
      split at hkind <;> contradiction
  · have hkind := Except.ok.inj h
    unfold Kind.ofName at hkind
    split at hkind <;> first | assumption | contradiction

/-- A page fails with the first of its tasks that does: its own three needs, and three passes. -/
theorem failure?_render_of_page (h : Kind.of e = .ok .page) :
    failure? e.render = (e.needs.findSome? Demand.failure?).or
      (([Group.fields, .methods, .events].flatMap (·.agenda e.members)).findSome?
        Task.failure?) := by
  rw [render_of_page h, needs, name_eq_of_page h, members]
  rcases hassembly : e.child? "assembly" with _ | assembly
  · simp [requireChild, hassembly, Demand.failure?, bind, Except.bind]
  rw [requireChild_eq_ok_iff.mpr hassembly, Except.ok_bind]
  rcases htitle : assembly.child? "name" with _ | title
  · simp [requireChild, hassembly, htitle, Demand.failure?, bind, Except.bind]
  rw [requireChild_eq_ok_iff.mpr htitle, Except.ok_bind]
  rcases hmembers : e.child? "members" with _ | ms
  · simp [requireChild, hassembly, htitle, hmembers, Demand.failure?, bind, Except.bind]
  rw [requireChild_eq_ok_iff.mpr hmembers, Except.ok_bind]
  -- the three needs are met, and the passes go over the members that have been found
  have hmet : (Demand.child e "assembly" :: ((some assembly).toList.map (Demand.child · "name") ++
      [.child e "members"])).findSome? Demand.failure? = none := by
    simp [hassembly, htitle, hmembers]
  simp only [hmet, Option.none_or]
  exact failure?_renderPage title.value _

/-- Running documentation fails for the value it prints, or with the first child that does. -/
theorem failure?_render_of_isFlow (h : Kind.of e = .ok k) (hk : k.isFlow = true) :
    failure? e.render = (failure? (k.value e)).or
      ((e.childElements.map Task.visit).findSome? Task.failure?) := by
  have hinner : failure? (renderNodes e.children)
      = (e.childElements.map Task.visit).findSome? Task.failure? :=
    failure?_renderNodes e.children
  rw [render_of_isFlow h hk, ← hinner]
  refine failure?_bind fun value _ => ?_
  cases renderNodes e.children <;> rfl

/-- **An element fails with the first of its tasks that does.** -/
theorem failure?_render (e : Element) :
    failure? e.render = e.agenda.findSome? Task.failure? := by
  have hneeds : (e.needs.map Task.need).findSome? Task.failure?
      = e.needs.findSome? Demand.failure? := List.findSome?_map
  rw [agenda, List.findSome?_append, hneeds]
  rcases hk : Kind.of e with err | k
  · rw [render_of_error hk, findSome?_needs_of_error hk]
    rfl
  · cases k with
    | page =>
      rw [inner_of_page hk]
      exact failure?_render_of_page hk
    | sample =>
      rw [render_of_sample hk, findSome?_needs hk nofun, inner_of_ne_page hk nofun]
      rfl
    | other =>
      rw [render_of_other hk, findSome?_needs hk nofun, inner_of_ne_page hk nofun]
      rfl
    | _ =>
      rw [findSome?_needs hk nofun, inner_of_ne_page hk nofun]
      exact failure?_render_of_isFlow hk rfl

/-- What is asked for first in a task, or else in a later one, is asked for first in all. -/
theorem findSome?_flatMap_demands {tasks : List Task}
    (h : ∀ t ∈ tasks, t.failure? = t.demands.findSome? Demand.failure?) :
    (tasks.flatMap Task.demands).findSome? Demand.failure? = tasks.findSome? Task.failure? := by
  induction tasks with
  | nil => rfl
  | cons t ts ih =>
    obtain ⟨ht, hts⟩ := List.forall_mem_cons.mp h
    rw [List.flatMap_cons, List.findSome?_append, ih hts, ← ht, List.findSome?_cons]
    cases t.failure? <;> rfl

/-- **An element fails with the first demand that is not met.** -/
theorem failure?_render_eq_demands (e : Element) :
    failure? e.render = e.demands.findSome? Demand.failure? := by
  induction e using Lays.induction with
  | step e ih =>
    rw [failure?_render, demands_eq, findSome?_flatMap_demands]
    rintro (d | c) htask
    · exact List.findSome?_singleton.symm
    · obtain ⟨p, hlays⟩ := visit_mem_agenda_iff.mp htask
      exact ih p c hlays

/-! ## Whose demands they are -/

theorem kind_of_doc (h : e.name = "doc") : Kind.of e = .ok .page := by
  rw [Kind.of, h]
  rfl

/-- What an element is asked for is what is needed of it. -/
theorem need_mem_agenda_iff {d : Demand} : .need d ∈ e.agenda ↔ d ∈ e.requirements := by
  have hneeds : Task.need d ∈ e.needs.map Task.need ↔ d ∈ e.needs := by simp
  rw [agenda, requirements, List.mem_append, List.mem_append, hneeds]
  refine or_congr_right ?_
  by_cases hdoc : e.name = "doc"
  · rw [if_pos hdoc, inner_of_page (kind_of_doc hdoc), List.mem_map, List.mem_flatMap]
    constructor
    · rintro ⟨g, _, hd⟩
      obtain ⟨m, hm, hd⟩ := Group.need_mem_agenda_iff.mp hd
      exact ⟨m, hm, hd⟩
    · rintro ⟨m, hm, hd⟩
      exact ⟨.fields, List.mem_cons_self, Group.need_mem_agenda_iff.mpr ⟨m, hm, hd⟩⟩
  · rw [if_neg hdoc]
    rcases hk : Kind.of e with err | k
    · simp [inner, hk]
    · rw [inner_of_ne_page hk fun hpage => hdoc (name_eq_of_page (hpage ▸ hk))]
      split <;> simp

/-- **The demands of an element are those of the elements that are rendered in it.** -/
theorem mem_demands_iff {root : Element} {d : Demand} :
    d ∈ root.demands ↔ ∃ p e, Rendered root p e ∧ d ∈ e.requirements := by
  constructor
  · intro hd
    induction root using Lays.induction with
    | step root ih =>
      rw [demands_eq] at hd
      obtain ⟨task, htask, hd⟩ := List.mem_flatMap.mp hd
      rcases task with d' | c
      · obtain rfl : d = d' := List.mem_singleton.mp hd
        exact ⟨[], root, .root, need_mem_agenda_iff.mp htask⟩
      · obtain ⟨p, hlays⟩ := visit_mem_agenda_iff.mp htask
        obtain ⟨q, e, hrendered, hd⟩ := ih p c hlays hd
        exact ⟨p ++ q, e, .within hlays hrendered, hd⟩
  · rintro ⟨p, e, hrendered, hd⟩
    induction hrendered with
    | root =>
      rw [demands_eq]
      exact List.mem_flatMap.mpr ⟨.need d, need_mem_agenda_iff.mpr hd, List.mem_singleton.mpr rfl⟩
    | within hlays _ ih =>
      rw [demands_eq]
      exact List.mem_flatMap.mpr ⟨.visit _, visit_mem_agenda_iff.mpr ⟨_, hlays⟩, ih hd⟩

end Element

/-- Nothing is rendered within a code sample, or within what has no place on the page. -/
theorem Rendered.eq_of_not_laid_out {e c : Element} {p : List Nat} (h : Rendered e p c)
    (hk : Kind.of e = .ok .sample ∨ Kind.of e = .ok .other) : c = e := by
  rcases h with _ | ⟨hlays, _⟩
  · rfl
  · obtain ⟨k, hlaid, hkind⟩ : ∃ k, Kind.of e = .ok k ∧ (k.isFlow = true ∨ k = .page) := by
      rcases exists_lays_iff.mp ⟨_, hlays⟩ with ⟨k, hlaid, hflow, -⟩ | ⟨hpage, -⟩
      · exact ⟨k, hlaid, Or.inl hflow⟩
      · exact ⟨.page, hpage, Or.inr rfl⟩
    have hnone : k = .sample ∨ k = .other := hk.imp (fun h => Except.ok.inj (hlaid.symm.trans h))
      fun h => Except.ok.inj (hlaid.symm.trans h)
    rcases hnone with rfl | rfl <;> rcases hkind with h | h <;> contradiction

namespace Element

/-- **A tree renders when every rendered element is complete.** -/
theorem render_ok_iff {root : Element} :
    (∃ out, root.render = .ok out) ↔ ∀ p e, Rendered root p e → e.Complete := by
  have hok : (∃ out, root.render = .ok out) ↔ failure? root.render = none := by
    cases root.render <;> simp
  rw [hok, failure?_render_eq_demands, List.findSome?_eq_none_iff]
  constructor
  · intro hmet p e hrendered
    refine complete_iff_requirements.mpr fun d hd => hmet d ?_
    exact mem_demands_iff.mpr ⟨p, e, hrendered, hd⟩
  · intro hcomplete d hd
    obtain ⟨p, e, hrendered, hd⟩ := mem_demands_iff.mp hd
    exact complete_iff_requirements.mp (hcomplete p e hrendered) d hd

/-- **A tree fails with the first demand that is not met.** -/
theorem render_error_iff {root : Element} {err : LayoutError} :
    root.render = .error err ↔ ∃ front d behind, root.demands = front ++ d :: behind ∧
      d.failure? = some err ∧ ∀ earlier ∈ front, earlier.failure? = none := by
  have herror : root.render = .error err ↔ failure? root.render = some err := by
    cases root.render <;> simp
  rw [herror, failure?_render_eq_demands, List.findSome?_eq_some_iff]

end Element

/-- **When a tree renders, and what is said when it does not.**  It renders when every rendered
element is complete.  Otherwise it fails with the first demand that is not met, in the order in
which they are asked for; the demands are those of the rendered elements, and nothing is rendered
within a code sample or within what has no place on the page. -/
theorem render_of_demands (root : Element) :
    ((∃ out, root.render = .ok out) ↔ ∀ p e, Rendered root p e → e.Complete) ∧
      (∀ err, root.render = .error err ↔ ∃ front d behind, root.demands = front ++ d :: behind ∧
        d.failure? = some err ∧ ∀ earlier ∈ front, earlier.failure? = none) ∧
      (∀ d, d ∈ root.demands ↔ ∃ p e, Rendered root p e ∧ d ∈ e.requirements) ∧
      ∀ p e, Rendered root p e → Kind.of e = .ok .sample ∨ Kind.of e = .ok .other →
        ∀ q c, Rendered e q c → c = e := by
  refine ⟨Element.render_ok_iff, fun err => Element.render_error_iff,
    fun d => Element.mem_demands_iff, ?_⟩
  intro p e _ hk q c hc
  exact hc.eq_of_not_laid_out hk

end DocMarkdown
