import DocMarkdown.Proofs.Foundations
import DocMarkdown.Proofs.Page.Groups
import Mathlib.Data.List.Nodup

/-!
# Proofs/Page/Places — the rendered elements, each at its place

Which elements of a tree are rendered is told by a relation (`Rendered`).  Here they are listed,
each with its place and in the order in which they are laid out: `laid` is what one element lays
out, and `rendered` goes on from there.  No place is listed twice (`nodup_rendered`), so what is
summed over the list counts every rendered element once (`mem_rendered_iff`).
-/

namespace DocMarkdown

/-! ## Elements among nodes -/

/-- **The elements among nodes**, with their positions. -/
def numbered (ns : List Node) : List (Nat × Element) :=
  ns.zipIdx.filterMap fun x => x.1.element?.map (x.2, ·)

theorem mem_numbered {ns : List Node} {i : Nat} {c : Element} :
    (i, c) ∈ numbered ns ↔
      ∃ front behind, ns = front ++ .element c :: behind ∧ front.length = i := by
  rw [← List.getElem?_eq_some_iff_append, numbered, List.mem_filterMap]
  constructor
  · rintro ⟨⟨n, j⟩, hn, hc⟩
    rw [List.mem_zipIdx_iff_getElem?] at hn
    obtain ⟨d, hd, hpair⟩ := Option.map_eq_some_iff.mp hc
    obtain ⟨rfl, rfl⟩ := Prod.mk.inj hpair
    cases n with
    | element e => rwa [Option.some.inj hd] at hn
    | text t | cdata t => contradiction
  · intro h
    exact ⟨(.element c, i), List.mem_zipIdx_iff_getElem?.mpr h, rfl⟩

/-- At one position there is one element. -/
theorem eq_of_mem_numbered {ns : List Node} {i : Nat} {c d : Element}
    (hc : (i, c) ∈ numbered ns) (hd : (i, d) ∈ numbered ns) : c = d := by
  rw [mem_numbered, ← List.getElem?_eq_some_iff_append] at hc hd
  exact Node.element.inj (Option.some.inj (hc.symm.trans hd))

theorem pairwise_numbered (ns : List Node) : (numbered ns).Pairwise fun x y => x.1 < y.1 := by
  refine List.pairwise_filterMap.mpr ((List.pairwise_snd_zipIdx ns 0).imp ?_)
  intro x y hlt x' hx y' hy
  obtain ⟨_, -, rfl⟩ := Option.map_eq_some_iff.mp hx
  obtain ⟨_, -, rfl⟩ := Option.map_eq_some_iff.mp hy
  exact hlt

theorem map_snd_numbered (ns : List Node) :
    (numbered ns).map Prod.snd = ns.filterMap Node.element? := by
  have hnodes : ns.filterMap Node.element? =
      (ns.zipIdx.map Prod.fst).filterMap Node.element? := by rw [List.zipIdx_map_fst]
  rw [numbered, List.map_filterMap, hnodes, List.filterMap_map]
  refine List.filterMap_congr fun x _ => ?_
  rw [Option.map_map]
  exact Option.map_id_apply

/-! ## What an element lays out

The list is in the order of the page and not of the document: all members of one group come before
those of the next.  Nor does it have every child, since a page lays out no member without a group.
-/

/-- The members of a group among the nodes of the child at a position, with their places. -/
def Group.laid (g : Group) (i : Nat) (ns : List Node) : List (List Nat × Element) :=
  ((numbered ns).filter fun x => x.2.name == "member" && g.has x.2).map fun x => ([i, x.1], x.2)

namespace Element

/-- The position of the first child with a name. -/
def indexOf (e : Element) (name : String) : Nat :=
  e.children.findIdx fun n => n.element?.any (·.name == name)

/-- **What an element lays out**, in that order, with the places. -/
def laid (e : Element) : List (List Nat × Element) :=
  match Kind.of e with
  | .error _ => []
  | .ok .page =>
    match e.child? "members" with
    | some ms =>
      [Group.fields, .methods, .events].flatMap (·.laid (e.indexOf "members") ms.children)
    | none => []
  | .ok k => if k.isFlow then (numbered e.children).map fun x => ([x.1], x.2) else []

variable {e c : Element} {k : Kind} {p : List Nat}

theorem laid_of_page {ms : Element} (h : Kind.of e = .ok .page)
    (hms : e.child? "members" = some ms) :
    e.laid = [Group.fields, .methods, .events].flatMap
      (·.laid (e.indexOf "members") ms.children) := by
  rw [laid, h]
  dsimp only
  rw [hms]

theorem laid_of_isFlow (h : Kind.of e = .ok k) (hk : k.isFlow = true) :
    e.laid = (numbered e.children).map fun x => ([x.1], x.2) := by
  rw [laid, h]
  cases k <;> first | rfl | contradiction

theorem laid_of_not_isFlow (h : Kind.of e = .ok k) (hk : k.isFlow = false) (hpage : k ≠ .page) :
    e.laid = [] := by
  rw [laid, h]
  cases k <;> first | rfl | contradiction

theorem indexOf_eq {front behind : List Node} {name : String}
    (h : e.children = front ++ .element c :: behind) (hname : c.name = name)
    (hfirst : ∀ d, .element d ∈ front → d.name ≠ name) : e.indexOf name = front.length := by
  have hnone : front.findIdx (fun n => n.element?.any (·.name == name)) = front.length := by
    refine List.findIdx_eq_length.mpr fun n hn => ?_
    cases n with
    | element d => simpa [Node.element?] using hfirst d hn
    | text t | cdata t => rfl
  rw [indexOf, h, List.findIdx_append, hnone, if_neg (Nat.lt_irrefl _), List.findIdx_cons]
  simp [Node.element?, hname]

end Element

theorem Group.mem_laid {g : Group} {i : Nat} {ns : List Node} {p : List Nat} {c : Element} :
    (p, c) ∈ g.laid i ns ↔ ∃ j, p = [i, j] ∧ (j, c) ∈ numbered ns ∧ c.name = "member" ∧
      g.has c = true := by
  rw [laid, List.mem_map]
  constructor
  · rintro ⟨⟨j, d⟩, hd, hpair⟩
    obtain ⟨rfl, rfl⟩ := Prod.mk.inj hpair
    obtain ⟨hmem, hboth⟩ := List.mem_filter.mp hd
    rw [Bool.and_eq_true, beq_iff_eq] at hboth
    exact ⟨j, rfl, hmem, hboth⟩
  · rintro ⟨j, rfl, hmem, hname, hg⟩
    refine ⟨(j, c), List.mem_filter.mpr ⟨hmem, ?_⟩, rfl⟩
    rw [Bool.and_eq_true, beq_iff_eq]
    exact ⟨hname, hg⟩

namespace Element

variable {e c : Element} {p : List Nat}

theorem mem_laid_of_page (hk : Kind.of e = .ok .page) :
    (p, c) ∈ e.laid ↔ ∃ ms, e.child? "members" = some ms ∧
      ∃ g : Group, (p, c) ∈ g.laid (e.indexOf "members") ms.children := by
  rcases hms : e.child? "members" with _ | ms
  · rw [laid, hk]
    dsimp only
    rw [hms]
    simp
  · have hall : ∀ g : Group, g ∈ [Group.fields, .methods, .events] := by
      intro g
      cases g <;> decide
    rw [laid_of_page hk hms, List.mem_flatMap]
    constructor
    · rintro ⟨g, -, hg⟩
      exact ⟨ms, rfl, g, hg⟩
    · rintro ⟨_, hms', g, hg⟩
      obtain rfl := Option.some.inj hms'
      exact ⟨g, hall g, hg⟩

/-- **The list has what the element lays out**, and where. -/
theorem mem_laid_iff : (p, c) ∈ e.laid ↔ Lays e p c := by
  constructor
  · intro h
    rcases hk : Kind.of e with err | k
    · rw [laid, hk] at h
      contradiction
    · by_cases hpage : k = .page
      · subst hpage
        obtain ⟨ms, hms, g, hg⟩ := (mem_laid_of_page hk).mp h
        obtain ⟨front, behind, hchildren, hname, hfirst⟩ := child?_eq_some_iff.mp hms
        obtain ⟨j, rfl, hmem, hmember, hhas⟩ := Group.mem_laid.mp hg
        obtain ⟨before, after, hm, rfl⟩ := mem_numbered.mp hmem
        obtain ⟨name, hattr, hholds⟩ := Group.has_iff.mp hhas
        rw [indexOf_eq hchildren hname hfirst]
        exact .member hk hchildren hname hfirst hm hmember hattr hholds
      · cases hflow : k.isFlow with
        | false =>
          rw [laid_of_not_isFlow hk hflow hpage] at h
          contradiction
        | true =>
          rw [laid_of_isFlow hk hflow] at h
          obtain ⟨⟨i, d⟩, hd, hpair⟩ := List.mem_map.mp h
          obtain ⟨rfl, rfl⟩ := Prod.mk.inj hpair
          obtain ⟨front, behind, hchildren, rfl⟩ := mem_numbered.mp hd
          exact .child hk hflow hchildren
  · intro h
    cases h with
    | child hk hflow hc =>
      rw [laid_of_isFlow hk hflow]
      exact List.mem_map.mpr ⟨_, mem_numbered.mpr ⟨_, _, hc, rfl⟩, rfl⟩
    | @member ms _ front behind before after g name hk hms hname hfirst hm hmember hattr hg =>
      refine (mem_laid_of_page hk).mpr
        ⟨ms, child?_eq_some_iff.mpr ⟨front, behind, hms, hname, hfirst⟩, g,
          Group.mem_laid.mpr ?_⟩
      rw [indexOf_eq hms hname hfirst]
      exact ⟨_, rfl, mem_numbered.mpr ⟨_, _, hm, rfl⟩, hmember, Group.has_iff.mpr ⟨_, hattr, hg⟩⟩

/-! ### Places apart

That places differ is not enough for what is rendered further in, as one place can be the front of
another.  Being apart is more: it lasts whatever is put behind the two. -/

/-- **Two places are apart**: nothing lies within both. -/
def Apart (x y : List Nat × Element) : Prop :=
  ∀ q q', x.1 ++ q ≠ y.1 ++ q'

theorem pairwise_apart_of_group (g : Group) (i : Nat) (ns : List Node) :
    (g.laid i ns).Pairwise Apart := by
  refine List.pairwise_map.mpr (((pairwise_numbered ns).filter _).imp ?_)
  intro x y hlt q q' heq
  simp only [List.cons_append, List.cons.injEq, true_and] at heq
  exact Nat.ne_of_lt hlt heq.1

/-- **What an element lays out is at places that are apart.** -/
theorem pairwise_apart_laid (e : Element) : e.laid.Pairwise Apart := by
  rcases hk : Kind.of e with err | k
  · rw [laid, hk]
    exact .nil
  · by_cases hpage : k = .page
    · subst hpage
      rcases hms : e.child? "members" with _ | ms
      · rw [laid, hk]
        dsimp only
        rw [hms]
        exact .nil
      · rw [laid_of_page hk hms, List.pairwise_flatMap]
        refine ⟨fun g _ => pairwise_apart_of_group g _ _, ?_⟩
        -- no member is in two groups, so two groups share no position
        have hgroups : [Group.fields, .methods, .events].Pairwise (· ≠ ·) := by decide
        refine hgroups.imp ?_
        rintro g g' hne ⟨p, c⟩ hc ⟨p', c'⟩ hc' q q' heq
        obtain ⟨j, rfl, hmem, -, hhas⟩ := Group.mem_laid.mp hc
        obtain ⟨j', rfl, hmem', -, hhas'⟩ := Group.mem_laid.mp hc'
        simp only [List.cons_append, List.cons.injEq, true_and] at heq
        obtain ⟨rfl, -⟩ := heq
        obtain rfl := eq_of_mem_numbered hmem hmem'
        exact hne (Group.eq_of_has hhas' hhas)
    · cases hflow : k.isFlow with
      | false =>
        rw [laid_of_not_isFlow hk hflow hpage]
        exact .nil
      | true =>
        rw [laid_of_isFlow hk hflow]
        refine List.pairwise_map.mpr ((pairwise_numbered e.children).imp ?_)
        intro x y hlt q q' heq
        exact Nat.ne_of_lt hlt (List.cons.inj heq).1

/-! ## All rendered elements -/

/-- **The rendered elements of a tree**, with their places: the root, and what is rendered in what
it lays out. -/
def rendered (e : Element) : List (List Nat × Element) :=
  ([], e) :: e.laid.attach.flatMap fun ⟨x, _h⟩ => x.2.rendered.map fun y => (x.1 ++ y.1, y.2)
termination_by sizeOf e
decreasing_by exact (mem_laid_iff.mp _h).sizeOf_lt

theorem rendered_eq (e : Element) :
    e.rendered
      = ([], e) :: e.laid.flatMap fun x => x.2.rendered.map fun y => (x.1 ++ y.1, y.2) := by
  rw [rendered]
  congr 1
  calc _ = (e.laid.attach.map Subtype.val).flatMap
        fun x => x.2.rendered.map fun y => (x.1 ++ y.1, y.2) := by rw [List.flatMap_map]
    _ = _ := by rw [List.attach_map_subtype_val]

/-- **The list has the rendered elements**, and their places. -/
theorem mem_rendered_iff {root d : Element} {p : List Nat} :
    (p, d) ∈ root.rendered ↔ Rendered root p d := by
  induction root using Lays.induction generalizing p with
  | step root ih =>
    rw [rendered_eq, List.mem_cons, List.mem_flatMap]
    constructor
    · rintro (hroot | ⟨⟨q, c⟩, hc, hd⟩)
      · obtain ⟨rfl, rfl⟩ := Prod.mk.inj hroot
        exact .root
      · obtain ⟨⟨r, d'⟩, hr, hpair⟩ := List.mem_map.mp hd
        obtain ⟨rfl, rfl⟩ := Prod.mk.inj hpair
        have hlays := mem_laid_iff.mp hc
        exact .within hlays ((ih q c hlays).mp hr)
    · intro h
      cases h with
      | root => exact .inl rfl
      | within hlays hrendered =>
        exact .inr ⟨_, mem_laid_iff.mpr hlays,
          List.mem_map.mpr ⟨_, (ih _ _ hlays).mpr hrendered, rfl⟩⟩

/-- What is laid out is at a place of its own. -/
theorem ne_nil_of_lays (h : Lays e p c) : p ≠ [] := by
  cases h <;> exact List.cons_ne_nil _ _

/-- **No rendered element is listed twice.** -/
theorem nodup_rendered (root : Element) : (root.rendered.map Prod.fst).Nodup := by
  induction root using Lays.induction with
  | step root ih =>
    rw [rendered_eq, List.map_cons, List.map_flatMap]
    simp only [List.map_map, Function.comp_def]
    refine List.nodup_cons.mpr ⟨fun hmem => ?_, List.nodup_flatMap.mpr ⟨?_, ?_⟩⟩
    · obtain ⟨⟨q, c⟩, hc, hnil⟩ := List.mem_flatMap.mp hmem
      obtain ⟨y, -, hnil⟩ := List.mem_map.mp hnil
      exact ne_nil_of_lays (mem_laid_iff.mp hc) (List.append_eq_nil_iff.mp hnil).1
    · rintro ⟨q, c⟩ hc
      have hmap : c.rendered.map (fun y => q ++ y.1) = (c.rendered.map Prod.fst).map (q ++ ·) := by
        rw [List.map_map]
        rfl
      rw [hmap]
      exact (ih q c (mem_laid_iff.mp hc)).map (List.append_right_injective q)
    · refine (pairwise_apart_laid root).imp ?_
      intro x y happart
      refine List.disjoint_left.mpr ?_
      intro p hx hy
      obtain ⟨a, -, rfl⟩ := List.mem_map.mp hx
      obtain ⟨b, -, heq⟩ := List.mem_map.mp hy
      exact happart a.1 b.1 heq.symm

end Element

end DocMarkdown
