import DocMarkdown.Proofs.Files.Follow
import Mathlib.Data.List.TakeWhile

/-!
# Proofs/Files/Change — where a disk changes

A disk changes in two ways: a directory is made, or a text is written to a file.  Each of the two
changes one place, and the path that was given leads there afterwards
(`resolve_of_makeDirectory`, `resolve_of_write`).  A written text is read back, and which text it is
does not matter for whether it can be written (`Writable`).  `Changes` is what any number of such
changes come to: what stands stays, and a place is another one than before only where one of the
paths leads.
-/

namespace DocMarkdown

namespace Disk

variable {d e f : Disk} {base place q : Place} {p : Path} {t : Target} {name : String}

/-! ## Where a target is

A target is the last segment that is not empty.  Slashes behind it name nothing more, but they are
followed like any segment, from the entry itself, which then has to be a directory. -/

/-- **What a target is made of**: the last segment that is not empty, what comes before it, and
empty segments behind. -/
theorem Target.of_of? (h : Target.of? p = some t) :
    t.last ≠ "" ∧ ∃ slashes, (∀ s ∈ slashes, s = "") ∧
      p.segments = t.front ++ t.last :: slashes := by
  unfold Target.of? at h
  dsimp only at h
  split at h
  · simp at h
  · next last front hdrop =>
    obtain rfl := Option.some.inj h
    have hlast := List.head?_dropWhile_not (fun s : String => decide (s = "")) p.segments.reverse
    rw [hdrop] at hlast
    have hsegments : p.segments.reverse =
        p.segments.reverse.takeWhile (fun s => decide (s = "")) ++ last :: front := by
      rw [← hdrop, List.takeWhile_append_dropWhile]
    refine ⟨by simpa using hlast, (p.segments.reverse.takeWhile fun s => decide (s = "")).reverse,
      fun s hs => ?_, ?_⟩
    · simpa using List.mem_takeWhile_imp (List.mem_reverse.1 hs)
    · simpa using congrArg List.reverse hsegments

theorem Target.text_ne_empty (h : Target.of? p = some t) : p.text ≠ "" := by
  obtain ⟨hlast, slashes, -, hsegments⟩ := Target.of_of? h
  intro htext
  have hempty : p.segments = [""] := by simp [Path.segments, htext]
  rw [hempty] at hsegments
  have hmem : t.last ∈ [""] := by simp [hsegments]
  exact hlast (List.mem_singleton.1 hmem)

/-- Slashes stand behind a target when the last segment of its path is empty. -/
theorem Target.slashed_iff (h : Target.of? p = some t) :
    t.slashed = true ↔ p.segments.getLast? = some "" := by
  unfold Target.of? at h
  dsimp only at h
  split at h
  · simp at h
  · rw [← Option.some.inj h, List.head?_reverse]
    simp

/-- Slashes lead nowhere else from a directory. -/
theorem foldlM_follow_slashes {slashes : List String} (h : ∀ s ∈ slashes, s = "")
    (hdir : d.find? place = some .directory) : slashes.foldlM d.follow place = .ok place := by
  induction slashes with
  | nil => rfl
  | cons s slashes ih =>
    obtain ⟨hs, hslashes⟩ := List.forall_mem_cons.1 h
    exact foldlM_follow_cons.2 ⟨place, follow_eq_ok.2 ⟨hdir, .stay (.inl hs)⟩, ih hslashes⟩

/-- **The path of a target leads to it** when there is something, which is a directory if slashes
stand behind the target. -/
theorem resolve_of_target (ht : Target.of? p = some t) (hname : t.name? = some name)
    (hfront : t.front.foldlM d.follow (p.start base) = .ok place)
    (hdir : d.find? place = some .directory) (hentry : (d.find? (place ++ [name])).isSome)
    (hslashed : t.slashed = true → d.find? (place ++ [name]) = some .directory) :
    d.resolve base p = .ok (place ++ [name]) := by
  obtain ⟨hlast, slashes, hslashes, hsegments⟩ := Target.of_of? ht
  obtain ⟨rfl, hhere, hup⟩ : t.last = name ∧ t.last ≠ "." ∧ t.last ≠ ".." := by
    unfold Target.name? at hname
    split at hname <;> simp_all
  refine resolve_eq_ok.2 ⟨Target.text_ne_empty ht, ?_⟩
  rw [hsegments, foldlM_follow_append]
  refine ⟨place, hfront, foldlM_follow_cons.2
    ⟨_, follow_eq_ok.2 ⟨hdir, .down ⟨hlast, hhere, hup⟩ hentry⟩, ?_⟩⟩
  rcases slashes.eq_nil_or_concat with rfl | ⟨front, s, rfl⟩
  · rfl
  · refine foldlM_follow_slashes hslashes (hslashed ((Target.slashed_iff ht).2 ?_))
    rw [hsegments, ← hslashes s (by simp)]
    simp [List.getLast?_cons]

/-! ## One change -/

/-- Where one place changes, in which nothing was, all that was there is as it was. -/
theorem le_of_eq_of_ne (hfree : d.find? q = none) (h : ∀ r, r ≠ q → e.find? r = d.find? r) :
    d ≤ e := by
  intro r x hr
  rw [h]
  · exact hr
  · rintro rfl
    exact absurd (hfree.symm.trans hr) nofun

/-- Where one place changes, in which no directory was, all that stands stays. -/
theorem Stands.of_eq_of_ne (hfree : d.find? q ≠ some .directory) (hentry : (e.find? q).isSome)
    (h : ∀ r, r ≠ q → e.find? r = d.find? r) : d.Stands e where
  directories r hr := by
    rw [h]
    · exact hr
    · rintro rfl
      exact hfree hr
  entries r hr := by
    by_cases hrq : r = q
    · rwa [hrq]
    · rwa [h r hrq]

/-- **A new directory is where its path leads.** -/
theorem resolve_of_makeDirectory (h : d.makeDirectory base p = .ok e) :
    ∃ q, d.find? q = none ∧ e.find? q = some .directory ∧ e.resolve base p = .ok q ∧
      ∀ r, r ≠ q → e.find? r = d.find? r := by
  obtain ⟨t, place, name, ht, hname, hfront, hfree, hchange⟩ := of_makeDirectory_eq_ok h
  have hnew : e.find? (place ++ [name]) = some .directory := by rw [hchange, if_pos rfl]
  have hother : ∀ r, r ≠ place ++ [name] → e.find? r = d.find? r := fun r hr => by
    rw [hchange, if_neg hr]
  refine ⟨place ++ [name], hfree, hnew, ?_, hother⟩
  exact resolve_of_target ht hname (follow_mono (le_of_eq_of_ne hfree hother) hfront)
    (directory_of_find? hnew) (by rw [hnew]; rfl) fun _ => hnew

theorem le_of_makeDirectory (h : d.makeDirectory base p = .ok e) : d ≤ e := by
  obtain ⟨q, hfree, -, -, hother⟩ := resolve_of_makeDirectory h
  exact le_of_eq_of_ne hfree hother

/-- **A directory that is there is not made again.** -/
theorem makeDirectory_of_isDirectory (h : d.isDirectory base p) :
    d.makeDirectory base p = .error .alreadyExists := by
  obtain ⟨q, hq, hdirectory⟩ := isDirectory_iff.1 h
  obtain ⟨htext, hfollow⟩ := resolve_eq_ok.1 hq
  unfold makeDirectory
  simp only [bind, Except.bind, throw, throwThe, MonadExceptOf.throw, pure, Except.pure, htext,
    if_false]
  cases ht : Target.of? p with
  | none => rfl
  | some t =>
    obtain ⟨hlast, slashes, -, hsegments⟩ := Target.of_of? ht
    rw [hsegments, foldlM_follow_append] at hfollow
    obtain ⟨place, hplace, hrest⟩ := hfollow
    obtain ⟨next, hstep, -⟩ := foldlM_follow_cons.1 hrest
    obtain ⟨hdir, hstep⟩ := follow_eq_ok.1 hstep
    simp only [directory_eq_ok hplace hdir]
    cases hname : t.name? with
    | none => rfl
    | some name =>
      unfold Target.name? at hname
      split at hname
      · simp at hname
      · next hdots =>
        obtain rfl := Option.some.inj hname
        rw [not_or] at hdots
        cases hstep with
        | stay hs => exact absurd hs (by simp [hlast, hdots.1])
        | up hs => exact absurd hs hdots.2
        | down _ hentry =>
          have hfree : d.find? (place ++ [t.last]) ≠ none := Option.isSome_iff_ne_none.1 hentry
          simp [hfree]

/-- **A text that is written is where its path leads**, and where the path led before if it led
anywhere. -/
theorem resolve_of_write {text : String} (h : d.write base p text = .ok e) :
    ∃ q, d.find? q ≠ some .directory ∧ e.find? q = some (.file text.toUTF8) ∧
      e.resolve base p = .ok q ∧ ((d.find? q).isSome → d.resolve base p = .ok q) ∧
      ∀ r, r ≠ q → e.find? r = d.find? r := by
  obtain ⟨t, place, name, ht, hname, hslashed, hfront, hdir, hfree, hchange⟩ := of_store_eq_ok h
  have hnew : e.find? (place ++ [name]) = some (.file text.toUTF8) := by
    rw [hchange, if_pos rfl]
  have hother : ∀ r, r ≠ place ++ [name] → e.find? r = d.find? r := fun r hr => by
    rw [hchange, if_neg hr]
  have hentry : (e.find? (place ++ [name])).isSome := by rw [hnew]; rfl
  refine ⟨place ++ [name], hfree, hnew, ?_, fun hold => ?_, hother⟩
  · exact resolve_of_target ht hname ((Stands.of_eq_of_ne hfree hentry hother).follow hfront)
      (directory_of_find? hnew) hentry (by simp [hslashed])
  · exact resolve_of_target ht hname hfront hdir hold (by simp [hslashed])

/-- **A text that is written where nothing was changes nothing that was there.** -/
theorem le_of_write {text : String} (h : d.write base p text = .ok e)
    (habsent : d.isPresent base p = false) : d ≤ e := by
  obtain ⟨q, -, -, -, hback, hother⟩ := resolve_of_write h
  refine le_of_eq_of_ne ?_ hother
  by_contra hold
  obtain ⟨x, hx⟩ := Option.ne_none_iff_exists'.1 hold
  have hpresent : d.isPresent base p = true :=
    isPresent_iff.2 ⟨q, x, hback (by rw [hx]; rfl), hx⟩
  rw [hpresent] at habsent
  contradiction

/-- **A text that is written is read back.** -/
theorem read_of_write {text : String} (h : d.write base p text = .ok e) :
    e.read base p = .ok text := by
  obtain ⟨q, -, hfile, hresolve, -, -⟩ := resolve_of_write h
  exact read_eq_ok.2 ⟨q, _, hresolve, hfile, String.fromUTF8?_toUTF8 text⟩

/-- **Behind a write to an entry of a directory** that entry is present, and the others are as
before. -/
theorem isPresent_join_of_write {other text : String} (hname : Path.IsName name)
    (hother : Path.IsName other) (h : d.write base (p.join name) text = .ok e) :
    e.isPresent base (p.join other) ↔ d.isPresent base (p.join other) ∨ other = name := by
  obtain ⟨place, hplace, hfree, hchange⟩ := of_write_join_eq_ok hname h
  have hstands : d.Stands e := .of_eq_of_ne hfree (by rw [hchange, if_pos rfl]; rfl)
    fun r hr => by rw [hchange, if_neg hr]
  rw [(hplace.of_stands hstands).isPresent_join_iff hother, hplace.isPresent_join_iff hother,
    hchange]
  by_cases heq : other = name
  · simp [heq]
  · simp [heq]

/-- **A file can be written**: some text goes into it. -/
def Writable (d : Disk) (base : Place) (p : Path) : Prop :=
  ∃ text e, d.write base p text = .ok e

/-- **Where one text can be written, any text can.** -/
theorem Writable.exists_write (h : d.Writable base p) (text : String) :
    ∃ e, d.write base p text = .ok e := by
  obtain ⟨other, e, hwrite⟩ := h
  obtain ⟨t, place, name, ht, hname, hslashed, hfront, hdir, hfree, -⟩ := of_store_eq_ok hwrite
  refine ⟨d.put place name (.file text.toUTF8) hdir hfree, ?_⟩
  unfold write store
  simp [Target.text_ne_empty ht, ht, directory_eq_ok hfront hdir, hname, hslashed, hfree, bind,
    Except.bind, pure, Except.pure]

instance : Decidable (d.Writable base p) :=
  decidable_of_iff ((d.write base p "").isOk = true) <| by
    constructor
    · intro h
      rcases hwrite : d.write base p "" with cause | e
      · rw [hwrite] at h
        exact absurd h nofun
      · exact ⟨"", e, hwrite⟩
    · intro h
      obtain ⟨e, hwrite⟩ := h.exists_write ""
      rw [hwrite]
      rfl

/-! ## Many changes

A run makes and writes many paths, and where a path leads may depend on those made before.
`Changes` is therefore about the disk behind all of them: a place that is not as it was is one to
which a path leads in the end.  It is transitive because a path that leads somewhere keeps leading
there (`Stands`). -/

/-- **All changes of a disk**: some paths lead to directories that are new, others to files that
have been written, and every place to which none of these leads is as it was. -/
structure Changes (base : Place) (made written : Path → Prop) (d e : Disk) : Prop where
  stands : d.Stands e
  change : ∀ q, e.find? q ≠ d.find? q →
    (d.find? q = none ∧ e.find? q = some .directory ∧ ∃ p, made p ∧ e.resolve base p = .ok q) ∨
    (∃ content, e.find? q = some (.file content)) ∧ ∃ p, written p ∧ e.resolve base p = .ok q

namespace Changes

variable {made written : Path → Prop}

theorem refl (d : Disk) : Changes base made written d d where
  stands := .of_le (le_refl d)
  change _ h := absurd rfl h

theorem trans (hde : Changes base made written d e) (hef : Changes base made written e f) :
    Changes base made written d f where
  stands := hde.stands.trans hef.stands
  change q h := by
    by_cases hq : f.find? q = e.find? q
    · -- the place has got what it holds before, and paths that led there still do
      obtain ⟨hnone, hdir, p, hp, hresolve⟩ | ⟨hfile, p, hp, hresolve⟩ :=
        hde.change q (hq ▸ h)
      · exact .inl ⟨hnone, hq.trans hdir, p, hp, hef.stands.resolve hresolve⟩
      · exact .inr ⟨by rwa [hq], p, hp, hef.stands.resolve hresolve⟩
    · refine (hef.change q hq).imp_left fun ⟨hnone, hdir, hp⟩ => ⟨?_, hdir, hp⟩
      by_contra hsome
      have hentry := hde.stands.entries q (Option.isSome_iff_ne_none.2 hsome)
      rw [hnone] at hentry
      contradiction

theorem mono {made' written' : Path → Prop} (hmade : ∀ p, made p → made' p)
    (hwritten : ∀ p, written p → written' p) (h : Changes base made written d e) :
    Changes base made' written' d e where
  stands := h.stands
  change q hq := (h.change q hq).imp
    (fun ⟨hnone, hdir, p, hp, hresolve⟩ => ⟨hnone, hdir, p, hmade p hp, hresolve⟩)
    (fun ⟨hfile, p, hp, hresolve⟩ => ⟨hfile, p, hwritten p hp, hresolve⟩)

/-- Where nothing is written, what has changed is a new directory. -/
theorem directory_of_ne (h : Changes base made (fun _ => False) d e)
    (hne : e.find? q ≠ d.find? q) :
    e.find? q = some .directory ∧ ∃ p, made p ∧ e.resolve base p = .ok q := by
  obtain ⟨-, hdirectory, hp⟩ | ⟨-, _, hfalse, -⟩ := h.change q hne
  · exact ⟨hdirectory, hp⟩
  · exact hfalse.elim

/-- Where no directory is made, what has changed is a file. -/
theorem file_of_ne (h : Changes base (fun _ => False) written d e)
    (hne : e.find? q ≠ d.find? q) :
    (∃ content, e.find? q = some (.file content)) ∧ ∃ p, written p ∧ e.resolve base p = .ok q := by
  obtain ⟨-, -, _, hfalse, -⟩ | hfile := h.change q hne
  · exact hfalse.elim
  · exact hfile

theorem of_makeDirectory (h : d.makeDirectory base p = .ok e) (hp : made p) :
    Changes base made written d e := by
  obtain ⟨q, hfree, hnew, hresolve, hother⟩ := resolve_of_makeDirectory h
  refine ⟨.of_le (le_of_makeDirectory h), fun r hr => ?_⟩
  obtain rfl : r = q := not_imp_comm.1 (hother r) hr
  exact .inl ⟨hfree, hnew, p, hp, hresolve⟩

theorem of_write {text : String} (h : d.write base p text = .ok e) (hp : written p) :
    Changes base made written d e := by
  obtain ⟨q, hfree, hnew, hresolve, -, hother⟩ := resolve_of_write h
  refine ⟨.of_eq_of_ne hfree (by rw [hnew]; rfl) hother, fun r hr => ?_⟩
  obtain rfl : r = q := not_imp_comm.1 (hother r) hr
  exact .inr ⟨⟨_, hnew⟩, p, hp, hresolve⟩

end Changes

end Disk

end DocMarkdown
