import DocMarkdown.Files.Access
import DocMarkdown.Proofs.Files.Segments

/-!
# Proofs/Files/Follow — where a path leads as a disk grows

A disk grows when entries are added to it and none is changed (`d ≤ e`).  A path that leads
somewhere keeps leading there (`follow_mono`), and what it leads to afterwards was there before as
long as each step of it starts from an old place (`follow_back`); only steps up can fail to
(`follow_back_of_stepsUp`).  The last section looks at the entries of one directory: a name in it is
present, read and written at one place (`Disk.At`).
-/

namespace DocMarkdown

namespace Disk

/-! ## Growth -/

/-- **A disk holds all that another one holds.** -/
instance : LE Disk :=
  ⟨fun d e => ∀ q x, d.find? q = some x → e.find? q = some x⟩

theorem le_refl (d : Disk) : d ≤ d := fun _ _ h => h

theorem le_trans {d e f : Disk} (hde : d ≤ e) (hef : e ≤ f) : d ≤ f :=
  fun q x h => hef q x (hde q x h)

/-! ## One step

`follow` tests for a directory and then for one kind of segment after the other.  `Step` is what
comes of the tests: a step is inverted once (`follow_eq_ok`), and from there on taken apart by its
three cases. -/

/-- **What a step from a place can be**: none, one up, or one down to an entry that is there. -/
inductive Step (d : Disk) (place : Place) (s : String) : Place → Prop
  | stay (hs : s = "" ∨ s = ".") : Step d place s place
  | up (hs : s = "..") : Step d place s place.dropLast
  | down (hs : s ≠ "" ∧ s ≠ "." ∧ s ≠ "..") (hentry : (d.find? (place ++ [s])).isSome) :
      Step d place s (place ++ [s])

/-- Every step is made from a directory. -/
theorem follow_eq_ok {d : Disk} {place next : Place} {s : String} :
    d.follow place s = .ok next ↔ d.find? place = some .directory ∧ d.Step place s next := by
  unfold follow
  constructor
  · intro h
    split at h
    · simp at h
    · next hdir =>
      refine ⟨Classical.not_not.1 hdir, ?_⟩
      split at h
      · next hs => exact Except.ok.inj h ▸ .stay hs
      · next hstay =>
        split at h
        · next hs => exact Except.ok.inj h ▸ .up hs
        · next hup =>
          split at h
          · next hentry =>
            rw [not_or] at hstay
            exact Except.ok.inj h ▸ .down ⟨hstay.1, hstay.2, hup⟩ hentry
          · simp at h
  · rintro ⟨hdir, hstep⟩
    rw [if_neg (Classical.not_not.2 hdir)]
    cases hstep with
    | stay hs => rw [if_pos hs]
    | up hs => simp [hs]
    | down hs hentry => simp [hs.1, hs.2.1, hs.2.2, hentry]

/-- What a directory lies in is a directory. -/
theorem directory_dropLast {d : Disk} {place : Place} (h : d.find? place = some .directory) :
    d.find? place.dropLast = some .directory := by
  rcases List.eq_nil_or_concat place with rfl | ⟨front, name, rfl⟩
  · exact h
  · rw [List.concat_eq_append] at h
    rw [List.concat_eq_append, List.dropLast_concat]
    exact directory_of_find? h

/-- Nothing lies where nothing is. -/
theorem find?_append_of_none {d : Disk} {place : Place} (h : d.find? place = none)
    (names : Place) : d.find? (place ++ names) = none := by
  induction names generalizing place with
  | nil => rwa [List.append_nil]
  | cons name names ih =>
    have hnext : d.find? (place ++ [name]) = none := by
      rcases hx : d.find? (place ++ [name]) with _ | x
      · rfl
      · rw [directory_of_find? hx] at h
        contradiction
    have hrest := ih hnext
    rwa [List.append_assoc] at hrest

/-! ## Many steps

Forwards, steps carry over to any disk on which all still stands.  Backwards they need a condition:
a path may go down into something new and up again, and so end in an old place to which it did not
lead before.  The induction for `follow_back` begins at the last step, which ends in an old place,
and asks of each step to such a place that it was made from one. -/

/-- **The places that segments lead to**, from a place. -/
theorem foldlM_follow_cons {d : Disk} {place last : Place} {s : String} {segments : List String} :
    (s :: segments).foldlM d.follow place = .ok last ↔
      ∃ next, d.follow place s = .ok next ∧ segments.foldlM d.follow next = .ok last := by
  rw [List.foldlM_cons]
  cases d.follow place s <;> simp [bind, Except.bind]

theorem foldlM_follow_append {d : Disk} {place last : Place} {front segments : List String} :
    (front ++ segments).foldlM d.follow place = .ok last ↔
      ∃ mid, front.foldlM d.follow place = .ok mid ∧
        segments.foldlM d.follow mid = .ok last := by
  rw [List.foldlM_append]
  cases front.foldlM d.follow place <;> simp [bind, Except.bind]

/-- **What stands on a disk stands on another one**: its directories are directories there, and its
files are there, with these bytes or with others. -/
structure Stands (d e : Disk) : Prop where
  directories : ∀ q, d.find? q = some .directory → e.find? q = some .directory
  entries : ∀ q, (d.find? q).isSome → (e.find? q).isSome

theorem Stands.of_le {d e : Disk} (hde : d ≤ e) : d.Stands e where
  directories q h := hde q _ h
  entries q h := by
    obtain ⟨x, hx⟩ := Option.isSome_iff_exists.1 h
    rw [hde q x hx]
    rfl

theorem Stands.trans {d e f : Disk} (hde : d.Stands e) (hef : e.Stands f) : d.Stands f :=
  ⟨fun q h => hef.directories q (hde.directories q h), fun q h => hef.entries q (hde.entries q h)⟩

/-- **Steps see directories and entries only**, and no bytes. -/
theorem Stands.follow {d e : Disk} (hde : d.Stands e) {place last : Place} {segments : List String}
    (h : segments.foldlM d.follow place = .ok last) :
    segments.foldlM e.follow place = .ok last := by
  induction segments generalizing place with
  | nil => exact h
  | cons s segments ih =>
    rw [foldlM_follow_cons] at h ⊢
    obtain ⟨next, hstep, hrest⟩ := h
    refine ⟨next, ?_, ih hrest⟩
    rw [follow_eq_ok] at hstep ⊢
    refine ⟨hde.directories _ hstep.1, ?_⟩
    cases hstep.2 with
    | stay hs => exact .stay hs
    | up hs => exact .up hs
    | down hs hentry => exact .down hs (hde.entries _ hentry)

/-- **Steps can be made again on a disk that has grown.** -/
theorem follow_mono {d e : Disk} (hde : d ≤ e) {place last : Place} {segments : List String}
    (h : segments.foldlM d.follow place = .ok last) :
    segments.foldlM e.follow place = .ok last :=
  (Stands.of_le hde).follow h

/-- **Steps to an old entry could be made before**, if each of them that leads to an old entry
starts from one. -/
theorem follow_back {d e : Disk} (hde : d ≤ e) {place last : Place} {segments : List String}
    (hold : ∀ front s behind p q, segments = front ++ s :: behind →
      front.foldlM e.follow place = .ok p → e.find? p = some .directory → e.Step p s q →
      (d.find? q).isSome → (d.find? p).isSome)
    (h : segments.foldlM e.follow place = .ok last) (hlast : (d.find? last).isSome) :
    (d.find? place).isSome ∧ segments.foldlM d.follow place = .ok last := by
  induction segments generalizing place with
  | nil =>
    obtain rfl : place = last := Except.ok.inj h
    exact ⟨hlast, h⟩
  | cons s segments ih =>
    rw [foldlM_follow_cons] at h
    obtain ⟨next, hstep, hrest⟩ := h
    have hlater : ∀ front s' behind p q, segments = front ++ s' :: behind →
        front.foldlM e.follow next = .ok p → e.find? p = some .directory → e.Step p s' q →
        (d.find? q).isSome → (d.find? p).isSome := by
      intro front s' behind p q hsegments hfront
      refine hold (s :: front) s' behind p q (by rw [hsegments, List.cons_append]) ?_
      exact foldlM_follow_cons.2 ⟨next, hstep, hfront⟩
    obtain ⟨hnext, hback⟩ := ih hlater hrest
    rw [follow_eq_ok] at hstep
    have hplace := hold [] s segments place next rfl rfl hstep.1 hstep.2 hnext
    refine ⟨hplace, foldlM_follow_cons.2 ⟨next, follow_eq_ok.2 ⟨?_, ?_⟩, hback⟩⟩
    · obtain ⟨x, hx⟩ := Option.isSome_iff_exists.1 hplace
      rw [hx, ← hde _ _ hx, hstep.1]
    · cases hstep.2 with
      | stay hs => exact .stay hs
      | up hs => exact .up hs
      | down hs _ => exact .down hs hnext

/-- Where all that is new is files, every step starts from an old place. -/
theorem follow_back_of_newFiles {d e : Disk} (hde : d ≤ e)
    (hnew : ∀ q, e.find? q = some .directory → d.find? q = some .directory)
    {place last : Place} {segments : List String}
    (h : segments.foldlM e.follow place = .ok last) (hlast : (d.find? last).isSome) :
    segments.foldlM d.follow place = .ok last :=
  (follow_back hde (fun _ _ _ p _ _ _ hdir _ _ => by rw [hnew p hdir]; rfl) h hlast).2

/-- **The directories from which steps go up** on the way along segments. -/
def StepsUp (d : Disk) (place : Place) (segments : List String) (q : Place) : Prop :=
  ∃ front behind, segments = front ++ ".." :: behind ∧ front.foldlM d.follow place = .ok q ∧
    d.find? q = some .directory

theorem not_stepsUp_of_noUp {d : Disk} {place q : Place} {segments : List String}
    (hup : ".." ∉ segments) : ¬ d.StepsUp place segments q := by
  rintro ⟨front, behind, rfl, -⟩
  exact hup (by simp)

/-- **Where steps go up from old places only, an old place lies only in old ones.** -/
theorem follow_back_of_stepsUp {d e : Disk} (hde : d ≤ e) {place last : Place}
    {segments : List String} (hup : ∀ q, e.StepsUp place segments q → (d.find? q).isSome)
    (h : segments.foldlM e.follow place = .ok last) (hlast : (d.find? last).isSome) :
    segments.foldlM d.follow place = .ok last := by
  refine (follow_back hde (fun front s behind p q hsegments hfront hdir hstep hq => ?_) h hlast).2
  cases hstep with
  | stay _ => exact hq
  | up hs => exact hup p ⟨front, behind, hs ▸ hsegments, hfront, hdir⟩
  | down _ _ =>
    obtain ⟨x, hx⟩ := Option.isSome_iff_exists.1 hq
    rw [directory_of_find? hx]
    rfl

/-- **Where steps go up from old places only, nothing leads out of a new one.** -/
theorem prefix_of_stepsUp {d e : Disk} {place last : Place} {segments : List String}
    (hup : ∀ q, e.StepsUp place segments q → (d.find? q).isSome) (hnew : d.find? place = none)
    (h : segments.foldlM e.follow place = .ok last) : place <+: last := by
  induction segments generalizing place with
  | nil =>
    obtain rfl : place = last := Except.ok.inj h
    exact List.prefix_refl place
  | cons s segments ih =>
    rw [foldlM_follow_cons] at h
    obtain ⟨next, hstep, hrest⟩ := h
    have hlater : ∀ q, e.StepsUp next segments q → (d.find? q).isSome := by
      rintro q ⟨front, behind, rfl, hfront, hdir⟩
      exact hup q ⟨s :: front, behind, rfl, foldlM_follow_cons.2 ⟨next, hstep, hfront⟩, hdir⟩
    obtain ⟨hdir, hstep⟩ := follow_eq_ok.1 hstep
    cases hstep with
    | stay _ => exact ih hlater hnew hrest
    | up hs =>
      have hold := hup place ⟨[], segments, by rw [hs, List.nil_append], rfl, hdir⟩
      rw [hnew] at hold
      contradiction
    | down _ _ =>
      exact (List.prefix_append place [s]).trans
        (ih hlater (find?_append_of_none hnew [s]) hrest)

/-! ## Paths

Reading a file and looking for one both resolve the path first, and then see what is at the place.
Written so, the order of their tests does not matter any more, and what is known of `follow` carries
over. -/

section Paths

variable {d : Disk} {base : Place} {p : Path}

theorem resolve_eq_ok {q : Place} :
    d.resolve base p = .ok q ↔
      p.text ≠ "" ∧ p.segments.foldlM d.follow (p.start base) = .ok q := by
  unfold resolve
  split <;> simp_all

theorem Stands.resolve {e : Disk} (hde : d.Stands e) {q : Place} (h : d.resolve base p = .ok q) :
    e.resolve base p = .ok q := by
  rw [resolve_eq_ok] at h ⊢
  exact ⟨h.1, hde.follow h.2⟩

theorem resolve_mono {e : Disk} (hde : d ≤ e) {q : Place} (h : d.resolve base p = .ok q) :
    e.resolve base p = .ok q :=
  (Stands.of_le hde).resolve h

/-- A path that steps up from old places only has led to an old place before. -/
theorem resolve_back_of_stepsUp {e : Disk} (hde : d ≤ e)
    (hup : ∀ q, e.StepsUp (p.start base) p.segments q → (d.find? q).isSome) {q : Place}
    (h : e.resolve base p = .ok q) (hq : (d.find? q).isSome) : d.resolve base p = .ok q := by
  obtain ⟨hne, hfollow⟩ := resolve_eq_ok.1 h
  exact resolve_eq_ok.2 ⟨hne, follow_back_of_stepsUp hde hup hfollow hq⟩

/-- A path without a step up has led to an old place before. -/
theorem resolve_back_of_noUp {e : Disk} (hde : d ≤ e) (hup : ".." ∉ p.segments) {q : Place}
    (h : e.resolve base p = .ok q) (hq : (d.find? q).isSome) : d.resolve base p = .ok q :=
  resolve_back_of_stepsUp hde (fun _ hq => absurd hq (not_stepsUp_of_noUp hup)) h hq

theorem lookup_eq_ok {x : Entry} :
    d.lookup base p = .ok x ↔ ∃ q, d.resolve base p = .ok q ∧ d.find? q = some x := by
  unfold lookup
  rcases d.resolve base p with error | q
  · simp [bind, Except.bind]
  · cases hq : d.find? q <;>
      simp [bind, Except.bind, pure, Except.pure, throw, throwThe, MonadExceptOf.throw, hq]

theorem isPresent_iff :
    d.isPresent base p ↔ ∃ q x, d.resolve base p = .ok q ∧ d.find? q = some x := by
  rw [isPresent]
  constructor
  · intro h
    rcases hlook : d.lookup base p with error | x
    · simp [hlook, Except.isOk, Except.toBool] at h
    · obtain ⟨q, hq, hx⟩ := lookup_eq_ok.1 hlook
      exact ⟨q, x, hq, hx⟩
  · rintro ⟨q, x, hq, hx⟩
    rw [lookup_eq_ok.2 ⟨q, hq, hx⟩]
    rfl

theorem isDirectory_iff :
    d.isDirectory base p ↔ ∃ q, d.resolve base p = .ok q ∧ d.find? q = some .directory := by
  rw [← lookup_eq_ok, isDirectory]
  split <;> simp_all

theorem read_eq_ok {text : String} :
    d.read base p = .ok text ↔
      ∃ q content, d.resolve base p = .ok q ∧ d.find? q = some (.file content) ∧
        String.fromUTF8? content = some text := by
  have hread : d.read base p = .ok text ↔
      ∃ content, d.lookup base p = .ok (.file content) ∧
        String.fromUTF8? content = some text := by
    unfold read
    rcases d.lookup base p with error | _ | content
    · simp [bind, Except.bind]
    · simp [bind, Except.bind, throw, throwThe, MonadExceptOf.throw]
    · cases hc : String.fromUTF8? content <;>
        simp [bind, Except.bind, pure, Except.pure, throw, throwThe, MonadExceptOf.throw, hc]
  simp only [hread, lookup_eq_ok]
  constructor
  · rintro ⟨content, ⟨q, hq, hfile⟩, htext⟩
    exact ⟨q, content, hq, hfile, htext⟩
  · rintro ⟨q, content, hq, hfile, htext⟩
    exact ⟨content, ⟨q, hq, hfile⟩, htext⟩

/-- A file of a disk is read as long as the disk only grows. -/
theorem read_mono {e : Disk} (hde : d ≤ e) {text : String} (h : d.read base p = .ok text) :
    e.read base p = .ok text := by
  rw [read_eq_ok] at h ⊢
  obtain ⟨q, content, hq, hfile, htext⟩ := h
  exact ⟨q, content, resolve_mono hde hq, hde _ _ hfile, htext⟩

/-- What is there stays there as long as the disk only grows. -/
theorem isPresent_mono {e : Disk} (hde : d ≤ e) (h : d.isPresent base p) : e.isPresent base p := by
  obtain ⟨q, x, hq, hx⟩ := isPresent_iff.1 h
  exact isPresent_iff.2 ⟨q, x, resolve_mono hde hq, hde q x hx⟩

/-- What is read is no directory. -/
theorem not_isDirectory_of_read {text : String} (h : d.read base p = .ok text) :
    ¬ d.isDirectory base p := by
  intro hdir
  obtain ⟨q, hq, hdirectory⟩ := isDirectory_iff.1 hdir
  obtain ⟨r, content, hr, hfile, -⟩ := read_eq_ok.1 h
  obtain rfl := Except.ok.inj (hq.symm.trans hr)
  exact absurd (hdirectory.symm.trans hfile) nofun

/-- What is read is there. -/
theorem isPresent_of_read {text : String} (h : d.read base p = .ok text) :
    d.isPresent base p := by
  obtain ⟨q, content, hq, hfile, -⟩ := read_eq_ok.1 h
  exact isPresent_iff.2 ⟨q, _, hq, hfile⟩

/-- **The name of a file is the last segment of the path that leads to it.** -/
theorem fileName?_of_resolve {q : Place} {content : ByteArray}
    (h : d.resolve base p = .ok q) (hfile : d.find? q = some (.file content)) :
    ∃ parent name, q = parent ++ [name] ∧ p.fileName? = some name := by
  obtain ⟨front, s, hsegments⟩ : ∃ front s, p.segments = front ++ [s] :=
    ⟨_, _, (List.dropLast_concat_getLast p.segments_ne_nil).symm⟩
  have hfollow := (resolve_eq_ok.1 h).2
  rw [hsegments, foldlM_follow_append] at hfollow
  obtain ⟨parent, -, hlast⟩ := hfollow
  obtain ⟨next, hstep, hnext⟩ := foldlM_follow_cons.1 hlast
  obtain rfl : next = q := Except.ok.inj hnext
  obtain ⟨hdir, hstep⟩ := follow_eq_ok.1 hstep
  -- a file is no directory, so the last step leads down to it
  cases hstep with
  | stay _ => exact absurd (hdir.symm.trans hfile) nofun
  | up _ => exact absurd ((directory_dropLast hdir).symm.trans hfile) nofun
  | down hs _ =>
    exact ⟨parent, s, rfl, Path.fileName?_of_segments hsegments hs.1 hs.2.1 hs.2.2⟩

/-- Segments that name no step lead nowhere else. -/
theorem eq_of_follow_stay {place q : Place} {segments : List String}
    (hstay : ∀ s ∈ segments, s = "" ∨ s = ".") (h : segments.foldlM d.follow place = .ok q) :
    place = q := by
  induction segments with
  | nil => exact Except.ok.inj h
  | cons s segments ih =>
    obtain ⟨hs, hsegments⟩ := List.forall_mem_cons.1 hstay
    obtain ⟨next, hstep, hrest⟩ := foldlM_follow_cons.1 h
    cases (follow_eq_ok.1 hstep).2 with
    | stay _ => exact ih hsegments hrest
    | up hs' => exact absurd (hs' ▸ hs) (by decide)
    | down hs' _ => exact absurd hs (by simp [hs'])

/-- **A path with the name of a file leads to an entry of that name.** -/
theorem exists_concat_of_resolve {q : Place} {name : String} (hname : p.fileName? = some name)
    (h : d.resolve base p = .ok q) : ∃ parent, q = parent ++ [name] := by
  obtain ⟨front, behind, hsegments, hbehind⟩ := Path.exists_segments_of_fileName? hname
  have hentry := Path.isName_of_fileName? hname
  have hfollow := (resolve_eq_ok.1 h).2
  rw [hsegments, foldlM_follow_append] at hfollow
  obtain ⟨parent, -, hrest⟩ := hfollow
  obtain ⟨next, hstep, hstay⟩ := foldlM_follow_cons.1 hrest
  obtain rfl := eq_of_follow_stay hbehind hstay
  cases (follow_eq_ok.1 hstep).2 with
  | stay hs => exact absurd hs (by simp [hentry.empty, hentry.here])
  | up hs => exact absurd hs hentry.up
  | down _ _ => exact ⟨parent, rfl⟩

/-- **What is read has a stem.** -/
theorem exists_stem?_of_read {text : String} (h : d.read base p = .ok text) :
    ∃ stem, p.stem? = some stem := by
  obtain ⟨q, content, hq, hfile, -⟩ := read_eq_ok.1 h
  obtain ⟨_, name, -, hname⟩ := fileName?_of_resolve hq hfile
  exact ⟨_, by rw [Path.stem?, hname, Option.map_some]⟩

/-- A page is at the end of paths of its stem only. -/
theorem stem?_of_resolve {place : Place} {stem : String} (hstem : stem ≠ "") {content : ByteArray}
    (h : d.resolve base p = .ok (place ++ [stem ++ ".md"]))
    (hfile : d.find? (place ++ [stem ++ ".md"]) = some (.file content)) : p.stem? = some stem := by
  obtain ⟨parent, name, hplace, hname⟩ := fileName?_of_resolve h hfile
  obtain ⟨-, hlast⟩ := List.append_inj' hplace rfl
  exact Path.stem?_of_page hstem (hname.trans (congrArg some (List.cons.inj hlast).1.symm))

end Paths

/-! ## Changes

A new directory and new bytes have one thing in common: the path is parted into the name of the
entry and what leads to its directory, and the entry is all that is new. -/

section Changes

variable {d e : Disk} {base : Place} {p : Path}

theorem of_directory_eq_ok {t : Target} {start : Place}
    {found : { place : Place // d.find? place = some .directory }}
    (h : t.directory d start = .ok found) : t.front.foldlM d.follow start = .ok found.1 := by
  unfold Target.directory at h
  cases hfront : t.front.foldlM d.follow start with
  | error cause => simp [hfront, bind, Except.bind] at h
  | ok place =>
    simp only [hfront, bind, Except.bind] at h
    split at h
    · exact congrArg Except.ok (congrArg Subtype.val (Except.ok.inj h))
    · exact absurd h nofun

theorem directory_eq_ok {t : Target} {start place : Place}
    (hfront : t.front.foldlM d.follow start = .ok place) (hdir : d.find? place = some .directory) :
    t.directory d start = .ok ⟨place, hdir⟩ := by
  unfold Target.directory
  rw [hfront]
  simp [bind, Except.bind, hdir, pure, Except.pure]

/-- **A new directory** stands at a free place in an old one, and is all that is new. -/
theorem of_makeDirectory_eq_ok (h : d.makeDirectory base p = .ok e) :
    ∃ t place name, Target.of? p = some t ∧ t.name? = some name ∧
      t.front.foldlM d.follow (p.start base) = .ok place ∧ d.find? (place ++ [name]) = none ∧
      ∀ q, e.find? q = if q = place ++ [name] then some .directory else d.find? q := by
  unfold makeDirectory at h
  simp only [bind, Except.bind, throw, throwThe, MonadExceptOf.throw, pure, Except.pure] at h
  split at h
  · simp at h
  · cases ht : Target.of? p with
    | none => simp [ht] at h
    | some t =>
      simp only [ht] at h
      split at h
      · simp at h
      · next found hfound =>
        split at h
        · simp at h
        · next name hname =>
          split at h
          · next hfree =>
            refine ⟨t, found.1, name, rfl, hname, of_directory_eq_ok hfound, hfree, fun q => ?_⟩
            rw [← Except.ok.inj h, find?_put]
          · simp at h

/-- **Bytes in a file** stand in a directory, and are all that is new. -/
theorem of_store_eq_ok {content : ByteArray} (h : d.store base p content = .ok e) :
    ∃ t place name, Target.of? p = some t ∧ t.name? = some name ∧ t.slashed = false ∧
      t.front.foldlM d.follow (p.start base) = .ok place ∧
      d.find? place = some .directory ∧ d.find? (place ++ [name]) ≠ some .directory ∧
      ∀ q, e.find? q = if q = place ++ [name] then some (.file content) else d.find? q := by
  unfold store at h
  simp only [bind, Except.bind, throw, throwThe, MonadExceptOf.throw, pure, Except.pure] at h
  split at h
  · simp at h
  · cases ht : Target.of? p with
    | none => simp [ht] at h
    | some t =>
      simp only [ht] at h
      split at h
      · simp at h
      · next found hfound =>
        split at h
        · simp at h
        · next name hname =>
          split at h
          · simp at h
          · next hslashed =>
            split at h
            · next hfree =>
              refine ⟨t, found.1, name, rfl, hname, Bool.eq_false_iff.2 hslashed,
                of_directory_eq_ok hfound, found.2, hfree, fun q => ?_⟩
              rw [← Except.ok.inj h, find?_put]
            · simp at h

end Changes

/-! ## The entries of a directory

A page goes to `directory.join name`, where the directory may be the empty path: that is not a path
to anything, but joined with a name it leads to an entry of the base.  `At` covers both, so the
place of a page is always that of its directory and the name. -/

/-- **The directory that a path names is at a place**: the path leads there, and the empty path, by
which the entries of the base are named, to the base. -/
structure At (d : Disk) (base : Place) (p : Path) (place : Place) : Prop where
  follow : p.inside.foldlM d.follow (p.start base) = .ok place
  directory : d.find? place = some .directory

section At

variable {d : Disk} {base place : Place} {p : Path} {name : String}

theorem At.unique {other : Place} (h : d.At base p place) (h' : d.At base p other) :
    place = other :=
  Except.ok.inj (h.follow.symm.trans h'.follow)

theorem At.of_stands {e : Disk} (hde : d.Stands e) (h : d.At base p place) : e.At base p place :=
  ⟨hde.follow h.follow, hde.directories _ h.directory⟩

theorem At.mono {e : Disk} (hde : d ≤ e) (h : d.At base p place) : e.At base p place :=
  h.of_stands (.of_le hde)

/-- The path of a directory leads to it, unless it is empty. -/
theorem At.resolve (h : d.At base p place) (hp : p.text ≠ "") :
    d.resolve base p = .ok place := by
  refine resolve_eq_ok.2 ⟨hp, ?_⟩
  rcases p.segments_eq_inside with hsegments | hsegments <;> rw [hsegments]
  · exact h.follow
  · exact foldlM_follow_append.2 ⟨place, h.follow,
      foldlM_follow_cons.2 ⟨place, follow_eq_ok.2 ⟨h.directory, .stay (.inl rfl)⟩, rfl⟩⟩

/-- **A directory at an old place is old**, if steps go up from old places only. -/
theorem At.back {e : Disk} (hde : d ≤ e)
    (hup : ∀ q, e.StepsUp (p.start base) p.segments q → (d.find? q).isSome)
    (h : e.At base p place) (hold : (d.find? place).isSome) : d.At base p place := by
  have hinside : ∀ q, e.StepsUp (p.start base) p.inside q → (d.find? q).isSome := by
    rintro q ⟨front, behind, hbehind, hfront⟩
    rcases p.segments_eq_inside with hsegments | hsegments
    · exact hup q ⟨front, behind, hsegments.trans hbehind, hfront⟩
    · refine hup q ⟨front, behind ++ [""], ?_, hfront⟩
      rw [hsegments, hbehind, List.append_assoc]
      rfl
  refine ⟨follow_back_of_stepsUp hde hinside h.follow hold, ?_⟩
  obtain ⟨x, hx⟩ := Option.isSome_iff_exists.1 hold
  rw [hx, ← hde _ _ hx, h.directory]

theorem start_join (base : Place) (p : Path) (hname : Path.IsName name) :
    (p.join name).start base = p.start base := by
  unfold Path.start
  rw [Path.isAbsolute_join p hname.slash]

/-- **An entry of a directory is where the directory is.** -/
theorem resolve_join_eq_ok (hname : Path.IsName name) {q : Place} :
    d.resolve base (p.join name) = .ok q ↔
      ∃ place, d.At base p place ∧ q = place ++ [name] ∧ (d.find? q).isSome := by
  rw [resolve_eq_ok, Path.segments_join p hname.slash, start_join base p hname,
    foldlM_follow_append]
  constructor
  · rintro ⟨-, place, hplace, hlast⟩
    obtain ⟨next, hstep, hnext⟩ := foldlM_follow_cons.1 hlast
    obtain rfl : next = q := Except.ok.inj hnext
    obtain ⟨hdir, hstep⟩ := follow_eq_ok.1 hstep
    refine ⟨place, ⟨hplace, hdir⟩, ?_⟩
    cases hstep with
    | stay hs => exact absurd hs (by simp [hname.empty, hname.here])
    | up hs => exact absurd hs hname.up
    | down _ hentry => exact ⟨rfl, hentry⟩
  · rintro ⟨place, hplace, rfl, hentry⟩
    refine ⟨p.text_join_ne_empty hname.empty, place, hplace.follow, ?_⟩
    rw [foldlM_follow_cons]
    exact ⟨_, follow_eq_ok.2 ⟨hplace.directory,
      .down ⟨hname.empty, hname.here, hname.up⟩ hentry⟩, rfl⟩

theorem isPresent_join_iff (hname : Path.IsName name) :
    d.isPresent base (p.join name) ↔
      ∃ place x, d.At base p place ∧ d.find? (place ++ [name]) = some x := by
  simp only [isPresent_iff, resolve_join_eq_ok hname]
  constructor
  · rintro ⟨_, x, ⟨place, hplace, rfl, -⟩, hx⟩
    exact ⟨place, x, hplace, hx⟩
  · rintro ⟨place, x, hplace, hx⟩
    exact ⟨_, x, ⟨place, hplace, rfl, by rw [hx]; rfl⟩, hx⟩

/-- **A name is present in a directory** where its entry is. -/
theorem At.isPresent_join_iff (hname : Path.IsName name) (hplace : d.At base p place) :
    d.isPresent base (p.join name) ↔ (d.find? (place ++ [name])).isSome := by
  rw [Disk.isPresent_join_iff hname, Option.isSome_iff_exists]
  constructor
  · rintro ⟨other, x, hother, hx⟩
    exact ⟨x, hother.unique hplace ▸ hx⟩
  · rintro ⟨x, hx⟩
    exact ⟨place, x, hplace, hx⟩

/-- A text in a file is read back. -/
theorem read_join_of_find? (hname : Path.IsName name) (hplace : d.At base p place) {text : String}
    (h : d.find? (place ++ [name]) = some (.file text.toUTF8)) :
    d.read base (p.join name) = .ok text := by
  have hplace : d.resolve base (p.join name) = .ok (place ++ [name]) :=
    (resolve_join_eq_ok hname).2 ⟨place, hplace, rfl, by rw [h]; rfl⟩
  exact read_eq_ok.2 ⟨_, _, hplace, h, String.fromUTF8?_toUTF8 text⟩

/-- **A text written to an entry of a directory** is there and changes nothing else. -/
theorem of_write_join_eq_ok {e : Disk} (hname : Path.IsName name) {text : String}
    (h : d.write base (p.join name) text = .ok e) :
    ∃ place, d.At base p place ∧ d.find? (place ++ [name]) ≠ some .directory ∧
      ∀ q, e.find? q =
        if q = place ++ [name] then some (.file text.toUTF8) else d.find? q := by
  have htarget : Target.of? (p.join name) = some ⟨p.inside, name, false⟩ := by
    unfold Target.of?
    rw [Path.segments_join p hname.slash]
    simp [hname.empty]
  have hentry : Target.name? ⟨p.inside, name, false⟩ = some name := by
    simp [Target.name?, hname.here, hname.up]
  obtain ⟨t, place, entry, ht, hent, -, hplace, hdir, hfree, hchange⟩ := of_store_eq_ok h
  obtain rfl := Option.some.inj (htarget.symm.trans ht)
  obtain rfl := Option.some.inj (hentry.symm.trans hent)
  rw [start_join base p hname] at hplace
  exact ⟨place, ⟨hplace, hdir⟩, hfree, hchange⟩

end At

end Disk

end DocMarkdown
