import Arsh.Regex.GroupCount
import Arsh.Regex.TreeLayout

/-!
# Duplicated names of groups

Two groups may have one name when they are separated by a `|`. The parser never sees the tree when
it checks this: each frame on its stack keeps the names of its open alternative and those of the
alternatives before. Along a parse these lists are the names of the groups that a new group would
not be separated from (`Inv`), so the check refuses a name exactly when the tree of the whole
pattern gets two groups of one name that are not separated (`rejects_iff`).
-/

namespace Arsh.Regex

open Regex.Tree

variable {ι : Type*} {i j : Nat}

/-! ## The layout of a parse -/

theorem Tree.closed_layoutSeq {ps : List Tree} (h : ∀ p ∈ ps, p.layout.Closed) :
    (layoutSeq ps).Closed := by
  induction ps with
  | nil => exact Layout.closed_flat []
  | cons p ps ih =>
    rw [layoutSeq]
    exact (h p (by simp)).beside (ih fun q hq => h q (by simp [hq]))

theorem Tree.closed_layoutAlt {ps : List Tree} (h : ∀ p ∈ ps, p.layout.Closed) :
    (layoutAlt ps).Closed := by
  induction ps with
  | nil => exact Layout.closed_flat []
  | cons p ps ih =>
    rw [layoutAlt]
    exact (h p (by simp)).either (ih fun q hq => h q (by simp [hq]))

theorem Tree.closed_layout (t : Tree) : t.layout.Closed := by
  induction t using Tree.induct with
  | repeated _ _ _ _ _ _ p ih => exact ih
  | seq ps ih =>
    rw [layout]
    exact closed_layoutSeq ih
  | alt ps ih =>
    rw [layout]
    exact closed_layoutAlt ih
  | lookAround _ p ih => exact ih
  | group type index set unset p ih =>
    rw [Parser.layout_group type index set unset]
    exact (Layout.closed_flat _).beside ih
  | _ => exact Layout.closed_flat []

namespace Parser

variable {C : Config} {s t : State} {name : Bytes}

theorem State.closed_layout (s : State) : s.layout.Closed := by
  refine Layout.Context.closed_fill ?_ (Layout.closed_flat [])
  intro l hl
  obtain ⟨f, -, rfl⟩ := List.mem_map.1 hl
  exact ⟨Layout.closed_flat _, closed_layoutAlt fun p _ => p.closed_layout,
    closed_layoutSeq fun p _ => p.closed_layout⟩

theorem State.leaves_layout (s : State) : s.layout.leaves = s.context.outside := by
  rw [State.layout, Layout.Context.fill_leaves]
  exact List.append_nil _

/-- A node on top is beside the pattern so far. -/
theorem State.layout_append (s : State) (q : Tree) :
    (s.append q).layout = s.context.fill q.layout := by
  simp only [State.layout, State.context, State.append, List.map_cons,
    Layout.Context.fill_cons, Frame.fill_append, Layout.beside_none]

theorem State.layout_push (s : State) (type : FrameType) (rest : Bytes) (g : Groups) :
    (s.push type rest g).layout = s.context.fill (.flat type.captures) := by
  have hnew : (Frame.new type).layer.fill .none = .flat type.captures := by
    simp [Frame.new, Frame.layer, Layout.Layer.fill, layoutSeq, layoutAlt]
  simp only [State.layout, State.context, State.push, List.map_cons, Layout.Context.fill_cons,
    hnew]

/-- A group that is opened is apart from the finished alternatives around it. -/
theorem State.layout_capture {type : FrameType} (s : State) (rest : Bytes) (g : Groups)
    (h : type.captures = [i]) :
    (s.push type rest g).layout = .plug i s.context.Finished s.layout := by
  rw [layout_push, h, Layout.flat_eq_plug, Layout.Context.fill_plug]
  simp only [false_or]
  rfl

/-! ## The names of a parse -/

/-- The group with this index has this name. -/
def Groups.Named (g : Groups) (name : Bytes) (i : Nat) : Prop :=
  ∃ is, (name, is) ∈ g.namedCaptureGroups ∧ i ∈ is

theorem mem_addName {n : Bytes} {es : List (Bytes × List Nat)} :
    (∃ is, (n, is) ∈ addName name j es ∧ i ∈ is) ↔
      (∃ is, (n, is) ∈ es ∧ i ∈ is) ∨ n = name ∧ i = j := by
  induction es with
  | nil => simp [addName]
  | cons e es ih =>
    obtain ⟨m, is⟩ := e
    unfold addName
    split
    · next h =>
      obtain rfl : m = name := h
      simp only [List.mem_cons, Prod.mk.injEq, or_and_right, exists_or, and_assoc,
        exists_and_left, exists_eq_left, List.mem_append, List.not_mem_nil, or_false]
      rw [and_or_left, or_right_comm]
    · simp only [List.mem_cons, Prod.mk.injEq, or_and_right, exists_or, ih, or_assoc]

/-- The lists of the frames are the names of the groups in their alternatives. `above` is the group
that the frame above is in. -/
def NamesOk (named : Bytes → Nat → Prop) : List Nat → List Frame → Prop
  | above, [] => above = []
  | above, f :: fs =>
    (∀ name, name ∈ f.existingGroupNames ↔
      ∃ i, named name i ∧ (i ∈ (layoutSeq f.items).leaves ∨ i ∈ above)) ∧
    (∀ name, name ∈ f.mergedExistingGroupNames ↔
      ∃ i, named name i ∧ i ∈ (layoutAlt f.alternatives).leaves) ∧
    NamesOk named f.type.captures fs

variable {named named' : Bytes → Nat → Prop} {above : List Nat} {fs : List Frame}

/-- Only the names of the groups in the frames matter. -/
theorem NamesOk.congr (h : NamesOk named above fs)
    (he : ∀ name i, i ∈ above ∨ i ∈ Layout.Context.outside (fs.map Frame.layer) →
      (named name i ↔ named' name i)) : NamesOk named' above fs := by
  induction fs generalizing above with
  | nil => exact h
  | cons f fs ih =>
    obtain ⟨hitems, halts, hfs⟩ := h
    have hmem (i : Nat) : i ∈ Layout.Context.outside ((f :: fs).map Frame.layer) ↔
        i ∈ Layout.Context.outside (fs.map Frame.layer) ∨ i ∈ f.type.captures ∨
          i ∈ (layoutAlt f.alternatives).leaves ∨ i ∈ (layoutSeq f.items).leaves := by
      simp only [List.map_cons, Layout.Context.outside, Layout.Layer.leaves, Frame.layer,
        List.mem_append, Layout.leaves_flat]
    refine ⟨fun name => (hitems name).trans (exists_congr fun i => and_congr_left fun hi => ?_),
      fun name => (halts name).trans (exists_congr fun i => and_congr_left fun hi => ?_),
      ih hfs fun name i hi => ?_⟩
    · apply he name i
      rw [hmem]
      tauto
    · apply he name i
      rw [hmem]
      tauto
    · apply he name i
      rw [hmem]
      tauto

/-- The names that exist are those of the groups that are not in a finished alternative. -/
theorem NamesOk.exists_iff (h : NamesOk named above fs) :
    (∃ f ∈ fs, name ∈ f.existingGroupNames) ↔
      ∃ i, named name i ∧ (i ∈ above ∨ Layout.Context.Open (fs.map Frame.layer) i) := by
  induction fs generalizing above with
  | nil =>
    obtain rfl : above = [] := h
    simp [Layout.Context.Open]
  | cons f fs ih =>
    obtain ⟨hitems, -, hfs⟩ := h
    simp only [List.mem_cons, exists_eq_or_imp, hitems name, ih hfs, List.map_cons,
      Layout.Context.open_cons, Frame.layer, Layout.leaves_flat, ← exists_or, ← and_or_left]
    refine exists_congr fun i => and_congr_right fun _ => ?_
    tauto

/-- What holds along a parse: the groups are numbered from the left, and the lists of names are
those of the frames. -/
structure Inv (s : State) : Prop where
  leaves : s.layout.leaves = List.range' 1 s.groups.captureGroupCount
  names : NamesOk s.groups.Named [] (s.top :: s.below)
  bound : ∀ name i, s.groups.Named name i → i ∈ s.layout.leaves

/-- Groups of one name are apart so far. -/
def Good (s : State) : Prop :=
  ∀ name i j, s.groups.Named name i → s.groups.Named name j → i ≠ j → s.layout.apart i j

theorem Inv.init (text : Bytes) : Inv (.init text) where
  leaves := rfl
  names := by simp [NamesOk, State.init, Frame.new, layoutSeq, layoutAlt, FrameType.captures]
  bound := by
    rintro name i ⟨is, h, -⟩
    cases h

theorem Good.init (text : Bytes) : Good (.init text) := by
  rintro name i j ⟨is, h, -⟩
  cases h

theorem Inv.nameExists_iff (h : Inv s) :
    s.nameExists name = true ↔ ∃ i, s.groups.Named name i ∧ s.context.Open i := by
  have he : (∃ f ∈ s.top :: s.below, name ∈ f.existingGroupNames) ↔ _ := h.names.exists_iff
  simpa [State.nameExists, State.context] using he

/-- The next group is a new one. -/
theorem Inv.lt_of_mem (h : Inv s) (hi : i ∈ s.layout.leaves) :
    i < s.groups.captureGroupCount + 1 := by
  rw [h.leaves, List.mem_range'_1] at hi
  omega

/-! ## Rounds -/

theorem NamesOk.new {type : FrameType} (h : NamesOk named type.captures fs) :
    NamesOk named [] (.new type :: fs) :=
  ⟨by simp [Frame.new, layoutSeq], by simp [Frame.new, layoutAlt], h⟩

/-- A node for the groups of `above` and of the names in `names`, which the frame takes over. -/
theorem NamesOk.append {f : Frame} {q : Tree} (names : List Bytes) (is : List Nat)
    (h : NamesOk named above (f :: fs))
    (hnames : ∀ name, name ∈ names ↔ ∃ i, named name i ∧ i ∈ is)
    (hq : ∀ i, i ∈ q.layout.leaves ↔ i ∈ above ∨ i ∈ is) :
    NamesOk named []
      ({ f with existingGroupNames := names ++ f.existingGroupNames }.append q :: fs) := by
  obtain ⟨hitems, halts, hfs⟩ := h
  refine ⟨fun name => ?_, halts, hfs⟩
  have hleaves (i : Nat) : i ∈ (layoutSeq (f.items ++ [q])).leaves ↔
      i ∈ (layoutSeq f.items).leaves ∨ i ∈ above ∨ i ∈ is := by
    rw [layoutSeq_append, Layout.leaves_beside, List.mem_append, layoutSeq, layoutSeq,
      Layout.beside_none, hq]
  show name ∈ names ++ f.existingGroupNames ↔ _
  rw [List.mem_append, hnames, hitems, ← exists_or]
  apply exists_congr
  intro i
  rw [← and_or_left]
  apply and_congr_right
  intro _
  show _ ↔ i ∈ (layoutSeq (f.items ++ [q])).leaves ∨ i ∈ []
  rw [hleaves]
  simp only [List.not_mem_nil, or_false]
  tauto

/-- A round that opens no capture group. -/
structure Keeps (s t : State) : Prop where
  layout : t.layout = s.layout
  count : t.groups.captureGroupCount = s.groups.captureGroupCount
  named : t.groups.namedCaptureGroups = s.groups.namedCaptureGroups
  names : NamesOk s.groups.Named [] (s.top :: s.below) →
    NamesOk s.groups.Named [] (t.top :: t.below)

/-- A round that opens a capture group with the names in `names`, which are none or one. -/
structure Opens (s t : State) (names : List Bytes) : Prop where
  layout : t.layout = .plug (s.groups.captureGroupCount + 1) s.context.Finished s.layout
  count : t.groups.captureGroupCount = s.groups.captureGroupCount + 1
  named : ∀ name i, t.groups.Named name i ↔
    s.groups.Named name i ∨ name ∈ names ∧ i = s.groups.captureGroupCount + 1
  frames : ∃ rest g, t = { s with top := { s.top with
    existingGroupNames := names ++ s.top.existingGroupNames } }.push
      (.group .capture (s.groups.captureGroupCount + 1) .none .none) rest g

theorem Keeps.atom {q : Tree} {cursor : Cursor} {n : Nat} (hq : q.layout = .none)
    (hr : Reads C s.cursor cursor) :
    Keeps s ({ s with cursor := cursor, loopCount := n }.append q) where
  layout := by
    rw [State.layout_append, hq]
    rfl
  count := hr.count
  named := hr.named
  names h := NamesOk.append [] [] h (by simp) (by simp [hq])

theorem Keeps.exit {parent : Frame} {below : List Frame} {q : Tree} {cursor : Cursor} {n : Nat}
    {directions : List Bool} (hb : s.below = parent :: below) (hq : Quantified s.top.wrap q)
    (hr : Reads C s.cursor cursor) :
    Keeps s ({
      cursor := cursor
      loopCount := n
      top := { parent with existingGroupNames :=
        s.top.clearAndMergeGroupNames.mergedExistingGroupNames ++ parent.existingGroupNames }
      below := below
      directions := directions : State }.append q) where
  layout := by
    rw [State.layout_append, hq.layout_eq, Frame.layout_wrap, State.layout, State.context,
      State.context, hb]
    rfl
  count := hr.count
  named := hr.named
  names h := by
    rw [hb] at h
    obtain ⟨hitems, halts, hbelow⟩ := h
    refine NamesOk.append _
      ((layoutAlt s.top.alternatives).leaves ++ (layoutSeq s.top.items).leaves) hbelow ?_ ?_
    · intro name
      simp only [Frame.clearAndMergeGroupNames, List.mem_append, halts, hitems, ← exists_or,
        ← and_or_left, List.not_mem_nil, or_false]
    · intro i
      rw [hq.layout_eq, Frame.layout_wrap]
      simp [Layout.Layer.fill, Frame.layer]

theorem Keeps.alternative {rest : Bytes} :
    Keeps s { s.moveTo rest with top := s.top.nextAlternative } where
  layout := by
    simp only [State.layout, State.context, List.map_cons, Layout.Context.fill_cons,
      Frame.fill_nextAlternative]
    rfl
  count := rfl
  named := rfl
  names := by
    rintro ⟨hitems, halts, hbelow⟩
    refine ⟨by simp [Frame.nextAlternative, Frame.clearAndMergeGroupNames, layoutSeq], ?_, hbelow⟩
    intro name
    simp only [Frame.nextAlternative, Frame.clearAndMergeGroupNames, List.mem_append, halts, hitems,
      ← exists_or, ← and_or_left, List.not_mem_nil, or_false, layoutAlt_append, layoutAlt,
      Layout.either_none, Layout.leaves_either, layout_ofItems]

theorem Keeps.other {type : FrameType} {rest : Bytes} {directions : List Bool}
    (ht : type.captures = []) :
    Keeps s { s.push type rest s.groups with directions := directions } where
  layout := by
    show (s.push type rest s.groups).layout = _
    rw [State.layout_push, ht]
    rfl
  count := rfl
  named := rfl
  names h := .new (ht.symm ▸ h)

/-- A round keeps the layout, or opens a capture group with a name that the check allows. -/
theorem Round.keeps_or_opens (h : Round C s t) : Keeps s t ∨
    ∃ names, Opens s t names ∧ ∀ name ∈ names, (C.checkNames && s.nameExists name) = false := by
  cases h with
  | atom hp hq hr => exact .inl (.atom (hq.layout_eq.trans (layout_of_isAtom hp)) hr)
  | exit hb hq hr => exact .inl (.exit hb hq hr)
  | alternative hr => exact .inl .alternative
  | enter h =>
    cases h with
    | other ht hr => exact .inl (.other ht)
    | capture hr hq =>
      refine .inr ⟨[], ⟨s.layout_capture _ _ rfl, rfl, fun name i => ?_, _, _, rfl⟩, by simp⟩
      show _ ↔ _ ∨ name ∈ [] ∧ _
      simp only [List.not_mem_nil, false_and, or_false]
      rfl
    | named hr he hn hskip hdup =>
      refine .inr ⟨[_], ⟨State.layout_capture _ _ _ rfl, rfl, fun name i => ?_, _, _, rfl⟩,
        by simpa using hdup⟩
      rw [List.mem_singleton]
      exact mem_addName

theorem Keeps.groups_named (h : Keeps s t) : t.groups.Named = s.groups.Named := by
  funext name i
  simp only [Groups.Named, h.named]

theorem Keeps.inv (h : Keeps s t) (hi : Inv s) : Inv t where
  leaves := by rw [h.layout, h.count, hi.leaves]
  names := by
    rw [h.groups_named]
    exact h.names hi.names
  bound := by
    rw [h.groups_named, h.layout]
    exact hi.bound

theorem Keeps.good_iff (h : Keeps s t) : Good t ↔ Good s := by
  rw [Good, Good, h.groups_named, h.layout]

variable {names : List Bytes}

/-- The number of a new group is not that of a group. -/
theorem Inv.ne_of_mem (h : Inv s) (hi : i ∈ s.layout.leaves) :
    i ≠ s.groups.captureGroupCount + 1 := (h.lt_of_mem hi).ne

theorem Inv.nodup_outside (h : Inv s) : s.context.outside.Nodup := by
  rw [← State.leaves_layout, h.leaves]
  exact List.nodup_range' _

theorem Opens.inv (h : Opens s t names) (hi : Inv s) : Inv t where
  leaves := by
    rw [h.layout, h.count, List.range'_1_concat, ← hi.leaves, Nat.add_comm 1]
    rfl
  names := by
    obtain ⟨rest, g, ht⟩ := h.frames
    -- the groups so far keep their names
    have hold : NamesOk t.groups.Named [] (s.top :: s.below) := by
      apply hi.names.congr
      intro name i hmem
      have hmem' : i ∈ s.layout.leaves := by
        rw [State.leaves_layout]
        exact hmem.resolve_left List.not_mem_nil
      rw [h.named]
      exact (or_iff_left fun hnew => hi.ne_of_mem hmem' hnew.2).symm
    obtain ⟨hitems, halts, hbelow⟩ := hold
    have hframes : NamesOk t.groups.Named [s.groups.captureGroupCount + 1]
        ({ s.top with existingGroupNames := names ++ s.top.existingGroupNames } :: s.below) := by
      refine ⟨fun name => ?_, halts, hbelow⟩
      have hnew : (∃ i, t.groups.Named name i ∧ i ∈ [s.groups.captureGroupCount + 1]) ↔
          name ∈ names := by
        simp only [List.mem_singleton, exists_eq_right, h.named, and_true]
        apply or_iff_right
        intro hn
        exact hi.ne_of_mem (hi.bound _ _ hn) rfl
      simp only [and_or_left, exists_or, hnew, List.mem_append, hitems, List.not_mem_nil, or_false]
      exact or_comm
    have htop : t.top :: t.below =
        .new (.group .capture (s.groups.captureGroupCount + 1) .none .none) ::
          { s.top with existingGroupNames := names ++ s.top.existingGroupNames } :: s.below := by
      rw [ht]
      rfl
    rw [htop]
    exact .new hframes
  bound name i hn := by
    rw [h.layout]
    show i ∈ s.layout.leaves ++ [_]
    rcases (h.named name i).1 hn with hn | ⟨-, rfl⟩
    · exact List.mem_append_left _ (hi.bound name i hn)
    · exact List.mem_append_right _ (List.mem_singleton_self _)

/-- Groups of one name stay apart when the name of the new group does not exist. -/
theorem Opens.good_iff (h : Opens s t names) (hi : Inv s) :
    Good t ↔ Good s ∧ ∀ name ∈ names, s.nameExists name = false := by
  constructor
  · intro hg
    refine ⟨fun name i j hi' hj' hne => ?_, fun name hname => ?_⟩
    · have ht := hg name i j ((h.named _ _).2 (.inl hi')) ((h.named _ _).2 (.inl hj')) hne
      rw [h.layout] at ht
      rcases ht with ht | ⟨rfl, -⟩ | ⟨rfl, -⟩
      · exact ht
      · exact absurd rfl (hi.ne_of_mem (hi.bound _ _ hi'))
      · exact absurd rfl (hi.ne_of_mem (hi.bound _ _ hj'))
    · rw [Bool.eq_false_iff, ne_eq, hi.nameExists_iff]
      rintro ⟨i, hn, hopen⟩
      have hne := hi.ne_of_mem (hi.bound _ _ hn)
      have ht := hg name i _ ((h.named _ _).2 (.inl hn)) ((h.named _ _).2 (.inr ⟨hname, rfl⟩)) hne
      rw [h.layout] at ht
      rcases ht with ht | ⟨rfl, -⟩ | ⟨-, hfin⟩
      · exact hi.ne_of_mem (s.closed_layout _ _ ht).2 rfl
      · exact hne rfl
      · exact Layout.Context.not_open_of_finished hi.nodup_outside hfin hopen
  · rintro ⟨hg, hno⟩ name i j hni hnj hne
    -- a group with the name of the new one is in a finished alternative
    have hfin {k : Nat} (hk : s.groups.Named name k) (hname : name ∈ names) :
        s.context.Finished k := by
      have hmem := hi.bound _ _ hk
      rw [State.leaves_layout, Layout.Context.mem_outside] at hmem
      apply hmem.resolve_right
      intro hopen
      have he := hi.nameExists_iff.2 ⟨k, hk, hopen⟩
      rw [hno name hname] at he
      cases he
    rw [h.layout]
    rcases (h.named _ _).1 hni with hi' | ⟨hname, rfl⟩ <;>
      rcases (h.named _ _).1 hnj with hj' | ⟨hname', rfl⟩
    · exact .inl (hg name i j hi' hj' hne)
    · exact .inr (.inr ⟨rfl, hfin hi' hname'⟩)
    · exact .inr (.inl ⟨rfl, hfin hj' hname⟩)
    · exact absurd rfl hne

theorem Round.inv (h : Round C s t) (hi : Inv s) : Inv t := by
  rcases h.keeps_or_opens with hk | ⟨names, ho, -⟩
  · exact hk.inv hi
  · exact ho.inv hi

/-- Two groups of one name that are not apart stay so. -/
theorem Round.good_of_good (h : Round C s t) (hi : Inv s) (hg : Good t) : Good s := by
  rcases h.keeps_or_opens with hk | ⟨names, ho, -⟩
  · exact hk.good_iff.1 hg
  · exact ((ho.good_iff hi).1 hg).1

/-- With the check, groups of one name stay apart. -/
theorem Round.good (h : Round C s t) (hc : C.checkNames = true) (hi : Inv s) (hg : Good s) :
    Good t := by
  rcases h.keeps_or_opens with hk | ⟨names, ho, hno⟩
  · exact hk.good_iff.2 hg
  · refine (ho.good_iff hi).2 ⟨hg, fun name hname => ?_⟩
    simpa [hc] using hno name hname

/-! ## With and without the check -/

/-- The parser without the check of names. -/
abbrev Config.unchecked (C : Config) : Config := { C with checkNames := false }

/-- The parser with the check of names, which is that of the source. -/
abbrev Config.checked (C : Config) : Config := { C with checkNames := true }

theorem newNamedCaptureGroup_checked (hd : s.nameExists name = false) :
    newNamedCaptureGroup C.checked s name = newNamedCaptureGroup C.unchecked s name := by
  simp only [newNamedCaptureGroup, hd, Bool.and_false]

/-- The check makes a difference where a name exists. -/
theorem enterGroup_checked (h : enterGroup C.unchecked s = .ok t) :
    enterGroup C.checked s = .ok t ∨ ∃ name rest,
      enterGroup C.checked s = .error (.duplicatedName name) ∧ s.nameExists name = true ∧
        t = s.enterNamed name rest := by
  unfold enterGroup at h ⊢
  dsimp only at h ⊢
  split at h
  · cases h
  next hdepth =>
  rw [if_neg hdepth]
  split at h
  · next hq =>
    rw [if_pos hq]
    exact .inl h
  next hq =>
  rw [if_neg hq]
  split at h
  · exact .inl h
  split at h
  · cases h
  next hnil =>
  rw [if_neg hnil]
  split at h
  · next hcolon =>
    rw [if_pos hcolon]
    exact .inl h
  next hcolon =>
  rw [if_neg hcolon]
  split at h
  · next hlt =>
    rw [if_pos hlt]
    split at h
    · cases h
    next name rest hname =>
    split at h
    · cases h
    next index s' hnew =>
    obtain ⟨hindex, hs'⟩ := newNamedCaptureGroup_ok hnew
    cases hd : s.nameExists name with
    | false =>
      rw [newNamedCaptureGroup_checked hd, hnew]
      exact .inl h
    | true =>
      refine .inr ⟨name, rest, ?_, hd, ?_⟩
      · simp [newNamedCaptureGroup, hd]
      · cases h
        subst hindex hs'
        rfl
  · next hlt =>
    rw [if_neg hlt]
    exact .inl h

theorem step_checked (h : step C.unchecked s = .inl t) :
    step C.checked s = .inl t ∨ ∃ name rest,
      step C.checked s = .inr (.error (.duplicatedName name)) ∧ s.nameExists name = true ∧
        t = s.enterNamed name rest := by
  unfold step at h ⊢
  split at h
  · cases h
  next ch rest hr =>
  split at h
  · next hch =>
    rw [if_pos hch]
    exact .inl h
  next hstart =>
  rw [if_neg hstart]
  split at h
  · next hch =>
    rw [if_pos hch]
    exact .inl h
  next hstop =>
  rw [if_neg hstop]
  split at h
  · next hch =>
    rw [if_pos hch]
    split at h
    · cases h
    next s' he =>
    cases h
    rcases enterGroup_checked he with he' | ⟨name, rest, he', hd, ht⟩
    · rw [he']
      exact .inl rfl
    · rw [he']
      exact .inr ⟨name, rest, rfl, hd, ht⟩
  next hopen =>
  rw [if_neg hopen]
  exact .inl h

/-- Where the parser without the check ends, the one with it does so too. -/
theorem step_checked_ok {r : Tree × State} (h : step C.unchecked s = .inr (.ok r)) :
    step C.checked s = .inr (.ok r) := by
  have hr := (@step_ok _ _ _ r.1 h).1
  rw [step, hr] at h ⊢
  exact h

theorem good_enterNamed (hi : Inv s) (rest : Bytes) :
    Good (s.enterNamed name rest) ↔ Good s ∧ s.nameExists name = false := by
  have ho : Opens s (s.enterNamed name rest) [name] := by
    refine ⟨State.layout_capture _ _ _ rfl, rfl, fun n i => ?_, _, _, rfl⟩
    rw [List.mem_singleton]
    exact mem_addName
  rw [ho.good_iff hi]
  simp

theorem finish_ok {node : Tree} (h : s.finish = .ok (node, t)) : t = s := by
  unfold State.finish at h
  split at h <;> cases h
  rfl

/-- Behind two groups of one name that are not apart, the tree has such groups. -/
theorem not_good_runTo {n : Nat} {node : Tree} (hi : Inv s) (hg : ¬ Good s)
    (h : Machine.runTo (step C) State.finish n s = .ok (node, t)) : ¬ Good t := by
  refine Machine.runTo_rule (I := fun s => Inv s ∧ ¬ Good s)
    (P := fun r : Except Error (Tree × State) => r = .ok (node, t) → ¬ Good t)
    ?_ ?_ ?_ n ⟨hi, hg⟩ h
  · rintro s ⟨-, hg⟩ h
    rwa [finish_ok h]
  · rintro s t ⟨hi, hg⟩ h
    have hr := Round.of_step h
    exact ⟨hr.inv hi, fun ht => hg (hr.good_of_good hi ht)⟩
  · rintro s r ⟨-, hg⟩ hstep rfl
    rwa [(step_ok hstep).2.2.2]

/-- The runs of the two parsers are the same, up to a name that only one of them refuses. -/
theorem runTo_checked {n : Nat} {node : Tree} (hi : Inv s) (hg : Good s)
    (h : Machine.runTo (step C.unchecked) State.finish n s = .ok (node, t)) :
    (Machine.runTo (step C.checked) State.finish n s = .ok (node, t) ∧ Good t) ∨
      (∃ name, Machine.runTo (step C.checked) State.finish n s = .error (.duplicatedName name)) ∧
        ¬ Good t := by
  induction n generalizing s with
  | zero => exact .inl ⟨h, finish_ok h ▸ hg⟩
  | succ n ih =>
    unfold Machine.runTo at h ⊢
    split at h
    · next u hstep =>
      have hr := Round.of_step hstep
      rcases step_checked hstep with hc | ⟨name, rest, hc, hd, rfl⟩
      · rw [hc]
        exact ih (hr.inv hi) ((Round.of_step hc).good rfl hi hg) h
      · rw [hc]
        refine .inr ⟨⟨name, rfl⟩, not_good_runTo (hr.inv hi) ?_ h⟩
        rw [good_enterNamed hi, hd]
        exact fun hbad => by cases hbad.2
    · next r hstep =>
      subst h
      rw [step_checked_ok hstep]
      exact .inl ⟨rfl, (step_ok hstep).2.2.2 ▸ hg⟩

end Parser

/-! ## The syntax tree -/

/-- The group with this index has this name in the syntax tree. -/
def SyntaxTree.Named (T : SyntaxTree) (name : List Nat) (i : Nat) : Prop :=
  ∃ e, (name, e) ∈ T.namedCaptureGroups ∧ i ∈ e.indices

/-- Two groups with one name are not in different alternatives of a disjunction. -/
def SyntaxTree.Duplicated (T : SyntaxTree) : Prop :=
  ∃ name i j, T.Named name i ∧ T.Named name j ∧ i ≠ j ∧ ¬ T.pattern.Separated i j

namespace Parser

variable {C : Config} {s : State} {m : Modifier} {node : Tree} {T : SyntaxTree}

theorem indices_ofIndices (is : List Nat) : (NamedCaptureEntry.ofIndices is).indices = is := by
  unfold NamedCaptureEntry.ofIndices
  split <;> rfl

theorem named_resolveNames {name : Bytes} {i : Nat} (h : resolveNames C m (node, s) = .ok T) :
    T.Named name i ↔ s.groups.Named name i := by
  unfold SyntaxTree.Named Groups.Named
  rw [(resolveNames_ok h).2.1]
  constructor
  · rintro ⟨e, he, hi⟩
    obtain ⟨⟨n, is⟩, hmem, hn⟩ := List.mem_map.1 he
    cases hn
    rw [indices_ofIndices] at hi
    exact ⟨is, hmem, hi⟩
  · rintro ⟨is, hmem, hi⟩
    refine ⟨.ofIndices is, List.mem_map_of_mem hmem, ?_⟩
    rwa [indices_ofIndices]

/-- At the end of a parse, the layout is that of the tree. -/
theorem good_iff_not_duplicated (hi : Inv s) (hb : s.below = [])
    (h : resolveNames C m (s.top.node, s) = .ok T) : Good s ↔ ¬ T.Duplicated := by
  obtain ⟨offset, hT⟩ := (resolveNames_ok h).2.2
  have hcaptures : s.top.type.captures = [] := by
    have hn := hi.names
    rw [hb] at hn
    exact hn.2.2
  have hlayout : T.pattern.layout = s.layout := by
    rw [hT, layout_setIndices, State.layout, State.context, hb]
    show (ofAlternatives s.top.alternatives s.top.items).layout = s.top.layer.fill .none
    rw [layout_ofAlternatives, Layout.Layer.fill, Frame.layer, Layout.beside_none, hcaptures]
    exact (Layout.none_beside _).symm
  have hsep (i j : Nat) : s.layout.apart i j ↔ T.pattern.Separated i j := by
    rw [← hlayout, apart_layout]
  simp only [Good, SyntaxTree.Duplicated, named_resolveNames h, hsep]
  push Not
  rfl

/-- The parser refuses a pattern without another fault for its names exactly when two groups of one
name are not in different alternatives of a disjunction, and parses the other ones as they are. -/
theorem rejects_iff (C : Config) (m : Modifier) (text : Bytes) (T : SyntaxTree)
    (h : parser C.unchecked m text = .ok T) :
    ((∃ name, parser C.checked m text = .error (.duplicatedName name)) ↔ T.Duplicated) ∧
      (¬ T.Duplicated → parser C.checked m text = .ok T) := by
  obtain ⟨node, s, hp, hn⟩ := parser_ok h
  obtain ⟨-, hi, -, hb, rfl⟩ := parse_ok (I := Inv) (Inv.init text) (fun _ _ hi h => h.inv hi) hp
  have hgood := good_iff_not_duplicated hi hb hn
  rcases runTo_checked (Inv.init text) (Good.init text) hp with ⟨hc, hg⟩ | ⟨⟨name, hc⟩, hg⟩
  · have hok : parser C.checked m text = .ok T := by
      unfold parser parse
      rw [hc]
      exact hn
    refine ⟨⟨?_, fun hd => absurd hd (hgood.1 hg)⟩, fun _ => hok⟩
    rintro ⟨name, herr⟩
    rw [hok] at herr
    cases herr
  · have hd : T.Duplicated := not_not.1 fun hd => hg (hgood.2 hd)
    refine ⟨⟨fun _ => hd, fun _ => ⟨name, ?_⟩⟩, fun hd' => absurd hd hd'⟩
    unfold parser parse
    rw [hc]
    rfl

/-- `(?:(?<a>x)|y(?=(?<a>z)))`. -/
def groupsInAlternatives : Bytes := "(?:(?<a>x)|y(?=(?<a>z)))".toList.map Char.toNat

/-- One name in two alternatives, in a look-ahead in the second one. -/
theorem rejects_iff_alternatives :
    ∃ T, parser (Config.checked ⟨.unicode, true, asciiUcp, true⟩) .none groupsInAlternatives =
      .ok T ∧ ¬ T.Duplicated := by
  have hok : (parser (Config.checked ⟨.unicode, true, asciiUcp, true⟩) .none
      groupsInAlternatives).isOk = true := by
    decide
  have hok' : (parser (Config.unchecked ⟨.unicode, true, asciiUcp, true⟩) .none
      groupsInAlternatives).isOk = true := by
    decide
  cases hT : parser (Config.unchecked ⟨.unicode, true, asciiUcp, true⟩) .none
      groupsInAlternatives with
  | error err =>
    rw [hT] at hok'
    cases hok'
  | ok T =>
    obtain ⟨hiff, hkeep⟩ := rejects_iff ⟨.unicode, true, asciiUcp, true⟩ .none _ T hT
    have hd : ¬ T.Duplicated := by
      intro hd
      obtain ⟨name, herr⟩ := hiff.2 hd
      rw [herr] at hok
      cases hok
    exact ⟨T, hkeep hd, hd⟩

end Parser

end Arsh.Regex
