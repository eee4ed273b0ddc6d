import Arsh.Regex.Search

/-!
# Running code as a search

`Refines K L R W exit B r s` says that the virtual machine, started in `s`, behaves as the search
`r`: it comes to the instruction `exit` with the position and the captures of the first success,
having pushed entries on top of the stack `B.stack`; and whenever it is made to backtrack to
those entries later, it behaves as the rest of `r`. When `r` fails it backtracks into `B.stack`.

Between a success and its resumption the rest of the program changes captures and loop counters.
What it must put back are those of the groups and loops passed on the way to that success
(`K.groups`, `K.loops`); of a group that is still open it is only the end at which the group
began. Other groups may keep what a look-around has set. What a node must not change at all on
the way to a success is the smaller level `L`: a loop sets its groups anew in every round.

All the states that such a run passes are `Sound`.
-/

namespace Arsh.Regex

open UnicodeUtil Machine

/-! ## Positions, captures and loops -/

/-- The start of a code point of the text, or its end. -/
def Valid (cs : List Nat) (p : Nat) : Prop := ∃ i, i ≤ cs.length ∧ p = off cs i

/-- `q` is not before `p` in the direction of matching. -/
def Advances (forward : Bool) (p q : Nat) : Prop := if forward then p ≤ q else q ≤ p

theorem Advances.refl (forward : Bool) (p : Nat) : Advances forward p p := by
  cases forward <;> exact Nat.le_refl p

theorem Advances.trans {forward : Bool} {p q r : Nat} (h : Advances forward p q)
    (h' : Advances forward q r) : Advances forward p r := by
  cases forward
  · exact Nat.le_trans h' h
  · exact Nat.le_trans h h'

/-- A capture that covers a part of the text. -/
def Capture.Spans (cs : List Nat) (c : Capture) : Prop :=
  ∃ i j, i ≤ j ∧ j ≤ cs.length ∧ c.offset = off cs i ∧ c.offset + c.size = off cs j

/-- Every capture is unset or covers a part of the text. -/
def CapturesOk (cs : List Nat) (c : Captures) : Prop := ∀ g, c g = .unset ∨ (c g).Spans cs

/-- Two captures that begin at the same place; backwards a capture begins at its end. -/
def SameStart (forward : Bool) (c d : Capture) : Prop :=
  if forward then c.offset = d.offset else c.endOffset = d.endOffset

/-- Where a node stands: the direction of matching, the groups that are open, and the groups and
loops (the open ones included) that have been entered on the way to it. -/
structure Level where
  forward : Bool
  opened : List Nat
  groups : List Nat
  loops : List Nat

/-- The level behind a node with the groups `R` and the loops `W`. -/
def Level.pass (K : Level) (R W : List Nat) : Level :=
  { K with groups := R ++ K.groups, loops := W ++ K.loops }

/-- The captures `c` are `d` but for groups not entered and the free ends of open ones. -/
def Frame (K : Level) (c d : Captures) : Prop :=
  ∀ g ∈ K.groups, if g ∈ K.opened then SameStart K.forward (c g) (d g) else c g = d g

/-- The counters of the loops entered are unchanged. -/
def LoopFrame (K : Level) (l m : Loops) : Prop := ∀ i ∈ K.loops, l i = m i

section
variable {K : Level} {R R' W W' : List Nat} {c d e : Captures} {l m n : Loops}

theorem SameStart.refl (forward : Bool) (c : Capture) : SameStart forward c c := by
  cases forward <;> rfl

theorem SameStart.trans {forward : Bool} {a b c : Capture} (h : SameStart forward a b)
    (h' : SameStart forward b c) : SameStart forward a c := by
  cases forward <;> exact Eq.trans h h'

theorem Frame.of_eq (h : ∀ g ∈ K.groups, c g = d g) : Frame K c d := by
  intro g hg
  rw [h g hg]
  split
  · exact .refl _ _
  · rfl

theorem Frame.refl (K : Level) (c : Captures) : Frame K c c := .of_eq fun _ _ => rfl

theorem Frame.trans (h : Frame K c d) (h' : Frame K d e) : Frame K c e := by
  intro g hg
  have h1 := h g hg
  have h2 := h' g hg
  split at h1
  · next ho => rw [if_pos ho] at h2 ⊢; exact h1.trans h2
  · next ho => rw [if_neg ho] at h2 ⊢; exact h1.trans h2

/-- A group that is not open keeps its capture. -/
theorem Frame.eq {g : Nat} (h : Frame K c d) (hg : g ∈ K.groups) (ho : g ∉ K.opened) :
    c g = d g := by
  have := h g hg
  rwa [if_neg ho] at this

theorem Frame.of_pass (h : Frame (K.pass R W) c d) : Frame K c d :=
  fun g hg => h g (List.mem_append_right _ hg)

theorem LoopFrame.refl (K : Level) (l : Loops) : LoopFrame K l l := fun _ _ => rfl

theorem LoopFrame.trans (h : LoopFrame K l m) (h' : LoopFrame K m n) : LoopFrame K l n :=
  fun i hi => (h i hi).trans (h' i hi)

theorem LoopFrame.of_pass (h : LoopFrame (K.pass R W) l m) : LoopFrame K l m :=
  fun i hi => h i (List.mem_append_right _ hi)

/-- `L` asks for less than `K`. -/
structure Level.Within (L K : Level) : Prop where
  forward : L.forward = K.forward
  opened : L.opened = K.opened
  groups : L.groups ⊆ K.groups
  loops : L.loops ⊆ K.loops

theorem Level.Within.refl (K : Level) : K.Within K :=
  ⟨rfl, rfl, List.Subset.refl _, List.Subset.refl _⟩

theorem Level.Within.pass {L : Level} (h : L.Within K) (R W : List Nat) : L.Within (K.pass R W) :=
  ⟨h.forward, h.opened, fun _ hg => List.mem_append_right _ (h.groups hg),
    fun _ hi => List.mem_append_right _ (h.loops hi)⟩

theorem Level.Within.pass_mono (hR : R' ⊆ R) (hW : W' ⊆ W) : (K.pass R' W').Within (K.pass R W) := by
  refine ⟨rfl, rfl, fun g hg => ?_, fun i hi => ?_⟩
  · rcases List.mem_append.1 hg with hg | hg
    · exact List.mem_append_left _ (hR hg)
    · exact List.mem_append_right _ hg
  · rcases List.mem_append.1 hi with hi | hi
    · exact List.mem_append_left _ (hW hi)
    · exact List.mem_append_right _ hi

theorem Level.Within.pass_pass {R₁ R₂ W₁ W₂ : List Nat} (hR : R₂ ++ R₁ ⊆ R) (hW : W₂ ++ W₁ ⊆ W) :
    ((K.pass R₁ W₁).pass R₂ W₂).Within (K.pass R W) := by
  have := @Level.Within.pass_mono K R (R₂ ++ R₁) W (W₂ ++ W₁) hR hW
  rwa [Level.pass, List.append_assoc, List.append_assoc] at this

theorem Frame.within {L : Level} (h : Frame K c d) (hL : L.Within K) : Frame L c d := by
  intro g hg
  rw [hL.opened, hL.forward]
  exact h g (hL.groups hg)

theorem LoopFrame.within {L : Level} (h : LoopFrame K l m) (hL : L.Within K) : LoopFrame L l m :=
  fun i hi => h i (hL.loops hi)

end

/-! ## Refinement -/

variable {cap : Option Nat}

/-- The captures are good and the assertions of the instruction at hand hold. -/
structure Sound (E : Env) (cs : List Nat) (s : State cap) : Prop where
  captures : CapturesOk cs s.captures
  asserts : s.label = .dispatch → ∀ ins ∈ E.regex.instSeq[s.inst]?, ins.Asserts s

/-- Outside of the dispatch of instructions nothing is asserted. -/
theorem Sound.of_label {E : Env} {cs : List Nat} {s : State cap} (h : CapturesOk cs s.captures)
    (hl : s.label ≠ .dispatch) : Sound E cs s := ⟨h, fun hd => absurd hd hl⟩

theorem Sound.of_inst {E : Env} {cs : List Nat} {s : State cap} {ins : Inst}
    (h : CapturesOk cs s.captures) (hi : E.regex.instSeq[s.inst]? = some ins)
    (ha : ins.Asserts s) : Sound E cs s := by
  refine ⟨h, fun _ x hx => ?_⟩
  rw [hi] at hx
  cases hx
  exact ha

/-- The results that excuse a run: a limit was hit. -/
def MatchResult.Limited (r : MatchResult) : Prop :=
  r.status = .cancel ∨ r.status = .timeout ∨ r.status = .stackLimit

/-- The captures recorded by a part of the stack. -/
def undoOf : List Backtrack → Undo
  | [] => []
  | .setCapture i c :: es => (i, c) :: undoOf es
  | _ :: es => undoOf es

@[simp] theorem undoOf_append (xs ys : List Backtrack) :
    undoOf (xs ++ ys) = undoOf xs ++ undoOf ys := by
  induction xs with
  | nil => rfl
  | cons e xs ih => cases e <;> simp [undoOf, ih]

theorem undoOf_map (u : Undo) : undoOf (u.map fun x => .setCapture x.1 x.2) = u := by
  induction u with
  | nil => rfl
  | cons x u ih => exact congrArg (x :: ·) ih

/-- What a node with the groups `R` may leave on the stack: no entry of a look-around, and only
good captures of its own groups. -/
def Backtrack.Allowed (cs R : List Nat) : Backtrack → Prop
  | .lookAround .. => False
  | .setCapture g c => g ∈ R ∧ (c = .unset ∨ c.Spans cs)
  | _ => True

def Clean (cs R : List Nat) (es : List Backtrack) : Prop := ∀ e ∈ es, e.Allowed cs R

theorem Clean.append {cs R : List Nat} {xs ys : List Backtrack} (hx : Clean cs R xs)
    (hy : Clean cs R ys) : Clean cs R (xs ++ ys) := by
  intro e he
  rcases List.mem_append.1 he with h | h
  · exact hx e h
  · exact hy e h

theorem clean_nil {cs R : List Nat} : Clean cs R [] := by intro e he; cases he

theorem Clean.cons {cs R : List Nat} {e : Backtrack} {es : List Backtrack} (h : e.Allowed cs R)
    (hs : Clean cs R es) : Clean cs R (e :: es) := by
  intro x hx
  rcases List.mem_cons.1 hx with rfl | hx
  · exact h
  · exact hs x hx

theorem clean_setCapture {cs R : List Nat} {g : Nat} {c : Capture} (hg : g ∈ R)
    (hc : c = .unset ∨ c.Spans cs) : Clean cs R [.setCapture g c] :=
  clean_nil.cons (show g ∈ R ∧ _ from ⟨hg, hc⟩)

theorem Clean.mono {cs R R' : List Nat} {es : List Backtrack} (h : Clean cs R es) (hR : R ⊆ R') :
    Clean cs R' es := by
  intro e he
  have := h e he
  cases e with
  | setCapture g c => exact ⟨hR this.1, this.2⟩
  | _ => exact this

/-- What a search starts from, apart from the code. -/
structure Base where
  stack : List Backtrack
  undo : Undo
  loops : Loops
  captures : Captures
  iter : Nat
  oldIter : Nat

/-- The base of a search started in `s`. -/
def State.base (s : State cap) (undo : Undo) : Base :=
  ⟨s.stack.entries, undo, s.loops, s.captures, s.iter, s.oldIter⟩

section
variable (E : Env) (keep : Bool) (cs : List Nat)

/-- The machine backtracks to the stack `B.stack`. -/
structure FailsAt (K : Level) (B : Base) (c : Captures) (t : State cap) : Prop where
  label : t.label = .backtrack
  stack : t.stack.entries = B.stack
  oldIter : t.oldIter = B.oldIter
  captures : t.captures = c
  ok : CapturesOk cs c
  frame : Frame K c B.captures
  loops : LoopFrame K t.loops B.loops

/-- The machine has come to `exit` with a success at `p`. -/
structure FoundAt (L : Level) (R : List Nat) (exit : Nat) (B : Base) (p : Nat) (c : Captures)
    (u : Undo) (t : State cap) : Prop where
  label : t.label = .dispatch
  inst : t.inst = exit
  iter : t.iter = p
  oldIter : t.oldIter = B.oldIter
  captures : t.captures = c
  stack : ∃ X, t.stack.entries = X ++ B.stack ∧ Clean cs R X ∧ u = undoOf X ++ B.undo
  valid : Valid cs p
  advances : Advances L.forward B.iter p
  ok : CapturesOk cs c
  frame : Frame L c B.captures
  loops : LoopFrame L t.loops B.loops

/-- The machine, started in the state, behaves as the search of a node with the groups `R` and
the loops `W`. -/
def Refines (K L : Level) (R W : List Nat) (exit : Nat) (B : Base) : Search → State cap → Prop
  | .fail c, s => Leads (stepWith keep E) (Sound E cs) (FailsAt cs K B c) MatchResult.Limited s
  | .found p c u next, s =>
    Leads (stepWith keep E) (Sound E cs)
      (fun t => FoundAt cs L R exit B p c u t ∧
        ∀ t', FailsAt cs (K.pass R W) (t.base u) t'.captures t' →
          Refines K L R W exit B (next t'.captures) t')
      MatchResult.Limited s

end

section
variable {E : Env} {keep : Bool} {cs : List Nat} {K K₁ L L₁ : Level}
  {R R₁ R₂ W W₁ W₂ : List Nat} {exit mid : Nat} {B B' : Base} {r : Search} {s t : State cap}

theorem FailsAt.within {c : Captures} (h : FailsAt cs K B c t) (hK : K₁.Within K) :
    FailsAt cs K₁ B c t :=
  { h with frame := h.frame.within hK, loops := h.loops.within hK }

theorem Refines.of_within (h : Within (stepWith keep E) (Sound E cs) s t)
    (h' : Refines E keep cs K L R W exit B r t) : Refines E keep cs K L R W exit B r s := by
  cases r with
  | fail c => exact Leads.of_within h h'
  | found p c u next => exact Leads.of_within h h'

theorem Refines.of_step (hs : Sound E cs s) (h : stepWith keep E s = .inl t)
    (h' : Refines E keep cs K L R W exit B r t) : Refines E keep cs K L R W exit B r s :=
  .of_within (.single hs h) h'

/-- A run that ends at a limit is excused. -/
theorem Refines.limited {x : MatchResult} (h : Ends (stepWith keep E) (Sound E cs) s x)
    (hx : x.Limited) :
    Refines E keep cs K L R W exit B r s := by
  cases r with
  | fail c => exact .inr ⟨x, h, hx⟩
  | found p c u next => exact .inr ⟨x, h, hx⟩

theorem Refines.limit {x : MatchResult} (hs : Sound E cs s) (h : stepWith keep E s = .inr x)
    (hx : x.Limited) : Refines E keep cs K L R W exit B r s := .limited (.now hs h) hx

theorem refines_fail {c : Captures} (h : FailsAt cs K B c s) :
    Refines E keep cs K L R W exit B (.fail c) s := Leads.here h

theorem refines_one {p : Nat} {c : Captures} {u : Undo} (h : FoundAt cs L R exit B p c u s)
    (hs : s.stack.entries = B.stack) (hf : Frame K c B.captures)
    (hl : LoopFrame K s.loops B.loops) : Refines E keep cs K L R W exit B (.one p c u) s := by
  obtain rfl := h.captures
  refine Leads.here ⟨h, fun t' ht' => refines_fail ⟨ht'.label, ?_, ?_, rfl, ht'.ok, ?_, ?_⟩⟩
  · exact ht'.stack.trans hs
  · exact ht'.oldIter.trans h.oldIter
  · exact ht'.frame.of_pass.trans hf
  · exact ht'.loops.of_pass.trans hl

/-- `B'` arises from `B` by pushing entries, moving on, and by changes that `L` allows. -/
structure Base.Extends (cs : List Nat) (L : Level) (R : List Nat) (B B' : Base) : Prop where
  stack : ∃ Y, B'.stack = Y ++ B.stack ∧ Clean cs R Y ∧ B'.undo = undoOf Y ++ B.undo
  oldIter : B'.oldIter = B.oldIter
  advances : Advances L.forward B.iter B'.iter
  frame : Frame L B'.captures B.captures
  loops : LoopFrame L B'.loops B.loops

theorem FoundAt.extends {p : Nat} {c : Captures} {u : Undo} (h : FoundAt cs L R exit B p c u t) :
    B.Extends cs L R (t.base u) := by
  obtain rfl := h.iter
  obtain rfl := h.captures
  exact ⟨h.stack, h.oldIter, h.advances, h.frame, h.loops⟩

theorem Base.Extends.within (h : B.Extends cs L₁ R B') (hL : L.Within L₁) : B.Extends cs L R B' :=
  { h with
    advances := hL.forward ▸ h.advances
    frame := h.frame.within hL
    loops := h.loops.within hL }

theorem Base.Extends.mono (h : B.Extends cs L R₁ B') (hR : R₁ ⊆ R) : B.Extends cs L R B' :=
  let ⟨Y, hY, hc, hu⟩ := h.stack
  { h with stack := ⟨Y, hY, hc.mono hR, hu⟩ }

/-- A success from `B'` is one from `B`. -/
theorem FoundAt.extend {p : Nat} {c : Captures} {u : Undo} (h : FoundAt cs L R₂ exit B' p c u t)
    (hR : R₂ ⊆ R) (hB : B.Extends cs L R B') : FoundAt cs L R exit B p c u t := by
  obtain ⟨X, hX, hXc, rfl⟩ := h.stack
  obtain ⟨Y, hY, hYc, hu⟩ := hB.stack
  exact {
    h with
    oldIter := h.oldIter.trans hB.oldIter
    stack := ⟨X ++ Y, by rw [hX, hY, List.append_assoc], (hXc.mono hR).append hYc, by simp [hu]⟩
    advances := hB.advances.trans h.advances
    frame := h.frame.trans hB.frame
    loops := h.loops.trans hB.loops }

/-- Ordered choice: the search goes on with `f` when the machine has backtracked to the entries
of `B'`. -/
theorem Refines.orElse {f : Captures → Search} (h : Refines E keep cs K₁ L R₁ W₁ exit B' r s)
    (hK : (K₁.pass R₁ W₁).Within (K.pass R W)) (hR : R₁ ⊆ R) (hB : B.Extends cs L R B')
    (hf : ∀ c (t : State cap), FailsAt cs K₁ B' c t → Refines E keep cs K L R W exit B (f c) t) :
    Refines E keep cs K L R W exit B (r.orElse f) s := by
  induction r generalizing s with
  | fail c =>
    rcases h with ⟨t, ht, hq⟩ | ⟨x, hx, hl⟩
    · exact .of_within ht (hf c t hq)
    · exact .limited hx hl
  | found p c u next ih =>
    apply Leads.bind h
    rintro t ⟨ht, hnext⟩
    exact Leads.here ⟨ht.extend hR hB, fun t' ht' => ih _ (hnext t' (ht'.within hK))⟩

/-- Sequencing: where `r` succeeds the machine goes on as `f`. -/
theorem Refines.bind {f : Nat → Captures → Undo → Search} (hL : L.Within L₁)
    (h : Refines E keep cs K L₁ R₁ W₁ mid B r s) (hR : R₂ ++ R₁ ⊆ R) (hW : W₂ ++ W₁ ⊆ W)
    (hf : ∀ p c u (t : State cap), FoundAt cs L₁ R₁ mid B p c u t →
      Refines E keep cs (K.pass R₁ W₁) L R₂ W₂ exit (t.base u) (f p c u) t) :
    Refines E keep cs K L R W exit B (r.bind f) s := by
  induction r generalizing s with
  | fail c => exact h
  | found p c u next ih =>
    rcases h with ⟨t, hr, ht, hnext⟩ | ⟨x, hx, hl⟩
    · have hR₁ : R₁ ⊆ R := fun g hg => hR (List.mem_append_right _ hg)
      have hR₂ : R₂ ⊆ R := fun g hg => hR (List.mem_append_left _ hg)
      refine .of_within hr (Refines.orElse (hf p c u t ht) (.pass_pass hR hW) hR₂
        ((ht.extends.within hL).mono hR₁) ?_)
      intro c' t' ht'
      obtain rfl := ht'.captures
      exact ih _ (hnext t' ht')
    · exact .limited hx hl

/-- The same search from a base that differs only in what `K` allows. -/
theorem Refines.rebase (hL : L.Within K) (h : Refines E keep cs K L R₁ W₁ exit B' r s)
    (hR : R₁ ⊆ R) (hW : W₁ ⊆ W) (hs : B'.stack = B.stack) (hu : B'.undo = B.undo)
    (ho : B'.oldIter = B.oldIter) (ha : Advances L.forward B.iter B'.iter)
    (hf : Frame K B'.captures B.captures) (hl : LoopFrame K B'.loops B.loops) :
    Refines E keep cs K L R W exit B r s := by
  have hB : B.Extends cs L R B' :=
    ⟨⟨[], by simpa using hs, clean_nil, by simpa [undoOf] using hu⟩, ho, ha, hf.within hL,
      hl.within hL⟩
  induction r generalizing s with
  | fail c =>
    refine Leads.bind h fun t ht => Leads.here ?_
    exact ⟨ht.label, ht.stack.trans hs, ht.oldIter.trans ho, ht.captures, ht.ok,
      ht.frame.trans hf, ht.loops.trans hl⟩
  | found p c u next ih =>
    apply Leads.bind h
    rintro t ⟨ht, hnext⟩
    exact Leads.here ⟨ht.extend hR hB, fun t' ht' => ih _ (hnext t' (ht'.within (.pass_mono hR hW)))⟩

theorem Refines.mono (hL : L.Within K) (h : Refines E keep cs K L R₁ W₁ exit B r s) (hR : R₁ ⊆ R)
    (hW : W₁ ⊆ W) : Refines E keep cs K L R W exit B r s :=
  h.rebase hL hR hW rfl rfl rfl (.refl _ _) (.refl _ _) (.refl _ _)

end

end Arsh.Regex
