import Arsh.Regex.Refine

/-!
# Simulation

The code of a node does what `Node.search` says. `Simulates K f R W a b` is that statement for
the code between the addresses `a` and `b` and the search `f`; there is one lemma for each shape
of code that `CodeGen` emits, and `simulates_generate` puts them together by induction on the
node.
-/

namespace Arsh.Regex

open UnicodeUtil Machine

/-! ## Reading a valid text -/

theorem consume_forward {cs : List Nat} (hcs : CodePoints cs) {i : Nat} (h : i < cs.length) :
    consume (encode cs) true (off cs i) = some (cs[i], off cs (i + 1)) := by
  have : off cs i ≠ (encode cs).length := by
    rw [Ne, off_eq_end hcs (Nat.le_of_lt h)]
    omega
  simp [consume, this, unsafeNextUtf8_off hcs h]

theorem consume_forward_end (cs : List Nat) :
    consume (encode cs) true (off cs cs.length) = none := by
  simp [consume, off_length]

theorem consume_backward {cs : List Nat} (hcs : CodePoints cs) {i : Nat} (h : i < cs.length) :
    consume (encode cs) false (off cs (i + 1)) = some (cs[i], off cs i) := by
  have : off cs (i + 1) ≠ 0 := by
    rw [Ne, off_eq_zero hcs h]
    omega
  simp [consume, this, unsafePrevUtf8_off hcs h]

theorem consume_backward_zero (cs : List Nat) : consume (encode cs) false (off cs 0) = none := by
  simp [consume]

/-- The distance to the end of the text in the direction of matching. -/
def rest (cs : List Nat) (forward : Bool) (p : Nat) : Nat :=
  if forward then (encode cs).length - p else p

theorem Valid.le {cs : List Nat} (hcs : CodePoints cs) {p : Nat} (h : Valid cs p) :
    p ≤ (encode cs).length := by
  obtain ⟨i, hi, rfl⟩ := h
  rw [← off_length]
  exact off_le hcs hi (Nat.le_refl _)

theorem le_of_off_le {cs : List Nat} (hcs : CodePoints cs) {i j : Nat} (hi : i ≤ cs.length)
    (h : off cs i ≤ off cs j) : i ≤ j := by
  by_contra hlt
  have := off_lt hcs (Nat.lt_of_not_le hlt) hi
  omega

theorem Valid.off {cs : List Nat} {i : Nat} (h : i ≤ cs.length) : Valid cs (off cs i) := ⟨i, h, rfl⟩

theorem consume_valid {cs : List Nat} (hcs : CodePoints cs) {forward : Bool} {p c q : Nat}
    (hp : Valid cs p) (h : consume (encode cs) forward p = some (c, q)) :
    Valid cs q ∧ Advances forward p q := by
  obtain ⟨i, hi, rfl⟩ := hp
  cases forward with
  | true =>
    rcases Nat.lt_or_eq_of_le hi with hi | rfl
    · rw [consume_forward hcs hi] at h
      cases h
      exact ⟨.off hi, Nat.le_of_lt (off_lt_succ hcs hi)⟩
    · rw [consume_forward_end] at h
      cases h
  | false =>
    rcases i with _ | i
    · rw [consume_backward_zero] at h
      cases h
    · rw [consume_backward hcs hi] at h
      cases h
      exact ⟨.off (Nat.le_of_lt hi), Nat.le_of_lt (off_lt_succ hcs hi)⟩

/-! ## Steps of the machine -/

variable {cap : Option Nat}

/-- The step comes to a state in `P` or ends at a limit. -/
def Step.Ok (P : State cap → Prop) : Step cap → Prop
  | .inl t => P t
  | .inr r => r.Limited

theorem Step.Ok.of {P : State cap → Prop} {t : State cap} (h : P t) : Step.Ok P (.inl t) := h

theorem BacktrackStack.push_some {s s' : BacktrackStack cap} {e : Backtrack}
    (h : s.push e = some s') : s'.entries = e :: s.entries := by
  unfold push at h
  split at h
  · cases h
  · cases h
    rfl

theorem BacktrackStack.pop_cons {s : BacktrackStack cap} {e : Backtrack} {es : List Backtrack}
    (h : s.entries = e :: es) : ∃ s', s.pop = some (e, s') ∧ s'.entries = es := by
  unfold pop
  split
  · next h' => rw [h] at h'; cases h'
  · next h' =>
    rw [h] at h'
    cases h'
    exact ⟨_, rfl, rfl⟩

theorem BacktrackStack.pop_nil {s : BacktrackStack cap} (h : s.entries = []) : s.pop = none := by
  unfold pop
  split
  · rfl
  · next h' => rw [h] at h'; cases h'

theorem tryPush_ok {s : State cap} {e : Backtrack} {k : State cap → Step cap} {P : State cap → Prop}
    (h : ∀ st : BacktrackStack cap, st.entries = e :: s.stack.entries →
      (k { s with stack := st }).Ok P) : (s.tryPush e k).Ok P := by
  unfold State.tryPush
  split
  · exact .inr (.inr rfl)
  · next st hst => exact h st (BacktrackStack.push_some hst)

theorem checkTimer_ok {E : Env} {s : State cap} {P : State cap → Prop}
    (h : ∀ n k, P { s with btCount := n, ticks := k }) : (checkTimer E s).Ok P := by
  unfold checkTimer
  split
  · split
    · exact h 0 s.ticks
    · split
      · exact h 0 (s.ticks + 1)
      · exact .inl rfl
      · exact .inr (.inl rfl)
  · exact h (s.btCount + 1) s.ticks

section
variable {E : Env} {keep : Bool} {cs : List Nat} {K L : Level} {R R₁ R₂ W W₁ W₂ : List Nat}
  {a b mid exit : Nat} {B : Base} {r : Search} {s : State cap}

theorem Refines.of_ok (hs : Sound E cs s)
    (h : (stepWith keep E s).Ok (Refines E keep cs K L R W exit B r)) :
    Refines E keep cs K L R W exit B r s := by
  cases hstep : stepWith keep E s with
  | inl t => rw [hstep] at h; exact .of_step hs hstep h
  | inr x => rw [hstep] at h; exact .limit hs hstep h

/-- The step of an instruction. -/
theorem stepWith_dispatch {ins : Inst} (hl : s.label = .dispatch)
    (hi : E.regex.instSeq[s.inst]? = some ins) : stepWith keep E s = dispatch keep E s ins := by
  simp [stepWith, hl, hi]

/-- The step of `BACKTRACK` with an entry on the stack. -/
theorem stepWith_backtrack {e : Backtrack} {es : List Backtrack} (hl : s.label = .backtrack)
    (hs : s.stack.entries = e :: es) :
    ∃ st : BacktrackStack cap, st.entries = es ∧
      stepWith keep E s = undo E { s with stack := st } e := by
  obtain ⟨st, h, hst⟩ := BacktrackStack.pop_cons hs
  exact ⟨st, hst, by simp [stepWith, hl, h]⟩

/-- Popping an entry that resumes an instruction. -/
theorem backtrack_setIns {target iter : Nat} {es : List Backtrack} {P : State cap → Prop}
    (hl : s.label = .backtrack) (hs : s.stack.entries = .setIns target iter :: es)
    (h : ∀ t : State cap, t.label = .dispatch → t.inst = target → t.iter = iter →
      t.stack.entries = es → t.captures = s.captures → t.loops = s.loops →
      t.oldIter = s.oldIter → P t) : (stepWith keep E s).Ok P := by
  obtain ⟨st, hst, he⟩ := @stepWith_backtrack cap E keep s _ _ hl hs
  rw [he]
  exact checkTimer_ok fun n k => h _ rfl rfl rfl hst rfl rfl rfl

/-- Popping an entry that restores a capture. -/
theorem backtrack_setCapture {g : Nat} {c : Capture} {es : List Backtrack}
    (hl : s.label = .backtrack) (hs : s.stack.entries = .setCapture g c :: es) :
    ∃ t : State cap, stepWith keep E s = .inl t ∧ t.label = .backtrack ∧ t.stack.entries = es ∧
      t.captures = Function.update s.captures g c ∧ t.loops = s.loops ∧
      t.oldIter = s.oldIter := by
  obtain ⟨st, hst, he⟩ := @stepWith_backtrack cap E keep s _ _ hl hs
  exact ⟨_, he, hl, hst, rfl, rfl, rfl⟩

/-- Popping an entry that restores a loop. -/
theorem backtrack_setLoopState {i : Nat} {l : LoopState} {es : List Backtrack}
    (hl : s.label = .backtrack) (hs : s.stack.entries = .setLoopState i l :: es) :
    ∃ t : State cap, stepWith keep E s = .inl t ∧ t.label = .backtrack ∧ t.stack.entries = es ∧
      t.captures = s.captures ∧ t.loops = Function.update s.loops i l ∧
      t.oldIter = s.oldIter := by
  obtain ⟨st, hst, he⟩ := @stepWith_backtrack cap E keep s _ _ hl hs
  exact ⟨_, he, hl, hst, rfl, rfl, rfl⟩

end

/-! ## Simulation and its combinators -/

/-- The state in which the code at `a` is entered. -/
structure Enters (cs : List Nat) (a : Nat) (s : State cap) : Prop where
  label : s.label = .dispatch
  inst : s.inst = a
  valid : Valid cs s.iter
  ok : CapturesOk cs s.captures

/-- The code from `a` to `b` does what `f` says. -/
def Simulates (cap : Option Nat) (E : Env) (keep : Bool) (cs : List Nat) (K L : Level)
    (f : Nat → Captures → Undo → Search) (R W : List Nat) (a b : Nat) : Prop :=
  ∀ (s : State cap) u, Enters cs a s → Refines E keep cs K L R W b (s.base u) (f s.iter s.captures u) s

section
variable {E : Env} {keep : Bool} {cs : List Nat} {K L : Level} {R R₁ R₂ W W₁ W₂ : List Nat}
  {a b mid exit : Nat} {B : Base} {r : Search} {s : State cap}
  {f f₁ f₂ : Nat → Captures → Undo → Search}

theorem Enters.found (h : Enters cs a s) (u : Undo) :
    FoundAt cs L R a (s.base u) s.iter s.captures u s :=
  ⟨h.label, h.inst, rfl, rfl, rfl, ⟨[], rfl, clean_nil, rfl⟩, h.valid, .refl _ _, h.ok, .refl _ _,
    .refl _ _⟩

/-- Where an instruction is entered its assertions have to hold. -/
theorem Enters.sound {ins : Inst} (h : Enters cs a s) (hi : E.regex.instSeq[a]? = some ins)
    (ha : ins.Asserts s) : Sound E cs s := .of_inst h.ok (h.inst ▸ hi) ha

theorem FailsAt.sound {c : Captures} (h : FailsAt cs K B c s) : Sound E cs s :=
  .of_label (h.captures ▸ h.ok) (by rw [h.label]; decide)

theorem Simulates.mono (hL : L.Within K) (h : Simulates cap E keep cs K L f R₁ W₁ a b) (hR : R₁ ⊆ R) (hW : W₁ ⊆ W) :
    Simulates cap E keep cs K L f R W a b := fun s u hs => (h s u hs).mono hL hR hW

theorem simulates_empty : Simulates cap E keep cs K L .one R W a a :=
  fun _ u h => refines_one (h.found u) rfl (.refl _ _) (.refl _ _)

/-- An instruction that moves the cursor or fails, and changes nothing else. -/
theorem simulates_leaf {o : Nat → Captures → Option Nat} {ins : Inst}
    (hi : E.regex.instSeq[a]? = some ins) (hfree : ∀ s : State cap, ins.Asserts s)
    (hstep : ∀ s : State cap, s.label = .dispatch → s.inst = a →
      ∃ t : State cap, stepWith keep E s = .inl t ∧ t.captures = s.captures ∧ t.stack = s.stack ∧
        t.loops = s.loops ∧ t.oldIter = s.oldIter ∧
        match o s.iter s.captures with
        | some p => t.label = .dispatch ∧ t.inst = a + 1 ∧ t.iter = p
        | none => t.label = .backtrack)
    (hvalid : ∀ p c q, Valid cs p → CapturesOk cs c → o p c = some q →
      Valid cs q ∧ Advances L.forward p q) :
    Simulates cap E keep cs K L (fun p c u => .ofOption c u (o p c)) R W a (a + 1) := by
  intro s u h
  obtain ⟨t, ht, hc, hs, hl, ho, hm⟩ := hstep s h.label h.inst
  have hlf : ∀ J, LoopFrame J t.loops s.loops := fun J => by rw [hl]; exact .refl _ _
  have hst : t.stack.entries = s.stack.entries := by rw [hs]
  refine .of_step (h.sound hi (hfree s)) ht ?_
  simp only
  cases hp : o s.iter s.captures with
  | none =>
    rw [hp] at hm
    exact refines_fail ⟨hm, hst, ho, hc, h.ok, .refl _ _, hlf K⟩
  | some p =>
    rw [hp] at hm
    obtain ⟨hv, ha⟩ := hvalid _ _ _ h.valid h.ok hp
    exact refines_one ⟨hm.1, hm.2.1, hm.2.2, ho, hc, ⟨[], hst, clean_nil, rfl⟩, hv, ha, h.ok,
      .refl _ _, hlf L⟩ hst (.refl _ _) (hlf K)

theorem Simulates.seq (h₁ : Simulates cap E keep cs K L f₁ R₁ W₁ a mid)
    (h₂ : Simulates cap E keep cs (K.pass R₁ W₁) L f₂ R₂ W₂ mid b) (hR : R₂ ++ R₁ ⊆ R)
    (hW : W₂ ++ W₁ ⊆ W) : Simulates cap E keep cs K L (fun p c u => (f₁ p c u).bind f₂) R W a b := by
  intro s u h
  apply Refines.bind (.refl L) (h₁ s u h) hR hW
  intro p c u' t ht
  obtain rfl := ht.iter
  obtain rfl := ht.captures
  exact h₂ t u' ⟨ht.label, ht.inst, ht.valid, ht.ok⟩

/-- The machine goes from `mid` to `b` without doing anything. -/
def Goes (cap : Option Nat) (E : Env) (keep : Bool) (cs : List Nat) (mid b : Nat) : Prop :=
  ∀ s : State cap, s.label = .dispatch → s.inst = mid → CapturesOk cs s.captures →
    Within (stepWith keep E) (Sound E cs) s (s.goto b)

theorem goes_self : Goes cap E keep cs a a := by
  intro s hl hi _
  have : s.goto a = s := by
    obtain ⟨label, inst⟩ := s
    simp only at hl hi
    simp [State.goto, hl, hi]
  rw [this]
  exact .refl s

theorem goes_jump (hi : E.regex.instSeq[a]? = some (.jump b)) : Goes cap E keep cs a b := by
  intro s hl hs hok
  refine .single (Sound.of_inst hok (hs ▸ hi) (by trivial)) ?_
  rw [stepWith_dispatch hl (hs ▸ hi)]
  rfl

theorem Refines.goes (hg : Goes cap E keep cs mid b) (h : Refines E keep cs K L R W mid B r s) :
    Refines E keep cs K L R W b B r s := by
  induction r generalizing s with
  | fail c => exact h
  | found p c u next ih =>
    apply Leads.bind h
    rintro t ⟨ht, hnext⟩
    have hw := hg t ht.label ht.inst (ht.captures ▸ ht.ok)
    refine Leads.of_within hw (Leads.here ⟨?_, fun t' ht' => ih _ (hnext t' ht')⟩)
    exact { ht with label := rfl, inst := rfl }

/-- Resuming at the entry `setIns target iter` the code that simulates `f`. -/
theorem Simulates.resume {target : Nat} (hL : L.Within K)
    (h : Simulates cap E keep cs K L f R₁ W₁ target b) (hR : R₁ ⊆ R) (hW : W₁ ⊆ W)
    (hp : Valid cs B.iter) {c : Captures}
    (hs : FailsAt cs K { B with stack := .setIns target B.iter :: B.stack } c s) :
    Refines E keep cs K L R W b B (f B.iter c B.undo) s := by
  refine .of_ok hs.sound
    (backtrack_setIns hs.label hs.stack fun t hl hi hp' hst hc hlo ho => ?_)
  obtain rfl : t.captures = c := hc.trans hs.captures
  have hlf : LoopFrame K t.loops B.loops := hlo ▸ hs.loops
  have ha : Advances L.forward B.iter t.iter := hp' ▸ .refl _ _
  have := h t B.undo ⟨hl, hi, hp' ▸ hp, hs.ok⟩
  rw [hp'] at this
  exact this.rebase hL hR hW hst rfl (ho.trans hs.oldIter) ha hs.frame hlf

/-- `Alt`: the entry on the stack leads to the second branch. -/
theorem simulates_alt {second : Nat} (hL : L.Within K) (hi : E.regex.instSeq[a]? = some (.alt second))
    (h₁ : Simulates cap E keep cs K L f₁ R₁ W₁ (a + 1) mid) (hg : Goes cap E keep cs mid b)
    (h₂ : Simulates cap E keep cs K L f₂ R₂ W₂ second b) (hR₁ : R₁ ⊆ R) (hW₁ : W₁ ⊆ W) (hR₂ : R₂ ⊆ R)
    (hW₂ : W₂ ⊆ W) :
    Simulates cap E keep cs K L (fun p c u => (f₁ p c u).orElse fun c => f₂ p c u) R W a b := by
  intro s u h
  refine .of_ok (h.sound hi trivial) ?_
  rw [stepWith_dispatch h.label (h.inst ▸ hi), dispatch]
  apply tryPush_ok
  intro st hst
  let s₁ : State cap := { s with stack := st }.next
  have e₁ : Enters cs (a + 1) s₁ := ⟨rfl, congrArg (· + 1) h.inst, h.valid, h.ok⟩
  have hB : (s.base u).Extends cs L R (s₁.base u) :=
    ⟨⟨[_], hst, clean_nil.cons trivial, rfl⟩, rfl, .refl _ _, .refl _ _, .refl _ _⟩
  apply Refines.orElse ((h₁ s₁ u e₁).goes hg) (.pass_mono hR₁ hW₁) hR₁ hB
  intro c t ht
  exact h₂.resume hL hR₂ hW₂ h.valid (B := s.base u) { ht with stack := ht.stack.trans hst }

/-! ### Groups -/

theorem Capture.Spans.endOffset {c : Capture} (hlen : (encode cs).length < 2 ^ 32)
    (h : c.Spans cs) : c.endOffset = c.offset + c.size := by
  obtain ⟨i, j, -, hj, -, he⟩ := h
  have : off cs j ≤ (encode cs).length := by
    rw [off, ← encode_take cs j, List.length_take]
    exact Nat.min_le_right _ _
  rw [Capture.endOffset, he, Nat.mod_eq_of_lt (Nat.lt_of_le_of_lt this hlen)]

theorem add_sub_mod {x y m : Nat} (h : y ≤ x) (hx : x < m) : (x + m - y) % m = x - y := by
  rw [show x + m - y = x - y + m by omega, Nat.add_mod_right, Nat.mod_eq_of_lt (by omega)]

theorem sub32_of_le {x y : Nat} (h : y ≤ x) (hx : x < 2 ^ 32) : sub32 x y = x - y :=
  add_sub_mod h hx

/-- A capture of no size begins where it ends. -/
theorem endOffset_zero {p : Nat} (h : p < 2 ^ 32) : (⟨p, 0⟩ : Capture).endOffset = p := by
  rw [Capture.endOffset, Nat.add_zero, Nat.mod_eq_of_lt h]

/-- What the captures of an open group look like where it is closed. -/
theorem closeCapture_spec (hcs : CodePoints cs) (hlen : (encode cs).length < 2 ^ 32)
    {forward : Bool} {c : Capture} {p q : Nat} (hp : Valid cs p) (hq : Valid cs q)
    (ha : Advances forward p q) (hc : SameStart forward c ⟨p, 0⟩) :
    (closeCapture forward q c).Spans cs ∧ SameStart forward (closeCapture forward q c) c := by
  have hp32 : p < 2 ^ 32 := Nat.lt_of_le_of_lt (hp.le hcs) hlen
  have hq32 : q < 2 ^ 32 := Nat.lt_of_le_of_lt (hq.le hcs) hlen
  obtain ⟨i, hi, hpi⟩ := hp
  obtain ⟨j, hj, hqj⟩ := hq
  cases forward with
  | true =>
    have ho : c.offset = p := hc
    have hle : p ≤ q := ha
    have hij : i ≤ j := le_of_off_le hcs hi (hpi ▸ hqj ▸ hle)
    have hcl : closeCapture true q c = ⟨p, q - p⟩ := by
      rw [closeCapture, if_pos rfl, ho, sub32_of_le hle hq32]
    rw [hcl]
    exact ⟨⟨i, j, hij, hj, hpi, by rw [← hqj]; exact Nat.add_sub_of_le hle⟩, ho.symm⟩
  | false =>
    have ho : c.endOffset = p := Eq.trans hc (endOffset_zero hp32)
    have hle : q ≤ p := ha
    have hji : j ≤ i := le_of_off_le hcs hj (hpi ▸ hqj ▸ hle)
    have hcl : closeCapture false q c = ⟨q, p - q⟩ := by
      rw [closeCapture, if_neg Bool.false_ne_true, ho, sub32_of_le hle hp32]
    rw [hcl]
    have hsp : (⟨q, p - q⟩ : Capture).Spans cs :=
      ⟨j, i, hji, hi, hqj, by rw [← hpi]; exact Nat.add_sub_of_le hle⟩
    refine ⟨hsp, ?_⟩
    show (⟨q, p - q⟩ : Capture).endOffset = c.endOffset
    rw [hsp.endOffset hlen, ho]
    exact Nat.add_sub_of_le hle

theorem CapturesOk.update {c : Captures} (h : CapturesOk cs c) (g : Nat) {x : Capture}
    (hx : x = .unset ∨ x.Spans cs) : CapturesOk cs (Function.update c g x) := by
  intro i
  by_cases hi : i = g
  · subst hi
    simpa using hx
  · rw [Function.update_of_ne hi]
    exact h i

/-- The level inside a group. -/
def Level.open (K : Level) (g : Nat) : Level :=
  { K with opened := g :: K.opened, groups := g :: K.groups }

/-- Where a group ends the cursor is not on the wrong side of its start. -/
theorem asserts_close {forward : Bool} {g p : Nat} (hp : p < 2 ^ 32)
    (hc : SameStart forward (s.captures g) ⟨p, 0⟩) (ha : Advances forward p s.iter) :
    Inst.Asserts s (if forward then .endCapture g else .lbEndCapture g) := by
  cases forward with
  | true =>
    have ho : (s.captures g).offset = p := hc
    exact Nat.le_trans (Nat.le_of_eq ho) ha
  | false =>
    have ho : (s.captures g).endOffset = p := Eq.trans hc (endOffset_zero hp)
    exact Nat.le_trans ha (Nat.le_of_eq ho.symm)

/-- The end of a group: the code of the group is the code of its body between two instructions
that set the capture. -/
theorem Refines.close {g : Nat} (hL : L.Within K) (hcs : CodePoints cs) (hlen : (encode cs).length < 2 ^ 32)
    (hi : E.regex.instSeq[mid]? = some (if L.forward then .endCapture g else .lbEndCapture g))
    (hg : g ∉ K.groups) (ho : g ∉ K.opened) (hv : Valid cs B.iter)
    (h : Refines E keep cs (K.open g) (L.open g) R W mid { B with
      stack := .setCapture g .unset :: B.stack, undo := (g, .unset) :: B.undo
      captures := Function.update B.captures g ⟨B.iter, 0⟩ } r s) :
    Refines E keep cs K L (g :: R) W (mid + 1) B
      ((r.bind fun p c u =>
        .one p (Function.update c g (closeCapture L.forward p (c g))) u).restoring
          [(g, .unset)]) s := by
  -- outside `g` the levels inside and outside of the group ask for the same
  have hframe : ∀ {J : Level} {c c' : Captures}, g ∉ J.groups →
      Frame (J.open g) c (Function.update B.captures g ⟨B.iter, 0⟩) →
      (∀ i, i ≠ g → c' i = c i) → Frame J c' B.captures := by
    intro J c c' hg hf hc i hi
    have hig : i ≠ g := fun e => hg (e ▸ hi)
    have := hf i (List.mem_cons_of_mem _ hi)
    rw [Function.update_of_ne hig, ← hc i hig] at this
    simpa [Level.open, hig] using this
  induction r generalizing s with
  | fail c =>
    rcases h with ⟨t, hr, ht⟩ | ⟨x, hx, hl⟩
    · obtain ⟨t', hst, hl', hs', hc', hlo', ho'⟩ := @backtrack_setCapture cap E keep t _ _ _ ht.label
        ht.stack
      refine .of_within hr (.of_step ht.sound hst
        (refines_fail ⟨hl', hs', ho'.trans ht.oldIter, ?_, ?_, ?_, ?_⟩))
      · rw [hc', ht.captures]
        rfl
      · exact ht.ok.update g (.inl rfl)
      · exact hframe hg ht.frame fun i hi => Function.update_of_ne hi _ _
      · rw [hlo']
        exact ht.loops
    · exact .limited hx hl
  | found p c u next ih =>
    rcases h with ⟨t, hr, ht, hnext⟩ | ⟨x, hx, hl⟩
    · obtain ⟨X, hX, hXc, hXu⟩ := ht.stack
      obtain rfl := ht.captures
      have hstart : SameStart L.forward (t.captures g) ⟨B.iter, 0⟩ := by
        have := ht.frame g List.mem_cons_self
        simpa [Level.open] using this
      obtain ⟨hsp, hss⟩ := closeCapture_spec hcs hlen hv ht.valid ht.advances hstart
      let c' := Function.update t.captures g (closeCapture L.forward p (t.captures g))
      have hstep : stepWith keep E t = .inl { t with captures := c' }.next := by
        rw [stepWith_dispatch ht.label (ht.inst ▸ hi)]
        cases hf : L.forward <;> simp [c', hf, dispatch, closeCapture, ht.iter]
      have hsound : Sound E cs t := by
        have hlt : B.iter < 2 ^ 32 := Nat.lt_of_le_of_lt (hv.le hcs) hlen
        exact .of_inst ht.ok (ht.inst ▸ hi) (asserts_close hlt hstart (ht.iter.symm ▸ ht.advances))
      refine .of_within hr (.of_step hsound hstep
        (Leads.here ⟨?_, fun t' ht' => ih _ (hnext t' ?_)⟩))
      · exact ⟨rfl, congrArg (· + 1) ht.inst, ht.iter, ht.oldIter, rfl,
          ⟨X ++ [.setCapture g .unset], by simpa [State.next] using hX,
            (hXc.mono (List.subset_cons_self _ _)).append
              (clean_setCapture List.mem_cons_self (.inl rfl)), by simp [hXu, undoOf]⟩, ht.valid,
          ht.advances, ht.ok.update g (.inr hsp),
          hframe (fun h => hg (hL.groups h)) ht.frame fun i hi => Function.update_of_ne hi _ _,
          ht.loops⟩
      · refine { ht' with frame := fun i hi => ?_ }
        by_cases hig : i = g
        · subst hig
          have := ht'.frame.eq (List.mem_append_left _ List.mem_cons_self) ho
          rw [this]
          simpa [Level.open, Level.pass, State.base, State.next, c', hL.forward] using hss
        · have hi' : i ∈ (K.pass (g :: R) W).groups := by
            simp only [Level.pass, Level.open, List.mem_append, List.mem_cons, hig, false_or] at hi ⊢
            exact hi
          have := ht'.frame i hi'
          simpa [Level.open, Level.pass, State.base, State.next, c', hig] using this
    · exact .limited hx hl

theorem simulates_group {g : Nat} (hL : L.Within K) (hcs : CodePoints cs) (hlen : (encode cs).length < 2 ^ 32)
    (hb : E.regex.instSeq[a]? = some (.beginCapture g))
    (hi : E.regex.instSeq[mid]? = some (if L.forward then .endCapture g else .lbEndCapture g))
    (hg : g ∉ K.groups) (ho : g ∉ K.opened)
    (h : Simulates cap E keep cs (K.open g) (L.open g) f R W (a + 1) mid) :
    Simulates cap E keep cs K L (fun p c u => ((f p (Function.update c g ⟨p, 0⟩) ((g, .unset) :: u)).bind
      fun p c u => .one p (Function.update c g (closeCapture L.forward p (c g))) u).restoring
        [(g, .unset)]) (g :: R) W a (mid + 1) := by
  intro s u hs
  refine .of_ok (hs.sound hb trivial) ?_
  rw [stepWith_dispatch hs.label (hs.inst ▸ hb), dispatch]
  refine tryPush_ok fun st hst => Refines.close hL hcs hlen hi hg ho hs.valid ?_
  obtain ⟨i, hi, hp⟩ := hs.valid
  have hsp : (⟨s.iter, 0⟩ : Capture).Spans cs := ⟨i, i, Nat.le_refl i, hi, hp, hp⟩
  have := h ({ s with captures := Function.update s.captures g ⟨s.iter, 0⟩, stack := st } : State cap).next
    ((g, .unset) :: u) ⟨rfl, congrArg (· + 1) hs.inst, hs.valid, hs.ok.update g (.inr hsp)⟩
  simpa [State.base, State.next, hst] using this

/-! ### Look-arounds -/

theorem applyUndo_ok {u : Undo} {c : Captures} (hu : ∀ x ∈ u, x.2 = .unset ∨ x.2.Spans cs)
    (hc : CapturesOk cs c) : CapturesOk cs (applyUndo u c) := by
  induction u generalizing c with
  | nil => exact hc
  | cons x u ih =>
    exact ih (fun y hy => hu y (List.mem_cons_of_mem _ hy)) (hc.update x.1 (hu x List.mem_cons_self))

theorem applyUndo_of_not_mem {u : Undo} {c : Captures} {g : Nat} (h : ∀ x ∈ u, x.1 ≠ g) :
    applyUndo u c g = c g := by
  induction u generalizing c with
  | nil => rfl
  | cons x u ih =>
    rw [applyUndo, ih fun y hy => h y (List.mem_cons_of_mem _ hy),
      Function.update_of_ne (h x List.mem_cons_self).symm]

theorem Clean.undoOf {X : List Backtrack} (h : Clean cs R X) :
    ∀ x ∈ undoOf X, x.1 ∈ R ∧ (x.2 = .unset ∨ x.2.Spans cs) := by
  induction X with
  | nil => simp [Regex.undoOf]
  | cons e X ih =>
    have hX : Clean cs R X := fun x hx => h x (List.mem_cons_of_mem _ hx)
    have he := h e List.mem_cons_self
    intro x hx
    cases e with
    | setCapture g c =>
      rcases List.mem_cons.1 hx with rfl | hx
      · exact he
      · exact ih hX x hx
    | _ => exact ih hX x hx

/-- `cleanupLookAround` on entries pushed inside the look-around. -/
theorem cleanupLoop_clean {negate neg matched : Bool} {target iter : Nat} {X es : List Backtrack}
    (h : Clean cs R X) (c : Captures) :
    BacktrackStack.cleanupLoop negate (X ++ .lookAround neg matched target iter :: es) c =
      some (if negate then applyUndo (undoOf X) c else c, matched, iter, es) := by
  induction X generalizing c with
  | nil => cases negate <;> rfl
  | cons e X ih =>
    have hX : Clean cs R X := fun x hx => h x (List.mem_cons_of_mem _ hx)
    have he := h e List.mem_cons_self
    cases e with
    | lookAround => exact he.elim
    | setCapture g x => cases negate <;> exact ih hX _
    | _ => exact ih hX c

theorem findNegate_clean {neg matched : Bool} {target iter : Nat} {X es : List Backtrack}
    (h : Clean cs R X) :
    BacktrackStack.findNegate (X ++ .lookAround neg matched target iter :: es) = neg := by
  induction X with
  | nil => rfl
  | cons e X ih =>
    have hX : Clean cs R X := fun x hx => h x (List.mem_cons_of_mem _ hx)
    have he := h e List.mem_cons_self
    cases e with
    | lookAround => exact he.elim
    | _ => exact ih hX

theorem captureEntries_clean {neg matched : Bool} {target iter : Nat} {X es : List Backtrack}
    (h : Clean cs R X) :
    BacktrackStack.captureEntries (X ++ .lookAround neg matched target iter :: es) =
      (undoOf X).map fun x => .setCapture x.1 x.2 := by
  induction X with
  | nil => rfl
  | cons e X ih =>
    have hX : Clean cs R X := fun x hx => h x (List.mem_cons_of_mem _ hx)
    have he := h e List.mem_cons_self
    cases e with
    | lookAround => exact he.elim
    | setCapture g c => exact congrArg (_ :: ·) (ih hX)
    | _ => exact ih hX

theorem cleanupLookAround_clean {st : BacktrackStack cap} {neg matched : Bool} {target iter : Nat}
    {X es : List Backtrack} (hX : Clean cs R X)
    (hs : st.entries = X ++ .lookAround neg matched target iter :: es) (c : Captures) :
    ∃ st', st.cleanupLookAround keep c =
        some (if neg then applyUndo (undoOf X) c else c, matched, iter, st') ∧
      st'.entries =
        (if keep && !neg then (undoOf X).map fun x => .setCapture x.1 x.2 else []) ++ es := by
  have hn := @findNegate_clean cs R neg matched target iter X es hX
  have hc := @cleanupLoop_clean cs R neg neg matched target iter X es hX c
  have he := @captureEntries_clean cs R neg matched target iter X es hX
  rw [← hs] at hn hc he
  generalize (if neg then applyUndo (undoOf X) c else c) = c' at hc ⊢
  generalize hk : (if keep && !neg then _ else _) ++ es = kept
  cases hx : st.cleanupLookAround keep c with
  | none =>
    unfold BacktrackStack.cleanupLookAround at hx
    split at hx
    · next h => rw [hn, hc] at h; cases h
    · cases hx
  | some x =>
    unfold BacktrackStack.cleanupLookAround at hx
    split at hx
    · cases hx
    · next h =>
      rw [hn, hc] at h
      cases h
      cases hx
      refine ⟨_, rfl, ?_⟩
      show (if keep && !BacktrackStack.findNegate st.entries then
        BacktrackStack.captureEntries st.entries else []) ++ es = _
      rw [hn, he, hk]

/-- The step of `EndLookAround`. -/
theorem stepWith_endLookAround {neg matched : Bool} {target iter : Nat} {X es : List Backtrack}
    (hl : s.label = .dispatch) (hi : E.regex.instSeq[s.inst]? = some .endLookAround)
    (hX : Clean cs R X) (hs : s.stack.entries = X ++ .lookAround neg matched target iter :: es) :
    ∃ t : State cap, stepWith keep E s = .inl t ∧ t.iter = iter ∧ t.oldIter = s.oldIter ∧
      t.loops = s.loops ∧
      t.captures = (if neg then applyUndo (undoOf X) s.captures else s.captures) ∧
      t.stack.entries =
        (if keep && !neg then (undoOf X).map fun x => .setCapture x.1 x.2 else []) ++ es ∧
      if matched then t.label = .dispatch ∧ t.inst = s.inst + 1 else t.label = .backtrack := by
  obtain ⟨st, hst, hes⟩ := @cleanupLookAround_clean cap keep cs R _ _ _ _ _ _ _ hX hs s.captures
  rw [stepWith_dispatch hl hi, dispatch, hst]
  cases matched <;> exact ⟨_, rfl, rfl, rfl, rfl, rfl, hes, by simp [State.next, State.backtrack]⟩

/-- Backtracking through entries that restore captures. -/
theorem Refines.applyUndo {u : Undo} {es : List Backtrack} (hok : CapturesOk cs s.captures)
    (hu : ∀ x ∈ u, x.2 = .unset ∨ x.2.Spans cs) (hl : s.label = .backtrack)
    (hs : s.stack.entries = u.map (fun x => .setCapture x.1 x.2) ++ es)
    (h : ∀ t : State cap, t.label = .backtrack → t.stack.entries = es →
      t.captures = Regex.applyUndo u s.captures → t.loops = s.loops → t.oldIter = s.oldIter →
      Refines E keep cs K L R W exit B r t) :
    Refines E keep cs K L R W exit B r s := by
  induction u generalizing s with
  | nil => exact h s hl hs rfl rfl rfl
  | cons x u ih =>
    obtain ⟨t, hst, hl', hs', hc', hlo', ho'⟩ := @backtrack_setCapture cap E keep s _ _ _ hl hs
    have hok' : CapturesOk cs t.captures := hc' ▸ hok.update x.1 (hu x List.mem_cons_self)
    refine .of_step (.of_label hok (by rw [hl]; decide)) hst
      (ih hok' (fun y hy => hu y (List.mem_cons_of_mem _ hy)) hl' hs' fun t' h1 h2 h3 h4 h5 =>
        h t' h1 h2 ?_ ?_ ?_)
    · rw [h3, hc']
      rfl
    · exact h4.trans hlo'
    · exact h5.trans ho'

/-- The level inside a look-around. -/
def Level.enter (K : Level) (forward : Bool) : Level := { K with forward := forward, opened := [] }

/-- Nothing entered before a look-around is changed inside it. -/
theorem Frame.of_enter {forward : Bool} {c d : Captures} (h : Frame (K.enter forward) c d) :
    Frame K c d :=
  .of_eq fun _ hg => h.eq hg List.not_mem_nil

theorem simulates_lookAround {forward negate : Bool} (hL : L.Within K)
    (hb : E.regex.instSeq[a]? = some (.beginLookAround mid negate))
    (he : E.regex.instSeq[mid]? = some .endLookAround) (hR : ∀ g ∈ R, g ∉ K.groups)
    (h : Simulates cap E keep cs (K.enter forward) (K.enter forward) f R W₁ (a + 1) mid) :
    Simulates cap E keep cs K L (fun p c u => lookAroundSearch keep negate (f p c []) p u) R W a
      (mid + 1) := by
  intro s u hs
  refine .of_ok (hs.sound hb trivial) ?_
  rw [stepWith_dispatch hs.label (hs.inst ▸ hb), dispatch]
  apply tryPush_ok
  intro st hst
  have hbody : Refines E keep cs (K.enter forward) (K.enter forward) R W₁ mid
      (State.base { s with stack := st }.next []) (f s.iter s.captures [])
      { s with stack := st }.next :=
    h _ [] ⟨rfl, congrArg (· + 1) hs.inst, hs.valid, hs.ok⟩
  show Refines E keep cs K L R W (mid + 1) (s.base u)
    (lookAroundSearch keep negate (f s.iter s.captures []) s.iter u) _
  cases hf : f s.iter s.captures [] with
  | fail c =>
    rw [hf] at hbody
    rcases hbody with ⟨t, hr, ht⟩ | ⟨x, hx, hl⟩
    · refine .of_within hr (.of_ok ht.sound ?_)
      -- the entry is pushed back with its outcome and popped by `EndLookAround`
      obtain ⟨st', hst', hstep⟩ := @stepWith_backtrack cap E keep t _ _ ht.label (ht.stack.trans hst)
      rw [hstep, undo]
      refine tryPush_ok fun st₂ hst₂ => checkTimer_ok fun n k => ?_
      let t₀ : State cap :=
        { t with stack := st₂, label := .dispatch, inst := mid, btCount := n, ticks := k }
      have hsound : Sound E cs t₀ := Sound.of_inst (ht.captures ▸ ht.ok) he (by trivial)
      obtain ⟨t', ht', hp', ho', hlo', hc', hs', hm'⟩ := @stepWith_endLookAround cap E keep cs [] t₀
        negate negate mid s.iter [] s.stack.entries rfl he clean_nil (by simpa [hst'] using hst₂)
      refine .of_step hsound ht' ?_
      have hc : t'.captures = c := by
        rw [hc']
        cases negate <;> exact ht.captures
      have hst'' : t'.stack.entries = s.stack.entries := by
        rw [hs']
        cases keep <;> cases negate <;> rfl
      have hlf : LoopFrame K t'.loops s.loops := by rw [hlo']; exact ht.loops
      have ho : t'.oldIter = s.oldIter := ho'.trans ht.oldIter
      cases negate with
      | true =>
        exact refines_one ⟨hm'.1, hm'.2, hp', ho, hc, ⟨[], hst'', clean_nil, rfl⟩, hs.valid, .refl _ _,
          ht.ok, ht.frame.of_enter.within hL, hlf.within hL⟩ hst'' ht.frame.of_enter hlf
      | false =>
        exact refines_fail ⟨hm', hst'', ho, hc, ht.ok, ht.frame.of_enter, hlf⟩
    · exact .limited hx hl
  | found p c inner next =>
    rw [hf] at hbody
    rcases hbody with ⟨t, hr, ht, -⟩ | ⟨x, hx, hl⟩
    · obtain ⟨X, hX, hXc, hXu⟩ := ht.stack
      obtain rfl : inner = undoOf X := by simpa [State.base] using hXu
      obtain ⟨t', ht', hp', ho', hlo', hc', hs', hm'⟩ := @stepWith_endLookAround cap E keep cs R t
        negate (!negate) mid s.iter X s.stack.entries ht.label (ht.inst ▸ he) hXc (by simpa [State.base, State.next, hst] using hX)
      have hsound : Sound E cs t :=
        Sound.of_inst (ht.captures ▸ ht.ok) (ht.inst ▸ he) (by trivial)
      refine .of_within hr (.of_step hsound ht' ?_)
      have hfr : Frame K c s.captures := ht.frame.of_enter
      have hlf : LoopFrame K t'.loops s.loops := by rw [hlo']; exact ht.loops
      have ho : t'.oldIter = s.oldIter := ho'.trans ht.oldIter
      have hundo := hXc.undoOf
      -- the captures recorded belong to the look-around
      have hout : ∀ d, ∀ g ∈ K.groups, applyUndo (undoOf X) d g = d g := fun d _ hg =>
        applyUndo_of_not_mem fun x hx e => hR x.1 (hundo x hx).1 (e ▸ hg)
      cases negate with
      | true =>
        refine refines_fail ⟨hm', by simpa [State.base] using hs', ho, ?_, ?_, ?_, hlf⟩
        · rw [hc', ht.captures]
          rfl
        · exact applyUndo_ok (fun x hx => (hundo x hx).2) ht.ok
        · exact (Frame.of_eq (hout c)).trans hfr
      | false =>
        have hc : t'.captures = c := hc'.trans ht.captures
        cases keep with
        | false =>
          exact refines_one ⟨hm'.1, hm'.2.trans (by rw [ht.inst]), hp', ho, hc,
            ⟨[], hs', clean_nil, rfl⟩, hs.valid, .refl _ _, ht.ok, hfr.within hL, hlf.within hL⟩ hs'
            hfr hlf
        | true =>
          have hclean : Clean cs R ((undoOf X).map fun x => .setCapture x.1 x.2) := by
            intro e he
            obtain ⟨x, hx, rfl⟩ := List.mem_map.1 he
            exact hundo x hx
          have hmap := undoOf_map (undoOf X)
          refine Leads.here ⟨⟨hm'.1, hm'.2.trans (by rw [ht.inst]), hp', ho, hc,
            ⟨_, hs', hclean, by simp [State.base, hmap]⟩, hs.valid, .refl _ _, ht.ok,
            hfr.within hL, hlf.within hL⟩, ?_⟩
          intro t₁ ht₁
          have hspans := fun x hx => (hundo x hx).2
          apply Refines.applyUndo ht₁.ok hspans ht₁.label (ht₁.stack.trans hs')
          intro t₂ h1 h2 h3 h4 h5
          refine refines_fail ⟨h1, h2, h5.trans (ht₁.oldIter.trans ho), h3, ?_, ?_, ?_⟩
          · exact applyUndo_ok hspans ht₁.ok
          · have h₁ : Frame K t₁.captures c := hc ▸ ht₁.frame.of_pass
            exact (Frame.of_eq (hout t₁.captures)).trans (h₁.trans hfr)
          · rw [h4]
            exact ht₁.loops.of_pass.trans hlf
    · exact .limited hx hl

/-! ### Loops -/

theorem resetAll_of_not_mem {gs : List Nat} {c : Captures} {g : Nat} (h : g ∉ gs) :
    resetAll gs c g = c g := by
  induction gs generalizing c with
  | nil => rfl
  | cons x gs ih =>
    rw [resetAll, ih fun hg => h (List.mem_cons_of_mem _ hg),
      Function.update_of_ne fun e => h (by rw [e]; exact List.mem_cons_self)]

theorem resetAll_ok {gs : List Nat} {c : Captures} (h : CapturesOk cs c) :
    CapturesOk cs (resetAll gs c) := by
  induction gs generalizing c with
  | nil => exact h
  | cons g gs ih => exact ih (h.update g (.inl rfl))

theorem applyUndo_append (u v : Undo) (c : Captures) :
    applyUndo (u ++ v) c = applyUndo v (applyUndo u c) := by
  induction u generalizing c with
  | nil => rfl
  | cons x u ih => exact ih _

theorem savedAll_spec {gs : List Nat} {c : Captures} (h : CapturesOk cs c) :
    ∀ x ∈ savedAll gs c, x.1 ∈ gs ∧ (x.2 = .unset ∨ x.2.Spans cs) := by
  induction gs generalizing c with
  | nil => simp [savedAll]
  | cons g gs ih =>
    intro x hx
    rcases List.mem_append.1 hx with hx | hx
    · obtain ⟨h1, h2⟩ := ih (h.update g (.inl rfl)) x hx
      exact ⟨List.mem_cons_of_mem _ h1, h2⟩
    · rw [List.mem_singleton.1 hx]
      exact ⟨List.mem_cons_self, h g⟩

/-- What `ResetCaptures` saves is what was there. -/
theorem applyUndo_savedAll {gs : List Nat} (hgs : gs.Nodup) {c d : Captures} {g : Nat}
    (hg : g ∈ gs) : applyUndo (savedAll gs c) d g = c g := by
  induction gs generalizing c d with
  | nil => cases hg
  | cons x gs ih =>
    rw [savedAll, applyUndo_append]
    by_cases hx : g = x
    · subst hx
      simp [applyUndo]
    · have hg' : g ∈ gs := (List.mem_cons.1 hg).resolve_left hx
      rw [applyUndo, applyUndo, Function.update_of_ne hx, ih hgs.of_cons hg',
        Function.update_of_ne hx]

/-- The step of `ResetCaptures`. -/
theorem resetCaptures_ok {P : State cap → Prop} {n i : Nat} {s : State cap}
    (h : ∀ t : State cap, t.label = .dispatch → t.inst = s.inst + 1 → t.iter = s.iter →
      t.oldIter = s.oldIter → t.loops = s.loops →
      t.captures = resetAll (List.range' i n) s.captures →
      t.stack.entries = (savedAll (List.range' i n) s.captures).map
        (fun x => .setCapture x.1 x.2) ++ s.stack.entries → P t) :
    (resetCaptures n i s).Ok P := by
  induction n generalizing i s with
  | zero => exact h _ rfl rfl rfl rfl rfl rfl rfl
  | succ n ih =>
    rw [resetCaptures]
    refine tryPush_ok fun st hst => ih fun t h1 h2 h3 h4 h5 h6 h7 => h t h1 h2 h3 h4 h5 ?_ ?_
    · rw [h6]
      rfl
    · rw [h7, hst]
      simp [List.range'_succ, savedAll]

/-- The level inside a round of a loop whose groups are reset at its beginning. -/
def Level.round (K : Level) (loopIndex : Nat) (gs : List Nat) : Level :=
  { K with groups := K.groups.filter (· ∉ gs), loops := loopIndex :: K.loops }

theorem Level.mem_round {K : Level} {l g : Nat} {gs : List Nat} :
    g ∈ (K.round l gs).groups ↔ g ∈ K.groups ∧ g ∉ gs := by
  simp [Level.round]

theorem maxStackCap_lt : maxStackCap < Node.unlimit := by decide

/-- The fuel that is left is enough for the rest of the loop. -/
def Enough (cs : List Nat) (forward : Bool) (min fuel count last p : Nat) : Prop :=
  1 ≤ fuel ∧ (last = p ∧ count > min ∨ min - count + rest cs forward p + 2 ≤ fuel)

theorem Enough.next {forward : Bool} {min fuel count last p q : Nat} (hcs : CodePoints cs)
    (h : Enough cs forward min (fuel + 1) count last p) (hn : ¬ (last = p ∧ count > min))
    (hp : Valid cs p) (hq : Valid cs q) (ha : Advances forward p q) :
    Enough cs forward min fuel (count + 1) p q := by
  have hle := h.2.resolve_left hn
  have hpl := hp.le hcs
  have hql := hq.le hcs
  refine ⟨by omega, ?_⟩
  by_cases hpq : p = q
  · subst hpq
    by_cases hc : count + 1 > min
    · exact .inl ⟨rfl, hc⟩
    · exact .inr (by omega)
  · refine .inr ?_
    have : rest cs forward q < rest cs forward p := by
      cases forward with
      | true =>
        have : p ≤ q := ha
        simp only [rest, if_true]
        omega
      | false =>
        have : q ≤ p := ha
        simp only [rest, Bool.false_eq_true, if_false]
        omega
    omega

/-- The code of a loop around the code of its body, from `a` to `mid + 1`. -/
structure LoopCode (E : Env) (a bodyAddr mid : Nat) (ins : BeginLoopIns) (first last : Nat) :
    Prop where
  begin : E.regex.instSeq[a]? = some (.beginLoop ins)
  reset : first = 0 ∧ bodyAddr = a + 1 ∨
    first ≠ 0 ∧ E.regex.instSeq[a + 1]? = some (.resetCaptures first last) ∧ bodyAddr = a + 2
  stop : E.regex.instSeq[mid]? = some (.endLoop a)
  outer : ins.outer = mid + 1

/-- From the beginning of a round to the code of the body. -/
theorem LoopCode.reset_ok {bodyAddr first last : Nat} {ins : BeginLoopIns}
    (hc : LoopCode E a bodyAddr mid ins first last) (hok : CapturesOk cs s.captures)
    (hl : s.label = .dispatch) (hi : s.inst = a + 1)
    (h : ∀ t : State cap, t.label = .dispatch → t.inst = bodyAddr → t.iter = s.iter →
      t.oldIter = s.oldIter → t.loops = s.loops →
      t.captures = resetAll (Node.groupRange first last) s.captures →
      t.stack.entries = (savedAll (Node.groupRange first last) s.captures).map
        (fun x => .setCapture x.1 x.2) ++ s.stack.entries →
      Refines E keep cs K L R W exit B r t) :
    Refines E keep cs K L R W exit B r s := by
  rcases hc.reset with ⟨h0, hb⟩ | ⟨h0, hr, hb⟩
  · exact h s hl (hi.trans hb.symm) rfl rfl rfl (by simp [Node.groupRange, h0, resetAll])
      (by simp [Node.groupRange, h0, savedAll])
  · refine .of_ok (Sound.of_inst hok (hi ▸ hr) (by trivial)) ?_
    rw [stepWith_dispatch hl (hi ▸ hr), dispatch]
    refine resetCaptures_ok fun t h1 h2 h3 h4 h5 h6 h7 => h t h1 (by omega) h3 h4 h5 ?_ ?_
    · simpa [Node.groupRange, h0] using h6
    · simpa [Node.groupRange, h0] using h7

section
variable {bodyAddr first last : Nat} {ins : BeginLoopIns} {Rb Wb D : List Nat}

/-- One more round: the body, then `next`. The round begins with the entry that restores the
counter on the stack. -/
theorem refines_round (hc : LoopCode E a bodyAddr mid ins first last)
    (hLG : ∀ g ∈ L.groups, g ∉ Node.groupRange first last)
    (hopen : ∀ g ∈ Node.groupRange first last, g ∉ K.opened) (hRb : Rb ⊆ Node.groupRange first last)
    (hbody : Simulates cap E keep cs (K.round ins.loopIndex (Node.groupRange first last))
      (L.round ins.loopIndex (Node.groupRange first last)) f Rb Wb bodyAddr mid)
    {next : Nat → Captures → Undo → Search}
    (hnext : ∀ (t : State cap) u, t.label = .loop → t.inst = a → Valid cs t.iter → CapturesOk cs t.captures →
      Advances L.forward s.iter t.iter → t.loops ins.loopIndex = s.loops ins.loopIndex →
      B.stack.length < t.stack.entries.length →
      Refines E keep cs ((K.round ins.loopIndex (Node.groupRange first last)).pass Rb Wb) L
        (Node.groupRange first last) (ins.loopIndex :: Wb) (mid + 1) (t.base u)
        (next t.iter t.captures u) t)
    (hl : s.label = .dispatch) (hi : s.inst = a + 1) (hv : Valid cs s.iter)
    (hok : CapturesOk cs s.captures)
    (hst : s.stack.entries = .setLoopState ins.loopIndex (B.loops ins.loopIndex) :: B.stack)
    (ho : s.oldIter = B.oldIter) (hp : s.iter = B.iter) (hL : L.Within K)
    (hf : Frame K s.captures B.captures)
    (hlf : ∀ i, i ≠ ins.loopIndex → i ∈ K.loops → s.loops i = B.loops i)
    (hLl : ins.loopIndex ∉ L.loops) :
    Refines E keep cs K L (Node.groupRange first last) (ins.loopIndex :: Wb) (mid + 1) B
      (((f s.iter (resetAll (Node.groupRange first last) s.captures)
        (savedAll (Node.groupRange first last) s.captures ++ B.undo)).bind next).restoring
          (savedAll (Node.groupRange first last) s.captures)) s := by
  generalize hG : Node.groupRange first last = G at *
  have hGn : G.Nodup := by
    rw [← hG, Node.groupRange]
    split
    · exact List.nodup_nil
    · exact List.nodup_range' ..
  apply hc.reset_ok hok hl hi
  intro t h1 h2 h3 h4 h5 h6 h7
  rw [hG] at h6 h7
  let saved := savedAll G s.captures
  have hsaved := @savedAll_spec cs G _ hok
  have hwr : L.Within (L.round ins.loopIndex G) :=
    ⟨rfl, rfl, fun g hg => Level.mem_round.2 ⟨hg, hLG g hg⟩, List.subset_cons_self _ _⟩
  -- the body and what follows it, from the state `t` behind the reset
  have hb : Refines E keep cs (K.round ins.loopIndex G) L G (ins.loopIndex :: Wb) (mid + 1)
      (t.base (saved ++ B.undo))
      ((f t.iter t.captures (saved ++ B.undo)).bind next) t := by
    refine @Refines.bind cap E keep cs _ _ _ G Rb G _ Wb (ins.loopIndex :: Wb) _ _ _ _ _ _ hwr
      (hbody t (saved ++ B.undo) ⟨h1, h2, h3 ▸ hv, h6 ▸ resetAll_ok hok⟩) ?_ ?_ fun p c u t' ht' => ?_
    · exact List.append_subset.2 ⟨List.Subset.refl _, hRb⟩
    · exact List.append_subset.2 ⟨List.Subset.refl _, List.subset_cons_self _ _⟩
    · obtain rfl := ht'.iter
      obtain rfl := ht'.captures
      have hend : stepWith keep E t' = .inl { t' with label := .loop, inst := a } := by
        rw [stepWith_dispatch ht'.label (ht'.inst ▸ hc.stop)]
        rfl
      refine .of_step (Sound.of_inst ht'.ok (ht'.inst ▸ hc.stop) (by trivial)) hend (hnext { t' with label := .loop, inst := a } u rfl rfl ht'.valid ht'.ok
        ?_ ?_ ?_)
      · exact h3 ▸ ht'.advances
      · exact (ht'.loops _ List.mem_cons_self).trans (congrFun h5 _)
      · obtain ⟨X, hX, -, -⟩ := ht'.stack
        show _ < t'.stack.entries.length
        rw [hX]
        show _ < (X ++ t.stack.entries).length
        rw [h7, hst]
        simp only [List.length_append, List.length_cons]
        omega
  have hB : B.Extends cs L G (t.base (saved ++ B.undo)) := by
    refine ⟨⟨saved.map (fun x => .setCapture x.1 x.2) ++
      [.setLoopState ins.loopIndex (B.loops ins.loopIndex)], ?_, ?_, ?_⟩, ?_, ?_, ?_, ?_⟩
    · show t.stack.entries = _
      rw [h7, hst]
      simp [saved]
    · refine Clean.append (fun e he => ?_) (clean_nil.cons trivial)
      obtain ⟨x, hx, rfl⟩ := List.mem_map.1 he
      exact hsaved x hx
    · have : undoOf (saved.map fun x => .setCapture x.1 x.2) = saved := undoOf_map saved
      show saved ++ B.undo = _
      rw [undoOf_append, this]
      simp [undoOf]
    · exact h4.trans ho
    · show Advances L.forward B.iter t.iter
      rw [h3, hp]
      exact .refl _ _
    · refine Frame.trans (.of_eq fun g hg => ?_) (hf.within hL)
      show t.captures g = _
      rw [h6, resetAll_of_not_mem (hLG g hg)]
    · intro i hi
      have hne : i ≠ ins.loopIndex := fun e => hLl (e ▸ hi)
      exact (congrFun h5 i).trans (hlf i hne (hL.loops hi))
  rw [h3, h6] at hb
  refine Refines.orElse hb ⟨rfl, rfl, fun g hg => ?_, fun i hi => ?_⟩ (List.Subset.refl _) hB
    fun c t' ht' => ?_
  · rcases List.mem_append.1 hg with hg | hg
    · exact List.mem_append_left _ hg
    · exact List.mem_append_right _ (Level.mem_round.1 hg).1
  · rcases List.mem_append.1 hi with hi | hi
    · exact List.mem_append_left _ hi
    · rcases List.mem_cons.1 hi with rfl | hi
      · exact List.mem_append_left _ List.mem_cons_self
      · exact List.mem_append_right _ hi
  · have hok' : CapturesOk cs t'.captures := ht'.captures ▸ ht'.ok
    refine Refines.applyUndo (u := saved) hok' (fun x hx => (hsaved x hx).2) ht'.label
      (ht'.stack.trans h7) fun t₁ g1 g2 g3 g4 g5 => ?_
    obtain ⟨t₂, hstep, k1, k2, k3, k4, k5⟩ := @backtrack_setLoopState cap E keep t₁ _ _ _ g1 (g2.trans hst)
    have hcap : t₁.captures = applyUndo saved c := by rw [g3, ht'.captures]
    have hok₁ : CapturesOk cs t₁.captures :=
      hcap ▸ applyUndo_ok (fun x hx => (hsaved x hx).2) ht'.ok
    refine .of_step (.of_label hok₁ (by rw [g1]; decide)) hstep
      (refines_fail ⟨k1, k2, ?_, k3.trans hcap, ?_, ?_, ?_⟩)
    · exact k5.trans (g5.trans (ht'.oldIter.trans (h4.trans ho)))
    · exact applyUndo_ok (fun x hx => (hsaved x hx).2) ht'.ok
    · refine Frame.trans (fun g hg => ?_) hf
      by_cases hgG : g ∈ G
      · rw [if_neg (hopen g hgG)]
        exact applyUndo_savedAll hGn hgG
      · have := ht'.frame g (Level.mem_round.2 ⟨hg, hgG⟩)
        have hns : ∀ x ∈ saved, x.1 ≠ g := fun x hx e => hgG (e ▸ (hsaved x hx).1)
        rw [applyUndo_of_not_mem hns]
        have hre : t.captures g = s.captures g := by rw [h6, resetAll_of_not_mem hgG]
        simpa [Level.round, State.base, hre] using this
    · intro i hi
      rw [k4]
      by_cases hne : i = ins.loopIndex
      · subst hne
        simp
      · rw [Function.update_of_ne hne, g4]
        exact (ht'.loops i (List.mem_cons_of_mem _ hi)).trans
          ((congrFun h5 i).trans (hlf i hne hi))

theorem stepWith_loop {s : State cap} (hb : E.regex.instSeq[a]? = some (.beginLoop ins))
    (hl : s.label = .loop) (hi : s.inst = a) : stepWith keep E s = loopStep s ins := by
  simp [stepWith, hl, hi, hb]

/-- `prepareLoopBody` of a loop that is not at its end. -/
theorem prepareLoopBody_ok {P : State cap → Prop} {s : State cap} {begin l : Nat}
    (hcount : (s.loops l).count < Node.unlimit)
    (h : ∀ st : BacktrackStack cap, st.entries = .setLoopState l (s.loops l) :: s.stack.entries →
      P ({ s with
        stack := st
        loops := Function.update s.loops l ⟨(s.loops l).count + 1, s.iter⟩ }.goto (begin + 1))) :
    (prepareLoopBody s begin l).Ok P := by
  apply tryPush_ok
  intro st hst
  have hlt : (s.loops l).count + 1 < 2 ^ 32 := by
    simp only [Node.unlimit] at hcount
    omega
  show P (State.goto { s with
    stack := st
    loops := Function.update s.loops l ⟨((s.loops l).count + 1) % 2 ^ 32, s.iter⟩ } (begin + 1))
  rw [Nat.mod_eq_of_lt hlt]
  exact h st hst

/-- The stack is full before a loop has counted up to `UNLIMIT`. -/
def StackLimited (cap : Option Nat) : Prop := ∃ c ∈ cap, c < Node.unlimit

theorem stackLimited_maxStackCap : StackLimited (some maxStackCap) := ⟨_, rfl, maxStackCap_lt⟩

/-- Without `counted` the loop is to end at its maximum only. -/
theorem count_eq_max {counted : Bool} {count max : Nat}
    (hcap : counted = false → StackLimited cap) (st : BacktrackStack cap)
    (hcount : count ≤ st.entries.length) :
    (count = max && (counted || max != Node.unlimit)) = decide (count = max) := by
  cases counted with
  | true => simp
  | false =>
    obtain ⟨c, hc, hlt⟩ := hcap rfl
    have := st.size_le c hc
    by_cases h : count = max
    · have : max ≠ Node.unlimit := by omega
      simp [h, this]
    · simp [h]

/-- The loop from its head on. The level `K` grows from round to round, `L` is that of the whole
loop; `D` are the loops inside the look-arounds of the body. -/
theorem refines_loop {counted : Bool} (hcap : counted = false → StackLimited cap)
    (hmin : ins.min ≤ ins.max) (hmax : ins.max ≤ Node.unlimit)
    (hcs : CodePoints cs) (hc : LoopCode E a bodyAddr mid ins first last)
    (hLG : ∀ g ∈ L.groups, g ∉ Node.groupRange first last) (hLl : ins.loopIndex ∉ L.loops)
    (hopen : ∀ g ∈ Node.groupRange first last, g ∉ L.opened) (hRb : Rb ⊆ Node.groupRange first last)
    (hD : ∀ i ∈ D, i ∉ Wb ∧ i ≠ ins.loopIndex)
    (hbody : ∀ K, L.Within K → (∀ i ∈ D, i ∉ K.loops) →
      Simulates cap E keep cs (K.round ins.loopIndex (Node.groupRange first last))
        (L.round ins.loopIndex (Node.groupRange first last)) f Rb Wb bodyAddr mid) :
    ∀ (fuel : Nat) (K : Level) (count last' : Nat) (s : State cap) (u : Undo), L.Within K →
      (∀ i ∈ D, i ∉ K.loops) → s.label = .loop → s.inst = a →
      s.loops ins.loopIndex = ⟨count, last'⟩ → Valid cs s.iter → CapturesOk cs s.captures →
      count ≤ ins.max → count ≤ s.stack.entries.length →
      Enough cs L.forward ins.min fuel count last' s.iter →
      Refines E keep cs K L (Node.groupRange first last) (ins.loopIndex :: Wb) (mid + 1) (s.base u)
        (loopSearch counted ins.min ins.max ins.greedy (Node.groupRange first last) f fuel count
          last' s.iter s.captures u) s := by
  intro fuel
  induction fuel with
  | zero =>
    intro K count last' s u _ _ _ _ _ _ _ _ _ hen
    exact absurd hen.1 (by decide)
  | succ fuel ih =>
    intro K count last' s u hL hDK hl hi hlo hv hok hle hcnt hen
    refine .of_ok (.of_label hok (by rw [hl]; decide)) ?_
    rw [stepWith_loop hc.begin hl hi, loopStep, loopSearch, hlo]
    simp only
    split
    · exact .of (refines_fail ⟨rfl, rfl, rfl, rfl, hok, .refl _ _, .refl _ _⟩)
    next hne =>
    have hne' : ¬ (last' = s.iter ∧ count > ins.min) := by simpa using hne
    -- one more round from a state with the entry of the counter on top of `B.stack`
    have hround : ∀ (K' : Level) (B : Base) (t : State cap), L.Within K' → (∀ i ∈ D, i ∉ K'.loops) →
        t.label = .dispatch → t.inst = a + 1 → t.iter = s.iter → CapturesOk cs t.captures →
        t.loops ins.loopIndex = ⟨count + 1, s.iter⟩ →
        t.stack.entries = .setLoopState ins.loopIndex (B.loops ins.loopIndex) :: B.stack →
        t.oldIter = B.oldIter → s.iter = B.iter → count < ins.max → count ≤ B.stack.length →
        Frame K' t.captures B.captures →
        (∀ i, i ≠ ins.loopIndex → i ∈ K'.loops → t.loops i = B.loops i) →
        Refines E keep cs K' L (Node.groupRange first last) (ins.loopIndex :: Wb) (mid + 1) B
          (((f s.iter (resetAll (Node.groupRange first last) t.captures)
            (savedAll (Node.groupRange first last) t.captures ++ B.undo)).bind
              fun p c u => loopSearch counted ins.min ins.max ins.greedy (Node.groupRange first last) f
                fuel (count + 1) s.iter p c u).restoring
                  (savedAll (Node.groupRange first last) t.captures)) t := by
      intro K' B t hL' hDK' h1 h2 h3 h4 h5 h6 h7 h8 hlt h9 h10 h11
      rw [← h3]
      refine refines_round hc hLG (hL'.opened ▸ hopen) hRb (hbody K' hL' hDK') ?_ h1 h2 (h3 ▸ hv) h4 h6
        h7 (h3.trans h8) hL' h10 h11 hLl
      intro t' u' g1 g2 g3 g4 g5 g6 g7
      rw [h3] at g5 ⊢
      refine ih _ (count + 1) s.iter t' u' ?_ ?_ g1 g2 (g6.trans h5) g3 g4 hlt (by omega)
        (hen.next hcs hne' hv g3 g5)
      · refine ⟨hL'.forward, hL'.opened, fun g hg => ?_, fun i hi => ?_⟩
        · exact List.mem_append_right _ (Level.mem_round.2 ⟨hL'.groups hg, hLG g hg⟩)
        · exact List.mem_append_right _ (List.mem_cons_of_mem _ (hL'.loops hi))
      · intro i hi hm
        rcases List.mem_append.1 hm with hm | hm
        · exact (hD i hi).1 hm
        · rcases List.mem_cons.1 hm with hm | hm
          · exact (hD i hi).2 hm
          · exact hDK' i hi hm
    split
    · next hless =>
      have hlt : count < ins.max := Nat.lt_of_lt_of_le hless hmin
      refine prepareLoopBody_ok (by rw [hlo]; exact Nat.lt_of_lt_of_le hlt hmax) fun st hst => ?_
      let t : State cap := State.goto { s with
        stack := st
        loops := Function.update s.loops ins.loopIndex
          ⟨(s.loops ins.loopIndex).count + 1, s.iter⟩ } (s.inst + 1)
      refine hround K (s.base u) t hL hDK rfl (by simp [t, State.goto, hi]) rfl hok
        (by simp [t, State.goto, hlo]) hst rfl rfl hlt hcnt (.refl _ _) fun i hi _ => ?_
      simp [t, State.goto, State.base, hi]
    next hnot =>
    rw [count_eq_max hcap s.stack hcnt]
    simp only [decide_eq_true_eq]
    have hexit : FoundAt cs L (Node.groupRange first last) (mid + 1) (s.base u) s.iter s.captures u
        (s.goto ins.outer) :=
      ⟨rfl, hc.outer, rfl, rfl, rfl, ⟨[], rfl, clean_nil, rfl⟩, hv, .refl _ _, hok, .refl _ _,
        .refl _ _⟩
    split
    · exact .of (refines_one hexit rfl (.refl _ _) (.refl _ _))
    next hend =>
    have hlt : count < ins.max := Nat.lt_of_le_of_ne hle hend
    have hunl : count < Node.unlimit := Nat.lt_of_lt_of_le hlt hmax
    split
    · apply tryPush_ok
      intro st hst
      refine prepareLoopBody_ok (by simp [hlo]; exact hunl) fun st' hst' => ?_
      let B' : Base := { s.base u with stack := .setIns (mid + 1) s.iter :: s.stack.entries }
      have hB : (s.base u).Extends cs L (Node.groupRange first last) B' :=
        ⟨⟨[_], rfl, clean_nil.cons trivial, rfl⟩, rfl, .refl _ _, .refl _ _, .refl _ _⟩
      let t : State cap := State.goto { s with
        stack := st'
        loops := Function.update s.loops ins.loopIndex
          ⟨(s.loops ins.loopIndex).count + 1, s.iter⟩ } (s.inst + 1)
      refine Refines.orElse (hround K B' t hL hDK rfl (by simp [t, State.goto, hi]) rfl hok
        (by simp [t, State.goto, hlo]) (hst'.trans (by rw [hst, hc.outer]; rfl)) rfl rfl hlt
        (Nat.le_succ_of_le hcnt) (.refl _ _) fun i hi _ => ?_) (.refl _) (List.Subset.refl _) hB
        fun c t ht => ?_
      · simp [t, State.goto, State.base, B', hi]
      · exact Simulates.resume hL simulates_empty (List.Subset.refl _) (List.Subset.refl _)
          (B := s.base u) hv ht
    · refine tryPush_ok fun st hst => tryPush_ok fun st' hst' => ?_
      have hes : st'.entries = .nonGreedyLoop ins.loopIndex ⟨count, last'⟩ ::
          .setIns a s.iter :: s.stack.entries := by rw [hst', hst, hi]
      have hclean : Clean cs (Node.groupRange first last)
          [.nonGreedyLoop ins.loopIndex ⟨count, last'⟩, .setIns a s.iter] :=
        Clean.cons (by trivial) (Clean.cons (by trivial) clean_nil)
      let t₀ : State cap := State.goto { s with stack := st' } ins.outer
      have hfound : FoundAt cs L (Node.groupRange first last) (mid + 1) (s.base u) s.iter s.captures
          u t₀ :=
        { hexit with
          stack := ⟨[.nonGreedyLoop ins.loopIndex ⟨count, last'⟩, .setIns a s.iter], hes, hclean,
            rfl⟩ }
      refine Leads.here (s := t₀) ⟨hfound, fun t ht => ?_⟩
      obtain ⟨st₁, hst₁, hstep⟩ := @stepWith_backtrack cap E keep t _ _ ht.label (ht.stack.trans hes)
      obtain ⟨st₂, hpop, hst₂⟩ := BacktrackStack.pop_cons hst₁
      have hloop : t.loops ins.loopIndex = ⟨count, last'⟩ :=
        (ht.loops _ (List.mem_append_left _ List.mem_cons_self)).trans hlo
      refine .of_ok ht.sound ?_
      rw [hstep, undo]
      simp only [hpop]
      have hprep := @prepareLoopBody_ok cap
        (fun t₁ => Step.Ok (Refines E keep cs K L (Node.groupRange first last) (ins.loopIndex :: Wb)
          (mid + 1) (s.base u) (((f s.iter (resetAll (Node.groupRange first last) t.captures)
            (savedAll (Node.groupRange first last) t.captures ++ u)).bind
              fun p c u => loopSearch counted ins.min ins.max ins.greedy (Node.groupRange first last) f
                fuel (count + 1) s.iter p c u).restoring
                  (savedAll (Node.groupRange first last) t.captures))) (checkTimer E t₁))
        { t with
          loops := Function.update t.loops ins.loopIndex ⟨count, last'⟩, iter := s.iter, stack := st₂ }
        a ins.loopIndex (by simpa using hunl) (fun st₃ hst₃ => checkTimer_ok fun n k => ?_)
      · split
        · next t₁ ht₁ => rw [ht₁] at hprep; exact hprep
        · next r hr => rw [hr] at hprep; exact hprep
      · let t₁ : State cap := { State.goto { t with
            iter := s.iter
            stack := st₃
            loops := Function.update (Function.update t.loops ins.loopIndex ⟨count, last'⟩)
              ins.loopIndex ⟨(Function.update t.loops ins.loopIndex ⟨count, last'⟩
                ins.loopIndex).count + 1, s.iter⟩ } (a + 1) with btCount := n, ticks := k }
        refine hround K (s.base u) t₁ hL hDK rfl rfl rfl ht.ok (by simp [t₁, State.goto]) ?_ ht.oldIter
          rfl hlt hcnt ht.frame.of_pass fun i hi hiK => ?_
        · rw [show (s.base u).loops ins.loopIndex = ⟨count, last'⟩ from hlo]
          simpa [t₁, State.goto, hst₂, State.base] using hst₃
        · have := ht.loops i (List.mem_append_right _ hiK)
          simpa [t₀, t₁, State.goto, State.base, hi] using this

/-- A loop: the counter is reset at its beginning and put back when it fails. -/
theorem simulates_loop {counted : Bool} (hcap : counted = false → StackLimited cap)
    (hmin : ins.min ≤ ins.max) (hmax : ins.max ≤ Node.unlimit) (hcs : CodePoints cs) (hE : E.bytes = encode cs)
    (hc : LoopCode E a bodyAddr mid ins first last) (hL : L.Within K)
    (hLG : ∀ g ∈ L.groups, g ∉ Node.groupRange first last) (hLl : ins.loopIndex ∉ L.loops)
    (hopen : ∀ g ∈ Node.groupRange first last, g ∉ L.opened) (hRb : Rb ⊆ Node.groupRange first last)
    (hD : ∀ i ∈ D, i ∉ Wb ∧ i ≠ ins.loopIndex) (hDK : ∀ i ∈ D, i ∉ K.loops)
    (hbody : ∀ K, L.Within K → (∀ i ∈ D, i ∉ K.loops) →
      Simulates cap E keep cs (K.round ins.loopIndex (Node.groupRange first last))
        (L.round ins.loopIndex (Node.groupRange first last)) f Rb Wb bodyAddr mid) :
    Simulates cap E keep cs K L (fun p c u =>
      loopSearch counted ins.min ins.max ins.greedy (Node.groupRange first last) f
        (ins.min + E.bytes.length + 2) 0 0 p c u)
      (Node.groupRange first last) (ins.loopIndex :: Wb) a (mid + 1) := by
  intro s u hs
  refine .of_ok (hs.sound hc.begin trivial) ?_
  rw [stepWith_dispatch hs.label (hs.inst ▸ hc.begin), dispatch]
  apply tryPush_ok
  intro st hst
  let t : State cap := {
    s with
    stack := st, label := .loop, loops := Function.update s.loops ins.loopIndex .init }
  have hen : Enough cs L.forward ins.min (ins.min + E.bytes.length + 2) 0 0 t.iter := by
    have hle := hs.valid.le hcs
    have hrest : rest cs L.forward t.iter ≤ (encode cs).length := by
      unfold rest
      split
      · exact Nat.sub_le _ _
      · exact hle
    exact ⟨by omega, .inr (by rw [hE]; omega)⟩
  have hloop := refines_loop hcap hmin hmax hcs hc hLG hLl hopen hRb hD hbody _ K 0 0 t u hL hDK rfl
    hs.inst (by simp [t, LoopState.init]) hs.valid hs.ok (Nat.zero_le _) (Nat.zero_le _) hen
  have hB : (s.base u).Extends cs L (Node.groupRange first last) (t.base u) := by
    refine ⟨⟨[_], hst, clean_nil.cons trivial, rfl⟩, rfl, .refl _ _, .refl _ _, fun i hi => ?_⟩
    have hne : i ≠ ins.loopIndex := fun e => hLl (e ▸ hi)
    exact Function.update_of_ne hne _ _
  show Refines E keep cs K L _ _ _ (s.base u)
    (loopSearch counted ins.min ins.max ins.greedy _ f _ 0 0 s.iter s.captures u) t
  rw [← Search.orElse_fail (loopSearch ..)]
  refine Refines.orElse hloop (.refl _) (List.Subset.refl _) hB fun c t' ht' => ?_
  obtain ⟨t₁, hstep, h1, h2, h3, h4, h5⟩ := @backtrack_setLoopState cap E keep t' _ _ _ ht'.label
    (ht'.stack.trans hst)
  refine .of_step ht'.sound hstep (refines_fail ⟨h1, h2, h5.trans ht'.oldIter,
    h3.trans ht'.captures, ht'.ok, ht'.frame, fun i hi => ?_⟩)
  rw [h4]
  by_cases hne : i = ins.loopIndex
  · subst hne
    simp [State.base]
  · rw [Function.update_of_ne hne, ht'.loops i hi]
    exact Function.update_of_ne hne _ _

end

end

end Arsh.Regex
