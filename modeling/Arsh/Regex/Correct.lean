import Mathlib.Data.List.Nodup
import Arsh.Regex.StrSet

/-!
# Correctness of the generated code

`simulates_generate`: the code that `CodeGen` emits for a node does what `Node.search` says, by
induction on the node. The indices in the node must not clash with those entered on the way to it
(`Fits`).
-/

namespace Arsh.Regex

open UnicodeUtil Machine

-- The equations are made here, once, and not inside the proofs that unfold a definition.
attribute [local grind =] Node.wf Node.wfList

/-! ## Matchers are only added -/

section
variable {forward : Bool} {a : Nat} {ms ms' : List Matcher} {code : List Inst}

theorem generateStrSet_extends {s : StrSet}
    (h : CodeGen.generateStrSet forward ms s = some (code, ms')) : ms <+: ms' := by
  obtain ⟨index, ms₁, chars, hr, hch, -⟩ := generateStrSet_some h
  have h₁ : ms <+: ms₁ := by
    split at hr
    · exact hr ▸ List.prefix_rfl
    · exact emitMatcher_extends hr
  cases hc : s.chars with
  | none =>
    rw [hc] at hch
    exact hch.2 ▸ h₁
  | some atom =>
    rw [hc] at hch
    obtain ⟨i, -, hi⟩ := hch
    exact h₁.trans (generateAtom_extends hi)

/-- `generate` keeps the matchers that are there. -/
def Adds (p : Node) : Prop :=
  ∀ {forward : Bool} {a : Nat} {ms ms' : List Matcher} {code : List Inst},
    CodeGen.generate forward a ms p = some (code, ms') → ms <+: ms'

theorem generateSeq_extends {ps : List Node} (hps : ∀ p ∈ ps, Adds p) {pending : List Nat}
    (h : CodeGen.generateSeq a ms pending ps = some (code, ms')) : ms <+: ms' := by
  induction ps generalizing a ms pending code with
  | nil => exact generateChars_extends h
  | cons p ps ih =>
    have hps' : ∀ q ∈ ps, Adds q := fun q hq => hps q (List.mem_cons_of_mem _ hq)
    unfold CodeGen.generateSeq at h
    split at h
    · exact ih hps' h
    · simp only [Option.bind_eq_bind, Option.bind_eq_some_iff] at h
      obtain ⟨⟨chars, ms₁⟩, h₁, ⟨body, ms₂⟩, h₂, ⟨rest, ms₃⟩, h₃, h⟩ := h
      cases h
      exact (generateChars_extends h₁).trans ((hps p List.mem_cons_self h₂).trans (ih hps' h₃))

theorem generateLBSeq_extends {ps : List Node} (hps : ∀ p ∈ ps, Adds p) {pending : List Nat}
    (h : CodeGen.generateLBSeq a ms ps = some (code, ms', pending)) : ms <+: ms' := by
  induction ps generalizing ms' pending code with
  | nil =>
    cases h
    exact List.prefix_rfl
  | cons p ps ih =>
    have hps' : ∀ q ∈ ps, Adds q := fun q hq => hps q (List.mem_cons_of_mem _ hq)
    simp only [CodeGen.generateLBSeq, Option.bind_eq_bind, Option.bind_eq_some_iff] at h
    obtain ⟨⟨code₁, ms₁, pending₁⟩, h₁, h⟩ := h
    split at h
    · cases h
      exact ih hps' h₁
    · simp only [Option.bind_eq_some_iff] at h
      obtain ⟨⟨chars, ms₂⟩, h₂, ⟨body, ms₃⟩, h₃, h⟩ := h
      cases h
      exact (ih hps' h₁).trans ((generateChars_extends h₂).trans (hps p List.mem_cons_self h₃))

theorem generateAlt_extends {ps : List Node} (hps : ∀ p ∈ ps, Adds p)
    (h : CodeGen.generateAlt forward a ms ps = some (code, ms')) : ms <+: ms' := by
  induction ps generalizing a ms code with
  | nil =>
    cases h
    exact List.prefix_rfl
  | cons p ps ih =>
    cases ps with
    | nil => exact hps p List.mem_cons_self h
    | cons q qs =>
      simp only [CodeGen.generateAlt, Option.bind_eq_bind, Option.bind_eq_some_iff] at h
      obtain ⟨⟨body, ms₁⟩, h₁, ⟨rest, ms₂⟩, h₂, h⟩ := h
      cases h
      exact (hps p List.mem_cons_self h₁).trans (ih (fun q hq => hps q (List.mem_cons_of_mem _ hq)) h₂)

theorem generate_extends (p : Node) : Adds p := by
  induction p using Node.induct with
  | empty =>
    intro _ _ _ _ _ h
    cases h
    exact List.prefix_rfl
  | atom atom =>
    intro forward a ms ms' code h
    simp only [CodeGen.generate, Option.bind_eq_bind, Option.bind_eq_some_iff] at h
    obtain ⟨⟨ins, ms₁⟩, h₁, h⟩ := h
    cases h
    exact generateAtom_extends h₁
  | grapheme =>
    intro _ _ _ _ _ h
    cases h
    exact List.prefix_rfl
  | boundary =>
    intro _ _ _ _ _ h
    cases h
    exact List.prefix_rfl
  | backRef =>
    intro _ _ _ _ _ h
    cases h
    exact List.prefix_rfl
  | repeated _ _ _ _ _ _ p ih =>
    intro forward a ms ms' code h
    simp only [CodeGen.generate, Option.bind_eq_bind, Option.bind_eq_some_iff] at h
    obtain ⟨⟨body, ms₁⟩, h₁, h⟩ := h
    cases h
    exact ih h₁
  | seq ps ih =>
    intro forward a ms ms' code h
    unfold CodeGen.generate at h
    split at h
    · exact generateSeq_extends ih h
    · simp only [Option.bind_eq_bind, Option.bind_eq_some_iff] at h
      obtain ⟨⟨code₁, ms₁, pending⟩, h₁, ⟨chars, ms₂⟩, h₂, h⟩ := h
      cases h
      exact (generateLBSeq_extends ih h₁).trans (generateChars_extends h₂)
  | alt ps ih =>
    intro forward a ms ms' code h
    unfold CodeGen.generate at h
    split at h
    · next p =>
      simp only [Option.bind_eq_bind, Option.bind_eq_some_iff] at h
      obtain ⟨⟨body, ms₁⟩, h₁, h⟩ := h
      cases h
      exact ih p List.mem_cons_self h₁
    · exact generateAlt_extends ih h
  | lookAround _ _ p ih =>
    intro forward a ms ms' code h
    simp only [CodeGen.generate, Option.bind_eq_bind, Option.bind_eq_some_iff] at h
    obtain ⟨⟨body, ms₁⟩, h₁, h⟩ := h
    cases h
    exact ih h₁
  | group _ p ih =>
    intro forward a ms ms' code h
    simp only [CodeGen.generate, Option.bind_eq_bind, Option.bind_eq_some_iff] at h
    obtain ⟨⟨body, ms₁⟩, h₁, h⟩ := h
    cases h
    exact ih h₁
  | strSet s =>
    intro forward a ms ms' code h
    exact generateStrSet_extends h

end

/-! ## Conditions on a node -/

mutual

/-- The leaves of a node rest on tables and trees that are in order. -/
def Node.Supported (S : Subject) (cs : List Nat) : Node → Bool → Prop
  | .grapheme, _ => GraphemeOk S.tables
  | .strSet s, forward => s.Ok S cs forward
  | .repeated _ _ _ _ _ _ p, forward => p.Supported S cs forward
  | .seq ps, forward => Node.SupportedList S cs ps forward
  | .alt ps, forward => Node.SupportedList S cs ps forward
  | .lookAround lookAhead _ p, _ => p.Supported S cs lookAhead
  | .group _ p, forward => p.Supported S cs forward
  | _, _ => True

def Node.SupportedList (S : Subject) (cs : List Nat) : List Node → Bool → Prop
  | [], _ => True
  | p :: ps, forward => p.Supported S cs forward ∧ Node.SupportedList S cs ps forward

end

/-- The groups `R` and loops `N` of a node are not in use where it stands. Only the loops outside
of look-arounds, `W`, may have been entered before, in an earlier round of a loop around them. -/
structure Fits (K L : Level) (R N W : List Nat) : Prop where
  within : L.Within K
  groups : ∀ g ∈ R, g ∉ K.groups
  opened : ∀ g ∈ R, g ∉ K.opened
  deep : ∀ i ∈ N, i ∉ W → i ∉ K.loops
  loops : ∀ i ∈ N, i ∉ L.loops

section
variable {K L : Level} {R₁ R₂ N₁ N₂ W₁ W₂ : List Nat}

theorem Fits.left (h : Fits K L (R₁ ++ R₂) (N₁ ++ N₂) (W₁ ++ W₂)) (hW : W₂ ⊆ N₂)
    (hN : (N₁ ++ N₂).Nodup) : Fits K L R₁ N₁ W₁ := by
  refine ⟨h.within, fun g hg => h.groups g (List.mem_append_left _ hg),
    fun g hg => h.opened g (List.mem_append_left _ hg), fun i hi hw => ?_,
    fun i hi => h.loops i (List.mem_append_left _ hi)⟩
  refine h.deep i (List.mem_append_left _ hi) fun hm => ?_
  rcases List.mem_append.1 hm with hm | hm
  · exact hw hm
  · exact (List.disjoint_of_nodup_append hN) hi (hW hm)

theorem Fits.right (h : Fits K L (R₁ ++ R₂) (N₁ ++ N₂) (W₁ ++ W₂)) (hW : W₁ ⊆ N₁)
    (hN : (N₁ ++ N₂).Nodup) : Fits K L R₂ N₂ W₂ := by
  refine ⟨h.within, fun g hg => h.groups g (List.mem_append_right _ hg),
    fun g hg => h.opened g (List.mem_append_right _ hg), fun i hi hw => ?_,
    fun i hi => h.loops i (List.mem_append_right _ hi)⟩
  refine h.deep i (List.mem_append_right _ hi) fun hm => ?_
  rcases List.mem_append.1 hm with hm | hm
  · exact (List.disjoint_of_nodup_append hN) (hW hm) hi
  · exact hw hm

/-- Behind another node with indices of its own. -/
theorem Fits.pass (h : Fits K L R₁ N₁ W₁) (hR : R₁.Disjoint R₂) (hN : N₁.Disjoint W₂) :
    Fits (K.pass R₂ W₂) L R₁ N₁ W₁ := by
  refine ⟨h.within.pass R₂ W₂, fun g hg hm => ?_, h.opened, fun i hi hw hm => ?_, h.loops⟩
  · rcases List.mem_append.1 hm with hm | hm
    · exact hR hg hm
    · exact h.groups g hg hm
  · rcases List.mem_append.1 hm with hm | hm
    · exact hN hi hm
    · exact h.deep i hi hw hm

end

namespace Node

theorem shallowLoopsList_subset {ps : List Node} (h : ∀ p ∈ ps, p.shallowLoops ⊆ p.loops) :
    shallowLoopsList ps ⊆ loopsList ps := by
  induction ps with
  | nil => exact List.Subset.refl _
  | cons p ps ih =>
    intro i hi
    rcases List.mem_append.1 hi with hi | hi
    · exact List.mem_append_left _ (h p List.mem_cons_self hi)
    · exact List.mem_append_right _ (ih (fun q hq => h q (List.mem_cons_of_mem _ hq)) hi)

theorem shallowLoops_subset (p : Node) : p.shallowLoops ⊆ p.loops := by
  induction p using Node.induct with
  | repeated l _ _ _ _ _ p ih => exact List.cons_subset_cons l ih
  | seq ps ih => exact shallowLoopsList_subset ih
  | alt ps ih => exact shallowLoopsList_subset ih
  | lookAround _ _ p _ => exact List.nil_subset _
  | group _ p ih => exact ih
  | _ => exact List.Subset.refl _

theorem wfList_mem {ps : List Node} {forward : Bool} :
    wfList ps forward = true ↔ ∀ p ∈ ps, p.wf forward = true := by
  induction ps with
  | nil => simp [wfList]
  | cons p ps ih => simp [wfList, ih]

theorem supportedList_mem {S : Subject} {cs : List Nat} {ps : List Node} {forward : Bool} :
    SupportedList S cs ps forward ↔ ∀ p ∈ ps, p.Supported S cs forward := by
  induction ps with
  | nil => simp [SupportedList]
  | cons p ps ih => simp [SupportedList, ih]

end Node

/-! ## The induction -/

section
variable {cap : Option Nat} {E : Env} {counted keep : Bool} {cs : List Nat}

/-- The code of a node does what its search says, wherever it is placed. -/
def Compiles (cap : Option Nat) (E : Env) (counted : Bool) (keep : Bool) (cs : List Nat) (p : Node) : Prop :=
  ∀ (forward : Bool) (a : Nat) (ms ms' : List Matcher) (code : List Inst) (K L : Level),
    p.wf forward = true → p.Supported E.subject cs forward →
    CodeGen.generate forward a ms p = some (code, ms') → ms' <+: E.regex.matchers →
    CodeAt E.regex a code → L.forward = forward → Fits K L p.groups p.loops p.shallowLoops →
    Simulates cap E keep cs K L (p.search counted E.subject keep forward) p.groups p.shallowLoops a
      (a + code.length)

theorem charNode_some {p : Node} {c : Nat} (h : CodeGen.charNode p = some c) :
    p = .atom (.char c) := by
  unfold CodeGen.charNode at h
  split at h
  · cases h
    rfl
  · cases h

theorem CodePoints.append_singleton {xs : List Nat} {c : Nat} (hxs : CodePoints xs)
    (hc : c ≤ codePointMax) : CodePoints (xs ++ [c]) := by
  intro x hx
  rcases List.mem_append.1 hx with hx | hx
  · exact hxs x hx
  · rw [List.mem_singleton.1 hx]
    exact hc

theorem charNodes_append (xs : List Nat) (c : Nat) (ps : List Node) :
    charNodes (xs ++ [c]) ++ ps = charNodes xs ++ .atom (.char c) :: ps := by
  simp [charNodes]

/-- A sequence forwards, behind the run of characters `pending`. -/
theorem simulates_seq (hcs : CodePoints cs) (hE : E.bytes = encode cs) {ps : List Node}
    (ih : ∀ p ∈ ps, Compiles cap E counted keep cs p) :
    ∀ {pending : List Nat} {a : Nat} {ms ms' : List Matcher} {code : List Inst} {K L : Level},
      CodePoints pending → (∀ p ∈ ps, p.wf true = true) →
      (∀ p ∈ ps, p.Supported E.subject cs true) →
      CodeGen.generateSeq a ms pending ps = some (code, ms') → ms' <+: E.regex.matchers →
      CodeAt E.regex a code → L.forward = true → (Node.groupsList ps).Nodup →
      (Node.loopsList ps).Nodup →
      Fits K L (Node.groupsList ps) (Node.loopsList ps) (Node.shallowLoopsList ps) →
      Simulates cap E keep cs K L (Node.searchSeq counted E.subject keep (charNodes pending ++ ps))
        (Node.groupsList ps) (Node.shallowLoopsList ps) a (a + code.length) := by
  induction ps with
  | nil =>
    intro pending a ms ms' code K L hpend _ _ hg hms hc hf _ _ _
    rw [List.append_nil]
    exact simulates_chars hcs hpend hE hf hg hms hc
  | cons p ps ihs =>
    intro pending a ms ms' code K L hpend hwf hsup hg hms hc hf hR hN hfit
    have hmem := fun q (hq : q ∈ ps) => List.mem_cons_of_mem p hq
    have h0 : p ∈ p :: ps := List.mem_cons_self
    have ihs' := @ihs (fun q hq => ih q (hmem q hq))
    have hwf' := fun q hq => hwf q (hmem q hq)
    have hsup' := fun q hq => hsup q (hmem q hq)
    have hR' := List.nodup_append.1 hR
    have hN' := List.nodup_append.1 hN
    have hrest : Fits (K.pass p.groups p.shallowLoops) L (Node.groupsList ps) (Node.loopsList ps)
        (Node.shallowLoopsList ps) := by
      refine (hfit.right p.shallowLoops_subset hN).pass ?_ fun i hi hi' => ?_
      · exact fun g hg hg' => (List.disjoint_of_nodup_append hR) hg' hg
      · exact (List.disjoint_of_nodup_append hN) (p.shallowLoops_subset hi') hi
    unfold CodeGen.generateSeq at hg
    split at hg
    · next c hch =>
      obtain rfl := charNode_some hch
      have hcp : c ≤ codePointMax := by simpa [Node.wf] using hwf _ h0
      have := ihs' (CodePoints.append_singleton hpend hcp) hwf' hsup' hg hms hc hf hR'.2.1 hN'.2.1
        (hfit.right (List.nil_subset _) hN)
      rwa [charNodes_append] at this
    · simp only [Option.bind_eq_bind, Option.bind_eq_some_iff] at hg
      obtain ⟨⟨chars, ms₁⟩, h₁, ⟨body, ms₂⟩, h₂, ⟨tail, ms₃⟩, h₃, hg⟩ := hg
      cases hg
      have hms₂ : ms₂ <+: E.regex.matchers :=
        (generateSeq_extends (fun q _ => generate_extends q) h₃).trans hms
      have hms₁ : ms₁ <+: E.regex.matchers := (generate_extends p h₂).trans hms₂
      have hsub : (Node.shallowLoopsList ps) ⊆ Node.loopsList ps :=
        Node.shallowLoopsList_subset fun q _ => q.shallowLoops_subset
      have s₁ : Simulates cap E keep cs K L (Node.searchSeq counted E.subject keep (charNodes pending)) [] [] a
          (a + chars.length) :=
        simulates_chars hcs hpend hE hf h₁ hms₁ hc.left.left
      have s₂ := ih p h0 true _ _ _ _ K L (hwf p h0) (hsup p h0) h₂ hms₂ hc.left.right hf
        (hfit.left hsub hN)
      have hc₃ : CodeAt E.regex (a + chars.length + body.length) tail :=
        hc.right.cast (by rw [List.length_append, Nat.add_assoc])
      have s₃ := ihs' codePoints_nil hwf' hsup' h₃ hms hc₃ hf hR'.2.1
        hN'.2.1 hrest
      have hR₂₃ : Node.groupsList ps ++ p.groups ⊆ Node.groupsList (p :: ps) :=
        List.append_subset.2 ⟨List.subset_append_right _ _, List.subset_append_left _ _⟩
      have hW₂₃ : Node.shallowLoopsList ps ++ p.shallowLoops ⊆ Node.shallowLoopsList (p :: ps) :=
        List.append_subset.2 ⟨List.subset_append_right _ _, List.subset_append_left _ _⟩
      have s₂₃ := s₂.seq s₃ hR₂₃ hW₂₃
      have hend : a + (chars ++ body ++ tail).length = a + chars.length + body.length + tail.length := by
        simp only [List.length_append]
        omega
      rw [hend]
      refine Simulates.congr (Simulates.seq s₁ s₂₃ ?_ ?_) fun q c u _ => ?_
      · rw [List.append_nil]
        exact List.Subset.refl _
      · rw [List.append_nil]
        exact List.Subset.refl _
      · rw [Node.searchSeq_append]
        rfl

/-- A sequence backwards, up to the run of characters that has not been emitted yet. -/
theorem simulates_lbSeq (hcs : CodePoints cs) (hE : E.bytes = encode cs) {ps : List Node}
    (ih : ∀ p ∈ ps, Compiles cap E counted keep cs p) :
    ∀ {pending : List Nat} {a : Nat} {ms ms' : List Matcher} {code : List Inst} {K L : Level},
      (∀ p ∈ ps, p.wf false = true) → (∀ p ∈ ps, p.Supported E.subject cs false) →
      CodeGen.generateLBSeq a ms ps = some (code, ms', pending) → ms' <+: E.regex.matchers →
      CodeAt E.regex a code → L.forward = false → (Node.groupsList ps).Nodup →
      (Node.loopsList ps).Nodup →
      Fits K L (Node.groupsList ps) (Node.loopsList ps) (Node.shallowLoopsList ps) →
      ∃ qs, ps = charNodes pending ++ qs ∧ CodePoints pending ∧
        Simulates cap E keep cs K L (Node.searchLBSeq counted E.subject keep qs) (Node.groupsList ps)
          (Node.shallowLoopsList ps) a (a + code.length) := by
  induction ps with
  | nil =>
    intro pending a ms ms' code K L _ _ hg _ _ _ _ _ _
    cases hg
    exact ⟨[], rfl, codePoints_nil, simulates_empty⟩
  | cons p ps ihs =>
    intro pending a ms ms' code K L hwf hsup hg hms hc hf hR hN hfit
    have hmem := fun q (hq : q ∈ ps) => List.mem_cons_of_mem p hq
    have h0 : p ∈ p :: ps := List.mem_cons_self
    have hR' := List.nodup_append.1 hR
    have hN' := List.nodup_append.1 hN
    have hsub : (Node.shallowLoopsList ps) ⊆ Node.loopsList ps :=
      Node.shallowLoopsList_subset fun q _ => q.shallowLoops_subset
    have ihs' := fun ms₁ code₁ pending₁ h hms₁ hc₁ =>
      @ihs (fun q hq => ih q (hmem q hq)) pending₁ a ms ms₁ code₁ K L
        (fun q hq => hwf q (hmem q hq)) (fun q hq => hsup q (hmem q hq)) h hms₁ hc₁ hf hR'.2.1
        hN'.2.1 (hfit.right p.shallowLoops_subset hN)
    simp only [CodeGen.generateLBSeq, Option.bind_eq_bind, Option.bind_eq_some_iff] at hg
    obtain ⟨⟨code₁, ms₁, pending₁⟩, h₁, hg⟩ := hg
    split at hg
    · next c hch =>
      cases hg
      obtain rfl := charNode_some hch
      have hcp : c ≤ codePointMax := by simpa [Node.wf] using hwf _ h0
      obtain ⟨qs, rfl, hcps, hs⟩ := ihs' _ _ _ h₁ hms hc
      refine ⟨qs, rfl, fun x hx => ?_, hs⟩
      rcases List.mem_cons.1 hx with rfl | hx
      · exact hcp
      · exact hcps x hx
    · simp only [Option.bind_eq_some_iff] at hg
      obtain ⟨⟨chars, ms₂⟩, h₂, ⟨body, ms₃⟩, h₃, hg⟩ := hg
      cases hg
      have hms₂ : ms₂ <+: E.regex.matchers := (generate_extends p h₃).trans hms
      have hms₁ : ms₁ <+: E.regex.matchers := (generateChars_extends h₂).trans hms₂
      obtain ⟨qs, hqs, hcps, s₁⟩ := ihs' _ _ _ h₁ hms₁ hc.left.left
      have s₂ : Simulates cap E keep cs (K.pass (Node.groupsList ps) (Node.shallowLoopsList ps)) L
          (Node.searchLBSeq counted E.subject keep (charNodes pending₁)) [] [] (a + code₁.length)
          (a + code₁.length + chars.length) :=
        simulates_chars hcs hcps hE hf h₂ hms₂ hc.left.right
      have hc₃ : CodeAt E.regex (a + code₁.length + chars.length) body :=
        hc.right.cast (by rw [List.length_append, Nat.add_assoc])
      have hfit' : Fits (K.pass (Node.groupsList ps) (Node.shallowLoopsList ps)) L p.groups p.loops
          p.shallowLoops := by
        apply (hfit.left hsub hN).pass (List.disjoint_of_nodup_append hR)
        intro i hi hi'
        exact (List.disjoint_of_nodup_append hN) hi (hsub hi')
      have s₃ := ih p h0 false _ _ _ _ _ L (hwf p h0) (hsup p h0) h₃ hms hc₃ hf hfit'
      have s₁₂ := s₁.seq (R := Node.groupsList ps) (W := Node.shallowLoopsList ps) s₂
        (List.Subset.refl _) (List.Subset.refl _)
      have hend : a + (code₁ ++ chars ++ body).length = a + code₁.length + chars.length + body.length := by
        simp only [List.length_append]
        omega
      refine ⟨p :: ps, rfl, codePoints_nil, ?_⟩
      rw [hend]
      refine Simulates.congr (Simulates.seq s₁₂ s₃ (List.Subset.refl _) (List.Subset.refl _))
        fun q c u _ => ?_
      rw [Node.searchLBSeq, hqs, Node.searchLBSeq_append]

/-- Two or more alternatives. -/
theorem simulates_alts (ps : List Node) (ih : ∀ p ∈ ps, Compiles cap E counted keep cs p) :
    ∀ {forward : Bool} {a : Nat} {ms ms' : List Matcher} {code : List Inst} {K L : Level},
      ps ≠ [] → (∀ p ∈ ps, p.wf forward = true) →
      (∀ p ∈ ps, p.Supported E.subject cs forward) →
      CodeGen.generateAlt forward a ms ps = some (code, ms') → ms' <+: E.regex.matchers →
      CodeAt E.regex a code → L.forward = forward → (Node.loopsList ps).Nodup →
      Fits K L (Node.groupsList ps) (Node.loopsList ps) (Node.shallowLoopsList ps) →
      Simulates cap E keep cs K L (Node.searchAlt counted E.subject keep forward ps) (Node.groupsList ps)
        (Node.shallowLoopsList ps) a (a + code.length) := by
  induction ps with
  | nil => exact fun h => absurd rfl h
  | cons p ps ihs =>
    intro forward a ms ms' code K L _ hwf hsup hg hms hc hf hN hfit
    have hmem := fun q (hq : q ∈ ps) => List.mem_cons_of_mem p hq
    have h0 : p ∈ p :: ps := List.mem_cons_self
    have hN' := List.nodup_append.1 hN
    have hsub : (Node.shallowLoopsList ps) ⊆ Node.loopsList ps :=
      Node.shallowLoopsList_subset fun q _ => q.shallowLoops_subset
    have hR₁ : p.groups ⊆ Node.groupsList (p :: ps) := List.subset_append_left _ _
    have hW₁ : p.shallowLoops ⊆ Node.shallowLoopsList (p :: ps) := List.subset_append_left _ _
    have hR₂ : Node.groupsList ps ⊆ Node.groupsList (p :: ps) := List.subset_append_right _ _
    have hW₂ : Node.shallowLoopsList ps ⊆ Node.shallowLoopsList (p :: ps) :=
      List.subset_append_right _ _
    cases ps with
    | nil =>
      exact Simulates.mono hfit.within (ih p h0 forward a ms ms' code K L (hwf p h0) (hsup p h0) hg hms
        hc hf (hfit.left hsub hN)) hR₁ hW₁
    | cons q qs =>
      simp only [CodeGen.generateAlt, Option.bind_eq_bind, Option.bind_eq_some_iff] at hg
      obtain ⟨⟨body, ms₁⟩, h₁, ⟨rest, ms₂⟩, h₂, hg⟩ := hg
      cases hg
      generalize hj : (if (q :: qs).length = 1 && (q :: qs).all Node.isEmpty then 0 else 1) = jumpSize
        at h₂ hc ⊢
      have hms₁ : ms₁ <+: E.regex.matchers :=
        (generateAlt_extends (fun q _ => generate_extends q) h₂).trans hms
      have hbody : CodeAt E.regex (a + 1) body := hc.tail.left.left
      have hjump : CodeAt E.regex (a + 1 + body.length)
          (List.replicate jumpSize (.jump (a + 1 + body.length + jumpSize + rest.length))) :=
        hc.tail.left.right
      have hrest : CodeAt E.regex (a + 1 + body.length + jumpSize) rest :=
        hc.right.cast (by
          simp only [List.length_append, List.length_cons, List.length_replicate]
          omega)
      have s₁ := ih p h0 forward _ _ _ _ K L (hwf p h0) (hsup p h0) h₁ hms₁ hbody hf
        (hfit.left hsub hN)
      have s₂ := ihs (fun q hq => ih q (hmem q hq)) (List.cons_ne_nil _ _)
        (fun q hq => hwf q (hmem q hq)) (fun q hq => hsup q (hmem q hq)) h₂ hms hrest hf hN'.2.1
        (hfit.right p.shallowLoops_subset hN)
      have hend : a + (Inst.alt (a + 1 + body.length + jumpSize) :: body ++ List.replicate jumpSize
          (Inst.jump (a + 1 + body.length + jumpSize + rest.length)) ++ rest).length =
          a + 1 + body.length + jumpSize + rest.length := by
        simp only [List.length_append, List.length_cons, List.length_replicate]
        omega
      rw [hend]
      refine simulates_alt hfit.within hc.head s₁ ?_ s₂ hR₁ hW₁ hR₂ hW₂
      -- no jump is needed over an empty last alternative
      split at hj
      · next hemp =>
        subst hj
        have hnil : rest = [] := by
          simp only [Bool.and_eq_true, decide_eq_true_eq] at hemp
          obtain ⟨hlen, hall⟩ := hemp
          have hqs : qs = [] := List.eq_nil_of_length_eq_zero (Nat.succ.inj hlen)
          subst hqs
          have hq : q.isEmpty = true := by simpa using hall
          cases q with
          | empty =>
            cases h₂
            rfl
          | _ => cases hq
        rw [hnil]
        exact goes_self
      · subst hj
        exact goes_jump hjump.head

theorem Level.Within.round {K L : Level} (h : L.Within K) (l : Nat) (gs : List Nat) :
    (L.round l gs).Within (K.round l gs) := by
  refine ⟨h.forward, h.opened, fun g hg => ?_, List.cons_subset_cons l h.loops⟩
  obtain ⟨h₁, h₂⟩ := Level.mem_round.1 hg
  exact Level.mem_round.2 ⟨h.groups h₁, h₂⟩

theorem compiles_repeated (hcap : counted = false → StackLimited cap) (hcs : CodePoints cs) (hE : E.bytes = encode cs)
    {loopIndex first last min max : Nat} {greedy : Bool} {p : Node} (ih : Compiles cap E counted keep cs p) :
    Compiles cap E counted keep cs (.repeated loopIndex first last min max greedy p) := by
  intro forward a ms ms' code K L hwf hsup hg hms hc hf hfit
  simp only [Node.wf, Bool.and_eq_true, decide_eq_true_eq, List.all_eq_true,
    List.contains_iff_mem] at hwf
  obtain ⟨⟨⟨⟨⟨hp, hpR⟩, hpN⟩, hcover⟩, hmin⟩, -, hmax⟩ := hwf
  simp only [CodeGen.generate, Option.bind_eq_bind, Option.bind_eq_some_iff] at hg
  obtain ⟨⟨body, ms₁⟩, h₁, hg⟩ := hg
  cases hg
  generalize hreset : (if first ≠ 0 then [Inst.resetCaptures first last] else []) = reset
    at h₁ hc ⊢
  let mid := a + 1 + reset.length + body.length
  have hloop : LoopCode E a (a + 1 + reset.length) mid ⟨loopIndex, min, max, greedy, mid + 1⟩ first
      last := by
    refine ⟨hc.head, ?_, ?_, rfl⟩
    · by_cases h0 : first = 0
      · rw [if_neg (by simpa using h0)] at hreset
        subst hreset
        exact .inl ⟨h0, rfl⟩
      · rw [if_pos h0] at hreset
        subst hreset
        exact .inr ⟨h0, hc.tail.head, rfl⟩
    · refine @CodeAt.head _ _ [] _ (hc.right.cast ?_)
      simp only [List.length_append, List.length_cons, mid]
      omega
  have hbody : CodeAt E.regex (a + 1 + reset.length) body := hc.tail.left.right
  have hl : loopIndex ∉ p.loops := (List.nodup_cons.1 hpN).1
  have hrange : ∀ g ∈ p.groups, g ∈ Node.groupRange first last := hcover
  have hend : a + (Inst.beginLoop ⟨loopIndex, min, max, greedy, mid + 1⟩ :: reset ++ body ++
      [Inst.endLoop a]).length = mid + 1 := by
    simp only [List.length_append, List.length_cons, List.length_nil, mid]
    omega
  show Simulates cap E keep cs K L _ _ _ a (a + (Inst.beginLoop ⟨loopIndex, min, max, greedy, mid + 1⟩ ::
    reset ++ body ++ [Inst.endLoop a]).length)
  rw [hend]
  -- the loops inside the look-arounds of the body
  have hmemD : ∀ i, i ∈ p.loops.filter (· ∉ p.shallowLoops) ↔ i ∈ p.loops ∧ i ∉ p.shallowLoops := by
    simp
  refine @simulates_loop cap E keep cs K L a mid (p.search counted E.subject keep forward) _ first
    last ⟨loopIndex, min, max, greedy, mid + 1⟩ p.groups p.shallowLoops
    (p.loops.filter (· ∉ p.shallowLoops)) counted hcap hmin hmax hcs hE hloop hfit.within ?_ ?_ ?_ hrange ?_ ?_ ?_
  · exact fun g hg hm => hfit.groups g hm (hfit.within.groups hg)
  · exact hfit.loops _ List.mem_cons_self
  · exact fun g hg => hfit.within.opened ▸ hfit.opened g hg
  · intro i hi
    obtain ⟨h₁, h₂⟩ := (hmemD i).1 hi
    exact ⟨h₂, fun (e : i = loopIndex) => hl (e ▸ h₁)⟩
  · intro i hi
    obtain ⟨h₁, h₂⟩ := (hmemD i).1 hi
    refine hfit.deep i (List.mem_cons_of_mem _ h₁) fun hm => ?_
    rcases List.mem_cons.1 hm with rfl | hm
    · exact hl h₁
    · exact h₂ hm
  · intro K' hK' hD
    refine ih forward _ _ _ _ _ _ hp hsup h₁ hms hbody hf ⟨hK'.round _ _, ?_, ?_, ?_, ?_⟩
    · exact fun g hg hm => (Level.mem_round.1 hm).2 (hrange g hg)
    · intro g hg
      show g ∉ K'.opened
      rw [← hK'.opened, hfit.within.opened]
      exact hfit.opened g (hrange g hg)
    · intro i hi hw hm
      rcases List.mem_cons.1 hm with rfl | hm
      · exact hl hi
      · exact hD i ((hmemD i).2 ⟨hi, hw⟩) hm
    · intro i hi hm
      rcases List.mem_cons.1 hm with rfl | hm
      · exact hl hi
      · exact hfit.loops i (List.mem_cons_of_mem _ hi) hm

theorem compiles_seq (hcs : CodePoints cs) (hE : E.bytes = encode cs) {ps : List Node}
    (ih : ∀ p ∈ ps, Compiles cap E counted keep cs p) : Compiles cap E counted keep cs (.seq ps) := by
  intro forward a ms ms' code K L hwf hsup hg hms hc hf hfit
  simp only [Node.wf, Bool.and_eq_true, decide_eq_true_eq] at hwf
  obtain ⟨⟨hwfs, hR⟩, hN⟩ := hwf
  have hsups := Node.supportedList_mem.1 hsup
  have hwfs' := Node.wfList_mem.1 hwfs
  unfold CodeGen.generate at hg
  cases forward with
  | true => exact simulates_seq hcs hE ih codePoints_nil hwfs' hsups hg hms hc hf hR hN hfit
  | false =>
    simp only [Bool.false_eq_true, if_false, Option.bind_eq_bind, Option.bind_eq_some_iff] at hg
    obtain ⟨⟨code₁, ms₁, pending⟩, h₁, ⟨chars, ms₂⟩, h₂, hg⟩ := hg
    cases hg
    obtain ⟨qs, hqs, hpend, s₁⟩ := simulates_lbSeq hcs hE ih hwfs' hsups h₁
      ((generateChars_extends h₂).trans hms) hc.left hf hR hN hfit
    have s₂ : Simulates cap E keep cs (K.pass (Node.groupsList ps) (Node.shallowLoopsList ps)) L
        (Node.searchLBSeq counted E.subject keep (charNodes pending)) [] [] (a + code₁.length)
        (a + code₁.length + chars.length) :=
      simulates_chars hcs hpend hE hf h₂ hms hc.right
    show Simulates cap E keep cs K L _ _ _ a (a + (code₁ ++ chars).length)
    rw [List.length_append, ← Nat.add_assoc]
    refine Simulates.congr (s₁.seq s₂ (List.Subset.refl _) (List.Subset.refl _)) fun q c u _ => ?_
    show _ = Node.searchLBSeq counted E.subject keep ps q c u
    rw [hqs, Node.searchLBSeq_append]

theorem compiles_alt {ps : List Node} (ih : ∀ p ∈ ps, Compiles cap E counted keep cs p) :
    Compiles cap E counted keep cs (.alt ps) := by
  intro forward a ms ms' code K L hwf hsup hg hms hc hf hfit
  simp only [Node.wf, Bool.and_eq_true, decide_eq_true_eq] at hwf
  obtain ⟨⟨⟨hwfs, -⟩, hN⟩, hne⟩ := hwf
  have hsups := Node.supportedList_mem.1 hsup
  have hwfs' := Node.wfList_mem.1 hwfs
  have hne' : ps ≠ [] := by simpa using hne
  match ps with
  | [] => exact absurd rfl hne'
  | [p] =>
    simp only [CodeGen.generate, Option.bind_eq_bind, Option.bind_eq_some_iff] at hg
    obtain ⟨⟨body, ms₁⟩, h₁, hg⟩ := hg
    cases hg
    have h0 : p ∈ [p] := List.mem_cons_self
    have hbody : CodeAt E.regex (a + 1) body := hc.tail
    have s₁ := ih p h0 forward _ _ _ _ K L (hwfs' p h0) (hsups p h0) h₁ hms hbody hf
      (hfit.left (List.nil_subset _) hN)
    have hend : a + (Inst.alt (a + 1 + body.length) :: body).length = a + 1 + body.length := by
      rw [List.length_cons]
      omega
    show Simulates cap E keep cs K L _ _ _ a (a + (Inst.alt (a + 1 + body.length) :: body).length)
    rw [hend]
    exact simulates_alt hfit.within hc.head s₁ goes_self (simulates_empty (R := []) (W := []))
      (List.subset_append_left _ _) (List.subset_append_left _ _) (List.nil_subset _)
      (List.nil_subset _)
  | p :: q :: qs =>
    exact simulates_alts (p :: q :: qs) ih hne' hwfs' hsups hg hms hc hf hN hfit

theorem compiles_lookAround {lookAhead negate : Bool} {p : Node} (ih : Compiles cap E counted keep cs p) :
    Compiles cap E counted keep cs (.lookAround lookAhead negate p) := by
  intro forward a ms ms' code K L hwf hsup hg hms hc hf hfit
  simp only [CodeGen.generate, Option.bind_eq_bind, Option.bind_eq_some_iff] at hg
  obtain ⟨⟨body, ms₁⟩, h₁, hg⟩ := hg
  cases hg
  have hbody : CodeAt E.regex (a + 1) body := hc.tail.left
  have hstop : E.regex.instSeq[a + 1 + body.length]? = some .endLookAround := hc.tail.right.head
  have hend : a + (Inst.beginLookAround (a + 1 + body.length) negate :: body ++
      [Inst.endLookAround]).length = a + 1 + body.length + 1 := by
    simp only [List.length_append, List.length_cons, List.length_nil]
    omega
  show Simulates cap E keep cs K L _ _ _ a (a + (Inst.beginLookAround (a + 1 + body.length) negate ::
    body ++ [Inst.endLookAround]).length)
  rw [hend]
  have s : Simulates cap E keep cs (K.enter lookAhead) (K.enter lookAhead)
      (p.search counted E.subject keep lookAhead) p.groups p.shallowLoops (a + 1) (a + 1 + body.length) := by
    refine ih lookAhead _ _ _ _ _ _ hwf hsup h₁ hms hbody rfl ⟨.refl _, hfit.groups, ?_, ?_, ?_⟩
    · exact fun g _ => List.not_mem_nil
    · exact fun i hi _ => hfit.deep i hi List.not_mem_nil
    · exact fun i hi => hfit.deep i hi List.not_mem_nil
  exact simulates_lookAround hfit.within hc.head hstop hfit.groups s

theorem compiles_group (hcs : CodePoints cs)
    (hlen : (encode cs).length < 2 ^ 32) {index : Nat} {p : Node} (ih : Compiles cap E counted keep cs p) :
    Compiles cap E counted keep cs (.group index p) := by
  intro forward a ms ms' code K L hwf hsup hg hms hc hf hfit
  simp only [Node.wf, Bool.and_eq_true, decide_eq_true_eq] at hwf
  obtain ⟨⟨hp, hR⟩, -⟩ := hwf
  simp only [CodeGen.generate, Option.bind_eq_bind, Option.bind_eq_some_iff] at hg
  obtain ⟨⟨body, ms₁⟩, h₁, hg⟩ := hg
  cases hg
  have hnot : index ∉ p.groups := (List.nodup_cons.1 hR).1
  have hbody : CodeAt E.regex (a + 1) body := hc.tail.left
  have hstop : E.regex.instSeq[a + 1 + body.length]? =
      some (if L.forward then .endCapture index else .lbEndCapture index) := by
    have := hc.tail.right.head
    rw [hf]
    cases forward <;> exact this
  have hend : a + (Inst.beginCapture index :: body ++
      [if !forward then Inst.lbEndCapture index else .endCapture index]).length =
        a + 1 + body.length + 1 := by
    simp only [List.length_append, List.length_cons, List.length_nil]
    omega
  show Simulates cap E keep cs K L _ _ _ a (a + (Inst.beginCapture index :: body ++
    [if !forward then Inst.lbEndCapture index else .endCapture index]).length)
  rw [hend]
  have s := simulates_group (f := p.search counted E.subject keep forward) (R := p.groups)
    (W := p.shallowLoops) hfit.within hcs hlen hc.head hstop (hfit.groups index List.mem_cons_self)
    (hfit.opened index List.mem_cons_self)
    (ih forward _ _ _ _ _ _ hp hsup h₁ hms hbody hf ⟨?_, ?_, ?_, hfit.deep, hfit.loops⟩)
  · rw [hf] at s
    exact s
  · exact ⟨hfit.within.forward, congrArg (index :: ·) hfit.within.opened,
      List.cons_subset_cons _ hfit.within.groups, hfit.within.loops⟩
  · intro g hg hm
    rcases List.mem_cons.1 hm with rfl | hm
    · exact hnot hg
    · exact hfit.groups g (List.mem_cons_of_mem _ hg) hm
  · intro g hg hm
    rcases List.mem_cons.1 hm with rfl | hm
    · exact hnot hg
    · exact hfit.opened g (List.mem_cons_of_mem _ hg) hm

/-- The code of every node does what its search says. -/
theorem compiles (hcap : counted = false → StackLimited cap) (hcs : CodePoints cs)
    (hE : E.bytes = encode cs) (hlen : (encode cs).length < 2 ^ 32) (p : Node) : Compiles cap E counted keep cs p := by
  induction p using Node.induct with
  | empty =>
    intro forward a ms ms' code K L _ _ hg _ _ _ _
    cases hg
    exact simulates_empty
  | atom atom =>
    intro forward a ms ms' code K L _ _ hg hms hc hf _
    simp only [CodeGen.generate, Option.bind_eq_bind, Option.bind_eq_some_iff] at hg
    obtain ⟨⟨ins, ms₁⟩, h₁, hg⟩ := hg
    cases hg
    exact simulates_atom hcs hE hf h₁ hms hc.head
  | grapheme =>
    intro forward a ms ms' code K L hwf hsup hg _ hc hf _
    cases hg
    exact simulates_grapheme hcs hE (hf.trans hwf) hsup hc.head
  | boundary b =>
    intro forward a ms ms' code K L _ _ hg _ hc _ _
    cases hg
    exact simulates_boundary hc.head
  | backRef index named ignoreCase =>
    intro forward a ms ms' code K L _ _ hg _ hc hf _
    cases hg
    exact simulates_backRef hcs hE hf hc.head
  | repeated _ _ _ _ _ _ p ih => exact compiles_repeated hcap hcs hE ih
  | seq ps ih => exact compiles_seq hcs hE ih
  | alt ps ih => exact compiles_alt ih
  | lookAround _ _ p ih => exact compiles_lookAround ih
  | group _ p ih => exact compiles_group hcs hlen ih
  | strSet s =>
    intro forward a ms ms' code K L _ hsup hg hms hc hf hfit
    exact simulates_strSet hcs hE hf hsup hfit.within hg hms hc

end

end Arsh.Regex
