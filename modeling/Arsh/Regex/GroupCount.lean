import Arsh.Regex.ParserStep

/-!
# The number of capture groups

Along a parse, the groups so far and the groups that the scanner sees ahead are always the groups
of the whole pattern (`Foresees.round`). So the scanner tells the final number wherever a
successful parse asks it (`lookahead_eq_count`).
-/

namespace Arsh.Regex.Parser

variable {C : Config} {s t : State} {k : Nat} {p : Prop}

/-- A new group is one that the scanner has seen. -/
theorem Foresees.enters (h : Enters C s t) (hf : Foresees C k p s.rest s.groups) :
    Foresees C k p t.rest t.groups := by
  cases h with
  | capture hr hq =>
    obtain ⟨hc, hn, hp⟩ := hf
    rw [hr, lookahead_capture hq] at hc hn
    exact ⟨(Nat.add_right_comm _ _ _).trans hc, hn, hp⟩
  | named hr he hn hskip _ =>
    obtain ⟨hc, hn', hp⟩ := hf
    rw [hr, lookahead_named he hn, hskip.lookahead] at hc hn'
    refine ⟨(Nat.add_right_comm _ _ _).trans hc, ?_, hp⟩
    have hpos := @addName_length
    exact iff_of_true (Nat.add_pos_left (hpos _ _ _) _) (hn'.1 (by omega))
  | other _ hr => exact hr.foresees k p hf

theorem Foresees.round (h : Round C s t) (hf : Foresees C k p s.rest s.groups) :
    Foresees C k p t.rest t.groups := by
  cases h with
  | atom _ _ hr => exact hr.foresees k p hf
  | enter h => exact hf.enters h
  | exit _ _ hr => exact hr.foresees k p hf
  | alternative hr => exact hr.foresees k p hf

theorem Round.length_lt (h : Round C s t) : t.rest.length < s.rest.length := by
  cases h with
  | atom _ _ hr => exact hr.length_lt
  | enter h =>
    cases h with
    | capture hr _ =>
      rw [hr]
      exact Nat.lt_succ_self _
    | named hr _ _ hskip _ =>
      rw [hr]
      exact hskip.length_le.trans_lt (by simp; omega)
    | other _ hr => exact hr.length_lt
  | exit _ _ hr => exact hr.length_lt
  | alternative hr => exact hr.length_lt

/-- The loop of `parse` comes to its end, and keeps what every round keeps. -/
theorem parse_ends {I : State → Prop} {text : Bytes} (hinit : I (.init text))
    (hround : ∀ s t, I s → Round C s t → I t) :
    Machine.Ends (step C) I (.init text) (parse C text) := by
  refine Machine.halts_runTo (fun s => s.rest.length) ?_ ?_ hinit (Nat.le_refl _)
  · intro s _ hs
    rw [step, List.length_eq_zero_iff.1 hs]
  · intro s t hs h
    have hr := Round.of_step h
    exact ⟨hround s t hs hr, hr.length_lt⟩

/-- A parse succeeds at the end of the pattern only. -/
theorem step_ok {node : Tree} (h : step C s = .inr (.ok (node, t))) :
    s.rest = [] ∧ s.below = [] ∧ node = s.top.node ∧ t = s := by
  unfold step at h
  split at h
  · next hr =>
    have h' := Sum.inr_injective h
    unfold State.finish at h'
    split at h'
    · cases h'
    · next hb =>
      cases h'
      exact ⟨hr, by simpa using hb, rfl, rfl⟩
  split at h
  · cases h
  split at h
  · cases h
  split at h
  · split at h <;> cases h
  split at h
  · split at h
    · cases h
    · exact absurd h quantify_ne
  split at h
  · cases h
  split at h
  · cases h
  · cases h
  · exact absurd h quantify_ne

/-- What an invariant says at the end of a successful parse. -/
theorem parse_ok {I : State → Prop} {text : Bytes} {node : Tree} (hinit : I (.init text))
    (hround : ∀ s t, I s → Round C s t → I t) (h : parse C text = .ok (node, t)) :
    Machine.Ends (step C) I (.init text) (.ok (node, t)) ∧
      I t ∧ t.rest = [] ∧ t.below = [] ∧ node = t.top.node := by
  have he := parse_ends hinit hround
  rw [h] at he
  obtain ⟨u, hu, hI, hstep⟩ := he
  obtain ⟨hr, hb, hnode, rfl⟩ := step_ok hstep
  exact ⟨⟨t, hu, hI, hstep⟩, hI, hr, hb, hnode⟩

theorem parser_ok {m : Modifier} {text : Bytes} {T : SyntaxTree} (h : parser C m text = .ok T) :
    ∃ node s, parse C text = .ok (node, s) ∧ resolveNames C m (node, s) = .ok T := by
  unfold parser at h
  cases hp : parse C text with
  | error err => simp [hp, Except.bind] at h
  | ok x => exact ⟨x.1, x.2, rfl, by simpa [hp, Except.bind] using h⟩

theorem resolveNames_ok {m : Modifier} {node : Tree} {T : SyntaxTree}
    (h : resolveNames C m (node, s) = .ok T) :
    T.captureGroupCount = s.groups.captureGroupCount ∧
      T.namedCaptureGroups =
        s.groups.namedCaptureGroups.map (fun e => (e.1, NamedCaptureEntry.ofIndices e.2)) ∧
      ∃ offset, T.pattern = node.setIndices offset := by
  unfold resolveNames at h
  dsimp only at h
  split at h <;> cases h
  exact ⟨rfl, rfl, _, rfl⟩

/-- A look-ahead has found the groups of the whole pattern. -/
def Groups.Foretell (g : Groups) (T : SyntaxTree) : Prop :=
  g.prefetchedCaptureGroupCount = T.captureGroupCount ∧
    (g.hasNameCaptureGroup = true ↔ T.namedCaptureGroups ≠ [])

/-- At every round of a successful parse, a look-ahead from there finds the groups of the whole
pattern; and so did the look-ahead that an escape has asked for before. -/
theorem lookahead_eq_count (C : Config) (m : Modifier) (text : Bytes) (T : SyntaxTree)
    (h : parser C m text = .ok T) (s : State) (hs : Machine.Run (step C) (.init text) s) :
    (resolveCaptureGroups C s.rest { s.groups with captureGroupResolved := false }).Foretell T ∧
      (s.groups.captureGroupResolved = true → s.groups.Foretell T) := by
  obtain ⟨node, t, hp, hn⟩ := parser_ok h
  obtain ⟨hcount, hnamed, -⟩ := resolveNames_ok hn
  obtain ⟨k, hk⟩ : ∃ k, k = (lookahead C.unicodeSet 0 text).1 := ⟨_, rfl⟩
  have hinit : Foresees C k (0 < (lookahead C.unicodeSet 0 text).2) (State.init text).rest
      (State.init text).groups := by
    refine ⟨?_, ?_, fun h => by cases h⟩
    · rw [hk]
      exact Nat.zero_add _
    · show 0 < 0 + _ ↔ _
      rw [Nat.zero_add]
      rfl
  obtain ⟨hends, hend, hrest, -, -⟩ := parse_ok
    (I := fun s => Foresees C k (0 < (lookahead C.unicodeSet 0 text).2) s.rest s.groups) hinit
    (fun _ _ hf h => hf.round h) hp
  -- at the end nothing is ahead
  have hkT : k = T.captureGroupCount := by
    rw [hcount, ← hend.count, hrest]
    rfl
  have hpT : 0 < (lookahead C.unicodeSet 0 text).2 ↔ T.namedCaptureGroups ≠ [] := by
    rw [← hend.named, hrest, hnamed, ne_eq, List.map_eq_nil_iff, ← ne_eq, ← List.length_pos_iff]
    rfl
  have hf := hends.mem hs
  have hunresolved : Foresees C k (0 < (lookahead C.unicodeSet 0 text).2) s.rest
      { s.groups with captureGroupResolved := false } := ⟨hf.count, hf.named, fun h => by cases h⟩
  have hg (g : Groups) : g.hasNameCaptureGroup = true ↔ 0 < g.prefetchedNamedCaptureGroupCount :=
    decide_eq_true_iff
  simp only [Groups.Foretell, hg, ← hkT, ← hpT]
  exact ⟨hunresolved.resolveCaptureGroups.prefetched (by simp [resolveCaptureGroups]),
    hf.prefetched⟩

/-- Unicode tables that know ASCII only. -/
def asciiUcp : Ucp where
  parseEmojiProperty _ := none
  parseProperty left right := .error (left ++ right)
  idStart _ := false
  idContinue _ := false
  emoji_word := by simp
  property_word := by simp

/-- `\1[(](?<a>.)`. -/
def classBeforeGroup : Bytes := "\\1[(](?<a>.)".toList.map Char.toNat

/-- The back reference asks for the groups, with a parenthesis in a class ahead. -/
theorem lookahead_eq_count_class :
    ∃ (T : SyntaxTree) (s : State),
      parser ⟨.unicode, true, asciiUcp, true⟩ .none classBeforeGroup = .ok T ∧
        s.groups.captureGroupResolved = true ∧ s.groups.Foretell T := by
  have hok : (parser ⟨.unicode, true, asciiUcp, true⟩ .none classBeforeGroup).isOk = true := by
    decide +kernel
  have hstep : (step ⟨.unicode, true, asciiUcp, true⟩ (.init classBeforeGroup)).elim
      (·.groups.captureGroupResolved) (fun _ => false) = true := by
    decide +kernel
  cases hT : parser ⟨.unicode, true, asciiUcp, true⟩ .none classBeforeGroup with
  | error err =>
    rw [hT] at hok
    cases hok
  | ok T =>
    cases hs : step ⟨.unicode, true, asciiUcp, true⟩ (.init classBeforeGroup) with
    | inr r =>
      rw [hs] at hstep
      cases hstep
    | inl s =>
      rw [hs] at hstep
      exact ⟨T, s, rfl, hstep, (lookahead_eq_count _ .none _ T hT s (.single hs)).2 hstep⟩

end Arsh.Regex.Parser
