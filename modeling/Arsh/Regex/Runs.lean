import Arsh.Regex.SearchPrefix

/-!
# Whole runs

Every run of `match` comes to a result, whatever the capacity of the stack is (`match_halts`): a
stack without a capacity and no timer leave only a match and its absence. In every state of a run
the captures are unset or cover a part of the text, and the assertions of the instructions hold
(`match_captures`). Both follow from `Compiled.outcome`, which knows how a run ends and that its
states are sound.
-/

namespace Arsh.Regex

open UnicodeUtil Machine

/-! ## What a run can end with -/

section
variable {cap : Option Nat} {E : Env} {keep : Bool} {s : State cap} {r : MatchResult}

/-- The results that a machine in the state `s` can halt with: a limit has to be there to be hit,
and a match has set the capture of the whole match only. -/
structure MatchResult.Possible (E : Env) (s : State cap) (r : MatchResult) : Prop where
  stackLimit : r.status = .stackLimit → cap ≠ none
  cancel : r.status = .cancel → E.timer ≠ none
  timeout : r.status = .timeout → E.timer ≠ none
  captures : r.status = .ok → ∀ g, g ≠ 0 → r.captures g = s.captures g

/-- The step does not halt, or halts with a possible result. -/
def Step.Possible (E : Env) (s : State cap) : Step cap → Prop
  | .inl _ => True
  | .inr r => r.Possible E s

theorem possible_stuck (t : State cap) : Step.Possible E s (t.halt .stuck) :=
  ⟨nofun, nofun, nofun, nofun⟩

theorem possible_tryPush {t : State cap} {e : Backtrack} {k : State cap → Step cap}
    (h : ∀ st : BacktrackStack cap, (k { t with stack := st }).Possible E s) :
    (t.tryPush e k).Possible E s := by
  unfold State.tryPush
  split
  · next hnone =>
    refine ⟨fun _ hcap => ?_, fun h => ?_, fun h => ?_, fun h => ?_⟩
    · unfold BacktrackStack.push at hnone
      split at hnone
      · next hfull => cases hcap.symm.trans hfull
      · cases hnone
    all_goals cases h
  · next st _ => exact h st

theorem possible_checkTimer (t : State cap) : (checkTimer E t).Possible E s := by
  unfold checkTimer
  split
  · split
    · trivial
    · next check htimer =>
      have hne : E.timer ≠ none := by rw [htimer]; exact Option.some_ne_none _
      split
      · trivial
      · exact ⟨nofun, fun _ => hne, nofun, nofun⟩
      · exact ⟨nofun, nofun, fun _ => hne, nofun⟩
  · trivial

theorem possible_single {forward : Bool} {test : Nat → Bool} :
    (single E s forward test).Possible E s := by
  unfold single
  split
  · split <;> trivial
  · trivial

theorem possible_check {test : Bool} : (check s test).Possible E s := by
  unfold check
  split <;> trivial

theorem possible_resetCaptures {n i : Nat} {t : State cap} :
    (resetCaptures n i t).Possible E s := by
  induction n generalizing i t with
  | zero => trivial
  | succ n ih => exact possible_tryPush fun st => ih

theorem possible_prepareLoopBody {begin loopIndex : Nat} {t : State cap} :
    (prepareLoopBody t begin loopIndex).Possible E s :=
  possible_tryPush fun _ => trivial

theorem possible_loopStep {ins : BeginLoopIns} : (loopStep s ins).Possible E s := by
  unfold loopStep
  simp only
  split
  · trivial
  split
  · exact possible_prepareLoopBody
  split
  · trivial
  split
  · exact possible_tryPush fun _ => possible_prepareLoopBody
  · exact possible_tryPush fun _ => possible_tryPush fun _ => trivial

theorem possible_radixStep {forward : Bool} {ins : RadixIns} :
    (radixStep E s forward ins).Possible E s := by
  unfold radixStep
  simp only
  split
  · split
    · exact possible_tryPush fun _ => trivial
    · split <;> trivial
  · trivial

theorem possible_dispatch (ins : Inst) : (dispatch keep E s ins).Possible E s := by
  cases ins with
  | matchIns =>
    refine ⟨nofun, nofun, nofun, fun _ g hg => ?_⟩
    exact Function.update_of_ne hg _ _
  | alt | beginCapture | beginLoop | beginLookAround =>
    rw [dispatch]
    exact possible_tryPush fun _ => trivial
  | start | stop | word | iword => exact possible_check
  | any | anyExceptNL | lbAny | char | ichar | lbChar | charSet | icharSet | lbCharSet =>
    exact possible_single
  | grapheme =>
    rw [dispatch]
    split <;> trivial
  | prepareRadix | prepareLBRadix =>
    simp only [dispatch]
    split
    · rw [prepareRadix]
      exact possible_tryPush fun _ => trivial
    · exact possible_stuck s
  | string | lbString =>
    rw [dispatch, stringIns]
    split <;> trivial
  | backRef | ibackRef | lbBackRef =>
    rw [dispatch, backRefIns]
    split <;> trivial
  | resetCaptures => exact possible_resetCaptures
  | endLookAround =>
    rw [dispatch]
    split
    · exact possible_stuck s
    · simp only
      split <;> trivial
  | nop | jump | radixOrEmoji | lbRadixOrEmoji | endCapture | lbEndCapture | endLoop => trivial

theorem possible_undo {t : State cap} (e : Backtrack) : (undo E t e).Possible E s := by
  cases e with
  | setIns => exact possible_checkTimer _
  | setCapture | setLoopState | radixState => trivial
  | lookAround =>
    rw [undo]
    exact possible_tryPush fun _ => possible_checkTimer _
  | nonGreedyLoop loopIndex state =>
    unfold undo
    simp only
    split
    · next target iter stack _ =>
      have hprep := @possible_prepareLoopBody cap E s target loopIndex { t with
        loops := Function.update t.loops loopIndex state, iter := iter, stack := stack }
      split
      · exact possible_checkTimer _
      · next r hr => rw [hr] at hprep; exact hprep
    · exact possible_stuck _

theorem possible_restart : (restart E s).Possible E s := by
  unfold restart
  split
  · trivial
  · exact ⟨nofun, nofun, nofun, nofun⟩

theorem possible_stepWith : (stepWith keep E s).Possible E s := by
  unfold stepWith
  split
  · split
    · split
      split <;> trivial
    · trivial
  · split
    · exact possible_dispatch _
    · exact possible_stuck s
  · split
    · exact possible_undo _
    · exact possible_restart
  · split
    · exact possible_loopStep
    · exact possible_stuck s
  · split
    · exact possible_radixStep
    · exact possible_stuck s
  · split
    · exact possible_radixStep
    · exact possible_stuck s

/-- A run ends with a possible result of its last state. -/
theorem possible_of_halts (h : Halts (stepWith keep E) s r) :
    ∃ t, Run (stepWith keep E) s t ∧ r.Possible E t := by
  obtain ⟨t, hrun, ht⟩ := h
  have hp := @possible_stepWith cap E keep t
  rw [ht] at hp
  exact ⟨t, hrun, hp⟩

end

/-! ## How a run ends -/

section
variable {cap : Option Nat} {E : Env} {p : Node} {cs : List Nat} {k : Nat}

/-- Every run ends, and all its states are sound. A loop may count up to the end here, so nothing
is asked of the capacity of the stack. -/
theorem Compiled.ends (h : Compiled E cs p) (hT : E.tables.Ok) (hk : k ≤ cs.length) :
    ∃ r, Ends (stepWith false E) (Sound E cs) (.init (off cs k) : State cap) r ∧
      (r.Limited ∨ (∃ i j c, i ≤ j ∧ j ≤ cs.length ∧ r = .found cs i j c) ∨ r.status = .fail) := by
  have hcap : true = false → StackLimited cap := nofun
  have hseek : ∀ k (s : State cap), k ≤ cs.length → Starts cs k s →
      ∃ t, stepWith false E s = .inl t ∧ Seeks E true false cs p (fun _ => True) k t := by
    intro k s hk hs
    obtain ⟨t, ht, hseeks⟩ := @Compiled.seeks cap E p cs k true false s h hT hcap hk hs
    refine ⟨t, ht, ?_⟩
    rcases hseeks with ⟨i, hki, hi, -, htry⟩ | ⟨-, hstop⟩
    · exact .inl ⟨i, hki, hi, fun _ _ _ => trivial, htry⟩
    · exact .inr ⟨fun _ _ _ => trivial, hstop⟩
  have hout := @Compiled.outcome cap E true false cs p k _ _ h (fun _ _ => trivial) hseek hk
    (starts_init cs k)
  rcases hout with ⟨r, hr, hl⟩ | ⟨i, j, c, -, -, -, hij, hj, -, -, hr⟩ | ⟨-, r, hr, hs⟩
  · exact ⟨r, hr, .inl hl⟩
  · exact ⟨_, hr, .inr (.inl ⟨i, j, c, hij, hj, rfl⟩)⟩
  · exact ⟨r, hr, .inr (.inr hs)⟩

/-- What `compile` and `create` guarantee of a call of `match`. -/
theorem Compiled.of_create {input : Input} (hT : E.tables.Ok) (hw : p.wf true = true)
    (hc : CodeGen.compile E.tables E.regex.named p = some E.regex)
    (hin : Input.create E.bytes k = .ok input) :
    ∃ cs, Compiled E cs p ∧ min k cs.length ≤ cs.length ∧
      input.iter = off cs (min k cs.length) := by
  obtain ⟨cs, hcs, hb, hlen, rfl⟩ := Input.create_ok hin
  have hlt : (encode cs).length < 2 ^ 32 := by
    rw [← hb]
    exact Nat.lt_of_le_of_lt hlen (by decide)
  exact ⟨cs, ⟨hcs, hb, hlt, hw, p.supported hT hcs hb true, hc⟩, Nat.min_le_right .., rfl⟩

/-- `match` comes to a result after finitely many steps, with and without the prefilter. It ends at
the stack limit only where the stack has a largest capacity, and is cancelled or timed out only
where there is a timer: without either it ends with a match or with its absence. -/
theorem match_halts {input : Input} (hT : E.tables.Ok) (hw : p.wf true = true)
    (hc : CodeGen.compile E.tables E.regex.named p = some E.regex)
    (hin : Input.create E.bytes k = .ok input) :
    ∃ r, Halts (stepWith false E) (.init input.iter : State cap) r ∧
      (r.status = .ok ∨ r.status = .fail ∨ r.status = .stackLimit ∧ cap ≠ none ∨
        (r.status = .cancel ∨ r.status = .timeout) ∧ E.timer ≠ none) := by
  obtain ⟨cs, h, hk, hiter⟩ := Compiled.of_create hT hw hc hin
  obtain ⟨r, hends, hr⟩ := @Compiled.ends cap E p cs _ h hT hk
  rw [hiter]
  refine ⟨r, hends.halts, ?_⟩
  obtain ⟨t, -, hposs⟩ := possible_of_halts hends.halts
  rcases hr with (hcancel | htimeout | hlimit) | ⟨i, j, c, -, -, rfl⟩ | hfail
  · exact .inr (.inr (.inr ⟨.inl hcancel, hposs.cancel hcancel⟩))
  · exact .inr (.inr (.inr ⟨.inr htimeout, hposs.timeout htimeout⟩))
  · exact .inr (.inr (.inl ⟨hlimit, hposs.stackLimit hlimit⟩))
  · exact .inl rfl
  · exact .inr (.inl hfail)

/-- The pattern `(?:(?:a|){2,})*(?=(?:b*)*?)`: loops in loops and in a look-around, whose bodies
can match nothing. -/
def Node.emptyLoops : Node :=
  .seq [.repeated 0 0 0 0 unlimit true
      (.repeated 1 0 0 2 unlimit true (.alt [.atom (.char 97), .empty])),
    .lookAround true false
      (.repeated 2 0 0 0 unlimit false (.repeated 3 0 0 0 unlimit true (.atom (.char 98))))]

theorem match_halts_emptyLoops :
    ∃ r, Halts (stepWith false (.ascii .emptyLoops [97, 97, 98] true)) (.init 1 : State none) r ∧
      (r.status = .ok ∨ r.status = .fail ∨ r.status = .stackLimit ∧ (none : Option Nat) ≠ none ∨
        (r.status = .cancel ∨ r.status = .timeout) ∧
          (Env.ascii .emptyLoops [97, 97, 98] true).timer ≠ none) :=
  @match_halts none (.ascii .emptyLoops [97, 97, 98] true) .emptyLoops 1 ⟨[97, 97, 98], 1⟩
    Tables.ascii_ok (by decide) rfl rfl

/-! ## Captures -/

/-- The slice of the text that a back-reference to the capture stands for lies in the text. -/
def Capture.InRange (c : Capture) (bytes : List Nat) : Prop :=
  c.isUnset = true ∨ c.offset + c.size ≤ bytes.length

theorem Sound.backRef {s : State cap} (h : Sound E cs s) (hE : E.bytes = encode cs)
    (hcs : CodePoints cs) (index : Nat) (named : Bool) :
    (resolveBackRef E.regex.named s.captures index named).InRange E.bytes := by
  rcases @resolveBackRef_ok cs E.regex.named s.captures h.captures index named with
    hunset | ⟨i, j, -, hj, -, he⟩
  · exact .inl (isUnset_iff.2 hunset)
  · refine .inr ?_
    rw [he, hE]
    exact (Valid.off hj).le hcs

/-- In every state of a run of `match` the captures that are set begin and end at characters of the
text, in this order; the assertions of the instruction at hand hold; and a back-reference refers to
a slice of the text. The captures of a match are such, too. -/
theorem match_captures {input : Input} (hT : E.tables.Ok) (hw : p.wf true = true)
    (hc : CodeGen.compile E.tables E.regex.named p = some E.regex)
    (hin : Input.create E.bytes k = .ok input) :
    ∃ cs, CodePoints cs ∧ E.bytes = encode cs ∧
      (∀ t, Run (step E) (.init input.iter) t →
        CapturesOk cs t.captures ∧
          (t.label = .dispatch → ∀ ins ∈ E.regex.instSeq[t.inst]?, ins.Asserts t) ∧
          ∀ index named, (resolveBackRef E.regex.named t.captures index named).InRange E.bytes) ∧
      ∀ r, Halts (step E) (.init input.iter) r → r.status = .ok → CapturesOk cs r.captures := by
  obtain ⟨cs, h, hk, hiter⟩ := Compiled.of_create hT hw hc hin
  obtain ⟨r, hends, hr⟩ := @Compiled.ends (some maxStackCap) E p cs _ h hT hk
  rw [hiter]
  have hsound : ∀ t, Run (step E) (.init (off cs (min k cs.length))) t → Sound E cs t :=
    fun t ht => hends.mem ht
  refine ⟨cs, h.codePoints, h.bytes, fun t ht => ?_, fun r' hr' hok g => ?_⟩
  · have hs := hsound t ht
    exact ⟨hs.captures, hs.asserts, hs.backRef h.bytes h.codePoints⟩
  · obtain rfl := hends.halts.unique hr'
    by_cases hg : g = 0
    · -- the whole match
      subst hg
      rcases hr with (hl | hl | hl) | ⟨i, j, c, hij, hj, rfl⟩ | hl
      · rw [hl] at hok; cases hok
      · rw [hl] at hok; cases hok
      · rw [hl] at hok; cases hok
      · refine .inr ⟨i, j, hij, hj, ?_, ?_⟩
        · exact congrArg Capture.offset (Function.update_self 0 _ c)
        · have hle := off_le h.codePoints hij hj
          show (Function.update c 0 _ 0).offset + (Function.update c 0 _ 0).size = _
          rw [Function.update_self]
          exact Nat.add_sub_of_le hle
      · rw [hl] at hok; cases hok
    · obtain ⟨t, hrun, hposs⟩ := possible_of_halts hr'
      rw [hposs.captures hok g hg]
      exact (hsound t hrun).captures g

/-- The pattern `(?:(?<n>a)|(?<n>b))(?<=(.))\k<n>`. -/
def Node.sameNames : Node :=
  .seq [.alt [.group 1 (.atom (.char 97)), .group 2 (.atom (.char 98))],
    .lookAround false false (.group 3 (.atom (.any false))), .backRef 0 true false]

/-- A call of `match` on the code of a tree with named groups. -/
def Env.asciiNamed (named : List NamedCaptureEntry) (p : Node) (text : List Nat) : Env :=
  { Env.ascii p text false with regex := (CodeGen.compile .ascii named p).getD ⟨[], [], [], []⟩ }

theorem match_captures_sameNames :
    ∃ cs, CodePoints cs ∧ [97, 98, 98] = encode cs ∧
      (∀ t, Run (step (.asciiNamed [.multiple [1, 2]] .sameNames [97, 98, 98])) (.init 0) t →
        CapturesOk cs t.captures ∧
          (t.label = .dispatch → ∀ ins ∈ (Env.asciiNamed [.multiple [1, 2]] .sameNames
            [97, 98, 98]).regex.instSeq[t.inst]?, ins.Asserts t) ∧
          ∀ index named, (resolveBackRef [.multiple [1, 2]] t.captures index named).InRange
            [97, 98, 98]) ∧
      ∀ r, Halts (step (.asciiNamed [.multiple [1, 2]] .sameNames [97, 98, 98])) (.init 0) r →
        r.status = .ok → CapturesOk cs r.captures :=
  @match_captures (.asciiNamed [.multiple [1, 2]] .sameNames [97, 98, 98]) .sameNames 0
    ⟨[97, 98, 98], 0⟩ Tables.ascii_ok (by decide) rfl rfl

end

end Arsh.Regex
