import Arsh.Cli.ArgParser

/-!
# The records of a command line

`parseCommandLine` goes from the record of a command to those of its sub-commands. It comes to an
end, and what it reports is what is reported for one of these records (`parseCommandLine_error`).
-/

namespace Arsh.Cli

section
variable {entries : List ArgEntry} {args : List Text} {out : List Value}

theorem optionStep_scanner {e : ArgEntry} {g : Given} {st st' : OptionState}
    (h : optionStep e g st = .ok st') : st'.scanner = st.scanner := by
  unfold optionStep at h
  simp only at h
  split at h
  · cases h
    rfl
  · split at h
    · cases h
    · split at h
      · cases h
      · cases h
        rfl

theorem recognized_of_recognize {ret : OptParseResult Nat} {g : Given}
    (h : recognize ret = some g) : Scanner.recognized ret = some g.index := by
  cases ret with
  | ok opt shortOpt =>
    cases h
    rfl
  | okArg opt shortOpt arg =>
    cases h
    rfl
  | _ => cases h

/-- The loop over the options ends, and leaves no more arguments than there were. -/
theorem parseOptions_total (entries : List ArgEntry) {fuel : Nat} (st : OptionState) (h : st.scanner.size < fuel) :
    ∃ r, parseOptions entries fuel st = some r ∧
      ∀ st' stop, r = .ok (st', stop) → st'.scanner.args.length ≤ st.scanner.args.length := by
  induction fuel generalizing st with
  | zero => omega
  | succ fuel ih =>
    have hargs := Scanner.next_args (optionTable entries) st.scanner
    have hsize : ∀ g, recognize (Scanner.next (optionTable entries) st.scanner).1 = some g →
        (Scanner.next (optionTable entries) st.scanner).2.size < st.scanner.size :=
      fun g hg => Scanner.next_size_lt (recognized_of_recognize hg)
    rw [parseOptions]
    simp only
    generalize Scanner.next (optionTable entries) st.scanner = step at hargs hsize ⊢
    have hend : ∀ st' stop, (Except.ok ({ st with scanner := step.2 }, false) :
        Except Failure (OptionState × Bool)) = .ok (st', stop) →
        st'.scanner.args.length ≤ st.scanner.args.length := by
      intro st' stop he
      cases he
      exact hargs
    cases hret : recognize step.1 with
    | none =>
      simp only
      split
      · exact ⟨_, rfl, fun _ _ he => by cases he⟩
      · exact ⟨_, rfl, hend⟩
    | some g =>
      simp only
      split
      · exact ⟨_, rfl, hend⟩
      · split
        · exact ⟨_, rfl, fun _ _ he => by cases he⟩
        · next st₁ hstep =>
          have hscanner := optionStep_scanner hstep
          simp only at hscanner
          split
          · refine ⟨_, rfl, fun st' stop he => ?_⟩
            cases he
            rw [hscanner]
            exact hargs
          · have hlt := hsize g hret
            have hfuel : st₁.scanner.size < fuel := by
              rw [hscanner]
              omega
            obtain ⟨r, hr, hle⟩ := ih st₁ hfuel
            refine ⟨r, hr, fun st' stop he => Nat.le_trans (hle st' stop he) ?_⟩
            rw [hscanner]
            exact hargs

theorem setPositional_left {e : ArgEntry} {arg : Text} {r : List Value × List Text}
    (h : setPositional e arg args out = .ok r) : r.2.length ≤ args.length := by
  unfold setPositional at h
  split at h
  · split at h
    · cases h
    · split at h
      · cases h
      · cases h
        exact Nat.zero_le _
  · split at h
    · cases h
    · cases h
      exact Nat.le_refl _

theorem checkRequireOrPositionalArgs_left {groups : List XORArgEntry} {required : List Nat}
    {r : List Value × List Text}
    (h : checkRequireOrPositionalArgs entries groups required args out = .ok r) :
    r.2.length ≤ args.length := by
  induction required generalizing args out with
  | nil =>
    cases h
    exact Nat.le_refl _
  | cons i required ih =>
    unfold checkRequireOrPositionalArgs at h
    split at h
    · cases h
      exact Nat.le_refl _
    · split at h
      · split at h
        · exact ih h
        · cases h
      · split at h
        · exact ih h
        · split at h
          · split at h
            · cases h
            · next hset =>
              have := setPositional_left hset
              exact Nat.le_trans (ih h) (Nat.le_succ_of_le this)
          · split at h
            · cases h
            · exact ih h

end

section
variable {pool : Nat → CLIRecordType} {init : Nat → Option (List Value)} {type : CLIRecordType}
  {args : List Text} {out : List Value}

/-- One record comes to an end, and a sub-command takes an argument. -/
theorem parseCommandLineImpl_total (init : Nat → Option (List Value)) (type : CLIRecordType)
    (args : List Text) (out : List Value) :
    ∃ r, parseCommandLineImpl init type (optionFuel args) args out = some r ∧
      ∀ sub sout left, r = .ok (.sub sub sout left) → left.length < args.length := by
  have hsize : (⟨[], args⟩ : Scanner).size < optionFuel args := Nat.lt_succ_self _
  obtain ⟨r, hr, hle⟩ := parseOptions_total type.entries
    ⟨⟨[], args⟩, requiredValues type.entries 0, [], false, out⟩ hsize
  unfold parseCommandLineImpl
  rw [hr]
  cases r with
  | error failure => exact ⟨_, rfl, fun _ _ _ h => by cases h⟩
  | ok p =>
    obtain ⟨st, stop⟩ := p
    have hargs := hle st stop rfl
    refine ⟨_, rfl, fun sub sout left h => ?_⟩
    split at h
    · cases h
    · split at h
      · cases h
      · next hcheck =>
        have hleft := checkRequireOrPositionalArgs_left hcheck
        split at h
        · cases h
        · split at h
          · split at h
            · cases h
            · split at h
              · cases h
              · cases h
                rw [List.length_cons] at hleft
                simp only at hargs
                omega
          · cases h

/-- The records that a command line comes to: that of the command, and those of the sub-commands
its arguments name. -/
inductive Reaches (pool : Nat → CLIRecordType) (init : Nat → Option (List Value)) :
    Nat → List Text → List Value → Nat → List Text → List Value → Prop where
  | here (type : Nat) (args : List Text) (out : List Value) :
      Reaches pool init type args out type args out
  | sub {type sub type' : Nat} {args left args' : List Text} {out sout out' : List Value} :
      parseCommandLineImpl init (pool type) (optionFuel args) args out =
        some (.ok (.sub sub sout left)) →
      Reaches pool init sub left sout type' args' out' →
      Reaches pool init type args out type' args' out'

/-- `parseCommandLine` comes to an end; it reports an error if and only if one of the records it
comes to is reported. -/
theorem parseCommandLine_error {fuel type : Nat} (h : args.length < fuel) :
    (∃ r, parseCommandLine pool init fuel type args out = some r) ∧
      ∀ f, parseCommandLine pool init fuel type args out = some (.error f) ↔
        ∃ type' args' out', Reaches pool init type args out type' args' out' ∧
          parseCommandLineImpl init (pool type') (optionFuel args') args' out' =
            some (.error f) := by
  induction fuel generalizing type args out with
  | zero => omega
  | succ fuel ih =>
    obtain ⟨r, hr, hlt⟩ := parseCommandLineImpl_total init (pool type) args out
    rw [parseCommandLine, hr]
    have hreach : ∀ {f : Failure}, (∃ type' args' out',
        Reaches pool init type args out type' args' out' ∧
          parseCommandLineImpl init (pool type') (optionFuel args') args' out' =
            some (.error f)) ↔
        r = .error f ∨ ∃ sub sout left, r = .ok (.sub sub sout left) ∧ ∃ type' args' out',
          Reaches pool init sub left sout type' args' out' ∧
          parseCommandLineImpl init (pool type') (optionFuel args') args' out' =
            some (.error f) := by
      intro f
      constructor
      · rintro ⟨type', args', out', hreach, hf⟩
        cases hreach with
        | here =>
          rw [hr, Option.some.injEq] at hf
          exact .inl hf
        | sub hsub hreach =>
          rw [hr, Option.some.injEq] at hsub
          exact .inr ⟨_, _, _, hsub, type', args', out', hreach, hf⟩
      · rintro (rfl | ⟨sub, sout, left, rfl, type', args', out', hreach, hf⟩)
        · exact ⟨type, args, out, .here .., hr⟩
        · exact ⟨type', args', out', .sub hr hreach, hf⟩
    simp only [hreach]
    cases r with
    | error failure =>
      refine ⟨⟨_, rfl⟩, fun f => ?_⟩
      simp
    | ok parsed =>
      cases parsed with
      | done out' left => exact ⟨⟨_, rfl⟩, fun f => by simp⟩
      | sub sub sout left =>
        have hleft := hlt sub sout left rfl
        obtain ⟨htotal, hiff⟩ := @ih left sout sub (by omega)
        refine ⟨htotal, fun f => ?_⟩
        simp only [hiff f]
        simp

end

end Arsh.Cli
