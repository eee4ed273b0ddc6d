import Mathlib.Tactic.Common

/-!
# Deterministic machines

A machine is a function `step : σ → σ ⊕ ρ`: a state goes on to the next state or halts with a
result. `Run` is its reflexive transitive closure, `Halts` a run that ends. `Leads step I Q L s`
says that the run from `s` comes to a state in `Q`, unless it halts before with a result that
`L` excuses (a resource limit), and that all the states it passes are in `I`; it composes forwards
(`Leads.bind`). Because the machine is deterministic, a run that ends within `I` never leaves it
(`Ends.mem`).
-/

namespace Arsh.Machine

variable {σ ρ : Type*}

/-- `s` comes to `t` in zero or more steps. -/
inductive Run (step : σ → σ ⊕ ρ) : σ → σ → Prop where
  | refl (s : σ) : Run step s s
  | step {s t u : σ} : step s = .inl t → Run step t u → Run step s u

/-- The run from `s` ends with `r`. -/
def Halts (step : σ → σ ⊕ ρ) (s : σ) (r : ρ) : Prop := ∃ t, Run step s t ∧ step t = .inr r

/-- `s` comes to `t`, and the states before `t` are in `I`. -/
inductive Within (step : σ → σ ⊕ ρ) (I : σ → Prop) : σ → σ → Prop where
  | refl (s : σ) : Within step I s s
  | step {s t u : σ} : I s → step s = .inl t → Within step I t u → Within step I s u

/-- The run from `s` ends with `r`, and all its states are in `I`. -/
def Ends (step : σ → σ ⊕ ρ) (I : σ → Prop) (s : σ) (r : ρ) : Prop :=
  ∃ t, Within step I s t ∧ I t ∧ step t = .inr r

/-- The run from `s` comes to `Q`, or ends with a result in `L`, within `I`. -/
def Leads (step : σ → σ ⊕ ρ) (I Q : σ → Prop) (L : ρ → Prop) (s : σ) : Prop :=
  (∃ t, Within step I s t ∧ Q t) ∨ ∃ r, Ends step I s r ∧ L r

/-- The result after at most `n` steps. -/
def runN (step : σ → σ ⊕ ρ) : Nat → σ → Option ρ
  | 0, _ => none
  | n + 1, s => match step s with
    | .inl t => runN step n t
    | .inr r => some r

/-- The result of a machine that has at most `n` steps to go; a state with none to go halts with
`last`. -/
def runTo (step : σ → σ ⊕ ρ) (last : σ → ρ) : Nat → σ → ρ
  | 0, s => last s
  | n + 1, s => match step s with
    | .inl t => runTo step last n t
    | .inr r => r

variable {step : σ → σ ⊕ ρ} {s t u : σ} {r r' : ρ} {I Q Q' : σ → Prop}
  {L : ρ → Prop}

theorem Run.single (h : step s = .inl t) : Run step s t := .step h (.refl t)

theorem Halts.of_step (h : step s = .inl t) (h' : Halts step t r) : Halts step s r :=
  let ⟨u, hr, hu⟩ := h'; ⟨u, .step h hr, hu⟩

theorem Halts.now (h : step s = .inr r) : Halts step s r := ⟨s, .refl s, h⟩

/-- The rest of a halting run halts the same way. -/
theorem Halts.after (h : Run step s t) (h' : Halts step s r) : Halts step t r := by
  obtain ⟨u, hr, hu⟩ := h'
  induction h with
  | refl => exact ⟨u, hr, hu⟩
  | step hs _ ih =>
    cases hr with
    | refl => rw [hs] at hu; cases hu
    | step hs' hr' =>
      rw [hs] at hs'
      cases hs'
      exact ih hr'

theorem Halts.unique (h : Halts step s r) (h' : Halts step s r') : r = r' := by
  obtain ⟨t, hr, ht⟩ := h
  obtain ⟨u, hu, hu'⟩ := h'.after hr
  cases hu with
  | refl => rw [ht] at hu'; cases hu'; rfl
  | step hs _ => rw [ht] at hs; cases hs

theorem halts_of_runN {n : Nat} (h : runN step n s = some r) : Halts step s r := by
  induction n generalizing s with
  | zero => cases h
  | succ n ih =>
    unfold runN at h
    split at h
    · next hs => exact .of_step hs (ih h)
    · next hs => cases h; exact .now hs

theorem Within.trans (h : Within step I s t) (h' : Within step I t u) : Within step I s u := by
  induction h with
  | refl => exact h'
  | step hI hs _ ih => exact .step hI hs (ih h')

theorem Within.single (hI : I s) (h : step s = .inl t) : Within step I s t := .step hI h (.refl t)

theorem Within.run (h : Within step I s t) : Run step s t := by
  induction h with
  | refl => exact .refl _
  | step _ hs _ ih => exact .step hs ih

theorem Ends.now (hI : I s) (h : step s = .inr r) : Ends step I s r := ⟨s, .refl s, hI, h⟩

theorem Ends.of_within (h : Within step I s t) (h' : Ends step I t r) : Ends step I s r :=
  let ⟨u, hr, hI, hu⟩ := h'; ⟨u, h.trans hr, hI, hu⟩

theorem Ends.halts (h : Ends step I s r) : Halts step s r :=
  let ⟨t, hr, _, ht⟩ := h; ⟨t, hr.run, ht⟩

/-- A run that ends within `I` has all its states there. -/
theorem Ends.mem (h : Ends step I s r) (ht : Run step s t) : I t := by
  obtain ⟨u, hr, hI, hu⟩ := h
  induction ht with
  | refl =>
    cases hr with
    | refl => exact hI
    | step hI' _ _ => exact hI'
  | step hs _ ih =>
    cases hr with
    | refl => rw [hs] at hu; cases hu
    | step _ hs' hr' =>
      rw [hs] at hs'
      cases hs'
      exact ih hr'

/-- The rest of a run that ends within `I` does so. -/
theorem Ends.after (h : step s = .inl t) (h' : Ends step I s r) : Ends step I t r := by
  obtain ⟨u, hr, hI, hu⟩ := h'
  cases hr with
  | refl => rw [h] at hu; cases hu
  | step _ hs hr =>
    rw [h] at hs
    cases hs
    exact ⟨u, hr, hI, hu⟩

theorem Leads.here (h : Q s) : Leads step I Q L s := .inl ⟨s, .refl s, h⟩

theorem Leads.of_within (h : Within step I s t) (h' : Leads step I Q L t) :
    Leads step I Q L s := by
  rcases h' with ⟨u, hu, hq⟩ | ⟨r, hr, hl⟩
  · exact .inl ⟨u, h.trans hu, hq⟩
  · exact .inr ⟨r, hr.of_within h, hl⟩

theorem Leads.bind (h : Leads step I Q L s) (h' : ∀ t, Q t → Leads step I Q' L t) :
    Leads step I Q' L s := by
  rcases h with ⟨t, ht, hq⟩ | hr
  · exact (h' t hq).of_within ht
  · exact .inr hr

/-- After a step from outside of `Q` the run still leads to `Q`. -/
theorem Leads.after (h : Leads step I Q L s) (hs : step s = .inl t) (hq : ¬ Q s) :
    Leads step I Q L t := by
  rcases h with ⟨u, hr, hu⟩ | ⟨r, hr, hl⟩
  · cases hr with
    | refl => exact absurd hu hq
    | step _ hs' hr =>
      rw [hs] at hs'
      cases hs'
      exact .inl ⟨u, hr, hu⟩
  · exact .inr ⟨r, hr.after hs, hl⟩

/-- A machine halts if every step, within an invariant, makes a measure smaller. -/
theorem exists_halts {α : Type*} {lt : α → α → Prop} (hwf : WellFounded lt) {I : σ → Prop}
    (measure : σ → α)
    (hstep : ∀ s t, I s → step s = .inl t → I t ∧ lt (measure t) (measure s)) (hs : I s) :
    ∃ r, Halts step s r := by
  obtain ⟨a, ha⟩ : ∃ a, measure s = a := ⟨_, rfl⟩
  induction a using hwf.induction generalizing s with
  | _ a ih =>
    cases h : step s with
    | inr r => exact ⟨r, .now h⟩
    | inl t =>
      obtain ⟨ht, hlt⟩ := hstep s t hs h
      obtain ⟨r, hr⟩ := ih (measure t) (ha ▸ hlt) ht rfl
      exact ⟨r, .of_step h hr⟩

/-- `runTo` halts as the machine does, when a measure bounds the steps to go. -/
theorem halts_runTo {last : σ → ρ} (size : σ → Nat)
    (hlast : ∀ s, I s → size s = 0 → step s = .inr (last s))
    (hstep : ∀ s t, I s → step s = .inl t → I t ∧ size t < size s) {n : Nat} (hs : I s)
    (hn : size s ≤ n) : Ends step I s (runTo step last n s) := by
  induction n generalizing s with
  | zero => exact .now hs (hlast s hs (by omega))
  | succ n ih =>
    unfold runTo
    split
    · next t h =>
      obtain ⟨ht, hlt⟩ := hstep s t hs h
      exact (ih ht (by omega)).of_within (.single hs h)
    · next r h => exact .now hs h

/-- What holds of every result that `runTo` can return within an invariant. -/
theorem runTo_rule {last : σ → ρ} {P : ρ → Prop} (hlast : ∀ s, I s → P (last s))
    (hstep : ∀ s t, I s → step s = .inl t → I t) (hend : ∀ s r, I s → step s = .inr r → P r)
    (n : Nat) (hs : I s) : P (runTo step last n s) := by
  induction n generalizing s with
  | zero => exact hlast s hs
  | succ n ih =>
    unfold runTo
    split
    · next t h => exact ih (hstep s t hs h)
    · next r h => exact hend s r hs h

end Arsh.Machine
