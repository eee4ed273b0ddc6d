import Mathlib.Tactic.Common

/-!
# Searching again and again

`search k` is the first match that starts at `k` or later, in positions from `0` to `n`. `sequence`
goes on from the end of the last match, and one further when that match was empty.

`visits` goes on from the end of the last match, and one further when the search has not moved at
all. Then an empty match that is found later than the search started is found once more
(`visits_eq`).
-/

namespace Arsh.GlobalSearch

/-- A match, with what else is known of it. -/
structure Hit (α : Type) where
  start : Nat
  stop : Nat
  value : α

variable {α : Type}

/-- Where the search for the next match starts. -/
def Hit.next (h : Hit α) : Nat := if h.start = h.stop then h.stop + 1 else h.stop

/-- The first match does not depend on where in front of it the search starts. -/
structure Lawful (search : Nat → Option (Hit α)) (n : Nat) : Prop where
  le : ∀ {k h}, k ≤ n → search k = some h → k ≤ h.start ∧ h.start ≤ h.stop ∧ h.stop ≤ n
  same : ∀ {k h m}, search k = some h → k ≤ m → m ≤ h.start → search m = some h

/-- The matches from `k` on, each with the position where the search for it started. -/
def sequence (search : Nat → Option (Hit α)) (n : Nat) : Nat → Nat → List (Nat × Hit α)
  | 0, _ => []
  | fuel + 1, k =>
    if k ≤ n then
      match search k with
      | none => []
      | some h => (k, h) :: sequence search n fuel h.next
    else []

/-- The matches that are found when the search goes one further only where it has not moved. -/
def visits (search : Nat → Option (Hit α)) (n : Nat) : Nat → Nat → List (Nat × Hit α)
  | 0, _ => []
  | fuel + 1, k =>
    match search k with
    | none => []
    | some h => (k, h) ::
        if h.stop ≠ k then visits search n fuel h.stop
        else if k < n then visits search n fuel (k + 1) else []

-- The equations are made here, once, and not inside the proofs that unfold a definition.
attribute [local grind =] sequence visits

/-- An empty match that is not where the search for it started. -/
def Late (p : Nat × Hit α) : Prop := p.2.start = p.2.stop ∧ p.1 < p.2.start

instance (p : Nat × Hit α) : Decidable (Late p) := inferInstanceAs (Decidable (_ ∧ _))

/-- A late match is found twice. -/
def twice (p : Nat × Hit α) : List (Nat × Hit α) :=
  if Late p then [p, (p.2.start, p.2)] else [p]

section
variable {search : Nat → Option (Hit α)} {n k fuel : Nat}

theorem sequence_none (h : search k = none) : sequence search n fuel k = [] := by
  cases fuel with
  | zero => rfl
  | succ fuel => simp only [sequence, h, ite_self]

theorem sequence_some {h : Hit α} (hk : k ≤ n) (hs : search k = some h) :
    sequence search n (fuel + 1) k = (k, h) :: sequence search n fuel h.next := by
  simp only [sequence, if_pos hk, hs]

theorem sequence_past (hk : n < k) : sequence search n fuel k = [] := by
  cases fuel with
  | zero => rfl
  | succ fuel => simp only [sequence, if_neg (Nat.not_le.2 hk)]

theorem Lawful.lt_next (hl : Lawful search n) {h : Hit α} (hk : k ≤ n) (hs : search k = some h) :
    k < h.next := by
  obtain ⟨hstart, hstop, -⟩ := hl.le hk hs
  unfold Hit.next
  split <;> omega

/-- Fuel that is enough makes no difference. -/
theorem Lawful.sequence_fuel (hl : Lawful search n) {fuel' : Nat} (hf : n - k < fuel)
    (hf' : n - k < fuel') : sequence search n fuel k = sequence search n fuel' k := by
  induction fuel generalizing k fuel' with
  | zero => omega
  | succ fuel ih =>
    obtain ⟨fuel', rfl⟩ : ∃ f, fuel' = f + 1 := ⟨fuel' - 1, by omega⟩
    by_cases hk : k ≤ n
    · cases hs : search k with
      | none => rw [sequence_none hs, sequence_none hs]
      | some h =>
        rw [sequence_some hk hs, sequence_some hk hs]
        have hlt := hl.lt_next hk hs
        by_cases hn : h.next ≤ n
        · have heq : sequence search n fuel h.next = sequence search n fuel' h.next :=
            ih (by omega) (by omega)
          rw [heq]
        · rw [sequence_past (by omega), sequence_past (by omega)]
    · rw [sequence_past (by omega), sequence_past (by omega)]

/-- What is in the sequence was found by a search. -/
theorem Lawful.mem_sequence (hl : Lawful search n) {p : Nat × Hit α}
    (hp : p ∈ sequence search n fuel k) : k ≤ p.1 ∧ p.1 ≤ n ∧ search p.1 = some p.2 := by
  induction fuel generalizing k with
  | zero => cases hp
  | succ fuel ih =>
    by_cases hk : k ≤ n
    · cases hs : search k with
      | none =>
        rw [sequence_none hs] at hp
        cases hp
      | some h =>
        rw [sequence_some hk hs] at hp
        rcases List.mem_cons.1 hp with rfl | hp
        · exact ⟨Nat.le_refl k, hk, hs⟩
        · have hlt := hl.lt_next hk hs
          obtain ⟨hle, hn, hp⟩ := ih hp
          exact ⟨by omega, hn, hp⟩
    · rw [sequence_past (by omega)] at hp
      cases hp

/-- The matches come one after the other, and no two start at the same position. -/
theorem Lawful.sequence_pairwise (hl : Lawful search n) :
    (sequence search n fuel k).Pairwise fun p q =>
      p.2.start < q.2.start ∧ p.2.stop ≤ q.2.start := by
  induction fuel generalizing k with
  | zero => exact .nil
  | succ fuel ih =>
    by_cases hk : k ≤ n
    · cases hs : search k with
      | none =>
        rw [sequence_none hs]
        exact .nil
      | some h =>
        rw [sequence_some hk hs]
        refine .cons (fun q hq => ?_) ih
        obtain ⟨hle, hn, hq⟩ := hl.mem_sequence hq
        obtain ⟨hq₁, -, -⟩ := hl.le hn hq
        obtain ⟨-, hstop, -⟩ := hl.le hk hs
        change h.start < q.2.start ∧ h.stop ≤ q.2.start
        unfold Hit.next at hle
        split at hle <;> omega
    · rw [sequence_past (by omega)]
      exact .nil

theorem visits_none (h : search k = none) : visits search n fuel k = [] := by
  cases fuel with
  | zero => rfl
  | succ fuel => simp only [visits, h]

theorem visits_stop {h : Hit α} (hs : search k = some h) (hne : h.stop ≠ k) :
    visits search n (fuel + 1) k = (k, h) :: visits search n fuel h.stop := by
  simp only [visits, hs, if_pos hne]

theorem visits_stay {h : Hit α} (hs : search k = some h) (heq : h.stop = k) :
    visits search n (fuel + 1) k =
      (k, h) :: if k < n then visits search n fuel (k + 1) else [] := by
  simp only [visits, hs, heq, ne_eq, not_true_eq_false, if_false]

/-- The visits start at or behind the search. -/
theorem Lawful.mem_visits (hl : Lawful search n) (hk : k ≤ n) {q : Nat × Hit α}
    (hq : q ∈ visits search n fuel k) :
    k ≤ q.2.start ∧ q.2.start ≤ q.2.stop ∧ q.2.stop ≤ n := by
  induction fuel generalizing k with
  | zero => cases hq
  | succ fuel ih =>
    cases hs : search k with
    | none =>
      rw [visits_none hs] at hq
      cases hq
    | some h =>
      obtain ⟨hstart, hstop, hn⟩ := hl.le hk hs
      by_cases hstay : h.stop = k
      · rw [visits_stay hs hstay] at hq
        rcases List.mem_cons.1 hq with rfl | hq
        · exact ⟨hstart, hstop, hn⟩
        · split at hq
          · have := ih (by omega) hq
            exact ⟨by omega, this.2⟩
          · cases hq
      · rw [visits_stop hs hstay] at hq
        rcases List.mem_cons.1 hq with rfl | hq
        · exact ⟨hstart, hstop, hn⟩
        · have := ih hn hq
          exact ⟨by omega, this.2⟩

/-- The visits are the sequence, with every late match twice. -/
theorem Lawful.visits_eq (hl : Lawful search n) (hk : k ≤ n) {fuel' : Nat} (hf : n - k < fuel)
    (hf' : n - k < fuel') :
    visits search n fuel k = (sequence search n fuel' k).flatMap twice := by
  induction fuel using Nat.strongRecOn generalizing k fuel' with
  | ind fuel ih =>
    obtain ⟨fuel, rfl⟩ : ∃ f, fuel = f + 1 := ⟨fuel - 1, by omega⟩
    obtain ⟨fuel', rfl⟩ : ∃ f, fuel' = f + 1 := ⟨fuel' - 1, by omega⟩
    cases hs : search k with
    | none => rw [visits_none hs, sequence_none hs, List.flatMap_nil]
    | some h =>
      obtain ⟨hstart, hstop, hn⟩ := hl.le hk hs
      rw [sequence_some hk hs, List.flatMap_cons]
      -- an empty match at `j`: the search goes on behind it
      have hempty : ∀ j f f', j ≤ n → k ≤ j → search j = some h → h.start = j → h.stop = j →
          f < fuel + 1 → n - j < f + 1 → n - j < f' + 1 →
          visits search n (f + 1) j = (j, h) :: (sequence search n f' h.next).flatMap twice := by
        intro j f f' hj hkj hsj hs₁ hs₂ hlt hf hf'
        rw [visits_stay hsj hs₂]
        have hnext : h.next = j + 1 := by
          unfold Hit.next
          rw [if_pos (hs₁.trans hs₂.symm), hs₂]
        rw [hnext]
        split
        · next hjn =>
          have heq : visits search n f (j + 1) = (sequence search n f' (j + 1)).flatMap twice :=
            ih f hlt (by omega) (by omega) (by omega)
          rw [heq]
        · next hjn => rw [sequence_past (by omega), List.flatMap_nil]
      by_cases hne : h.stop = k
      · have hnl : ¬ Late (k, h) := fun hlate => by
          have := hlate.2
          change k < h.start at this
          omega
        rw [twice, if_neg hnl, hempty k fuel fuel' hk (Nat.le_refl k) hs (by omega) hne
          (Nat.lt_succ_self _) hf hf', List.singleton_append]
      · rw [visits_stop hs hne]
        by_cases hlate : Late (k, h)
        · have heq : h.start = h.stop := hlate.1
          obtain ⟨f, rfl⟩ : ∃ f, fuel = f + 1 := ⟨fuel - 1, by omega⟩
          have hagain : search h.stop = some h := hl.same hs (by omega) (by omega)
          rw [twice, if_pos hlate, hempty h.stop f fuel' hn (by omega) hagain heq rfl (by omega)
            (by omega) (by omega)]
          simp only [heq, List.cons_append, List.nil_append]
        · have hnext : h.next = h.stop := by
            unfold Hit.next
            rw [if_neg fun heq : h.start = h.stop => hlate ⟨heq, by change k < h.start; omega⟩]
          have hrest : visits search n fuel h.stop =
              (sequence search n fuel' h.stop).flatMap twice :=
            ih fuel (Nat.lt_succ_self _) hn (by omega) (by omega)
          rw [twice, if_neg hlate, hnext, List.singleton_append, hrest]

end

end Arsh.GlobalSearch
