import Mathlib.Data.Nat.Find
import Mathlib.Tactic.Common

/-!
# Longest first, from two sources

A search for sizes up to a limit. One source knows which sizes are `Known` and takes the longest
of them, which counts only if it is also `Wanted`; the other takes the longest size that is
`Other`. The larger of the two is the next size, and the search goes on below it. A known size
that is not wanted may hide a wanted one below it: `forall_mem_sizes_iff` says when none is
hidden.
-/

namespace Arsh.LongestFirst

variable (Known Wanted Other : Nat → Prop) [DecidablePred Known] [DecidablePred Wanted]
  [DecidablePred Other]

/-- The longest known size up to `limit`, if it is wanted, and `0` if not. -/
def wanted (limit : Nat) : Nat :=
  if Wanted (Nat.findGreatest Known limit) then Nat.findGreatest Known limit else 0

/-- The next size up to `limit`. -/
def next (limit : Nat) : Nat := max (wanted Known Wanted limit) (Nat.findGreatest Other limit)

/-- The sizes found, down from `limit`. They decrease, so that `fuel` need not exceed `limit`. -/
def sizes : Nat → Nat → List Nat
  | 0, _ => []
  | fuel + 1, limit =>
    if next Known Wanted Other limit = 0 then []
    else next Known Wanted Other limit :: sizes fuel (next Known Wanted Other limit - 1)

/-- The sizes that the search is for. -/
def Member (n : Nat) : Prop := 0 < n ∧ (Wanted n ∨ Other n)

/-- No size that is known and not wanted hides the size `n`: between them is another member, or
`n` is found by the other source. -/
def Visible (limit n : Nat) : Prop :=
  Wanted n → ¬ Other n → ∀ m, n < m → m ≤ limit → Known m → ¬ Wanted m →
    ∃ k, n < k ∧ k ≤ m ∧ Member Wanted Other k

variable {Known Wanted Other} {limit n fuel : Nat}

theorem wanted_le : wanted Known Wanted limit ≤ limit := by
  unfold wanted
  split
  · exact Nat.findGreatest_le limit
  · exact Nat.zero_le limit

theorem next_le : next Known Wanted Other limit ≤ limit :=
  max_le wanted_le (Nat.findGreatest_le limit)

/-- What is found is a member. -/
theorem member_next (h : next Known Wanted Other limit ≠ 0) :
    Member Wanted Other (next Known Wanted Other limit) := by
  refine ⟨Nat.pos_of_ne_zero h, ?_⟩
  unfold next at h ⊢
  rcases le_total (wanted Known Wanted limit) (Nat.findGreatest Other limit) with hle | hle
  · rw [max_eq_right hle] at h ⊢
    exact .inr (Nat.findGreatest_of_ne_zero rfl h)
  · rw [max_eq_left hle] at h ⊢
    unfold wanted at h ⊢
    split at h
    · next hw =>
      rw [if_pos hw]
      exact .inl hw
    · exact absurd rfl h

section
variable (Known Wanted Other)

/-- Another source of the size `1` alone is asked last. -/
theorem next_or_one (c : Prop) [Decidable c] :
    next Known Wanted (fun n => Other n ∨ (n = 1 ∧ c)) limit =
      if next Known Wanted Other limit = 0 then if c ∧ 0 < limit then 1 else 0
      else next Known Wanted Other limit := by
  have hother : Nat.findGreatest (fun n => Other n ∨ (n = 1 ∧ c)) limit =
      max (Nat.findGreatest Other limit) (if c ∧ 0 < limit then 1 else 0) := by
    rw [Nat.findGreatest_eq_iff]
    refine ⟨max_le (Nat.findGreatest_le limit) (by split <;> omega), fun hne => ?_, ?_⟩
    · rcases Nat.eq_zero_or_pos (Nat.findGreatest Other limit) with hz | hpos
      · rw [hz, Nat.zero_max] at hne ⊢
        split at hne
        · next hc =>
          rw [if_pos hc]
          exact .inr ⟨rfl, hc.1⟩
        · exact absurd rfl hne
      · rw [max_eq_left (by split <;> omega)]
        exact .inl (Nat.findGreatest_of_ne_zero rfl (by omega))
    · rintro k hk hle (ho | ⟨rfl, hc⟩)
      · have := Nat.le_findGreatest hle ho
        omega
      · rw [if_pos ⟨hc, hle⟩] at hk
        omega
  have hone : (if c ∧ 0 < limit then 1 else 0) ≤ 1 := by split <;> omega
  have hmax : next Known Wanted (fun n => Other n ∨ (n = 1 ∧ c)) limit =
      max (next Known Wanted Other limit) (if c ∧ 0 < limit then 1 else 0) := by
    unfold next
    rw [hother, max_assoc]
  rw [hmax]
  by_cases hz : next Known Wanted Other limit = 0
  · rw [if_pos hz, hz, Nat.zero_max]
  · rw [if_neg hz, max_eq_left (by omega)]

end

theorem bound_of_mem_sizes (h : n ∈ sizes Known Wanted Other fuel limit) :
    n ≤ limit ∧ Member Wanted Other n := by
  induction fuel generalizing limit with
  | zero => cases h
  | succ fuel ih =>
    unfold sizes at h
    split at h
    · cases h
    · next hne =>
      have hle : next Known Wanted Other limit ≤ limit := next_le
      rcases List.mem_cons.1 h with rfl | h
      · exact ⟨hle, member_next hne⟩
      · obtain ⟨hn, hm⟩ := ih h
        exact ⟨by omega, hm⟩

/-- The sizes decrease. -/
theorem pairwise_sizes : (sizes Known Wanted Other fuel limit).Pairwise (· > ·) := by
  induction fuel generalizing limit with
  | zero => exact .nil
  | succ fuel ih =>
    unfold sizes
    split
    · exact .nil
    · next hne =>
      refine List.pairwise_cons.2 ⟨fun n hn => ?_, ih⟩
      have := (bound_of_mem_sizes hn).1
      omega

/-- The largest member up to the limit is found, if the longest known size does not hide it. -/
theorem next_eq (hle : n ≤ limit) (hn : Member Wanted Other n)
    (hmax : ∀ k, n < k → k ≤ limit → ¬ Member Wanted Other k)
    (hsub : ∀ m, Wanted m → Known m) (hv : Visible Known Wanted Other limit n) :
    next Known Wanted Other limit = n := by
  have hupper : next Known Wanted Other limit ≤ n := by
    by_contra hlt
    have hne : next Known Wanted Other limit ≠ 0 := by omega
    exact hmax _ (by omega) next_le (member_next hne)
  apply le_antisymm hupper
  by_cases hother : Other n
  · exact le_trans (Nat.le_findGreatest hle hother) (le_max_right _ _)
  have hwanted : Wanted n := hn.2.resolve_right hother
  have hge : n ≤ Nat.findGreatest Known limit := Nat.le_findGreatest hle (hsub n hwanted)
  have hknown : Known (Nat.findGreatest Known limit) := Nat.findGreatest_spec hle (hsub n hwanted)
  have hlimit : Nat.findGreatest Known limit ≤ limit := Nat.findGreatest_le limit
  suffices hw : Wanted (Nat.findGreatest Known limit) by
    refine le_trans ?_ (le_max_left _ _)
    unfold wanted
    rwa [if_pos hw]
  by_contra hw
  have hgt : n < Nat.findGreatest Known limit := by
    apply lt_of_le_of_ne hge
    intro heq
    exact hw (heq ▸ hwanted)
  obtain ⟨k, hnk, hkm, hk⟩ := hv hwanted hother _ hgt hlimit hknown hw
  exact hmax k hnk (le_trans hkm hlimit) hk

/-- No member up to the limit is passed over, if none is hidden. -/
theorem le_next (hle : n ≤ limit) (hn : Member Wanted Other n) (hsub : ∀ m, Wanted m → Known m)
    (hv : ∀ k ≤ limit, Member Wanted Other k → Visible Known Wanted Other limit k) :
    n ≤ next Known Wanted Other limit := by
  classical
  -- the largest member up to the limit
  have htop : Member Wanted Other (Nat.findGreatest (Member Wanted Other) limit) :=
    Nat.findGreatest_spec hle hn
  have htople : Nat.findGreatest (Member Wanted Other) limit ≤ limit := Nat.findGreatest_le limit
  rw [next_eq htople htop (fun k hlt hk => Nat.findGreatest_is_greatest hlt hk) hsub
    (hv _ htople htop)]
  exact Nat.le_findGreatest hle hn

/-- All members up to the limit are found, if none is hidden. -/
theorem mem_sizes (hle : n ≤ limit) (hn : Member Wanted Other n) (hsub : ∀ m, Wanted m → Known m)
    (hv : ∀ k ≤ limit, Member Wanted Other k → Visible Known Wanted Other limit k)
    (hfuel : limit ≤ fuel) : n ∈ sizes Known Wanted Other fuel limit := by
  induction fuel generalizing limit with
  | zero =>
    have := hn.1
    omega
  | succ fuel ih =>
    have hge := le_next hle hn hsub hv
    have hnext : next Known Wanted Other limit ≤ limit := next_le
    have hpos := hn.1
    unfold sizes
    rw [if_neg (by omega), List.mem_cons]
    rcases Nat.lt_or_eq_of_le hge with hlt | heq
    · refine .inr (ih (by omega) ?_ (by omega))
      intro k hk hkm hwanted hother m hkm' hm
      exact hv k (by omega) hkm hwanted hother m hkm' (by omega)
    · exact .inl heq

/-- A hidden member is not found. -/
theorem not_mem_sizes {m : Nat} (hn : 0 < n) (hother : ¬ Other n) (hnm : n < m) (hm : m ≤ limit)
    (hknown : Known m)
    (hnone : ∀ k, n < k → k ≤ m → ¬ Member Wanted Other k) :
    n ∉ sizes Known Wanted Other fuel limit := by
  induction fuel generalizing limit with
  | zero => exact List.not_mem_nil
  | succ fuel ih =>
    have hge : m ≤ Nat.findGreatest Known limit := Nat.le_findGreatest hm hknown
    have hne : n ≠ next Known Wanted Other limit := by
      intro heq
      unfold next at heq
      rcases le_total (wanted Known Wanted limit) (Nat.findGreatest Other limit) with hle | hle
      · rw [max_eq_right hle] at heq
        exact hother (Nat.findGreatest_of_ne_zero heq.symm (by omega))
      · rw [max_eq_left hle] at heq
        unfold wanted at heq
        split at heq <;> omega
    unfold sizes
    split
    · exact List.not_mem_nil
    · next hnext =>
      intro hmem
      rcases List.mem_cons.1 hmem with heq | hmem
      · exact hne heq
      · have hlt := (bound_of_mem_sizes hmem).1
        have hbeyond : m < next Known Wanted Other limit := by
          by_contra hle
          exact hnone _ (by omega) (by omega) (member_next hnext)
        exact ih (by omega) hmem

/-- The search finds all members up to the limit exactly if none of them is hidden. -/
theorem forall_mem_sizes_iff (hsub : ∀ m, Wanted m → Known m) (hfuel : limit ≤ fuel) :
    (∀ k ≤ limit, Member Wanted Other k → k ∈ sizes Known Wanted Other fuel limit) ↔
      ∀ k ≤ limit, Member Wanted Other k → Visible Known Wanted Other limit k := by
  constructor
  · intro h k hk hmember _ hother m hkm hm hknown _
    by_contra hnone
    push Not at hnone
    exact not_mem_sizes hmember.1 hother hkm hm hknown
      (fun j hkj hjm hj => hnone j hkj hjm hj) (h k hk hmember)
  · exact fun h k hk hmember => mem_sizes hk hmember hsub h hfuel

end Arsh.LongestFirst
