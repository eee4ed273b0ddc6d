import Mathlib.Data.Finset.Card
import Mathlib.Data.Finset.Range
import Mathlib.Logic.Function.Basic
import Mathlib.Tactic.Common

/-!
# Robin hood hashing

A ring of `n` places, some of which are taken by something that is some distance away from where
it belongs. Only the distances matter: `Order` says that whoever is at a distance has somebody in
front of it who is almost as far away. Then a search that starts where something belongs and goes
on while distances are not below its own comes past it (`Order.reach`).

Taking a place from somebody who is not as far away keeps the order (`Order.set`). A place becomes
free by moving those behind it, one after the other (`Order.close`, `Order.lower`).
-/

namespace Arsh.RobinHood

variable {n p q d e : Nat} {D : Nat → Option Nat}

/-- Whoever is at a distance `d + 1` follows somebody at a distance of `d` or more. -/
def Order (n : Nat) (D : Nat → Option Nat) : Prop :=
  ∀ p, p < n → ∀ d, D ((p + 1) % n) = some (d + 1) → ∃ e, D p = some e ∧ d ≤ e

/-- A distance of `d` at `p` fits to what is in front of it. -/
def Fits (n : Nat) (D : Nat → Option Nat) (p d : Nat) : Prop :=
  ∀ q, q < n → (q + 1) % n = p → ∀ c, d = c + 1 → ∃ e, D q = some e ∧ c ≤ e

theorem order_empty (n : Nat) : Order n fun _ => none := nofun

theorem fits_zero : Fits n D p 0 := nofun

/-! ## The ring -/

theorem succ_mod_ne (hn : 2 ≤ n) (hp : p < n) : (p + 1) % n ≠ p := by
  by_cases h : p + 1 = n
  · rw [h, Nat.mod_self]
    omega
  · rw [Nat.mod_eq_of_lt (by omega)]
    omega

theorem succ_mod_inj (hp : p < n) (hq : q < n) (h : (p + 1) % n = (q + 1) % n) : p = q := by
  by_cases hp' : p + 1 = n
  · by_cases hq' : q + 1 = n
    · omega
    · rw [hp', Nat.mod_self, Nat.mod_eq_of_lt (by omega)] at h
      omega
  · by_cases hq' : q + 1 = n
    · rw [hq', Nat.mod_self, Nat.mod_eq_of_lt (by omega)] at h
      omega
    · rw [Nat.mod_eq_of_lt (by omega), Nat.mod_eq_of_lt (by omega)] at h
      omega

/-- The next place of a place that is some steps from another. -/
theorem succ_mod (a : Nat) : (a % n + 1) % n = (a + 1) % n := Nat.mod_add_mod a n 1

/-- Every place is some steps ahead. -/
theorem exists_steps (hp : p < n) (hq : q < n) : ∃ k, k < n ∧ (p + k) % n = q := by
  by_cases h : p ≤ q
  · exact ⟨q - p, by omega, by rw [Nat.add_sub_cancel' h, Nat.mod_eq_of_lt hq]⟩
  · refine ⟨q + n - p, by omega, ?_⟩
    have heq : p + (q + n - p) = q + n := by omega
    rw [heq, Nat.add_mod_right, Nat.mod_eq_of_lt hq]

/-! ## Places that are taken -/

/-- What follows a place fits to it. -/
theorem fits_next (hp : p < n) (hd : D p = some d) : Fits n D ((p + 1) % n) (d + 1) := by
  intro q hq heq c hc
  have hqp := succ_mod_inj hq hp heq
  subst hqp
  exact ⟨d, hd, by omega⟩

/-- A place goes to somebody who is at least as far away as who was there. -/
theorem Order.set (h : Order n D) (hn : 2 ≤ n) (hp : p < n) (hd : ∀ e, D p = some e → e ≤ d)
    (hf : Fits n D p d) : Order n (Function.update D p (some d)) := by
  intro q hq e he
  by_cases hqp : q = p
  · subst hqp
    rw [Function.update_of_ne (succ_mod_ne hn hq)] at he
    obtain ⟨e', he', hle⟩ := h q hq e he
    exact ⟨d, Function.update_self _ _ _, Nat.le_trans hle (hd e' he')⟩
  · rw [Function.update_of_ne hqp]
    by_cases hnext : (q + 1) % n = p
    · rw [hnext, Function.update_self] at he
      exact hf q hq hnext e (Option.some.inj he)
    · rw [Function.update_of_ne hnext] at he
      exact h q hq e he

/-- What follows the place that was taken: a distance of one more than who was there. -/
theorem fits_set (hp : p < n) (hle : e ≤ d) :
    Fits n (Function.update D p (some d)) ((p + 1) % n) (e + 1) := by
  intro q hq heq c hc
  have hqp := succ_mod_inj hq hp heq
  subst hqp
  exact ⟨d, Function.update_self _ _ _, by omega⟩

/-! ## Places that are given back -/

/-- If nobody at a distance follows, a place may be free. -/
theorem Order.close (h : Order n (Function.update D p (some d))) (hfree : D p = none)
    (hnext : ∀ e, D ((p + 1) % n) ≠ some (e + 1)) : Order n D := by
  intro q hq e he
  by_cases hqp : q = p
  · subst hqp
    exact absurd he (hnext e)
  · have hne : (q + 1) % n ≠ p := by
      intro heq
      rw [heq, hfree] at he
      cases he
    obtain ⟨e', he', hle⟩ := h q hq e (by rw [Function.update_of_ne hne]; exact he)
    rw [Function.update_of_ne hqp] at he'
    exact ⟨e', he', hle⟩

/-- Who follows may take the place, one step closer. -/
theorem Order.lower (h : Order n (Function.update D p (some d))) (hn : 2 ≤ n) (hp : p < n)
    (hnext : D ((p + 1) % n) = some (e + 1)) : Order n (Function.update D p (some e)) := by
  have hne := succ_mod_ne hn hp
  have hle : e ≤ d := by
    obtain ⟨e', he', hle⟩ := h p hp e (by rw [Function.update_of_ne hne]; exact hnext)
    rw [Function.update_self] at he'
    cases he'
    exact hle
  intro q hq c hc
  by_cases hqp : q = p
  · subst hqp
    rw [Function.update_of_ne hne, hnext] at hc
    cases hc
    exact ⟨e, Function.update_self _ _ _, Nat.le_refl _⟩
  · by_cases hnq : (q + 1) % n = p
    · rw [hnq, Function.update_self] at hc
      cases hc
      obtain ⟨c', rfl⟩ : ∃ c', d = c' + 1 := ⟨d - 1, by omega⟩
      obtain ⟨e', he', hle'⟩ := h q hq c' (by rw [hnq, Function.update_self])
      rw [Function.update_of_ne hqp] at he' ⊢
      exact ⟨e', he', by omega⟩
    · rw [Function.update_of_ne hnq] at hc
      obtain ⟨e', he', hle'⟩ := h q hq c (by rw [Function.update_of_ne hnq]; exact hc)
      rw [Function.update_of_ne hqp] at he' ⊢
      exact ⟨e', he', hle'⟩

/-! ## Searching -/

/-- On the way to a place that is taken, all are taken by somebody at least as far away. -/
theorem Order.reach (h : Order n D) (hn : 0 < n) {a : Nat} (hd : D ((a + d) % n) = some d) :
    ∀ {j : Nat}, j ≤ d → ∃ e, D ((a + j) % n) = some e ∧ j ≤ e := by
  suffices ∀ i j, i + j = d → ∃ e, D ((a + j) % n) = some e ∧ j ≤ e by
    intro j hj
    exact this (d - j) j (by omega)
  intro i
  induction i with
  | zero =>
    rintro j hj
    obtain rfl : j = d := by omega
    exact ⟨j, hd, Nat.le_refl _⟩
  | succ i ih =>
    intro j hj
    obtain ⟨e, he, hle⟩ := ih (j + 1) (by omega)
    obtain ⟨c, rfl⟩ : ∃ c, e = c + 1 := ⟨e - 1, by omega⟩
    have hnext : D (((a + j) % n + 1) % n) = some (c + 1) := by
      rw [succ_mod, Nat.add_assoc]
      exact he
    obtain ⟨e', he', hle'⟩ := h _ (Nat.mod_lt _ hn) c hnext
    exact ⟨e', he', by omega⟩

/-- If a place is free, distances are shorter than the ring. -/
theorem Order.dist_lt (h : Order n D) {a : Nat} (hd : D ((a + d) % n) = some d) (hq : q < n)
    (hfree : D q = none) : d < n := by
  by_contra hle
  obtain ⟨k, hk, hkq⟩ := exists_steps (Nat.mod_lt a (by omega : 0 < n)) hq
  obtain ⟨e, he, -⟩ := h.reach (by omega) hd (j := k) (by omega)
  rw [Nat.mod_add_mod] at hkq
  rw [hkq, hfree] at he
  cases he

/-- Different people in all places are no more than there are people. -/
theorem exists_free {β : Type*} [DecidableEq β] {B : Nat → Option β} {s : Finset β}
    (hs : ∀ p, p < n → ∀ b, B p = some b → b ∈ s)
    (hinj : ∀ p, p < n → ∀ q, q < n → ∀ b, B p = some b → B q = some b → p = q)
    (hcard : s.card < n) : ∃ p, p < n ∧ B p = none := by
  by_contra hall
  have hsome : ∀ p, p < n → ∃ b, B p = some b := by
    intro p hp
    cases hb : B p with
    | some b => exact ⟨b, rfl⟩
    | none => exact absurd ⟨p, hp, hb⟩ hall
  have hcard' : ((Finset.range n).image B).card = n := by
    rw [Finset.card_image_of_injOn, Finset.card_range]
    intro p hp q hq heq
    rw [Finset.mem_coe, Finset.mem_range] at hp hq
    obtain ⟨b, hb⟩ := hsome p hp
    exact hinj p hp q hq b hb (heq ▸ hb)
  have hsub : (Finset.range n).image B ⊆ s.image some := by
    intro b hb
    obtain ⟨p, hp, rfl⟩ := Finset.mem_image.1 hb
    obtain ⟨b, hb⟩ := hsome p (Finset.mem_range.1 hp)
    rw [hb]
    exact Finset.mem_image_of_mem some (hs p (Finset.mem_range.1 hp) b hb)
  have hle := (Finset.card_le_card hsub).trans Finset.card_image_le
  rw [hcard'] at hle
  omega

end Arsh.RobinHood
