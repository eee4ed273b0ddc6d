import Mathlib.Data.List.Basic
import Mathlib.Data.List.Perm.Basic
import Mathlib.Order.Lattice
import Mathlib.Tactic.Common

/-!
# Sorted and packed vectors

Two ways in which a vector is kept as a table. `lowerBound` is the binary search of a vector
that is ascending in a key; `insertAt` keeps it so. `pack` is the loop that moves the live
elements of a vector to its front by swaps and keeps their order.
-/

namespace Arsh.Vec

variable {α κ : Type*}

/-! ## Lower bounds -/

section
variable [LinearOrder κ] {key : α → κ} {xs : List α} {x y : α} {k : κ}

/-- Every key is above the keys before it. -/
def Ascending (key : α → κ) (xs : List α) : Prop := xs.Pairwise fun x y => key x < key y

/-- `std::lower_bound`: the index of the first element whose key is not below `k`. -/
def lowerBound (key : α → κ) (xs : List α) (k : κ) : Nat := xs.findIdx fun x => decide (k ≤ key x)

/-- Insert in front of the element at `i`. -/
def insertAt (xs : List α) (i : Nat) (x : α) : List α := xs.take i ++ x :: xs.drop i

theorem lowerBound_le : lowerBound key xs k ≤ xs.length := List.findIdx_le_length

/-- The elements in front of the lower bound are below the key. -/
theorem key_lt_of_mem_take (h : x ∈ xs.take (lowerBound key xs k)) : key x < k := by
  obtain ⟨i, hi, rfl⟩ := List.getElem_of_mem h
  have hlt : i < lowerBound key xs k := by
    rw [List.length_take] at hi
    omega
  have := List.not_of_lt_findIdx hlt
  rw [List.getElem_take]
  simpa using this

theorem le_key_of_getElem? (h : xs[lowerBound key xs k]? = some x) : k ≤ key x := by
  obtain ⟨hi, rfl⟩ := List.getElem?_eq_some_iff.1 h
  exact of_decide_eq_true (List.findIdx_getElem (w := hi))

/-- The elements from the lower bound on are not below the key. -/
theorem le_key_of_mem_drop (hs : Ascending key xs) (h : x ∈ xs.drop (lowerBound key xs k)) :
    k ≤ key x := by
  cases hd : xs.drop (lowerBound key xs k) with
  | nil => rw [hd] at h; cases h
  | cons y ys =>
    have hy : k ≤ key y := le_key_of_getElem? (by
      rw [← List.head?_drop, hd]
      rfl)
    have hlt : ∀ z ∈ ys, key y < key z := by
      have := hs.sublist (List.drop_sublist (lowerBound key xs k) xs)
      rw [hd] at this
      exact (List.pairwise_cons.1 this).1
    rw [hd] at h
    rcases List.mem_cons.1 h with rfl | h
    · exact hy
    · exact hy.trans (hlt x h).le

/-- The element at the lower bound has the key `k` exactly if some element has it. -/
theorem getElem?_lowerBound (hs : Ascending key xs) :
    (xs[lowerBound key xs k]? = some x ∧ key x = k) ↔ x ∈ xs ∧ key x = k := by
  constructor
  · rintro ⟨h, rfl⟩
    exact ⟨List.mem_of_getElem? h, rfl⟩
  · rintro ⟨h, rfl⟩
    refine ⟨?_, rfl⟩
    rw [← List.take_append_drop (lowerBound key xs (key x)) xs, List.mem_append] at h
    rcases h with h | h
    · exact absurd (key_lt_of_mem_take h) (lt_irrefl _)
    · cases hd : xs.drop (lowerBound key xs (key x)) with
      | nil => rw [hd] at h; cases h
      | cons y ys =>
        have hget : xs[lowerBound key xs (key x)]? = some y := by
          rw [← List.head?_drop, hd]
          rfl
        rw [hd] at h
        rcases List.mem_cons.1 h with rfl | h
        · exact hget
        · have := hs.sublist (List.drop_sublist (lowerBound key xs (key x)) xs)
          rw [hd] at this
          have hlt := (List.pairwise_cons.1 this).1 x h
          exact absurd ((le_key_of_getElem? hget).trans_lt hlt) (lt_irrefl _)

/-- Past the end there is no key that large. -/
theorem lowerBound_eq_length : lowerBound key xs k = xs.length ↔ ∀ x ∈ xs, key x < k := by
  unfold lowerBound
  rw [List.findIdx_eq_length]
  simp

theorem Ascending.eq_of_key (hs : Ascending key xs) (hx : x ∈ xs) (hy : y ∈ xs)
    (h : key x = key y) : x = y := by
  have h₁ := (getElem?_lowerBound hs).2 ⟨hx, rfl⟩
  have h₂ := (getElem?_lowerBound hs).2 ⟨hy, h.symm⟩
  exact Option.some.inj (h₁.1.symm.trans h₂.1)

theorem mem_insertAt {i : Nat} : y ∈ insertAt xs i x ↔ y = x ∨ y ∈ xs := by
  unfold insertAt
  conv_rhs => rw [← List.take_append_drop i xs]
  simp only [List.mem_append, List.mem_cons]
  tauto

theorem Ascending.of_map_eq {ys : List α} (hs : Ascending key xs) (h : ys.map key = xs.map key) :
    Ascending key ys := by
  unfold Ascending at *
  rwa [← List.pairwise_map (f := key), h, List.pairwise_map]

/-- An element may be replaced by one with its key. -/
theorem Ascending.set {i : Nat} (hs : Ascending key xs) (h : xs[i]? = some x)
    (hk : key y = key x) : Ascending key (xs.set i y) := by
  obtain ⟨hi, rfl⟩ := List.getElem?_eq_some_iff.1 h
  apply hs.of_map_eq
  rw [List.map_set, hk, ← List.getElem_map key (h := by simpa using hi), List.set_getElem_self]

theorem Ascending.mem_around {i : Nat} (hs : Ascending key xs) (h : xs[i]? = some x) :
    (y ∈ xs.take i ∨ y ∈ xs.drop (i + 1)) ↔ y ∈ xs ∧ y ≠ x := by
  obtain ⟨hi, hx⟩ := List.getElem?_eq_some_iff.1 h
  have hsplit : xs = xs.take i ++ x :: xs.drop (i + 1) := by
    rw [← hx, List.getElem_cons_drop, List.take_append_drop]
  have hmem : y ∈ xs ↔ y ∈ xs.take i ∨ y = x ∨ y ∈ xs.drop (i + 1) := by
    conv_lhs => rw [hsplit]
    rw [List.mem_append, List.mem_cons]
  rw [hmem]
  constructor
  · intro hy
    refine ⟨hy.imp_right .inr, ?_⟩
    rintro rfl
    unfold Ascending at hs
    rw [hsplit, List.pairwise_append, List.pairwise_cons] at hs
    rcases hy with hy | hy
    · exact lt_irrefl _ (hs.2.2 y hy y List.mem_cons_self)
    · exact lt_irrefl _ (hs.2.1.1 y hy)
  · rintro ⟨hy | hy | hy, hn⟩
    · exact .inl hy
    · exact absurd hy hn
    · exact .inr hy

theorem Ascending.mem_set {z : α} {i : Nat} (hs : Ascending key xs) (h : xs[i]? = some x) :
    y ∈ xs.set i z ↔ y = z ∨ y ∈ xs ∧ y ≠ x := by
  have hi := (List.getElem?_eq_some_iff.1 h).1
  rw [List.set_eq_take_append_cons_drop, if_pos hi, List.mem_append, List.mem_cons,
    ← hs.mem_around h]
  exact or_left_comm

theorem Ascending.mem_eraseIdx {i : Nat} (hs : Ascending key xs) (h : xs[i]? = some x) :
    y ∈ xs.eraseIdx i ↔ y ∈ xs ∧ y ≠ x := by
  rw [List.eraseIdx_eq_take_drop_succ, List.mem_append, hs.mem_around h]

theorem countP_insertAt {i : Nat} (p : α → Bool) :
    (insertAt xs i x).countP p = xs.countP p + if p x then 1 else 0 := by
  conv_rhs => rw [← List.take_append_drop i xs]
  unfold insertAt
  rw [List.countP_append, List.countP_append, List.countP_cons]
  omega

theorem Ascending.insertAt_of {i : Nat} (hs : Ascending key xs)
    (hlt : ∀ y ∈ xs.take i, key y < key x) (hgt : ∀ y ∈ xs.drop i, key x < key y) :
    Ascending key (insertAt xs i x) := by
  unfold Vec.insertAt Ascending
  rw [List.pairwise_append, List.pairwise_cons]
  refine ⟨hs.sublist (List.take_sublist _ _), ⟨hgt, hs.sublist (List.drop_sublist _ _)⟩, ?_⟩
  intro a ha b hb
  rcases List.mem_cons.1 hb with rfl | hb
  · exact hlt a ha
  · exact (hlt a ha).trans (hgt b hb)

theorem Ascending.insertAt (hs : Ascending key xs) (h : ∀ y ∈ xs, key y ≠ key x) :
    Ascending key (insertAt xs (lowerBound key xs (key x)) x) :=
  hs.insertAt_of (fun _ hy => key_lt_of_mem_take hy) fun y hy =>
    lt_of_le_of_ne (le_key_of_mem_drop hs hy) (h y (List.mem_of_mem_drop hy)).symm

end

/-! ## Packing -/

section
variable {live : α → Bool} {xs ys pre dead rest : List α} {x y d : α}

/-- `std::swap` of two elements. -/
def swapAt (xs : List α) (i j : Nat) : List α :=
  match xs[i]?, xs[j]? with
  | some x, some y => (xs.set i y).set j x
  | _, _ => xs

/-- The second loop: `i` is the next element to look at, `r` the first one that is not live. -/
def packLoop (live : α → Bool) : Nat → List α → Nat → Nat → List α × Nat
  | 0, xs, _, r => (xs, r)
  | n + 1, xs, i, r =>
    match xs[i]? with
    | none => (xs, r)
    | some x =>
      if live x then packLoop live n (swapAt xs i r) (i + 1) (r + 1)
      else packLoop live n xs (i + 1) r

/-- Move the live elements to the front; the number of them comes along. -/
def pack (live : α → Bool) (xs : List α) : List α × Nat :=
  let r := xs.findIdx fun x => !live x
  packLoop live (xs.length - (r + 1)) xs (r + 1) r

theorem getElem?_middle : (pre ++ x :: rest)[pre.length]? = some x := by
  rw [List.getElem?_append_right (Nat.le_refl _), Nat.sub_self]
  rfl

/-- The swapped elements change places. -/
theorem swapAt_append :
    swapAt (pre ++ d :: dead ++ x :: rest) (pre.length + (d :: dead).length) pre.length =
      pre ++ x :: dead ++ d :: rest := by
  have hx : (pre ++ d :: dead ++ x :: rest)[pre.length + (d :: dead).length]? = some x := by
    rw [← List.length_append]
    exact getElem?_middle
  have hd : (pre ++ d :: dead ++ x :: rest)[pre.length]? = some d := by
    rw [List.append_assoc]
    exact getElem?_middle
  unfold swapAt
  rw [hx, hd]
  simp only
  rw [← List.length_append, List.set_append_right _ _ (Nat.le_refl _), Nat.sub_self,
    List.append_assoc, List.set_append_right _ _ (Nat.le_refl _), Nat.sub_self]
  simp

/-- The live elements so far, the others, and what is still to be looked at. -/
theorem packLoop_spec {n i r : Nat} (hxs : xs = pre ++ dead ++ rest) (hdead : dead ≠ [])
    (hn : n = rest.length) (hi : i = pre.length + dead.length) (hr : r = pre.length) :
    ∃ ys, packLoop live n xs i r =
        (pre ++ rest.filter live ++ ys, pre.length + (rest.filter live).length) ∧
      ys.Perm (dead ++ rest.filter fun x => !live x) := by
  induction rest generalizing n i r xs pre dead with
  | nil =>
    subst hxs hn hr
    exact ⟨dead, by simp [packLoop], by simp⟩
  | cons x rest ih =>
    subst hn
    obtain ⟨d, dead, rfl⟩ := List.exists_cons_of_ne_nil hdead
    have hx : xs[i]? = some x := by
      rw [hxs, hi, ← List.length_append]
      exact getElem?_middle
    rw [List.length_cons, packLoop, hx]
    simp only
    by_cases hl : live x = true
    · -- the first of the others goes behind them
      rw [if_pos hl, List.filter_cons_of_pos hl, List.filter_cons_of_neg (by simp [hl]), hxs, hi,
        hr, swapAt_append]
      obtain ⟨ys, hys, hp⟩ := @ih (pre ++ x :: dead ++ d :: rest) (pre ++ [x]) (dead ++ [d])
        rest.length (pre.length + (d :: dead).length + 1) (pre.length + 1) (by simp) (by simp) rfl
        (by simp; omega) (by simp)
      refine ⟨ys, ?_, hp.trans ?_⟩
      · rw [hys]
        simp [Nat.add_comm, Nat.add_left_comm]
      · exact (List.perm_append_singleton d dead).append_right _
    · rw [if_neg hl, List.filter_cons_of_neg hl, List.filter_cons_of_pos (by simp [hl])]
      obtain ⟨ys, hys, hp⟩ := @ih xs pre (d :: dead ++ [x]) rest.length (i + 1) r
        (by rw [hxs]; simp) (by simp) rfl (by rw [hi]; simp; omega) hr
      refine ⟨ys, hys, hp.trans ?_⟩
      simp

/-- What the first loop finds: the elements in front of the first one that is not live. -/
theorem findIdx_split (live : α → Bool) (xs : List α) :
    ∃ pre rest, xs = pre ++ rest ∧ (xs.findIdx fun x => !live x) = pre.length ∧
      (∀ x ∈ pre, live x = true) ∧ ∀ d ∈ rest.head?, live d = false := by
  induction xs with
  | nil => exact ⟨[], [], rfl, rfl, by simp, by simp⟩
  | cons x xs ih =>
    by_cases hx : live x = true
    · obtain ⟨pre, rest, rfl, hi, hp, hr⟩ := ih
      refine ⟨x :: pre, rest, rfl, ?_, ?_, hr⟩
      · rw [List.findIdx_cons, hi]
        simp [hx]
      · intro y hy
        rcases List.mem_cons.1 hy with rfl | hy
        · exact hx
        · exact hp y hy
    · exact ⟨[], x :: xs, rfl, by simp [List.findIdx_cons, hx], by simp, by simpa using hx⟩

/-- The front is the live elements in their order, and the back the others. -/
theorem pack_spec (live : α → Bool) (xs : List α) :
    ∃ ys, pack live xs = (xs.filter live ++ ys, (xs.filter live).length) ∧
      ys.Perm (xs.filter fun x => !live x) := by
  obtain ⟨pre, rest, hxs, hi, hp, hr⟩ := findIdx_split live xs
  have hf : pre.filter live = pre := List.filter_eq_self.2 hp
  have hf' : (pre.filter fun x => !live x) = [] :=
    List.filter_eq_nil_iff.2 fun x hx => by simp [hp x hx]
  unfold pack
  simp only
  rw [hi]
  cases rest with
  | nil =>
    rw [List.append_nil] at hxs
    subst hxs
    exact ⟨[], by simp [hf, packLoop], by rw [hf']⟩
  | cons d rest =>
    have hd : live d = false := hr d rfl
    obtain ⟨ys, hys, hperm⟩ := @packLoop_spec _ live xs pre [d] rest (xs.length - (pre.length + 1))
      (pre.length + 1) pre.length (by simp [hxs]) (by simp) (by rw [hxs]; simp; omega) rfl rfl
    refine ⟨ys, ?_, ?_⟩
    · rw [hys, hxs, List.filter_append, hf, List.filter_cons_of_neg (by simp [hd]),
        List.length_append]
    · rw [hxs, List.filter_append, hf', List.filter_cons_of_pos (by simp [hd])]
      exact hperm

end

end Arsh.Vec
