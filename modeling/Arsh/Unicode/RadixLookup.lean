import Arsh.Unicode.RadixTree

/-!
# The radix tree as a map

`lookup t s` is the property of the string `s`, `0` when it is not in the tree. What
`findLongestMatched`, `add`, `iterate` and `maxCodePointCount` do is said in terms of it.
-/

namespace Arsh.RadixTree

open UnicodeUtil

/-- Induction over a tree, with one hypothesis for all children. -/
@[elab_as_elim]
theorem induct {motive : RadixTree → Prop}
    (node : ∀ pre property children, (∀ x ∈ children, motive x.2) →
      motive (.node pre property children)) (t : RadixTree) : motive t :=
  @RadixTree.rec motive (fun xs => ∀ x ∈ xs, motive x.2) (fun x => motive x.2) node
    (fun _ hx => by cases hx)
    (fun _ _ hy hxs _ hx => by
      rcases List.mem_cons.1 hx with rfl | hx
      · exact hy
      · exact hxs _ hx)
    (fun _ _ h => h) t

/-- Every child is found by the first of its bytes. -/
inductive Ok : RadixTree → Prop
  | node {pre : List Nat} {property : Nat} {children : List (Nat × RadixTree)}
    (head : ∀ x ∈ children, x.2.pre.head? = some x.1) (ok : ∀ x ∈ children, Ok x.2) :
    Ok (.node pre property children)

mutual

/-- The property of a string. -/
def lookup : RadixTree → List Nat → Nat
  | .node pre property children, s =>
    if pre.isPrefixOf s then
      match s.drop pre.length with
      | [] => property
      | b :: rest => lookupChild children b (b :: rest)
    else 0

def lookupChild : List (Nat × RadixTree) → Nat → List Nat → Nat
  | [], _, _ => 0
  | (k, t) :: children, b, s => if k = b then lookup t s else lookupChild children b s

end

/-- A string that starts with the bytes of the node. -/
theorem lookup_append (pre : List Nat) (property : Nat) (children : List (Nat × RadixTree))
    (s : List Nat) :
    lookup (.node pre property children) (pre ++ s) =
      match s with
      | [] => property
      | b :: rest => lookupChild children b (b :: rest) := by
  rw [lookup, if_pos (List.isPrefixOf_iff_prefix.2 (List.prefix_append _ _)), List.drop_left]

theorem lookup_self (pre : List Nat) (property : Nat) (children : List (Nat × RadixTree)) :
    lookup (.node pre property children) pre = property := by
  have := lookup_append pre property children []
  rwa [List.append_nil] at this

theorem lookup_of_not_start {pre : List Nat} {property : Nat} {children : List (Nat × RadixTree)}
    {s : List Nat} (h : ¬ pre <+: s) : lookup (.node pre property children) s = 0 := by
  rw [lookup, if_neg fun e => h (List.isPrefixOf_iff_prefix.1 e)]

/-- The children do not hold the empty string. -/
theorem lookupChild_nil {children : List (Nat × RadixTree)}
    (h : ∀ x ∈ children, x.2.pre.head? = some x.1) (b : Nat) : lookupChild children b [] = 0 := by
  induction children with
  | nil => rfl
  | cons x children ih =>
    obtain ⟨k, ⟨pre, property, cs⟩⟩ := x
    have hpre : pre.head? = some k := h _ List.mem_cons_self
    unfold lookupChild
    split
    · apply lookup_of_not_start
      intro e
      rw [List.prefix_nil.1 e] at hpre
      cases hpre
    · exact ih fun y hy => h y (List.mem_cons_of_mem _ hy)

/-! ## Finding the longest string -/

/-- `r` is the longest string of `f` among the prefixes of `ref`, or `latest` when there is none;
`consumed` bytes come before `ref`. -/
def Longest (f : List Nat → Nat) (ref : List Nat) (consumed : Nat) (latest r : Nat × Nat) : Prop :=
  (r = latest ∧ ∀ n ≤ ref.length, f (ref.take n) = 0) ∨
    ∃ n ≤ ref.length, f (ref.take n) ≠ 0 ∧ r = (consumed + n, f (ref.take n)) ∧
      ∀ m ≤ ref.length, f (ref.take m) ≠ 0 → m ≤ n

theorem findLongestChild_spec {children : List (Nat × RadixTree)} {ref : List Nat}
    {consumed : Nat} {latest : Nat × Nat}
    (h : ∀ x ∈ children, Longest x.2.lookup ref consumed latest
      (x.2.findLongestLoop ref consumed latest)) (b : Nat) :
    Longest (lookupChild children b) ref consumed latest
      (findLongestChild children b ref consumed latest) := by
  induction children with
  | nil => exact .inl ⟨rfl, fun _ _ => rfl⟩
  | cons x children ih =>
    obtain ⟨k, t⟩ := x
    by_cases hk : k = b
    · have hl : lookupChild ((k, t) :: children) b = t.lookup := by
        funext s
        rw [lookupChild, if_pos hk]
      rw [hl, findLongestChild, if_pos hk]
      exact h _ List.mem_cons_self
    · have hl : lookupChild ((k, t) :: children) b = lookupChild children b := by
        funext s
        rw [lookupChild, if_neg hk]
      rw [hl, findLongestChild, if_neg hk]
      exact ih fun y hy => h y (List.mem_cons_of_mem _ hy)

theorem findLongestLoop_spec {t : RadixTree} (ht : t.Ok) (ref : List Nat) (consumed : Nat)
    (latest : Nat × Nat) :
    Longest t.lookup ref consumed latest (t.findLongestLoop ref consumed latest) := by
  induction t using induct generalizing ref consumed latest with
  | node pre property children ih =>
    obtain ⟨hne, hok⟩ := ht
    rw [findLongestLoop]
    by_cases hpre : pre <+: ref
    · obtain ⟨tail, rfl⟩ := hpre
      rw [if_pos (List.isPrefixOf_iff_prefix.2 (List.prefix_append _ _)), List.drop_left]
      -- the strings of the node are `pre` itself and those of the child for the next byte
      have hshort : ∀ n, lookup (.node pre property children) ((pre ++ tail).take n) ≠ 0 →
          ∃ k, n = pre.length + k := by
        intro n hn
        refine Nat.exists_eq_add_of_le (Nat.le_of_not_lt fun hlt => hn ?_)
        apply lookup_of_not_start
        intro h
        have := h.length_le
        rw [List.length_take] at this
        omega
      have hlong : ∀ k, (pre ++ tail).take (pre.length + k) = pre ++ tail.take k := by
        intro k
        rw [List.take_append, List.take_of_length_le (Nat.le_add_right _ _), Nat.add_sub_cancel_left]
      have hself : (pre ++ tail).take pre.length = pre := List.take_left
      cases tail with
      | nil =>
        have hn : ∀ n ≤ (pre ++ []).length,
            lookup (.node pre property children) ((pre ++ []).take n) ≠ 0 → n = pre.length := by
          intro n hn hf
          obtain ⟨k, rfl⟩ := hshort n hf
          rw [List.append_nil] at hn
          omega
        by_cases hp : property = 0
        · refine .inl ⟨by simp [hp], fun n hn' => ?_⟩
          by_contra hf
          rw [hn n hn' hf, hself, lookup_self] at hf
          exact hf hp
        · refine .inr ⟨pre.length, by simp, ?_, ?_, fun m hm hf => Nat.le_of_eq (hn m hm hf)⟩
          · rw [hself, lookup_self]
            exact hp
          · rw [hself, lookup_self]
            simp [hp]
      | cons b rest =>
        have hcons : ∀ k, lookup (.node pre property children) (pre ++ (b :: rest).take (k + 1)) =
            lookupChild children b ((b :: rest).take (k + 1)) :=
          fun k => lookup_append pre property children _
        have hchild := fun l => findLongestChild_spec
          (fun x hx => ih x hx (hok x hx) (b :: rest) (consumed + pre.length) l) b
        rcases hchild (if property = 0 then latest else (consumed + pre.length, property)) with
          ⟨hr, hnone⟩ | ⟨n, hn, hf, hr, hmax⟩
        · simp only [hr]
          have honly : ∀ m ≤ (pre ++ b :: rest).length,
              lookup (.node pre property children) ((pre ++ b :: rest).take m) ≠ 0 →
              m = pre.length := by
            intro m hm hfm
            obtain ⟨k, rfl⟩ := hshort m hfm
            cases k with
            | zero => rfl
            | succ k =>
              rw [hlong, hcons] at hfm
              refine absurd (hnone _ ?_) hfm
              simp only [List.length_append] at hm
              omega
          by_cases hp : property = 0
          · rw [if_pos hp]
            refine .inl ⟨rfl, fun m hm => ?_⟩
            by_contra hfm
            rw [honly m hm hfm, hself, lookup_self] at hfm
            exact hfm hp
          · rw [if_neg hp]
            refine .inr ⟨pre.length, by simp, ?_, ?_, fun m hm hfm => Nat.le_of_eq (honly m hm hfm)⟩
            · rw [hself, lookup_self]
              exact hp
            · rw [hself, lookup_self]
        · simp only [hr]
          cases n with
          | zero => exact absurd (lookupChild_nil hne b) hf
          | succ n =>
            refine .inr ⟨pre.length + (n + 1), ?_, ?_, ?_, ?_⟩
            · rw [List.length_append]
              omega
            · rwa [hlong, hcons]
            · rw [hlong, hcons, Nat.add_assoc]
            · intro m hm hfm
              obtain ⟨k, rfl⟩ := hshort m hfm
              cases k with
              | zero => omega
              | succ k =>
                rw [hlong, hcons] at hfm
                have := hmax _ (by rw [List.length_append] at hm; omega) hfm
                omega
    · rw [if_neg fun e => hpre (List.isPrefixOf_iff_prefix.1 e)]
      refine .inl ⟨rfl, fun n _ => lookup_of_not_start fun h => hpre ?_⟩
      exact h.trans (List.take_prefix _ _)

/-- `findLongestMatched` finds the longest string among the prefixes of `ref`. -/
theorem findLongestMatched_spec {t : RadixTree} (ht : t.Ok) (ref : List Nat) :
    (t.findLongestMatched ref = (0, 0) ∧ ∀ n ≤ ref.length, t.lookup (ref.take n) = 0) ∨
      ∃ n ≤ ref.length, t.lookup (ref.take n) ≠ 0 ∧
        t.findLongestMatched ref = (n, t.lookup (ref.take n)) ∧
        ∀ m ≤ ref.length, t.lookup (ref.take m) ≠ 0 → m ≤ n := by
  have := findLongestLoop_spec ht ref 0 (0, 0)
  simpa only [findLongestMatched, Longest, Nat.zero_add] using this

/-! ## Adding a string -/

theorem commonSize_le (xs ys : List Nat) : commonSize xs ys ≤ xs.length ∧ commonSize xs ys ≤ ys.length := by
  induction xs generalizing ys with
  | nil => simp [commonSize]
  | cons x xs ih =>
    cases ys with
    | nil => simp [commonSize]
    | cons y ys =>
      unfold commonSize
      split
      · simpa using ih ys
      · simp

theorem take_commonSize (xs ys : List Nat) :
    xs.take (commonSize xs ys) = ys.take (commonSize xs ys) := by
  induction xs generalizing ys with
  | nil => simp [commonSize]
  | cons x xs ih =>
    cases ys with
    | nil => simp [commonSize]
    | cons y ys =>
      unfold commonSize
      split
      · next h => simp [h, ih ys]
      · rfl

/-- Where the common part ends the strings differ. -/
theorem drop_commonSize_ne {xs ys : List Nat} {x y : Nat} {xs' ys' : List Nat}
    (hx : xs.drop (commonSize xs ys) = x :: xs') (hy : ys.drop (commonSize xs ys) = y :: ys') :
    x ≠ y := by
  induction xs generalizing ys with
  | nil => simp at hx
  | cons a xs ih =>
    cases ys with
    | nil => simp at hy
    | cons b ys =>
      unfold commonSize at hx hy
      split at hx
      · next h =>
        rw [if_pos h] at hy
        exact ih hx hy
      · next h =>
        rw [if_neg h] at hy
        cases hx
        cases hy
        exact h

theorem lookup_append_node (c pre : List Nat) (property : Nat) (children : List (Nat × RadixTree))
    (s : List Nat) :
    lookup (.node (c ++ pre) property children) (c ++ s) = lookup (.node pre property children) s := by
  by_cases h : pre <+: s
  · obtain ⟨tail, rfl⟩ := h
    rw [← List.append_assoc, lookup_append, lookup_append]
  · rw [lookup_of_not_start h, lookup_of_not_start fun e => h ((List.prefix_append_right_inj c).1 e)]

/-- A node without children holds one string. -/
theorem lookup_leaf (pre : List Nat) (p : Nat) (s : List Nat) :
    lookup (.node pre p []) s = if s = pre then p else 0 := by
  by_cases h : pre <+: s
  · obtain ⟨tail, rfl⟩ := h
    rw [lookup_append]
    cases tail <;> simp [lookupChild]
  · rw [lookup_of_not_start h, if_neg]
    rintro rfl
    exact h List.prefix_rfl

/-- A node split at a common part. -/
theorem lookup_split {c xs : List Nat} {x q property : Nat} {children more : List (Nat × RadixTree)}
    (s : List Nat) :
    lookup (.node c q ((x, .node (x :: xs) property children) :: more)) (c ++ s) =
      match s with
      | [] => q
      | b :: rest =>
        if x = b then lookup (.node (c ++ x :: xs) property children) (c ++ b :: rest)
        else lookupChild more b (b :: rest) := by
  rw [lookup_append]
  cases s with
  | nil => rfl
  | cons b rest =>
    show lookupChild ((x, .node (x :: xs) property children) :: more) b (b :: rest) =
      if x = b then lookup (.node (c ++ x :: xs) property children) (c ++ b :: rest) else _
    rw [lookupChild, lookup_append_node]

theorem lookupChild_addChild {children : List (Nat × RadixTree)} {p : Nat}
    (h : ∀ x ∈ children, ∀ seq s, lookup (x.2.addLoop seq p).2 s =
      if s = seq ∧ x.2.lookup seq = 0 then p else x.2.lookup s) (b b' : Nat) (r s : List Nat) :
    lookupChild (addChild children b (b :: r) p).2 b' (b' :: s) =
      if b' :: s = b :: r ∧ lookupChild children b (b :: r) = 0 then p
      else lookupChild children b' (b' :: s) := by
  induction children with
  | nil =>
    show lookupChild [(b, .node (b :: r) p [])] b' (b' :: s) = if _ ∧ 0 = 0 then p else 0
    rw [lookupChild, lookup_leaf]
    by_cases hb : b = b'
    · simp [hb]
    · simp [hb, Ne.symm hb, lookupChild]
  | cons y children ih =>
    obtain ⟨k, t⟩ := y
    have ih' := ih fun y hy => h y (List.mem_cons_of_mem _ hy)
    rw [addChild]
    by_cases hk : k = b
    · rw [if_pos hk]
      show lookupChild ((k, (t.addLoop (b :: r) p).2) :: children) b' (b' :: s) = _
      rw [lookupChild, lookupChild, lookupChild, if_pos hk, h (k, t) List.mem_cons_self]
      by_cases hb : k = b'
      · rw [if_pos hb, if_pos hb]
      · have hne : ¬ b' :: s = b :: r := fun e => hb (hk.trans (List.cons.inj e).1.symm)
        simp [hb, hne]
    · rw [if_neg hk]
      show lookupChild ((k, t) :: (addChild children b (b :: r) p).2) b' (b' :: s) = _
      rw [lookupChild, lookupChild, lookupChild, if_neg hk, ih']
      by_cases hb : k = b'
      · have hne : ¬ b' :: s = b :: r := fun e => hk (hb.trans (List.cons.inj e).1)
        simp [hb, hne]
      · rw [if_neg hb, if_neg hb]

theorem lookup_addLoop {t : RadixTree} {p : Nat} (seq s : List Nat) :
    lookup (t.addLoop seq p).2 s = if s = seq ∧ t.lookup seq = 0 then p else t.lookup s := by
  induction t using induct generalizing seq s with
  | node pre property children ih =>
    have htake := take_commonSize pre seq
    have hcl := (commonSize_le pre seq).1
    rw [addLoop]
    split
    · next hc =>
      rw [hc, List.take_length] at htake
      obtain ⟨rest, rfl⟩ : ∃ rest, seq = pre ++ rest :=
        ⟨seq.drop pre.length, by conv_lhs => rw [← List.take_append_drop pre.length seq, ← htake]⟩
      rw [hc, List.drop_left]
      cases rest with
      | nil =>
        rw [List.append_nil, lookup_self]
        by_cases hp : property = 0
        · simp only [hp, if_true, and_true]
          by_cases h : pre <+: s
          · obtain ⟨tail, rfl⟩ := h
            rw [lookup_append, lookup_append]
            cases tail <;> simp
          · rw [lookup_of_not_start h, lookup_of_not_start h, if_neg]
            rintro rfl
            exact h List.prefix_rfl
        · simp [hp]
      | cons b r =>
        simp only
        rw [lookup_append]
        split
        · next hnil =>
          simp only [Bool.and_eq_true, List.isEmpty_iff, beq_iff_eq] at hnil
          obtain ⟨⟨rfl, rfl⟩, rfl⟩ := hnil
          rw [lookup_leaf, lookup_leaf, List.nil_append]
          simp [lookupChild]
        · show lookup (.node pre property (addChild children b (b :: r) p).2) s = _
          by_cases h : pre <+: s
          · obtain ⟨tail, rfl⟩ := h
            rw [lookup_append, lookup_append]
            cases tail with
            | nil => simp
            | cons b' s' =>
              simp only [lookupChild_addChild ih, List.append_cancel_left_eq]
          · rw [lookup_of_not_start h, lookup_of_not_start h, if_neg]
            rintro ⟨rfl, -⟩
            exact h (List.prefix_append _ _)
    · next hc =>
      obtain ⟨x, xs, hx⟩ : ∃ x xs, pre.drop (commonSize pre seq) = x :: xs := by
        refine List.exists_cons_of_ne_nil fun e => hc ?_
        have := List.drop_eq_nil_iff.1 e
        omega
      have hpre : pre = pre.take (commonSize pre seq) ++ x :: xs := by
        rw [← hx, List.take_append_drop]
      have hseq : seq = pre.take (commonSize pre seq) ++ seq.drop (commonSize pre seq) := by
        rw [htake, List.take_append_drop]
      have hne := @drop_commonSize_ne pre seq x
      generalize hd : seq.drop (commonSize pre seq) = rest at *
      generalize hcm : pre.take (commonSize pre seq) = c at *
      rw [hx, List.headD_cons]
      -- the string is not in the tree yet: it leaves the bytes of the node
      have hzero : lookup (.node pre property children) seq = 0 := by
        apply lookup_of_not_start
        intro h
        rw [hpre, hseq, List.prefix_append_right_inj] at h
        cases rest with
        | nil => simp at h
        | cons y ys => exact hne hx rfl (List.cons_prefix_cons.1 h).1
      simp only [hzero, and_true]
      by_cases h : c <+: s
      · obtain ⟨tail, rfl⟩ := h
        have hold : ∀ b r, b ≠ x → lookup (.node pre property children) (c ++ b :: r) = 0 := by
          intro b r hb
          refine lookup_of_not_start fun h => hb ?_
          rw [hpre, List.prefix_append_right_inj] at h
          exact (List.cons_prefix_cons.1 h).1.symm
        have hnil : lookup (.node pre property children) c = 0 := by
          apply lookup_of_not_start
          intro h
          rw [hpre] at h
          have := h.length_le
          simp at this
        simp only [hseq, List.append_cancel_left_eq]
        cases rest with
        | nil =>
          show lookup (.node c p [(x, .node (x :: xs) property children)]) (c ++ tail) = _
          rw [lookup_split, ← hpre]
          cases tail with
          | nil => simp
          | cons b r =>
            by_cases hb : x = b
            · simp [hb]
            · simp [hb, lookupChild, hold b r (Ne.symm hb)]
        | cons y ys =>
          show lookup (.node c 0 [(x, .node (x :: xs) property children), (y, .node (y :: ys) p [])])
            (c ++ tail) = _
          rw [lookup_split, ← hpre]
          have hxy : x ≠ y := hne hx rfl
          cases tail with
          | nil => simp [hnil]
          | cons b r =>
            by_cases hb : x = b
            · have : ¬ (b = y ∧ r = ys) := fun e => hxy (hb.trans e.1)
              simp [hb, this]
            · simp only [hb, if_false, lookupChild, hold b r (Ne.symm hb), lookup_leaf]
              by_cases hy : y = b
              · simp [hy]
              · simp [hy, Ne.symm hy]
      · have hs : s ≠ seq := fun e => h (e ▸ hseq ▸ List.prefix_append _ _)
        have hs' : ¬ pre <+: s := fun e => h ((hpre ▸ List.prefix_append c _ : c <+: pre).trans e)
        rw [if_neg hs, lookup_of_not_start hs']
        cases rest <;> exact lookup_of_not_start h

theorem ok_leaf (pre : List Nat) (p : Nat) : Ok (.node pre p []) :=
  .node (fun _ h => by cases h) (fun _ h => by cases h)

/-- Adding a string keeps the tree well formed, and a child its first byte. -/
theorem ok_addLoop {t : RadixTree} (ht : t.Ok) (seq : List Nat) (p : Nat) :
    (t.addLoop seq p).2.Ok ∧
      ∀ k, t.pre.head? = some k → seq.head? = some k →
        (t.addLoop seq p).2.pre.head? = some k := by
  induction t using induct generalizing seq with
  | node pre property children ih =>
    obtain ⟨hhead, hok⟩ := ht
    have hchild : ∀ b r, ∀ x ∈ (addChild children b (b :: r) p).2,
        x.2.pre.head? = some x.1 ∧ x.2.Ok := by
      intro b r
      induction children with
      | nil =>
        intro x hx
        rw [List.mem_singleton.1 hx]
        exact ⟨rfl, ok_leaf _ _⟩
      | cons y children ihc =>
        obtain ⟨k, t⟩ := y
        have hmem := fun x (hx : x ∈ children) => List.mem_cons_of_mem (k, t) hx
        have h0 : (k, t) ∈ (k, t) :: children := List.mem_cons_self
        unfold addChild
        intro x hx
        split at hx
        · next hk =>
          rcases List.mem_cons.1 hx with rfl | hx
          · obtain ⟨h₁, h₂⟩ := ih _ h0 (hok _ h0) (b :: r)
            exact ⟨h₂ k (hhead _ h0) (by rw [hk]; rfl), h₁⟩
          · exact ⟨hhead x (hmem x hx), hok x (hmem x hx)⟩
        · rcases List.mem_cons.1 hx with rfl | hx
          · exact ⟨hhead _ h0, hok _ h0⟩
          · exact ihc (fun x hx => ih x (hmem x hx)) (fun x hx => hhead x (hmem x hx))
              (fun x hx => hok x (hmem x hx)) x hx
    have htake := take_commonSize pre seq
    have hcl := (commonSize_le pre seq).1
    rw [addLoop]
    split
    · next hc =>
      cases hd : seq.drop (commonSize pre seq) with
      | nil =>
        simp only
        split
        · exact ⟨.node hhead hok, fun k hk _ => hk⟩
        · exact ⟨.node hhead hok, fun k hk _ => hk⟩
      | cons b r =>
        simp only
        split
        · next hnil =>
          simp only [Bool.and_eq_true, List.isEmpty_iff, beq_iff_eq] at hnil
          refine ⟨ok_leaf _ _, fun k hk _ => ?_⟩
          rw [RadixTree.pre, hnil.1.1] at hk
          cases hk
        · have := hchild b r
          exact ⟨.node (fun x hx => (this x hx).1) (fun x hx => (this x hx).2), fun k hk _ => hk⟩
    · next hc =>
      obtain ⟨x, xs, hx⟩ : ∃ x xs, pre.drop (commonSize pre seq) = x :: xs := by
        refine List.exists_cons_of_ne_nil fun e => hc ?_
        have := List.drop_eq_nil_iff.1 e
        omega
      have hold : Ok (.node (x :: xs) property children) := .node hhead hok
      -- a common first byte stays in the upper node
      have hkeep : ∀ k, pre.head? = some k → seq.head? = some k →
          (pre.take (commonSize pre seq)).head? = some k := by
        intro k hk hk'
        cases pre with
        | nil => cases hk
        | cons a pre =>
          cases seq with
          | nil => cases hk'
          | cons c seq =>
            cases hk
            cases hk'
            simp [commonSize]
      rw [hx, List.headD_cons]
      cases hd : seq.drop (commonSize pre seq) with
      | nil =>
        refine ⟨.node (fun y hy => ?_) (fun y hy => ?_), hkeep⟩
        · rw [List.mem_singleton.1 hy]
          rfl
        · rw [List.mem_singleton.1 hy]
          exact hold
      | cons b r =>
        refine ⟨.node (fun y hy => ?_) (fun y hy => ?_), hkeep⟩
        · rcases List.mem_cons.1 hy with rfl | hy
          · rfl
          · rw [List.mem_singleton.1 hy]
            rfl
        · rcases List.mem_cons.1 hy with rfl | hy
          · exact hold
          · rw [List.mem_singleton.1 hy]
            exact ok_leaf _ _

theorem ok_add {t : RadixTree} (ht : t.Ok) (seq : List Nat) (p : Nat) : (t.add seq p).2.Ok := by
  unfold add
  split
  · exact ht
  split
  · exact ht
  split
  · exact ht
  · exact (ok_addLoop ht seq p).1

/-- `add` stores the string unless it is rejected or already there. -/
theorem lookup_add (t : RadixTree) (seq s : List Nat) {p : Nat} (hp : p ≠ 0) (hseq : seq ≠ [])
    (hsize : seq.length ≤ maxStringSize) :
    lookup (t.add seq p).2 s = if s = seq ∧ t.lookup seq = 0 then p else t.lookup s := by
  rw [add, if_neg (by simpa using hseq), if_neg hp, if_neg (Nat.not_lt.2 hsize)]
  exact lookup_addLoop seq s

/-- The strings of the tree are texts of one or more characters. -/
structure Texts (t : RadixTree) : Prop where
  ok : t.Ok
  texts : ∀ s, t.lookup s ≠ 0 → ∃ cs, cs ≠ [] ∧ CodePoints cs ∧ s = encode cs

theorem texts_nil : Texts .nil where
  ok := ok_leaf [] 0
  texts s h := by
    rw [nil, lookup_leaf] at h
    split at h <;> exact absurd rfl h

theorem Texts.lookup_nil {t : RadixTree} (h : t.Texts) : t.lookup [] = 0 := by
  by_contra hne
  obtain ⟨cs, hcs, hp, he⟩ := h.texts [] hne
  exact hcs (encode_inj hp codePoints_nil he.symm)

/-- A tree without a byte and without a child has no string. -/
theorem Texts.lookup_of_empty {t : RadixTree} (h : t.Texts) (he : t.empty = true) (s : List Nat) :
    t.lookup s = 0 := by
  obtain ⟨pre, property, children⟩ := t
  rw [empty, Bool.and_eq_true] at he
  have hpre : pre = [] := List.isEmpty_iff.1 he.1
  have hchildren : children = [] := List.isEmpty_iff.1 he.2
  subst hpre hchildren
  have hnil := h.lookup_nil
  rw [lookup_leaf, if_pos rfl] at hnil
  rw [lookup_leaf, hnil, ite_self]

theorem Texts.add {t : RadixTree} (h : t.Texts) {cs : List Nat} (hcs : CodePoints cs) (p : Nat) :
    (t.add (encode cs) p).2.Texts := by
  refine ⟨ok_add h.ok _ _, fun s hs => ?_⟩
  by_cases hne : encode cs = []
  · rw [RadixTree.add, if_pos (by simp [hne])] at hs
    exact h.texts s hs
  by_cases hp : p = 0
  · rw [RadixTree.add, if_neg (by simpa using hne), if_pos hp] at hs
    exact h.texts s hs
  by_cases hsize : (encode cs).length ≤ maxStringSize
  · rw [lookup_add t _ s hp hne hsize] at hs
    split at hs
    · next he => exact ⟨cs, fun e => hne (by rw [e]; rfl), hcs, he.1⟩
    · exact h.texts s hs
  · rw [RadixTree.add, if_neg (by simpa using hne), if_neg hp, if_pos (by omega)] at hs
    exact h.texts s hs

/-! ## Iteration -/

theorem mem_iterate {t : RadixTree} {s : List Nat} (h : t.lookup s ≠ 0) (buf : List Nat) :
    (buf ++ s, t.lookup s) ∈ t.iterate buf := by
  induction t using induct generalizing s buf with
  | node pre property children ih =>
    by_cases hpre : pre <+: s
    · obtain ⟨tail, rfl⟩ := hpre
      rw [lookup_append] at h ⊢
      rw [iterate, ← List.append_assoc]
      cases tail with
      | nil =>
        refine List.mem_append_left _ ?_
        rw [if_neg h, List.append_nil]
        exact List.mem_singleton.2 rfl
      | cons b rest =>
        refine List.mem_append_right _ ?_
        replace h : lookupChild children b (b :: rest) ≠ 0 := h
        show (_, lookupChild children b (b :: rest)) ∈ _
        induction children with
        | nil => exact absurd rfl h
        | cons x children ihc =>
          obtain ⟨k, t⟩ := x
          unfold lookupChild at h ⊢
          unfold iterateChildren
          split at h
          · next hk =>
            rw [if_pos hk]
            exact List.mem_append_left _ (ih (k, t) List.mem_cons_self h _)
          · next hk =>
            rw [if_neg hk]
            exact List.mem_append_right _ (ihc (fun y hy => ih y (List.mem_cons_of_mem _ hy)) h)
    · exact absurd (lookup_of_not_start hpre) h

theorem le_foldl_max {xs : List Nat} {x : Nat} (h : x ∈ xs) (m : Nat) : x ≤ xs.foldl max m := by
  have hle : ∀ (ys : List Nat) (m : Nat), m ≤ ys.foldl max m := by
    intro ys
    induction ys with
    | nil => exact fun m => Nat.le_refl m
    | cons y ys ih => exact fun m => Nat.le_trans (Nat.le_max_left m y) (ih _)
  induction xs generalizing m with
  | nil => cases h
  | cons y ys ih =>
    rcases List.mem_cons.1 h with rfl | h
    · exact Nat.le_trans (Nat.le_max_right m x) (hle ys _)
    · exact ih h _

theorem codePointCount_encode {cs : List Nat} (hcs : CodePoints cs) {fuel : Nat}
    (hf : cs.length ≤ fuel) : codePointCount fuel (encode cs) = cs.length := by
  induction cs generalizing fuel with
  | nil => cases fuel <;> rfl
  | cons c cs ih =>
    cases fuel with
    | zero => exact absurd hf (Nat.not_succ_le_zero _)
    | succ fuel =>
      have hpos := codePointToUtf8_length_pos hcs.cons.1
      have hne : encode (c :: cs) ≠ [] := by
        intro e
        have := congrArg List.length e
        simp only [encode_cons, List.length_append, List.length_nil] at this
        omega
      obtain ⟨b, bs, e⟩ := List.exists_cons_of_ne_nil hne
      have hdrop : (encode (c :: cs)).drop (max 1 (wtf8ValidateChar (encode (c :: cs)))) =
          encode cs := by
        rw [encode_cons, wtf8ValidateChar_append hcs.cons.1, Nat.max_eq_right hpos, List.drop_left]
      rw [e] at hdrop ⊢
      rw [codePointCount, hdrop, ih hcs.cons.2 (Nat.le_of_succ_le_succ hf), List.length_cons]

theorem length_le_encode {cs : List Nat} (hcs : CodePoints cs) : cs.length ≤ (encode cs).length := by
  induction cs with
  | nil => exact Nat.le_refl _
  | cons c cs ih =>
    have := codePointToUtf8_length_pos hcs.cons.1
    have := ih hcs.cons.2
    rw [encode_cons, List.length_append, List.length_cons]
    omega

/-- No string of the tree has more code points than `maxCodePointCount`. -/
theorem length_le_maxCodePointCount {t : RadixTree} {cs : List Nat} (hcs : CodePoints cs)
    (h : t.lookup (encode cs) ≠ 0) : cs.length ≤ t.maxCodePointCount := by
  have hmem := mem_iterate h []
  rw [List.nil_append] at hmem
  refine le_foldl_max (List.mem_map.2 ⟨_, hmem, ?_⟩) 0
  exact codePointCount_encode hcs (length_le_encode hcs)

end Arsh.RadixTree
