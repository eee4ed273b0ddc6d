import Arsh.Unicode.RadixLookup
import Mathlib.Data.List.Nodup
import Mathlib.Logic.Function.Basic

/-!
# The radix tree over whole runs

`RadixTree::remove`, and what any sequence of `add` and `remove` makes of an empty tree: it answers
and holds what a finite map does that is given the same calls (`runAll_refines`). `lookup` is
`RadixTree::find`. The tree stays compressed: a node without a property has two children at least,
which is why every node lies on the way to a string (`Wf.exists_string`).
-/

namespace Arsh.RadixTree

/-! ## Removing a string -/

/-- What `remove` leaves of a node that has lost its property or a child: a node without a property
and without children is cleared, and an only child is merged into a node without a property. -/
def shrink (pre : List Nat) (property : Nat) (children : List (Nat × RadixTree)) : RadixTree :=
  let pre := if children.isEmpty && property == 0 then [] else pre
  match property, children with
  | 0, [(_, .node childPre childProperty grandchildren)] =>
    .node (pre ++ childPre) childProperty grandchildren
  | property, children => .node pre property children

mutual

/-- The recursion of `remove`, `none` when there is nothing to do. -/
def removeFrom : RadixTree → List Nat → Option RadixTree
  | .node pre property children, seq =>
    if pre.isPrefixOf seq then
      match seq.drop pre.length with
      | [] => if property ≠ 0 then some (shrink pre 0 children) else none
      | b :: rest => (removeChild children b (b :: rest)).map (shrink pre property)
    else none

/-- The child for the byte `b`, which is erased when nothing is left of it. -/
def removeChild : List (Nat × RadixTree) → Nat → List Nat → Option (List (Nat × RadixTree))
  | [], _, _ => none
  | (k, t) :: children, b, seq =>
    if k = b then
      (removeFrom t seq).map fun t => if t.empty then children else (k, t) :: children
    else (removeChild children b seq).map ((k, t) :: ·)

end

def remove (t : RadixTree) (seq : List Nat) : Bool × RadixTree :=
  match t.removeFrom seq with
  | some t => (true, t)
  | none => (false, t)

/-! ## Compressed trees -/

/-- Every child has its own first byte, and a node without a property has two children at least. -/
inductive Wf : RadixTree → Prop
  | node {pre : List Nat} {property : Nat} {children : List (Nat × RadixTree)}
    (head : ∀ x ∈ children, x.2.pre.head? = some x.1) (keys : (children.map Prod.fst).Nodup)
    (branch : property ≠ 0 ∨ 2 ≤ children.length) (wf : ∀ x ∈ children, Wf x.2) :
    Wf (.node pre property children)

theorem Wf.ok {t : RadixTree} (h : t.Wf) : t.Ok := by
  induction h with
  | node head _ _ _ ih => exact .node head ih

theorem wf_leaf (pre : List Nat) {p : Nat} (hp : p ≠ 0) : Wf (.node pre p []) :=
  .node (fun _ h => by cases h) .nil (.inl hp) (fun _ h => by cases h)

theorem lookupChild_of_mem {children : List (Nat × RadixTree)} {x : Nat × RadixTree}
    (hkeys : (children.map Prod.fst).Nodup) (hx : x ∈ children) (s : List Nat) :
    lookupChild children x.1 s = x.2.lookup s := by
  induction children with
  | nil => cases hx
  | cons y children ih =>
    obtain ⟨k, t⟩ := y
    rw [List.map_cons, List.nodup_cons] at hkeys
    rw [lookupChild]
    rcases List.mem_cons.1 hx with rfl | hx
    · rw [if_pos rfl]
    · have hne : k ≠ x.1 := fun h => hkeys.1 (List.mem_map.2 ⟨x, hx, h.symm⟩)
      rw [if_neg hne, ih hkeys.2 hx]

theorem lookupChild_of_not_mem {children : List (Nat × RadixTree)} {b : Nat}
    (hb : b ∉ children.map Prod.fst) (s : List Nat) : lookupChild children b s = 0 := by
  induction children with
  | nil => rfl
  | cons y children ih =>
    obtain ⟨k, t⟩ := y
    rw [List.map_cons, List.mem_cons, not_or] at hb
    rw [lookupChild, if_neg (Ne.symm hb.1), ih hb.2]

/-- A string that does not begin with the first byte of the node. -/
theorem lookup_of_head_ne {t : RadixTree} {k b : Nat} {s : List Nat} (h : t.pre.head? = some k)
    (hne : k ≠ b) : t.lookup (b :: s) = 0 := by
  obtain ⟨pre, property, children⟩ := t
  refine lookup_of_not_start fun hpre => hne ?_
  cases pre with
  | nil => cases h
  | cons a pre =>
    cases h
    exact (List.cons_prefix_cons.1 hpre).1

/-- A string below a child is a string of the node. -/
theorem lookup_of_child {pre : List Nat} {property : Nat} {children : List (Nat × RadixTree)}
    {x : Nat × RadixTree} (hkeys : (children.map Prod.fst).Nodup) (hx : x ∈ children)
    (hhead : x.2.pre.head? = some x.1) {s : List Nat} (hs : x.2.lookup s ≠ 0) :
    lookup (.node pre property children) (pre ++ s) = x.2.lookup s := by
  rw [lookup_append]
  cases s with
  | nil =>
    obtain ⟨k, childPre, childProperty, grandchildren⟩ := x
    refine absurd (lookup_of_not_start fun h => ?_) hs
    rw [List.prefix_nil.1 h] at hhead
    cases hhead
  | cons b s =>
    have hb : x.1 = b := by
      by_contra hne
      exact hs (lookup_of_head_ne hhead hne)
    subst hb
    exact lookupChild_of_mem hkeys hx _

/-- Every node lies on the way to a string. -/
theorem Wf.exists_string {t : RadixTree} (h : t.Wf) : ∃ s, t.lookup (t.pre ++ s) ≠ 0 := by
  induction h with
  | @node pre property children head keys branch wf ih =>
    rcases branch with hp | hlen
    · refine ⟨[], ?_⟩
      rw [List.append_nil]
      exact (lookup_self pre property children).trans_ne hp
    · cases children with
      | nil => cases hlen
      | cons x children =>
        obtain ⟨s, hs⟩ := ih x List.mem_cons_self
        refine ⟨x.2.pre ++ s, ?_⟩
        have : lookup (.node pre property (x :: children)) (pre ++ (x.2.pre ++ s)) = _ :=
          lookup_of_child keys List.mem_cons_self (head x List.mem_cons_self) hs
        exact this.trans_ne hs

/-- A node with bytes of its own does not hold the empty string. -/
theorem lookup_nil_of_head {t : RadixTree} {k : Nat} (h : t.pre.head? = some k) :
    t.lookup [] = 0 := by
  obtain ⟨pre, property, children⟩ := t
  apply lookup_of_not_start
  intro hpre
  rw [List.prefix_nil.1 hpre] at h
  cases h

/-! ## What remains of a node -/

/-- `shrink` does not change what a node holds. -/
theorem lookup_shrink {pre : List Nat} {property : Nat} {children : List (Nat × RadixTree)}
    (head : ∀ x ∈ children, x.2.pre.head? = some x.1) (s : List Nat) :
    (shrink pre property children).lookup s = lookup (.node pre property children) s := by
  unfold shrink
  dsimp only
  split
  · next k childPre childProperty grandchildren =>
    have hk : childPre.head? = some k := head _ List.mem_cons_self
    rw [if_neg (by simp)]
    by_cases h : pre <+: s
    · obtain ⟨tail, rfl⟩ := h
      rw [lookup_append_node, lookup_append]
      cases tail with
      | nil => exact lookup_nil_of_head hk
      | cons b rest =>
        show _ = lookupChild [(k, .node childPre childProperty grandchildren)] b (b :: rest)
        rw [lookupChild, lookupChild]
        split
        · rfl
        · next hne => exact lookup_of_head_ne hk hne
    · rw [lookup_of_not_start h]
      exact lookup_of_not_start fun h' => h ((List.prefix_append _ _).trans h')
  · split
    · next hnil =>
      simp only [Bool.and_eq_true, List.isEmpty_iff, beq_iff_eq] at hnil
      obtain ⟨rfl, rfl⟩ := hnil
      rw [lookup_leaf, lookup_leaf, ite_self, ite_self]
    · rfl

/-- What is left of a node is compressed, or nothing. -/
theorem wf_shrink {pre : List Nat} {property : Nat} {children : List (Nat × RadixTree)}
    (head : ∀ x ∈ children, x.2.pre.head? = some x.1) (keys : (children.map Prod.fst).Nodup)
    (wf : ∀ x ∈ children, Wf x.2) :
    shrink pre property children = nil ∨ (shrink pre property children).Wf ∧
      ∀ k, pre.head? = some k → (shrink pre property children).pre.head? = some k := by
  unfold shrink
  dsimp only
  split
  · next k childPre childProperty grandchildren =>
    rw [if_neg (by simp)]
    cases wf _ List.mem_cons_self with
    | node head' keys' branch' wf' =>
      refine .inr ⟨.node head' keys' branch' wf', fun b hb => ?_⟩
      show (pre ++ childPre).head? = some b
      rw [List.head?_append, hb]
      rfl
  · next hone =>
    by_cases hp : property = 0
    · subst hp
      match children with
      | [] => exact .inl rfl
      | [(k, .node childPre childProperty grandchildren)] => exact absurd rfl (hone k _ _ _ rfl)
      | x :: y :: children =>
        refine .inr ⟨.node head keys (.inr ?_) wf, fun b hb => hb⟩
        exact Nat.le_add_left 2 children.length
    · rw [if_neg (by simp [hp])]
      exact .inr ⟨.node head keys (.inl hp) wf, fun b hb => hb⟩

/-- What the removal of `seq` makes of a tree. -/
def Removes (t : RadixTree) (seq : List Nat) : Option RadixTree → Prop
  | none => t.lookup seq = 0
  | some t' => t.lookup seq ≠ 0 ∧ (∀ s, t'.lookup s = if s = seq then 0 else t.lookup s) ∧
    (t' = nil ∨ t'.Wf ∧ ∀ k, t.pre.head? = some k → t'.pre.head? = some k)

/-- The children of a node after one of them has lost `seq`. -/
structure RemovesChild (children : List (Nat × RadixTree)) (b : Nat) (seq : List Nat)
    (rest : List (Nat × RadixTree)) : Prop where
  found : lookupChild children b seq ≠ 0
  head : ∀ x ∈ rest, x.2.pre.head? = some x.1
  keys : (rest.map Prod.fst).Sublist (children.map Prod.fst)
  wf : ∀ x ∈ rest, Wf x.2
  lookup : ∀ b' s, lookupChild rest b' s = if b' = b ∧ s = seq then 0 else lookupChild children b' s

/-- What the removal of `seq`, which begins with `b`, makes of the children of a node. -/
def RemovesAny (children : List (Nat × RadixTree)) (b : Nat) (seq : List Nat) :
    Option (List (Nat × RadixTree)) → Prop
  | none => lookupChild children b seq = 0
  | some rest => RemovesChild children b seq rest

theorem removeChild_spec {children : List (Nat × RadixTree)} {b : Nat} {seq : List Nat}
    (ih : ∀ x ∈ children, Removes x.2 seq (x.2.removeFrom seq))
    (head : ∀ x ∈ children, x.2.pre.head? = some x.1) (keys : (children.map Prod.fst).Nodup)
    (wf : ∀ x ∈ children, Wf x.2) :
    RemovesAny children b seq (removeChild children b seq) := by
  induction children with
  | nil => rfl
  | cons x children ihc =>
    obtain ⟨k, t⟩ := x
    obtain ⟨hx, htail⟩ := List.forall_mem_cons.1 ih
    obtain ⟨hhead, htails⟩ := List.forall_mem_cons.1 head
    obtain ⟨hwf, hwfs⟩ := List.forall_mem_cons.1 wf
    rw [List.map_cons, List.nodup_cons] at keys
    rw [removeChild]
    by_cases hk : k = b
    · rw [if_pos hk]
      subst hk
      cases hr : t.removeFrom seq with
      | none =>
        rw [hr] at hx
        show lookupChild ((k, t) :: children) k seq = 0
        rw [lookupChild, if_pos rfl]
        exact hx
      | some t' =>
        rw [hr] at hx
        obtain ⟨hfound, hlookup, hshape⟩ := hx
        have hfound' : lookupChild ((k, t) :: children) k seq ≠ 0 := by
          rwa [lookupChild, if_pos rfl]
        -- the child is erased when it has become empty, which only `nil` is
        have hempty : t'.empty = true ↔ t' = nil := by
          refine ⟨fun h => hshape.resolve_right fun hw => ?_, fun h => h ▸ rfl⟩
          have hne := hw.2 k hhead
          rw [empty, Bool.and_eq_true, List.isEmpty_iff] at h
          rw [h.1] at hne
          cases hne
        show RemovesChild _ _ _ (if t'.empty then children else (k, t') :: children)
        by_cases he : t' = nil
        · rw [if_pos (hempty.2 he)]
          refine ⟨hfound', htails, List.sublist_cons_self _ _, hwfs, fun b' s => ?_⟩
          rw [lookupChild]
          by_cases hb : k = b'
          · subst hb
            have hs := hlookup s
            rw [he, nil, lookup_leaf, ite_self] at hs
            rw [lookupChild_of_not_mem keys.1, if_pos rfl]
            simpa using hs
          · rw [if_neg hb, if_neg fun h => hb h.1.symm]
        · rw [if_neg fun h => he (hempty.1 h)]
          obtain ⟨hwf', hhead'⟩ := hshape.resolve_left he
          refine ⟨hfound', List.forall_mem_cons.2 ⟨hhead' k hhead, htails⟩, List.Sublist.refl _,
            List.forall_mem_cons.2 ⟨hwf', hwfs⟩, fun b' s => ?_⟩
          rw [lookupChild, lookupChild]
          by_cases hb : k = b'
          · subst hb
            rw [if_pos rfl, if_pos rfl, hlookup]
            simp
          · rw [if_neg hb, if_neg hb, if_neg fun h => hb h.1.symm]
    · rw [if_neg hk]
      have h := ihc htail htails keys.2 hwfs
      cases hr : removeChild children b seq with
      | none =>
        rw [hr] at h
        show lookupChild ((k, t) :: children) b seq = 0
        rw [lookupChild, if_neg hk]
        exact h
      | some rest =>
        rw [hr] at h
        refine (⟨?_, List.forall_mem_cons.2 ⟨hhead, h.head⟩, h.keys.cons_cons k,
          List.forall_mem_cons.2 ⟨hwf, h.wf⟩, fun b' s => ?_⟩ :
            RemovesChild ((k, t) :: children) b seq ((k, t) :: rest))
        · rw [lookupChild, if_neg hk]
          exact h.found
        · rw [lookupChild, lookupChild, h.lookup]
          by_cases hb : k = b'
          · rw [if_pos hb, if_pos hb, if_neg fun e => hk (hb.trans e.1)]
          · rw [if_neg hb, if_neg hb]

theorem removeFrom_spec {t : RadixTree} (ht : t.Wf) (seq : List Nat) :
    Removes t seq (t.removeFrom seq) := by
  induction t using induct generalizing seq with
  | node pre property children ih =>
    cases ht with
    | node head keys branch wf =>
      unfold removeFrom
      by_cases hpre : pre <+: seq
      · obtain ⟨tail, rfl⟩ := hpre
        rw [if_pos (List.isPrefixOf_iff_prefix.2 (List.prefix_append _ _)), List.drop_left]
        cases tail with
        | nil =>
          rw [List.append_nil]
          by_cases hp : property = 0
          · show Removes _ _ (if property ≠ 0 then _ else none)
            rw [if_neg fun h => h hp]
            exact (lookup_self pre property children).trans hp
          · show Removes _ _ (if property ≠ 0 then _ else none)
            rw [if_pos hp]
            refine ⟨(lookup_self pre property children).trans_ne hp, fun s => ?_,
              wf_shrink head keys wf⟩
            rw [lookup_shrink head]
            by_cases h : pre <+: s
            · obtain ⟨rest, rfl⟩ := h
              rw [lookup_append, lookup_append]
              cases rest <;> simp
            · rw [lookup_of_not_start h, lookup_of_not_start h, ite_self]
        | cons b rest =>
          have hspec := removeChild_spec (b := b)
            (fun x hx => ih x hx (wf x hx) (b :: rest)) head keys wf
          show Removes _ _ ((removeChild children b (b :: rest)).map (shrink pre property))
          cases hr : removeChild children b (b :: rest) with
          | none =>
            rw [hr] at hspec
            show lookup _ (pre ++ b :: rest) = 0
            rw [lookup_append]
            exact hspec
          | some children' =>
            rw [hr] at hspec
            refine ⟨?_, fun s => ?_, wf_shrink hspec.head (hspec.keys.nodup keys) hspec.wf⟩
            · rw [lookup_append]
              exact hspec.found
            · rw [lookup_shrink hspec.head]
              by_cases h : pre <+: s
              · obtain ⟨tail, rfl⟩ := h
                rw [lookup_append, lookup_append]
                cases tail with
                | nil => simp
                | cons b' s =>
                  simp only [hspec.lookup, List.append_cancel_left_eq, List.cons.injEq,
                    and_self_left]
              · have hne : s ≠ pre ++ b :: rest := fun e => h (e ▸ List.prefix_append _ _)
                rw [lookup_of_not_start h, if_neg hne, lookup_of_not_start h]
      · rw [if_neg fun e => hpre (List.isPrefixOf_iff_prefix.1 e)]
        exact lookup_of_not_start hpre

/-! ## Adding a string -/

theorem map_fst_addChild (children : List (Nat × RadixTree)) (b : Nat) (rest : List Nat) (p : Nat) :
    (addChild children b rest p).2.map Prod.fst =
      if b ∈ children.map Prod.fst then children.map Prod.fst
      else children.map Prod.fst ++ [b] := by
  induction children with
  | nil => rfl
  | cons x children ih =>
    obtain ⟨k, t⟩ := x
    rw [addChild]
    by_cases hk : k = b
    · subst hk
      rw [if_pos rfl, if_pos (List.mem_map_of_mem (f := Prod.fst) List.mem_cons_self)]
      rfl
    · rw [if_neg hk]
      show k :: (addChild children b rest p).2.map Prod.fst = _
      rw [ih]
      have hmem : b ∈ ((k, t) :: children).map Prod.fst ↔ b ∈ children.map Prod.fst :=
        List.mem_cons.trans (or_iff_right (Ne.symm hk))
      by_cases hb : b ∈ children.map Prod.fst
      · rw [if_pos hb, if_pos (hmem.2 hb)]
        rfl
      · rw [if_neg hb, if_neg fun h => hb (hmem.1 h)]
        rfl

theorem nodup_addChild {children : List (Nat × RadixTree)} (keys : (children.map Prod.fst).Nodup)
    (b : Nat) (rest : List Nat) (p : Nat) :
    ((addChild children b rest p).2.map Prod.fst).Nodup := by
  rw [map_fst_addChild]
  split
  · exact keys
  · next hb =>
    rw [List.nodup_append_comm]
    exact List.nodup_cons.2 ⟨hb, keys⟩

theorem length_addChild (children : List (Nat × RadixTree)) (b : Nat) (rest : List Nat) (p : Nat) :
    children.length ≤ (addChild children b rest p).2.length := by
  have := congrArg List.length (map_fst_addChild children b rest p)
  rw [List.length_map] at this
  rw [this]
  split
  · rw [List.length_map]
  · rw [List.length_append, List.length_map]
    exact Nat.le_add_right _ _

/-- A child after an addition is one from before, one with the string added, or a new leaf. -/
theorem mem_addChild {children : List (Nat × RadixTree)} {b p : Nat} {rest : List Nat}
    {x : Nat × RadixTree} (hx : x ∈ (addChild children b rest p).2) :
    x ∈ children ∨ (∃ t, (b, t) ∈ children ∧ x = (b, (t.addLoop rest p).2)) ∨
      x = (b, .node rest p []) := by
  induction children with
  | nil => exact .inr (.inr (List.mem_singleton.1 hx))
  | cons y children ih =>
    obtain ⟨k, t⟩ := y
    rw [addChild] at hx
    by_cases hk : k = b
    · subst hk
      rw [if_pos rfl] at hx
      rcases List.mem_cons.1 hx with rfl | hx
      · exact .inr (.inl ⟨t, List.mem_cons_self, rfl⟩)
      · exact .inl (List.mem_cons_of_mem _ hx)
    · rw [if_neg hk] at hx
      rcases List.mem_cons.1 hx with rfl | hx
      · exact .inl List.mem_cons_self
      · rcases ih hx with h | ⟨t, h, rfl⟩ | h
        · exact .inl (List.mem_cons_of_mem _ h)
        · exact .inr (.inl ⟨t, List.mem_cons_of_mem _ h, rfl⟩)
        · exact .inr (.inr h)

theorem wf_addLoop {t : RadixTree} (ht : t.Wf) (seq : List Nat) {p : Nat} (hp : p ≠ 0) :
    (t.addLoop seq p).2.Wf := by
  induction t using induct generalizing seq with
  | node pre property children ih =>
    cases ht with
    | node head keys branch wf =>
      rw [addLoop]
      split
      · cases hd : seq.drop (commonSize pre seq) with
        | nil =>
          dsimp only
          split
          · exact .node head keys (.inl hp) wf
          · exact .node head keys branch wf
        | cons b r =>
          dsimp only
          split
          · exact wf_leaf _ hp
          · have hmem : ∀ x ∈ (addChild children b (b :: r) p).2,
                x.2.pre.head? = some x.1 ∧ x.2.Wf := by
              intro x hx
              rcases mem_addChild hx with hx | ⟨t, ht, rfl⟩ | rfl
              · exact ⟨head x hx, wf x hx⟩
              · exact ⟨(ok_addLoop (wf _ ht).ok (b :: r) p).2 b (head _ ht) rfl,
                  ih (b, t) ht (wf _ ht) (b :: r)⟩
              · exact ⟨rfl, wf_leaf _ hp⟩
            refine .node (fun x hx => (hmem x hx).1) (nodup_addChild keys b _ p)
              (branch.imp_right fun h => h.trans (length_addChild children b _ p))
              fun x hx => (hmem x hx).2
      · next hc =>
        have hcl := (commonSize_le pre seq).1
        obtain ⟨x, xs, hx⟩ : ∃ x xs, pre.drop (commonSize pre seq) = x :: xs := by
          refine List.exists_cons_of_ne_nil fun e => hc ?_
          have := List.drop_eq_nil_iff.1 e
          omega
        have hchild : Wf (.node (x :: xs) property children) := .node head keys branch wf
        rw [hx, List.headD_cons]
        cases hd : seq.drop (commonSize pre seq) with
        | nil =>
          exact .node (List.forall_mem_singleton.2 rfl) (List.nodup_singleton x) (.inl hp)
            (List.forall_mem_singleton.2 hchild)
        | cons b r =>
          have hne : x ≠ b := drop_commonSize_ne hx hd
          refine .node ?_ ?_ (.inr (Nat.le_refl 2)) ?_
          · exact List.forall_mem_cons.2 ⟨rfl, List.forall_mem_singleton.2 rfl⟩
          · exact List.nodup_cons.2 ⟨fun h => hne (List.mem_singleton.1 h), List.nodup_singleton b⟩
          · exact List.forall_mem_cons.2 ⟨hchild, List.forall_mem_singleton.2 (wf_leaf _ hp)⟩

theorem status_addChild {children : List (Nat × RadixTree)} {b p : Nat} {rest : List Nat}
    (ih : ∀ x ∈ children, (x.2.addLoop rest p).1 = if x.2.lookup rest = 0 then .ok else .added) :
    (addChild children b rest p).1 =
      if lookupChild children b rest = 0 then .ok else .added := by
  induction children with
  | nil => rfl
  | cons x children ihc =>
    obtain ⟨k, t⟩ := x
    obtain ⟨hx, htail⟩ := List.forall_mem_cons.1 ih
    rw [addChild, lookupChild]
    by_cases hk : k = b
    · rw [if_pos hk, if_pos hk]
      exact hx
    · rw [if_neg hk, if_neg hk]
      exact ihc htail

/-- `add` tells whether the string is new. -/
theorem status_addLoop (t : RadixTree) (seq : List Nat) (p : Nat) :
    (t.addLoop seq p).1 = if t.lookup seq = 0 then .ok else .added := by
  induction t using induct generalizing seq with
  | node pre property children ih =>
    have htake := take_commonSize pre seq
    have hcl := (commonSize_le pre seq).1
    rw [addLoop]
    split
    · next hc =>
      rw [hc, List.take_length] at htake
      obtain ⟨rest, rfl⟩ : ∃ rest, seq = pre ++ rest :=
        ⟨seq.drop pre.length, by conv_lhs => rw [← List.take_append_drop pre.length seq, ← htake]⟩
      rw [hc, List.drop_left, lookup_append]
      cases rest with
      | nil =>
        dsimp only
        split <;> rfl
      | cons b r =>
        dsimp only
        split
        · next hnil =>
          simp only [Bool.and_eq_true, List.isEmpty_iff] at hnil
          rw [hnil.1.2]
          rfl
        · exact status_addChild fun x hx => ih x hx (b :: r)
    · next hc =>
      have hzero : lookup (.node pre property children) seq = 0 := by
        refine lookup_of_not_start fun h => hc ?_
        obtain ⟨rest, rfl⟩ := h
        clear ih htake hcl hc
        induction pre with
        | nil => rfl
        | cons a pre ih =>
          rw [List.cons_append, commonSize, if_pos rfl, ih, List.length_cons]
      rw [hzero]
      cases seq.drop (commonSize pre seq) <;> rfl

/-! ## Iteration -/

/-- `iterate` shows the strings of the tree with their properties, and nothing else. -/
theorem mem_iterate_iff {t : RadixTree} (ht : t.Wf) {buf s : List Nat} {p : Nat} :
    (s, p) ∈ t.iterate buf ↔ ∃ tail, s = buf ++ tail ∧ t.lookup tail = p ∧ p ≠ 0 := by
  constructor
  · intro h
    induction t using induct generalizing buf with
    | node pre property children ih =>
      cases ht with
      | node head keys branch wf =>
        rw [iterate] at h
        rcases List.mem_append.1 h with h | h
        · split at h
          · cases h
          · next hp =>
            cases List.mem_singleton.1 h
            exact ⟨pre, rfl, lookup_self _ _ _, hp⟩
        · have hchild : ∃ x ∈ children, (s, p) ∈ x.2.iterate (buf ++ pre) := by
            clear ih head keys branch wf
            induction children with
            | nil => cases h
            | cons x children ihc =>
              rcases List.mem_append.1 h with h | h
              · exact ⟨x, List.mem_cons_self, h⟩
              · obtain ⟨y, hy, hmem⟩ := ihc (List.mem_append_right _ h) h
                exact ⟨y, List.mem_cons_of_mem _ hy, hmem⟩
          obtain ⟨x, hx, hmem⟩ := hchild
          obtain ⟨tail, rfl, rfl, hp⟩ := ih x hx (wf x hx) hmem
          exact ⟨pre ++ tail, List.append_assoc buf pre tail,
            lookup_of_child keys hx (head x hx) hp, hp⟩
  · rintro ⟨tail, rfl, rfl, hp⟩
    exact mem_iterate hp buf

/-- No string is shown twice. -/
theorem nodup_iterate {t : RadixTree} (ht : t.Wf) (buf : List Nat) :
    ((t.iterate buf).map Prod.fst).Nodup := by
  induction t using induct generalizing buf with
  | node pre property children ih =>
    cases ht with
    | node head keys branch wf =>
      -- below a child every string goes on with the byte of the child
      have hstart : ∀ x ∈ children, ∀ s ∈ (x.2.iterate (buf ++ pre)).map Prod.fst,
          ∃ tail, s = buf ++ pre ++ x.1 :: tail := by
        intro x hx s hs
        obtain ⟨⟨s, p⟩, hmem, rfl⟩ := List.mem_map.1 hs
        obtain ⟨tail, rfl, rfl, hp⟩ := (mem_iterate_iff (wf x hx)).1 hmem
        cases tail with
        | nil => exact absurd (lookup_nil_of_head (head x hx)) hp
        | cons b tail =>
          have hb : x.1 = b := by
            by_contra hne
            exact hp (lookup_of_head_ne (head x hx) hne)
          exact ⟨tail, by rw [hb]⟩
      have hchildren : ((iterateChildren (buf ++ pre) children).map Prod.fst).Nodup ∧
          ∀ s ∈ (iterateChildren (buf ++ pre) children).map Prod.fst,
            ∃ x ∈ children, ∃ tail, s = buf ++ pre ++ x.1 :: tail := by
        clear branch head
        induction children with
        | nil => exact ⟨.nil, fun s hs => by cases hs⟩
        | cons x children ihc =>
          obtain ⟨hx, hxs⟩ := List.forall_mem_cons.1 hstart
          obtain ⟨hnodup, hmem⟩ := ihc (fun y hy => ih y (List.mem_cons_of_mem _ hy))
            (List.nodup_cons.1 keys).2 (fun y hy => wf y (List.mem_cons_of_mem _ hy)) hxs
          rw [iterateChildren, List.map_append]
          refine ⟨List.nodup_append.2 ⟨ih x List.mem_cons_self (wf x List.mem_cons_self) _, hnodup,
            ?_⟩, fun s hs => ?_⟩
          · rintro s hs _ hs' rfl
            obtain ⟨tail, rfl⟩ := hx s hs
            obtain ⟨y, hy, tail', heq⟩ := hmem _ hs'
            rw [List.append_cancel_left_eq, List.cons.injEq] at heq
            exact (List.nodup_cons.1 keys).1 (List.mem_map.2 ⟨y, hy, heq.1.symm⟩)
          · rcases List.mem_append.1 hs with hs | hs
            · exact ⟨x, List.mem_cons_self, hx s hs⟩
            · obtain ⟨y, hy, h⟩ := hmem s hs
              exact ⟨y, List.mem_cons_of_mem _ hy, h⟩
      rw [iterate, List.map_append]
      refine List.nodup_append.2 ⟨?_, hchildren.1, ?_⟩
      · split
        · exact .nil
        · exact List.nodup_singleton _
      · rintro s hs _ hs' rfl
        obtain ⟨x, -, tail, rfl⟩ := hchildren.2 s hs'
        split at hs
        · cases hs
        · have := congrArg List.length (List.mem_singleton.1 hs)
          simp at this

/-! ## Whole runs -/

/-- A call that changes the tree. -/
inductive Op where
  | add (seq : List Nat) (p : Nat)
  | remove (seq : List Nat)

/-- What a call answers. -/
inductive Reply where
  | added (status : AddStatus)
  | removed (r : Bool)
  deriving DecidableEq, Repr

def Op.run (t : RadixTree) : Op → Reply × RadixTree
  | .add seq p => (.added (t.add seq p).1, (t.add seq p).2)
  | .remove seq => (.removed (t.remove seq).1, (t.remove seq).2)

/-- The call on a finite map from strings to properties, where `0` stands for no property. -/
def Op.spec (m : List Nat → Nat) : Op → Reply × (List Nat → Nat)
  | .add seq p =>
    if seq = [] then (.added .empty, m)
    else if p = 0 then (.added .noneProperty, m)
    else if seq.length > maxStringSize then (.added .tooLarge, m)
    else if m seq = 0 then (.added .ok, Function.update m seq p)
    else (.added .added, m)
  | .remove seq => (.removed (decide (m seq ≠ 0)), Function.update m seq 0)

/-- The answers of a sequence of calls, and the tree after it. -/
def runAll (t : RadixTree) : List Op → List Reply × RadixTree
  | [] => ([], t)
  | op :: ops =>
    let (reply, t) := op.run t
    let (replies, t) := runAll t ops
    (reply :: replies, t)

def specAll (m : List Nat → Nat) : List Op → List Reply × (List Nat → Nat)
  | [] => ([], m)
  | op :: ops =>
    let (reply, m) := op.spec m
    let (replies, m) := specAll m ops
    (reply :: replies, m)

/-- The tree of a run: no string, or a compressed tree. -/
def Sound (t : RadixTree) : Prop := t = nil ∨ t.Wf

theorem lookup_nil (s : List Nat) : nil.lookup s = 0 := by
  rw [nil, lookup_leaf, ite_self]

theorem Sound.add {t : RadixTree} (h : t.Sound) (seq : List Nat) (p : Nat) :
    (t.add seq p).2.Sound := by
  unfold RadixTree.add
  split
  · exact h
  split
  · exact h
  split
  · exact h
  · next hseq hp _ =>
    rcases h with rfl | h
    · cases seq with
      | nil => exact absurd rfl hseq
      | cons b seq => exact .inr (wf_leaf _ hp)
    · exact .inr (wf_addLoop h seq hp)

/-- `remove` takes the string out of the tree. -/
theorem Sound.remove {t : RadixTree} (h : t.Sound) (seq : List Nat) :
    (t.remove seq).2.Sound ∧ (t.remove seq).1 = decide (t.lookup seq ≠ 0) ∧
      (t.remove seq).2.lookup = Function.update t.lookup seq 0 := by
  have hsame : t.lookup seq = 0 → t.lookup = Function.update t.lookup seq 0 :=
    fun h0 => (Function.update_eq_self_iff.2 h0.symm).symm
  have hr : Removes t seq (t.removeFrom seq) ∨ t = nil := by
    rcases h with rfl | h
    · exact .inr rfl
    · exact .inl (removeFrom_spec h seq)
  unfold RadixTree.remove
  rcases hr with hr | rfl
  · cases hf : t.removeFrom seq with
    | none =>
      rw [hf] at hr
      exact ⟨h, (decide_eq_false fun hne => hne hr).symm, hsame hr⟩
    | some t' =>
      rw [hf] at hr
      obtain ⟨hne, hlookup, hshape⟩ := hr
      refine ⟨hshape.imp_right And.left, (decide_eq_true hne).symm, funext fun s => ?_⟩
      rw [Function.update_apply]
      exact hlookup s
  · have hnone : nil.removeFrom seq = none := by
      cases seq <;> rfl
    rw [hnone]
    exact ⟨h, (decide_eq_false fun hne => hne (lookup_nil seq)).symm, hsame (lookup_nil seq)⟩

theorem Sound.run {t : RadixTree} (h : t.Sound) (op : Op) :
    (op.run t).2.Sound ∧ (op.run t).1 = (op.spec t.lookup).1 ∧
      (op.run t).2.lookup = (op.spec t.lookup).2 := by
  cases op with
  | add seq p =>
    refine ⟨h.add seq p, ?_⟩
    unfold Op.run Op.spec RadixTree.add
    cases seq with
    | nil => exact ⟨rfl, rfl⟩
    | cons b seq =>
      dsimp only [List.isEmpty_cons]
      rw [if_neg Bool.false_ne_true, if_neg (List.cons_ne_nil b seq)]
      by_cases hp : p = 0
      · rw [if_pos hp, if_pos hp]
        exact ⟨rfl, rfl⟩
      rw [if_neg hp, if_neg hp]
      by_cases hsize : (b :: seq).length > maxStringSize
      · rw [if_pos hsize, if_pos hsize]
        exact ⟨rfl, rfl⟩
      rw [if_neg hsize, if_neg hsize, status_addLoop]
      by_cases hnew : t.lookup (b :: seq) = 0
      · rw [if_pos hnew, if_pos hnew]
        refine ⟨rfl, funext fun s => ?_⟩
        rw [lookup_addLoop]
        simp only [hnew, and_true, Function.update_apply]
      · rw [if_neg hnew, if_neg hnew]
        refine ⟨rfl, funext fun s => ?_⟩
        rw [lookup_addLoop, if_neg fun e => hnew e.2]
  | remove seq =>
    obtain ⟨hsound, hreply, hlookup⟩ := h.remove seq
    exact ⟨hsound, congrArg Reply.removed hreply, hlookup⟩

theorem Sound.runAll {t : RadixTree} (h : t.Sound) (ops : List Op) :
    (t.runAll ops).2.Sound ∧ (t.runAll ops).1 = (specAll t.lookup ops).1 ∧
      (t.runAll ops).2.lookup = (specAll t.lookup ops).2 := by
  induction ops generalizing t with
  | nil => exact ⟨h, rfl, rfl⟩
  | cons op ops ih =>
    obtain ⟨hsound, hreply, hlookup⟩ := h.run op
    obtain ⟨hsound', hreplies, hlookup'⟩ := ih hsound
    rw [hlookup] at hreplies hlookup'
    exact ⟨hsound', congrArg₂ List.cons hreply hreplies, hlookup'⟩

theorem Sound.mem_iterate_iff {t : RadixTree} (h : t.Sound) {s : List Nat} {p : Nat} :
    (s, p) ∈ t.iterate [] ↔ p ≠ 0 ∧ t.lookup s = p := by
  rcases h with rfl | h
  · refine ⟨fun hmem => ?_, fun hl => absurd (hl.2.symm.trans (lookup_nil s)) hl.1⟩
    cases hmem
  · rw [RadixTree.mem_iterate_iff h]
    constructor
    · rintro ⟨tail, rfl, hl, hp⟩
      exact ⟨hp, hl⟩
    · rintro ⟨hp, hl⟩
      exact ⟨s, rfl, hl, hp⟩

theorem Sound.nodup_iterate {t : RadixTree} (h : t.Sound) :
    ((t.iterate []).map Prod.fst).Nodup := by
  rcases h with rfl | h
  · exact .nil
  · exact RadixTree.nodup_iterate h []

/-- After any calls of `add` and `remove` the tree has answered what a finite map answers, it finds
the strings of the map with their properties, and `iterate` shows each of them once. -/
theorem runAll_refines (ops : List Op) :
    (runAll nil ops).1 = (specAll (fun _ => 0) ops).1 ∧
      (runAll nil ops).2.lookup = (specAll (fun _ => 0) ops).2 ∧
      (∀ s p, (s, p) ∈ (runAll nil ops).2.iterate [] ↔
        p ≠ 0 ∧ (specAll (fun _ => 0) ops).2 s = p) ∧
      (((runAll nil ops).2.iterate []).map Prod.fst).Nodup := by
  obtain ⟨hsound, hreplies, hlookup⟩ := Sound.runAll (.inl rfl) ops
  rw [funext lookup_nil] at hreplies hlookup
  exact ⟨hreplies, hlookup, fun s p => hlookup ▸ hsound.mem_iterate_iff, hsound.nodup_iterate⟩

end Arsh.RadixTree
