import Arsh.Scope.Tree

/-!
# Slots of local variables

A block takes slots from where the block around it was when it was entered. As long as it is open,
the block around it does not change, so the slots of all open blocks of a function are disjoint.
After it is left its slots are free again, but the count of the function remembers them.
-/

namespace Arsh.Scope.Scopes

open Arsh.Types Arsh.Assoc

variable {s t : Scopes} {a b f p : Nat} {name : Types.Text}

/-- What the slots of blocks are. A block that is open begins where the one around it ends. -/
structure Slots (s : Scopes) : Prop where
  heap : ∀ a n p, s.find a n = some p → p < s.heapSize
  size : ∀ a, (s.scopes a).kind = .block → (s.scopes a).localSize ≤ (s.scopes a).curLocalIndex
  slot : ∀ a n p, (s.scopes a).kind = .block → s.find a n = some p →
    (s.heap p).kind ≠ .typeAlias →
    (s.scopes a).getBaseIndex ≤ (s.heap p).index ∧ (s.heap p).index < (s.scopes a).curLocalIndex
  inj : ∀ a n m p q, (s.scopes a).kind = .block → s.find a n = some p → s.find a m = some q →
    (s.heap p).kind ≠ .typeAlias → (s.heap q).kind ≠ .typeAlias →
    (s.heap p).index = (s.heap q).index → n = m
  max : ∀ a f, (s.scopes a).kind = .block → (s.scopes a).maxVarCount = .curLocalIndex f →
    (s.scopes a).curLocalIndex ≤ (s.scopes f).curLocalIndex
  base : ∀ a ∈ s.ancestors s.cur, (s.scopes a).kind = .block → ∀ b, (s.scopes a).parent = some b →
    (s.scopes b).kind = .block → (s.scopes a).getBaseIndex = (s.scopes b).curLocalIndex

/-- A change that gives no slots. -/
structure SlotFrame (s t : Scopes) : Prop where
  shape : SameShape s t
  heapSize : s.heapSize ≤ t.heapSize
  heap : ∀ p, p < s.heapSize → (t.heap p).index = (s.heap p).index ∧
    ((t.heap p).kind = .typeAlias ↔ (s.heap p).kind = .typeAlias)
  find : ∀ a n p, t.find a n = some p → p < t.heapSize ∧
    ((s.scopes a).kind = .block → (t.heap p).kind ≠ .typeAlias → s.find a n = some p)
  block : ∀ a, (s.scopes a).kind = .block → (t.scopes a).localSize = (s.scopes a).localSize ∧
    (t.scopes a).curLocalIndex = (s.scopes a).curLocalIndex
  index : ∀ a, (s.scopes a).curLocalIndex ≤ (t.scopes a).curLocalIndex

theorem SlotFrame.base (h : SlotFrame s t) (ha : (s.scopes a).kind = .block) :
    (t.scopes a).getBaseIndex = (s.scopes a).getBaseIndex := by
  unfold NameScope.getBaseIndex
  rw [(h.block a ha).1, (h.block a ha).2]

theorem Slots.frame (ht : Tree s) (h : Slots s) (hst : SlotFrame s t) : Slots t where
  heap a n p hp := (hst.find a n p hp).1
  size a ha := by
    rw [hst.shape.kind] at ha
    rw [(hst.block a ha).1, (hst.block a ha).2]
    exact h.size a ha
  slot a n p ha hp hk := by
    rw [hst.shape.kind] at ha
    have hs := (hst.find a n p hp).2 ha hk
    have hheap := hst.heap p (h.heap a n p hs)
    rw [hst.base ha, (hst.block a ha).2, hheap.1]
    exact h.slot a n p ha hs fun hk' => hk (hheap.2.2 hk')
  inj a n m p q ha hp hq hkp hkq heq := by
    rw [hst.shape.kind] at ha
    have hsp := (hst.find a n p hp).2 ha hkp
    have hsq := (hst.find a m q hq).2 ha hkq
    have hheapp := hst.heap p (h.heap a n p hsp)
    have hheapq := hst.heap q (h.heap a m q hsq)
    rw [hheapp.1, hheapq.1] at heq
    exact h.inj a n m p q ha hsp hsq (fun hk => hkp (hheapp.2.2 hk))
      (fun hk => hkq (hheapq.2.2 hk)) heq
  max a f ha hf := by
    rw [hst.shape.kind] at ha
    rw [hst.shape.count] at hf
    rw [(hst.block a ha).2]
    exact Nat.le_trans (h.max a f ha hf) (hst.index f)
  base a hmem ha b hb hkb := by
    rw [hst.shape.cur, ht.ancestors_sameShape hst.shape] at hmem
    rw [hst.shape.kind] at ha hkb
    rw [hst.shape.parent] at hb
    rw [hst.base ha, (hst.block b hkb).2]
    exact h.base a hmem ha b hb hkb

theorem Slots.push (ht : Tree s) (h : Slots s) {scope : NameScope} (he : Enters s scope) :
    Slots (s.push scope) := by
  refine ⟨?_, ?_, ?_, ?_, ?_, ?_⟩
  · intro a n p hp
    exact h.heap a n p (he.find hp).2
  · intro a hk
    by_cases ha : a = s.scopeSize
    · rw [ha, push_new, he.localSize]
      omega
    · rw [push_old ha] at hk ⊢
      exact h.size a hk
  · intro a n p hk hp hka
    obtain ⟨ha, hp⟩ := he.find hp
    rw [push_old ha] at hk ⊢
    exact h.slot a n p hk hp hka
  · intro a n m p q hk hp hq hkp hkq heq
    obtain ⟨ha, hp⟩ := he.find hp
    rw [push_old ha] at hk
    exact h.inj a n m p q hk hp (he.find hq).2 hkp hkq heq
  · intro a f hk hf
    by_cases ha : a = s.scopeSize
    · rw [ha, push_new] at hk hf ⊢
      obtain ⟨b, hb, hcount⟩ := he.fits.block hk
      rw [he.parent (by rw [hk]; decide)] at hb
      cases hb
      rw [hcount] at hf
      rw [he.index hk]
      split at hf
      · next hcb =>
        obtain ⟨g, hg, hlt, -⟩ := ht.count_of_block hcb
        rw [hg] at hf
        cases hf
        have := ht.cur_lt
        rw [push_old (by omega), if_pos hcb]
        exact h.max _ _ hcb hg
      · next hcb =>
        rw [if_neg hcb]
        omega
    · rw [push_old ha] at hk hf ⊢
      obtain ⟨g, hg, hlt, -⟩ := ht.count_of_block hk
      rw [hg] at hf
      cases hf
      have : a < s.scopeSize := ht.lt_scopeSize (by rw [hk]; decide)
      rw [push_old (by omega)]
      exact h.max a _ hk hg
  · intro a hmem hk b hb hkb
    have hcur := ht.cur_lt
    rcases ht.mem_push_ancestors he hmem with rfl | hglobal | hmem
    · rw [push_new] at hk hb ⊢
      rw [he.parent (by rw [hk]; decide)] at hb
      cases hb
      rw [push_old (by omega)] at hkb ⊢
      unfold NameScope.getBaseIndex
      rw [he.localSize, he.index hk, if_pos hkb]
      rfl
    · rw [hk] at hglobal
      cases hglobal
    · have := ht.mem_ancestors_le hmem
      rw [push_old (by omega)] at hk hb ⊢
      have := ht.lower a b hb
      rw [push_old (by omega)] at hkb ⊢
      exact h.base a hmem hk b hb hkb

/-- Another scope becomes the current one. -/
theorem Slots.setCur (h : Slots s) (ha : ∀ x ∈ s.ancestors a, (s.scopes x).kind = .block →
    x ∈ s.ancestors s.cur) {n : Nat} : Slots { s with cur := a, gvarCount := n } :=
  ⟨h.heap, h.size, h.slot, h.inj, h.max, fun x hx hk => h.base x (ha x hx hk) hk⟩

/-! ## A local variable -/

/-- The state after a local variable was added. -/
def defineLocal (s : Scopes) (name : Types.Text) (handle : Handle) : Scopes :=
  ((s.alloc handle).addEntry s.cur name s.heapSize).addLocal s.cur

section
variable (name : Types.Text) (handle : Handle) (ht : Tree s) (hk : (s.scopes s.cur).kind = .block)
  (hf : (s.scopes s.cur).maxVarCount = .curLocalIndex f)
include ht hk hf

theorem defineLocal_scopes : (s.defineLocal name handle).scopes =
    Function.update
      (Function.update s.scopes s.cur ((s.scopes s.cur).addEntry name s.heapSize).addLocal) f
      { s.scopes f with
        curLocalIndex := max (s.scopes f).curLocalIndex ((s.scopes s.cur).curLocalIndex + 1) } := by
  obtain ⟨g, hg, hlt, -⟩ := ht.count_of_block hk
  rw [hf] at hg
  cases hg
  have hne : f ≠ s.cur := by omega
  have hcur : ((s.alloc handle).addEntry s.cur name s.heapSize).scopes s.cur =
      (s.scopes s.cur).addEntry name s.heapSize := Function.update_self _ _ _
  have hother : ((s.alloc handle).addEntry s.cur name s.heapSize).scopes f = s.scopes f :=
    Function.update_of_ne hne _ _
  have hcount : ((s.scopes s.cur).addEntry name s.heapSize).addLocal.maxVarCount =
      .curLocalIndex f := hf
  unfold defineLocal addLocal
  dsimp only
  rw [hcur, hcount]
  unfold setCount getCount setScope
  dsimp only
  rw [Function.update_of_ne hne, hother]
  unfold addEntry setScope alloc
  dsimp only
  rw [Function.update_idem]
  rfl

theorem defineLocal_cur : (s.defineLocal name handle).scopes s.cur =
    ((s.scopes s.cur).addEntry name s.heapSize).addLocal := by
  obtain ⟨g, hg, hlt, -⟩ := ht.count_of_block hk
  rw [hf] at hg
  cases hg
  rw [defineLocal_scopes name handle ht hk hf, Function.update_of_ne (by omega), Function.update_self]

theorem defineLocal_func : (s.defineLocal name handle).scopes f =
    { s.scopes f with
      curLocalIndex := max (s.scopes f).curLocalIndex ((s.scopes s.cur).curLocalIndex + 1) } := by
  rw [defineLocal_scopes name handle ht hk hf, Function.update_self]

theorem defineLocal_other (hc : a ≠ s.cur) (ha : a ≠ f) :
    (s.defineLocal name handle).scopes a = s.scopes a := by
  rw [defineLocal_scopes name handle ht hk hf, Function.update_of_ne ha, Function.update_of_ne hc]

theorem sameShape_defineLocal : SameShape s (s.defineLocal name handle) := by
  obtain ⟨g, hg, hlt, -⟩ := ht.count_of_block hk
  rw [hf] at hg
  cases hg
  have hcur := ht.cur_lt
  have hscope : ∀ a, ((s.defineLocal name handle).scopes a).kind = (s.scopes a).kind ∧
      ((s.defineLocal name handle).scopes a).parent = (s.scopes a).parent ∧
      ((s.defineLocal name handle).scopes a).maxVarCount = (s.scopes a).maxVarCount := by
    intro a
    by_cases hc : a = s.cur
    · rw [hc, defineLocal_cur name handle ht hk hf]
      exact ⟨rfl, rfl, rfl⟩
    · by_cases ha : a = f
      · rw [ha, defineLocal_func name handle ht hk hf]
        exact ⟨rfl, rfl, rfl⟩
      · rw [defineLocal_other name handle ht hk hf hc ha]
        exact ⟨rfl, rfl, rfl⟩
  have hset : ∀ (u : Scopes) r n, (u.setCount r n).cur = u.cur ∧
      (u.setCount r n).scopeSize = u.scopeSize := by
    intro u r n
    cases r <;> exact ⟨rfl, rfl⟩
  refine ⟨(hset _ _ _).1, (hset _ _ _).2, fun a ha => ?_, fun a => (hscope a).1,
    fun a => (hscope a).2.1, fun a => (hscope a).2.2⟩
  exact defineLocal_other name handle ht hk hf (by omega) (by omega)

theorem defineLocal_find (hnone : s.find s.cur name = none) {n : Types.Text} :
    (s.defineLocal name handle).find a n =
      if a = s.cur ∧ name = n then some s.heapSize else s.find a n := by
  unfold Scopes.find
  by_cases hc : a = s.cur
  · rw [hc, defineLocal_cur name handle ht hk hf]
    exact (NameScope.find_addEntry hnone).trans (by simp)
  · rw [if_neg fun h => hc h.1]
    by_cases ha : a = f
    · rw [ha, defineLocal_func name handle ht hk hf]
      rfl
    · rw [defineLocal_other name handle ht hk hf hc ha]

end

theorem defineLocal_heap (name : Types.Text) (handle : Handle) :
    (s.defineLocal name handle).heap = Function.update s.heap s.heapSize handle ∧
      (s.defineLocal name handle).heapSize = s.heapSize + 1 := by
  have hset : ∀ (u : Scopes) r n, (u.setCount r n).heap = u.heap ∧
      (u.setCount r n).heapSize = u.heapSize := by
    intro u r n
    cases r <;> exact ⟨rfl, rfl⟩
  exact hset _ _ _

theorem Slots.defineLocal (ht : Tree s) (h : Slots s) (handle : Handle)
    (hk : (s.scopes s.cur).kind = .block) (hnone : s.find s.cur name = none)
    (hindex : handle.index = (s.scopes s.cur).curLocalIndex) : Slots (s.defineLocal name handle) := by
  obtain ⟨f, hf, hlt, hkf⟩ := ht.count_of_block hk
  have hshape := sameShape_defineLocal name handle ht hk hf
  obtain ⟨hheap, hheapSize⟩ := defineLocal_heap (s := s) name handle
  have hcur := defineLocal_cur name handle ht hk hf
  have hother : ∀ a, (s.scopes a).kind = .block → a ≠ s.cur →
      (s.defineLocal name handle).scopes a = s.scopes a := by
    intro a ha hc
    apply defineLocal_other name handle ht hk hf hc
    rintro rfl
    exact hkf ha
  have hbase : ((s.defineLocal name handle).scopes s.cur).getBaseIndex =
      (s.scopes s.cur).getBaseIndex := by
    rw [hcur]
    exact Nat.add_sub_add_right _ _ _
  have hindex' : ((s.defineLocal name handle).scopes s.cur).curLocalIndex =
      (s.scopes s.cur).curLocalIndex + 1 := by rw [hcur]; rfl
  -- an entry is the new one, or an old one with its old handle
  have hfind : ∀ a n p, (s.defineLocal name handle).find a n = some p →
      (a = s.cur ∧ name = n ∧ p = s.heapSize ∧ (s.defineLocal name handle).heap p = handle) ∨
      (s.find a n = some p ∧ p < s.heapSize ∧ (s.defineLocal name handle).heap p = s.heap p) := by
    intro a n p hp
    rw [defineLocal_find name handle ht hk hf hnone] at hp
    rw [hheap]
    split at hp
    · next hnew =>
      cases hp
      exact .inl ⟨hnew.1, hnew.2, rfl, Function.update_self _ _ _⟩
    · have := h.heap a n p hp
      exact .inr ⟨hp, this, Function.update_of_ne (by omega) _ _⟩
  refine ⟨?_, ?_, ?_, ?_, ?_, ?_⟩
  · intro a n p hp
    rw [hheapSize]
    rcases hfind a n p hp with ⟨-, -, rfl, -⟩ | ⟨-, hlt, -⟩ <;> omega
  · intro a ha
    rw [hshape.kind] at ha
    by_cases hc : a = s.cur
    · rw [hc, hcur]
      exact Nat.succ_le_succ (h.size s.cur hk)
    · rw [hother a ha hc]
      exact h.size a ha
  · intro a n p ha hp hkp
    rw [hshape.kind] at ha
    rcases hfind a n p hp with ⟨rfl, -, -, heq⟩ | ⟨hold, -, heq⟩
    · rw [hbase, hindex', heq, hindex]
      exact ⟨Nat.sub_le _ _, Nat.lt_succ_self _⟩
    · rw [heq] at hkp ⊢
      have := h.slot a n p ha hold hkp
      by_cases hc : a = s.cur
      · subst hc
        rw [hbase, hindex']
        omega
      · rw [hother a ha hc]
        exact this
  · intro a n m p q ha hp hq hkp hkq heq
    rw [hshape.kind] at ha
    -- the new slot is above the old ones
    have hlt : ∀ n p, s.find s.cur n = some p → (s.heap p).kind ≠ .typeAlias →
        (s.heap p).index < handle.index := by
      intro n p hp hkp
      rw [hindex]
      exact (h.slot s.cur n p hk hp hkp).2
    rcases hfind a n p hp with ⟨hc, hn, -, hep⟩ | ⟨hold, -, hep⟩
    · rcases hfind a m q hq with ⟨-, hm, -, -⟩ | ⟨hold, -, heq'⟩
      · exact hn.symm.trans hm
      · subst hc
        rw [heq'] at hkq
        rw [hep, heq'] at heq
        have := hlt m q hold hkq
        omega
    · rcases hfind a m q hq with ⟨hc, -, -, heq'⟩ | ⟨hold', -, heq'⟩
      · subst hc
        rw [hep] at hkp
        rw [hep, heq'] at heq
        have := hlt n p hold hkp
        omega
      · rw [hep] at hkp heq
        rw [heq'] at hkq heq
        exact h.inj a n m p q ha hold hold' hkp hkq heq
  · intro a g ha hg
    rw [hshape.kind] at ha
    rw [hshape.count] at hg
    have hgrow : (s.scopes g).curLocalIndex ≤ ((s.defineLocal name handle).scopes g).curLocalIndex := by
      by_cases hgf : g = f
      · rw [hgf, defineLocal_func name handle ht hk hf]
        exact Nat.le_max_left _ _
      · by_cases hc : g = s.cur
        · rw [hc, hindex']
          omega
        · rw [defineLocal_other name handle ht hk hf hc hgf]
    by_cases hc : a = s.cur
    · rw [hc, hf] at hg
      cases hg
      rw [hc, hindex', defineLocal_func name handle ht hk hf]
      exact Nat.le_max_right _ _
    · rw [hother a ha hc]
      exact Nat.le_trans (h.max a g ha hg) hgrow
  · intro a hmem ha b hb hkb
    rw [hshape.cur, ht.ancestors_sameShape hshape] at hmem
    rw [hshape.kind] at ha hkb
    rw [hshape.parent] at hb
    have hba := ht.lower a b hb
    have hac := ht.mem_ancestors_le hmem
    rw [hother b hkb (by omega)]
    by_cases hc : a = s.cur
    · subst hc
      rw [hbase]
      exact h.base s.cur hmem ha b hb hkb
    · rw [hother a ha hc]
      exact h.base a hmem ha b hb hkb

/-! ## What it means -/

/-- The function that a scope is in, or its module. -/
def funcOf (s : Scopes) (a : Nat) : Option Nat :=
  (s.ancestors a).find? fun b => (s.scopes b).kind ≠ .block

theorem Tree.funcOf_block (ht : Tree s) (hk : (s.scopes a).kind = .block)
    (hf : (s.scopes a).maxVarCount = .curLocalIndex f) : s.funcOf a = some f := by
  unfold funcOf
  induction a using Nat.strong_induction_on with
  | _ a ih =>
    obtain ⟨b, hb, hcount⟩ := ht.block a hk
    have hlt := ht.lower a b hb
    rw [ht.ancestors_some hb, List.find?_cons_of_neg (by simp [hk])]
    split at hcount
    · next hkb => exact ih b hlt hkb (hcount.symm.trans hf)
    · next hkb =>
      rw [hf] at hcount
      cases hcount
      obtain ⟨as, has⟩ := ht.ancestors_cons (a := f)
      rw [has, List.find?_cons_of_pos (by simp [hkb])]

/-- The slots of an outer open block of the same function are below those of the inner one. -/
theorem Slots.below (ht : Tree s) (h : Slots s) {pre post : List Nat}
    (ha : s.ancestors s.cur = pre ++ a :: post) (hk : (s.scopes a).kind = .block) (hb : b ∈ post)
    (hkb : (s.scopes b).kind = .block)
    (hcount : (s.scopes b).maxVarCount = (s.scopes a).maxVarCount) :
    (s.scopes b).curLocalIndex ≤ (s.scopes a).getBaseIndex := by
  induction post generalizing pre a with
  | nil => cases hb
  | cons x post ih =>
    obtain ⟨c, hc, hac⟩ := ht.block a hk
    have hpost := ht.ancestors_parent ha hc
    obtain ⟨as, has⟩ := ht.ancestors_cons (a := c)
    rw [hpost] at has
    obtain ⟨rfl, rfl⟩ := List.cons.inj has
    have hmem : a ∈ s.ancestors s.cur := by rw [ha]; simp
    split at hac
    · next hkx =>
      have hbase := h.base a hmem hk x hc hkx
      rcases List.mem_cons.1 hb with rfl | hb
      · exact Nat.le_of_eq hbase.symm
      · have hx : s.ancestors s.cur = (pre ++ [a]) ++ x :: post := by simpa using ha
        have := ih hx hkx hb (hcount.trans hac)
        rw [hbase]
        exact Nat.le_trans this (Nat.sub_le _ _)
    · next hkx =>
      -- the block would refer to a scope that is not around it
      obtain ⟨g, hg, hlt, -⟩ := ht.count_of_block hkb
      rw [hcount, hac] at hg
      cases hg
      rw [← hpost] at hb
      have := ht.mem_ancestors_le hb
      omega

/-- Local variables of a function that are visible at the same time have different slots. -/
theorem Slots.visible (ht : Tree s) (h : Slots s) {n m : Types.Text} {q : Nat}
    (ha : a ∈ s.ancestors s.cur) (hb : b ∈ s.ancestors s.cur)
    (hka : (s.scopes a).kind = .block) (hkb : (s.scopes b).kind = .block)
    (hfunc : s.funcOf a = s.funcOf b) (hp : s.find a n = some p) (hq : s.find b m = some q)
    (hkp : (s.heap p).kind ≠ .typeAlias) (hkq : (s.heap q).kind ≠ .typeAlias)
    (hindex : (s.heap p).index = (s.heap q).index) : a = b ∧ n = m := by
  obtain ⟨f, hf, -, -⟩ := ht.count_of_block hka
  obtain ⟨g, hg, -, -⟩ := ht.count_of_block hkb
  have hcount : (s.scopes a).maxVarCount = (s.scopes b).maxVarCount := by
    rw [ht.funcOf_block hka hf, ht.funcOf_block hkb hg] at hfunc
    cases hfunc
    rw [hf, hg]
  have hsa := h.slot a n p hka hp hkp
  have hsb := h.slot b m q hkb hq hkq
  obtain ⟨pre, post, hsplit⟩ := List.append_of_mem ha
  rw [hsplit] at hb
  rcases List.mem_append.1 hb with hb | hb
  · -- `b` is inside `a`
    obtain ⟨pre', post', rfl⟩ := List.append_of_mem hb
    have hinner : s.ancestors s.cur = pre' ++ b :: (post' ++ a :: post) := by rw [hsplit]; simp
    have := h.below ht hinner hkb (by simp) hka hcount
    omega
  · rcases List.mem_cons.1 hb with rfl | hb
    · exact ⟨rfl, h.inj b n m p q hkb hp hq hkp hkq hindex⟩
    · have := h.below ht hsplit hka hb hkb hcount.symm
      omega

theorem Tree.getMaxLocalVarIndex_eq (ht : Tree s) (hf : s.funcOf a = some f) :
    s.getMaxLocalVarIndex a = (s.scopes f).curLocalIndex := by
  unfold getMaxLocalVarIndex
  split
  · next hk =>
    obtain ⟨g, hg, -, -⟩ := ht.count_of_block hk
    rw [ht.funcOf_block hk hg] at hf
    cases hf
    rw [hg]
    rfl
  · next hk =>
    obtain ⟨as, has⟩ := ht.ancestors_cons (a := a)
    unfold funcOf at hf
    rw [has, List.find?_cons_of_pos (by simp [hk])] at hf
    cases hf
    rfl

/-- The index of a local variable is below the count of its function. -/
theorem Slots.lt_count (ht : Tree s) (h : Slots s) {n : Types.Text} {c : Nat}
    (hk : (s.scopes a).kind = .block) (hp : s.find a n = some p)
    (hkp : (s.heap p).kind ≠ .typeAlias) (hc : s.funcOf c = s.funcOf a) :
    (s.heap p).index < s.getMaxLocalVarIndex c := by
  obtain ⟨f, hf, -, -⟩ := ht.count_of_block hk
  rw [ht.funcOf_block hk hf] at hc
  rw [ht.getMaxLocalVarIndex_eq hc]
  exact Nat.lt_of_lt_of_le (h.slot a n p hk hp hkp).2 (h.max a f hk hf)

end Arsh.Scope.Scopes
