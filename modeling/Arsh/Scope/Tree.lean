import Arsh.Scope.Scope

/-!
# The tree of scopes

The parts of a scope that never change: its kind, its parent and what its count refers to. Blocks
refer to the index of the function (or of the module) that they are in, also through the blocks
between them.
-/

namespace Arsh.Scope.Scopes

open Arsh.Types Arsh.Assoc

variable {s t : Scopes} {a b x : Nat} {pre post : List Nat}

/-- The scopes are a tree, and counts are shared along it. -/
structure Tree (s : Scopes) : Prop where
  cur_lt : s.cur < s.scopeSize
  fresh : ∀ a, s.scopeSize ≤ a → s.scopes a = {}
  lower : ∀ a b, (s.scopes a).parent = some b → b < a
  global : ∀ a, (s.scopes a).kind = .global → (s.scopes a).maxVarCount = .gvarCount ∧
    ∀ b, (s.scopes a).parent = some b → (s.scopes b).kind = .global
  func : ∀ a, (s.scopes a).kind = .func → ∃ b, (s.scopes a).parent = some b ∧
    (s.scopes b).kind ≠ .func
  block : ∀ a, (s.scopes a).kind = .block → ∃ b, (s.scopes a).parent = some b ∧
    (s.scopes a).maxVarCount =
      if (s.scopes b).kind = .block then (s.scopes b).maxVarCount else .curLocalIndex b

/-- What never changes is the same. -/
structure SameShape (s t : Scopes) : Prop where
  cur : t.cur = s.cur
  size : t.scopeSize = s.scopeSize
  fresh : ∀ a, s.scopeSize ≤ a → t.scopes a = s.scopes a
  kind : ∀ a, (t.scopes a).kind = (s.scopes a).kind
  parent : ∀ a, (t.scopes a).parent = (s.scopes a).parent
  count : ∀ a, (t.scopes a).maxVarCount = (s.scopes a).maxVarCount

theorem SameShape.trans {u : Scopes} (h : SameShape s t) (h' : SameShape t u) : SameShape s u where
  cur := h'.cur.trans h.cur
  size := h'.size.trans h.size
  fresh a ha := (h'.fresh a (by rw [h.size]; exact ha)).trans (h.fresh a ha)
  kind a := (h'.kind a).trans (h.kind a)
  parent a := (h'.parent a).trans (h.parent a)
  count a := (h'.count a).trans (h.count a)

theorem Tree.of_sameShape (h : Tree s) (hst : SameShape s t) : Tree t where
  cur_lt := by
    rw [hst.cur, hst.size]
    exact h.cur_lt
  fresh a ha := by
    rw [hst.size] at ha
    rw [hst.fresh a ha, h.fresh a ha]
  lower a b hab := h.lower a b (by rw [← hst.parent]; exact hab)
  global a ha := by
    simp only [hst.kind, hst.count, hst.parent] at ha ⊢
    exact h.global a ha
  func a ha := by
    simp only [hst.kind, hst.parent] at ha ⊢
    exact h.func a ha
  block a ha := by
    simp only [hst.kind, hst.count, hst.parent] at ha ⊢
    exact h.block a ha

/-- A scope of the tree is changed, but not its shape. -/
theorem sameShape_setScope {scope : NameScope} (ha : a < s.scopeSize)
    (hk : scope.kind = (s.scopes a).kind) (hp : scope.parent = (s.scopes a).parent)
    (hc : scope.maxVarCount = (s.scopes a).maxVarCount) : SameShape s (s.setScope a scope) where
  cur := rfl
  size := rfl
  fresh b hb := Function.update_of_ne (by omega) _ _
  kind b := by
    by_cases hb : b = a
    · subst hb
      simp [setScope, hk]
    · simp [setScope, hb]
  parent b := by
    by_cases hb : b = a
    · subst hb
      simp [setScope, hp]
    · simp [setScope, hb]
  count b := by
    by_cases hb : b = a
    · subst hb
      simp [setScope, hc]
    · simp [setScope, hb]

theorem sameShape_addEntry {name : Types.Text} {p : Nat} (ha : a < s.scopeSize) :
    SameShape s (s.addEntry a name p) := sameShape_setScope ha rfl rfl rfl

theorem sameShape_alloc {handle : Handle} : SameShape s (s.alloc handle) where
  cur := rfl
  size := rfl
  fresh _ _ := rfl
  kind _ := rfl
  parent _ := rfl
  count _ := rfl

theorem sameShape_setBoxed {p : Nat} : SameShape s (s.setBoxed p) := by
  unfold setBoxed
  dsimp only
  split <;> exact ⟨rfl, rfl, fun _ _ => rfl, fun _ => rfl, fun _ => rfl, fun _ => rfl⟩

/-! ## The functions of blocks -/

/-- A block refers to the index of a scope around it that is not a block. -/
theorem Tree.count_of_block (h : Tree s) (ha : (s.scopes a).kind = .block) :
    ∃ f, (s.scopes a).maxVarCount = .curLocalIndex f ∧ f < a ∧ (s.scopes f).kind ≠ .block := by
  induction a using Nat.strong_induction_on with
  | _ a ih =>
    obtain ⟨b, hb, hcount⟩ := h.block a ha
    have hlt := h.lower a b hb
    split at hcount
    · next hk =>
      obtain ⟨f, hf, hfb, hkind⟩ := ih b hlt hk
      exact ⟨f, hcount.trans hf, by omega, hkind⟩
    · next hk => exact ⟨b, hcount, hlt, hk⟩

theorem Tree.lt_scopeSize (h : Tree s) (ha : (s.scopes a).kind ≠ .global) : a < s.scopeSize := by
  by_contra hge
  rw [h.fresh a (by omega)] at ha
  exact ha rfl

/-! ## Ancestors -/

theorem chain_fuel {scopes : Nat → NameScope} (hl : ∀ a b, (scopes a).parent = some b → b < a)
    {n : Nat} (hn : a < n) : chain scopes n a = chain scopes (a + 1) a := by
  induction a using Nat.strong_induction_on generalizing n with
  | _ a ih =>
    obtain ⟨n, rfl⟩ : ∃ k, n = k + 1 := ⟨n - 1, by omega⟩
    rw [chain, chain]
    congr 1
    cases hp : (scopes a).parent with
    | none => rfl
    | some b =>
      have hlt := hl a b hp
      dsimp only
      rw [ih b hlt (by omega : b < n), ih b hlt hlt]

theorem Tree.ancestors_some (h : Tree s) (hp : (s.scopes a).parent = some b) :
    s.ancestors a = a :: s.ancestors b := by
  unfold ancestors
  rw [chain, hp]
  congr 1
  exact chain_fuel h.lower (h.lower a b hp)

theorem ancestors_none (hp : (s.scopes a).parent = none) : s.ancestors a = [a] := by
  unfold ancestors
  rw [chain, hp]

theorem Tree.ancestors_cons (h : Tree s) : ∃ as, s.ancestors a = a :: as := by
  cases hp : (s.scopes a).parent with
  | none => exact ⟨[], ancestors_none hp⟩
  | some b => exact ⟨_, h.ancestors_some hp⟩

theorem Tree.mem_ancestors_le (h : Tree s) (hx : x ∈ s.ancestors a) : x ≤ a := by
  induction a using Nat.strong_induction_on with
  | _ a ih =>
    cases hp : (s.scopes a).parent with
    | none =>
      rw [ancestors_none hp, List.mem_singleton] at hx
      omega
    | some b =>
      have hlt := h.lower a b hp
      rw [h.ancestors_some hp] at hx
      rcases List.mem_cons.1 hx with rfl | hx
      · omega
      · have := ih b hlt hx
        omega

/-- What comes after a scope are its own ancestors. -/
theorem Tree.ancestors_suffix (h : Tree s) (ha : s.ancestors a = pre ++ x :: post) :
    s.ancestors x = x :: post := by
  induction pre generalizing a with
  | nil =>
    obtain ⟨as, has⟩ := h.ancestors_cons (a := a)
    rw [has, List.nil_append] at ha
    obtain ⟨rfl, rfl⟩ := List.cons.inj ha
    exact has
  | cons y pre ih =>
    cases hp : (s.scopes a).parent with
    | none =>
      rw [ancestors_none hp] at ha
      have := congrArg List.length ha
      simp at this
    | some b =>
      rw [h.ancestors_some hp, List.cons_append] at ha
      exact ih (List.cons.inj ha).2

theorem Tree.ancestors_parent (h : Tree s) (ha : s.ancestors a = pre ++ x :: post)
    (hp : (s.scopes x).parent = some b) : s.ancestors b = post := by
  have := h.ancestors_suffix ha
  rw [h.ancestors_some hp] at this
  exact (List.cons.inj this).2

theorem chain_congr {scopes scopes' : Nat → NameScope} {n : Nat}
    (hl : ∀ a b, (scopes a).parent = some b → b < a)
    (hp : ∀ b ≤ a, (scopes' b).parent = (scopes b).parent) :
    chain scopes' n a = chain scopes n a := by
  induction n generalizing a with
  | zero => rfl
  | succ n ih =>
    rw [chain, chain, hp a (Nat.le_refl a)]
    congr 1
    cases hb : (scopes a).parent with
    | none => rfl
    | some b =>
      have hlt := hl a b hb
      exact ih fun c hc => hp c (by omega)

theorem Tree.ancestors_congr (h : Tree s)
    (hp : ∀ b ≤ a, (t.scopes b).parent = (s.scopes b).parent) : t.ancestors a = s.ancestors a :=
  chain_congr h.lower hp

theorem Tree.ancestors_sameShape (h : Tree s) (hst : SameShape s t) :
    t.ancestors a = s.ancestors a := h.ancestors_congr fun b _ => hst.parent b

/-- A module has modules only around it. -/
theorem Tree.ancestors_global (h : Tree s) (ha : (s.scopes a).kind = .global)
    (hx : x ∈ s.ancestors a) : (s.scopes x).kind = .global := by
  induction a using Nat.strong_induction_on with
  | _ a ih =>
    cases hp : (s.scopes a).parent with
    | none =>
      rw [ancestors_none hp, List.mem_singleton] at hx
      rw [hx]
      exact ha
    | some b =>
      rw [h.ancestors_some hp] at hx
      rcases List.mem_cons.1 hx with rfl | hx
      · exact ha
      · exact ih b (h.lower a b hp) ((h.global a ha).2 b hp) hx

/-! ## Entering and leaving -/

/-- A new scope below the current one. -/
structure Fits (s : Scopes) (scope : NameScope) : Prop where
  lower : ∀ b, scope.parent = some b → b < s.scopeSize
  global : scope.kind = .global → scope.maxVarCount = .gvarCount ∧
    ∀ b, scope.parent = some b → (s.scopes b).kind = .global
  func : scope.kind = .func → ∃ b, scope.parent = some b ∧ (s.scopes b).kind ≠ .func
  block : scope.kind = .block → ∃ b, scope.parent = some b ∧ scope.maxVarCount =
    if (s.scopes b).kind = .block then (s.scopes b).maxVarCount else .curLocalIndex b

theorem push_new {scope : NameScope} : (s.push scope).scopes s.scopeSize = scope :=
  Function.update_self _ _ _

theorem push_old {scope : NameScope} (ha : a ≠ s.scopeSize) :
    (s.push scope).scopes a = s.scopes a := Function.update_of_ne ha _ _

theorem Tree.push (h : Tree s) {scope : NameScope} (hf : Fits s scope) : Tree (s.push scope) := by
  have hold : ∀ a b, (s.scopes a).parent = some b → b ≠ s.scopeSize := by
    intro a b hab hb
    have hlt := h.lower a b hab
    rw [h.fresh a (by omega)] at hab
    cases hab
  have hne : ∀ b, scope.parent = some b → b ≠ s.scopeSize := fun b hb => by
    have := hf.lower b hb
    omega
  refine ⟨Nat.lt_succ_self _, ?_, ?_, ?_, ?_, ?_⟩
  · intro a ha
    have ha : s.scopeSize + 1 ≤ a := ha
    rw [push_old (by omega)]
    exact h.fresh a (by omega)
  · intro a b hab
    by_cases ha : a = s.scopeSize
    · subst ha
      rw [push_new] at hab
      exact hf.lower b hab
    · rw [push_old ha] at hab
      exact h.lower a b hab
  · intro a hk
    by_cases ha : a = s.scopeSize
    · subst ha
      rw [push_new] at hk ⊢
      refine ⟨(hf.global hk).1, fun b hb => ?_⟩
      rw [push_old (hne b hb)]
      exact (hf.global hk).2 b hb
    · rw [push_old ha] at hk ⊢
      refine ⟨(h.global a hk).1, fun b hb => ?_⟩
      rw [push_old (hold a b hb)]
      exact (h.global a hk).2 b hb
  · intro a hk
    by_cases ha : a = s.scopeSize
    · subst ha
      rw [push_new] at hk ⊢
      obtain ⟨b, hb, hkind⟩ := hf.func hk
      exact ⟨b, hb, by rw [push_old (hne b hb)]; exact hkind⟩
    · rw [push_old ha] at hk ⊢
      obtain ⟨b, hb, hkind⟩ := h.func a hk
      exact ⟨b, hb, by rw [push_old (hold a b hb)]; exact hkind⟩
  · intro a hk
    by_cases ha : a = s.scopeSize
    · subst ha
      rw [push_new] at hk ⊢
      obtain ⟨b, hb, hcount⟩ := hf.block hk
      exact ⟨b, hb, by rw [push_old (hne b hb)]; exact hcount⟩
    · rw [push_old ha] at hk ⊢
      obtain ⟨b, hb, hcount⟩ := h.block a hk
      exact ⟨b, hb, by rw [push_old (hold a b hb)]; exact hcount⟩

theorem Tree.push_ancestors (h : Tree s) {scope : NameScope} (ha : a < s.scopeSize) :
    (s.push scope).ancestors a = s.ancestors a :=
  h.ancestors_congr fun b hb => by rw [push_old (by omega)]

/-- A scope that is new: it is a module, or below the current scope. -/
structure Enters (s : Scopes) (scope : NameScope) : Prop where
  fits : Fits s scope
  parent : scope.kind ≠ .global → scope.parent = some s.cur
  handles : scope.handles = []
  captures : scope.captures = []
  localSize : scope.localSize = 0
  index : scope.kind = .block → scope.curLocalIndex =
    if (s.scopes s.cur).kind = .block then (s.scopes s.cur).curLocalIndex else 0

/-- What `enterScope` makes. -/
theorem Tree.newScope (h : Tree s) {kind : ScopeKind} {scope : NameScope}
    (hs : s.newScope kind = some scope) : Enters s scope := by
  unfold Scopes.newScope at hs
  have hcur := h.cur_lt
  dsimp only at hs
  split at hs
  · next hk =>
    cases hs
    exact ⟨⟨by rintro _ ⟨⟩; exact hcur, nofun, fun _ => ⟨_, rfl, by rw [hk]; decide⟩, nofun⟩,
      fun _ => rfl, rfl, rfl, rfl, nofun⟩
  · next hk =>
    cases hs
    exact ⟨⟨by rintro _ ⟨⟩; exact hcur, nofun, nofun, fun _ => ⟨_, rfl, by simp [hk]⟩⟩,
      fun _ => rfl, rfl, rfl, rfl, fun _ => by simp [hk]⟩
  · next hk =>
    cases hs
    exact ⟨⟨by rintro _ ⟨⟩; exact hcur, nofun, nofun, fun _ => ⟨_, rfl, by simp [hk]⟩⟩,
      fun _ => rfl, rfl, rfl, rfl, fun _ => by simp [hk]⟩
  · next hk =>
    cases hs
    exact ⟨⟨by rintro _ ⟨⟩; exact hcur, nofun, fun _ => ⟨_, rfl, by rw [hk]; decide⟩, nofun⟩,
      fun _ => rfl, rfl, rfl, rfl, nofun⟩
  · next hk =>
    cases hs
    exact ⟨⟨by rintro _ ⟨⟩; exact hcur, nofun, nofun, fun _ => ⟨_, rfl, by simp [hk]⟩⟩,
      fun _ => rfl, rfl, rfl, rfl, fun _ => by simp [hk]⟩
  · cases hs

theorem Enters.find {scope : NameScope} {n : Types.Text} {p : Nat} (he : Enters s scope)
    (hp : (s.push scope).find a n = some p) : a ≠ s.scopeSize ∧ s.find a n = some p := by
  unfold Scopes.find at hp ⊢
  by_cases ha : a = s.scopeSize
  · rw [ha, push_new, NameScope.find, he.handles] at hp
    cases hp
  · rw [push_old ha] at hp
    exact ⟨ha, hp⟩

/-- What is around the new scope: modules, and what was around the current one. -/
theorem Tree.mem_push_ancestors (h : Tree s) {scope : NameScope} (he : Enters s scope)
    (hx : x ∈ (s.push scope).ancestors s.scopeSize) :
    x = s.scopeSize ∨ ((s.push scope).scopes x).kind = .global ∨ x ∈ s.ancestors s.cur := by
  have ht := h.push he.fits
  by_cases hk : scope.kind = .global
  · exact .inr (.inl (ht.ancestors_global (by rw [push_new]; exact hk) hx))
  · rw [ht.ancestors_some (by rw [push_new]; exact he.parent hk), h.push_ancestors h.cur_lt] at hx
    rcases List.mem_cons.1 hx with rfl | hx
    · exact .inl rfl
    · exact .inr (.inr hx)

theorem Tree.setCur (h : Tree s) (ha : a < s.scopeSize) {n : Nat} :
    Tree { s with cur := a, gvarCount := n } :=
  ⟨ha, h.fresh, h.lower, h.global, h.func, h.block⟩

end Arsh.Scope.Scopes
