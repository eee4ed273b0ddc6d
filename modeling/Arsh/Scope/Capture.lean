import Arsh.Scope.Slots

/-!
# Captured variables

The scope of a function holds nothing but upvars: one for each captured variable, whose index is
its place in `captures`. What is captured is the handle that the name stands for in the function
around it, which is an upvar again if the variable is still further out.
-/

namespace Arsh.Scope.Scopes

open Arsh.Types Arsh.Assoc

variable {s t : Scopes} {a b e f p q v x : Nat} {name n m : Types.Text} {as pre post : List Nat}

/-- The scopes up to the next function. -/
def upToFunc (s : Scopes) : List Nat → List Nat
  | [] => []
  | a :: as => a :: if (s.scopes a).kind = .func then [] else upToFunc s as

/-- The first handle with the name. -/
def findIn (s : Scopes) (name : Types.Text) (as : List Nat) : Option Nat :=
  as.findSome? fun a => s.find a name

/-- The scopes around a scope that belong to the next function. -/
def around (s : Scopes) (f : Nat) : List Nat := s.upToFunc (s.ancestors f).tail

/-- Upvars and captures. In a function that is open, what was captured is what its name still
stands for around it. -/
structure Captured (s : Scopes) : Prop where
  named : ∀ a, s.find a [] = none
  own : ∀ a b n m p, s.find a n = some p → s.find b m = some p →
    needsCapture (s.heap p) = true → a = b ∧ n = m
  global : ∀ a n p, (s.scopes a).kind = .global → s.find a n = some p →
    needsCapture (s.heap p) = false
  plain : ∀ a n p, (s.scopes a).kind ≠ .func → s.find a n = some p →
    needsCapture (s.heap p) = true → (s.heap p).attr.upvar = false
  func : ∀ f n p, (s.scopes f).kind = .func → s.find f n = some p →
    needsCapture (s.heap p) = true ∧ (s.heap p).attr.upvar = true ∧
    ∃ e q, (s.scopes f).captures[(s.heap p).index]? = some q ∧ e ∈ s.around f ∧
      s.find e n = some q ∧ needsCapture (s.heap q) = true
  index : ∀ f i, (s.scopes f).kind = .func → i < (s.scopes f).captures.length →
    ∃ n p, s.find f n = some p ∧ (s.heap p).index = i
  inj : ∀ f n m p q, (s.scopes f).kind = .func → s.find f n = some p → s.find f m = some q →
    (s.heap p).index = (s.heap q).index → n = m
  isOpen : ∀ f n p, f ∈ s.ancestors s.cur → (s.scopes f).kind = .func → s.find f n = some p →
    s.findIn n (s.around f) = (s.scopes f).captures[(s.heap p).index]?

/-! ## Scopes up to a function -/

theorem upToFunc_congr (h : ∀ a ∈ as, (t.scopes a).kind = (s.scopes a).kind) :
    t.upToFunc as = s.upToFunc as := by
  induction as with
  | nil => rfl
  | cons a as ih =>
    rw [upToFunc, upToFunc, h a List.mem_cons_self, ih fun x hx => h x (List.mem_cons_of_mem _ hx)]

theorem mem_of_mem_upToFunc (h : x ∈ s.upToFunc as) : x ∈ as := by
  induction as with
  | nil => exact h
  | cons a as ih =>
    rw [upToFunc] at h
    rcases List.mem_cons.1 h with rfl | h
    · exact List.mem_cons_self
    · split at h
      · cases h
      · exact List.mem_cons_of_mem _ (ih h)

theorem upToFunc_append (h : ∀ a ∈ pre, (s.scopes a).kind ≠ .func) :
    s.upToFunc (pre ++ post) = pre ++ s.upToFunc post := by
  induction pre with
  | nil => rfl
  | cons a pre ih =>
    rw [List.cons_append, upToFunc, if_neg (h a List.mem_cons_self),
      ih fun x hx => h x (List.mem_cons_of_mem _ hx), List.cons_append]

theorem Tree.around_congr (ht : Tree s) (hst : SameShape s t) : t.around f = s.around f := by
  unfold around
  rw [ht.ancestors_sameShape hst, upToFunc_congr fun x _ => hst.kind x]

/-- What is around a function has a lower address. -/
theorem Tree.lt_of_mem_tail (ht : Tree s) (h : x ∈ (s.ancestors f).tail) : x < f := by
  cases hp : (s.scopes f).parent with
  | none =>
    rw [ancestors_none hp] at h
    cases h
  | some b =>
    rw [ht.ancestors_some hp] at h
    have hle : x ≤ b := ht.mem_ancestors_le h
    have := ht.lower f b hp
    omega

theorem Tree.lt_of_mem_around (ht : Tree s) (h : x ∈ s.around f) : x < f :=
  ht.lt_of_mem_tail (mem_of_mem_upToFunc h)

theorem findIn_congr (h : ∀ a ∈ as, t.find a n = s.find a n) : t.findIn n as = s.findIn n as := by
  induction as with
  | nil => rfl
  | cons a as ih =>
    unfold findIn at ih ⊢
    rw [List.findSome?_cons, List.findSome?_cons, h a List.mem_cons_self,
      ih fun x hx => h x (List.mem_cons_of_mem _ hx)]

theorem findIn_append (h : ∀ a ∈ pre, s.find a n = none) :
    s.findIn n (pre ++ post) = s.findIn n post := by
  unfold findIn
  rw [List.findSome?_append, List.findSome?_eq_none_iff.2 h, Option.none_or]

theorem findIn_cons (h : s.find a n = some p) : s.findIn n (a :: as) = some p := by
  unfold findIn
  rw [List.findSome?_cons, h]

/-! ## Entries in other scopes -/

/-- A change where the current scope, which is not a function, gets an entry. -/
structure EntryFrame (s t : Scopes) (name : Types.Text) : Prop where
  shape : SameShape s t
  heap : ∀ p, p < s.heapSize → (t.heap p).index = (s.heap p).index ∧
    needsCapture (t.heap p) = needsCapture (s.heap p) ∧
    (t.heap p).attr.upvar = (s.heap p).attr.upvar
  captures : ∀ a, (t.scopes a).captures = (s.scopes a).captures
  kind : (s.scopes s.cur).kind ≠ .func
  nonempty : name ≠ []
  other : ∀ a n, a ≠ s.cur → t.find a n = s.find a n
  old : ∀ n p, s.find s.cur n = some p → t.find s.cur n = some p
  new : ∀ n p, t.find s.cur n = some p → s.find s.cur n = some p ∨
    n = name ∧ (needsCapture (t.heap p) = true →
      s.heapSize ≤ p ∧ (t.heap p).attr.upvar = false ∧ (s.scopes s.cur).kind = .block)

theorem EntryFrame.mono (h : EntryFrame s t name) (hp : s.find a n = some p) :
    t.find a n = some p := by
  by_cases hc : a = s.cur
  · subst hc
    exact h.old n p hp
  · rw [h.other a n hc]
    exact hp

/-- An entry of a variable is an old one or the new one. -/
theorem EntryFrame.cases (h : EntryFrame s t name) (hp : t.find a n = some p)
    (hc : needsCapture (t.heap p) = true) :
    s.find a n = some p ∨ a = s.cur ∧ n = name ∧ s.heapSize ≤ p ∧
      (t.heap p).attr.upvar = false ∧ (s.scopes s.cur).kind = .block := by
  by_cases ha : a = s.cur
  · subst ha
    rcases h.new n p hp with hp | ⟨rfl, hnew⟩
    · exact .inl hp
    · exact .inr ⟨rfl, rfl, hnew hc⟩
  · rw [h.other a n ha] at hp
    exact .inl hp

theorem Captured.frame (ht : Tree s) (hs : Slots s) (h : Captured s)
    (hst : EntryFrame s t name) : Captured t := by
  have hfunc : ∀ f n, (s.scopes f).kind = .func → t.find f n = s.find f n := by
    intro f n hf
    apply hst.other f n
    rintro rfl
    exact hst.kind hf
  refine ⟨?_, ?_, ?_, ?_, ?_, ?_, ?_, ?_⟩
  · intro a
    cases hf : t.find a [] with
    | none => rfl
    | some p =>
      by_cases hc : a = s.cur
      · subst hc
        rcases hst.new [] p hf with hp | ⟨hn, -⟩
        · exact (h.named s.cur).symm.trans hp |>.symm
        · exact absurd hn.symm hst.nonempty
      · rw [hst.other a [] hc, h.named] at hf
        cases hf
  · intro a b n m p hp hq hc
    rcases hst.cases hp hc with hp | ⟨ha, hn, hle, -⟩
    · have hlt := hs.heap a n p hp
      rcases hst.cases hq hc with hq | ⟨-, -, hle, -⟩
      · rw [(hst.heap p hlt).2.1] at hc
        exact h.own a b n m p hp hq hc
      · omega
    · rcases hst.cases hq hc with hq | ⟨hb, hm, -⟩
      · have := hs.heap b m p hq
        omega
      · exact ⟨ha.trans hb.symm, hn.trans hm.symm⟩
  · intro a n p ha hp
    rw [hst.shape.kind] at ha
    cases hc : needsCapture (t.heap p) with
    | false => rfl
    | true =>
      rcases hst.cases hp hc with hp | ⟨hcur, -, -, -, hk⟩
      · rw [(hst.heap p (hs.heap a n p hp)).2.1, h.global a n p ha hp] at hc
        cases hc
      · rw [hcur, hk] at ha
        cases ha
  · intro a n p ha hp hc
    rw [hst.shape.kind] at ha
    rcases hst.cases hp hc with hp | ⟨-, -, -, hup, -⟩
    · have hheap := hst.heap p (hs.heap a n p hp)
      rw [hheap.2.1] at hc
      rw [hheap.2.2]
      exact h.plain a n p ha hp hc
    · exact hup
  · intro f n p hf hp
    rw [hst.shape.kind] at hf
    rw [hfunc f n hf] at hp
    have hheap := hst.heap p (hs.heap f n p hp)
    obtain ⟨hc, hup, e, q, hq, he, hfind, hcq⟩ := h.func f n p hf hp
    rw [hheap.1, hheap.2.1, hheap.2.2, hst.captures, ht.around_congr hst.shape]
    refine ⟨hc, hup, e, q, hq, he, hst.mono hfind, ?_⟩
    rw [(hst.heap q (hs.heap e n q hfind)).2.1]
    exact hcq
  · intro f i hf hi
    rw [hst.shape.kind] at hf
    rw [hst.captures] at hi
    obtain ⟨n, p, hp, hidx⟩ := h.index f i hf hi
    exact ⟨n, p, hst.mono hp, by rw [(hst.heap p (hs.heap f n p hp)).1]; exact hidx⟩
  · intro f n m p q hf hp hq heq
    rw [hst.shape.kind] at hf
    rw [hfunc f _ hf] at hp hq
    rw [(hst.heap p (hs.heap f n p hp)).1, (hst.heap q (hs.heap f m q hq)).1] at heq
    exact h.inj f n m p q hf hp hq heq
  · intro f n p hmem hf hp
    rw [hst.shape.cur, ht.ancestors_sameShape hst.shape] at hmem
    rw [hst.shape.kind] at hf
    rw [hfunc f n hf] at hp
    rw [ht.around_congr hst.shape, hst.captures, (hst.heap p (hs.heap f n p hp)).1,
      ← h.isOpen f n p hmem hf hp]
    -- the current scope is not around a function that is open
    refine findIn_congr fun x hx => hst.other x n ?_
    have := ht.lt_of_mem_around hx
    have := ht.mem_ancestors_le hmem
    omega

theorem Captured.push (ht : Tree s) (h : Captured s) {scope : NameScope} (he : Enters s scope) :
    Captured (s.push scope) := by
  have hcur := ht.cur_lt
  have hfind : ∀ a n, a ≠ s.scopeSize → (s.push scope).find a n = s.find a n := by
    intro a n ha
    unfold Scopes.find
    rw [push_old ha]
  have haround : ∀ f, f < s.scopeSize → (s.push scope).around f = s.around f := by
    intro f hf
    unfold around
    rw [ht.push_ancestors hf]
    apply upToFunc_congr
    intro x hx
    have := ht.lt_of_mem_tail hx
    rw [push_old (by omega)]
  have hsize : ∀ f, (s.scopes f).kind = .func → f < s.scopeSize := fun f hf =>
    ht.lt_scopeSize (by rw [hf]; decide)
  refine ⟨?_, ?_, ?_, ?_, ?_, ?_, ?_, ?_⟩
  · intro a
    cases hp : (s.push scope).find a [] with
    | none => rfl
    | some p =>
      have := (he.find hp).2
      rw [h.named] at this
      cases this
  · intro a b n m p hp hq hc
    exact h.own a b n m p (he.find hp).2 (he.find hq).2 hc
  · intro a n p hk hp
    obtain ⟨ha, hp⟩ := he.find hp
    rw [push_old ha] at hk
    exact h.global a n p hk hp
  · intro a n p hk hp hc
    obtain ⟨ha, hp⟩ := he.find hp
    rw [push_old ha] at hk
    exact h.plain a n p hk hp hc
  · intro f n p hk hp
    obtain ⟨hf, hp⟩ := he.find hp
    rw [push_old hf] at hk ⊢
    obtain ⟨hc, hup, e, q, hq, hmem, hfe, hcq⟩ := h.func f n p hk hp
    have hlt := hsize f hk
    refine ⟨hc, hup, e, q, hq, by rw [haround f hlt]; exact hmem, ?_, hcq⟩
    have := ht.lt_of_mem_around hmem
    rw [hfind e n (by omega)]
    exact hfe
  · intro f i hk hi
    by_cases hf : f = s.scopeSize
    · rw [hf, push_new, he.captures] at hi
      cases hi
    · rw [push_old hf] at hk hi
      obtain ⟨n, p, hp, hidx⟩ := h.index f i hk hi
      exact ⟨n, p, by rw [hfind f n hf]; exact hp, hidx⟩
  · intro f n m p q hk hp hq heq
    obtain ⟨hf, hp⟩ := he.find hp
    rw [push_old hf] at hk
    exact h.inj f n m p q hk hp (he.find hq).2 heq
  · intro f n p hmem hk hp
    obtain ⟨hf, hp⟩ := he.find hp
    rcases ht.mem_push_ancestors he hmem with hmem | hglobal | hmem
    · exact absurd hmem hf
    · rw [hk] at hglobal
      cases hglobal
    · rw [push_old hf] at hk ⊢
      rw [haround f (hsize f hk)]
      refine Eq.trans (findIn_congr fun x hx => hfind x n ?_) (h.isOpen f n p hmem hk hp)
      have := ht.lt_of_mem_around hx
      have := hsize f hk
      omega

theorem Captured.setCur (h : Captured s) (ha : ∀ x ∈ s.ancestors a, (s.scopes x).kind = .func →
    x ∈ s.ancestors s.cur) {k : Nat} : Captured { s with cur := a, gvarCount := k } := by
  have haround : ∀ f, ({ s with cur := a, gvarCount := k } : Scopes).around f = s.around f :=
    fun f => upToFunc_congr fun _ _ => rfl
  refine ⟨h.named, h.own, h.global, h.plain, ?_, h.index, h.inj, ?_⟩
  · intro f n p hk hp
    rw [haround]
    exact h.func f n p hk hp
  · intro f n p hf hk hp
    rw [haround]
    exact h.isOpen f n p (ha f hf hk) hk hp

/-! ## One function captures a handle -/

theorem setBoxed_heap : ((s.setBoxed p).heap q).index = (s.heap q).index ∧
    ((s.setBoxed p).heap q).kind = (s.heap q).kind ∧
    needsCapture ((s.setBoxed p).heap q) = needsCapture (s.heap q) ∧
    ((s.setBoxed p).heap q).attr.upvar = (s.heap q).attr.upvar := by
  unfold setBoxed
  dsimp only
  split
  · exact ⟨rfl, rfl, rfl, rfl⟩
  · by_cases hq : q = p
    · subst hq
      simp only [Function.update_self]
      exact ⟨trivial, trivial, rfl, trivial⟩
    · simp only [Function.update_of_ne hq]
      exact ⟨trivial, trivial, trivial, trivial⟩

theorem setBoxed_rest : (s.setBoxed p).scopes = s.scopes ∧ (s.setBoxed p).heapSize = s.heapSize := by
  unfold setBoxed
  dsimp only
  split <;> exact ⟨rfl, rfl⟩

/-- What a function is after it has captured a handle. -/
structure CapturedIn (s t : Scopes) (name : Types.Text) (p f : Nat) : Prop where
  shape : SameShape s t
  heapSize : t.heapSize = s.heapSize + 1
  heap : ∀ q, q < s.heapSize → (t.heap q).index = (s.heap q).index ∧
    (t.heap q).kind = (s.heap q).kind ∧ needsCapture (t.heap q) = needsCapture (s.heap q) ∧
    (t.heap q).attr.upvar = (s.heap q).attr.upvar
  index : (t.heap s.heapSize).index = (s.scopes f).captures.length
  needs : needsCapture (t.heap s.heapSize) = needsCapture (s.heap p)
  upvar : (t.heap s.heapSize).attr.upvar = true
  captures : (t.scopes f).captures = (s.scopes f).captures ++ [p]
  find : ∀ n, t.find f n = if name = n then some s.heapSize else s.find f n
  other : ∀ a, a ≠ f → t.scopes a = s.scopes a
  locals : (t.scopes f).curLocalIndex = (s.scopes f).curLocalIndex

theorem captureIn_ok (hf : f < s.scopeSize) (hn : name ≠ []) (hnone : s.find f name = none) :
    ∃ t, s.captureIn name p f = (.ok s.heapSize, t) ∧ CapturedIn s t name p f := by
  obtain ⟨hscopes, hsize⟩ := setBoxed_rest (s := s) (p := p)
  -- the state that `add` begins with, and the scope it changes
  let upVar : Handle := { s.heap p with
    index := (s.scopes f).captures.length, attr := { (s.heap p).attr with upvar := true } }
  let scope : NameScope := { s.scopes f with captures := (s.scopes f).captures ++ [p] }
  let u := ((s.setBoxed p).setScope f scope).alloc upVar
  have hu : u.scopes f = scope := Function.update_self _ _ _
  have hfind : (u.scopes f).find name = none := by rw [hu]; exact hnone
  refine ⟨u.addEntry f name s.heapSize, ?_, ?_⟩
  · unfold captureIn addNew
    dsimp only
    have hadd : u.add f name s.heapSize true false = (.ok s.heapSize, u.addEntry f name s.heapSize) := by
      unfold add
      simp [hn, hfind]
    have hsize' : ((s.setBoxed p).setScope f scope).heapSize = s.heapSize := hsize
    rw [hsize', hadd]
  · have hscope : (u.addEntry f name s.heapSize).scopes f = scope.addEntry name s.heapSize := by
      unfold addEntry
      rw [hu]
      exact Function.update_self _ _ _
    have hother : ∀ a, a ≠ f → (u.addEntry f name s.heapSize).scopes a = s.scopes a := by
      intro a ha
      have h₁ : (u.addEntry f name s.heapSize).scopes a = u.scopes a := Function.update_of_ne ha _ _
      have h₂ : u.scopes a = (s.setBoxed p).scopes a := Function.update_of_ne ha _ _
      rw [h₁, h₂, hscopes]
    have hnew : (u.addEntry f name s.heapSize).heap s.heapSize = upVar := by
      change Function.update (s.setBoxed p).heap (s.setBoxed p).heapSize upVar s.heapSize = upVar
      rw [hsize, Function.update_self]
    refine ⟨?_, ?_, ?_, ?_, ?_, ?_, ?_, ?_, hother, ?_⟩
    · have h₁ : SameShape s ((s.setBoxed p).setScope f scope) := by
        refine sameShape_setBoxed.trans (sameShape_setScope ?_ ?_ ?_ ?_)
        · rw [(sameShape_setBoxed (s := s) (p := p)).size]
          exact hf
        · rw [hscopes]
        · rw [hscopes]
        · rw [hscopes]
      exact (h₁.trans sameShape_alloc).trans (sameShape_addEntry (by
        rw [(h₁.trans sameShape_alloc).size]; exact hf))
    · exact congrArg (· + 1) hsize
    · intro q hq
      have : (u.addEntry f name s.heapSize).heap q = (s.setBoxed p).heap q :=
        Function.update_of_ne (by change q ≠ (s.setBoxed p).heapSize; omega) _ _
      rw [this]
      exact setBoxed_heap
    · rw [hnew]
    · rw [hnew]
      rfl
    · rw [hnew]
    · rw [hscope]
      rfl
    · intro n
      unfold Scopes.find
      rw [hscope]
      exact NameScope.find_addEntry hnone
    · rw [hscope]
      rfl

namespace CapturedIn

theorem find_other (h : CapturedIn s t name p f) (ha : a ≠ f) : t.find a n = s.find a n := by
  unfold Scopes.find
  rw [h.other a ha]

/-- An entry is the new one, or an old one. -/
theorem cases (h : CapturedIn s t name p f) (hq : t.find a n = some q) :
    (a = f ∧ n = name ∧ q = s.heapSize) ∨ s.find a n = some q := by
  by_cases ha : a = f
  · subst ha
    rw [h.find] at hq
    split at hq
    · next hn =>
      cases hq
      exact .inl ⟨rfl, hn.symm, rfl⟩
    · exact .inr hq
  · rw [h.find_other ha] at hq
    exact .inr hq

theorem mono (h : CapturedIn s t name p f) (hnone : s.find f name = none)
    (hq : s.find a n = some q) : t.find a n = some q := by
  by_cases ha : a = f
  · subst ha
    rw [h.find, if_neg]
    · exact hq
    · rintro rfl
      rw [hnone] at hq
      cases hq
  · rw [h.find_other ha]
    exact hq

end CapturedIn

theorem Slots.capturedIn (ht : Tree s) (hs : Slots s) (hk : (s.scopes f).kind = .func)
    (h : CapturedIn s t name p f) : Slots t := by
  have hne : ∀ a, (s.scopes a).kind = .block → a ≠ f := by
    rintro a ha rfl
    rw [hk] at ha
    cases ha
  refine hs.frame ht ⟨h.shape, by rw [h.heapSize]; omega, ?_, ?_, ?_, ?_⟩
  · intro q hq
    rw [(h.heap q hq).1, (h.heap q hq).2.1]
    exact ⟨rfl, Iff.rfl⟩
  · intro a n q hq
    rw [h.heapSize]
    refine ⟨?_, fun ha _ => ?_⟩
    · rcases h.cases hq with ⟨-, -, rfl⟩ | hq
      · omega
      · have := hs.heap a n q hq
        omega
    · rw [h.find_other (hne a ha)] at hq
      exact hq
  · intro a ha
    rw [h.other a (hne a ha)]
    exact ⟨rfl, rfl⟩
  · intro a
    by_cases ha : a = f
    · rw [ha, h.locals]
    · rw [h.other a ha]

/-- A function captures the first handle around it with the name; no scope from the current one to
this function has the name. -/
theorem Captured.capturedIn (ht : Tree s) (hs : Slots s) (hcap : Captured s)
    {mid : List Nat} (hanc : s.ancestors s.cur = pre ++ f :: (mid ++ e :: post))
    (hk : (s.scopes f).kind = .func) (hpre : ∀ x ∈ pre, s.find x name = none)
    (hnone : s.find f name = none) (hmid : ∀ x ∈ mid, s.find x name = none)
    (hmidk : ∀ x ∈ mid, (s.scopes x).kind ≠ .func) (hp : s.find e name = some p)
    (hneeds : needsCapture (s.heap p) = true) (h : CapturedIn s t name p f) : Captured t := by
  have hlt : ∀ {a n q}, s.find a n = some q → q < s.heapSize := fun hq => hs.heap _ _ _ hq
  have htail : (s.ancestors f).tail = mid ++ e :: post := by
    rw [ht.ancestors_suffix hanc]
    rfl
  have haround : s.around f = mid ++ s.upToFunc (e :: post) := by
    unfold around
    rw [htail, upToFunc_append hmidk]
  have hfe : e ∈ s.around f := by
    rw [haround, upToFunc]
    simp
  refine ⟨?_, ?_, ?_, ?_, ?_, ?_, ?_, ?_⟩
  · intro a
    by_cases ha : a = f
    · have hn : name ≠ [] := by
        rintro rfl
        rw [hcap.named] at hp
        cases hp
      rw [ha, h.find, if_neg hn]
      exact hcap.named f
    · rw [h.find_other ha]
      exact hcap.named a
  · intro a b n m q ha hb hc
    rcases h.cases ha with ⟨haf, hn, hq⟩ | ha
    · rcases h.cases hb with ⟨hbf, hm, -⟩ | hb
      · exact ⟨haf.trans hbf.symm, hn.trans hm.symm⟩
      · have := hlt hb
        omega
    · rcases h.cases hb with ⟨-, -, hq⟩ | hb
      · have := hlt ha
        omega
      · rw [(h.heap q (hlt ha)).2.2.1] at hc
        exact hcap.own a b n m q ha hb hc
  · intro a n q ha hq
    rw [h.shape.kind] at ha
    rcases h.cases hq with ⟨rfl, -, -⟩ | hq
    · rw [hk] at ha
      cases ha
    · rw [(h.heap q (hlt hq)).2.2.1]
      exact hcap.global a n q ha hq
  · intro a n q ha hq hc
    rw [h.shape.kind] at ha
    rcases h.cases hq with ⟨rfl, -, -⟩ | hq
    · exact absurd hk ha
    · have hheap := h.heap q (hlt hq)
      rw [hheap.2.2.1] at hc
      rw [hheap.2.2.2]
      exact hcap.plain a n q ha hq hc
  · intro g n q hg hq
    rw [h.shape.kind] at hg
    rw [ht.around_congr h.shape]
    rcases h.cases hq with ⟨rfl, rfl, rfl⟩ | hq
    · refine ⟨h.needs.trans hneeds, h.upvar, e, p, ?_, hfe, h.mono hnone hp, ?_⟩
      · rw [h.captures, h.index]
        exact List.getElem?_concat_length
      · rw [(h.heap p (hlt hp)).2.2.1]
        exact hneeds
    · obtain ⟨hc, hup, e', r, hr, he', hfind, hcr⟩ := hcap.func g n q hg hq
      have hheap := h.heap q (hlt hq)
      rw [hheap.1, hheap.2.2.1, hheap.2.2.2]
      refine ⟨hc, hup, e', r, ?_, he', h.mono hnone hfind, ?_⟩
      · by_cases hgf : g = f
        · subst hgf
          rw [h.captures]
          rw [List.getElem?_append_left (List.getElem?_eq_some_iff.1 hr).1]
          exact hr
        · rw [h.other g hgf]
          exact hr
      · rw [(h.heap r (hlt hfind)).2.2.1]
        exact hcr
  · intro g i hg hi
    rw [h.shape.kind] at hg
    have hold : i < (s.scopes g).captures.length → ∃ n q, t.find g n = some q ∧ (t.heap q).index = i := by
      intro hi
      obtain ⟨n, q, hq, hidx⟩ := hcap.index g i hg hi
      exact ⟨n, q, h.mono hnone hq, by rw [(h.heap q (hlt hq)).1]; exact hidx⟩
    by_cases hgf : g = f
    · subst hgf
      rw [h.captures, List.length_append, List.length_singleton] at hi
      by_cases hi' : i < (s.scopes g).captures.length
      · exact hold hi'
      · refine ⟨name, s.heapSize, ?_, ?_⟩
        · rw [h.find, if_pos rfl]
        · rw [h.index]
          omega
    · rw [h.other g hgf] at hi
      exact hold hi
  · intro g n m q r hg hq hr heq
    rw [h.shape.kind] at hg
    -- the index of an old upvar is below the new one
    have hold : ∀ n q, s.find f n = some q → (s.heap q).index < (s.scopes f).captures.length := by
      intro n q hq
      obtain ⟨-, -, -, r, hcapt, -⟩ := hcap.func f n q hk hq
      exact (List.getElem?_eq_some_iff.1 hcapt).1
    rcases h.cases hq with ⟨hgf, hn, hqn⟩ | hq
    · rcases h.cases hr with ⟨-, hm, -⟩ | hr
      · exact hn.trans hm.symm
      · subst hgf hqn
        rw [h.index, (h.heap r (hlt hr)).1] at heq
        have := hold m r hr
        omega
    · rcases h.cases hr with ⟨hgf, -, hrn⟩ | hr
      · subst hgf hrn
        rw [h.index, (h.heap q (hlt hq)).1] at heq
        have := hold n q hq
        omega
      · rw [(h.heap q (hlt hq)).1, (h.heap r (hlt hr)).1] at heq
        exact hcap.inj g n m q r hg hq hr heq
  · intro g n q hmem hg hq
    rw [h.shape.cur, ht.ancestors_sameShape h.shape] at hmem
    rw [h.shape.kind] at hg
    rw [ht.around_congr h.shape]
    rcases h.cases hq with ⟨rfl, rfl, rfl⟩ | hq
    · have hfind : ∀ x ∈ s.around g, t.find x n = s.find x n := fun x hx =>
        h.find_other (Nat.ne_of_lt (ht.lt_of_mem_around hx))
      rw [findIn_congr hfind, haround, findIn_append hmid, upToFunc, findIn_cons hp, h.captures,
        h.index, List.getElem?_concat_length]
    · have hfind : ∀ x ∈ s.around g, t.find x n = s.find x n := by
        intro x hx
        by_cases hxf : x = f
        · subst hxf
          rw [h.find, if_neg]
          rintro rfl
          -- a function inside that one would have the name, but none has it
          have hgx := ht.lt_of_mem_around hx
          rw [hanc] at hmem
          rcases List.mem_append.1 hmem with hmem | hmem
          · rw [hpre g hmem] at hq
            cases hq
          · rw [← ht.ancestors_suffix hanc] at hmem
            have := ht.mem_ancestors_le hmem
            omega
        · exact h.find_other hxf
      rw [findIn_congr hfind, (h.heap q (hlt hq)).1, hcap.isOpen g n q hmem hg hq]
      obtain ⟨-, -, -, r, hr, -⟩ := hcap.func g n q hg hq
      by_cases hgf : g = f
      · subst hgf
        rw [h.captures, hr]
        rw [List.getElem?_append_left (List.getElem?_eq_some_iff.1 hr).1, hr]
      · rw [h.other g hgf]

/-! ## The loop -/

/-- Where the loop is: the name stands for the handle, and the functions that are left are between
its scope and the current one. -/
structure Loop (s : Scopes) (name : Types.Text) (p : Nat) (funcScopes : List Nat) : Prop where
  tree : Tree s
  slots : Slots s
  captured : Captured s
  needs : needsCapture (s.heap p) = true
  path : ∃ pre e post, s.ancestors s.cur = pre ++ e :: post ∧
    (∀ x ∈ pre, s.find x name = none) ∧ s.find e name = some p ∧
    funcScopes = (pre.filter fun x => (s.scopes x).isFunc).reverse

theorem isFunc_iff {scope : NameScope} : scope.isFunc = true ↔ scope.kind = .func := by
  simp [NameScope.isFunc]

/-- The outermost function that is left. -/
theorem split_func {funcs : List Nat}
    (h : f :: funcs = (pre.filter fun x => (s.scopes x).isFunc).reverse) :
    ∃ pre' mid, pre = pre' ++ f :: mid ∧ (s.scopes f).kind = .func ∧
      (∀ x ∈ mid, (s.scopes x).kind ≠ .func) ∧
      funcs = (pre'.filter fun x => (s.scopes x).isFunc).reverse := by
  have hrev : (pre.filter fun x => (s.scopes x).isFunc) = funcs.reverse ++ [f] := by
    rw [← List.reverse_reverse (List.filter _ pre), ← h, List.reverse_cons]
  obtain ⟨pre', rest, rfl, hpre, hrest⟩ := List.filter_eq_append_iff.1 hrev
  obtain ⟨mid₁, mid₂, rfl, hmid₁, hf, hmid₂⟩ := List.filter_eq_cons_iff.1 hrest
  have hno : ∀ x ∈ mid₂, (s.scopes x).kind ≠ .func := by
    intro x hx hk
    exact List.filter_eq_nil_iff.1 hmid₂ x hx (isFunc_iff.2 hk)
  refine ⟨pre' ++ mid₁, mid₂, by simp, isFunc_iff.1 hf, hno, ?_⟩
  rw [List.filter_append, hpre, List.filter_eq_nil_iff.2 hmid₁, List.append_nil,
    List.reverse_reverse]

theorem Loop.captureIn {funcs : List Nat} (h : Loop s name p (f :: funcs)) :
    ∃ t, s.captureIn name p f = (.ok s.heapSize, t) ∧ CapturedIn s t name p f ∧
      (s.scopes f).kind = .func ∧ Loop t name s.heapSize funcs := by
  obtain ⟨pre, e, post, hanc, hpre, hp, hfuncs⟩ := h.path
  obtain ⟨pre', mid, rfl, hk, hmidk, rfl⟩ := split_func hfuncs
  have hanc' : s.ancestors s.cur = pre' ++ f :: (mid ++ e :: post) := by rw [hanc]; simp
  have hnone : s.find f name = none := hpre f (by simp)
  have hn : name ≠ [] := by
    rintro rfl
    rw [h.captured.named] at hp
    cases hp
  have hsize : f < s.scopeSize := h.tree.lt_scopeSize (by rw [hk]; decide)
  obtain ⟨t, ht, hin⟩ := captureIn_ok (p := p) hsize hn hnone
  have hcap := h.captured.capturedIn h.tree h.slots hanc' hk (fun x hx => hpre x (by simp [hx]))
    hnone (fun x hx => hpre x (by simp [hx])) hmidk hp h.needs hin
  refine ⟨t, ht, hin, hk, h.tree.of_sameShape hin.shape, h.slots.capturedIn h.tree hk hin, hcap,
    hin.needs.trans h.needs, pre', f, mid ++ e :: post, ?_, ?_, ?_, ?_⟩
  · rw [hin.shape.cur, h.tree.ancestors_sameShape hin.shape, hanc']
  · intro x hx
    have hxf : x ≠ f := by
      rintro rfl
      -- a scope is not around itself
      obtain ⟨pre₁, pre₂, rfl⟩ := List.append_of_mem hx
      have h₁ : s.ancestors s.cur = pre₁ ++ x :: (pre₂ ++ x :: (mid ++ e :: post)) := by
        rw [hanc']
        simp
      have hsuf := h.tree.ancestors_suffix h₁
      have := h.tree.lt_of_mem_tail (f := x) (x := x) (by rw [hsuf]; simp)
      omega
    rw [hin.find_other hxf]
    exact hpre x (by simp [hx])
  · rw [hin.find, if_pos rfl]
  · simp only [NameScope.isFunc, hin.shape.kind]

/-- What lookups never change: scopes that are not functions, and whether a handle is captured. -/
structure Kept (s t : Scopes) : Prop where
  shape : SameShape s t
  find : ∀ a n, (s.scopes a).kind ≠ .func → t.find a n = s.find a n
  heapSize : s.heapSize ≤ t.heapSize
  heap : ∀ q, q < s.heapSize → needsCapture (t.heap q) = needsCapture (s.heap q)

theorem Kept.refl (s : Scopes) : Kept s s :=
  ⟨⟨rfl, rfl, fun _ _ => rfl, fun _ => rfl, fun _ => rfl, fun _ => rfl⟩, fun _ _ _ => rfl,
    Nat.le_refl _, fun _ _ => rfl⟩

theorem Kept.trans {u : Scopes} (h : Kept s t) (h' : Kept t u) : Kept s u where
  shape := h.shape.trans h'.shape
  find a n ha := (h'.find a n (by rw [h.shape.kind]; exact ha)).trans (h.find a n ha)
  heapSize := Nat.le_trans h.heapSize h'.heapSize
  heap q hq := (h'.heap q (Nat.lt_of_lt_of_le hq h.heapSize)).trans (h.heap q hq)

theorem CapturedIn.kept (h : CapturedIn s t name p f) (hk : (s.scopes f).kind = .func) :
    Kept s t where
  shape := h.shape
  find a n ha := h.find_other (by rintro rfl; exact ha hk)
  heapSize := by
    rw [h.heapSize]
    omega
  heap q hq := (h.heap q hq).2.2.1

/-- A run of the loop keeps the invariants, and ends without functions that are left if there was
no error. -/
theorem Loop.capture {funcs : List Nat} (h : Loop s name p funcs) (scope : Nat) :
    Tree (s.capture name scope p funcs).2 ∧ Slots (s.capture name scope p funcs).2 ∧
    Captured (s.capture name scope p funcs).2 ∧ Kept s (s.capture name scope p funcs).2 ∧
    ∀ q, (s.capture name scope p funcs).1 = .ok q → Loop (s.capture name scope p funcs).2 name q [] := by
  induction funcs generalizing s p with
  | nil =>
    refine ⟨h.tree, h.slots, h.captured, Kept.refl s, fun q hq => ?_⟩
    cases hq
    exact h
  | cons f funcs ih =>
    rw [Scopes.capture]
    split
    · exact ⟨h.tree, h.slots, h.captured, Kept.refl s, nofun⟩
    · split
      · exact ⟨h.tree, h.slots, h.captured, Kept.refl s, nofun⟩
      · obtain ⟨t, ht, hin, hk, hloop⟩ := h.captureIn
        rw [ht]
        obtain ⟨h₁, h₂, h₃, h₄, h₅⟩ := ih hloop
        exact ⟨h₁, h₂, h₃, (hin.kept hk).trans h₄, h₅⟩

theorem search_some {funcs acc : List Nat} {scope : Nat}
    (h : s.search name as acc = some (scope, p, funcs)) :
    ∃ pre post, as = pre ++ scope :: post ∧ (∀ x ∈ pre, s.find x name = none) ∧
      s.find scope name = some p ∧
      funcs = (pre.filter fun x => (s.scopes x).isFunc).reverse ++ acc := by
  induction as generalizing acc with
  | nil => cases h
  | cons a as ih =>
    rw [search] at h
    split at h
    · next p' hp =>
      cases h
      exact ⟨[], as, rfl, fun x hx => absurd hx List.not_mem_nil, hp, rfl⟩
    · next hnone =>
      have hpre : ∀ {pre : List Nat}, (∀ x ∈ pre, s.find x name = none) →
          ∀ x ∈ a :: pre, s.find x name = none := fun hpre => List.forall_mem_cons.2 ⟨hnone, hpre⟩
      split at h
      · next hfunc =>
        split at h
        · obtain ⟨pre, post, rfl, hnone', hp, rfl⟩ := ih h
          refine ⟨a :: pre, post, rfl, hpre hnone', hp, ?_⟩
          rw [List.filter_cons_of_pos (by simpa using hfunc)]
          simp
        · cases h
      · next hfunc =>
        obtain ⟨pre, post, rfl, hnone', hp, rfl⟩ := ih h
        refine ⟨a :: pre, post, rfl, hpre hnone', hp, ?_⟩
        rw [List.filter_cons_of_neg (by simpa using hfunc)]

end Arsh.Scope.Scopes
