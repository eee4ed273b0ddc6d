import Mathlib.Data.List.Nodup
import Mathlib.Logic.Relation
import Arsh.Scope.Capture

/-!
# Runs of a compile unit

A unit begins when only global scopes are left. Scopes are entered and left, names are defined in
the current scope and looked up from it, and modules are loaded at the top level. In every state of
such a run slots do not clash, and every lookup through functions leads to the variable that the
name stands for.
-/

namespace Arsh.Scope.Scopes

open Arsh.Types Arsh.Assoc

variable {s t : Scopes} {a e f p q v x : Nat} {name n m : Types.Text} {as pre post funcs : List Nat}

/-! ## Where a lookup leads -/

/-- From a handle to a variable: an upvar leads to what its function has captured. -/
inductive Leads (s : Scopes) : Nat → Nat → Prop
  | var {v : Nat} (h : (s.heap v).attr.upvar = false) : Leads s v v
  | upvar {p q v f : Nat} {n : Types.Text} (hk : (s.scopes f).kind = .func)
      (hp : s.find f n = some p)
      (hq : (s.scopes f).captures[(s.heap p).index]? = some q) (h : Leads s q v) : Leads s p v

/-- The variable that a name stands for and the functions on the way to it, where functions hold
nothing but upvars. -/
def declared (s : Scopes) (name : Types.Text) : List Nat → Option (Nat × List Nat)
  | [] => none
  | a :: as =>
    if (s.scopes a).isFunc then (declared s name as).map fun r => (r.1, a :: r.2)
    else
      match s.find a name with
      | some v => some (v, [])
      | none => declared s name as

theorem Kept.declared (h : Kept s t) : t.declared name as = s.declared name as := by
  induction as with
  | nil => rfl
  | cons a as ih =>
    have hfunc : (t.scopes a).isFunc = (s.scopes a).isFunc := by
      unfold NameScope.isFunc
      rw [h.shape.kind]
    rw [Scopes.declared, Scopes.declared, ih, hfunc]
    by_cases hk : (s.scopes a).isFunc = true
    · rw [if_pos hk, if_pos hk]
    · rw [if_neg hk, if_neg hk, h.find a name fun hk' => hk (isFunc_iff.2 hk')]

theorem declared_find {r : Nat × List Nat} (h : s.declared name as = some r) :
    ∃ d, (s.scopes d).kind ≠ .func ∧ s.find d name = some r.1 := by
  induction as generalizing r with
  | nil => cases h
  | cons a as ih =>
    rw [declared] at h
    split at h
    · obtain ⟨r', hr', rfl⟩ := Option.map_eq_some_iff.1 h
      obtain ⟨d, hd⟩ := ih hr'
      exact ⟨d, hd⟩
    · next hk =>
      split at h
      · next v hv =>
        cases h
        exact ⟨a, fun hf => hk (isFunc_iff.2 hf), hv⟩
      · exact ih h

/-- Scopes without functions and without the name are passed. -/
theorem declared_append (hpre : ∀ x ∈ pre, s.find x name = none)
    (hk : ∀ x ∈ pre, (s.scopes x).kind ≠ .func) :
    s.declared name (pre ++ post) = s.declared name post := by
  induction pre with
  | nil => rfl
  | cons a pre ih =>
    have hfunc : (s.scopes a).isFunc = false := by
      simpa [NameScope.isFunc] using hk a List.mem_cons_self
    rw [List.cons_append, declared, hfunc, hpre a List.mem_cons_self]
    exact ih (fun x hx => hpre x (List.mem_cons_of_mem _ hx))
      fun x hx => hk x (List.mem_cons_of_mem _ hx)

/-- Functions that do not have the name are passed too. -/
theorem declared_passed (hpre : ∀ x ∈ pre, s.find x name = none) :
    ∃ fs, s.declared name (pre ++ post) =
      (s.declared name post).map fun r => (r.1, fs ++ r.2) := by
  induction pre with
  | nil => exact ⟨[], by simp⟩
  | cons a pre ih =>
    obtain ⟨fs, hfs⟩ := ih fun x hx => hpre x (List.mem_cons_of_mem _ hx)
    rw [List.cons_append, declared, hfs]
    by_cases hk : (s.scopes a).isFunc = true
    · refine ⟨a :: fs, ?_⟩
      rw [if_pos hk, Option.map_map]
      rfl
    · refine ⟨fs, ?_⟩
      rw [if_neg hk, hpre a List.mem_cons_self]

theorem findIn_some (h : s.findIn n as = some q) :
    ∃ pre e post, as = pre ++ e :: post ∧ (∀ x ∈ pre, s.find x n = none) ∧ s.find e n = some q := by
  unfold findIn at h
  obtain ⟨pre, e, post, has, hq, hpre⟩ := List.findSome?_eq_some_iff.1 h
  exact ⟨pre, e, post, has, hpre, hq⟩

theorem upToFunc_split (h : s.upToFunc as = pre ++ e :: post) :
    ∃ post', as = pre ++ e :: post' ∧ ∀ x ∈ pre, (s.scopes x).kind ≠ .func := by
  induction pre generalizing as with
  | nil =>
    cases as with
    | nil => cases h
    | cons a as =>
      rw [upToFunc, List.nil_append] at h
      rw [(List.cons.inj h).1]
      exact ⟨as, rfl, fun x hx => absurd hx List.not_mem_nil⟩
  | cons y pre ih =>
    cases as with
    | nil => cases h
    | cons a as =>
      rw [upToFunc, List.cons_append] at h
      obtain ⟨rfl, htail⟩ := List.cons.inj h
      split at htail
      · have := congrArg List.length htail
        simp at this
      · next hk =>
        obtain ⟨post', rfl, hpre⟩ := ih htail
        exact ⟨post', rfl, List.forall_mem_cons.2 ⟨hk, hpre⟩⟩

/-- In an open scope an entry leads to the variable, and so do the upvars of all functions on the
way to it. -/
theorem Captured.leads (ht : Tree s) (hc : Captured s)
    (hanc : s.ancestors s.cur = pre ++ e :: post) (hp : s.find e name = some p)
    (hneeds : needsCapture (s.heap p) = true) :
    ∃ v fs, s.declared name (e :: post) = some (v, fs) ∧ s.Leads p v ∧
      ∀ f ∈ fs, (s.scopes f).kind = .func ∧ ∃ u, s.find f name = some u ∧ s.Leads u v := by
  induction hlen : post.length using Nat.strong_induction_on generalizing pre e post p with
  | _ len ih =>
    by_cases hk : (s.scopes e).kind = .func
    · -- an upvar: what was captured is the next entry
      obtain ⟨-, -, e₁, q, hq, -, hfind, hcq⟩ := hc.func e name p hk hp
      have hmem : e ∈ s.ancestors s.cur := by rw [hanc]; simp
      have hopen := hc.isOpen e name p hmem hk hp
      rw [hq] at hopen
      obtain ⟨mid, e', rest, haround, hmid, he'⟩ := findIn_some hopen
      unfold around at haround
      rw [ht.ancestors_suffix hanc, List.tail_cons] at haround
      obtain ⟨post', rfl, hmidk⟩ := upToFunc_split haround
      have hanc' : s.ancestors s.cur = (pre ++ e :: mid) ++ e' :: post' := by rw [hanc]; simp
      obtain ⟨v, fs, hdecl, hleads, hfs⟩ := ih post'.length (by
        rw [← hlen]
        simp only [List.length_append, List.length_cons]
        omega) hanc' he' hcq rfl
      have hstep : s.Leads p v := .upvar hk hp hq hleads
      refine ⟨v, e :: fs, ?_, hstep, ?_⟩
      · rw [declared, if_pos (isFunc_iff.2 hk), declared_append hmid hmidk, hdecl]
        rfl
      · intro f hf
        rcases List.mem_cons.1 hf with rfl | hf
        · exact ⟨hk, p, hp, hstep⟩
        · exact hfs f hf
    · refine ⟨p, [], ?_, .var (hc.plain e name p hk hp hneeds), fun f hf => absurd hf List.not_mem_nil⟩
      rw [declared, if_neg (by rw [isFunc_iff]; exact hk), hp]

/-- A way from an upvar to a variable keeps the name. -/
theorem Captured.name_of_leads (hc : Captured s) (h : s.Leads p v) (hp : s.find e n = some p)
    (hneeds : needsCapture (s.heap p) = true) :
    ∃ d, s.find d n = some v ∧ needsCapture (s.heap v) = true := by
  induction h generalizing e with
  | var _ => exact ⟨e, hp, hneeds⟩
  | upvar hk hp' hq _ ih =>
    obtain ⟨rfl, rfl⟩ := hc.own _ _ _ _ _ hp hp' hneeds
    obtain ⟨-, -, e', r, hr, -, hfind, hcr⟩ := hc.func _ _ _ hk hp'
    rw [hq] at hr
    cases hr
    exact ih hfind hcr

theorem Captured.leads_captured (hc : Captured s) (hk : (s.scopes f).kind = .func)
    (hp : s.find f n = some p) (h : s.Leads p v) :
    ∃ c, (s.scopes f).captures[(s.heap p).index]? = some c ∧ s.Leads c v := by
  obtain ⟨hneeds, hup, -⟩ := hc.func f n p hk hp
  cases h with
  | var hvar =>
    rw [hup] at hvar
    cases hvar
  | upvar _ hp' hq hl =>
    obtain ⟨rfl, -⟩ := hc.own _ _ _ _ _ hp hp' hneeds
    exact ⟨_, hq, hl⟩

/-- A function captures a variable once. -/
theorem Captured.unique (hc : Captured s) (hk : (s.scopes f).kind = .func)
    (hp : s.find f name = some p) (h : s.Leads p v) {i : Nat} {c : Nat}
    (hi : (s.scopes f).captures[i]? = some c) (hl : s.Leads c v) : i = (s.heap p).index := by
  obtain ⟨hneeds, -⟩ := hc.func f name p hk hp
  obtain ⟨n, u, hu, rfl⟩ := hc.index f i hk (List.getElem?_eq_some_iff.1 hi).1
  obtain ⟨hneeds', -, -⟩ := hc.func f n u hk hu
  have hlu : s.Leads u v := .upvar hk hu hi hl
  obtain ⟨d, hd, hcv⟩ := hc.name_of_leads h hp hneeds
  obtain ⟨d', hd', -⟩ := hc.name_of_leads hlu hu hneeds'
  obtain ⟨-, rfl⟩ := hc.own d d' name n v hd hd' hcv
  rw [hp] at hu
  cases hu
  rfl

theorem Captured.nodup (hc : Captured s) (hk : (s.scopes f).kind = .func) :
    (s.scopes f).captures.Nodup := by
  rw [List.nodup_iff_getElem?_ne_getElem?]
  intro i j hij hj heq
  obtain ⟨n, p, hp, hpi⟩ := hc.index f i hk (by omega)
  obtain ⟨m, q, hq, hqj⟩ := hc.index f j hk hj
  obtain ⟨-, -, e, c, hcp, -, he, hneeds⟩ := hc.func f n p hk hp
  obtain ⟨-, -, e', c', hcq, -, he', -⟩ := hc.func f m q hk hq
  rw [hpi, heq, ← hqj, hcq] at hcp
  cases hcp
  obtain ⟨-, rfl⟩ := hc.own e e' n m c he he' hneeds
  rw [hp] at hq
  cases hq
  omega

/-- A handle leads to one variable. -/
theorem Captured.leads_unique (hc : Captured s) {v' : Nat} (h : s.Leads p v) (h' : s.Leads p v') :
    v = v' := by
  induction h generalizing v' with
  | var hvar =>
    cases h' with
    | var _ => rfl
    | upvar hk hp =>
      rw [(hc.func _ _ _ hk hp).2.1] at hvar
      cases hvar
  | upvar hk hp hq _ ih =>
    obtain ⟨hneeds, hup, -⟩ := hc.func _ _ _ hk hp
    cases h' with
    | var hvar =>
      rw [hup] at hvar
      cases hvar
    | upvar hk' hp' hq' h' =>
      obtain ⟨rfl, -⟩ := hc.own _ _ _ _ _ hp hp' hneeds
      rw [hq] at hq'
      cases hq'
      exact ih h'

/-! ## Operations -/

structure Sound (s : Scopes) : Prop where
  tree : Tree s
  slots : Slots s
  captured : Captured s

theorem Sound.setCur (h : Sound s) (hlt : a < s.scopeSize)
    (ha : ∀ x ∈ s.ancestors a, (s.scopes x).kind ≠ .global → x ∈ s.ancestors s.cur) {k : Nat} :
    Sound { s with cur := a, gvarCount := k } where
  tree := h.tree.setCur hlt
  slots := h.slots.setCur fun x hx hk => ha x hx (by rw [hk]; decide)
  captured := h.captured.setCur fun x hx hk => ha x hx (by rw [hk]; decide)

theorem Sound.gvarCount (h : Sound s) (k : Nat) : Sound { s with gvarCount := k } :=
  h.setCur h.tree.cur_lt fun _ hx _ => hx

/-- The current scope gets an entry that has no slot and is not captured. -/
theorem Sound.entry (h : Sound s) (hk : (s.scopes s.cur).kind ≠ .func) (hn : name ≠ [])
    (hnone : s.find s.cur name = none) (hscopes : t.scopes = (s.addEntry s.cur name p).scopes)
    (hcur : t.cur = s.cur) (hsize : t.scopeSize = s.scopeSize) (hheapSize : s.heapSize ≤ t.heapSize)
    (hheap : ∀ q, q < s.heapSize → t.heap q = s.heap q) (hp : p < t.heapSize)
    (hneeds : needsCapture (t.heap p) = false)
    (hblock : (s.scopes s.cur).kind = .block → (t.heap p).kind = .typeAlias) : Sound t := by
  have hshape : SameShape s t := by
    have : SameShape s (s.addEntry s.cur name p) := sameShape_addEntry h.tree.cur_lt
    refine ⟨hcur, hsize, ?_, ?_, ?_, ?_⟩
    · intro a ha
      rw [hscopes]
      exact this.fresh a ha
    · intro a
      rw [hscopes]
      exact this.kind a
    · intro a
      rw [hscopes]
      exact this.parent a
    · intro a
      rw [hscopes]
      exact this.count a
  have hother : ∀ a, a ≠ s.cur → t.scopes a = s.scopes a := by
    intro a ha
    rw [hscopes]
    exact Function.update_of_ne ha _ _
  have hself : t.scopes s.cur = (s.scopes s.cur).addEntry name p := by
    rw [hscopes]
    exact Function.update_self _ _ _
  have hfind : ∀ n, t.find s.cur n = if name = n then some p else s.find s.cur n := by
    intro n
    unfold Scopes.find
    rw [hself]
    exact NameScope.find_addEntry hnone
  have hfindo : ∀ a n, a ≠ s.cur → t.find a n = s.find a n := by
    intro a n ha
    unfold Scopes.find
    rw [hother a ha]
  refine ⟨h.tree.of_sameShape hshape, h.slots.frame h.tree ⟨hshape, hheapSize, ?_, ?_, ?_, ?_⟩,
    h.captured.frame h.tree h.slots ⟨hshape, ?_, ?_, hk, hn, hfindo, ?_, ?_⟩⟩
  · intro q hq
    rw [hheap q hq]
    exact ⟨rfl, Iff.rfl⟩
  · intro a n q hq
    by_cases ha : a = s.cur
    · subst ha
      rw [hfind] at hq
      split at hq
      · cases hq
        exact ⟨hp, fun hk hka => absurd (hblock hk) hka⟩
      · have := h.slots.heap s.cur n q hq
        exact ⟨by omega, fun _ _ => hq⟩
    · rw [hfindo a n ha] at hq
      have := h.slots.heap a n q hq
      exact ⟨by omega, fun _ _ => hq⟩
  · intro a _
    by_cases ha : a = s.cur
    · rw [ha, hself]
      exact ⟨rfl, rfl⟩
    · rw [hother a ha]
      exact ⟨rfl, rfl⟩
  · intro a
    by_cases ha : a = s.cur
    · rw [ha, hself]
      exact Nat.le_refl _
    · rw [hother a ha]
  · intro q hq
    rw [hheap q hq]
    exact ⟨rfl, rfl, rfl⟩
  · intro a
    by_cases ha : a = s.cur
    · rw [ha, hself]
      rfl
    · rw [hother a ha]
  · intro n q hq
    rw [hfind, if_neg]
    · exact hq
    · rintro rfl
      rw [hnone] at hq
      cases hq
  · intro n q hq
    rw [hfind] at hq
    split at hq
    · next hname =>
      cases hq
      refine .inr ⟨hname.symm, fun hc => ?_⟩
      rw [hneeds] at hc
      cases hc
    · exact .inl hq

/-- The current block gets a local variable. -/
theorem Sound.defineLocal (h : Sound s) {handle : Handle} (hk : (s.scopes s.cur).kind = .block)
    (hn : name ≠ []) (hnone : s.find s.cur name = none)
    (hindex : handle.index = (s.scopes s.cur).curLocalIndex) (hup : handle.attr.upvar = false) :
    Sound (s.defineLocal name handle) := by
  obtain ⟨f, hf, hlt, hkf⟩ := h.tree.count_of_block hk
  have hshape := sameShape_defineLocal name handle h.tree hk hf
  obtain ⟨hheap, -⟩ := defineLocal_heap (s := s) name handle
  have hfind := fun a n => defineLocal_find name handle h.tree hk hf hnone (a := a) (n := n)
  refine ⟨h.tree.of_sameShape hshape, h.slots.defineLocal h.tree handle hk hnone hindex,
    h.captured.frame h.tree h.slots ⟨hshape, ?_, ?_, ?_, hn, ?_, ?_, ?_⟩⟩
  · intro q hq
    rw [hheap, Function.update_of_ne (by omega)]
    exact ⟨rfl, rfl, rfl⟩
  · intro a
    by_cases ha : a = s.cur
    · rw [ha, defineLocal_cur name handle h.tree hk hf]
      rfl
    · by_cases haf : a = f
      · rw [haf, defineLocal_func name handle h.tree hk hf]
      · rw [defineLocal_other name handle h.tree hk hf ha haf]
  · rw [hk]
    decide
  · intro a n ha
    rw [hfind, if_neg fun hc => ha hc.1]
  · intro n q hq
    rw [hfind, if_neg]
    · exact hq
    · rintro ⟨-, rfl⟩
      rw [hnone] at hq
      cases hq
  · intro n q hq
    rw [hfind] at hq
    split at hq
    · next hname =>
      cases hq
      refine .inr ⟨hname.2.symm, fun _ => ⟨Nat.le_refl _, ?_, hk⟩⟩
      rw [hheap, Function.update_self]
      exact hup
    · exact .inl hq

/-- What `add` does: nothing, or a new entry with or without a slot. -/
theorem add_cases (s : Scopes) (a : Nat) (name : Types.Text) (p : Nat)
    (asAlias ignoreConflict : Bool) :
    ((s.add a name p asAlias ignoreConflict).2 = s ∧
      (ignoreConflict = false → ∀ q, (s.add a name p asAlias ignoreConflict).1 ≠ .ok q)) ∨
    name ≠ [] ∧ s.find a name = none ∧ (s.add a name p asAlias ignoreConflict).2 =
      if asAlias then s.addEntry a name p
      else if (s.heap p).attr.global then (s.addEntry a name p).setCount (s.scopes a).maxVarCount
        ((s.addEntry a name p).getCount (s.scopes a).maxVarCount + 1)
      else (s.addEntry a name p).addLocal a := by
  unfold add
  dsimp only
  split
  · exact .inl ⟨rfl, fun _ => nofun⟩
  · split
    · exact .inl ⟨rfl, fun _ => nofun⟩
    · split
      · exact .inl ⟨rfl, fun _ => nofun⟩
      · next hn =>
        split
        · split
          · next hignore =>
            refine .inl ⟨rfl, fun hfalse => ?_⟩
            rw [hfalse] at hignore
            cases hignore
          · exact .inl ⟨rfl, fun _ => nofun⟩
        · next hnone =>
          refine .inr ⟨hn, hnone, ?_⟩
          cases asAlias with
          | true => rfl
          | false =>
            cases hg : (s.heap p).attr.global with
            | true => rfl
            | false => rfl

theorem addNew_cases (s : Scopes) (a : Nat) (name : Types.Text) (handle : Handle) (asAlias : Bool) :
    (s.addNew a name handle asAlias).2 = s ∨
    name ≠ [] ∧ s.find a name = none ∧ (s.addNew a name handle asAlias).2 =
      if asAlias then (s.alloc handle).addEntry a name s.heapSize
      else if handle.attr.global then
        ((s.alloc handle).addEntry a name s.heapSize).setCount (s.scopes a).maxVarCount
          (((s.alloc handle).addEntry a name s.heapSize).getCount (s.scopes a).maxVarCount + 1)
      else ((s.alloc handle).addEntry a name s.heapSize).addLocal a := by
  have hheap : (s.alloc handle).heap s.heapSize = handle := Function.update_self _ _ _
  have hcases := add_cases (s.alloc handle) a name s.heapSize asAlias false
  unfold addNew
  split
  · next p u heq =>
    rw [heq, hheap] at hcases
    rcases hcases with ⟨-, hno⟩ | hnew
    · exact absurd rfl (hno rfl p)
    · exact .inr hnew
  · exact .inl rfl

theorem Sound.addAlias (h : Sound s) {handle : Handle} (hk : (s.scopes s.cur).kind ≠ .func)
    (hneeds : needsCapture handle = false)
    (hblock : (s.scopes s.cur).kind = .block → handle.kind = .typeAlias) :
    Sound (s.addNew s.cur name handle true).2 := by
  have hnew : (s.alloc handle).heap s.heapSize = handle := Function.update_self _ _ _
  rcases addNew_cases s s.cur name handle true with heq | ⟨hn, hnone, heq⟩
  · rw [heq]
    exact h
  · rw [heq, if_pos rfl]
    refine h.entry (p := s.heapSize) hk hn hnone rfl rfl rfl (Nat.le_succ _) ?_ (Nat.lt_succ_self _)
      ?_ ?_
    · intro q hq
      exact Function.update_of_ne (by omega) _ _
    · exact (congrArg needsCapture hnew).trans hneeds
    · intro hb
      exact (congrArg Handle.kind hnew).trans (hblock hb)

theorem Sound.addGlobal (h : Sound s) {handle : Handle} (hk : (s.scopes s.cur).kind = .global)
    (hg : handle.attr.global = true) : Sound (s.addNew s.cur name handle false).2 := by
  have hnew : (s.alloc handle).heap s.heapSize = handle := Function.update_self _ _ _
  rcases addNew_cases s s.cur name handle false with heq | ⟨hn, hnone, heq⟩
  · rw [heq]
    exact h
  · rw [heq, if_neg nofun, if_pos hg, (h.tree.global s.cur hk).1]
    refine Sound.gvarCount ?_ _
    refine h.entry (p := s.heapSize) (by rw [hk]; decide) hn hnone rfl rfl rfl (Nat.le_succ _) ?_
      (Nat.lt_succ_self _) ?_ ?_
    · intro q hq
      exact Function.update_of_ne (by omega) _ _
    · apply (congrArg needsCapture hnew).trans
      unfold needsCapture
      rw [hg]
      rfl
    · intro hb
      rw [hk] at hb
      cases hb

theorem Sound.defineHandle (h : Sound s) {typeId : Nat} {kind : HandleKind} {attr : HandleAttr}
    (hk : (s.scopes s.cur).kind ≠ .func) (hup : attr.upvar = false) :
    Sound (s.defineHandle name typeId kind attr).2 := by
  unfold Scopes.defineHandle
  dsimp only
  split
  · exact h
  · split
    · exact h
    · by_cases hg : (s.scopes s.cur).isGlobal = true
      · exact h.addGlobal (by simpa [NameScope.isGlobal] using hg) hg
      · have hkind : (s.scopes s.cur).kind = .block := by
          have hng : (s.scopes s.cur).kind ≠ .global := by simpa [NameScope.isGlobal] using hg
          revert hk hng
          cases (s.scopes s.cur).kind <;> simp
        rcases addNew_cases s s.cur name _ false with heq | ⟨hn, hnone, heq⟩
        · rw [heq]
          exact h
        · rw [heq, if_neg nofun, if_neg hg]
          exact h.defineLocal hkind hn hnone (if_neg hg) hup

theorem Sound.defineAlias (h : Sound s) {handle : Handle} (hk : (s.scopes s.cur).kind ≠ .func)
    (hneeds : needsCapture handle = false)
    (hblock : (s.scopes s.cur).kind = .block → handle.kind = .typeAlias) :
    Sound (s.defineAlias name handle).2 := by
  unfold Scopes.defineAlias
  split
  · exact h
  · exact h.addAlias hk hneeds hblock

theorem Sound.defineTypeAlias (h : Sound s) {inPool : Bool} {typeId : Nat}
    (hk : (s.scopes s.cur).kind ≠ .func) : Sound (s.defineTypeAlias inPool name typeId).2 := by
  unfold Scopes.defineTypeAlias
  split
  · exact h
  · exact h.defineAlias hk rfl fun _ => rfl

theorem Sound.defineGlobal (h : Sound s) {typeId : Nat} {kind : HandleKind}
    (hk : (s.scopes s.cur).isGlobal = true) : Sound (s.defineGlobal name typeId kind).2 :=
  h.addGlobal (by simpa [NameScope.isGlobal] using hk) rfl

theorem Sound.defineNamedFunction (h : Sound s) {typeId : Nat} :
    Sound (s.defineNamedFunction name typeId).2 := by
  unfold Scopes.defineNamedFunction
  split
  · exact h
  · next hg =>
    split
    · exact h
    · exact h.defineGlobal (by simpa using hg)

theorem Sound.defineMethod (h : Sound s) {invalidRecv hasMethod isInit : Bool} {typeId : Nat} :
    Sound (s.defineMethod invalidRecv hasMethod isInit name typeId).2 := by
  unfold Scopes.defineMethod
  split
  · exact h
  · next hg =>
    split
    · exact h
    · apply h.defineGlobal
      cases hglobal : (s.scopes s.cur).isGlobal with
      | true => rfl
      | false => simp [hglobal] at hg

theorem Sound.addForeign (h : Sound s) (hk : (s.scopes s.cur).kind = .global)
    (hp : p < s.heapSize) (hneeds : needsCapture (s.heap p) = false) :
    Sound (s.add s.cur name p true true).2 := by
  rcases add_cases s s.cur name p true true with ⟨heq, -⟩ | ⟨hn, hnone, heq⟩
  · rw [heq]
    exact h
  · rw [heq, if_pos rfl]
    refine h.entry (by rw [hk]; decide) hn hnone rfl rfl rfl (Nat.le_refl _) (fun _ _ => rfl) hp
      hneeds ?_
    intro hb
    rw [hk] at hb
    cases hb

theorem Sound.push (h : Sound s) {scope : NameScope} (he : Enters s scope) : Sound (s.push scope) :=
  ⟨h.tree.push he.fits, h.slots.push h.tree he, h.captured.push h.tree he⟩

theorem Sound.enterScope (h : Sound s) {kind : ScopeKind} (hs : s.enterScope kind = some t) :
    Sound t := by
  unfold Scopes.enterScope at hs
  obtain ⟨scope, hscope, rfl⟩ := Option.map_eq_some_iff.1 hs
  exact h.push (h.tree.newScope hscope)

theorem Sound.exitScope (h : Sound s) (hs : s.exitScope = some t) : Sound t := by
  unfold Scopes.exitScope at hs
  obtain ⟨b, hb, rfl⟩ := Option.map_eq_some_iff.1 hs
  have hlt := h.tree.lower s.cur b hb
  have hcur := h.tree.cur_lt
  refine h.setCur (by omega) fun x hx _ => ?_
  rw [h.tree.ancestors_some hb]
  exact List.mem_cons_of_mem _ hx

/-- Lookups keep the invariants, also when they fail. -/
theorem Sound.lookup (h : Sound s) : Sound (s.lookupAndCaptureUpVar name).2 := by
  unfold lookupAndCaptureUpVar
  split
  · next scope p funcs hsearch =>
    split
    · next hneeds =>
      obtain ⟨pre, post, hanc, hpre, hp, hfuncs⟩ := search_some hsearch
      rw [List.append_nil] at hfuncs
      have hloop : Loop s name p funcs :=
        ⟨h.tree, h.slots, h.captured, hneeds, pre, scope, post, hanc, hpre, hp, hfuncs⟩
      obtain ⟨h₁, h₂, h₃, -⟩ := hloop.capture scope
      exact ⟨h₁, h₂, h₃⟩
    · exact h
  · exact h

theorem setInlined_heap : ((s.setInlined p).heap q).index = (s.heap q).index ∧
    (((s.setInlined p).heap q).kind = .typeAlias ↔ (s.heap q).kind = .typeAlias) ∧
    needsCapture ((s.setInlined p).heap q) = needsCapture (s.heap q) ∧
    ((s.setInlined p).heap q).attr.upvar = (s.heap q).attr.upvar := by
  unfold setInlined
  dsimp only
  split
  · next hholder =>
    by_cases hq : q = p
    · subst hq
      have hk : (s.heap q).kind ≠ .typeAlias := by
        intro hk
        simp [Handle.isModHolder, hk] at hholder
      have hb : ((s.heap q).kind != .typeAlias) = true := bne_iff_ne.2 hk
      simp only [Function.update_self, needsCapture, hb]
      exact ⟨trivial, ⟨nofun, fun hc => absurd hc hk⟩, rfl, trivial⟩
    · simp only [Function.update_of_ne hq]
      exact ⟨trivial, trivial, trivial, trivial⟩
  · exact ⟨rfl, Iff.rfl, rfl, rfl⟩

theorem Sound.setInlined (h : Sound s) (hk : (s.scopes s.cur).kind = .global) :
    Sound (s.setInlined p) := by
  have hrest : (s.setInlined p).scopes = s.scopes ∧ (s.setInlined p).heapSize = s.heapSize ∧
      (s.setInlined p).cur = s.cur ∧ (s.setInlined p).scopeSize = s.scopeSize := by
    unfold Scopes.setInlined
    dsimp only
    split <;> exact ⟨rfl, rfl, rfl, rfl⟩
  obtain ⟨hscopes, hheapSize, hcur, hsize⟩ := hrest
  have hshape : SameShape s (s.setInlined p) := by
    refine ⟨hcur, hsize, ?_, ?_, ?_, ?_⟩ <;> rw [hscopes] <;> intros <;> rfl
  have hfind : ∀ a n, (s.setInlined p).find a n = s.find a n := by
    intro a n
    unfold Scopes.find
    rw [hscopes]
  refine ⟨h.tree.of_sameShape hshape,
    h.slots.frame h.tree ⟨hshape, Nat.le_of_eq hheapSize.symm, ?_, ?_, ?_, ?_⟩,
    h.captured.frame h.tree h.slots ⟨hshape, ?_, ?_, by rw [hk]; decide,
      List.cons_ne_nil '_' [], fun a n _ => hfind a n, ?_, ?_⟩⟩
  · intro q _
    exact ⟨setInlined_heap.1, setInlined_heap.2.1⟩
  · intro a n q hq
    rw [hfind] at hq
    rw [hheapSize]
    exact ⟨h.slots.heap a n q hq, fun _ _ => hq⟩
  · intro a _
    rw [hscopes]
    exact ⟨rfl, rfl⟩
  · intro a
    rw [hscopes]
  · intro q _
    exact ⟨setInlined_heap.1, setInlined_heap.2.2.1, setInlined_heap.2.2.2⟩
  · intro a
    rw [hscopes]
  · intro n q hq
    rw [hfind]
    exact hq
  · intro n q hq
    rw [hfind] at hq
    exact .inl hq

theorem Sound.createGlobalScope (h : Sound s) {modId : Nat} {parent : Option Nat}
    (hp : ∀ b, parent = some b → b < s.scopeSize ∧ (s.scopes b).kind = .global) :
    Sound (s.createGlobalScope modId parent) := by
  have he : Enters s { modId := modId, parent := parent } :=
    ⟨⟨fun b hb => (hp b hb).1, fun _ => ⟨rfl, fun b hb => (hp b hb).2⟩, nofun, nofun⟩,
      fun hk => absurd rfl hk, rfl, rfl, rfl, nofun⟩
  exact (h.push he).gvarCount _

/-! ## Runs -/

/-- Where a unit starts: there are global scopes only, and `clearLocalSize` has been called. -/
structure Start (s : Scopes) : Prop where
  cur_lt : s.cur < s.scopeSize
  fresh : ∀ a, s.scopeSize ≤ a → s.scopes a = {}
  lower : ∀ a b, (s.scopes a).parent = some b → b < a
  global : ∀ a, (s.scopes a).kind = .global ∧ (s.scopes a).maxVarCount = .gvarCount
  named : ∀ a, s.find a [] = none
  handles : ∀ a n p, s.find a n = some p → p < s.heapSize ∧ needsCapture (s.heap p) = false

theorem Start.sound (h : Start s) : Sound s := by
  have hno : ∀ {a : Nat} {kind : ScopeKind}, (s.scopes a).kind = kind → kind = .global := by
    intro a kind hk
    rw [← hk]
    exact (h.global a).1
  refine ⟨⟨h.cur_lt, h.fresh, h.lower, fun a _ => ⟨(h.global a).2, fun b _ => (h.global b).1⟩, ?_, ?_⟩,
    ⟨fun a n p hp => (h.handles a n p hp).1, ?_, ?_, ?_, ?_, ?_⟩,
    ⟨h.named, ?_, fun a n p _ hp => (h.handles a n p hp).2, ?_, ?_, ?_, ?_, ?_⟩⟩
  · intro a hk
    cases hno hk
  · intro a hk
    cases hno hk
  · intro a hk
    cases hno hk
  · intro a n p hk
    cases hno hk
  · intro a n m p q hk
    cases hno hk
  · intro a f hk
    cases hno hk
  · intro a _ hk
    cases hno hk
  · intro a b n m p hp _ hc
    rw [(h.handles a n p hp).2] at hc
    cases hc
  · intro a n p _ hp hc
    rw [(h.handles a n p hp).2] at hc
    cases hc
  · intro f n p hk
    cases hno hk
  · intro f i hk
    cases hno hk
  · intro f n m p q hk
    cases hno hk
  · intro f n p _ hk
    cases hno hk

/-- One call. Local variables are defined in blocks, not in the scope of a function; modules are
loaded, and what they have is imported, at the top level. -/
inductive Define : Scopes → Scopes → Prop
  | enter {s t : Scopes} (kind : ScopeKind) (h : s.enterScope kind = some t) : Define s t
  | exit {s t : Scopes} (h : s.exitScope = some t) : Define s t
  | define {s : Scopes} (name : Types.Text) (typeId : Nat) (kind : HandleKind) (attr : HandleAttr)
      (hk : (s.scopes s.cur).kind ≠ .func) (hup : attr.upvar = false) :
      Define s (s.defineHandle name typeId kind attr).2
  | typeAlias {s : Scopes} (inPool : Bool) (name : Types.Text) (typeId : Nat)
      (hk : (s.scopes s.cur).kind ≠ .func) : Define s (s.defineTypeAlias inPool name typeId).2
  | function {s : Scopes} (name : Types.Text) (typeId : Nat) :
    Define s (s.defineNamedFunction name typeId).2
  | method {s : Scopes} (invalidRecv hasMethod isInit : Bool) (name : Types.Text) (typeId : Nat) :
      Define s (s.defineMethod invalidRecv hasMethod isInit name typeId).2
  | lookup {s : Scopes} (name : Types.Text) : Define s (s.lookupAndCaptureUpVar name).2
  | createModule {s : Scopes} (modId : Nat) (parent : Option Nat)
      (hk : (s.scopes s.cur).kind = .global)
      (hp : ∀ b, parent = some b → b < s.scopeSize ∧ (s.scopes b).kind = .global) :
      Define s (s.createGlobalScope modId parent)
  | switchModule {s : Scopes} (a : Nat) (hk : (s.scopes s.cur).kind = .global)
      (ha : a < s.scopeSize) (hka : (s.scopes a).kind = .global) : Define s { s with cur := a }
  | moduleAlias {s : Scopes} (name : Types.Text) (handle : Handle)
      (hk : (s.scopes s.cur).kind = .global)
      (hg : handle.attr.global = true) : Define s (s.defineAlias name handle).2
  | holder {s : Scopes} (name : Types.Text) (handle : Handle) (hk : (s.scopes s.cur).kind = .global)
      (hg : handle.attr.global = true) : Define s (s.addNew s.cur name handle true).2
  | foreign {s : Scopes} (name : Types.Text) (p : Nat) (hk : (s.scopes s.cur).kind = .global)
      (hp : p < s.heapSize) (hneeds : needsCapture (s.heap p) = false) :
      Define s (s.add s.cur name p true true).2

/-- One step: a call, or a module that was imported before is imported again. -/
inductive Step : Scopes → Scopes → Prop
  | define {s t : Scopes} (h : Define s t) : Step s t
  | inline {s : Scopes} (p : Nat) (hk : (s.scopes s.cur).kind = .global) : Step s (s.setInlined p)

theorem needsCapture_global {handle : Handle} (hg : handle.attr.global = true) :
    needsCapture handle = false := by
  unfold needsCapture
  rw [hg]
  rfl

theorem Define.sound (hs : Define s t) (h : Sound s) : Sound t := by
  have hblock : ∀ {scope : NameScope} {P : Prop}, scope.kind = .global → scope.kind = .block → P := by
    intro scope P hk hb
    rw [hk] at hb
    cases hb
  cases hs with
  | enter kind hs => exact h.enterScope hs
  | exit hs => exact h.exitScope hs
  | define name typeId kind attr hk hup => exact h.defineHandle hk hup
  | typeAlias inPool name typeId hk => exact h.defineTypeAlias hk
  | function name typeId => exact h.defineNamedFunction
  | method invalidRecv hasMethod isInit name typeId => exact h.defineMethod
  | lookup name => exact h.lookup
  | createModule modId parent hk hp => exact h.createGlobalScope hp
  | switchModule a hk ha hka =>
    apply h.setCur ha
    intro x hx hkx
    exact absurd (h.tree.ancestors_global hka hx) hkx
  | moduleAlias name handle hk hg =>
    exact h.defineAlias (by rw [hk]; decide) (needsCapture_global hg) fun hb => hblock hk hb
  | holder name handle hk hg =>
    exact h.addAlias (by rw [hk]; decide) (needsCapture_global hg) fun hb => hblock hk hb
  | foreign name p hk hp hneeds => exact h.addForeign hk hp hneeds

theorem Step.sound (hs : Step s t) (h : Sound s) : Sound t := by
  cases hs with
  | define hd => exact hd.sound h
  | inline p hk => exact h.setInlined hk

theorem sound_of_run {s₀ : Scopes} (h₀ : Start s₀) (h : Relation.ReflTransGen Step s₀ s) :
    Sound s := by
  induction h with
  | refl => exact h₀.sound
  | tail _ hs ih => exact hs.sound ih

/-- What a lookup that finds a variable gives. -/
theorem Sound.lookup_ok (h : Sound s) (hl : s.lookupAndCaptureUpVar name = (.ok q, t)) :
    ∃ v fs, s.declared name (s.ancestors s.cur) = some (v, fs) ∧
      (needsCapture (s.heap v) = false → q = v ∧ t = s) ∧
      (needsCapture (s.heap v) = true → t.Leads q v ∧ (∀ v', t.Leads q v' → v' = v) ∧
        ∀ f ∈ fs, (s.scopes f).kind = .func ∧ ∃ u, t.find f name = some u ∧
          (t.heap u).attr.upvar = true ∧
          (∃ c, (t.scopes f).captures[(t.heap u).index]? = some c ∧ t.Leads c v) ∧
          ∀ i c, (t.scopes f).captures[i]? = some c → t.Leads c v → i = (t.heap u).index) := by
  unfold lookupAndCaptureUpVar at hl
  split at hl
  · next scope p funcs hsearch =>
    obtain ⟨pre, post, hanc, hpre, hp, hfuncs⟩ := search_some hsearch
    rw [List.append_nil] at hfuncs
    split at hl
    · next hneeds =>
      have hloop : Loop s name p funcs :=
        ⟨h.tree, h.slots, h.captured, hneeds, pre, scope, post, hanc, hpre, hp, hfuncs⟩
      obtain ⟨ht, -, hc, hkept, hend⟩ := hloop.capture scope
      rw [hl] at ht hc hkept hend
      obtain ⟨pre', e, post', hanc', hpre', hq, hnone⟩ := (hend q rfl).path
      have hnofunc : ∀ x ∈ pre', (t.scopes x).kind ≠ .func := by
        have hnil : pre'.filter (fun x => (t.scopes x).isFunc) = [] :=
          List.reverse_eq_nil_iff.1 hnone.symm
        intro x hx hk
        exact List.filter_eq_nil_iff.1 hnil x hx (isFunc_iff.2 hk)
      obtain ⟨v, fs, hdecl, hleads, hfs⟩ := hc.leads ht hanc' hq (hend q rfl).needs
      have hdecl' : s.declared name (s.ancestors s.cur) = some (v, fs) := by
        rw [← hkept.declared, ← h.tree.ancestors_sameShape hkept.shape, ← hkept.shape.cur, hanc',
          declared_append hpre' hnofunc, hdecl]
      refine ⟨v, fs, hdecl', ?_, fun _ => ⟨hleads, fun v' hv' => hc.leads_unique hv' hleads, ?_⟩⟩
      · -- a variable that an upvar leads to is captured
        obtain ⟨d, -, hd⟩ := declared_find hdecl'
        obtain ⟨-, -, hcv⟩ := hc.name_of_leads hleads hq (hend q rfl).needs
        intro hfalse
        rw [hkept.heap v (h.slots.heap d name v hd), hfalse] at hcv
        cases hcv
      · intro f hf
        obtain ⟨hk, u, hu, hlu⟩ := hfs f hf
        refine ⟨by rw [← hkept.shape.kind]; exact hk, u, hu, (hc.func f name u hk hu).2.1,
          hc.leads_captured hk hu hlu, fun i c hi hlc => hc.unique hk hu hlu hi hlc⟩
    · next hneeds =>
      cases hl
      have hk : ¬ (s.scopes scope).isFunc = true := fun hk =>
        hneeds (h.captured.func scope name q (isFunc_iff.1 hk) hp).1
      have hfound : s.declared name (scope :: post) = some (q, []) := by
        rw [declared, if_neg hk, hp]
      obtain ⟨fs, hdecl⟩ : ∃ fs, s.declared name (pre ++ scope :: post) =
          (s.declared name (scope :: post)).map fun r => (r.1, fs ++ r.2) := declared_passed hpre
      refine ⟨q, fs, ?_, fun _ => ⟨rfl, rfl⟩, fun htrue => absurd htrue hneeds⟩
      rw [hanc, hdecl, hfound]
      simp
  · cases hl

/-- In every state of every run: local variables of a function that are visible at the same time
have different slots, which are below the count of the function; a function has one upvar for each
of its captures; and a lookup leads to the variable that the name stands for, through one upvar in
each function on the way. -/
theorem run_sound {s₀ : Scopes} (h₀ : Start s₀) (h : Relation.ReflTransGen Step s₀ s) :
    (∀ a b n m p q, a ∈ s.ancestors s.cur → b ∈ s.ancestors s.cur →
      (s.scopes a).kind = .block → (s.scopes b).kind = .block → s.funcOf a = s.funcOf b →
      s.find a n = some p → s.find b m = some q → (s.heap p).kind ≠ .typeAlias →
      (s.heap q).kind ≠ .typeAlias → (s.heap p).index = (s.heap q).index → a = b ∧ n = m) ∧
    (∀ a n p c, (s.scopes a).kind = .block → s.find a n = some p → (s.heap p).kind ≠ .typeAlias →
      s.funcOf c = s.funcOf a → (s.heap p).index < s.getMaxLocalVarIndex c) ∧
    (∀ f, (s.scopes f).kind = .func → (s.scopes f).captures.Nodup ∧
      (∀ n p, s.find f n = some p → (s.heap p).attr.upvar = true ∧
        (s.heap p).index < (s.scopes f).captures.length) ∧
      ∀ i, i < (s.scopes f).captures.length →
        ∃! n, ∃ p, s.find f n = some p ∧ (s.heap p).index = i) ∧
    ∀ name q t, s.lookupAndCaptureUpVar name = (.ok q, t) →
      ∃ v fs, s.declared name (s.ancestors s.cur) = some (v, fs) ∧
        (needsCapture (s.heap v) = false → q = v ∧ t = s) ∧
        (needsCapture (s.heap v) = true → t.Leads q v ∧ (∀ v', t.Leads q v' → v' = v) ∧
          ∀ f ∈ fs, (s.scopes f).kind = .func ∧ ∃ u, t.find f name = some u ∧
            (t.heap u).attr.upvar = true ∧
            (∃ c, (t.scopes f).captures[(t.heap u).index]? = some c ∧ t.Leads c v) ∧
            ∀ i c, (t.scopes f).captures[i]? = some c → t.Leads c v → i = (t.heap u).index) := by
  have hs := sound_of_run h₀ h
  have hc := hs.captured
  refine ⟨?_, ?_, ?_, ?_⟩
  · intro a b n m p q ha hb hka hkb hfunc hp hq hkp hkq hindex
    exact hs.slots.visible hs.tree ha hb hka hkb hfunc hp hq hkp hkq hindex
  · intro a n p c hk hp hkp hfunc
    exact hs.slots.lt_count hs.tree hk hp hkp hfunc
  · intro f hk
    refine ⟨hc.nodup hk, ?_, ?_⟩
    · intro n p hp
      obtain ⟨-, hup, -, q, hq, -⟩ := hc.func f n p hk hp
      exact ⟨hup, (List.getElem?_eq_some_iff.1 hq).1⟩
    · intro i hi
      obtain ⟨n, p, hp, hidx⟩ := hc.index f i hk hi
      refine ⟨n, ⟨p, hp, hidx⟩, ?_⟩
      rintro m ⟨q, hq, hidx'⟩
      exact hc.inj f m n q p hk hq hp (hidx'.trans hidx.symm)
  · intro name q t hl
    exact hs.lookup_ok hl

/-- A module without names. -/
def topLevel : Scopes where
  heap _ := { typeId := 0, index := 0, kind := .var, modId := 0 }
  heapSize := 0
  scopes _ := {}
  scopeSize := 1
  cur := 0
  gvarCount := 0

theorem topLevel_start : Start topLevel where
  cur_lt := by decide
  fresh _ _ := rfl
  lower _ _ := nofun
  global _ := ⟨rfl, rfl⟩
  named _ := rfl
  handles _ _ _ := nofun

/-- A block of the module, and a variable in it. -/
def inBlock : Scopes :=
  ((topLevel.push { kind := .block, parent := some 0, maxVarCount := .curLocalIndex 0 }).defineHandle
    ['x'] 9 .var {}).2

/-- The body of a closure in that block. -/
def inClosure : Scopes :=
  (inBlock.push { kind := .func, parent := some 1, maxVarCount := .curLocalIndex 0 }).push
    { kind := .block, parent := some 2, maxVarCount := .curLocalIndex 2 }

/-- The closure captures the variable of the block. -/
theorem inClosure_captures : ∃ t, inClosure.lookupAndCaptureUpVar ['x'] = (.ok 1, t) ∧
    t.Leads 1 0 ∧ (t.scopes 2).captures = [0] := by
  have hrun : Relation.ReflTransGen Step topLevel inClosure :=
    (((Relation.ReflTransGen.refl.tail (.define (.enter .block rfl))).tail
      (.define (.define ['x'] 9 .var {} (by decide) rfl))).tail (.define (.enter .func rfl))).tail
      (.define (.enter .block rfl))
  obtain ⟨-, -, -, hlookup⟩ := run_sound topLevel_start hrun
  have hl : inClosure.lookupAndCaptureUpVar ['x'] =
      (.ok 1, (inClosure.lookupAndCaptureUpVar ['x']).2) := rfl
  obtain ⟨v, fs, hdecl, -, hleads⟩ := hlookup ['x'] 1 _ hl
  have hv : inClosure.declared ['x'] (inClosure.ancestors inClosure.cur) = some (0, [2]) := rfl
  rw [hv] at hdecl
  cases hdecl
  exact ⟨_, hl, (hleads rfl).1, rfl⟩

end Arsh.Scope.Scopes
