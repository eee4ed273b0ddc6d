import Arsh.Brace.Words

/-!
# The words of brace expansion

`At j` and `Done` are the two ends of a piece of the loop: the machine goes on with the value
number `j`, or it has finished a word and looks for the next one. `Steps j K` says that from `j`
on the loop finishes the words `K`, each behind the prefix it had at `j`, and then looks for the
next one with the stack it had, except that the groups around `j` now stand at the end of their
alternative. A piece of syntax in front of `j` multiplies the words.
-/

namespace Arsh.Brace

open Machine

/-! ## Places of values -/

section
variable {toks ts us : List Value} {i : Nat} {v : Value}

/-- The values stand at `i`. -/
def Placed (toks : List Value) (i : Nat) (ts : List Value) : Prop := ts <+: toks.drop i

theorem Placed.head (h : Placed toks i (v :: ts)) : toks[i]? = some v := by
  obtain ⟨post, h⟩ := h
  rw [← List.head?_drop, ← h]
  rfl

theorem Placed.left (h : Placed toks i (ts ++ us)) : Placed toks i ts := by
  obtain ⟨post, h⟩ := h
  exact ⟨us ++ post, by rw [← h, List.append_assoc]⟩

theorem Placed.right (h : Placed toks i (ts ++ us)) : Placed toks (i + ts.length) us := by
  obtain ⟨post, h⟩ := h
  refine ⟨post, ?_⟩
  rw [← List.drop_drop, ← h, List.append_assoc, List.drop_left]

theorem Placed.tail (h : Placed toks i (v :: ts)) : Placed toks (i + 1) ts :=
  @Placed.right toks [v] ts i h

theorem Placed.lt (h : Placed toks i (v :: ts)) : i < toks.length :=
  (List.getElem?_eq_some_iff.1 h.head).1

theorem findClose_plain (level : Nat) (hv : v.plain) (post : List Value) :
    findClose level (v :: post) = findClose level post + 1 := by
  cases v with
  | expandMeta m id => cases m <;> first | rfl | cases hv
  | _ => rfl

mutual

/-- The search for a close passes whole words. -/
theorem Word.findClose_flatten : ∀ (w : Word) (level id : Nat) (post : List Value),
    findClose (level + 1) (w.flatten id ++ post) =
      (w.flatten id).length + findClose (level + 1) post
  | .nil, level, id, post => by simp [Word.flatten]
  | .value v rest, level, id, post => by
    rw [Word.flatten, List.cons_append, findClose_plain _ v.2, rest.findClose_flatten level id post,
      List.length_cons]
    omega
  | .group alts rest, level, id, post => by
    rw [Word.flatten, List.cons_append, List.append_assoc]
    show findClose (level + 1 + 1) _ + 1 = _
    rw [alts.findClose_flatten (level + 1) id (id + 1), if_neg (Nat.succ_ne_zero _),
      rest.findClose_flatten level (id + 1 + alts.groups) post, List.length_cons,
      List.length_append]
    omega
  | .seq r rest, level, id, post => by
    rw [Word.flatten]
    show findClose (level + 1) (rest.flatten (id + 1) ++ post) + 1 + 1 + 1 = _
    rw [rest.findClose_flatten level (id + 1) post]
    simp only [List.length_cons]
    omega

/-- The search for the close of a group. -/
theorem Alts.findClose_flatten : ∀ (alts : Alts) (level group id : Nat) (post : List Value),
    findClose (level + 1) (alts.flatten group id ++ post) =
      if level = 0 then (alts.flatten group id).length - 1
      else (alts.flatten group id).length + findClose level post
  | .last w, level, group, id, post => by
    rw [Alts.flatten, List.append_assoc, w.findClose_flatten level id, List.length_append,
      List.length_singleton]
    show _ + (if level + 1 - 1 = 0 then 0 else findClose (level + 1 - 1) post + 1) = _
    rw [Nat.add_sub_cancel]
    split <;> omega
  | .more w rest, level, group, id, post => by
    rw [Alts.flatten, List.append_assoc, w.findClose_flatten level id, List.length_append,
      List.length_cons]
    show _ + (findClose (level + 1) (rest.flatten group (id + w.groups) ++ post) + 1) = _
    rw [rest.findClose_flatten level group (id + w.groups) post]
    have hpos : 0 < (rest.flatten group (id + w.groups)).length := by
      cases rest with
      | last w => simp [Alts.flatten]
      | more w rest => rw [Alts.flatten, List.length_append, List.length_cons]; omega
    split <;> omega

end

end

/-! ## The stack -/

/-- A group around the current place: its number, the end of the current alternative and the
close. -/
structure Enclosing where
  id : Nat
  stop : Nat
  close : Nat

/-- The stack when the ends of the alternatives around have been passed. -/
def mark (ctx : List Enclosing) (st : List ExpandState) : List ExpandState :=
  st.map fun e => match ctx.find? (·.id == e.braceId) with
    | some g => { e with index := g.stop }
    | none => e

/-- A stack in the middle of a word: its groups have numbers below `m`, the last one first, and
the groups around are among them. -/
structure StackOk (ctx : List Enclosing) (m : Nat) (st : List ExpandState) : Prop where
  sorted : st.Pairwise fun x y => y.braceId < x.braceId
  below : ∀ e ∈ st, e.braceId < m
  around : ∀ g ∈ ctx, ∃ e ∈ st, e.braceId = g.id ∧ e.closeIndex = g.close
  nodup : (ctx.map Enclosing.id).Nodup

section
variable {ctx : List Enclosing} {m n : Nat} {st : List ExpandState} {g : Enclosing}
  {e : ExpandState}

theorem mark_cons (e : ExpandState) (st : List ExpandState) :
    mark ctx (e :: st) = (match ctx.find? (·.id == e.braceId) with
      | some g => { e with index := g.stop }
      | none => e) :: mark ctx st := rfl

theorem mark_braceId {e : ExpandState} (h : e ∈ mark ctx st) :
    ∃ e₀ ∈ st, e.braceId = e₀.braceId ∧ e.closeIndex = e₀.closeIndex := by
  obtain ⟨e₀, he, rfl⟩ := List.mem_map.1 h
  refine ⟨e₀, he, ?_⟩
  split <;> exact ⟨rfl, rfl⟩

theorem mark_mark : mark ctx (mark ctx st) = mark ctx st := by
  rw [mark, mark, List.map_map]
  congr 1
  funext e
  show (match ctx.find? (·.id == (match ctx.find? (·.id == e.braceId) with
    | some g => { e with index := g.stop }
    | none => e : ExpandState).braceId) with
    | some g => _
    | none => _) = _
  cases h : ctx.find? (·.id == e.braceId) with
  | none => simp only [h]
  | some g => simp only [h]

theorem find?_of_not_mem {id : Nat} (h : id ∉ ctx.map Enclosing.id) :
    ctx.find? (·.id == id) = none := by
  rw [List.find?_eq_none]
  intro g hg heq
  exact h (List.mem_map.2 ⟨g, hg, by simpa using heq⟩)

/-- A group that is not around keeps its entry. -/
theorem mark_cons_of_not_mem (h : e.braceId ∉ ctx.map Enclosing.id) :
    mark ctx (e :: st) = e :: mark ctx st := by
  rw [mark_cons, find?_of_not_mem h]

theorem mark_cons_self (hg : g.id = e.braceId) :
    mark (g :: ctx) (e :: st) = { e with index := g.stop } :: mark (g :: ctx) st := by
  rw [mark_cons, List.find?_cons_of_pos (by simpa using hg)]

/-- A group that is not on the stack does not matter. -/
theorem mark_skip (h : ∀ e ∈ st, e.braceId ≠ g.id) : mark (g :: ctx) st = mark ctx st := by
  unfold mark
  apply List.map_congr_left
  intro e he
  rw [List.find?_cons_of_neg (by simpa using (h e he).symm)]

/-- The innermost group is marked first. -/
theorem mark_mark_one (h : g.id ∉ ctx.map Enclosing.id) :
    mark ctx (mark [g] st) = mark (g :: ctx) st := by
  rw [mark, mark, mark, List.map_map]
  congr 1
  funext e
  by_cases hg : g.id = e.braceId
  · have hone : [g].find? (·.id == e.braceId) = some g := List.find?_cons_of_pos (by simpa using hg)
    have hcons : (g :: ctx).find? (·.id == e.braceId) = some g :=
      List.find?_cons_of_pos (by simpa using hg)
    have hctx : ctx.find? (·.id == e.braceId) = none := find?_of_not_mem (hg ▸ h)
    simp only [Function.comp_apply, hone, hcons, hctx]
  · have hone : [g].find? (·.id == e.braceId) = none := by
      rw [List.find?_cons_of_neg (by simpa using hg)]
      rfl
    have hcons : (g :: ctx).find? (·.id == e.braceId) = ctx.find? (·.id == e.braceId) :=
      List.find?_cons_of_neg (by simpa using hg)
    simp only [Function.comp_apply, hone, hcons]

theorem StackOk.mono (h : StackOk ctx m st) (hm : m ≤ n) : StackOk ctx n st :=
  { h with below := fun e he => Nat.lt_of_lt_of_le (h.below e he) hm }

theorem StackOk.mark (h : StackOk ctx m st) (ctx' : List Enclosing) :
    StackOk ctx m (mark ctx' st) where
  sorted := by
    refine List.Pairwise.map _ ?_ h.sorted
    intro x y hxy
    split <;> split <;> exact hxy
  below := by
    intro e he
    obtain ⟨e₀, he₀, hid, -⟩ := mark_braceId he
    rw [hid]
    exact h.below e₀ he₀
  around := by
    intro g hg
    obtain ⟨e, he, hid, hclose⟩ := h.around g hg
    refine ⟨_, List.mem_map_of_mem he, ?_⟩
    split <;> exact ⟨hid, hclose⟩
  nodup := h.nodup

theorem StackOk.outer (h : StackOk (g :: ctx) m st) : StackOk ctx m st where
  sorted := h.sorted
  below := h.below
  around := fun x hx => h.around x (List.mem_cons_of_mem _ hx)
  nodup := (List.nodup_cons.1 h.nodup).2

/-- The groups around have smaller numbers than the next group. -/
theorem StackOk.not_mem (h : StackOk ctx m st) (hm : m ≤ n) : n ∉ ctx.map Enclosing.id := by
  intro hn
  obtain ⟨g, hg, rfl⟩ := List.mem_map.1 hn
  obtain ⟨e, he, hid, -⟩ := h.around g hg
  have := h.below e he
  omega

theorem StackOk.push (h : StackOk ctx m st) (he : e.braceId = m) : StackOk ctx (m + 1) (e :: st) where
  sorted := List.pairwise_cons.2 ⟨fun x hx => he ▸ h.below x hx, h.sorted⟩
  below := by
    intro x hx
    rcases List.mem_cons.1 hx with rfl | hx
    · omega
    · exact Nat.lt_succ_of_lt (h.below x hx)
  around := by
    intro g hg
    obtain ⟨x, hx, hid⟩ := h.around g hg
    exact ⟨x, List.mem_cons_of_mem _ hx, hid⟩
  nodup := h.nodup

theorem StackOk.enter (h : StackOk ctx m st) (he : e.braceId = m) (stop : Nat) :
    StackOk (⟨m, stop, e.closeIndex⟩ :: ctx) (m + 1) (e :: st) where
  sorted := (h.push he).sorted
  below := (h.push he).below
  around := by
    intro g hg
    rcases List.mem_cons.1 hg with rfl | hg
    · exact ⟨e, List.mem_cons_self, he, rfl⟩
    · exact (h.push he).around g hg
  nodup := List.nodup_cons.2 ⟨h.not_mem (Nat.le_refl m), h.nodup⟩

theorem setIndex_none {id i : Nat} (h : ∀ e ∈ st, e.braceId < id) : setIndex id i st = none := by
  induction st with
  | nil => rfl
  | cons e st ih =>
    have := h e List.mem_cons_self
    simp only [setIndex, ih fun x hx => h x (List.mem_cons_of_mem _ hx)]
    exact if_neg (by omega)

/-- The group looked for is found. -/
theorem setIndex_eq (hsorted : st.Pairwise fun x y => y.braceId < x.braceId) (he : e ∈ st)
    {i : Nat} (hi : i < 256) :
    setIndex e.braceId i st = some (mark [⟨e.braceId, i, e.closeIndex⟩] st, e.closeIndex) := by
  induction st with
  | nil => cases he
  | cons x st ih =>
    obtain ⟨hx, hst⟩ := List.pairwise_cons.1 hsorted
    rcases List.mem_cons.1 he with rfl | he
    · have hne : ∀ y ∈ st, y.braceId ≠ e.braceId := fun y hy => Nat.ne_of_lt (hx y hy)
      have hskip : mark [⟨e.braceId, i, e.closeIndex⟩] st = st := by
        rw [mark_skip (g := ⟨e.braceId, i, e.closeIndex⟩) hne]
        simp [mark]
      simp only [setIndex, setIndex_none hx]
      rw [if_pos (Nat.le_refl _), mark_cons_self rfl, hskip, toU8,
        Nat.mod_eq_of_lt hi]
    · have hlt := hx e he
      simp only [setIndex, ih hst he]
      rw [mark_cons, List.find?_cons_of_neg (by simpa using Nat.ne_of_lt hlt)]
      rfl

end

/-! ## Pieces of the loop -/

section
variable {σ : Type} {toks : List Value} {emit : List Value → σ → Option σ} {ctx : List Enclosing}
  {i j m : Nat} {st : List ExpandState} {sq : List Int} {w x : List Value} {a : σ} {r : Result σ}
  {K K₁ K₂ : List (List Value)}

/-- The result of the machine that looks for the next word; the values of the prefix `w` are
still there. -/
def Done (toks : List Value) (emit : List Value → σ → Option σ) (st : List ExpandState)
    (sq : List Int) (w : List Value) (a : σ) (r : Result σ) : Prop :=
  ∀ u vals, vals.length = toks.length + 1 → vals.take w.length = w →
    Halts (step toks emit) ⟨.backtrack, toks.length - 1, u, st, sq, vals, a⟩ r

/-- The result of the machine that goes on with the value number `j`, or has a word when there is
none. -/
def At (toks : List Value) (emit : List Value → σ → Option σ) (j : Nat) (st : List ExpandState)
    (sq : List Int) (w : List Value) (a : σ) (r : Result σ) : Prop :=
  if j < toks.length then
    ∀ vals, vals.length = toks.length + 1 → vals.take w.length = w →
      Halts (step toks emit) ⟨.loop, j, w.length, st, sq, vals, a⟩ r
  else match emit w a with
    | none => r = .failed
    | some a => Done toks emit st sq w a r

/-- The words `w ++ k` one after the other. -/
def emitAll (emit : List Value → σ → Option σ) (w : List Value) (K : List (List Value)) (a : σ) :
    Option σ := K.foldlM (fun a k => emit (w ++ k) a) a

/-- The words `w ++ k` are finished, and then the next one is looked for. -/
def Follows (toks : List Value) (emit : List Value → σ → Option σ) (ctx : List Enclosing)
    (st : List ExpandState) (sq : List Int) (w : List Value) (a : σ) (K : List (List Value))
    (r : Result σ) : Prop :=
  match emitAll emit w K a with
  | none => r = .failed
  | some a => Done toks emit (mark ctx st) sq w a r

/-- From `j` on the words `K` are finished. -/
def Steps (toks : List Value) (emit : List Value → σ → Option σ) (j : Nat)
    (ctx : List Enclosing) (m : Nat) (K : List (List Value)) : Prop :=
  ∀ st sq w a r, StackOk ctx m st → w.length ≤ j → Follows toks emit ctx st sq w a K r →
    At toks emit j st sq w a r

theorem Done.append (h : Done toks emit st sq w a r) (x : List Value) :
    Done toks emit st sq (w ++ x) a r := by
  intro u vals hlen hvals
  apply h u vals hlen
  have := congrArg (List.take w.length) hvals
  rwa [List.take_take, List.length_append, Nat.min_eq_left (by omega), List.take_left] at this

theorem emitAll_append : emitAll emit w (K₁ ++ K₂) a =
    (emitAll emit w K₁ a).bind fun a => emitAll emit w K₂ a := by
  rw [emitAll, List.foldlM_append]
  rfl

/-- A common beginning of the words belongs to the prefix. -/
theorem Follows.shift (h : Follows toks emit ctx st sq w a (K.map (x ++ ·)) r) :
    Follows toks emit ctx st sq (w ++ x) a K r := by
  have hsame : emitAll emit w (K.map (x ++ ·)) a = emitAll emit (w ++ x) K a := by
    simp only [emitAll, List.foldlM_map, List.append_assoc]
  unfold Follows at h ⊢
  rw [hsame] at h
  split
  · next hnone => rwa [hnone] at h
  · next a' hsome =>
    rw [hsome] at h
    exact Done.append h x

/-- The first words, and then the others. -/
theorem Follows.split (h : Follows toks emit ctx st sq w a (K₁ ++ K₂) r) :
    match emitAll emit w K₁ a with
    | none => r = .failed
    | some a => Follows toks emit ctx st sq w a K₂ r := by
  unfold Follows at h
  rw [emitAll_append] at h
  split
  · next hnone => rwa [hnone] at h
  · next a' hsome =>
    rw [hsome] at h
    exact h

/-- The end of a round of the loop. -/
theorem halts_behind {s₀ s : State σ} (hs : step toks emit s₀ = behind toks emit s)
    (hlabel : s.label = .loop) (hj : j = s.i + 1) (hle : j ≤ toks.length)
    (hused : s.usedSize = w.length) (hw : w.length ≤ j) (hlen : s.values.length = toks.length + 1)
    (hvals : s.values.take w.length = w) (h : At toks emit j s.stack s.seqStack w s.argv r) :
    Halts (step toks emit) s₀ r := by
  obtain ⟨label, i, u, st, sq, vals, a⟩ := s
  simp only at hlabel hj hused hlen hvals h
  subst hlabel hj hused
  unfold At at h
  unfold behind at hs
  simp only at hs
  split at h
  · rw [if_neg (by omega)] at hs
    exact .of_step hs (h vals hlen hvals)
  · rw [if_pos (by omega), if_pos (by omega), hvals] at hs
    split at h
    · next hnone =>
      rw [hnone] at hs
      rw [h]
      exact .now hs
    · next a' hsome =>
      rw [hsome] at hs
      refine .of_step hs ?_
      have hi : i = toks.length - 1 := by omega
      rw [hi]
      refine h _ _ (by rw [List.length_set, hlen]) ?_
      rw [List.take_set_of_le (Nat.le_refl _), hvals]

theorem At.halts (h : At toks emit j st sq w a r) (hj : j < toks.length) (vals : List Value)
    (hlen : vals.length = toks.length + 1) (hvals : vals.take w.length = w) :
    Halts (step toks emit) ⟨.loop, j, w.length, st, sq, vals, a⟩ r := by
  unfold At at h
  rw [if_pos hj] at h
  exact h vals hlen hvals

theorem step_loop {s : State σ} {v : Value} {s' : State σ} (hl : s.label = .loop)
    (hv : toks[s.i]? = some v) (hb : body toks s v = some s') :
    step toks emit s = behind toks emit s' := by
  simp only [step, hl, hv, hb]

/-- A value is written behind the prefix. -/
theorem take_write {vals : List Value} {v : Value} (hvals : vals.take w.length = w)
    (hlt : w.length < vals.length) :
    (vals.set w.length v).take (w ++ [v]).length = w ++ [v] := by
  rw [List.length_append, List.length_singleton, List.take_add_one, List.take_set_of_le (Nat.le_refl _), hvals,
    List.getElem?_set_self hlt]
  rfl

/-- One value that is neither a brace nor a range. -/
theorem steps_value {v : Value} (hv : v.plain) (hi : toks[i]? = some v)
    (h : Steps toks emit (i + 1) ctx m K) : Steps toks emit i ctx m (product [[v]] K) := by
  intro st sq w a r hok hw hf
  have hlt : i < toks.length := (List.getElem?_eq_some_iff.1 hi).1
  have hbody : ∀ s : State σ, body toks s v = s.write v := by
    intro s
    cases v with
    | expandMeta k id => cases k <;> first | rfl | cases hv
    | _ => rfl
  rw [product_singleton] at hf
  have hnext := h st sq (w ++ [v]) a r hok (by rw [List.length_append]; exact Nat.succ_le_succ hw)
    hf.shift
  unfold At
  rw [if_pos hlt]
  intro vals hlen hvals
  have hwrite : (⟨.loop, i, w.length, st, sq, vals, a⟩ : State σ).write v =
      some ⟨.loop, i, (w ++ [v]).length, st, sq, vals.set w.length v, a⟩ := by
    rw [State.write, if_pos (show w.length < vals.length by omega), List.length_append]
    rfl
  refine halts_behind (step_loop rfl hi ((hbody _).trans hwrite)) rfl rfl hlt rfl ?_ ?_
    (take_write hvals (by omega)) hnext
  · rw [List.length_append]
    exact Nat.succ_le_succ hw
  · show (vals.set w.length v).length = _
    rw [List.length_set, hlen]

theorem Steps.mono {n : Nat} (h : Steps toks emit j ctx n K) (hm : m ≤ n) :
    Steps toks emit j ctx m K :=
  fun st sq w a r hok => h st sq w a r (hok.mono hm)

/-- The end of an alternative: on behind the group. -/
theorem steps_end {g : Enclosing} {k : ExpandMeta} (hk : k = .braceSep ∨ k = .braceClose)
    (hi : toks[g.stop]? = some (.expandMeta k g.id)) (hn : toks.length ≤ 255)
    (hle : g.stop ≤ g.close) (hclose : g.close < toks.length)
    (h : Steps toks emit (g.close + 1) ctx m K) : Steps toks emit g.stop (g :: ctx) m K := by
  intro st sq w a r hok hw hf
  obtain ⟨e, he, hid, hec⟩ := hok.around g List.mem_cons_self
  have hset : setIndex g.id g.stop st = some (mark [g] st, g.close) := by
    have := setIndex_eq hok.sorted he (i := g.stop) (by omega)
    rwa [hid, hec] at this
  have hnot : g.id ∉ ctx.map Enclosing.id := (List.nodup_cons.1 hok.nodup).1
  have hf' : Follows toks emit ctx (mark [g] st) sq w a K r := by
    unfold Follows at hf ⊢
    rwa [mark_mark_one hnot]
  have hnext := h _ _ _ _ _ (hok.outer.mark [g]) (by omega) hf'
  unfold At
  rw [if_pos (by omega)]
  intro vals hlen hvals
  have hbody : body toks ⟨.loop, g.stop, w.length, st, sq, vals, a⟩ (.expandMeta k g.id) =
      some ⟨.loop, g.close, w.length, mark [g] st, sq, vals, a⟩ := by
    have hsep : braceSep ⟨.loop, g.stop, w.length, st, sq, vals, a⟩ g.id =
        some ⟨.loop, g.close, w.length, mark [g] st, sq, vals, a⟩ := by
      simp only [braceSep, hset, Option.map_some]
    rcases hk with rfl | rfl
    · exact hsep
    · exact hsep
  exact halts_behind (j := g.close + 1) (step_loop rfl hi hbody) rfl rfl hclose rfl (by omega) hlen hvals
    hnext

/-- A group whose last alternative is done. -/
theorem Done.close {e : ExpandState} {id : Nat} (hi : toks[e.index]? = some (.expandMeta .braceClose id))
    (h : Done toks emit st sq w a r) : Done toks emit (e :: st) sq w a r := by
  intro u vals hlen hvals
  refine .of_step ?_ (h u vals hlen hvals)
  simp only [step, backtrack, hi]

/-- A group with one more alternative. -/
theorem Done.sep {e : ExpandState} {id : Nat} (hi : toks[e.index]? = some (.expandMeta .braceSep id))
    (hused : e.usedSize = w.length) (hlt : e.index + 1 < toks.length)
    (h : At toks emit (e.index + 1) (e :: st) sq w a r) : Done toks emit (e :: st) sq w a r := by
  intro u vals hlen hvals
  refine .of_step ?_ (h.halts hlt vals hlen hvals)
  simp only [step, backtrack, hi, hused]

/-- A sequence whose last value is done. -/
theorem Done.seq_last {e : ExpandState} {range : BraceRange} {id : Nat} {cur : Int}
    (hclose : toks[e.index]? = some (.expandMeta .braceSeqClose id))
    (hrange : toks[e.index - 1]? = some (.range range)) (hnone : tryUpdateSeqValue cur range = none)
    (h : Done toks emit st sq w a r) : Done toks emit (e :: st) (cur :: sq) w a r := by
  intro u vals hlen hvals
  refine .of_step ?_ (h u vals hlen hvals)
  simp only [step, backtrack, hclose, hrange, hnone]

/-- A sequence with one more value. -/
theorem Done.seq_next {e : ExpandState} {range : BraceRange} {id : Nat} {cur ret : Int}
    (hclose : toks[e.index]? = some (.expandMeta .braceSeqClose id))
    (hrange : toks[e.index - 1]? = some (.range range))
    (hsome : tryUpdateSeqValue cur range = some ret) (hused : e.usedSize = w.length)
    (h : ∀ vals, vals.length = toks.length + 1 → vals.take w.length = w →
      Halts (step toks emit) ⟨.loop, e.index - 1 + 1, w.length, e :: st, ret :: sq, vals, a⟩ r) :
    Done toks emit (e :: st) (cur :: sq) w a r := by
  intro u vals hlen hvals
  refine .of_step ?_ (h vals hlen hvals)
  simp only [step, backtrack, hclose, hrange, hsome, hused]

/-- The value of a sequence is written. -/
theorem halts_seqClose {range : BraceRange} {id : Nat} {cur : Int} {text : Text}
    (hrange : toks[i + 1]? = some (.range range))
    (hclose : toks[i + 2]? = some (.expandMeta .braceSeqClose id))
    (hformat : formatSeqValue cur range.digits (range.kind == .char) = some text)
    (hw : w.length ≤ i) (h : At toks emit (i + 3) st (cur :: sq) (w ++ [.str text]) a r)
    (vals : List Value) (hlen : vals.length = toks.length + 1) (hvals : vals.take w.length = w) :
    Halts (step toks emit) ⟨.loop, i + 2, w.length, st, cur :: sq, vals, a⟩ r := by
  have hlt : i + 2 < toks.length := (List.getElem?_eq_some_iff.1 hclose).1
  have hroom : w.length < vals.length := by omega
  have hbody : body toks ⟨.loop, i + 2, w.length, st, cur :: sq, vals, a⟩
      (.expandMeta .braceSeqClose id) = some ⟨.loop, i + 2, (w ++ [Value.str text]).length, st,
        cur :: sq, vals.set w.length (.str text), a⟩ := by
    show braceSeqClose toks _ = _
    simp only [braceSeqClose, show i + 2 - 1 = i + 1 from rfl, hrange, hformat,
      Option.bind_some, State.write]
    rw [if_pos hroom, List.length_append]
    rfl
  refine halts_behind (j := i + 3) (step_loop rfl hclose hbody) rfl rfl hlt rfl ?_ ?_
    (take_write hvals hroom) h
  · rw [List.length_append]
    exact Nat.le_trans (Nat.add_le_add_right hw _) (by simp)
  · show (vals.set w.length (.str text)).length = _
    rw [List.length_set, hlen]

/-- The words behind a value of a sequence. -/
theorem Follows.push {e : ExpandState} (hnot : e.braceId ∉ ctx.map Enclosing.id)
    (h : match emitAll emit w K a with
      | none => r = .failed
      | some a => Done toks emit (e :: mark ctx st) sq w a r) :
    Follows toks emit ctx (e :: st) sq w a K r := by
  unfold Follows
  rw [mark_cons_of_not_mem hnot]
  exact h

/-- The values of a sequence, from the one on top of the stack on. -/
theorem halts_seq {e : ExpandState} {range : SeqRange} {id : Nat} {cur : Int} {vs : List Int}
    (hvs : Enumerates range.range cur vs) (hmem : ∀ v ∈ vs, v ∈ range.values)
    (hrange : toks[i + 1]? = some (.range range.range))
    (hclose : toks[i + 2]? = some (.expandMeta .braceSeqClose id)) (he : e.braceId = m)
    (hei : e.index = i + 2) (hused : e.usedSize = w.length) (hok : StackOk ctx m st)
    (hw : w.length ≤ i) (h : Steps toks emit (i + 3) ctx (m + 1) K)
    (hf : Follows toks emit ctx st sq w a
      (product (vs.map fun v => [.str (range.format v)]) K) r)
    (vals : List Value) (hlen : vals.length = toks.length + 1) (hvals : vals.take w.length = w) :
    Halts (step toks emit) ⟨.loop, i + 2, w.length, e :: st, cur :: sq, vals, a⟩ r := by
  have hnot : e.braceId ∉ ctx.map Enclosing.id := he ▸ hok.not_mem (Nat.le_refl m)
  have hlen₁ : ∀ v : Value, (w ++ [v]).length ≤ i + 3 := by
    intro v
    rw [List.length_append, List.length_singleton]
    omega
  have hrange' : toks[e.index - 1]? = some (.range range.range) := by
    rw [hei]
    exact hrange
  have hclose' : toks[e.index]? = some (.expandMeta .braceSeqClose id) := by rw [hei, hclose]
  induction hvs generalizing st a vals with
  | @last cur hnone =>
    have hformat := range.format_eq (hmem cur List.mem_cons_self)
    refine halts_seqClose hrange hclose hformat hw ?_ vals hlen hvals
    refine h _ _ _ _ _ (hok.push he) (hlen₁ _) (Follows.push hnot ?_)
    rw [List.map_singleton, product_singleton] at hf
    have hshift := hf.shift
    unfold Follows at hshift
    split
    · next hn => rwa [hn] at hshift
    · next a' hs =>
      rw [hs] at hshift
      exact hshift.seq_last hclose' hrange' hnone
  | @next cur ret vs hsome hvs ih =>
    have hformat := range.format_eq (hmem cur List.mem_cons_self)
    refine halts_seqClose hrange hclose hformat hw ?_ vals hlen hvals
    refine h _ _ _ _ _ (hok.push he) (hlen₁ _) (Follows.push hnot ?_)
    rw [List.map_cons, product_cons] at hf
    have hsplit := hf.split
    have hsame : emitAll emit w (K.map ([.str (range.format cur)] ++ ·)) a =
        emitAll emit (w ++ [.str (range.format cur)]) K a := by
      simp only [emitAll, List.foldlM_map, List.append_assoc]
    rw [hsame] at hsplit
    split
    · next hn => rwa [hn] at hsplit
    · next a' hs =>
      rw [hs] at hsplit
      refine Done.append ?_ _
      apply Done.seq_next hclose' hrange' hsome hused
      intro vals hlen hvals
      have hmarked : Follows toks emit ctx (mark ctx st) sq w a'
          (product (vs.map fun v => [.str (range.format v)]) K) r := by
        unfold Follows
        rw [mark_mark]
        exact hsplit
      rw [hei]
      exact ih (fun v hv => hmem v (List.mem_cons_of_mem _ hv)) (hok.mark ctx) hmarked vals hlen hvals

/-- A sequence. -/
theorem steps_seq {range : SeqRange} (hn : toks.length ≤ 255) (hm : m ≤ i)
    (hopen : toks[i]? = some (.expandMeta .braceSeqOpen m))
    (hrange : toks[i + 1]? = some (.range range.range))
    (hclose : toks[i + 2]? = some (.expandMeta .braceSeqClose m))
    (h : Steps toks emit (i + 3) ctx (m + 1) K) :
    Steps toks emit i ctx m (product (range.values.map fun v => [.str (range.format v)]) K) := by
  intro st sq w a r hok hw hf
  have hlt : i + 2 < toks.length := (List.getElem?_eq_some_iff.1 hclose).1
  unfold At
  rw [if_pos (by omega)]
  intro vals hlen hvals
  have hbody : body toks ⟨.loop, i, w.length, st, sq, vals, a⟩ (.expandMeta .braceSeqOpen m) =
      some ⟨.loop, i + 1, w.length, ⟨i + 2, w.length, i + 2, m⟩ :: st, range.range.first :: sq, vals,
        a⟩ := by
    show braceSeqOpen toks _ m = _
    simp only [braceSeqOpen, hrange, toU8]
    rw [Nat.mod_eq_of_lt (by omega), Nat.mod_eq_of_lt (by omega), Nat.mod_eq_of_lt (by omega)]
  have hnext : behind toks emit (⟨.loop, i + 1, w.length, ⟨i + 2, w.length, i + 2, m⟩ :: st,
      range.range.first :: sq, vals, a⟩ : State σ) = .inl ⟨.loop, i + 2, w.length,
        ⟨i + 2, w.length, i + 2, m⟩ :: st, range.range.first :: sq, vals, a⟩ := by
    unfold behind
    simp only
    rw [if_neg (by omega)]
  refine .of_step ((step_loop rfl hopen hbody).trans hnext) ?_
  exact halts_seq range.enumerates (fun v hv => hv) hrange hclose rfl rfl rfl hok hw h hf vals hlen
    hvals

mutual

theorem Word.groups_le : ∀ (x : Word) (id : Nat), x.groups ≤ (x.flatten id).length
  | .nil, id => Nat.zero_le _
  | .value v rest, id => by
    have := rest.groups_le id
    rw [Word.groups, Word.flatten, List.length_cons]
    omega
  | .group alts rest, id => by
    have h₁ := alts.groups_le id (id + 1)
    have h₂ := rest.groups_le (id + 1 + alts.groups)
    rw [Word.groups, Word.flatten, List.length_cons, List.length_append]
    omega
  | .seq range rest, id => by
    have := rest.groups_le (id + 1)
    rw [Word.groups, Word.flatten]
    simp only [List.length_cons]
    omega

theorem Alts.groups_le : ∀ (x : Alts) (group id : Nat), x.groups ≤ (x.flatten group id).length
  | .last w, group, id => by
    have := w.groups_le id
    rw [Alts.groups, Alts.flatten, List.length_append]
    omega
  | .more w rest, group, id => by
    have h₁ := w.groups_le id
    have h₂ := rest.groups_le group (id + w.groups)
    rw [Alts.groups, Alts.flatten, List.length_append, List.length_cons]
    omega

end

theorem Alts.flatten_pos (x : Alts) (group id : Nat) : 0 < (x.flatten group id).length := by
  cases x with
  | last w => rw [Alts.flatten, List.length_append, List.length_singleton]; omega
  | more w rest => rw [Alts.flatten, List.length_append, List.length_cons]; omega

/-- The open of a group, when its alternatives finish the words from the first one on. -/
theorem steps_group {alts : Alts} {rest : List Value} (hn : toks.length ≤ 255) (hm : m ≤ i)
    (hplaced : Placed toks i (.expandMeta .braceOpen m :: (alts.flatten m (m + 1) ++ rest)))
    (h : ∀ (e : ExpandState) (st sq w) (a : σ) (r), StackOk ctx m st → e.braceId = m →
      e.closeIndex = i + 1 + (alts.flatten m (m + 1)).length - 1 → e.usedSize = w.length →
      w.length ≤ i + 1 → Follows toks emit ctx st sq w a K r →
        At toks emit (i + 1) (e :: st) sq w a r) : Steps toks emit i ctx m K := by
  intro st sq w a r hok hw hf
  have hpos := alts.flatten_pos m (m + 1)
  have hend : i + 1 + (alts.flatten m (m + 1)).length ≤ toks.length := by
    obtain ⟨post, hpost⟩ := hplaced.tail
    have := congrArg List.length hpost
    simp only [List.length_append, List.length_drop] at this
    omega
  have hfind : findClose 1 (toks.drop (i + 1)) = (alts.flatten m (m + 1)).length - 1 := by
    obtain ⟨post, hpost⟩ := hplaced.tail
    rw [← hpost, List.append_assoc]
    exact alts.findClose_flatten 0 m (m + 1) _
  unfold At
  rw [if_pos (by omega)]
  intro vals hlen hvals
  have hbody : body toks ⟨.loop, i, w.length, st, sq, vals, a⟩ (.expandMeta .braceOpen m) =
      some ⟨.loop, i, w.length,
        ⟨i, w.length, i + 1 + (alts.flatten m (m + 1)).length - 1, m⟩ :: st, sq, vals, a⟩ := by
    show some (braceOpen toks _ m) = _
    simp only [braceOpen, hfind, toU8]
    rw [Nat.mod_eq_of_lt (by omega), Nat.mod_eq_of_lt (by omega), Nat.mod_eq_of_lt (by omega),
      Nat.mod_eq_of_lt (by omega), Nat.add_sub_assoc hpos]
  have hnext := h ⟨i, w.length, i + 1 + (alts.flatten m (m + 1)).length - 1, m⟩ st sq w a r hok rfl
    rfl rfl (by omega) hf
  exact halts_behind (j := i + 1) (step_loop rfl hplaced.head hbody) rfl rfl (by omega) rfl
    (by omega) hlen hvals hnext

mutual

/-- A word in front multiplies the words. -/
theorem Word.steps (hn : toks.length ≤ 255) : ∀ (x : Word) (i m : Nat) (ctx : List Enclosing)
    (K : List (List Value)), Placed toks i (x.flatten m) → m ≤ i →
    Steps toks emit (i + (x.flatten m).length) ctx (m + x.groups) K →
    Steps toks emit i ctx m (product x.expand K)
  | .nil, i, m, ctx, K, _, _, h => by
    rw [Word.expand, product_nil_one]
    exact h
  | .value v rest, i, m, ctx, K, hp, hm, h => by
    rw [Word.flatten] at hp h
    rw [Word.expand, product_assoc]
    refine steps_value v.2 hp.head (Word.steps hn rest (i + 1) m ctx K hp.tail (by omega) ?_)
    rwa [List.length_cons, Nat.add_comm _ 1, ← Nat.add_assoc] at h
  | .group alts rest, i, m, ctx, K, hp, hm, h => by
    rw [Word.flatten] at hp h
    rw [Word.expand, product_assoc]
    apply steps_group hn hm hp
    intro e st sq w a r hok he hclose hused hw hf
    have hgroups := alts.groups_le m (m + 1)
    refine Alts.at_first hn alts (i + 1) (m + 1) m ctx _ hp.tail.left (Nat.lt_succ_self m) (by omega)
      ?_ e st sq w a r hok he hclose hused hw hf
    refine Word.steps hn rest _ (m + 1 + alts.groups) ctx K hp.tail.right (by omega) ?_
    rw [List.length_cons, List.length_append] at h
    have hpos : i + ((alts.flatten m (m + 1)).length + (rest.flatten (m + 1 + alts.groups)).length + 1) =
        i + 1 + (alts.flatten m (m + 1)).length + (rest.flatten (m + 1 + alts.groups)).length := by
      omega
    have hcount : m + (Word.group alts rest).groups = m + 1 + alts.groups + rest.groups := by
      rw [Word.groups]
      omega
    rwa [hpos, hcount] at h
  | .seq range rest, i, m, ctx, K, hp, hm, h => by
    rw [Word.flatten] at hp h
    rw [Word.expand, product_assoc]
    refine steps_seq hn hm hp.head hp.tail.head hp.tail.tail.head
      (Word.steps hn rest (i + 3) (m + 1) ctx K hp.tail.tail.tail (by omega) ?_)
    have hpos : i + 3 + (rest.flatten (m + 1)).length =
        i + ((rest.flatten (m + 1)).length + 1 + 1 + 1) := by omega
    have hcount : m + 1 + rest.groups = m + (Word.seq range rest).groups := by
      rw [Word.groups]
      omega
    rw [hpos, hcount]
    exact h

/-- The alternatives of a group, from one of them on; the group is on top of the stack. -/
theorem Alts.at_first (hn : toks.length ≤ 255) : ∀ (x : Alts) (i m group : Nat)
    (ctx : List Enclosing) (K : List (List Value)), Placed toks i (x.flatten group m) →
    group < m → m ≤ i → Steps toks emit (i + (x.flatten group m).length) ctx (m + x.groups) K →
    ∀ (e : ExpandState) (st sq w) (a : σ) (r), StackOk ctx group st → e.braceId = group →
      e.closeIndex = i + (x.flatten group m).length - 1 → e.usedSize = w.length → w.length ≤ i →
      Follows toks emit ctx st sq w a (product x.expand K) r → At toks emit i (e :: st) sq w a r
  | .last w', i, m, group, ctx, K, hp, hg, hm, h, e, st, sq, w, a, r, hok, he, hclose, hused, hw, hf => by
    rw [Alts.flatten] at hp h hclose
    rw [List.length_append, List.length_singleton] at h hclose
    have hstop : toks[i + (w'.flatten m).length]? = some (.expandMeta .braceClose group) :=
      hp.right.head
    have hlt := hp.right.lt
    have hce : e.closeIndex = i + (w'.flatten m).length := by omega
    have hend := steps_end (g := ⟨group, i + (w'.flatten m).length, e.closeIndex⟩) (.inr rfl) hstop hn
      (by simp only; omega) (by simp only; omega) (by
        rw [hce, Nat.add_assoc]
        exact h)
    refine Word.steps hn w' i m _ K hp.left hm hend (e :: st) sq w a r ?_ hw ?_
    · exact (hok.enter he _).mono hg
    · have hskip : mark (⟨group, i + (w'.flatten m).length, e.closeIndex⟩ :: ctx) st = mark ctx st :=
        mark_skip fun x hx => Nat.ne_of_lt (hok.below x hx)
      rw [Alts.expand] at hf
      unfold Follows at hf ⊢
      split
      · next hnone => rwa [hnone] at hf
      · next a' hsome =>
        rw [hsome] at hf
        rw [mark_cons_self he.symm, hskip]
        exact Done.close hstop hf
  | .more w' rest, i, m, group, ctx, K, hp, hg, hm, h, e, st, sq, w, a, r, hok, he, hclose, hused, hw,
    hf => by
    rw [Alts.flatten] at hp h hclose
    rw [List.length_append, List.length_cons] at h hclose
    rw [Alts.groups] at h
    have hstop : toks[i + (w'.flatten m).length]? = some (.expandMeta .braceSep group) :=
      hp.right.head
    have hrest := hp.right.tail
    have hpos := rest.flatten_pos group (m + w'.groups)
    have hcount := w'.groups_le m
    have hlt : e.closeIndex < toks.length := by
      obtain ⟨post, hpost⟩ := hrest
      have := congrArg List.length hpost
      simp only [List.length_append, List.length_drop] at this
      omega
    have hbehind : i + ((w'.flatten m).length + ((rest.flatten group (m + w'.groups)).length + 1)) =
        e.closeIndex + 1 := by omega
    rw [hbehind] at h
    have hend := steps_end (g := ⟨group, i + (w'.flatten m).length, e.closeIndex⟩) (.inl rfl) hstop hn
      (by simp only; omega) hlt (h.mono (show m + w'.groups ≤ m + (w'.groups + rest.groups) by omega))
    refine Word.steps hn w' i m _ K hp.left hm hend (e :: st) sq w a r ?_ hw ?_
    · exact (hok.enter he _).mono hg
    · have hskip : mark (⟨group, i + (w'.flatten m).length, e.closeIndex⟩ :: ctx) st = mark ctx st :=
        mark_skip fun x hx => Nat.ne_of_lt (hok.below x hx)
      rw [Alts.expand, product_append] at hf
      have hsplit := hf.split
      unfold Follows
      split
      · next hnone => rwa [hnone] at hsplit
      · next a' hsome =>
        rw [hsome] at hsplit
        rw [mark_cons_self he.symm, hskip]
        refine Done.sep hstop hused (by simp only; omega) ?_
        have hmarked : Follows toks emit ctx (mark ctx st) sq w a' (product rest.expand K) r := by
          unfold Follows
          rw [mark_mark]
          exact hsplit
        refine Alts.at_first hn rest _ (m + w'.groups) group ctx K hrest (by omega)
          (by omega) ?_ _ (mark ctx st) sq w a' r (hok.mark ctx) he
          (show e.closeIndex = _ by omega) hused (by omega) hmarked
        have hat : i + (w'.flatten m).length + 1 + (rest.flatten group (m + w'.groups)).length =
            e.closeIndex + 1 := by omega
        rw [hat, Nat.add_assoc]
        exact h

end

end

/-- What `applyBraceExpansion` does to the arguments: the words of the syntax, one after the
other, until one of them fails. -/
def expansion {σ : Type} (emit : List Value → σ → Option σ) (x : Word) (argv : σ) : Result σ :=
  match x.expand.foldlM (fun a w => emit w a) argv with
  | none => .failed
  | some a => .done a

/-- The loop ends, without an index out of range, and has finished the words of the argument in
their order. -/
theorem applyBraceExpansion_eq {σ : Type} (emit : List Value → σ → Option σ) (x : Word) (argv : σ)
    (hpos : x.flatten 0 ≠ []) (hsize : (x.flatten 0).length ≤ 255) :
    Halts (step (x.flatten 0) emit) (State.init (x.flatten 0) argv) (expansion emit x argv) := by
  generalize htoks : x.flatten 0 = toks at *
  have hlen : 0 < toks.length := List.length_pos_of_ne_nil hpos
  have hlast : Steps toks emit (0 + (x.flatten 0).length) [] (0 + x.groups) [[]] := by
    intro st sq w a r hok hw hf
    unfold At
    rw [htoks, if_neg (by omega)]
    unfold Follows emitAll at hf
    simp only [List.foldlM_cons, List.foldlM_nil, List.append_nil] at hf
    have hmark : mark [] st = st := by simp [mark]
    rw [hmark] at hf
    cases h : emit w a with
    | none => rwa [h] at hf
    | some a' => rwa [h] at hf
  have hsteps := Word.steps hsize x 0 0 [] [[]] (by rw [htoks]; exact List.prefix_refl _)
    (Nat.le_refl 0) hlast
  have hok : StackOk [] 0 [] := ⟨.nil, by simp, by simp, .nil⟩
  have hat := hsteps [] [] [] argv (expansion emit x argv) hok (Nat.le_refl 0) (by
    rw [product_one_nil]
    unfold Follows emitAll expansion
    split
    · next hnone =>
      simp only [List.nil_append] at hnone
      rw [hnone]
    · next a' hsome =>
      simp only [List.nil_append] at hsome
      rw [hsome]
      -- behind the last word the stack is empty and the loop has no value left
      intro u vals hvlen _
      refine .of_step (t := ⟨.loop, toks.length - 1 + 1, u, [], [], vals, a'⟩) ?_ (.now ?_)
      · rfl
      · have hout : toks[toks.length - 1 + 1]? = none := List.getElem?_eq_none (by omega)
        simp only [step, hout])
  exact hat.halts hlen _ (by simp) rfl

/-- `{x,y}{1..2}`. -/
def sampleWord : Word :=
  .group (.more (.value ⟨.str ['x'], rfl⟩ .nil) (.last (.value ⟨.str ['y'], rfl⟩ .nil)))
    (.seq ⟨⟨1, 2, 1, 0, .int⟩, by decide, by decide, by decide, by decide⟩ .nil)

example : sampleWord.expand = [[.str ['x'], .str ['1']], [.str ['x'], .str ['2']],
    [.str ['y'], .str ['1']], [.str ['y'], .str ['2']]] := by decide

theorem applyBraceExpansion_eq_sample :
    Halts (step (sampleWord.flatten 0) fun w argv => some (argv ++ [w]))
      (State.init (sampleWord.flatten 0) [])
      (expansion (fun w argv => some (argv ++ [w])) sampleWord []) :=
  applyBraceExpansion_eq _ sampleWord [] (by decide) (by decide)

end Arsh.Brace
