import Arsh.Regex.Correct
import Arsh.Regex.Prefilter
import Arsh.Regex.Strings

/-!
# What the prefilter skips

`Dead` is `collect` read as a statement: the code from `a` to `stop` cannot succeed at the position
`q`, because every way through it comes to an instruction that rejects the text there before it has
consumed anything. The search of a node whose code is dead fails, or stays at `q` and leaves the
code behind it dead (`stays`).
-/

namespace Arsh.Regex

open UnicodeUtil

/-! ## Searches that stay -/

namespace Search

/-- Every success is at `q`, and there is one only if `P` holds. -/
def Stays (q : Nat) (P : Prop) : Search → Prop
  | .fail _ => True
  | .found p _ _ next => p = q ∧ P ∧ ∀ c, (next c).Stays q P

section
variable {q : Nat} {P Q : Prop} {r : Search}

theorem stays_one (h : P) (c : Captures) (u : Undo) : (one q c u).Stays q P :=
  ⟨rfl, h, fun _ => trivial⟩

theorem stays_none {o : Option Nat} (h : o = none) (c : Captures) (u : Undo) :
    (ofOption c u o).Stays q P := by
  rw [h]
  trivial

theorem Stays.mono (h : r.Stays q P) (hPQ : P → Q) : r.Stays q Q := by
  induction r with
  | fail => trivial
  | found p c u next ih => exact ⟨h.1, hPQ h.2.1, fun c => ih c (h.2.2 c)⟩

theorem Stays.orElse {f : Captures → Search} (h : r.Stays q P) (hf : ∀ c, (f c).Stays q P) :
    (r.orElse f).Stays q P := by
  induction r with
  | fail c => exact hf c
  | found p c u next ih => exact ⟨h.1, h.2.1, fun c => ih c (h.2.2 c)⟩

theorem Stays.restoring (h : r.Stays q P) (u : Undo) : (r.restoring u).Stays q P :=
  h.orElse fun _ => trivial

theorem Stays.bind {f : Nat → Captures → Undo → Search} (h : r.Stays q P)
    (hf : P → ∀ c u, (f q c u).Stays q Q) : (r.bind f).Stays q Q := by
  induction r with
  | fail c => trivial
  | found p c u next ih =>
    obtain ⟨rfl, hP, hn⟩ := h
    exact (hf hP c u).orElse fun c => ih c (hn c)

end

end Search

/-! ## Dead code -/

/-- The byte at `q` is none of `bytes`. -/
def Misses (E : Env) (q : Nat) (bytes : List Nat) : Prop := ∀ b, E.bytes[q]? = some b → b ∉ bytes

/-- An instruction behind which, or at which, the code cannot succeed at `q`, given where the code
behind it is dead. -/
def DeadIns (E : Env) (q : Nat) (dead : Nat → Nat → Prop) (a stop : Nat) : Inst → Prop
  | .nop | .matchIns | .jump _ | .word _ | .iword _ | .prepareRadix | .beginCapture _
  | .endCapture _ | .resetCaptures .. | .endLoop _ | .endLookAround => dead (a + 1) stop
  | .alt second => dead (a + 1) second ∧ dead second stop
  | .char c =>
    Misses E q (fillCodePoint E.tables false c) ∨ expect E.bytes true q (codePointToUtf8 c) = none
  | .ichar c => Misses E q (fillCodePoint E.tables true c)
  | .charSet index invert =>
    invert = false ∧ Misses E q (fillMatcher E.tables false (E.regex.matcher index))
  | .icharSet index invert =>
    invert = false ∧ Misses E q (fillMatcher E.tables true (E.regex.matcher index))
  | .radixOrEmoji ins =>
    Misses E q (fillRadixIns E.tables E.regex ins) ∧ (ins.nextOffset ≠ 0 → dead (a + 1) stop)
  | .string index =>
    Misses E q (fillString E.tables false (E.regex.matcher index).asStrRef) ∨
      expect E.bytes true q (E.regex.matcher index).asStrRef = none
  | .beginLoop ins => ins.min > 0 ∧ dead (a + 1) ins.outer
  | .beginLookAround target _ => dead target stop
  | _ => False

/-- The code from `a` to `stop` cannot succeed at `q`, as `fuel` instructions show. -/
def Dead (E : Env) (q : Nat) : Nat → Nat → Nat → Prop
  | 0, _, _ => False
  | fuel + 1, a, stop =>
    a ≠ stop ∧ ∃ ins, E.regex.instSeq[a]? = some ins ∧ DeadIns E q (Dead E q fuel) a stop ins

section
variable {E : Env} {q : Nat} {bytes bytes' : List Nat} {a stop : Nat}

theorem Misses.left (h : Misses E q (bytes ++ bytes')) : Misses E q bytes :=
  fun b hb hm => h b hb (List.mem_append_left _ hm)

theorem Misses.right (h : Misses E q (bytes ++ bytes')) : Misses E q bytes' :=
  fun b hb hm => h b hb (List.mem_append_right _ hm)

/-- Where none of the first bytes stands the code is dead. -/
theorem dead_of_collect {fuel : Nat}
    (h : collect E.tables E.regex fuel a stop = some bytes) (hm : Misses E q bytes) :
    Dead E q fuel a stop := by
  induction fuel generalizing a stop bytes with
  | zero => cases h
  | succ fuel ih =>
    rw [collect] at h
    rw [Dead]
    split at h
    · cases h
    · next hne =>
      cases hi : E.regex.instSeq[a]? with
      | none => rw [hi] at h; cases h
      | some ins =>
        refine ⟨hne, ins, rfl, ?_⟩
        rw [hi] at h
        cases ins with
        | nop | matchIns | jump | word | iword | prepareRadix | beginCapture | endCapture
        | resetCaptures | endLoop | endLookAround => exact ih h hm
        | alt second =>
          simp only [Option.bind_eq_bind, Option.bind_eq_some_iff] at h
          obtain ⟨first, h₁, rest, h₂, h⟩ := h
          cases h
          exact ⟨ih h₁ hm.left, ih h₂ hm.right⟩
        | char c | string index =>
          cases h
          exact .inl hm
        | ichar c =>
          cases h
          exact hm
        | charSet index invert | icharSet index invert =>
          cases invert with
          | true => cases h
          | false =>
            cases h
            exact ⟨rfl, hm⟩
        | radixOrEmoji ins =>
          simp only at h
          split at h
          · simp only [Option.bind_eq_bind, Option.bind_eq_some_iff] at h
            obtain ⟨rest, h₁, h⟩ := h
            cases h
            exact ⟨hm.left, fun _ => ih h₁ hm.right⟩
          · next hn =>
            cases h
            exact ⟨hm.left, fun h => absurd (by simpa using h) hn⟩
        | beginLoop ins =>
          simp only at h
          split at h
          · next hmin => exact ⟨hmin, ih h hm⟩
          · cases h
        | beginLookAround target negate => exact ih h hm
        | start | stop | any | anyExceptNL | lbAny | grapheme | lbChar | lbCharSet | prepareLBRadix
        | lbRadixOrEmoji | lbString | lbEndCapture | backRef | ibackRef | lbBackRef => cases h

/-! ## Rejection -/

variable {cs : List Nat} {i : Nat}

/-- The first byte of the character at a position. -/
theorem getElem?_encode_off (hcs : CodePoints cs) (hi : i < cs.length) :
    (encode cs)[off cs i]? = (codePointToUtf8 cs[i]).head? := by
  obtain ⟨b, bs, e, -⟩ := codePointToUtf8_shape (hcs _ (List.getElem_mem hi))
  have : (encode cs)[off cs i]? = ((encode cs).drop (off cs i))[0]? := by simp
  rw [this, encode_drop, List.drop_eq_getElem_cons hi, encode_cons, e]
  rfl

/-- Where the bytes of a code point are missed, there is another character. -/
theorem Misses.codePoint (hT : E.tables.Ok) (hcs : CodePoints cs) (hE : E.bytes = encode cs)
    {fold : Bool} {e : Nat} (h : Misses E (off cs i) (fillCodePoint E.tables fold e))
    (hi : i < cs.length) : (if fold then E.tables.simpleCaseFolding cs[i] else cs[i]) ≠ e := by
  intro he
  have hget := getElem?_encode_off hcs hi
  obtain ⟨b, bs, hb, -⟩ := codePointToUtf8_shape (hcs _ (List.getElem_mem hi))
  rw [hb] at hget
  have hnot := h b (hE ▸ hget)
  have hself : b ∈ (codePointToUtf8 cs[i]).take 1 := by rw [hb]; exact List.mem_cons_self
  rw [fillCodePoint, List.mem_append, not_or] at hnot
  cases fold with
  | false =>
    rw [if_neg Bool.false_ne_true] at he
    exact hnot.1 (he ▸ hself)
  | true =>
    rw [if_pos rfl] at he hnot
    rcases hT.unfold cs[i] with heq | hmem
    · rw [he] at heq
      exact hnot.1 (heq ▸ hself)
    · rw [he] at hmem
      exact hnot.2 (List.mem_flatMap.2 ⟨_, hmem, hself⟩)

theorem Misses.matcher (hT : E.tables.Ok) (hcs : CodePoints cs) (hE : E.bytes = encode cs)
    {fold : Bool} {m : Matcher} (h : Misses E (off cs i) (fillMatcher E.tables fold m))
    (hi : i < cs.length) :
    m.contains (if fold then E.tables.simpleCaseFolding cs[i] else cs[i]) = false := by
  have key : ∀ c, (∀ b ∈ fillCodePoint E.tables fold c, b ∈ fillMatcher E.tables fold m) →
      (if fold then E.tables.simpleCaseFolding cs[i] else cs[i]) ≠ c := fun c hc =>
    Misses.codePoint hT hcs hE (fun b hb hm => h b hb (hc b hm)) hi
  generalize (if fold then E.tables.simpleCaseFolding cs[i] else cs[i]) = x at key ⊢
  by_contra hx
  rw [Bool.not_eq_false] at hx
  refine key x (fun b hb => ?_) rfl
  cases m with
  | ascii set =>
    refine List.mem_flatMap.2 ⟨x, List.mem_filter.2 ⟨?_, hx⟩, hb⟩
    simp only [Matcher.contains, AsciiSet.contains, Bool.and_eq_true, decide_eq_true_eq] at hx
    exact List.mem_range.2 (by omega)
  | codePointSet set =>
    obtain ⟨r, hr, hx⟩ := List.any_eq_true.1 hx
    simp only [Bool.and_eq_true, decide_eq_true_eq] at hx
    refine List.mem_flatMap.2 ⟨r, hr, List.mem_flatMap.2 ⟨x, List.mem_range'_1.2 ?_, hb⟩⟩
    omega
  | radix | string => cases hx

/-- Where the bytes of a string are missed, it does not begin. -/
theorem Misses.string (hT : E.tables.Ok) (hcs : CodePoints cs) (hE : E.bytes = encode cs)
    {fold : Bool} {xs : List Nat} (hxs : CodePoints xs) (hne : xs ≠ [])
    (h : Misses E (off cs i) (fillString E.tables fold (encode xs))) :
    ¬ xs <+: foldText E.tables fold (cs.drop i) := by
  intro hp
  cases xs with
  | nil => exact hne rfl
  | cons x xs =>
    have hi : i < cs.length := by
      by_contra hge
      rw [List.drop_of_length_le (Nat.le_of_not_lt hge)] at hp
      have := hp.length_le
      rw [foldText_length] at this
      exact absurd this (Nat.not_succ_le_zero _)
    rw [fillString, encode_cons, decodeFirst_append hxs.cons.1] at h
    apply Misses.codePoint hT hcs hE h hi
    rw [List.drop_eq_getElem_cons hi] at hp
    cases fold with
    | false => exact (List.cons_prefix_cons.1 hp).1.symm
    | true => exact (List.cons_prefix_cons.1 hp).1.symm

/-- Where the bytes of a tree's strings are missed, none of its strings begins. -/
theorem Misses.tree (hT : E.tables.Ok) (hcs : CodePoints cs) (hE : E.bytes = encode cs)
    {fold : Bool} {tree : RadixTree} (ht : tree.Texts) {n : Nat} {keep : Nat → Prop}
    (h : ∀ e ∈ tree.iterate [], keep e.2 → Misses E (off cs i) (fillString E.tables fold e.1))
    (hk : keep (tree.lookup (encode (foldText E.tables fold ((cs.drop i).take n))))) :
    tree.lookup (encode (foldText E.tables fold ((cs.drop i).take n))) = 0 := by
  by_contra hne
  obtain ⟨xs, hxs, hcp, he⟩ := ht.texts _ hne
  have hmem := RadixTree.mem_iterate hne []
  have hmiss := h _ hmem hk
  simp only [List.nil_append] at hmiss
  rw [he] at hmiss
  apply Misses.string hT hcs hE hcp hxs hmiss
  have hfold := foldText_codePoints hT fold ((hcs.drop i).take n)
  rw [encode_inj hcp hfold he.symm, ← foldText_take]
  exact List.take_prefix _ _

theorem Misses.strSet (hT : E.tables.Ok) (hcs : CodePoints cs) (hE : E.bytes = encode cs)
    {s : StrSet} {ins : RadixIns} (hemoji : ins.emoji = s.emoji) (hic : ins.ignoreCase = s.ignoreCase)
    (htree : (E.regex.radix ins).map (·.asRadixTree) = s.tree)
    (h : Misses E (off cs i) (fillRadixIns E.tables E.regex ins)) (hi : i ≤ cs.length) {size : Nat}
    (hw : Window cs true (off cs i) size) :
    consumedSize E.tables true s.emoji s.tree s.ignoreCase
      (radixRef E.bytes true (off cs i) size) = 0 := by
  by_contra hne
  obtain ⟨i', j, hi', hj, hii, hle, hsize⟩ := hw
  obtain rfl := (off_inj hcs hi hi').1 hii
  rw [hE, radixRef_forward hle hsize] at hne
  obtain ⟨n, ⟨hn, hpiece⟩, hr⟩ := consumedSize_encode hT s true ((hcs.take j).drop i) hne
  have htake : piece true ((cs.take j).drop i) n = (cs.drop i).take n := by
    rw [List.length_drop, List.length_take] at hn
    rw [piece, if_pos rfl, List.drop_take, List.take_take, Nat.min_eq_left (by omega)]
  rw [fillRadixIns, hemoji, hic] at h
  simp only [pieceProperty, htake] at hpiece
  rcases hpiece with hp | ⟨hf, hp, hflag⟩
  · refine hp (@Misses.tree E cs i hT hcs hE _ _ s.texts n (fun _ => True) (fun e he _ => ?_) trivial)
    have hsome : s.tree = some s.radix := by
      rw [StrSet.tree, if_neg]
      intro hempty
      exact hp (s.texts.lookup_of_empty hempty _)
    rw [hsome] at htree
    obtain ⟨m, hm, hmr⟩ := Option.map_eq_some_iff.1 htree
    have h' := h.right
    rw [hm] at h'
    intro b hb hmem
    exact h' b hb (List.mem_flatMap.2 ⟨e, hmr.symm ▸ he, hmem⟩)
  · refine hp (@Misses.tree E cs i hT hcs hE _ _ hT.emoji n
      (fun p => hasFlag (rawFlags s.emoji s.ignoreCase) p = true) (fun e he hk => ?_) hflag)
    have h' := h.left
    rw [if_pos (by simpa [RadixIns.hasEmoji, hemoji] using hf)] at h'
    intro b hb hmem
    exact h' b hb (List.mem_flatMap.2 ⟨e, List.mem_filter.2 ⟨he, hk⟩, hmem⟩)

/-! ## The induction -/

/-- The code from `a` to `stop` cannot succeed at `q`. -/
def DeadFrom (E : Env) (q a stop : Nat) : Prop := ∃ fuel, Dead E q fuel a stop

theorem DeadFrom.ne (h : DeadFrom E q a stop) : a ≠ stop := by
  obtain ⟨fuel, h⟩ := h
  cases fuel with
  | zero => exact h.elim
  | succ fuel => exact h.1

theorem not_deadFrom_self : ¬ DeadFrom E q a a := fun h => h.ne rfl

/-- What dead code says of its first instruction. -/
theorem DeadFrom.ins {ins : Inst} (h : DeadFrom E q a stop) (hi : E.regex.instSeq[a]? = some ins) :
    DeadIns E q (DeadFrom E q) a stop ins := by
  obtain ⟨fuel, h⟩ := h
  cases fuel with
  | zero => exact h.elim
  | succ fuel =>
    obtain ⟨-, ins', hi', h⟩ := h
    rw [hi] at hi'
    obtain rfl := Option.some.inj hi'
    cases ins with
    | alt => exact ⟨⟨fuel, h.1⟩, fuel, h.2⟩
    | radixOrEmoji ins => exact ⟨h.1, fun hn => ⟨fuel, h.2 hn⟩⟩
    | beginLoop ins => exact ⟨h.1, fuel, h.2⟩
    | nop | matchIns | jump | word | iword | prepareRadix | beginCapture | endCapture
    | resetCaptures | endLoop | endLookAround | beginLookAround => exact ⟨fuel, h⟩
    | _ => exact h

variable {keep : Bool}

/-- A dead atom rejects the character at the position. -/
theorem atom_none (hT : E.tables.Ok) (hcs : CodePoints cs) (hE : E.bytes = encode cs)
    (hi : i ≤ cs.length) {atom : Atom} {ins : Inst} {ms ms' : List Matcher}
    (hg : CodeGen.generateAtom true ms atom = some (ins, ms')) (hms : ms' <+: E.regex.matchers)
    (hd : DeadIns E (off cs i) (DeadFrom E (off cs i)) a stop ins) :
    atom.iter E.subject true (off cs i) = none := by
  rw [Atom.iter, Env.subject_bytes, hE]
  rcases Nat.lt_or_eq_of_le hi with hlt | rfl
  · rw [consume_forward hcs hlt]
    suffices h : atom.test E.tables cs[i] = false by
      show (if atom.test E.tables cs[i] = true then _ else _) = none
      rw [h]
      rfl
    cases atom with
    | any dotAll => cases dotAll <;> cases hg <;> exact hd.elim
    | char c =>
      cases hg
      apply beq_eq_false_iff_ne.2
      intro he
      rcases hd with hd | hd
      · exact Misses.codePoint hT hcs hE hd hlt he
      · have hc : CodePoints [c] := fun x hx => by
          rw [List.mem_singleton.1 hx, ← he]
          exact hcs _ (List.getElem_mem hlt)
        have := @expect_forward cs [c] hcs hc i
        rw [encode_cons, encode_nil, List.append_nil, ← hE, hd, List.drop_eq_getElem_cons hlt, he]
          at this
        simp [List.isPrefixOf] at this
    | foldChar c =>
      cases hg
      exact beq_eq_false_iff_ne.2 (Misses.codePoint hT hcs hE hd hlt)
    | charSet set invert ignoreCase =>
      simp only [CodeGen.generateAtom, Option.bind_eq_bind, Option.bind_eq_some_iff] at hg
      obtain ⟨⟨index, ms₁⟩, hem, hg⟩ := hg
      cases hg
      have hm := emitMatcher_some hem hms
      have hcontains : ∀ c, (E.regex.matcher index).contains c = set.contains c := by
        intro c
        rw [hm]
        split
        · next s hs => exact tryToGenerateAsciiSet_contains hs c
        · rfl
      cases ignoreCase with
      | false =>
        obtain ⟨rfl, hd⟩ := hd
        have := Misses.matcher hT hcs hE hd hlt
        rw [hcontains] at this
        simpa [Atom.test] using this
      | true =>
        obtain ⟨rfl, hd⟩ := hd
        have := Misses.matcher hT hcs hE hd hlt
        rw [hcontains] at this
        simpa [Atom.test] using this
  · rw [consume_forward_end]

/-- The search of a node whose code is dead stays, and leaves the code behind it dead. -/
def StaysDead (E : Env) (keep : Bool) (q : Nat) (p : Node) : Prop :=
  ∀ {a stop : Nat} {ms ms' : List Matcher} {code : List Inst}, p.wf true = true →
    CodeGen.generate true a ms p = some (code, ms') → ms' <+: E.regex.matchers →
    CodeAt E.regex a code → DeadFrom E q a stop → ∀ c u,
      (p.search false E.subject keep true q c u).Stays q (DeadFrom E q (a + code.length) stop)

theorem stays_chars (hT : E.tables.Ok) (hcs : CodePoints cs) (hE : E.bytes = encode cs)
    (hi : i ≤ cs.length) {xs : List Nat} (hxs : CodePoints xs) {ms ms' : List Matcher}
    {code : List Inst} (hg : CodeGen.generateChars true ms xs = some (code, ms'))
    (hms : ms' <+: E.regex.matchers) (hc : CodeAt E.regex a code)
    (hd : DeadFrom E (off cs i) a stop) (c : Captures) (u : Undo) :
    (Node.searchSeq false E.subject keep (charNodes xs) (off cs i) c u).Stays (off cs i)
      (DeadFrom E (off cs i) (a + code.length) stop) := by
  unfold CodeGen.generateChars at hg
  split at hg
  · cases hg
    exact Search.stays_one hd c u
  · next x =>
    cases hg
    have hnone := @atom_none E a stop cs i hT hcs hE hi (.char x) (.char x) ms ms rfl hms
      (hd.ins hc.head)
    rw [show charNodes [x] = [.atom (.char x)] from rfl, Node.searchSeq, Node.search, hnone]
    trivial
  · next hne _ =>
    simp only [Option.bind_eq_bind, Option.bind_eq_some_iff] at hg
    obtain ⟨⟨index, ms₁⟩, hem, hg⟩ := hg
    cases hg
    have hm : (E.regex.matcher index).asStrRef = encode xs := by rw [emitMatcher_some hem hms]; rfl
    have hins := hd.ins hc.head
    rw [show (if (!true) = true then Inst.lbString index else Inst.string index) = .string index from
      rfl] at hins
    rw [DeadIns, hm] at hins
    rw [searchSeq_chars hcs hxs hE (.off hi)]
    refine Search.stays_none ?_ c u
    rcases hins with hins | hins
    · rw [Env.subject_bytes, hE, expect_forward hcs hxs, if_neg]
      intro hp
      exact @Misses.string E cs i hT hcs hE false xs hxs hne hins (List.isPrefixOf_iff_prefix.1 hp)
    · exact hins

theorem stays_seq (hT : E.tables.Ok) (hcs : CodePoints cs) (hE : E.bytes = encode cs)
    (hi : i ≤ cs.length) {ps : List Node} (ih : ∀ p ∈ ps, StaysDead E keep (off cs i) p) :
    ∀ {pending : List Nat} {a : Nat} {ms ms' : List Matcher} {code : List Inst},
      CodePoints pending → (∀ p ∈ ps, p.wf true = true) →
      CodeGen.generateSeq a ms pending ps = some (code, ms') → ms' <+: E.regex.matchers →
      CodeAt E.regex a code → DeadFrom E (off cs i) a stop → ∀ c u,
      (Node.searchSeq false E.subject keep (charNodes pending ++ ps) (off cs i) c u).Stays (off cs i)
        (DeadFrom E (off cs i) (a + code.length) stop) := by
  induction ps with
  | nil =>
    intro pending a ms ms' code hpend _ hg hms hc hd c u
    rw [List.append_nil]
    exact stays_chars hT hcs hE hi hpend hg hms hc hd c u
  | cons p ps ihs =>
    intro pending a ms ms' code hpend hwf hg hms hc hd c u
    have hmem := fun q (hq : q ∈ ps) => List.mem_cons_of_mem p hq
    have h0 : p ∈ p :: ps := List.mem_cons_self
    have ihs' := @ihs fun q hq => ih q (hmem q hq)
    have hwf' := fun q hq => hwf q (hmem q hq)
    unfold CodeGen.generateSeq at hg
    split at hg
    · next x hch =>
      obtain rfl := charNode_some hch
      have hcp : x ≤ codePointMax := by simpa [Node.wf] using hwf _ h0
      have := ihs' (CodePoints.append_singleton hpend hcp) hwf' hg hms hc hd c u
      rwa [charNodes_append] at this
    · simp only [Option.bind_eq_bind, Option.bind_eq_some_iff] at hg
      obtain ⟨⟨chars, ms₁⟩, h₁, ⟨body, ms₂⟩, h₂, ⟨tail, ms₃⟩, h₃, hg⟩ := hg
      cases hg
      have hms₂ : ms₂ <+: E.regex.matchers :=
        (generateSeq_extends (fun q _ => generate_extends q) h₃).trans hms
      have hms₁ : ms₁ <+: E.regex.matchers := (generate_extends p h₂).trans hms₂
      have hc₃ : CodeAt E.regex (a + chars.length + body.length) tail :=
        hc.right.cast (by rw [List.length_append, Nat.add_assoc])
      have hend : a + (chars ++ body ++ tail).length =
          a + chars.length + body.length + tail.length := by
        simp only [List.length_append]
        omega
      rw [hend, Node.searchSeq_append]
      apply (stays_chars hT hcs hE hi hpend h₁ hms₁ hc.left.left hd c u).bind
      intro hd c u
      apply (ih p h0 (hwf p h0) h₂ hms₂ hc.left.right hd c u).bind
      intro hd c u
      exact ihs' codePoints_nil hwf' h₃ hms hc₃ hd c u

theorem stays_alts {ps : List Node} (ih : ∀ p ∈ ps, StaysDead E keep q p) :
    ∀ {a : Nat} {ms ms' : List Matcher} {code : List Inst}, ps ≠ [] →
      (∀ p ∈ ps, p.wf true = true) → CodeGen.generateAlt true a ms ps = some (code, ms') →
      ms' <+: E.regex.matchers → CodeAt E.regex a code → DeadFrom E q a stop → ∀ c u,
      (Node.searchAlt false E.subject keep true ps q c u).Stays q
        (DeadFrom E q (a + code.length) stop) := by
  induction ps with
  | nil => exact fun h => absurd rfl h
  | cons p ps ihs =>
    intro a ms ms' code _ hwf hg hms hc hd c u
    have hmem := fun q (hq : q ∈ ps) => List.mem_cons_of_mem p hq
    have h0 : p ∈ p :: ps := List.mem_cons_self
    cases ps with
    | nil => exact ih p h0 (hwf p h0) hg hms hc hd c u
    | cons r rs =>
      simp only [CodeGen.generateAlt, Option.bind_eq_bind, Option.bind_eq_some_iff] at hg
      obtain ⟨⟨body, ms₁⟩, h₁, ⟨rest, ms₂⟩, h₂, hg⟩ := hg
      cases hg
      generalize hj : (if (r :: rs).length = 1 && (r :: rs).all Node.isEmpty then 0 else 1) = jumpSize
        at h₂ hc ⊢
      have hms₁ : ms₁ <+: E.regex.matchers :=
        (generateAlt_extends (fun q _ => generate_extends q) h₂).trans hms
      have hbody : CodeAt E.regex (a + 1) body := hc.tail.left.left
      have hjump : CodeAt E.regex (a + 1 + body.length)
          (List.replicate jumpSize (.jump (a + 1 + body.length + jumpSize + rest.length))) :=
        hc.tail.left.right
      have hrest : CodeAt E.regex (a + 1 + body.length + jumpSize) rest :=
        hc.right.cast (by
          simp only [List.length_append, List.length_cons, List.length_replicate]
          omega)
      have hend : a + (Inst.alt (a + 1 + body.length + jumpSize) :: body ++ List.replicate jumpSize
          (Inst.jump (a + 1 + body.length + jumpSize + rest.length)) ++ rest).length =
          a + 1 + body.length + jumpSize + rest.length := by
        simp only [List.length_append, List.length_cons, List.length_replicate]
        omega
      rw [hend]
      obtain ⟨hd₁, hd₂⟩ := hd.ins hc.head
      refine Search.Stays.orElse ((ih p h0 (hwf p h0) h₁ hms₁ hbody hd₁ c u).mono fun h => ?_)
        fun c => ihs (fun q hq => ih q (hmem q hq)) (List.cons_ne_nil _ _)
          (fun q hq => hwf q (hmem q hq)) h₂ hms hrest hd₂ c u
      -- the end of an alternative but the last is the end of what `collect` looked at
      split at hj
      · subst hj
        exact absurd h not_deadFrom_self
      · subst hj
        exact absurd (h.ins hjump.head) not_deadFrom_self

theorem stays_strSet (hT : E.tables.Ok) (hcs : CodePoints cs) (hE : E.bytes = encode cs)
    (hi : i ≤ cs.length) {s : StrSet} {ms ms' : List Matcher} {code : List Inst}
    (hg : CodeGen.generateStrSet true ms s = some (code, ms')) (hms : ms' <+: E.regex.matchers)
    (hc : CodeAt E.regex a code) (hd : DeadFrom E (off cs i) a stop) (c : Captures) (u : Undo)
    {P : Prop} : (s.search E.subject true (off cs i) c u).Stays (off cs i) P := by
  obtain ⟨ins, chars, rfl, hemoji, hic, hnext, hradix, hch⟩ := generateStrSet_code hg hms
  have htree : (E.regex.radix ins).map (·.asRadixTree) = s.tree := by
    rw [hradix]
    cases s.tree <;> rfl
  obtain ⟨hmiss, hrest⟩ := (show DeadFrom E (off cs i) (a + 1) stop from hd.ins hc.head).ins
    hc.tail.head
  have hw : Window cs true (off cs i) (s.maxSize E.subject true (off cs i)) := by
    rw [StrSet.maxSize, Env.subject_bytes, hE]
    exact window_remainSize hcs (.off hi) _
  have hzero := Misses.strSet hT hcs hE hemoji hic htree hmiss hi hw
  rw [StrSet.search, StrSet.searchLoop]
  split
  · simp only [Env.subject_tables, Env.subject_bytes, hzero]
    cases hs : s.chars with
    | none => trivial
    | some atom =>
      rw [hs] at hch
      obtain ⟨i', ms₁, rfl, hi'⟩ := hch
      refine Search.stays_none ?_ c u
      exact atom_none hT hcs hE hi hi' hms ((hrest (by rw [hnext]; exact Nat.one_ne_zero)).ins hc.tail.tail.head)
  · trivial

theorem staysDead (hT : E.tables.Ok) (hcs : CodePoints cs) (hE : E.bytes = encode cs)
    (hi : i ≤ cs.length) (p : Node) : StaysDead E keep (off cs i) p := by
  induction p using Node.induct with
  | empty =>
    intro a stop ms ms' code _ hg _ _ hd c u
    cases hg
    exact Search.stays_one hd c u
  | atom atom =>
    intro a stop ms ms' code _ hg hms hc hd c u
    simp only [CodeGen.generate, Option.bind_eq_bind, Option.bind_eq_some_iff] at hg
    obtain ⟨⟨ins, ms₁⟩, h₁, hg⟩ := hg
    cases hg
    exact Search.stays_none (atom_none hT hcs hE hi h₁ hms (hd.ins hc.head)) c u
  | grapheme =>
    intro a stop ms ms' code _ hg _ hc hd
    cases hg
    exact (hd.ins hc.head).elim
  | boundary b =>
    intro a stop ms ms' code _ hg _ hc hd c u
    cases hg
    have hins := hd.ins hc.head
    rw [Node.search]
    split
    · refine Search.stays_one ?_ c u
      cases b with
      | start | stop => exact hins.elim
      | word ignoreCase => cases ignoreCase <;> exact hins
      | notWord ignoreCase => cases ignoreCase <;> exact hins
    · trivial
  | backRef index named ignoreCase =>
    intro a stop ms ms' code _ hg _ hc hd
    cases hg
    have hins := hd.ins hc.head
    cases ignoreCase <;> exact hins.elim
  | repeated l first last min max greedy p ih =>
    intro a stop ms ms' code hwf hg hms hc hd c u
    simp only [Node.wf, Bool.and_eq_true] at hwf
    simp only [CodeGen.generate, Option.bind_eq_bind, Option.bind_eq_some_iff] at hg
    obtain ⟨⟨body, ms₁⟩, h₁, hg⟩ := hg
    cases hg
    generalize hreset : (if first ≠ 0 then [Inst.resetCaptures first last] else []) = reset
      at h₁ hc ⊢
    obtain ⟨hmin, hd⟩ := hd.ins hc.head
    simp only at hmin hd
    have hd' : DeadFrom E (off cs i) (a + 1 + reset.length)
        (a + 1 + reset.length + body.length + 1) := by
      split at hreset
      · subst hreset
        exact hd.ins hc.tail.head
      · subst hreset
        exact hd
    have hend : E.regex.instSeq[a + 1 + reset.length + body.length]? = some (.endLoop a) := by
      refine @CodeAt.head _ _ [] _ (hc.right.cast ?_)
      simp only [List.length_append, List.length_cons]
      omega
    -- the loop has to be entered, and its body fails
    have hbody : ∀ c u, (p.search false E.subject keep true (off cs i) c u).Stays (off cs i) False :=
      fun c u => (ih hwf.1.1.1.1.1 h₁ hms hc.tail.left.right hd' c u).mono fun h =>
        not_deadFrom_self (h.ins hend)
    rw [Node.search, loopSearch, if_neg (by simp), if_pos hmin]
    exact ((hbody _ _).bind fun h => h.elim).restoring _
  | seq ps ih =>
    intro a stop ms ms' code hwf hg hms hc hd c u
    simp only [Node.wf, Bool.and_eq_true] at hwf
    exact stays_seq hT hcs hE hi ih codePoints_nil (Node.wfList_mem.1 hwf.1.1) hg hms hc hd c u
  | alt ps ih =>
    intro a stop ms ms' code hwf hg hms hc hd c u
    simp only [Node.wf, Bool.and_eq_true] at hwf
    have hwf' := Node.wfList_mem.1 hwf.1.1.1
    rcases ps with _ | ⟨p, _ | ⟨q, qs⟩⟩
    · simp at hwf
    · simp only [CodeGen.generate, Option.bind_eq_bind, Option.bind_eq_some_iff] at hg
      obtain ⟨⟨body, ms₁⟩, h₁, hg⟩ := hg
      cases hg
      have h0 : p ∈ [p] := List.mem_cons_self
      obtain ⟨hd₁, hd₂⟩ := hd.ins hc.head
      rw [List.length_cons, show a + (body.length + 1) = a + 1 + body.length by omega]
      refine Search.Stays.orElse ((ih p h0 (hwf' p h0) h₁ hms hc.tail hd₁ c u).mono fun h => ?_)
        fun c => Search.stays_one hd₂ c u
      exact absurd h not_deadFrom_self
    · exact stays_alts ih (List.cons_ne_nil _ _) hwf' hg hms hc hd c u
  | lookAround lookAhead negate p ih =>
    intro a stop ms ms' code _ hg hms hc hd c u
    simp only [CodeGen.generate, Option.bind_eq_bind, Option.bind_eq_some_iff] at hg
    obtain ⟨⟨body, ms₁⟩, h₁, hg⟩ := hg
    cases hg
    have hdead : DeadFrom E (off cs i) (a + (Inst.beginLookAround (a + 1 + body.length) negate ::
        body ++ [Inst.endLookAround]).length) stop := by
      have := (show DeadFrom E (off cs i) (a + 1 + body.length) stop from hd.ins hc.head).ins
        hc.tail.right.head
      simp only [List.length_append, List.length_cons, List.length_nil]
      rwa [show a + (body.length + 1 + (0 + 1)) = a + 1 + body.length + 1 by omega]
    rw [Node.search]
    unfold lookAroundSearch
    split
    · split
      · exact Search.stays_one hdead _ _
      · trivial
    · split
      · trivial
      · split
        · exact (Search.stays_one hdead _ _).restoring _
        · exact Search.stays_one hdead _ _
  | group index p ih =>
    intro a stop ms ms' code hwf hg hms hc hd c u
    simp only [Node.wf, Bool.and_eq_true] at hwf
    simp only [CodeGen.generate, Option.bind_eq_bind, Option.bind_eq_some_iff] at hg
    obtain ⟨⟨body, ms₁⟩, h₁, hg⟩ := hg
    cases hg
    have hstop : E.regex.instSeq[a + 1 + body.length]? = some (.endCapture index) :=
      hc.tail.right.head
    have hend : a + (Inst.beginCapture index :: body ++ [Inst.endCapture index]).length =
        a + 1 + body.length + 1 := by
      simp only [List.length_append, List.length_cons, List.length_nil]
      omega
    show (Node.search false E.subject keep true (.group index p) (off cs i) c u).Stays (off cs i)
      (DeadFrom E (off cs i) (a + (Inst.beginCapture index :: body ++ [Inst.endCapture index]).length)
        stop)
    rw [hend, Node.search]
    refine ((ih hwf.1.1 h₁ hms hc.tail.left (hd.ins hc.head) _ _).bind fun h c u => ?_).restoring _
    exact Search.stays_one (h.ins hstop) _ _
  | strSet s =>
    intro a stop ms ms' code _ hg hms hc hd c u
    exact stays_strSet hT hcs hE hi hg hms hc hd c u

end

/-! ## First bytes -/

section
variable {T : Tables} {re : CompiledRegex}

theorem fillCodePoint_first {fold : Bool} {c b : Nat} (h : b ∈ fillCodePoint T fold c) :
    utf8ByteSize b ≠ 0 := by
  have key : ∀ c, b ∈ (codePointToUtf8 c).take 1 → utf8ByteSize b ≠ 0 := by
    intro c hb
    by_cases hc : c ≤ codePointMax
    · obtain ⟨b', bs, e, hs, -⟩ := codePointToUtf8_shape hc
      rw [e] at hb
      rw [List.mem_singleton.1 hb, hs]
      exact Nat.succ_ne_zero _
    · have hnil : codePointToUtf8 c = [] := by
        rw [codePointMax] at hc
        unfold codePointToUtf8
        rw [if_neg (by omega), if_neg (by omega), if_neg (by omega), if_neg hc]
      rw [hnil] at hb
      cases hb
  rw [fillCodePoint, List.mem_append] at h
  rcases h with h | h
  · exact key c h
  · split at h
    · obtain ⟨d, -, hd⟩ := List.mem_flatMap.1 h
      exact key d hd
    · cases h

theorem fillMatcher_first {fold : Bool} {m : Matcher} {b : Nat} (h : b ∈ fillMatcher T fold m) :
    utf8ByteSize b ≠ 0 := by
  cases m with
  | ascii set =>
    obtain ⟨c, -, h⟩ := List.mem_flatMap.1 h
    exact fillCodePoint_first h
  | codePointSet set =>
    obtain ⟨r, -, h⟩ := List.mem_flatMap.1 h
    obtain ⟨c, -, h⟩ := List.mem_flatMap.1 h
    exact fillCodePoint_first h
  | radix | string => cases h

theorem fillRadixIns_first {ins : RadixIns} {b : Nat} (h : b ∈ fillRadixIns T re ins) :
    utf8ByteSize b ≠ 0 := by
  rw [fillRadixIns, List.mem_append] at h
  rcases h with h | h
  · split at h
    · obtain ⟨e, -, h⟩ := List.mem_flatMap.1 h
      exact fillCodePoint_first h
    · cases h
  · split at h
    · obtain ⟨e, -, h⟩ := List.mem_flatMap.1 h
      exact fillCodePoint_first h
    · cases h

/-- The prefilter never stops at a following byte. -/
theorem collect_first {fuel a stop : Nat} {bytes : List Nat}
    (h : collect T re fuel a stop = some bytes) : ∀ b ∈ bytes, utf8ByteSize b ≠ 0 := by
  induction fuel generalizing a stop bytes with
  | zero => cases h
  | succ fuel ih =>
    rw [collect] at h
    split at h
    · cases h
    · split at h
      · cases h
      · next ins _ =>
        cases ins with
        | nop | matchIns | jump | word | iword | prepareRadix | beginCapture | endCapture
        | resetCaptures | endLoop | endLookAround => exact ih h
        | alt second =>
          simp only [Option.bind_eq_bind, Option.bind_eq_some_iff] at h
          obtain ⟨first, h₁, rest, h₂, h⟩ := h
          cases h
          intro b hb
          rcases List.mem_append.1 hb with hb | hb
          · exact ih h₁ b hb
          · exact ih h₂ b hb
        | char c | ichar c | string index =>
          cases h
          exact fun b => fillCodePoint_first
        | charSet index invert | icharSet index invert =>
          cases invert with
          | true => cases h
          | false =>
            cases h
            exact fun b => fillMatcher_first
        | radixOrEmoji ins =>
          simp only at h
          split at h
          · simp only [Option.bind_eq_bind, Option.bind_eq_some_iff] at h
            obtain ⟨rest, h₁, h⟩ := h
            cases h
            intro b hb
            rcases List.mem_append.1 hb with hb | hb
            · exact fillRadixIns_first hb
            · exact ih h₁ b hb
          · cases h
            rw [List.append_nil]
            exact fun b => fillRadixIns_first
        | beginLoop ins =>
          simp only at h
          split at h
          · exact ih h
          · cases h
        | beginLookAround target negate => exact ih h
        | start | stop | any | anyExceptNL | lbAny | grapheme | lbChar | lbCharSet | prepareLBRadix
        | lbRadixOrEmoji | lbString | lbEndCapture | backRef | ibackRef | lbBackRef => cases h

end

end Arsh.Regex
