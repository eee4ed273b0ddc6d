import Arsh.Json.Parser

/-!
# What the JSON parser accepts

The parser reads the tokens of a value and stops behind them: what it returns is a value of the
tokens that it has read, and tokens that are a value are read, each by an induction on the levels
that the guard still allows. So a text is accepted if and only if it is spelled by the tokens of a
value of at most 7999 levels (`parse_eq_ok`).
-/

namespace Arsh.Json

open Regex.Parser (byte)

/-! ## Reading tokens -/

/-- The parser has read the tokens on its way from `p` to `p'`. -/
inductive Reads : Parser → List Token → Parser → Prop where
  | nil {p : Parser} : Reads p [] p
  | cons {p p' : Parser} {ts : List Token} (h : Reads p.fetchNext ts p') : Reads p (p.cur :: ts) p'

/-- The current token is one of JSON, if it is not the end and not invalid. -/
def Parser.Ok (p : Parser) : Prop :=
  p.cur.kind ≠ .eos → p.cur.kind ≠ .invalid → Lexeme p.cur

/-- The tokens of something that begins with a token of one of the kinds. -/
structure Shaped (first : List JSONTokenKind) (ts : List Token) : Prop where
  head : ∃ t ts', ts = t :: ts' ∧ t.kind ∈ first
  valid : ∀ t ∈ ts, t.kind ≠ .eos ∧ t.kind ≠ .invalid
  apart : ts.IsChain Apart

/-- `item` reads what is in the relation with tokens, and nothing else. -/
structure ReadsItem {α : Type} (item : Parser → Except ParseError (α × Parser))
    (R : List Token → α → Prop) : Prop where
  sound {p p' : Parser} {v : α} (hp : p.Ok) (h : item p = .ok (v, p')) :
    ∃ ts, Reads p ts p' ∧ R ts v
  complete {p p' : Parser} {v : α} {ts : List Token} (h : Reads p ts p') (hv : R ts v) :
    item p = .ok (v, p')
  not_exhausted {p : Parser} {e : ParseError} (hp : p.Ok) (h : item p = .error e) :
    e.errorKind ≠ .exhausted

section
variable {α : Type} {s w : Bytes} {ts ts' : List Token} {tok : Token} {p p' p'' : Parser}
  {first : List JSONTokenKind} {kind : JSONTokenKind}

theorem Reads.append (h : Reads p ts p') (h' : Reads p' ts' p'') : Reads p (ts ++ ts') p'' := by
  induction h with
  | nil => exact h'
  | cons _ ih => exact .cons (ih h')

theorem Reads.split (h : Reads p (ts ++ ts') p'') : ∃ p', Reads p ts p' ∧ Reads p' ts' p'' := by
  induction ts generalizing p with
  | nil => exact ⟨p, .nil, h⟩
  | cons t ts ih =>
    cases h with
    | cons h =>
      obtain ⟨p', hts, hts'⟩ := ih h
      exact ⟨p', .cons hts, hts'⟩

theorem Reads.uncons (h : Reads p (tok :: ts) p') : p.cur = tok ∧ Reads p.fetchNext ts p' := by
  cases h with
  | cons h => exact ⟨rfl, h⟩

theorem Reads.one (h : p.cur = tok) : Reads p [tok] p.fetchNext := h ▸ .cons .nil

theorem Reads.eq_fetchNext (h : Reads p [tok] p') : p.cur = tok ∧ p' = p.fetchNext := by
  obtain ⟨hcur, h⟩ := h.uncons
  cases h
  exact ⟨hcur, rfl⟩

theorem Parser.Ok.fetchNext (p : Parser) : p.fetchNext.Ok := by
  intro heos hinvalid
  rcases nextToken_cases p.rest with ⟨heq, -⟩ | hcur | ⟨w, -, ht, -⟩
  · exact absurd (congrArg (fun r => r.1.kind) heq) heos
  · exact absurd hcur hinvalid
  · exact ht

theorem Reads.ok (h : Reads p ts p') (hp : p.Ok) : p'.Ok := by
  induction h with
  | nil => exact hp
  | cons _ ih => exact ih (.fetchNext _)

theorem Parser.size_fetchNext (p : Parser) : p.fetchNext.size ≤ p.rest.length :=
  nextToken_length p.rest

theorem Reads.size_le (h : Reads p ts p') : p'.size ≤ p.size := by
  induction h with
  | nil => exact Nat.le_refl _
  | @cons p _ _ _ ih =>
    exact Nat.le_trans ih (Nat.le_trans p.size_fetchNext (Nat.le_add_left _ _))

theorem Parser.Ok.text_ne (hp : p.Ok) (hkind : p.cur.kind ≠ .eos ∧ p.cur.kind ≠ .invalid) :
    0 < p.cur.text.length := by
  obtain ⟨ch, t, heq, -⟩ := (hp hkind.1 hkind.2).head
  rw [heq]
  exact Nat.succ_pos _

theorem Parser.Ok.size_fetchNext (hp : p.Ok)
    (hkind : p.cur.kind ≠ .eos ∧ p.cur.kind ≠ .invalid) : p.fetchNext.size < p.size := by
  have hpos := hp.text_ne hkind
  have hle := p.size_fetchNext
  unfold Parser.size at hle ⊢
  omega

theorem Reads.size_lt (h : Reads p ts p') (hp : p.Ok) (hts : Shaped first ts) :
    p'.size < p.size := by
  obtain ⟨t, ts', rfl, -⟩ := hts.head
  obtain ⟨rfl, hrest⟩ := h.uncons
  exact Nat.lt_of_le_of_lt hrest.size_le (hp.size_fetchNext (hts.valid _ List.mem_cons_self))

/-- A token with only one text. -/
theorem Parser.Ok.fixed (hp : p.Ok) (hkind : p.cur.kind = kind)
    (hmem : kind ∈ JSONTokenKind.fixed) :
    p.cur = fixedToken kind := by
  obtain ⟨⟨k, text⟩, rest⟩ := p
  obtain rfl : k = kind := hkind
  have hnot : ∀ kind ∈ JSONTokenKind.fixed,
      kind ≠ .eos ∧ kind ≠ .invalid ∧ kind ≠ .number ∧ kind ≠ .string := by decide
  obtain ⟨heos, hinvalid, hnumber, hstring⟩ := hnot k hmem
  rcases hp heos hinvalid with ⟨-, htext⟩ | ⟨hk, -⟩ | ⟨hk, -⟩
  · exact congrArg (Token.mk k) htext
  · exact absurd hk hnumber
  · exact absurd hk hstring

theorem Parser.Ok.stringText (hp : p.Ok) (hkind : p.cur.kind = .string) :
    StringText p.cur.text := by
  rcases hp (by rw [hkind]; decide) (by rw [hkind]; decide) with ⟨hmem, -⟩ | ⟨hk, -⟩ | ⟨-, htext⟩
  · rw [hkind] at hmem
    exact absurd hmem (by decide)
  · rw [hkind] at hk
    cases hk
  · exact htext

theorem expect_eq_ok : p.expect kind = .ok p' ↔ p.cur.kind = kind ∧ p' = p.fetchNext := by
  unfold Parser.expect
  split
  · next h => simp [h, eq_comm]
  · next h => simp [h]

theorem expect_error {e : ParseError} (h : p.expect kind = .error e) :
    e.errorKind ≠ .exhausted := by
  unfold Parser.expect at h
  split at h
  · cases h
  · cases h
    unfold Parser.reportTokenMismatchedError Parser.reportInvalidTokenError
    split <;> exact ErrorKind.noConfusion

theorem reportNoViableAlterError_kind (p : Parser) (alters : List JSONTokenKind) :
    (p.reportNoViableAlterError alters).errorKind ≠ .exhausted := by
  unfold Parser.reportNoViableAlterError Parser.reportInvalidTokenError
  split <;> exact ErrorKind.noConfusion

theorem bind_eq_ok {ε β γ : Type} {x : Except ε β} {f : β → Except ε γ} {c : γ} :
    x >>= f = .ok c ↔ ∃ b, x = .ok b ∧ f b = .ok c := by
  cases x with
  | error e =>
    constructor
    · intro h
      cases h
    · rintro ⟨b, hb, -⟩
      cases hb
  | ok b =>
    constructor
    · exact fun h => ⟨b, rfl, h⟩
    · rintro ⟨b', hb, h⟩
      cases hb
      exact h

theorem bind_eq_error {ε β γ : Type} {x : Except ε β} {f : β → Except ε γ} {e : ε} :
    x >>= f = .error e ↔ x = .error e ∨ ∃ b, x = .ok b ∧ f b = .error e := by
  cases x with
  | error e' =>
    constructor
    · intro h
      cases h
      exact .inl rfl
    · rintro (h | ⟨b, hb, -⟩)
      · cases h
        rfl
      · cases hb
  | ok b =>
    constructor
    · exact fun h => .inr ⟨b, rfl, h⟩
    · rintro (h | ⟨b', hb, h⟩)
      · cases h
      · cases hb
        exact h

/-! ## Lists of items -/

theorem isChain_append_apart (h : ts.IsChain Apart) (h' : (tok :: ts').IsChain Apart)
    (htok : tok.kind ≠ .number) : (ts ++ tok :: ts').IsChain Apart := by
  refine List.isChain_append.2 ⟨h, h', ?_⟩
  rintro t - t' ⟨⟩
  exact fun _ => htok

theorem isChain_cons_apart (htok : tok.kind ≠ .number) (h : ts.IsChain Apart) :
    (tok :: ts).IsChain Apart := by
  cases ts with
  | nil => exact List.isChain_singleton _
  | cons t ts => exact List.isChain_cons_cons.2 ⟨fun hnumber => absurd hnumber htok, h⟩

/-- The tokens of the parts of a list behind the first one, and the token that closes it. -/
def listTail (close : JSONTokenKind) (parts : List (List Token)) : List Token :=
  parts.flatMap (fixedToken .comma :: ·) ++ [fixedToken close]

/-- The tokens of a list after `count` parts. -/
def listRest (close : JSONTokenKind) (count : Nat) (parts : List (List Token)) : List Token :=
  if count = 0 then commaSeparated parts ++ [fixedToken close] else listTail close parts

theorem listTail_cons (close : JSONTokenKind) (part : List Token) (parts : List (List Token)) :
    listTail close (part :: parts) =
      fixedToken .comma :: (part ++ listTail close parts) := by
  unfold listTail
  rw [List.flatMap_cons, List.cons_append, List.cons_append, List.append_assoc]

theorem listRest_cons (close : JSONTokenKind) (count : Nat) (part : List Token)
    (parts : List (List Token)) :
    listRest close count (part :: parts) =
      (if count = 0 then [] else [fixedToken .comma]) ++
        (part ++ listRest close (count + 1) parts) := by
  unfold listRest
  rw [if_neg (Nat.succ_ne_zero count)]
  split
  · rw [commaSeparated, List.append_assoc, List.nil_append]
    rfl
  · rw [listTail_cons, List.singleton_append]

theorem listTail_shaped {close : JSONTokenKind} {parts : List (List Token)}
    (hclose : close ∈ JSONTokenKind.fixed) (hparts : ∀ part ∈ parts, Shaped first part) :
    Shaped [.comma, close] (listTail close parts) := by
  have hfixed : ∀ kind ∈ JSONTokenKind.fixed, kind ≠ .eos ∧ kind ≠ .invalid ∧ kind ≠ .number := by
    decide
  induction parts with
  | nil =>
    refine ⟨⟨_, _, rfl, List.mem_cons_of_mem _ List.mem_cons_self⟩, ?_, List.isChain_singleton _⟩
    exact List.forall_mem_singleton.2 ⟨(hfixed close hclose).1, (hfixed close hclose).2.1⟩
  | cons part parts ih =>
    rw [List.forall_mem_cons] at hparts
    obtain ⟨hpart, hparts⟩ := hparts
    have htail := ih hparts
    obtain ⟨t, ts', heq, ht⟩ := htail.head
    have htnumber : t.kind ≠ .number := by
      simp only [List.mem_cons, List.not_mem_nil, or_false] at ht
      rcases ht with ht | ht
      · rw [ht]
        decide
      · rw [ht]
        exact (hfixed close hclose).2.2
    rw [listTail_cons]
    refine ⟨⟨_, _, rfl, List.mem_cons_self⟩, ?_, isChain_cons_apart (by decide) ?_⟩
    · exact List.forall_mem_cons.2 ⟨by decide, List.forall_mem_append.2 ⟨hpart.valid, htail.valid⟩⟩
    · rw [heq]
      exact isChain_append_apart hpart.apart (heq ▸ htail.apart) htnumber

theorem enclosed_shaped {kinds : List JSONTokenKind} {close : JSONTokenKind}
    {parts : List (List Token)} (hkind : kind ∈ JSONTokenKind.fixed) (hmem : kind ∈ kinds)
    (hclose : close ∈ JSONTokenKind.fixed) (hparts : ∀ part ∈ parts, Shaped first part) :
    Shaped kinds (enclosed kind close parts) := by
  have hfixed : ∀ kind ∈ JSONTokenKind.fixed, kind ≠ .eos ∧ kind ≠ .invalid ∧ kind ≠ .number := by
    decide
  obtain ⟨heos, hinvalid, hnumber⟩ := hfixed kind hkind
  have hrest : (∀ t ∈ commaSeparated parts ++ [fixedToken close],
      t.kind ≠ .eos ∧ t.kind ≠ .invalid) ∧
      (commaSeparated parts ++ [fixedToken close]).IsChain Apart := by
    cases parts with
    | nil =>
      have := @listTail_shaped first close [] hclose (List.forall_mem_nil _)
      exact ⟨this.valid, this.apart⟩
    | cons part parts =>
      rw [List.forall_mem_cons] at hparts
      have htail := listTail_shaped hclose hparts.2
      obtain ⟨t, ts', heq, ht⟩ := htail.head
      have htnumber : t.kind ≠ .number := by
        simp only [List.mem_cons, List.not_mem_nil, or_false] at ht
        rcases ht with ht | ht
        · rw [ht]
          decide
        · rw [ht]
          exact (hfixed close hclose).2.2
      rw [commaSeparated, List.append_assoc]
      refine ⟨List.forall_mem_append.2 ⟨hparts.1.valid, htail.valid⟩, ?_⟩
      have hchain := isChain_append_apart hparts.1.apart (heq ▸ htail.apart) htnumber
      rw [← heq] at hchain
      exact hchain
  exact ⟨⟨_, _, rfl, hmem⟩, List.forall_mem_cons.2 ⟨⟨heos, hinvalid⟩, hrest.1⟩,
    isChain_cons_apart hnumber hrest.2⟩

theorem listRest_nil (close : JSONTokenKind) (count : Nat) :
    listRest close count [] = [fixedToken close] := by
  unfold listRest
  split <;> rfl

section
variable {item : Parser → Except ParseError (α × Parser)} {R : List Token → α → Prop}
  {close : JSONTokenKind} {fuel count : Nat} {vs : List α}

/-- The comma before a part, but not before the first one. -/
theorem reads_comma (hp : p.Ok) (h : ¬(0 < count ∧ p.cur.kind ≠ .comma)) :
    Reads p (if count = 0 then [] else [fixedToken .comma])
      (if 0 < count then p.fetchNext else p) := by
  split
  · next hzero =>
    rw [if_neg (by omega)]
    exact .nil
  · next hzero =>
    rw [if_pos (by omega)]
    have hcomma : p.cur.kind = .comma := by_contra fun hne => h ⟨by omega, hne⟩
    exact .one (hp.fixed hcomma (by decide))

theorem parseItems_sound (hitem : ReadsItem item R) (hclose : close ∈ JSONTokenKind.fixed)
    (hp : p.Ok) (h : Parser.parseItems close first item fuel count p = .ok (vs, p')) :
    ∃ parts, List.Forall₂ R parts vs ∧ Reads p (listRest close count parts) p' := by
  induction fuel generalizing count p vs with
  | zero => cases h
  | succ fuel ih =>
    rw [Parser.parseItems] at h
    split at h
    · next hkind =>
      cases h
      refine ⟨[], .nil, ?_⟩
      rw [listRest_nil]
      exact .one (hp.fixed hkind hclose)
    · split at h
      · cases h
      · next hcomma =>
        have hq := reads_comma hp hcomma
        dsimp only at h
        generalize (if 0 < count then p.fetchNext else p) = q at h hq
        split at h
        · obtain ⟨⟨v, p₁⟩, hv, h⟩ := bind_eq_ok.1 h
          obtain ⟨⟨vs', p₂⟩, hvs, heq⟩ := bind_eq_ok.1 h
          cases heq
          obtain ⟨ts, hts, hR⟩ := hitem.sound (hq.ok hp) hv
          obtain ⟨parts, hparts, hrest⟩ := ih (hts.ok (hq.ok hp)) hvs
          refine ⟨ts :: parts, .cons hR hparts, ?_⟩
          rw [listRest_cons]
          exact hq.append (hts.append hrest)
        · cases h

theorem parseItems_complete (count : Nat) (hitem : ReadsItem item R)
    (hR : ∀ ts v, R ts v → Shaped first ts) (hfirst : close ∉ first) (hcomma : close ≠ .comma)
    (hp : p.Ok)
    (hfuel : p.size < fuel) {parts : List (List Token)} (hparts : List.Forall₂ R parts vs)
    (h : Reads p (listRest close count parts) p') :
    Parser.parseItems close first item fuel count p = .ok (vs, p') := by
  induction hparts generalizing fuel count p with
  | nil =>
    cases fuel with
    | zero => cases hfuel
    | succ fuel =>
      rw [listRest_nil] at h
      obtain ⟨hcur, rfl⟩ := h.eq_fetchNext
      rw [Parser.parseItems, if_pos (by rw [hcur]; rfl)]
  | @cons part v parts vs hv _ ih =>
    cases fuel with
    | zero => cases hfuel
    | succ fuel =>
      rw [listRest_cons] at h
      obtain ⟨q, hq, h⟩ := h.split
      obtain ⟨p₁, hpart, hrest⟩ := h.split
      have hshape := hR part v hv
      obtain ⟨t, ts, rfl, ht⟩ := hshape.head
      have hqkind : q.cur.kind ∈ first := by
        rw [hpart.uncons.1]
        exact ht
      have hstep : p.cur.kind ≠ close ∧ ¬(0 < count ∧ p.cur.kind ≠ .comma) ∧
          q = if 0 < count then p.fetchNext else p := by
        by_cases hzero : count = 0
        · rw [if_pos hzero] at hq
          cases hq
          rw [if_neg (by omega)]
          exact ⟨fun heq => hfirst (heq ▸ hqkind), by omega, rfl⟩
        · rw [if_neg hzero] at hq
          obtain ⟨hcur, rfl⟩ := hq.eq_fetchNext
          rw [if_pos (by omega), hcur]
          exact ⟨hcomma.symm, fun hne => hne.2 rfl, rfl⟩
      have hsize : p₁.size < fuel := by
        have hlt := hpart.size_lt (hq.ok hp) hshape
        have hle := hq.size_le
        omega
      rw [Parser.parseItems, if_neg hstep.1, if_neg hstep.2.1, ← hstep.2.2]
      dsimp only
      rw [if_pos hqkind, hitem.complete hpart hv]
      show (Parser.parseItems close first item fuel (count + 1) p₁ >>= _) = _
      rw [ih (count + 1) (hpart.ok (hq.ok hp)) hsize hrest]
      rfl

theorem parseItems_not_exhausted {e : ParseError} (hitem : ReadsItem item R)
    (hR : ∀ ts v, R ts v → Shaped first ts) (hp : p.Ok) (hfuel : p.size < fuel)
    (h : Parser.parseItems close first item fuel count p = .error e) :
    e.errorKind ≠ .exhausted := by
  induction fuel generalizing count p with
  | zero => cases hfuel
  | succ fuel ih =>
    rw [Parser.parseItems] at h
    split at h
    · cases h
    · split at h
      · cases h
        exact reportNoViableAlterError_kind _ _
      · next hcomma =>
        have hq := reads_comma hp hcomma
        dsimp only at h
        generalize (if 0 < count then p.fetchNext else p) = q at h hq
        split at h
        · rcases bind_eq_error.1 h with h | ⟨⟨v, p₁⟩, hv, h⟩
          · exact hitem.not_exhausted (hq.ok hp) h
          · obtain ⟨ts, hts, hv⟩ := hitem.sound (hq.ok hp) hv
            have hlt := hts.size_lt (hq.ok hp) (hR ts v hv)
            have hle := hq.size_le
            rcases bind_eq_error.1 h with h | ⟨vs, hvs, h⟩
            · exact ih (hts.ok (hq.ok hp)) (by omega) h
            · cases h
        · cases h
          exact reportNoViableAlterError_kind _ _

/-- The parser of a list in two tokens. -/
theorem readsItem_enclosed {β : Type} (kind close : JSONTokenKind) (f : List α → β)
    (hitem : ReadsItem item R) (hR : ∀ ts v, R ts v → Shaped first ts) (hkind : kind ∈ JSONTokenKind.fixed)
    (hclose : close ∈ JSONTokenKind.fixed) (hfirst : close ∉ first) (hcomma : close ≠ .comma) :
    ReadsItem (fun p => do
        let p ← p.expect kind
        let r ← Parser.parseItems close first item (p.size + 1) 0 p
        .ok (f r.1, r.2))
      (fun ts v => ∃ parts vs, ts = enclosed kind close parts ∧ List.Forall₂ R parts vs ∧
        v = f vs) where
  sound {p p' v} hp h := by
    obtain ⟨p₁, hexpect, h⟩ := bind_eq_ok.1 h
    obtain ⟨⟨vs, p₂⟩, hitems, heq⟩ := bind_eq_ok.1 h
    cases heq
    obtain ⟨hcur, rfl⟩ := expect_eq_ok.1 hexpect
    obtain ⟨parts, hparts, hreads⟩ := parseItems_sound hitem hclose (.fetchNext p) hitems
    exact ⟨_, (Reads.one (hp.fixed hcur hkind)).append hreads, parts, vs, rfl, hparts, rfl⟩
  complete {p p' v ts} h hv := by
    obtain ⟨parts, vs, rfl, hparts, rfl⟩ := hv
    obtain ⟨hcur, hreads⟩ := h.uncons
    have hexpect : p.expect kind = .ok p.fetchNext :=
      expect_eq_ok.2 ⟨by rw [hcur]; rfl, rfl⟩
    have hitems := parseItems_complete 0 hitem hR hfirst hcomma (.fetchNext p) (Nat.lt_succ_self _)
      hparts hreads
    exact bind_eq_ok.2 ⟨_, hexpect, bind_eq_ok.2 ⟨_, hitems, rfl⟩⟩
  not_exhausted {p e} hp h := by
    rcases bind_eq_error.1 h with h | ⟨p₁, hexpect, h⟩
    · exact expect_error h
    · obtain ⟨-, rfl⟩ := expect_eq_ok.1 hexpect
      rcases bind_eq_error.1 h with h | ⟨r, -, h⟩
      · exact parseItems_not_exhausted hitem hR (.fetchNext p) (Nat.lt_succ_self _) h
      · cases h

end

/-! ## Objects -/

section
variable {ms : List (Bytes × JSON)} {key k : Bytes} {value : JSON}

theorem mem_insertMember {m : Bytes × JSON} (h : m ∈ insertMember key value ms) :
    m = (key, value) ∨ m ∈ ms := by
  induction ms with
  | nil => exact .inl (List.mem_singleton.1 h)
  | cons m' ms ih =>
    rw [insertMember] at h
    split at h
    · exact List.mem_cons.1 h
    · split at h
      · exact .inr h
      · rcases List.mem_cons.1 h with rfl | h
        · exact .inr List.mem_cons_self
        · exact (ih h).imp_right (List.mem_cons_of_mem m')

theorem insertMember_sorted (h : ms.Pairwise (fun m m' => m.1 < m'.1)) :
    (insertMember key value ms).Pairwise (fun m m' => m.1 < m'.1) := by
  induction ms with
  | nil => exact List.pairwise_singleton _ _
  | cons m ms ih =>
    obtain ⟨hm, hms⟩ := List.pairwise_cons.1 h
    rw [insertMember]
    split
    · next hlt =>
      refine List.pairwise_cons.2 ⟨fun m' hm' => ?_, h⟩
      rcases List.mem_cons.1 hm' with rfl | hm'
      · exact hlt
      · exact List.lt_trans hlt (hm m' hm')
    · next hlt =>
      split
      · exact h
      · next hne =>
        refine List.pairwise_cons.2 ⟨fun m' hm' => ?_, ih hms⟩
        rcases mem_insertMember hm' with rfl | hm'
        · exact (List.le_iff_lt_or_eq.1 (List.not_lt.1 hlt)).resolve_right (Ne.symm hne)
        · exact hm m' hm'

theorem lookup_eq_none_of_lt (h : ∀ m ∈ ms, key < m.1) : ms.lookup key = none := by
  induction ms with
  | nil => rfl
  | cons m ms ih =>
    rw [List.forall_mem_cons] at h
    have hne : (key == m.1) = false := by
      rw [beq_eq_false_iff_ne]
      rintro rfl
      exact List.lt_irrefl _ h.1
    obtain ⟨k, v⟩ := m
    rw [List.lookup_cons, hne]
    exact ih h.2

theorem lookup_insertMember (h : ms.Pairwise (fun m m' => m.1 < m'.1)) :
    (insertMember key value ms).lookup k =
      (ms.lookup k).or (if k = key then some value else none) := by
  induction ms with
  | nil =>
    by_cases hk : k = key
    · rw [hk, if_pos rfl]
      simp [insertMember]
    · simp [insertMember, hk, List.lookup_cons, beq_eq_false_iff_ne.2 hk]
  | cons m ms ih =>
    obtain ⟨hm, hms⟩ := List.pairwise_cons.1 h
    obtain ⟨k', v'⟩ := m
    rw [insertMember]
    split
    · next hlt =>
      by_cases hk : k = key
      · have hnone : ((k', v') :: ms).lookup k = none := by
          refine lookup_eq_none_of_lt (List.forall_mem_cons.2 ⟨hk ▸ hlt, fun m' hm' => ?_⟩)
          exact hk ▸ List.lt_trans hlt (hm m' hm')
        rw [hnone, if_pos hk, hk]
        simp
      · rw [List.lookup_cons, beq_eq_false_iff_ne.2 hk, if_neg hk, Option.or_none]
    · split
      · next heq =>
        by_cases hk : k = key
        · have hk' : k = k' := hk.trans heq
          simp [hk']
        · rw [if_neg hk, Option.or_none]
      · rw [List.lookup_cons, List.lookup_cons]
        by_cases hk : k = k'
        · simp [hk]
        · rw [beq_eq_false_iff_ne.2 hk]
          exact ih hms

/-- The map of members is sorted, and has for each key the first member with it. -/
theorem toObject_spec (members : List (Bytes × JSON)) :
    (toObject members).Pairwise (fun m m' => m.1 < m'.1) ∧
      ∀ k, (toObject members).lookup k = members.lookup k := by
  suffices h : ∀ ms : List (Bytes × JSON), ms.Pairwise (fun m m' => m.1 < m'.1) →
      (members.foldl (fun ms m => insertMember m.1 m.2 ms) ms).Pairwise (fun m m' => m.1 < m'.1) ∧
        ∀ k, (members.foldl (fun ms m => insertMember m.1 m.2 ms) ms).lookup k =
          (ms.lookup k).or (members.lookup k) from
    h [] .nil
  induction members with
  | nil => exact fun ms hms => ⟨hms, fun k => Option.or_none.symm⟩
  | cons m members ih =>
    intro ms hms
    obtain ⟨hsorted, hlookup⟩ := ih (insertMember m.1 m.2 ms) (insertMember_sorted hms)
    refine ⟨hsorted, fun k => ?_⟩
    obtain ⟨k', v'⟩ := m
    rw [List.foldl_cons, hlookup, lookup_insertMember hms, Option.or_assoc, List.lookup_cons]
    by_cases hk : k = k'
    · simp [hk]
    · rw [if_neg hk, beq_eq_false_iff_ne.2 hk]
      rfl

end

/-! ## Values -/

section
variable {toDouble : Bytes → Option Double} {n : Nat} {v : JSON}

theorem readsItem_string : ReadsItem Parser.parseString
    (fun ts v => ∃ tok, ts = [tok] ∧ tok.kind = .string ∧ StringOf tok.text v) where
  sound {p p' v} hp h := by
    obtain ⟨p₁, hexpect, h⟩ := bind_eq_ok.1 h
    obtain ⟨hkind, rfl⟩ := expect_eq_ok.1 hexpect
    obtain ⟨body, htext, hbody⟩ := hp.stringText hkind
    rw [htext, List.drop_one, List.tail_cons, List.dropLast_concat] at h
    cases hvalue : unescape 0 body with
    | none =>
      rw [hvalue] at h
      cases h
    | some value =>
      rw [hvalue] at h
      cases h
      exact ⟨_, .one rfl, p.cur, rfl, hkind, body, htext, (unescape_iff hbody).1 hvalue⟩
  complete {p p' v ts} h hv := by
    obtain ⟨tok, rfl, hkind, body, htext, hbody⟩ := hv
    obtain ⟨rfl, rfl⟩ := h.eq_fetchNext
    refine bind_eq_ok.2 ⟨_, expect_eq_ok.2 ⟨hkind, rfl⟩, ?_⟩
    rw [htext, List.drop_one, List.tail_cons, List.dropLast_concat, unescape_of_unescapes hbody]
    rfl
  not_exhausted {p e} hp h := by
    rcases bind_eq_error.1 h with h | ⟨p₁, -, h⟩
    · exact expect_error h
    · cases hvalue : unescape 0 (p.cur.text.drop 1).dropLast with
      | none =>
        rw [hvalue] at h
        cases h
        exact ErrorKind.noConfusion
      | some value =>
        rw [hvalue] at h
        cases h

theorem readsItem_number : ReadsItem (Parser.parseNumber toDouble)
    (fun ts v => ∃ tok, ts = [tok] ∧ tok.kind = .number ∧ NumberOf toDouble tok.text v) where
  sound {p p' v} hp h := by
    obtain ⟨p₁, hexpect, h⟩ := bind_eq_ok.1 h
    obtain ⟨hkind, rfl⟩ := expect_eq_ok.1 hexpect
    cases hvalue : toNumber toDouble p.cur.text with
    | none =>
      rw [hvalue] at h
      cases h
    | some value =>
      rw [hvalue] at h
      cases h
      exact ⟨_, .one rfl, p.cur, rfl, hkind, toNumber_iff.1 hvalue⟩
  complete {p p' v ts} h hv := by
    obtain ⟨tok, rfl, hkind, hnumber⟩ := hv
    obtain ⟨rfl, rfl⟩ := h.eq_fetchNext
    refine bind_eq_ok.2 ⟨_, expect_eq_ok.2 ⟨hkind, rfl⟩, ?_⟩
    rw [toNumber_iff.2 hnumber]
    rfl
  not_exhausted {p e} hp h := by
    rcases bind_eq_error.1 h with h | ⟨p₁, -, h⟩
    · exact expect_error h
    · cases hvalue : toNumber toDouble p.cur.text with
      | none =>
        rw [hvalue] at h
        cases h
        exact ErrorKind.noConfusion
      | some value =>
        rw [hvalue] at h
        cases h

theorem readsItem_member {item : Parser → Except ParseError (JSON × Parser)}
    {R : List Token → JSON → Prop} (hitem : ReadsItem item R) :
    ReadsItem (Parser.parseMember item) (Member R) where
  sound {p p' m} hp h := by
    obtain ⟨⟨key, p₁⟩, hkey, h⟩ := bind_eq_ok.1 h
    obtain ⟨p₂, hexpect, h⟩ := bind_eq_ok.1 h
    obtain ⟨⟨value, p₃⟩, hvalue, heq⟩ := bind_eq_ok.1 h
    cases heq
    obtain ⟨_, hreads, tok, rfl, hkind, hstring⟩ := readsItem_string.sound hp hkey
    obtain ⟨hcolon, rfl⟩ := expect_eq_ok.1 hexpect
    have hp₁ := hreads.ok hp
    obtain ⟨ts, hts, hR⟩ := hitem.sound (.fetchNext _) hvalue
    have hcolon' := Reads.one (hp₁.fixed hcolon (by decide))
    exact ⟨_, hreads.append (hcolon'.append hts), tok, ts, rfl, hkind, hstring, hR⟩
  complete {p p' m ts} h hm := by
    obtain ⟨tok, ts', rfl, hkind, hstring, hR⟩ := hm
    rw [← List.singleton_append] at h
    obtain ⟨p₁, hkey, h⟩ := h.split
    obtain ⟨hcolon, hvalue⟩ := h.uncons
    have hcolon' : p₁.cur.kind = .colon := by
      rw [hcolon]
      rfl
    exact bind_eq_ok.2 ⟨_, readsItem_string.complete hkey ⟨tok, rfl, hkind, hstring⟩,
      bind_eq_ok.2 ⟨_, expect_eq_ok.2 ⟨hcolon', rfl⟩,
        bind_eq_ok.2 ⟨_, hitem.complete hvalue hR, rfl⟩⟩⟩
  not_exhausted {p e} hp h := by
    rcases bind_eq_error.1 h with h | ⟨⟨key, p₁⟩, hkey, h⟩
    · exact readsItem_string.not_exhausted hp h
    · rcases bind_eq_error.1 h with h | ⟨p₂, hexpect, h⟩
      · exact expect_error h
      · obtain ⟨-, rfl⟩ := expect_eq_ok.1 hexpect
        rcases bind_eq_error.1 h with h | ⟨r, -, h⟩
        · exact hitem.not_exhausted (.fetchNext _) h
        · cases h

theorem member_shaped {R : List Token → JSON → Prop} (hR : ∀ ts v, R ts v → Shaped first ts)
    (ts : List Token) (m : Bytes × JSON) (h : Member R ts m) : Shaped [.string] ts := by
  obtain ⟨key, ts', rfl, hkind, -, hvalue⟩ := h
  have hshape := hR ts' m.2 hvalue
  have hcolon : (fixedToken .colon :: ts').IsChain Apart :=
    isChain_cons_apart (by decide) hshape.apart
  refine ⟨⟨key, _, rfl, List.mem_singleton.2 hkind⟩, ?_, isChain_cons_apart ?_ hcolon⟩
  · refine List.forall_mem_cons.2 ⟨?_, List.forall_mem_cons.2 ⟨by decide, hshape.valid⟩⟩
    rw [hkind]
    decide
  · rw [hkind]
    decide

theorem scalar_shaped {tok : Token} (h : Scalar toDouble tok v) : Shaped valueKinds [tok] := by
  have hkind : tok.kind ∈ valueKinds ∧ tok.kind ≠ .eos ∧ tok.kind ≠ .invalid := by
    rcases h with ⟨rfl, -⟩ | ⟨rfl, -⟩ | ⟨rfl, -⟩ | ⟨h, -⟩ | ⟨h, -⟩
    · decide
    · decide
    · decide
    · rw [h]
      decide
    · rw [h]
      decide
  exact ⟨⟨tok, [], rfl, hkind.1⟩, List.forall_mem_singleton.2 hkind.2, List.isChain_singleton _⟩

theorem forall_shaped {R : List Token → α → Prop} (hR : ∀ ts v, R ts v → Shaped first ts)
    {parts : List (List Token)} {vs : List α} (h : List.Forall₂ R parts vs) :
    ∀ part ∈ parts, Shaped first part := by
  induction h with
  | nil => exact List.forall_mem_nil _
  | cons hv _ ih => exact List.forall_mem_cons.2 ⟨hR _ _ hv, ih⟩

theorem value_shaped (n : Nat) (ts : List Token) (v : JSON) (h : Value toDouble n ts v) :
    Shaped valueKinds ts := by
  induction n generalizing ts v with
  | zero => exact h.elim
  | succ n ih =>
    rcases h with ⟨tok, rfl, h⟩ | ⟨parts, vs, rfl, h, -⟩ | ⟨parts, ms, rfl, h, -⟩
    · exact scalar_shaped h
    · exact enclosed_shaped (by decide) (by decide) (by decide) (forall_shaped ih h)
    · exact enclosed_shaped (by decide) (by decide) (by decide)
        (forall_shaped (member_shaped ih) h)

/-- The parser of values, by induction on the levels that are left. -/
theorem readsItem_value (n : Nat) :
    ReadsItem (Parser.parseValue toDouble n) (Value toDouble n) := by
  induction n with
  | zero =>
    refine ⟨fun _ h => ?_, fun _ hv => hv.elim, fun _ h => ?_⟩
    · cases h
    · cases h
      exact ErrorKind.noConfusion
  | succ n ih =>
    have harray := readsItem_enclosed .arrayOpen .arrayClose JSON.array ih
      (value_shaped n) (by decide) (by decide) (by decide) (by decide)
    have hobject := readsItem_enclosed .objectOpen .objectClose
      (fun ms => JSON.object (toObject ms)) (readsItem_member ih) (member_shaped (value_shaped n))
      (by decide) (by decide) (by decide) (by decide)
    refine ⟨?_, ?_, ?_⟩
    · intro p p' v hp h
      have hone {k : JSONTokenKind} {v : JSON} (hkind : p.cur.kind = k)
          (hmem : k ∈ JSONTokenKind.fixed) (hscalar : Scalar toDouble (fixedToken k) v) :
          ∃ ts, Reads p ts p.fetchNext ∧ Value toDouble (n + 1) ts v :=
        ⟨_, .one (hp.fixed hkind hmem), .inl ⟨_, rfl, hscalar⟩⟩
      rw [Parser.parseValue] at h
      split at h
      · next hkind =>
        cases h
        exact hone hkind (by decide) (.inl ⟨rfl, rfl⟩)
      · next hkind =>
        cases h
        exact hone hkind (by decide) (.inr (.inl ⟨rfl, rfl⟩))
      · next hkind =>
        cases h
        exact hone hkind (by decide) (.inr (.inr (.inl ⟨rfl, rfl⟩)))
      · obtain ⟨_, hreads, tok, rfl, hnumber⟩ := readsItem_number.sound hp h
        exact ⟨_, hreads, .inl ⟨tok, rfl, .inr (.inr (.inr (.inl hnumber)))⟩⟩
      · cases hstring : p.parseString with
        | error e =>
          rw [hstring] at h
          cases h
        | ok r =>
          rw [hstring] at h
          cases h
          obtain ⟨_, hreads, tok, rfl, hkind, htext⟩ := readsItem_string.sound hp hstring
          exact ⟨_, hreads, .inl ⟨tok, rfl, .inr (.inr (.inr (.inr ⟨hkind, _, htext, rfl⟩)))⟩⟩
      · obtain ⟨ts, hreads, hv⟩ := harray.sound hp h
        exact ⟨ts, hreads, .inr (.inl hv)⟩
      · obtain ⟨ts, hreads, hv⟩ := hobject.sound hp h
        exact ⟨ts, hreads, .inr (.inr hv)⟩
      · cases h
    · intro p p' v ts h hv
      rw [Parser.parseValue]
      rcases hv with ⟨tok, rfl, hscalar⟩ | hv | hv
      · rcases hscalar with ⟨rfl, rfl⟩ | ⟨rfl, rfl⟩ | ⟨rfl, rfl⟩ | ⟨hkind, hnumber⟩ |
          ⟨hkind, s, hstring, rfl⟩
        · obtain ⟨hcur, rfl⟩ := h.eq_fetchNext
          rw [hcur]
          rfl
        · obtain ⟨hcur, rfl⟩ := h.eq_fetchNext
          rw [hcur]
          rfl
        · obtain ⟨hcur, rfl⟩ := h.eq_fetchNext
          rw [hcur]
          rfl
        · rw [h.uncons.1, hkind]
          exact readsItem_number.complete h ⟨tok, rfl, hkind, hnumber⟩
        · rw [h.uncons.1, hkind]
          dsimp only
          rw [readsItem_string.complete h ⟨tok, rfl, hkind, hstring⟩]
          rfl
      · obtain ⟨parts, vs, rfl, -⟩ := id hv
        rw [h.uncons.1]
        exact harray.complete h hv
      · obtain ⟨parts, vs, rfl, -⟩ := id hv
        rw [h.uncons.1]
        exact hobject.complete h hv
    · intro p e hp h
      rw [Parser.parseValue] at h
      split at h
      · cases h
      · cases h
      · cases h
      · exact readsItem_number.not_exhausted hp h
      · cases hstring : p.parseString with
        | error e' =>
          rw [hstring] at h
          cases h
          exact readsItem_string.not_exhausted hp hstring
        | ok r =>
          rw [hstring] at h
          cases h
      · exact harray.not_exhausted hp h
      · exact hobject.not_exhausted hp h
      · cases h
        exact reportNoViableAlterError_kind _ _

/-! ## Texts -/

/-- The parser before the first token of a text. -/
def start (s : Bytes) : Parser := ⟨(nextToken s).1, (nextToken s).2⟩

theorem start_ok (s : Bytes) : (start s).Ok := .fetchNext ⟨⟨.invalid, []⟩, s⟩

theorem spells_of_reads {p' : Parser} {ts : List Token} (h : Reads (start s) ts p')
    (hts : ∀ t ∈ ts, t.kind ≠ .eos ∧ t.kind ≠ .invalid) (hp' : p'.cur.kind = .eos) :
    Spells ts s := by
  induction ts generalizing s with
  | nil =>
    cases h
    rcases nextToken_cases s with ⟨-, hs⟩ | hkind | ⟨-, -, ht, -⟩
    · exact .nil hs
    · have hkind' : JSONTokenKind.eos = .invalid := hp'.symm.trans hkind
      cases hkind'
    · have hnot : JSONTokenKind.eos ∉ JSONTokenKind.fixed := by decide
      have hkind : (nextToken s).1.kind = .eos := hp'
      unfold Lexeme at ht
      rw [hkind] at ht
      rcases ht with ⟨hmem, -⟩ | ⟨hk, -⟩ | ⟨hk, -⟩
      · exact absurd hmem hnot
      · cases hk
      · cases hk
  | cons t ts ih =>
    obtain ⟨hcur, hrest⟩ := h.uncons
    rw [List.forall_mem_cons] at hts
    have hcur' : (nextToken s).1 = t := hcur
    rcases nextToken_cases s with ⟨heq, -⟩ | hkind | ⟨w, hw, ht, heq⟩
    · exact absurd (congrArg (fun r => r.1.kind) heq) (hcur' ▸ hts.1.1)
    · exact absurd hkind (hcur' ▸ hts.1.2)
    · rw [hcur'] at ht heq
      rw [heq]
      exact .cons hw ht (ih hrest hts.2)

theorem reads_of_spells {ts : List Token} (h : Spells ts s) (hts : ts.IsChain Apart) :
    ∃ p', Reads (start s) ts p' ∧ p'.cur.kind = .eos := by
  induction h with
  | @nil w hw =>
    refine ⟨start w, .nil, ?_⟩
    show (nextToken w).1.kind = .eos
    rw [nextToken_of_spaces hw]
  | @cons t ts w s hw ht hs ih =>
    have hnext : nextToken (w ++ (t.text ++ s)) = (t, s) := by
      refine nextToken_append hw ht fun hnumber => hs.endsNumber fun t' ht' => ?_
      exact (List.isChain_cons.1 hts).1 t' ht' hnumber
    obtain ⟨p', hreads, hp'⟩ := ih (List.isChain_cons.1 hts).2
    refine ⟨p', ?_, hp'⟩
    have hstart : start (w ++ (t.text ++ s)) = ⟨t, s⟩ := by
      unfold start
      rw [hnext]
    rw [hstart]
    exact .cons hreads

theorem spells_buffer {ts : List Token} : Spells ts (buffer s) ↔ Spells ts s := by
  unfold buffer
  split
  · rfl
  · exact ⟨Spells.of_newline, fun h => h.append_spaces (by unfold Spaces; decide)⟩

theorem parse_sound (h : parse toDouble s = .ok v) :
    ∃ ts, Spells ts s ∧ Value toDouble (maxNestingDepth - 1) ts v := by
  obtain ⟨⟨v', p'⟩, hv, h⟩ := bind_eq_ok.1 h
  obtain ⟨p'', hexpect, heq⟩ := bind_eq_ok.1 h
  cases heq
  obtain ⟨ts, hreads, hvalue⟩ := (readsItem_value _).sound (start_ok (buffer s)) hv
  have hspells := spells_of_reads hreads (value_shaped _ ts v' hvalue).valid
    (expect_eq_ok.1 hexpect).1
  exact ⟨ts, spells_buffer.1 hspells, hvalue⟩

theorem parse_complete {ts : List Token} (hspells : Spells ts s)
    (hvalue : Value toDouble (maxNestingDepth - 1) ts v) : parse toDouble s = .ok v := by
  obtain ⟨p', hreads, hp'⟩ := reads_of_spells (spells_buffer.2 hspells)
    (value_shaped _ ts v hvalue).apart
  exact bind_eq_ok.2 ⟨_, (readsItem_value _).complete hreads hvalue,
    bind_eq_ok.2 ⟨_, expect_eq_ok.2 ⟨hp', rfl⟩, rfl⟩⟩

/-- A text is accepted with a value if and only if it is spelled by tokens that are this value. -/
theorem parse_eq_ok (toDouble : Bytes → Option Double) (s : Bytes) (v : JSON) :
    parse toDouble s = .ok v ↔
      ∃ ts, Spells ts s ∧ Value toDouble (maxNestingDepth - 1) ts v :=
  ⟨parse_sound, fun ⟨_, hspells, hvalue⟩ => parse_complete hspells hvalue⟩

/-- The loops of the model have all the rounds that they need. -/
theorem parse_not_exhausted (toDouble : Bytes → Option Double) (s : Bytes) (e : ParseError)
    (h : parse toDouble s = .error e) : e.errorKind ≠ .exhausted := by
  rcases bind_eq_error.1 h with h | ⟨r, -, h⟩
  · exact (readsItem_value _).not_exhausted (start_ok (buffer s)) h
  · rcases bind_eq_error.1 h with h | ⟨p', -, h⟩
    · exact expect_error h
    · cases h

end

end

end Arsh.Json
