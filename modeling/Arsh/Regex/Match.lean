import Arsh.Regex.Agree
import Arsh.Regex.First

/-!
# Running a compiled regex

`match` tries one start position after the other; with the prefilter it skips those at which the
search of the tree fails anyway. `Compiled.outcome` says how a run ends, in terms of `Node.search`
at each start position; for a tree without back-references this is the ECMAScript semantics of the
tree.
-/

namespace Arsh.Regex

open UnicodeUtil Machine

/-! ## One attempt -/

/-- What `compile` makes of a tree. -/
theorem CodeGen.compile_some {T : Tables} {named : List NamedCaptureEntry} {p : Node}
    {re : CompiledRegex} (h : CodeGen.compile T named p = some re) :
    ∃ code ms, CodeGen.generate true 0 [] p = some (code, ms) ∧ CodeAt re 0 code ∧
      re.instSeq = code ++ [.matchIns] ∧ ms <+: re.matchers ∧
      re.firstBitSet = createFirstBitSet T { re with firstBitSet := [] } := by
  simp only [CodeGen.compile, Option.bind_eq_bind, Option.bind_eq_some_iff] at h
  obtain ⟨⟨code, ms⟩, hgen, hre⟩ := h
  cases hre
  refine ⟨code, ms, hgen, fun i hi => ?_, rfl, List.prefix_rfl, rfl⟩
  rw [Nat.zero_add, List.getElem?_append_left hi]

/-- A compiled tree and a valid text. -/
structure Compiled (E : Env) (cs : List Nat) (p : Node) : Prop where
  codePoints : CodePoints cs
  bytes : E.bytes = encode cs
  length : (encode cs).length < 2 ^ 32
  wf : p.wf true = true
  supported : p.Supported E.subject cs true
  compile : CodeGen.compile E.tables E.regex.named p = some E.regex

/-- The search of one attempt. -/
def attempt (counted : Bool) (S : Subject) (keep : Bool) (p : Node) (cs : List Nat) (k : Nat) : Search :=
  p.search counted S keep true (off cs k) (fun _ => .unset) []

/-- The state in which the attempt at the `k`-th character starts. -/
structure Starts {cap : Option Nat} (cs : List Nat) (k : Nat) (s : State cap) : Prop where
  label : s.label = .start
  inst : s.inst = 0
  iter : s.iter = off cs k
  oldIter : s.oldIter = off cs k
  captures : s.captures = fun _ => .unset
  stack : s.stack.entries = []

theorem starts_init {cap : Option Nat} (cs : List Nat) (k : Nat) :
    @Starts cap cs k (.init (off cs k)) :=
  ⟨rfl, rfl, rfl, rfl, rfl, rfl⟩

section
variable {cap : Option Nat} {E : Env} {counted keep : Bool} {cs : List Nat} {p : Node} {k : Nat}
  {s : State cap} {F : Nat → Prop}

/-- The level at the top of a tree. -/
def Level.top : Level := ⟨true, [], [], []⟩

theorem Compiled.simulates (h : Compiled E cs p) (hcap : counted = false → StackLimited cap) :
    ∃ stop, E.regex.instSeq[stop]? = some .matchIns ∧
      Simulates cap E keep cs .top .top (p.search counted E.subject keep true) p.groups
        p.shallowLoops 0 stop := by
  obtain ⟨code, ms, hgen, hcode, hseq, hms, -⟩ := CodeGen.compile_some h.compile
  refine ⟨code.length, by rw [hseq]; simp, ?_⟩
  have hfit : Fits .top .top p.groups p.loops p.shallowLoops :=
    ⟨.refl _, fun _ _ => List.not_mem_nil, fun _ _ => List.not_mem_nil,
      fun _ _ _ => List.not_mem_nil, fun _ _ => List.not_mem_nil⟩
  have := @compiles cap E counted keep cs hcap h.codePoints h.bytes h.length p true 0 [] ms code .top .top h.wf
    h.supported hgen hms hcode rfl hfit
  rwa [Nat.zero_add] at this

theorem Compiled.lt (h : Compiled E cs p) (hk : k ≤ cs.length) : off cs k < 2 ^ 32 :=
  Nat.lt_of_le_of_lt ((Valid.off hk).le h.codePoints) h.length

/-- The result of a match of the characters from `k` to `j`. -/
def MatchResult.found (cs : List Nat) (k j : Nat) (c : Captures) : MatchResult :=
  ⟨.ok, Function.update c 0 ⟨off cs k, off cs j - off cs k⟩, off cs j⟩

/-- The machine goes on as the search of the attempt at `k` says: it ends the run with a match, or
backtracks to an empty stack. -/
def Tries (E : Env) (counted keep : Bool) (cs : List Nat) (p : Node) (k : Nat) (s : State cap) :
    Prop :=
  match attempt counted E.subject keep p cs k with
  | .fail c => Leads (stepWith keep E) (Sound E cs)
      (fun t => t.label = .backtrack ∧ t.stack.entries = [] ∧ t.oldIter = off cs k ∧
        t.captures = c ∧ CapturesOk cs c) MatchResult.Limited s
  | .found q c _ _ => (∃ r, Ends (stepWith keep E) (Sound E cs) s r ∧ r.Limited) ∨
      ∃ j, k ≤ j ∧ j ≤ cs.length ∧ q = off cs j ∧
        Ends (stepWith keep E) (Sound E cs) s (.found cs k j c)

theorem Compiled.tries (h : Compiled E cs p) (hcap : counted = false → StackLimited cap)
    (hk : k ≤ cs.length) (hl : s.label = .dispatch) (hi : s.inst = 0) (hp : s.iter = off cs k)
    (ho : s.oldIter = off cs k) (hc : s.captures = fun _ => .unset) (hs : s.stack.entries = []) :
    Tries E counted keep cs p k s := by
  obtain ⟨stop, hstop, hsim⟩ := @Compiled.simulates cap E counted keep cs p h hcap
  have hok : CapturesOk cs s.captures := by
    rw [hc]
    exact fun _ => .inl rfl
  have hr := hsim s [] ⟨hl, hi, hp ▸ .off hk, hok⟩
  rw [hp, hc] at hr
  unfold Tries attempt
  cases hf : p.search counted E.subject keep true (off cs k) (fun _ => .unset) [] with
  | fail c =>
    rw [hf] at hr
    refine Leads.bind hr fun t ht => Leads.here
      ⟨ht.label, ht.stack.trans hs, ?_, ht.captures, ht.ok⟩
    exact ht.oldIter.trans ho
  | found q c u next =>
    rw [hf] at hr
    rcases hr with ⟨t, hrun, ht, -⟩ | hlim
    · refine .inr ?_
      obtain ⟨j, hj, hq⟩ := ht.valid
      have hle : off cs k ≤ off cs j := by
        have := ht.advances
        rw [State.base, hp, hq] at this
        exact this
      have hsound : Sound E cs t := Sound.of_inst (ht.captures ▸ ht.ok) (ht.inst ▸ hstop) (by trivial)
      refine ⟨j, le_of_off_le h.codePoints hk hle, hj, hq, .of_within hrun (.now hsound ?_)⟩
      have hlt : t.iter < 2 ^ 32 := by
        rw [ht.iter, hq]
        exact h.lt hj
      have hold : t.oldIter = off cs k := ht.oldIter.trans ho
      rw [stepWith_dispatch ht.label (ht.inst ▸ hstop), dispatch, State.halt, hold,
        sub32_of_le (by rw [ht.iter, hq]; exact hle) hlt, ht.iter, ht.captures, hq]
      rfl
    · exact .inl hlim

/-! ## All attempts -/

/-- A search without a success. -/
def Search.isFail : Search → Bool
  | .fail _ => true
  | .found .. => false

/-- The end of an attempt without a match. -/
theorem Compiled.restart (h : Compiled E cs p) (hk : k ≤ cs.length) (hl : s.label = .backtrack)
    (hs : s.stack.entries = []) (ho : s.oldIter = off cs k) :
    (∃ t, k < cs.length ∧ stepWith keep E s = .inl t ∧ Starts cs (k + 1) t) ∨
      k = cs.length ∧ ∃ r, stepWith keep E s = .inr r ∧ r.status = .fail ∧ r.captures = s.captures := by
  have hstep : stepWith keep E s = Regex.restart E s := by
    simp [stepWith, hl, BacktrackStack.pop_nil hs]
  rw [hstep, Regex.restart, ho, h.bytes]
  rcases Nat.lt_or_eq_of_le hk with hlt | rfl
  · rw [consume_forward h.codePoints hlt]
    exact .inl ⟨_, hlt, rfl, rfl, rfl, rfl, rfl, rfl, hs⟩
  · rw [consume_forward_end]
    exact .inr ⟨rfl, _, rfl, rfl, rfl⟩

/-- The attempt at `k` fails. -/
def Fails (E : Env) (keep : Bool) (cs : List Nat) (p : Node) (k : Nat) : Prop :=
  (attempt false E.subject keep p cs k).isFail = true

/-- Where the machine stands when it has looked for a start position from `k` on: at the first one
that has to be tried, or without one. The positions left out satisfy `F`. -/
def Seeks (E : Env) (counted keep : Bool) (cs : List Nat) (p : Node) (F : Nat → Prop) (k : Nat)
    (t : State cap) : Prop :=
  (∃ i, k ≤ i ∧ i ≤ cs.length ∧ (∀ m, k ≤ m → m < i → F m) ∧ Tries E counted keep cs p i t) ∨
  (∀ m, k ≤ m → m ≤ cs.length → F m) ∧ t.label = .backtrack ∧ t.stack.entries = [] ∧
    t.oldIter = off cs cs.length ∧ CapturesOk cs t.captures

theorem Starts.sound (h : Starts cs k s) : Sound E cs s := by
  refine .of_label (fun g => ?_) (by rw [h.label]; decide)
  rw [h.captures]
  exact .inl rfl

/-- How `match` ends: at a limit, with the first success of the first attempt that has one, or
without a match. All its states are sound. -/
theorem Compiled.outcome (h : Compiled E cs p)
    (hF : ∀ m, (attempt counted E.subject keep p cs m).isFail = true → F m)
    (hseek : ∀ k (s : State cap), k ≤ cs.length → Starts cs k s →
      ∃ t, stepWith keep E s = .inl t ∧ Seeks E counted keep cs p F k t)
    (hk : k ≤ cs.length) (hs : Starts cs k s) :
    (∃ r, Ends (stepWith keep E) (Sound E cs) s r ∧ r.Limited) ∨
      (∃ i j c u next, k ≤ i ∧ i ≤ j ∧ j ≤ cs.length ∧
        attempt counted E.subject keep p cs i = .found (off cs j) c u next ∧
        (∀ m, k ≤ m → m < i → F m) ∧
        Ends (stepWith keep E) (Sound E cs) s (.found cs i j c)) ∨
      (∀ m, k ≤ m → m ≤ cs.length → F m) ∧
        ∃ r, Ends (stepWith keep E) (Sound E cs) s r ∧ r.status = .fail := by
  obtain ⟨n, hn⟩ : ∃ n, n = cs.length - k := ⟨_, rfl⟩
  induction n using Nat.strongRecOn generalizing k s with
  | ind n ih =>
    have hsound : Sound E cs s := hs.sound
    obtain ⟨t, hstart, ⟨i, hki, hi, hskip, htry⟩ | ⟨hall, hl, hst, ho, hok⟩⟩ := hseek k s hk hs
    · have hone : Within (stepWith keep E) (Sound E cs) s t := .single hsound hstart
      unfold Tries at htry
      cases hf : attempt counted E.subject keep p cs i with
      | found q c u next =>
        rw [hf] at htry
        rcases htry with ⟨r, hr, hl⟩ | ⟨j, hij, hj, rfl, hr⟩
        · exact .inl ⟨r, .of_within hone hr, hl⟩
        · exact .inr (.inl ⟨i, j, c, u, next, hki, hij, hj, hf, hskip, .of_within hone hr⟩)
      | fail c =>
        rw [hf] at htry
        have hfail : F i := hF i (by rw [hf]; rfl)
        rcases htry with ⟨t', hrun, hl, hst, ho, hc, hok⟩ | ⟨r, hr, hl⟩
        · have hrun' := hone.trans hrun
          have hsound' : Sound E cs t' := .of_label (hc ▸ hok) (by rw [hl]; decide)
          have hfails : ∀ m, k ≤ m → (i + 1 ≤ m → F m) → F m := by
            intro m hm h'
            rcases Nat.lt_trichotomy m i with hlt | rfl | hlt
            · exact hskip m hm hlt
            · exact hfail
            · exact h' hlt
          rcases @Compiled.restart cap E keep cs p i t' h hi hl hst ho with
            ⟨t'', hlt, hstep, hs'⟩ | ⟨rfl, r, hr, hrs, -⟩
          · have hrun'' := hrun'.trans (.single hsound' hstep)
            rcases ih (cs.length - (i + 1)) (by omega) hlt hs' rfl with
              ⟨r, hr, hl⟩ | ⟨i', j, c, u, next, hii, hij, hj, hfi, hbefore, hr⟩ | ⟨hall, r, hr, hrs⟩
            · exact .inl ⟨r, .of_within hrun'' hr, hl⟩
            · refine .inr (.inl ⟨i', j, c, u, next, by omega, hij, hj, hfi, fun m h₁ h₂ => ?_,
                .of_within hrun'' hr⟩)
              exact hfails m h₁ fun h => hbefore m h h₂
            · exact .inr (.inr ⟨fun m h₁ h₂ => hfails m h₁ fun h => hall m h h₂, r,
                .of_within hrun'' hr, hrs⟩)
          · refine .inr (.inr ⟨fun m h₁ h₂ => hfails m h₁ fun h => ?_, r,
              .of_within hrun' (.now hsound' hr), hrs⟩)
            omega
        · exact .inl ⟨r, .of_within hone hr, hl⟩
    · have hsound' : Sound E cs t := .of_label hok (by rw [hl]; decide)
      rcases @Compiled.restart cap E keep cs p cs.length t h (Nat.le_refl _) hl hst ho with
        ⟨-, hlt, -⟩ | ⟨-, r, hr, hrs, -⟩
      · exact absurd hlt (Nat.lt_irrefl _)
      · exact .inr (.inr ⟨hall, r, .of_within (.single hsound hstart) (.now hsound' hr), hrs⟩)

/-- Without the prefilter every position is tried. -/
theorem Compiled.seeks_off (h : Compiled E cs p) (hcap : counted = false → StackLimited cap)
    (hpre : E.prefilter = false) (hk : k ≤ cs.length) (hs : Starts cs k s) :
    ∃ t, stepWith keep E s = .inl t ∧ Seeks E counted keep cs p F k t := by
  have htry := @Compiled.tries cap E counted keep cs p k { s with label := .dispatch } h hcap hk rfl
    hs.inst hs.iter hs.oldIter hs.captures hs.stack
  exact ⟨_, by simp [stepWith, hs.label, hpre], .inl ⟨k, Nat.le_refl k, hk, fun m h₁ h₂ => by omega,
    htry⟩⟩

end

/-! ## The ECMAScript semantics -/

theorem Node.supported_plain {S : Subject} {cs : List Nat} (p : Node) (forward : Bool)
    (hp : p.plain = true) : p.Supported S cs forward := by
  induction p using Node.induct generalizing forward with
  | grapheme | backRef | strSet => cases hp
  | empty | atom | boundary => trivial
  | repeated _ _ _ _ _ _ p ih => exact ih forward hp
  | seq ps ih | alt ps ih =>
    apply Node.supportedList_mem.2
    intro q hq
    exact ih q hq forward (Node.plainList_mem.1 hp q hq)
  | lookAround lookAhead _ p ih => exact ih lookAhead hp
  | group _ p ih => exact ih forward hp

section
variable {S : Subject} {cs : List Nat} {p : Node} {i j k : Nat}

/-- The ECMAScript match of the characters from `k` on. -/
def Node.exec (T : Tables) (named : List NamedCaptureEntry) (cs : List Nat) (p : Node) (k : Nat) :
    Option (Nat × Es.State) :=
  Es.exec cs (p.matcher T named cs true) k

theorem Node.matcher_init (T : Tables) (named : List NamedCaptureEntry) (p : Node) (i : Nat) :
    p.matcher T named cs true (.init i) some = (p.outcomes T named cs true (.init i)).head? := by
  rw [p.represents true]
  cases p.outcomes T named cs true (.init i) <;> rfl

/-- Without a match at any index there is none. -/
theorem Node.exec_none {T : Tables} {named : List NamedCaptureEntry}
    (h : ∀ m, k ≤ m → m ≤ cs.length → p.outcomes T named cs true (.init m) = []) :
    p.exec T named cs k = none := by
  refine List.findSome?_eq_none_iff.2 fun m hm => ?_
  have := List.mem_range'_1.1 hm
  rw [Node.matcher_init, h m (by omega) (by omega)]
  rfl

/-- The match at the first index that has one. -/
theorem Node.exec_some {T : Tables} {named : List NamedCaptureEntry} {y : Es.State}
    {ys : List Es.State} (hk : k ≤ i) (hi : i ≤ cs.length)
    (hf : p.outcomes T named cs true (.init i) = y :: ys)
    (h : ∀ m, k ≤ m → m < i → p.outcomes T named cs true (.init m) = []) :
    p.exec T named cs k = some (i, y) := by
  have hsplit : List.range' k (cs.length + 1 - k) =
      List.range' k (i - k) ++ List.range' i (cs.length + 1 - i) := by
    have := @List.range'_append_1 k (i - k) (cs.length + 1 - i)
    rw [show k + (i - k) = i by omega] at this
    rw [this]
    congr 1
    omega
  have hbefore : (List.range' k (i - k)).findSome?
      (fun j => (p.matcher T named cs true (.init j) some).map (j, ·)) = none := by
    refine List.findSome?_eq_none_iff.2 fun m hm => ?_
    have := List.mem_range'_1.1 hm
    rw [Node.matcher_init, h m (by omega) (by omega)]
    rfl
  rw [Node.exec, Es.exec, hsplit, List.findSome?_append, hbefore, Option.none_or,
    show cs.length + 1 - i = cs.length - i + 1 by omega, List.range'_succ, List.findSome?_cons,
    Node.matcher_init, hf]
  rfl

theorem outcomes_of_fail {keep : Bool} (hcs : CodePoints cs) (hS : S.bytes = encode cs)
    (hw : p.wf true = true) (hp : p.plain = true) (hi : i ≤ cs.length)
    (h : (attempt false S keep p cs i).isFail = true) :
    p.outcomes S.tables S.named cs true (.init i) = [] := by
  have hy := @agrees_plain S cs keep hcs hS p true hw hp (.init i) hi (fun _ => .unset) []
  have ha : p.search false S keep true (off cs i) (fun _ => .unset) [] = attempt false S keep p cs i := rfl
  rw [show (Es.State.init i).endIndex = i from rfl, ha] at hy
  cases hf : attempt false S keep p cs i with
  | fail c =>
    rw [hf] at hy
    exact List.map_eq_nil_iff.1 hy
  | found => rw [hf] at h; cases h

theorem outcomes_of_found {keep : Bool} (hcs : CodePoints cs) (hS : S.bytes = encode cs)
    (hw : p.wf true = true) (hp : p.plain = true) (hi : i ≤ cs.length) (hj : j ≤ cs.length)
    {c : Captures} {u : Undo} {next : Captures → Search}
    (h : attempt false S keep p cs i = .found (off cs j) c u next) :
    ∃ y ys, p.outcomes S.tables S.named cs true (.init i) = y :: ys ∧ y.endIndex = j := by
  have hy := @agrees_plain S cs keep hcs hS p true hw hp (.init i) hi (fun _ => .unset) []
  have ha : p.search false S keep true (off cs i) (fun _ => .unset) [] = attempt false S keep p cs i := rfl
  rw [show (Es.State.init i).endIndex = i from rfl, ha, h] at hy
  obtain ⟨qs, hqs, -⟩ := hy
  obtain ⟨y, ys, hys, hoff, -⟩ := List.map_eq_cons_iff.1 hqs
  have hb := p.bounded hcs true hw (.init i) hi y (hys ▸ List.mem_cons_self)
  exact ⟨y, ys, hys, (off_inj hcs hb.1 hj).1 hoff⟩

end

/-- `match` without the prefilter finds a match of a plain tree exactly when the ECMAScript
semantics does, and the same span of the text. Every run ends. -/
theorem match_eq_exec {E : Env} {p : Node} {k : Nat} {input : Input} (hw : p.wf true = true)
    (hp : p.plain = true) (hc : CodeGen.compile E.tables E.regex.named p = some E.regex)
    (hin : Input.create E.bytes k = .ok input) (hpre : E.prefilter = false) :
    ∃ cs r, CodePoints cs ∧ E.bytes = encode cs ∧ Halts (step E) (.init input.iter) r ∧
      (r.Limited ∨
        (r.status = .ok ↔ (p.exec E.tables E.regex.named cs (min k cs.length)).isSome = true) ∧
          (r.status = .ok ∨ r.status = .fail) ∧
          ∀ i y, p.exec E.tables E.regex.named cs (min k cs.length) = some (i, y) →
            r.captures 0 = ⟨off cs i, off cs y.endIndex - off cs i⟩) := by
  obtain ⟨cs, hcs, hb, hlen, rfl⟩ := Input.create_ok hin
  have hlt : (encode cs).length < 2 ^ 32 := by
    rw [← hb]
    exact Nat.lt_of_le_of_lt hlen (by decide)
  have h : Compiled E cs p := ⟨hcs, hb, hlt, hw, p.supported_plain true hp, hc⟩
  have hk : min k cs.length ≤ cs.length := Nat.min_le_right ..
  refine ⟨cs, ?_⟩
  rcases @Compiled.outcome _ E false false cs p _ _ (Fails E false cs p) h (fun _ hm => hm)
      (fun _ _ => h.seeks_off (fun _ => stackLimited_maxStackCap) hpre) hk (starts_init cs _) with
    ⟨r, hr, hl⟩ | ⟨i, j, c, u, next, hki, hij, hj, hf, hbefore, hr⟩ | ⟨hall, r, hr, hs⟩
  · exact ⟨r, hcs, hb, hr.halts, .inl hl⟩
  · obtain ⟨y, ys, hys, rfl⟩ := outcomes_of_found hcs hb hw hp (Nat.le_trans hij hj) hj hf
    have he : p.exec E.tables E.regex.named cs (min k cs.length) = some (i, y) :=
      Node.exec_some hki (Nat.le_trans hij hj) hys fun m h₁ h₂ =>
        outcomes_of_fail hcs hb hw hp (by omega) (hbefore m h₁ h₂)
    refine ⟨_, hcs, hb, hr.halts, .inr ⟨?_, .inl rfl, ?_⟩⟩
    · rw [he]
      exact iff_of_true rfl rfl
    · intro i' y' h'
      rw [he] at h'
      cases h'
      exact Function.update_self 0 _ c
  · have he : p.exec E.tables E.regex.named cs (min k cs.length) = none :=
      Node.exec_none fun m h₁ h₂ => outcomes_of_fail hcs hb hw hp h₂ (hall m h₁ h₂)
    refine ⟨r, hcs, hb, hr.halts, .inr ⟨?_, .inr hs, ?_⟩⟩
    · rw [he, hs]
      exact iff_of_false nofun nofun
    · intro i y h'
      rw [he] at h'
      cases h'

/-- The tables for ASCII texts. -/
def Tables.ascii : Tables where
  simpleCaseFolding c := if 65 ≤ c ∧ c ≤ 90 then c + 32 else c
  simpleCaseUnfold c := if 97 ≤ c ∧ c ≤ 122 then [c - 32] else []
  isExtendWord := isWord
  graphemeSize bs := if bs.take 2 = [13, 10] then 2 else utf8ByteSize (bs.getD 0 0)
  emojiTrie := .nil

/-- A call of `match` on the code of a tree, for an ASCII text. -/
def Env.ascii (p : Node) (text : List Nat) (prefilter : Bool) : Env where
  tables := .ascii
  regex := (CodeGen.compile .ascii [] p).getD ⟨[], [], [], []⟩
  bytes := text
  prefilter := prefilter
  timer := none

/-- The pattern `(?=a)(?:ab|[^\n])*?b`. -/
def Node.sample : Node :=
  .seq [.lookAround true false (.atom (.char 97)),
    .repeated 0 0 0 0 unlimit false (.alt [.seq [.atom (.char 97), .atom (.char 98)],
      .atom (.any false)]), .atom (.char 98)]

theorem match_eq_exec_sample :
    ∃ cs r, CodePoints cs ∧ [99, 97, 97, 98] = encode cs ∧
      Halts (step (.ascii .sample [99, 97, 97, 98] false)) (.init 1) r ∧
      (r.Limited ∨
        (r.status = .ok ↔ (Node.sample.exec .ascii [] cs (min 1 cs.length)).isSome = true) ∧
          (r.status = .ok ∨ r.status = .fail) ∧
          ∀ i y, Node.sample.exec .ascii [] cs (min 1 cs.length) = some (i, y) →
            r.captures 0 = ⟨off cs i, off cs y.endIndex - off cs i⟩) :=
  @match_eq_exec (.ascii .sample [99, 97, 97, 98] false) .sample 1 ⟨[99, 97, 97, 98], 1⟩
    (by decide) (by decide) rfl rfl rfl

end Arsh.Regex
