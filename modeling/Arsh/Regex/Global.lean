import Arsh.Lib.GlobalSearch
import Arsh.Regex.SearchPrefix

/-!
# Matching a whole text

`matchAll`, `replace` and `split` call `match` again and again, from where the last match ended.
What `match` answers is a parameter here: `matchAt n iter` is the result of the `n`-th call, made at
the offset `iter` (calls can differ by their timer). `Calls` says that these are results of the
virtual machine, and `Answers` what they are worth: a call that reaches no limit finds the first
match of the tree, if there is one.

Loops of the source move on or stop, so that they need no more rounds than the text has bytes.
-/

namespace Arsh.Regex

open UnicodeUtil Machine GlobalSearch

/-- `MatchStatus`, with the values that are not a result of `match`. -/
inductive GlobalStatus where
  | matched (status : MatchStatus)
  | invalidUtf8
  | inputLimit
  | consumedLimit
  | invalidReplacePattern
  deriving DecidableEq

/-- What a call did: `out` is what its consumer was given, `err` the text of an error. -/
structure GlobalResult (α : Type) where
  status : GlobalStatus
  out : List α
  err : List Nat := []
  deriving DecidableEq

def GlobalResult.ok {α : Type} (out : List α) : GlobalResult α := ⟨.matched .ok, out, []⟩

def tryToCreateMatchContext (text : List Nat) (codePointOffset : Nat) :
    Except GlobalStatus Input :=
  match Input.create text codePointOffset with
  | .ok input => .ok input
  | .error .tooLarge => .error .inputLimit
  | .error .invalidUtf8 => .error .invalidUtf8

/-- Whether the cursor is where the search started and can go on. -/
def notConsumed (text : List Nat) (matchStartOffset iter : Nat) : Bool :=
  iter != text.length && matchStartOffset == iter

/-- The loop of `matchAll`, in its `n`-th round. -/
def matchAllLoop (matchAt : Nat → Nat → MatchResult) (text : List Nat)
    (consumer : List Captures → Captures → Bool) :
    Nat → Nat → Nat → List Captures → Option (GlobalResult Captures)
  | 0, _, _, _ => none
  | fuel + 1, n, matchStartOffset, out =>
    let r := matchAt n matchStartOffset
    if r.status = .fail then some (.ok out)
    else if r.status ≠ .ok then some ⟨.matched r.status, out, []⟩
    else if consumer out r.captures then
      let iter := if notConsumed text matchStartOffset r.iter then (unsafeNextUtf8 text r.iter).2
        else r.iter
      if iter ≠ matchStartOffset then
        matchAllLoop matchAt text consumer fuel (n + 1) iter (out ++ [r.captures])
      else some (.ok (out ++ [r.captures]))
    else some ⟨.consumedLimit, out, []⟩

def matchAll (matchAt : Nat → Nat → MatchResult) (text : List Nat) (codePointOffset : Nat)
    (consumer : List Captures → Captures → Bool) : Option (GlobalResult Captures) :=
  match tryToCreateMatchContext text codePointOffset with
  | .error status => some ⟨status, [], []⟩
  | .ok input => matchAllLoop matchAt text consumer (text.length + 1) 0 input.iter []

/-! ## The answers of `match` -/

/-- The match of the attempt at the `i`-th character: it ends at a character at or behind it. -/
def hitAt (S : Subject) (p : Node) (cs : List Nat) (i : Nat) : Option (GlobalSearch.Hit Captures) :=
  match attempt false S false p cs i with
  | .fail _ => none
  | .found q c _ _ =>
    ((List.range' i (cs.length + 1 - i)).find? fun j => off cs j == q).map fun j =>
      ⟨i, j, Function.update c 0 ⟨off cs i, off cs j - off cs i⟩⟩

/-- The first match at the `k`-th character or behind it. -/
def firstMatch (S : Subject) (p : Node) (cs : List Nat) (k : Nat) :
    Option (GlobalSearch.Hit Captures) :=
  (List.range' k (cs.length + 1 - k)).findSome? (hitAt S p cs)

/-- The ECMAScript global match sequence, from the `k`-th character on. -/
def globalMatches (S : Subject) (p : Node) (cs : List Nat) (k : Nat) :
    List (Nat × GlobalSearch.Hit Captures) :=
  sequence (firstMatch S p cs) cs.length (cs.length + 1) k

/-- The results of the calls are those of the virtual machine. -/
def Calls (E : Env) (matchAt : Nat → Nat → MatchResult) : Prop :=
  ∀ n cs k, CodePoints cs → E.bytes = encode cs → k ≤ cs.length →
    ∃ timer, Halts (step { E with timer := timer }) (.init (off cs k)) (matchAt n (off cs k))

/-- A call reaches a limit, or finds the first match, or there is none. -/
def Answers (S : Subject) (p : Node) (cs : List Nat) (matchAt : Nat → Nat → MatchResult) : Prop :=
  ∀ n k, k ≤ cs.length →
    (matchAt n (off cs k)).Limited ∨
    (∃ h, firstMatch S p cs k = some h ∧ matchAt n (off cs k) = ⟨.ok, h.value, off cs h.stop⟩) ∨
    firstMatch S p cs k = none ∧ (matchAt n (off cs k)).status = .fail

section
variable {S : Subject} {p : Node} {cs : List Nat} {i j k : Nat}

theorem hitAt_of_fail (h : (attempt false S false p cs i).isFail = true) :
    hitAt S p cs i = none := by
  unfold hitAt
  cases hf : attempt false S false p cs i with
  | fail c => rfl
  | found => rw [hf] at h; cases h

theorem hitAt_of_found (hcs : CodePoints cs) (hij : i ≤ j) (hj : j ≤ cs.length) {c : Captures}
    {u : Undo} {next : Captures → Search}
    (h : attempt false S false p cs i = .found (off cs j) c u next) :
    hitAt S p cs i = some ⟨i, j, Function.update c 0 ⟨off cs i, off cs j - off cs i⟩⟩ := by
  have hfind : (List.range' i (cs.length + 1 - i)).find? (fun m => off cs m == off cs j) =
      some j := by
    have hmem : j ∈ List.range' i (cs.length + 1 - i) := List.mem_range'_1.2 ⟨hij, by omega⟩
    cases hm : (List.range' i (cs.length + 1 - i)).find? (fun m => off cs m == off cs j) with
    | none => exact absurd (List.find?_eq_none.1 hm j hmem) (by simp)
    | some m =>
      have hle := List.mem_range'_1.1 (List.mem_of_find?_eq_some hm)
      have heq : off cs m = off cs j := by simpa using List.find?_some hm
      rw [(off_inj hcs (by omega) hj).1 heq]
  rw [hitAt, h]
  simp only [hfind, Option.map_some]

theorem hitAt_spec {h : GlobalSearch.Hit Captures} (hh : hitAt S p cs i = some h)
    (hi : i ≤ cs.length) :
    h.start = i ∧ i ≤ h.stop ∧ h.stop ≤ cs.length ∧
      h.value 0 = ⟨off cs i, off cs h.stop - off cs i⟩ := by
  unfold hitAt at hh
  cases hf : attempt false S false p cs i with
  | fail c => rw [hf] at hh; cases hh
  | found q c u next =>
    rw [hf] at hh
    obtain ⟨j, hj, rfl⟩ := Option.map_eq_some_iff.1 hh
    have hle := List.mem_range'_1.1 (List.mem_of_find?_eq_some hj)
    exact ⟨rfl, hle.1, by change j ≤ _; omega, Function.update_self 0 _ c⟩

/-- The first match is a match of the attempt at its start, and earlier attempts have none. -/
theorem firstMatch_some (hk : k ≤ i) (hi : i ≤ cs.length) {h : GlobalSearch.Hit Captures}
    (hh : hitAt S p cs i = some h) (hbefore : ∀ m, k ≤ m → m < i → hitAt S p cs m = none) :
    firstMatch S p cs k = some h := by
  have hsplit : List.range' k (cs.length + 1 - k) =
      List.range' k (i - k) ++ List.range' i (cs.length + 1 - i) := by
    have := @List.range'_append_1 k (i - k) (cs.length + 1 - i)
    rw [show k + (i - k) = i by omega] at this
    rw [this]
    congr 1
    omega
  have hnone : (List.range' k (i - k)).findSome? (hitAt S p cs) = none := by
    refine List.findSome?_eq_none_iff.2 fun m hm => ?_
    have := List.mem_range'_1.1 hm
    exact hbefore m (by omega) (by omega)
  rw [firstMatch, hsplit, List.findSome?_append, hnone, Option.none_or,
    show cs.length + 1 - i = cs.length - i + 1 by omega, List.range'_succ, List.findSome?_cons, hh]

theorem firstMatch_none (h : ∀ m, k ≤ m → m ≤ cs.length → hitAt S p cs m = none) :
    firstMatch S p cs k = none := by
  refine List.findSome?_eq_none_iff.2 fun m hm => ?_
  have := List.mem_range'_1.1 hm
  exact h m (by omega) (by omega)

theorem firstMatch_spec {h : GlobalSearch.Hit Captures} (hh : firstMatch S p cs k = some h) :
    k ≤ h.start ∧ h.start ≤ cs.length ∧ hitAt S p cs h.start = some h ∧
      ∀ m, k ≤ m → m < h.start → hitAt S p cs m = none := by
  obtain ⟨xs, i, ys, hsplit, hi, hbefore⟩ := List.findSome?_eq_some_iff.1 hh
  have hmem : i ∈ List.range' k (cs.length + 1 - k) := by
    rw [hsplit]
    exact List.mem_append_right _ List.mem_cons_self
  have hle := List.mem_range'_1.1 hmem
  have hstart := (hitAt_spec hi (by omega)).1
  have hlen : xs.length = i - k := by
    have hget : (List.range' k (cs.length + 1 - k))[xs.length]? = some i := by
      rw [hsplit, List.getElem?_append_right (Nat.le_refl _), Nat.sub_self]
      rfl
    obtain ⟨hlt, heq⟩ := List.getElem?_eq_some_iff.1 hget
    rw [List.getElem_range', Nat.one_mul] at heq
    omega
  refine ⟨by omega, by omega, by rw [hstart]; exact hi, fun m hm hlt => ?_⟩
  have hget : (List.range' k (cs.length + 1 - k))[m - k]? = some m := by
    rw [List.getElem?_range' (by omega)]
    congr 1
    omega
  rw [hsplit, List.getElem?_append_left (by omega)] at hget
  exact hbefore m (List.mem_of_getElem? hget)

/-- The rules of repeated search hold for the first match. -/
theorem lawful_firstMatch : Lawful (firstMatch S p cs) cs.length where
  le hk hh := by
    obtain ⟨hle, hn, hat, -⟩ := firstMatch_spec hh
    obtain ⟨-, hstop, hstop', -⟩ := hitAt_spec hat hn
    exact ⟨hle, hstop, hstop'⟩
  same hh hm hle := by
    obtain ⟨-, hn, hat, hbefore⟩ := firstMatch_spec hh
    exact firstMatch_some hle hn hat fun l hl hlt => hbefore l (by omega) hlt

end

/-- The results of the virtual machine for a number of steps. -/
def runMatch (E : Env) (steps : Nat) (_ iter : Nat) : MatchResult :=
  (runN (step E) steps (.init iter)).getD ⟨.stuck, fun _ => .unset, iter⟩

theorem calls_runMatch {E : Env} {steps : Nat}
    (h : (List.range (E.bytes.length + 1)).all
      (fun iter => (runN (step E) steps (.init iter)).isSome) = true) :
    Calls E (runMatch E steps) := by
  intro n cs k hcs hb hk
  have hle : off cs k ≤ E.bytes.length := by
    rw [hb]
    exact (Valid.off hk).le hcs
  have hsome := List.all_eq_true.1 h (off cs k) (List.mem_range.2 (by omega))
  obtain ⟨r, hr⟩ := Option.isSome_iff_exists.1 hsome
  refine ⟨E.timer, ?_⟩
  rw [runMatch, hr]
  exact halts_of_runN hr

/-- The pattern `(?=a)`. -/
def Node.ahead : Node := .lookAround true false (.atom (.char 97))

/-! ## Pieces of the text -/

theorem slice_self (bytes : List Nat) (i : Nat) : slice bytes i i = [] :=
  List.drop_eq_nil_of_le (List.length_take_le _ _)

theorem slice_append (bytes : List Nat) {i j k : Nat} (hij : i ≤ j) (hjk : j ≤ k) :
    slice bytes i j ++ slice bytes j k = slice bytes i k := by
  obtain ⟨a, rfl⟩ := Nat.exists_eq_add_of_le hij
  obtain ⟨b, rfl⟩ := Nat.exists_eq_add_of_le hjk
  simp only [slice, List.drop_take]
  rw [show i + a - i = a by omega, show i + a + b - (i + a) = b by omega,
    show i + a + b - i = a + b by omega, List.take_add, List.drop_drop]

theorem slice_append_drop (bytes : List Nat) {i j : Nat} (hij : i ≤ j) :
    slice bytes i j ++ bytes.drop j = bytes.drop i := by
  obtain ⟨a, rfl⟩ := Nat.exists_eq_add_of_le hij
  simp only [slice, List.drop_take]
  rw [show i + a - i = a by omega, ← List.drop_drop, List.take_append_drop]

/-! ## One round -/

theorem notConsumed_off {cs : List Nat} {k j : Nat} (hcs : CodePoints cs) (hk : k ≤ cs.length)
    (hj : j ≤ cs.length) :
    notConsumed (encode cs) (off cs k) (off cs j) = true ↔ j = k ∧ k < cs.length := by
  have hend : off cs j = (encode cs).length ↔ j = cs.length := off_eq_end hcs hj
  have heq : off cs k = off cs j ↔ k = j := off_inj hcs hk hj
  simp only [notConsumed, Bool.and_eq_true, bne_iff_ne, ne_eq, beq_iff_eq, hend, heq]
  omega

/-- Where the next search starts: one character later if the search has not moved and can. -/
theorem next_round {cs : List Nat} {k j : Nat} (hcs : CodePoints cs) (hk : k ≤ cs.length)
    (hj : j ≤ cs.length) :
    (if notConsumed (encode cs) (off cs k) (off cs j) then
      (unsafeNextUtf8 (encode cs) (off cs j)).2 else off cs j) =
      off cs (if j = k ∧ k < cs.length then k + 1 else j) := by
  have hiff := notConsumed_off hcs hk hj
  by_cases hstay : j = k ∧ k < cs.length
  · rw [if_pos (hiff.2 hstay), if_pos hstay]
    obtain ⟨rfl, hlt⟩ := hstay
    rw [unsafeNextUtf8_off hcs hlt]
  · rw [if_neg fun h => hstay (hiff.1 h), if_neg hstay]

theorem length_le_encode {cs : List Nat} (hcs : CodePoints cs) :
    cs.length ≤ (encode cs).length := by
  have hle : ∀ i, i ≤ cs.length → i ≤ off cs i := by
    intro i
    induction i with
    | zero => exact fun _ => Nat.zero_le _
    | succ i ih =>
      intro hi
      have := off_lt_succ hcs hi
      have := ih (by omega)
      omega
  have := hle cs.length (Nat.le_refl _)
  rwa [off_length] at this

theorem Calls.answers {E : Env} {p : Node} {cs : List Nat} {matchAt : Nat → Nat → MatchResult}
    (hm : Calls E matchAt) (h : Compiled E cs p) (hT : E.tables.Ok) :
    Answers E.subject p cs matchAt := by
  intro n k hk
  obtain ⟨timer, hrun⟩ := hm n cs k h.codePoints h.bytes hk
  have h' : Compiled { E with timer := timer } cs p :=
    ⟨h.codePoints, h.bytes, h.length, h.wf, h.supported, h.compile⟩
  have hout := @Compiled.outcome_withPrefilter { E with timer := timer } p cs k false h' hT hk
    E.prefilter
  rcases hout with ⟨r, hr, hl⟩ | ⟨i, j, c, u, next, hki, hij, hj, hf, hbefore, hr⟩ |
    ⟨hall, r, hr, hs⟩
  · exact .inl (hrun.unique hr ▸ hl)
  · refine .inr (.inl
      ⟨⟨i, j, Function.update c 0 ⟨off cs i, off cs j - off cs i⟩⟩, ?_, hrun.unique hr⟩)
    refine firstMatch_some hki (by omega) (hitAt_of_found h.codePoints hij hj hf) fun m h₁ h₂ => ?_
    exact hitAt_of_fail (hbefore m h₁ h₂)
  · refine .inr (.inr ⟨firstMatch_none fun m h₁ h₂ => hitAt_of_fail (hall m h₁ h₂), ?_⟩)
    rw [hrun.unique hr, hs]

end Arsh.Regex
