import Arsh.Regex.Global

/-!
# `matchAll`

The reported matches are the visits of the repeated search (`matchAllLoop_ok`), that is the
ECMAScript global match sequence with every late match twice: an empty match that is not where the
search for it started ends where it starts, so that the next search starts there and finds it once
more. `matchAll_eq_iff`: the reported matches are the sequence exactly if it has no such match.
-/

namespace Arsh.Regex

open UnicodeUtil Machine GlobalSearch

section
variable {S : Subject} {p : Node} {cs : List Nat} {matchAt : Nat → Nat → MatchResult}
  {consumer : List Captures → Captures → Bool}

/-- A round after a match. -/
theorem matchAllLoop_hit {h : GlobalSearch.Hit Captures} {n k fuel : Nat} {out : List Captures}
    (hcs : CodePoints cs) (hk : k ≤ cs.length) (hstop : h.stop ≤ cs.length)
    (hr : matchAt n (off cs k) = ⟨.ok, h.value, off cs h.stop⟩)
    (hout : consumer out h.value = true) :
    matchAllLoop matchAt (encode cs) consumer (fuel + 1) n (off cs k) out =
      if h.stop = k ∧ k = cs.length then some (.ok (out ++ [h.value]))
      else matchAllLoop matchAt (encode cs) consumer fuel (n + 1)
        (off cs (if h.stop = k then k + 1 else h.stop)) (out ++ [h.value]) := by
  rw [matchAllLoop]
  simp only [hr, reduceCtorEq, if_false, ne_eq, not_true_eq_false, hout, if_true]
  rw [next_round hcs hk hstop]
  by_cases hend : h.stop = k ∧ k = cs.length
  · rw [if_pos hend, if_neg fun hlt : h.stop = k ∧ k < cs.length => by omega, hend.1]
    rw [if_neg (not_not_intro rfl)]
  · rw [if_neg hend]
    have hnext : (if h.stop = k ∧ k < cs.length then k + 1 else h.stop) =
        if h.stop = k then k + 1 else h.stop := by
      by_cases heq : h.stop = k
      · rw [if_pos ⟨heq, by omega⟩, if_pos heq]
      · rw [if_neg fun h => heq h.1, if_neg heq]
    rw [hnext, if_pos]
    -- the next search starts at another character
    split
    · next heq =>
      intro hoff
      have := (off_inj hcs (by omega) hk).1 hoff
      omega
    · next heq => exact fun hoff => heq ((off_inj hcs hstop hk).1 hoff)

/-- The loop ends, and without an error it reports the visits. -/
theorem matchAllLoop_ok (hcs : CodePoints cs) (ha : Answers S p cs matchAt) (fuel : Nat) :
    ∀ n k out, k ≤ cs.length → cs.length - k < fuel →
      ∃ r, matchAllLoop matchAt (encode cs) consumer fuel n (off cs k) out = some r ∧
        (r.status = .matched .ok → r.out =
          out ++ (visits (firstMatch S p cs) cs.length fuel k).map (·.2.value)) := by
  induction fuel with
  | zero =>
    intro n k out _ h
    omega
  | succ fuel ih =>
    intro n k out hk hf
    rcases ha n k hk with hl | ⟨h, hh, hr⟩ | ⟨hnone, hs⟩
    · have hne : (matchAt n (off cs k)).status ≠ .fail ∧ (matchAt n (off cs k)).status ≠ .ok := by
        rcases hl with h | h | h <;> rw [h] <;> exact ⟨nofun, nofun⟩
      rw [matchAllLoop]
      simp only [hne.1, if_false, ne_eq, hne.2, not_false_eq_true, if_true]
      exact ⟨_, rfl, fun h => absurd (GlobalStatus.matched.inj h) hne.2⟩
    · obtain ⟨hle, hlt, hstop⟩ := lawful_firstMatch.le hk hh
      cases hout : consumer out h.value with
      | false =>
        rw [matchAllLoop]
        simp only [hr, reduceCtorEq, if_false, ne_eq, not_true_eq_false, hout, Bool.false_eq_true]
        exact ⟨_, rfl, nofun⟩
      | true =>
        rw [matchAllLoop_hit hcs hk hstop hr hout]
        by_cases hstay : h.stop = k
        · rw [visits_stay hh hstay]
          by_cases hend : k = cs.length
          · rw [if_pos ⟨hstay, hend⟩, if_neg (by omega)]
            exact ⟨_, rfl, fun _ => rfl⟩
          · rw [if_neg fun h => hend h.2, if_pos hstay, if_pos (by omega)]
            obtain ⟨r, hr, hok⟩ := ih (n + 1) (k + 1) (out ++ [h.value]) (by omega) (by omega)
            refine ⟨r, hr, fun hs => ?_⟩
            rw [hok hs, List.map_cons, List.append_assoc, List.singleton_append]
        · rw [if_neg fun h => hstay h.1, if_neg hstay, visits_stop hh hstay]
          obtain ⟨r, hr, hok⟩ := ih (n + 1) h.stop (out ++ [h.value]) hstop (by omega)
          refine ⟨r, hr, fun hs => ?_⟩
          rw [hok hs, List.map_cons, List.append_assoc, List.singleton_append]
    · rw [matchAllLoop, visits_none hnone]
      simp only [hs, if_true]
      exact ⟨_, rfl, fun _ => (List.append_nil out).symm⟩

end

/-- Matches in the order of the text, with different starts and without overlap. -/
def Ordered (out : List Captures) : Prop :=
  out.Pairwise fun c d =>
    (c 0).offset < (d 0).offset ∧ (c 0).offset + (c 0).size ≤ (d 0).offset

theorem ordered_globalMatches {S : Subject} {p : Node} {cs : List Nat} {k : Nat}
    (hcs : CodePoints cs) : Ordered ((globalMatches S p cs k).map (·.2.value)) := by
  refine List.pairwise_map.2 (lawful_firstMatch.sequence_pairwise.imp_of_mem ?_)
  intro a b ha hb hab
  obtain ⟨-, -, ha⟩ := lawful_firstMatch.mem_sequence ha
  obtain ⟨-, -, hb⟩ := lawful_firstMatch.mem_sequence hb
  obtain ⟨-, han, hat, -⟩ := firstMatch_spec ha
  obtain ⟨-, hbn, hbt, -⟩ := firstMatch_spec hb
  obtain ⟨-, hle, hstop, hva⟩ := hitAt_spec hat han
  obtain ⟨-, -, -, hvb⟩ := hitAt_spec hbt hbn
  rw [hva, hvb]
  have hlt := off_lt hcs hab.1 hbn
  have hoff := off_le hcs hle hstop
  have hend := off_le hcs hab.2 hbn
  refine ⟨hlt, ?_⟩
  change off cs a.2.start + (off cs a.2.stop - off cs a.2.start) ≤ off cs b.2.start
  omega

/-- Twice what is late is what there is exactly if nothing is late. -/
theorem flatMap_twice_eq_iff {α β : Type} (f : GlobalSearch.Hit α → β)
    (ps : List (Nat × GlobalSearch.Hit α)) :
    (ps.flatMap twice).map (fun q => f q.2) = ps.map (fun q => f q.2) ↔ ∀ q ∈ ps, ¬ Late q := by
  constructor
  · intro h
    have hlen : ∀ qs : List (Nat × GlobalSearch.Hit α), qs.length ≤ (qs.flatMap twice).length ∧
        ((qs.flatMap twice).length = qs.length → ∀ q ∈ qs, ¬ Late q) := by
      intro qs
      induction qs with
      | nil => exact ⟨Nat.le_refl 0, nofun⟩
      | cons q qs ih =>
        obtain ⟨hle, ih⟩ := ih
        rw [List.flatMap_cons, List.length_append, List.length_cons]
        by_cases hlate : Late q
        · rw [twice, if_pos hlate, List.length_cons, List.length_singleton]
          exact ⟨by omega, fun h => by omega⟩
        · rw [twice, if_neg hlate, List.length_singleton]
          refine ⟨by omega, fun h => List.forall_mem_cons.2 ⟨hlate, ih (by omega)⟩⟩
    have := congrArg List.length h
    rw [List.length_map, List.length_map] at this
    exact (hlen ps).2 this
  · intro h
    have hflat : ps.flatMap twice = ps := by
      induction ps with
      | nil => rfl
      | cons q qs ih =>
        obtain ⟨hq, hqs⟩ := List.forall_mem_cons.1 h
        rw [List.flatMap_cons, twice, if_neg hq, ih hqs, List.singleton_append]
    rw [hflat]

/-- `matchAll` ends. Without an error the reported matches are the ECMAScript global match sequence,
one after the other, exactly if no match of the sequence is empty and later than the start of the
search for it. -/
theorem matchAll_eq_iff {E : Env} {p : Node} {matchAt : Nat → Nat → MatchResult}
    (hT : E.tables.Ok) (hw : p.wf true = true)
    (hc : CodeGen.compile E.tables E.regex.named p = some E.regex) (hm : Calls E matchAt)
    (codePointOffset : Nat) (consumer : List Captures → Captures → Bool) :
    ∃ r, matchAll matchAt E.bytes codePointOffset consumer = some r ∧
      (r.status = .matched .ok → ∃ cs, CodePoints cs ∧ E.bytes = encode cs ∧
        (r.out = (globalMatches E.subject p cs (min codePointOffset cs.length)).map (·.2.value) ∧
            Ordered r.out ↔
          ∀ q ∈ globalMatches E.subject p cs (min codePointOffset cs.length), ¬ Late q)) := by
  unfold matchAll tryToCreateMatchContext
  cases hin : Input.create E.bytes codePointOffset with
  | error e =>
    cases e with
    | tooLarge => exact ⟨_, rfl, nofun⟩
    | invalidUtf8 => exact ⟨_, rfl, nofun⟩
  | ok input =>
    obtain ⟨cs, hcs, hb, hlen, rfl⟩ := Input.create_ok hin
    have hlt : (encode cs).length < 2 ^ 32 := by
      rw [← hb]
      exact Nat.lt_of_le_of_lt hlen (by decide)
    have h : Compiled E cs p := ⟨hcs, hb, hlt, hw, p.supported hT hcs hb true, hc⟩
    have hk : min codePointOffset cs.length ≤ cs.length := Nat.min_le_right ..
    have hsize := length_le_encode hcs
    obtain ⟨r, hr, hok⟩ := @matchAllLoop_ok _ _ _ _ consumer hcs (hm.answers h hT)
      ((encode cs).length + 1) 0 _ [] hk (by omega)
    refine ⟨r, ?_, fun hs => ⟨cs, hcs, hb, ?_⟩⟩
    · rw [hb]
      exact hr
    · have hvisits : visits (firstMatch E.subject p cs) cs.length ((encode cs).length + 1)
          (min codePointOffset cs.length) =
            (globalMatches E.subject p cs (min codePointOffset cs.length)).flatMap twice :=
        lawful_firstMatch.visits_eq hk (by omega) (by omega)
      have hiff := flatMap_twice_eq_iff GlobalSearch.Hit.value
        (globalMatches E.subject p cs (min codePointOffset cs.length))
      rw [hok hs, hvisits, List.nil_append, ← hiff]
      constructor
      · exact fun h => h.1
      · intro h
        refine ⟨h, ?_⟩
        rw [h]
        exact ordered_globalMatches hcs

theorem matchAll_eq_iff_sample :
    ∃ r, matchAll (runMatch (.ascii .sample [99, 97, 97, 98] true) 100) [99, 97, 97, 98] 0
        (fun _ _ => true) = some r ∧
      (r.status = .matched .ok → ∃ cs, CodePoints cs ∧ [99, 97, 97, 98] = encode cs ∧
        (r.out = (globalMatches (Env.ascii .sample [99, 97, 97, 98] true).subject .sample cs
            (min 0 cs.length)).map (·.2.value) ∧ Ordered r.out ↔
          ∀ q ∈ globalMatches (Env.ascii .sample [99, 97, 97, 98] true).subject .sample cs
            (min 0 cs.length), ¬ Late q)) :=
  @matchAll_eq_iff (.ascii .sample [99, 97, 97, 98] true) .sample _ Tables.ascii_ok (by decide) rfl
    (calls_runMatch rfl) 0 _

/-- The empty match of `(?=a)` in the text `ba` is reported twice. -/
theorem matchAll_late :
    Calls (.ascii .ahead [98, 97] true) (runMatch (.ascii .ahead [98, 97] true) 50) ∧
      ∃ r, matchAll (runMatch (.ascii .ahead [98, 97] true) 50) [98, 97] 0 (fun _ _ => true) =
          some r ∧ r.status = .matched .ok ∧ r.out.map (· 0) = [⟨1, 0⟩, ⟨1, 0⟩] :=
  ⟨calls_runMatch rfl, _, rfl, rfl, rfl⟩

end Arsh.Regex
