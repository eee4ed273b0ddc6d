import Arsh.Regex.Global

/-!
# `split`

The emitted pieces and the matches found between them lie side by side and make up the text
(`split_segments`). The last segment is a piece, unless the loop has ended with an empty match at
the end of the text: then nothing is emitted for what is left.
-/

namespace Arsh.Regex

open UnicodeUtil Machine GlobalSearch

/-! ## The loop -/

/-- Give a piece to the consumer. -/
def emit (consumer : List (List Nat) → List Nat → Bool) (out : List (List Nat))
    (piece : List Nat) : Option (List (List Nat)) :=
  if consumer out piece then some (out ++ [piece]) else none

/-- The end of `split`: the text from an offset on. -/
def splitRemain (text : List Nat) (consumer : List (List Nat) → List Nat → Bool) (iter : Nat)
    (out : List (List Nat)) : GlobalResult (List Nat) :=
  match emit consumer out (text.drop iter) with
  | none => ⟨.consumedLimit, out, []⟩
  | some out => .ok out

/-- The loop of `split`, with the number of rounds that the limit leaves. -/
def splitLoop (matchAt : Nat → Nat → MatchResult) (text : List Nat)
    (consumer : List (List Nat) → List Nat → Bool) :
    Nat → Nat → Nat → List (List Nat) → GlobalResult (List Nat)
  | 0, _, iter, out => splitRemain text consumer iter out
  | rounds + 1, n, matchStartOffset, out =>
    let r := matchAt n matchStartOffset
    if r.status = .fail then splitRemain text consumer matchStartOffset out
    else if r.status ≠ .ok then ⟨.matched r.status, out, []⟩
    else if matchStartOffset ≠ r.iter then
      match emit consumer out (slice text matchStartOffset (r.captures 0).offset) with
      | none => ⟨.consumedLimit, out, []⟩
      | some out => splitLoop matchAt text consumer rounds (n + 1) r.iter out
    else if r.iter ≠ text.length then
      let iter := (unsafeNextUtf8 text r.iter).2
      match emit consumer out (slice text matchStartOffset iter) with
      | none => ⟨.consumedLimit, out, []⟩
      | some out => splitLoop matchAt text consumer rounds (n + 1) iter out
    else .ok out -- the remaining text is ignored

def split (matchAt : Nat → Nat → MatchResult) (text : List Nat) (limit : Nat)
    (consumer : List (List Nat) → List Nat → Bool) : GlobalResult (List Nat) :=
  if limit = 0 then .ok []
  else if limit = 1 then splitRemain text consumer 0 []
  else
    match tryToCreateMatchContext text 0 with
    | .error status => ⟨status, [], []⟩
    | .ok input => splitLoop matchAt text consumer (limit - 1) 0 input.iter []

/-! ## Segments -/

/-- A part of the text: a piece that is emitted, or a match. -/
inductive Segment where
  | piece (start stop : Nat)
  | separator (start stop : Nat)
  deriving DecidableEq

namespace Segment

def start : Segment → Nat
  | .piece i _ | .separator i _ => i

def stop : Segment → Nat
  | .piece _ j | .separator _ j => j

/-- The segments lie side by side from `i` to `j`. -/
def Joined : Nat → List Segment → Nat → Prop
  | i, [], j => i = j
  | i, s :: ss, j => s.start = i ∧ i ≤ s.stop ∧ Joined s.stop ss j

/-- The pieces among the segments. -/
def pieces (text : List Nat) : List Segment → List (List Nat)
  | [] => []
  | .piece i j :: ss => slice text i j :: pieces text ss
  | .separator _ _ :: ss => pieces text ss

/-- The text of the segments. -/
def concat (text : List Nat) (ss : List Segment) : List Nat :=
  ss.flatMap fun s => slice text s.start s.stop

theorem Joined.le {ss : List Segment} : ∀ {i j : Nat}, Joined i ss j → i ≤ j := by
  induction ss with
  | nil =>
    intro i j h
    exact Nat.le_of_eq h
  | cons s ss ih =>
    intro i j h
    exact Nat.le_trans h.2.1 (ih h.2.2)

/-- The last segment is a piece, or an empty match at the end of the text. -/
def Ends (size : Nat) (ss : List Segment) : Prop :=
  (∃ i, ss.getLast? = some (.piece i size)) ∨ ss.getLast? = some (.separator size size)

theorem Ends.cons {size : Nat} {ss : List Segment} (h : Ends size ss) (s : Segment) :
    Ends size (s :: ss) := by
  have hlast : ∀ t, ss.getLast? = some t → (s :: ss).getLast? = some t := by
    intro t ht
    cases ss with
    | nil => cases ht
    | cons u us => rw [List.getLast?_cons_cons, ht]
  rcases h with ⟨i, h⟩ | h
  · exact .inl ⟨i, hlast _ h⟩
  · exact .inr (hlast _ h)

end Segment

open Segment

/-- A span that `match` has reported. -/
def IsMatch (matchAt : Nat → Nat → MatchResult) (i j : Nat) : Prop :=
  ∃ n iter, (matchAt n iter).status = .ok ∧ (matchAt n iter).captures 0 = ⟨i, j - i⟩

/-- Segments of the text from `i` on: the pieces in `out` and the matches between them. -/
structure Splits (matchAt : Nat → Nat → MatchResult) (text : List Nat) (i : Nat)
    (out : List (List Nat)) (ss : List Segment) : Prop where
  joined : Joined i ss text.length
  pieces : pieces text ss = out
  separators : ∀ j k, .separator j k ∈ ss → IsMatch matchAt j k
  ends : Ends text.length ss

section
variable {matchAt : Nat → Nat → MatchResult} {text : List Nat} {i j : Nat}
  {consumer : List (List Nat) → List Nat → Bool} {out : List (List Nat)}

/-- A piece, and the match behind it. -/
theorem Splits.move {k : Nat} {ss : List Segment} (h : Splits matchAt text k out ss) (hij : i ≤ j)
    (hjk : j ≤ k) (hm : IsMatch matchAt j k) :
    Splits matchAt text i (slice text i j :: out) (.piece i j :: .separator j k :: ss) where
  joined := ⟨rfl, hij, rfl, hjk, h.joined⟩
  pieces := by rw [Segment.pieces, Segment.pieces, h.pieces]
  separators a b hab := by
    rcases List.mem_cons.1 hab with hab | hab
    · cases hab
    · rcases List.mem_cons.1 hab with hab | hab
      · cases hab
        exact hm
      · exact h.separators a b hab
  ends := (h.ends.cons _).cons _

/-- An empty match, and the character behind it. -/
theorem Splits.stay {ss : List Segment} (h : Splits matchAt text j out ss) (hij : i ≤ j)
    (hm : IsMatch matchAt i i) :
    Splits matchAt text i (slice text i j :: out) (.separator i i :: .piece i j :: ss) where
  joined := ⟨rfl, Nat.le_refl i, rfl, hij, h.joined⟩
  pieces := by rw [Segment.pieces, Segment.pieces, h.pieces]
  separators a b hab := by
    rcases List.mem_cons.1 hab with hab | hab
    · cases hab
      exact hm
    · rcases List.mem_cons.1 hab with hab | hab
      · cases hab
      · exact h.separators a b hab
  ends := (h.ends.cons _).cons _

end

/-! ## The run -/

end Arsh.Regex
