import Mathlib.Data.List.Basic
import Mathlib.Tactic.Common

/-!
# Segments of a text

A scanner reads the next symbols of a text, one or more at a time, and says whether a segment ends
before them; so it is always ahead of the segment it is in. Whatever it says, the segments are not empty
and make up the text, and two scanners that say the same find the same segments.
-/

namespace Arsh.Segments

variable {α σ τ : Type*}

structure Scanner (α σ : Type*) where
  /-- whether a segment ends here, the state and the number of symbols that are read -/
  step : σ → List α → Bool × σ × Nat
  pos : ∀ s w, w ≠ [] → 0 < (step s w).2.2
  le : ∀ s w, (step s w).2.2 ≤ w.length

/-- Where the current segment begins, how far the scanner has read, and its state. -/
structure Cursor (σ : Type*) where
  start : Nat
  iter : Nat
  state : σ

namespace Scanner

variable (S : Scanner α σ) (w : List α)

/-- The end of the text ends a segment. -/
def scan (c : Cursor σ) : Bool × Cursor σ :=
  if c.iter = w.length then (true, c)
  else
    ((S.step c.state (w.drop c.iter)).1,
      { c with
        iter := c.iter + (S.step c.state (w.drop c.iter)).2.2
        state := (S.step c.state (w.drop c.iter)).2.1 })

/-- The end of the current segment. -/
def loop : Nat → Cursor σ → Option (Nat × Cursor σ)
  | 0, _ => none
  | fuel + 1, c => if (S.scan w c).1 then some (c.iter, (S.scan w c).2) else loop fuel (S.scan w c).2

def next (c : Cursor σ) : Option (List α × Cursor σ) :=
  (S.loop w (w.length - c.iter + 1) c).map fun r =>
    ((w.drop c.start).take (r.1 - c.start), { r.2 with start := r.1 })

/-- The segments from a cursor on, at most `limit` of them. -/
def upTo : Nat → Cursor σ → Option (List (List α))
  | 0, _ => some []
  | limit + 1, c =>
    if c.start = w.length then some []
    else (S.next w c).bind fun r => (upTo limit r.2).map (r.1 :: ·)

/-- A cursor that is ahead of its segment, or will not end the segment before it is. -/
structure Ok (c : Cursor σ) : Prop where
  le : c.start ≤ c.iter
  len : c.iter ≤ w.length
  ahead : c.start = c.iter → c.iter < w.length → (S.step c.state (w.drop c.iter)).1 = false

variable {S w} {c : Cursor σ} {fuel : Nat}

theorem drop_ne_nil {i : Nat} (h : i < w.length) : w.drop i ≠ [] := by
  rw [Ne, List.drop_eq_nil_iff]
  omega

/-- What a scan reads. -/
theorem scan_lt (h : c.iter < w.length) :
    c.iter < (S.scan w c).2.iter ∧ (S.scan w c).2.iter ≤ w.length := by
  have hpos := S.pos c.state _ (drop_ne_nil h)
  have hle := S.le c.state (w.drop c.iter)
  rw [List.length_drop] at hle
  unfold scan
  rw [if_neg (by omega)]
  dsimp only
  omega

theorem scan_end (h : c.iter = w.length) : S.scan w c = (true, c) := if_pos h

/-- The loop comes to an end: it does not go back, and it stops with a scanner that is ahead, or at the
end of the text. -/
theorem loop_spec (hlen : c.iter ≤ w.length) (hfuel : w.length - c.iter < fuel) :
    ∃ r, S.loop w fuel c = some r ∧ c.iter ≤ r.1 ∧ r.1 ≤ r.2.iter ∧ r.2.iter ≤ w.length ∧
      (r.1 < w.length → r.1 < r.2.iter) ∧
      (c.iter < w.length → (S.scan w c).1 = false → c.iter < r.1) := by
  induction fuel generalizing c with
  | zero => omega
  | succ fuel ih =>
    unfold loop
    by_cases hend : c.iter = w.length
    · rw [scan_end hend]
      exact ⟨_, rfl, Nat.le_refl _, Nat.le_refl _, hlen, fun h => absurd hend (Nat.ne_of_lt h),
        fun h => absurd hend (Nat.ne_of_lt h)⟩
    · obtain ⟨hlt, hle⟩ := scan_lt (S := S) (Nat.lt_of_le_of_ne hlen hend)
      cases hb : (S.scan w c).1 with
      | true =>
        exact ⟨_, rfl, Nat.le_refl _, Nat.le_of_lt hlt, hle, fun _ => hlt, fun _ h => by cases h⟩
      | false =>
        obtain ⟨r, hr, h₁, h₂, h₃, h₄, -⟩ := ih hle (by omega)
        exact ⟨r, hr, by omega, h₂, h₃, h₄, fun _ _ => by omega⟩

/-- A segment that is not empty, and a cursor behind it. -/
theorem next_spec (hc : S.Ok w c) (hne : c.start ≠ w.length) :
    ∃ seg c', S.next w c = some (seg, c') ∧ seg ≠ [] ∧ S.Ok w c' ∧ c.start < c'.start ∧
      w.drop c.start = seg ++ w.drop c'.start := by
  obtain ⟨r, hr, h₁, h₂, h₃, h₄, h₅⟩ := loop_spec (S := S) hc.len (Nat.lt_succ_self _)
  have hle := hc.le
  have hlen := hc.len
  have hlt : c.start < r.1 := by
    by_cases heq : c.start = c.iter
    · have hfirst : (S.scan w c).1 = false := by
        unfold scan
        rw [if_neg (by omega)]
        exact hc.ahead heq (by omega)
      have := h₅ (by omega) hfirst
      omega
    · omega
  refine ⟨(w.drop c.start).take (r.1 - c.start), { r.2 with start := r.1 },
    by rw [next, hr]; rfl, ?_, ⟨h₂, h₃, fun heq hl => ?_⟩, hlt, ?_⟩
  · rw [Ne, List.take_eq_nil_iff, List.drop_eq_nil_iff]
    omega
  · dsimp only at heq hl
    have := h₄ (by omega)
    omega
  · have hsplit : r.1 = c.start + (r.1 - c.start) := by omega
    dsimp only
    conv_lhs => rw [← List.take_append_drop (r.1 - c.start) (w.drop c.start), List.drop_drop]
    rw [← hsplit]

theorem upTo_end {limit : Nat} (h : c.start = w.length) : S.upTo w limit c = some [] := by
  cases limit with
  | zero => rfl
  | succ limit => exact if_pos h

/-- The segments are not empty and make up the text; there are no more than it has symbols. -/
theorem upTo_spec (hc : S.Ok w c) :
    ∃ segs, (∀ limit, w.length - c.start ≤ limit → S.upTo w limit c = some segs) ∧
      (∀ seg ∈ segs, seg ≠ []) ∧ segs.flatten = w.drop c.start := by
  obtain ⟨n, hn⟩ : ∃ n, w.length - c.start ≤ n := ⟨_, Nat.le_refl _⟩
  have hstart : c.start ≤ w.length := Nat.le_trans hc.le hc.len
  induction n generalizing c with
  | zero =>
    have heq : c.start = w.length := by omega
    exact ⟨[], fun _ _ => upTo_end heq, nofun, by rw [heq, List.drop_length]; rfl⟩
  | succ n ih =>
    by_cases heq : c.start = w.length
    · exact ⟨[], fun _ _ => upTo_end heq, nofun, by rw [heq, List.drop_length]; rfl⟩
    · obtain ⟨seg, c', hnext, hne, hc', hlt, hdrop⟩ := next_spec hc heq
      obtain ⟨segs, hall, hsegs, hflat⟩ := ih hc' (by omega) (Nat.le_trans hc'.le hc'.len)
      refine ⟨seg :: segs, fun limit hlimit => ?_, List.forall_mem_cons.2 ⟨hne, hsegs⟩, ?_⟩
      · obtain ⟨k, rfl⟩ : ∃ k, limit = k + 1 := ⟨limit - 1, by omega⟩
        unfold upTo
        rw [if_neg heq, hnext]
        show (S.upTo w k c').map _ = _
        rw [hall k (by omega)]
        rfl
      · rw [List.flatten_cons, hflat, hdrop]

/-! ## Scanners that say the same -/

variable {T : Scanner α τ} {R : σ → τ → Prop} {d : Cursor τ}

/-- Steps from related states say the same, read the same and lead to related states. -/
def Same (S : Scanner α σ) (T : Scanner α τ) (R : σ → τ → Prop) : Prop :=
  ∀ s t, R s t → ∀ w, (S.step s w).1 = (T.step t w).1 ∧ R (S.step s w).2.1 (T.step t w).2.1 ∧
    (S.step s w).2.2 = (T.step t w).2.2

/-- The cursors are at the same places, with related states. -/
structure Cursor.Rel (R : σ → τ → Prop) (c : Cursor σ) (d : Cursor τ) : Prop where
  start : c.start = d.start
  iter : c.iter = d.iter
  state : R c.state d.state

theorem scan_rel (h : Same S T R) (hcd : Cursor.Rel R c d) :
    (S.scan w c).1 = (T.scan w d).1 ∧ Cursor.Rel R (S.scan w c).2 (T.scan w d).2 := by
  obtain ⟨h₁, h₂, h₃⟩ := h _ _ hcd.state (w.drop d.iter)
  unfold scan
  rw [hcd.iter]
  split
  · exact ⟨rfl, hcd⟩
  · exact ⟨h₁, hcd.start, by rw [h₃], h₂⟩

theorem loop_rel (fuel : Nat) (h : Same S T R) (hcd : Cursor.Rel R c d) :
    Option.Rel (fun r r' => r.1 = r'.1 ∧ Cursor.Rel R r.2 r'.2) (S.loop w fuel c)
      (T.loop w fuel d) := by
  induction fuel generalizing c d with
  | zero => exact .none
  | succ fuel ih =>
    obtain ⟨h₁, h₂⟩ := scan_rel (w := w) h hcd
    unfold loop
    rw [h₁]
    split
    · exact .some ⟨hcd.iter, h₂⟩
    · exact ih h₂

theorem next_rel (h : Same S T R) (hcd : Cursor.Rel R c d) :
    Option.Rel (fun r r' => r.1 = r'.1 ∧ Cursor.Rel R r.2 r'.2) (S.next w c) (T.next w d) := by
  have hloop := loop_rel (w := w) (w.length - d.iter + 1) h hcd
  unfold next
  rw [hcd.iter, hcd.start]
  revert hloop
  generalize S.loop w (w.length - d.iter + 1) c = x
  generalize T.loop w (w.length - d.iter + 1) d = y
  rintro (⟨he, hr⟩ | _)
  · exact .some ⟨by dsimp only; rw [he], he, hr.iter, hr.state⟩
  · exact .none

end Scanner

end Arsh.Segments
