import Mathlib.Data.List.Nodup
import Mathlib.Logic.Relation
import Mathlib.Tactic.Common

/-!
# Acyclic relations

In an acyclic relation the number of nodes that can be reached gets smaller along every edge, so
it bounds the depth of a search. `Topo` is an order where each node stands after those it leads to.
-/

namespace Arsh.Dag

open Relation

variable {α : Type*} {edge : α → α → Prop} {nodes : List α} {a b : α}

/-- No path leads back to its start. -/
def Acyclic (edge : α → α → Prop) : Prop := ∀ a, ¬ TransGen edge a a

theorem Acyclic.mono {edge' : α → α → Prop} (h : Acyclic edge) (hsub : ∀ a b, edge' a b → edge a b) :
    Acyclic edge' := fun a ha => h a (TransGen.mono hsub a a ha)

theorem Acyclic.of_lt {f : α → Nat} (h : ∀ a b, edge a b → f a < f b) : Acyclic edge := by
  suffices ∀ a b, TransGen edge a b → f a < f b from fun a ha => Nat.lt_irrefl _ (this a a ha)
  intro a b hab
  induction hab with
  | single hab => exact h _ _ hab
  | tail _ hbc ih => exact Nat.lt_trans ih (h _ _ hbc)

open Classical in
/-- How many of the nodes can be reached. -/
noncomputable def height (edge : α → α → Prop) (nodes : List α) (a : α) : Nat :=
  nodes.countP fun b => decide (TransGen edge a b)

theorem height_le : height edge nodes a ≤ nodes.length := List.countP_le_length

theorem countP_lt {p q : α → Bool} (hpq : ∀ x, p x → q x) {xs : List α} {x : α} (hx : x ∈ xs)
    (hq : q x) (hp : p x = false) : xs.countP p < xs.countP q := by
  induction xs with
  | nil => cases hx
  | cons y ys ih =>
    have hle : ys.countP p ≤ ys.countP q := List.countP_mono_left fun x _ => hpq x
    rw [List.countP_cons, List.countP_cons]
    rcases List.mem_cons.1 hx with rfl | hx
    · rw [if_pos hq, if_neg (by simp [hp])]
      omega
    · have := ih hx
      by_cases hy : p y
      · rw [if_pos hy, if_pos (hpq y hy)]
        omega
      · rw [if_neg hy]
        omega

open Classical in
theorem height_lt (h : Acyclic edge) (hb : b ∈ nodes) (hab : edge a b) :
    height edge nodes b < height edge nodes a := by
  unfold height
  apply countP_lt (x := b) ?_ hb
  · exact decide_eq_true (.single hab)
  · exact decide_eq_false (h b)
  · intro x hx
    exact decide_eq_true (.head hab (of_decide_eq_true hx))

/-- Every node comes once, after all it leads to. -/
structure Topo (edge : α → α → Prop) (xs : List α) : Prop where
  nodup : xs.Nodup
  before : ∀ pre a post, xs = pre ++ a :: post → ∀ b, edge a b → b ∈ pre

theorem Topo.nil : Topo edge [] := ⟨List.nodup_nil, by simp⟩

theorem Topo.snoc {xs : List α} (h : Topo edge xs) (ha : a ∉ xs) (hb : ∀ b, edge a b → b ∈ xs) :
    Topo edge (xs ++ [a]) where
  nodup := List.nodup_append.2 ⟨h.nodup, List.nodup_singleton a, by
    rintro x hx y hy rfl
    exact ha (List.mem_singleton.1 hy ▸ hx)⟩
  before pre c post heq b hcb := by
    -- `c` is the new node, or it was there before
    rcases List.eq_nil_or_concat post with rfl | ⟨post, d, rfl⟩
    · obtain ⟨rfl, hc⟩ := List.append_inj' heq rfl
      cases hc
      exact hb b hcb
    · rw [List.concat_eq_append, ← List.cons_append, ← List.append_assoc] at heq
      obtain ⟨heq, -⟩ := List.append_inj' heq rfl
      exact h.before pre c post heq b hcb

end Arsh.Dag
