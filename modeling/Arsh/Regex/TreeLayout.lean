import Arsh.Lib.Layout
import Arsh.Regex.ParserStep

/-!
# Capture groups and disjunctions

`Tree.Separated t i j` says that the groups `i` and `j` are in different alternatives of a common
disjunction of the tree. `Tree.layout` computes it (`Tree.apart_layout`), and the layout of a
parser's frames says what it will be in the tree that they become (`State.layout`).
-/

namespace Arsh.Regex

namespace Tree

/-- The nodes right below a node, outside of character classes. -/
def children : Tree → List Tree
  | .repeated _ _ _ _ _ _ p => [p]
  | .seq ps => ps
  | .alt ps => ps
  | .lookAround _ p => [p]
  | .group _ _ _ _ p => [p]
  | _ => []

/-- `u` is the node `t` or one below it. -/
inductive Below (u : Tree) : Tree → Prop where
  | refl : Below u u
  | child {t c : Tree} : c ∈ t.children → Below u c → Below u t

/-- The capture group with this index is in the tree. -/
def Holds (t : Tree) (index : Nat) : Prop :=
  ∃ set unset p, Below (.group .capture index set unset p) t

/-- Two groups are in different ones of these alternatives. -/
def Across (i j : Nat) (ps : List Tree) : Prop :=
  ∃ (a b : Nat) (p q : Tree), a ≠ b ∧ ps[a]? = some p ∧ ps[b]? = some q ∧ p.Holds i ∧ q.Holds j

/-- Two groups are in different alternatives of some disjunction. -/
def Separated (t : Tree) (i j : Nat) : Prop := ∃ ps, Below (.alt ps) t ∧ Across i j ps

mutual

/-- The capture groups of a tree, and which of them are separated. -/
def layout : Tree → Layout Nat
  | .repeated _ _ _ _ _ _ p => layout p
  | .seq ps => layoutSeq ps
  | .alt ps => layoutAlt ps
  | .lookAround _ p => layout p
  | .group .capture index _ _ p => (Layout.flat [index]).beside (layout p)
  | .group _ _ _ _ p => layout p
  | _ => .none

def layoutSeq : List Tree → Layout Nat
  | [] => .none
  | p :: ps => (layout p).beside (layoutSeq ps)

def layoutAlt : List Tree → Layout Nat
  | [] => .none
  | p :: ps => (layout p).either (layoutAlt ps)

end

attribute [local simp] layout layoutSeq layoutAlt

variable {t u : Tree} {i j : Nat} {ps : List Tree}

theorem below_iff : Below u t ↔ u = t ∨ ∃ c ∈ t.children, Below u c := by
  constructor
  · rintro (_ | ⟨hc, h⟩)
    · exact .inl rfl
    · exact .inr ⟨_, hc, h⟩
  · rintro (rfl | ⟨c, hc, h⟩)
    · exact .refl
    · exact .child hc h

theorem holds_iff : t.Holds i ↔
    (∃ set unset p, t = .group .capture i set unset p) ∨ ∃ c ∈ t.children, c.Holds i := by
  constructor
  · rintro ⟨set, unset, p, h⟩
    rcases below_iff.1 h with rfl | ⟨c, hc, h⟩
    · exact .inl ⟨set, unset, p, rfl⟩
    · exact .inr ⟨c, hc, set, unset, p, h⟩
  · rintro (⟨set, unset, p, rfl⟩ | ⟨c, hc, set, unset, p, h⟩)
    · exact ⟨set, unset, p, .refl⟩
    · exact ⟨set, unset, p, .child hc h⟩

theorem separated_iff : t.Separated i j ↔
    (∃ ps, t = .alt ps ∧ Across i j ps) ∨ ∃ c ∈ t.children, c.Separated i j := by
  constructor
  · rintro ⟨ps, h, ha⟩
    rcases below_iff.1 h with rfl | ⟨c, hc, h⟩
    · exact .inl ⟨ps, rfl, ha⟩
    · exact .inr ⟨c, hc, ps, h, ha⟩
  · rintro (⟨ps, rfl, ha⟩ | ⟨c, hc, ps, h, ha⟩)
    · exact ⟨ps, .refl, ha⟩
    · exact ⟨ps, .child hc h, ha⟩

theorem across_cons {p : Tree} : Across i j (p :: ps) ↔
    (p.Holds i ∧ ∃ q ∈ ps, q.Holds j) ∨ (p.Holds j ∧ ∃ q ∈ ps, q.Holds i) ∨ Across i j ps := by
  constructor
  · rintro ⟨a, b, q, r, hab, ha, hb, hi, hj⟩
    rcases a with _ | a <;> rcases b with _ | b
    · exact absurd rfl hab
    · cases ha
      exact .inl ⟨hi, r, List.mem_of_getElem? hb, hj⟩
    · cases hb
      exact .inr (.inl ⟨hj, q, List.mem_of_getElem? ha, hi⟩)
    · exact .inr (.inr ⟨a, b, q, r, by omega, ha, hb, hi, hj⟩)
  · rintro (⟨hi, q, hq, hj⟩ | ⟨hj, q, hq, hi⟩ | ⟨a, b, q, r, hab, ha, hb, hi, hj⟩)
    · obtain ⟨b, hb⟩ := List.mem_iff_getElem?.1 hq
      exact ⟨0, b + 1, p, q, by omega, rfl, hb, hi, hj⟩
    · obtain ⟨a, ha⟩ := List.mem_iff_getElem?.1 hq
      exact ⟨a + 1, 0, q, p, by omega, ha, rfl, hi, hj⟩
    · exact ⟨a + 1, b + 1, q, r, by omega, ha, hb, hi, hj⟩

theorem mem_layoutSeq : i ∈ (layoutSeq ps).leaves ↔ ∃ p ∈ ps, i ∈ p.layout.leaves := by
  induction ps with
  | nil => simp [layoutSeq]
  | cons p ps ih => simp [layoutSeq, ih]

theorem mem_layoutAlt : i ∈ (layoutAlt ps).leaves ↔ ∃ p ∈ ps, i ∈ p.layout.leaves := by
  induction ps with
  | nil => simp [layoutAlt]
  | cons p ps ih => simp [layoutAlt, ih]

theorem mem_layout : i ∈ t.layout.leaves ↔ t.Holds i := by
  induction t using Tree.induct with
  | repeated _ _ _ _ _ _ p ih => rw [holds_iff]; simp [layout, children, ih]
  | seq ps ih =>
    rw [holds_iff, layout, mem_layoutSeq]
    simpa [children] using exists_congr fun p => and_congr_right (ih p)
  | alt ps ih =>
    rw [holds_iff, layout, mem_layoutAlt]
    simpa [children] using exists_congr fun p => and_congr_right (ih p)
  | lookAround _ p ih => rw [holds_iff]; simp [layout, children, ih]
  | group type index _ _ p ih =>
    rw [holds_iff]
    cases type <;> simp [layout, children, ih, eq_comm]
  | _ => rw [holds_iff]; simp [layout, children]

theorem apart_layoutSeq : (layoutSeq ps).apart i j ↔ ∃ p ∈ ps, p.layout.apart i j := by
  induction ps with
  | nil => simp [layoutSeq]
  | cons p ps ih => simp [layoutSeq, ih]

theorem apart_layoutAlt :
    (layoutAlt ps).apart i j ↔ (∃ p ∈ ps, p.layout.apart i j) ∨ Across i j ps := by
  induction ps with
  | nil => simp [layoutAlt, Across]
  | cons p ps ih =>
    simp only [layoutAlt, Layout.apart_either, ih, across_cons, mem_layoutAlt, mem_layout,
      List.mem_cons, exists_eq_or_imp]
    simp only [or_assoc, or_comm, or_left_comm]

/-- The layout says which groups are separated. -/
theorem apart_layout : t.layout.apart i j ↔ t.Separated i j := by
  induction t using Tree.induct with
  | repeated _ _ _ _ _ _ p ih => rw [separated_iff]; simp [layout, children, ih]
  | seq ps ih =>
    rw [separated_iff, layout, apart_layoutSeq]
    simpa [children] using exists_congr fun p => and_congr_right (ih p)
  | alt ps ih =>
    have hps : (∃ p ∈ ps, p.layout.apart i j) ↔ ∃ p ∈ ps, p.Separated i j :=
      exists_congr fun p => and_congr_right (ih p)
    rw [separated_iff, layout, apart_layoutAlt, hps]
    simp [children, or_comm]
  | lookAround _ p ih => rw [separated_iff]; simp [layout, children, ih]
  | group type index _ _ p ih =>
    rw [separated_iff]
    cases type <;> simp [layout, children, ih]
  | _ => rw [separated_iff]; simp [layout, children]

/-! ## The nodes that the parser makes -/

theorem layoutSeq_append (ps qs : List Tree) :
    layoutSeq (ps ++ qs) = (layoutSeq ps).beside (layoutSeq qs) := by
  induction ps with
  | nil => simp [layoutSeq]
  | cons p ps ih => simp [layoutSeq, ih, Layout.beside_assoc]

theorem layoutAlt_append (ps qs : List Tree) :
    layoutAlt (ps ++ qs) = (layoutAlt ps).either (layoutAlt qs) := by
  induction ps with
  | nil => simp [layoutAlt]
  | cons p ps ih => simp [layoutAlt, ih, Layout.either_assoc]

theorem layout_ofItems (ps : List Tree) : (ofItems ps).layout = layoutSeq ps := by
  unfold ofItems
  split
  · simp [layout, layoutSeq]
  · simp [layoutSeq]
  · rw [layout]

theorem layout_ofAlternatives (ps items : List Tree) :
    (ofAlternatives ps items).layout = (layoutAlt ps).either (layoutSeq items) := by
  unfold ofAlternatives
  split
  · next h => rw [h, layoutAlt, Layout.none_either, layout_ofItems]
  · rw [layout, layoutAlt_append, layoutAlt, layoutAlt, Layout.either_none, layout_ofItems]

theorem layout_of_isAtom (h : t.isAtom = true) : t.layout = .none := by
  cases t <;> first | rfl | cases h

theorem layout_setIndices (offset : List Nat → Nat) : (t.setIndices offset).layout = t.layout := by
  induction t using Tree.induct with
  | repeated _ _ _ _ _ _ p ih => rw [setIndices, layout, layout, ih]
  | seq ps ih =>
    rw [setIndices, layout, layout]
    induction ps with
    | nil => rfl
    | cons p ps ihs =>
      rw [setIndicesList, layoutSeq, layoutSeq, ih p (by simp), ihs fun q hq => ih q (by simp [hq])]
  | alt ps ih =>
    rw [setIndices, layout, layout]
    induction ps with
    | nil => rfl
    | cons p ps ihs =>
      rw [setIndicesList, layoutAlt, layoutAlt, ih p (by simp), ihs fun q hq => ih q (by simp [hq])]
  | lookAround _ p ih => rw [setIndices, layout, layout, ih]
  | group type _ _ _ p ih => cases type <;> simp [setIndices, layout, ih]
  | _ => rfl

end Tree

namespace Parser

open Regex.Tree

theorem Quantified.layout_eq {p q : Tree} (h : Quantified p q) : q.layout = p.layout := by
  rcases h with rfl | ⟨loopIndex, min, max, greedy, rfl⟩
  · rfl
  · rw [repeatNode, layout]

/-- A frame as a layer around the part of the pattern that is to come. -/
def Frame.layer (f : Frame) : Layout.Layer Nat :=
  ⟨.flat f.type.captures, layoutAlt f.alternatives, layoutSeq f.items⟩

theorem layout_group (type : GroupType) (index : Nat) (set unset : Modifier) (p : Tree) :
    (Tree.group type index set unset p).layout =
      (Layout.flat (FrameType.group type index set unset).captures).beside p.layout := by
  cases type with
  | capture => simp [layout, FrameType.captures]
  | nonCapture => exact (Layout.none_beside p.layout).symm
  | modifier => exact (Layout.none_beside p.layout).symm

theorem Frame.layout_wrap (f : Frame) : f.wrap.layout = f.layer.fill .none := by
  have hn : f.node.layout = (layoutAlt f.alternatives).either (layoutSeq f.items) :=
    layout_ofAlternatives _ _
  unfold Frame.wrap Layout.Layer.fill Frame.layer
  rw [Layout.beside_none]
  split
  · next h => rw [hn, h]; exact (Layout.none_beside _).symm
  · next h => rw [layout_group, hn, h]
  · next h => rw [layout, hn, h]; exact (Layout.none_beside _).symm

theorem Frame.fill_append (f : Frame) (q : Tree) (hole : Layout Nat) :
    (f.append q).layer.fill hole = f.layer.fill (q.layout.beside hole) := by
  simp only [Frame.layer, Frame.append, Layout.Layer.fill, layoutSeq_append, layoutSeq,
    Layout.beside_none, Layout.beside_assoc]

theorem Frame.fill_nextAlternative (f : Frame) :
    f.nextAlternative.layer.fill .none = f.layer.fill .none := by
  simp only [Frame.layer, Frame.nextAlternative, Frame.clearAndMergeGroupNames,
    Layout.Layer.fill, layoutAlt_append, layoutAlt, layoutSeq, Layout.either_none,
    Layout.beside_none, layout_ofItems]

/-- The frames around the open position, innermost first. -/
def State.context (s : State) : Layout.Context Nat := (s.top :: s.below).map Frame.layer

/-- The layout of the pattern so far. -/
def State.layout (s : State) : Layout Nat := s.context.fill .none

end Parser

end Arsh.Regex
