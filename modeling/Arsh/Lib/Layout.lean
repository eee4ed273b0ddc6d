import Mathlib.Tactic.Common
import Mathlib.Data.List.Nodup

/-!
# Layouts

What is left of a syntax tree when only two things matter: its leaves, in order, and which of them
are in different alternatives of some choice (`apart`). `beside` puts two parts one after the
other, `either` makes them alternatives; both have `none` as their unit.

`plug i E L` is a layout `L` with one more leaf, apart from the leaves in `E` only. A layout with a
hole (`Context`) turns a leaf in its hole into such a leaf (`Context.fill_plug`).
-/

namespace Arsh

@[ext]
structure Layout (ι : Type*) where
  leaves : List ι
  apart : ι → ι → Prop

namespace Layout

variable {ι : Type*} {a b c : Layout ι} {i j x y : ι}

/-- Leaves without any choice. -/
def flat (is : List ι) : Layout ι := ⟨is, fun _ _ => False⟩

def none : Layout ι := flat []

/-- Two parts that follow each other. -/
def beside (a b : Layout ι) : Layout ι := ⟨a.leaves ++ b.leaves, fun x y => a.apart x y ∨ b.apart x y⟩

/-- Two alternatives. -/
def either (a b : Layout ι) : Layout ι where
  leaves := a.leaves ++ b.leaves
  apart x y := a.apart x y ∨ b.apart x y ∨ x ∈ a.leaves ∧ y ∈ b.leaves ∨ y ∈ a.leaves ∧ x ∈ b.leaves

@[simp] theorem leaves_none : (none : Layout ι).leaves = [] := rfl

@[simp] theorem leaves_flat {is : List ι} : (flat is).leaves = is := rfl

@[simp] theorem leaves_beside : (a.beside b).leaves = a.leaves ++ b.leaves := rfl

@[simp] theorem leaves_either : (a.either b).leaves = a.leaves ++ b.leaves := rfl

@[simp] theorem apart_none : (none : Layout ι).apart x y ↔ False := .rfl

@[simp] theorem apart_flat {is : List ι} : (flat is).apart x y ↔ False := .rfl

@[simp] theorem apart_beside : (a.beside b).apart x y ↔ a.apart x y ∨ b.apart x y := .rfl

@[simp] theorem apart_either : (a.either b).apart x y ↔ a.apart x y ∨ b.apart x y ∨
    x ∈ a.leaves ∧ y ∈ b.leaves ∨ y ∈ a.leaves ∧ x ∈ b.leaves := .rfl

@[simp] theorem none_beside (a : Layout ι) : none.beside a = a := by
  ext <;> simp

@[simp] theorem beside_none (a : Layout ι) : a.beside none = a := by
  ext <;> simp

@[simp] theorem none_either (a : Layout ι) : none.either a = a := by
  ext <;> simp

@[simp] theorem either_none (a : Layout ι) : a.either none = a := by
  ext <;> simp

theorem beside_assoc (a b c : Layout ι) : (a.beside b).beside c = a.beside (b.beside c) := by
  ext <;> simp [or_assoc]

theorem either_assoc (a b c : Layout ι) : (a.either b).either c = a.either (b.either c) := by
  ext x y
  · simp
  · simp only [apart_either, leaves_either, List.mem_append]
    tauto

/-- Only leaves are apart. -/
def Closed (a : Layout ι) : Prop := ∀ x y, a.apart x y → x ∈ a.leaves ∧ y ∈ a.leaves

theorem closed_flat (is : List ι) : (flat is).Closed := fun _ _ h => h.elim

theorem Closed.beside (ha : a.Closed) (hb : b.Closed) : (a.beside b).Closed := by
  rintro x y (h | h)
  · exact ⟨List.mem_append_left _ (ha x y h).1, List.mem_append_left _ (ha x y h).2⟩
  · exact ⟨List.mem_append_right _ (hb x y h).1, List.mem_append_right _ (hb x y h).2⟩

theorem Closed.either (ha : a.Closed) (hb : b.Closed) : (a.either b).Closed := by
  rintro x y (h | h | ⟨hx, hy⟩ | ⟨hy, hx⟩)
  · exact ⟨List.mem_append_left _ (ha x y h).1, List.mem_append_left _ (ha x y h).2⟩
  · exact ⟨List.mem_append_right _ (hb x y h).1, List.mem_append_right _ (hb x y h).2⟩
  · exact ⟨List.mem_append_left _ hx, List.mem_append_right _ hy⟩
  · exact ⟨List.mem_append_right _ hx, List.mem_append_left _ hy⟩

/-! ## One leaf more -/

/-- A new last leaf, apart from those of `E`. -/
def plug (i : ι) (E : ι → Prop) (a : Layout ι) : Layout ι where
  leaves := a.leaves ++ [i]
  apart x y := a.apart x y ∨ x = i ∧ E y ∨ y = i ∧ E x

theorem flat_eq_plug (i : ι) : flat [i] = plug i (fun _ => False) none := by
  ext <;> simp [plug]

theorem beside_plug (E : ι → Prop) : a.beside (plug i E b) = plug i E (a.beside b) := by
  ext
  · simp [plug]
  · simp only [plug, apart_beside]
    tauto

theorem either_plug (E : ι → Prop) :
    a.either (plug i E b) = plug i (fun x => E x ∨ x ∈ a.leaves) (a.either b) := by
  ext x y
  · simp [plug]
  · simp only [plug, apart_either, List.mem_append, List.mem_singleton]
    tauto

/-- A layer around a hole: leaves in front, alternatives before the open one, and what stands in
the open one before the hole. -/
structure Layer (ι : Type*) where
  front : Layout ι
  alternatives : Layout ι
  before : Layout ι

/-- The layer with something in its hole. -/
def Layer.fill (l : Layer ι) (hole : Layout ι) : Layout ι :=
  l.front.beside (l.alternatives.either (l.before.beside hole))

/-- Nested layers, the innermost first. -/
abbrev Context (ι : Type*) := List (Layer ι)

/-- The layout with something in the innermost hole. -/
def Context.fill (ls : Context ι) (hole : Layout ι) : Layout ι := ls.foldl (fun a l => l.fill a) hole

/-- The leaves in finished alternatives of the layers. -/
def Context.Finished (ls : Context ι) (x : ι) : Prop := ∃ l ∈ ls, x ∈ l.alternatives.leaves

@[simp] theorem Context.fill_nil (hole : Layout ι) : Context.fill [] hole = hole := rfl

@[simp] theorem Context.fill_cons (l : Layer ι) (ls : Context ι) (hole : Layout ι) :
    Context.fill (l :: ls) hole = Context.fill ls (l.fill hole) := rfl

/-- A leaf that is plugged into the innermost hole is apart from the finished alternatives. -/
theorem Context.fill_plug (ls : Context ι) (i : ι) (E : ι → Prop) (hole : Layout ι) :
    ls.fill (plug i E hole) = plug i (fun x => E x ∨ ls.Finished x) (ls.fill hole) := by
  induction ls generalizing E hole with
  | nil => simp [Context.Finished]
  | cons l ls ih =>
    have hl : l.fill (plug i E hole) =
        plug i (fun x => E x ∨ x ∈ l.alternatives.leaves) (l.fill hole) := by
      simp only [Layer.fill, beside_plug, either_plug]
    rw [Context.fill_cons, Context.fill_cons, hl, ih]
    simp [Context.Finished, or_assoc]

def Layer.Closed (l : Layer ι) : Prop :=
  l.front.Closed ∧ l.alternatives.Closed ∧ l.before.Closed

theorem Context.closed_fill {ls : Context ι} {hole : Layout ι} (h : ∀ l ∈ ls, Layer.Closed l)
    (hh : hole.Closed) : Layout.Closed (ls.fill hole) := by
  induction ls generalizing hole with
  | nil => exact hh
  | cons l ls ih =>
    obtain ⟨⟨hf, ha, hb⟩, hls⟩ := List.forall_mem_cons.1 h
    exact ih hls (hf.beside (ha.either (hb.beside hh)))

/-! ## Finished and open leaves -/

def Layer.leaves (l : Layer ι) : List ι :=
  l.front.leaves ++ (l.alternatives.leaves ++ l.before.leaves)

/-- The leaves around the hole, in order. -/
def Context.outside : Context ι → List ι
  | [] => []
  | l :: ls => outside ls ++ l.leaves

/-- The leaves that are in no finished alternative of a layer. -/
def Context.Open (ls : Context ι) (x : ι) : Prop :=
  ∃ l ∈ ls, x ∈ l.front.leaves ∨ x ∈ l.before.leaves

theorem Context.fill_leaves (ls : Context ι) (hole : Layout ι) :
    (ls.fill hole).leaves = ls.outside ++ hole.leaves := by
  induction ls generalizing hole with
  | nil => rfl
  | cons l ls ih =>
    rw [fill_cons, ih]
    simp [outside, Layer.fill, Layer.leaves]

theorem Context.finished_cons {l : Layer ι} {ls : Context ι} :
    Finished (l :: ls) x ↔ x ∈ l.alternatives.leaves ∨ ls.Finished x := by
  simp [Finished]

theorem Context.open_cons {l : Layer ι} {ls : Context ι} :
    Open (l :: ls) x ↔ (x ∈ l.front.leaves ∨ x ∈ l.before.leaves) ∨ ls.Open x := by
  simp [Open]

theorem Context.mem_outside {ls : Context ι} : x ∈ ls.outside ↔ ls.Finished x ∨ ls.Open x := by
  induction ls with
  | nil => simp [outside, Finished, Open]
  | cons l ls ih =>
    rw [outside, List.mem_append, ih, finished_cons, open_cons, Layer.leaves]
    simp only [List.mem_append]
    tauto

theorem Context.not_open_of_finished {ls : Context ι} (hd : ls.outside.Nodup)
    (hf : ls.Finished x) : ¬ ls.Open x := by
  induction ls with
  | nil =>
    obtain ⟨l, hl, -⟩ := hf
    cases hl
  | cons l ls ih =>
    obtain ⟨hls, hl, hdisj⟩ := List.nodup_append'.1 hd
    have hout : x ∈ l.leaves → ¬ (Finished ls x ∨ Open ls x) := fun hx h =>
      hdisj (mem_outside.2 h) hx
    simp only [Layer.leaves, List.nodup_append', List.mem_append] at hl hout
    rw [finished_cons] at hf
    rw [open_cons]
    rcases hf with hf | hf
    · rintro (ho | ho)
      · rcases ho with ho | ho
        · exact hl.2.2 ho (List.mem_append_left _ hf)
        · exact hl.2.1.2.2 hf ho
      · exact hout (.inr (.inl hf)) (.inr ho)
    · rintro (ho | ho)
      · exact hout (ho.imp id .inr) (.inl hf)
      · exact ih hls hf ho

end Layout

end Arsh
