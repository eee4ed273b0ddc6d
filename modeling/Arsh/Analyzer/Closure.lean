import Arsh.Analyzer.Archives

/-!
# The table of archives stays import-closed

`Closed` is the invariant: every import of an archive is there. It makes the walks that do not
check what they find safe, and with an acyclic import graph they end. Reverting marks what it finds
to be reverted, so the set grows while the table shrinks: `Reaches` says the same of the table and
the set before and during the loop.
-/

namespace Arsh.Analyzer

open Vec Dag Relation

namespace ModuleArchives

variable {v u w : ModuleArchives} {k i j : Nat} {a c : ModuleArchive}

/-- The archive with the id `i` imports `j`. -/
def Edge (v : ModuleArchives) (i j : Nat) : Prop := ∃ a, v.find i = some a ∧ j ∈ a.imported

/-- The entries ascend, a real archive stands under its own id, and its imports are real archives
of the table. -/
structure Closed (v : ModuleArchives) : Prop where
  ascending : Ascending Prod.fst v.values
  own : ∀ k a, (k, some a) ∈ v.values → a = emptyArchive ∨ a.modId = k ∧ k ≠ 0
  imports : ∀ k a, (k, some a) ∈ v.values → ∀ i ∈ a.imported, ∃ c, v.find i = some c ∧
    c.modId = i ∧ i ≠ 0
  acyclic : Acyclic v.Edge

theorem find_eq_some (hs : Ascending Prod.fst v.values) :
    v.find k = some a ↔ (k, some a) ∈ v.values := by
  unfold find
  constructor
  · intro h
    split at h
    · next e he =>
      split at h
      · next hk =>
        rw [← hk, ← h]
        exact List.mem_of_getElem? he
      · cases h
    · cases h
  · intro h
    rw [((getElem?_lowerBound hs).2 ⟨h, rfl⟩).1]
    simp

/-! ## Reserving and adding -/

/-- The entry is put in the place of the one with its id, if there is one. -/
theorem reserveImpl_spec (hs : Ascending Prod.fst v.values) (k : Nat) :
    Ascending Prod.fst (v.reserveImpl k).2.values ∧
      (v.reserveImpl k).2.values[(v.reserveImpl k).1]? = some (k, some emptyArchive) ∧
      ∀ e, e ∈ (v.reserveImpl k).2.values ↔ e = (k, some emptyArchive) ∨ e ∈ v.values ∧ e.1 ≠ k := by
  unfold reserveImpl
  simp only
  split
  · next h =>
    obtain ⟨⟨k', y⟩, hy, hk⟩ := Option.map_eq_some_iff.1 h
    obtain rfl : k' = k := hk
    refine ⟨hs.set hy rfl, ?_, fun e => ?_⟩
    · exact List.getElem?_set_self (List.getElem?_eq_some_iff.1 hy).1
    · rw [hs.mem_set hy]
      refine or_congr Iff.rfl (and_congr_right fun he => not_congr ⟨?_, ?_⟩)
      · rintro rfl
        rfl
      · exact fun hk => hs.eq_of_key he (List.mem_of_getElem? hy) hk
  · next h =>
    have hne : ∀ y ∈ v.values, y.1 ≠ k := by
      rintro y hy rfl
      rw [((getElem?_lowerBound hs).2 ⟨hy, rfl⟩).1] at h
      exact h rfl
    refine ⟨Ascending.insertAt (x := (k, some emptyArchive)) hs hne, ?_, fun e => ?_⟩
    · unfold insertAt
      rw [List.getElem?_append_right (by simp [List.length_take])]
      simp [List.length_take, Nat.min_eq_left lowerBound_le]
    · rw [mem_insertAt]
      exact or_congr Iff.rfl ⟨fun he => ⟨he, hne e he⟩, fun he => he.1⟩

theorem add_spec (hs : Ascending Prod.fst v.values) (a : ModuleArchive) :
    Ascending Prod.fst (v.add a).values ∧
      ∀ e, e ∈ (v.add a).values ↔ e = (a.modId, some a) ∨ e ∈ v.values ∧ e.1 ≠ a.modId := by
  obtain ⟨has, hget, hmem⟩ := reserveImpl_spec hs a.modId
  unfold add
  refine ⟨has.set hget rfl, fun e => ?_⟩
  rw [has.mem_set hget, hmem]
  constructor
  · rintro (rfl | ⟨rfl | he, hne⟩)
    · exact .inl rfl
    · exact absurd rfl hne
    · exact .inr he
  · rintro (rfl | he)
    · exact .inl rfl
    · refine .inr ⟨.inr he, ?_⟩
      rintro rfl
      exact he.2 rfl

/-- Fewer archives have fewer edges. -/
theorem Acyclic.of_mem (h : Acyclic v.Edge) (hv : Ascending Prod.fst v.values)
    (hw : Ascending Prod.fst w.values)
    (hsub : ∀ k a, (k, some a) ∈ w.values → a.imported ≠ [] → (k, some a) ∈ v.values) :
    Acyclic w.Edge := by
  apply h.mono
  rintro i j ⟨a, ha, hj⟩
  rw [find_eq_some hw] at ha
  exact ⟨a, (find_eq_some hv).2 (hsub i a ha (List.ne_nil_of_mem hj)), hj⟩

theorem Closed.reserve (h : v.Closed) (hk : ∀ k' a, (k', some a) ∈ v.values → k ∉ a.imported) :
    (v.reserve k).Closed := by
  obtain ⟨has, -, hmem⟩ := reserveImpl_spec h.ascending k
  refine ⟨has, fun k' a ha => ?_, fun k' a ha i hi => ?_,
    Acyclic.of_mem h.acyclic h.ascending has fun k' a ha hne => ?_⟩
  · rcases (hmem _).1 ha with he | ⟨ha, -⟩
    · cases he
      exact .inl rfl
    · exact h.own k' a ha
  · rcases (hmem _).1 ha with he | ⟨ha, -⟩
    · cases he
      cases hi
    · obtain ⟨c, hc, hid⟩ := h.imports k' a ha i hi
      refine ⟨c, ?_, hid⟩
      rw [find_eq_some h.ascending] at hc
      exact (find_eq_some has).2 ((hmem _).2 (.inr ⟨hc, fun he => hk k' a ha (he ▸ hi)⟩))
  · rcases (hmem _).1 ha with he | ⟨ha, -⟩
    · cases he
      exact absurd rfl hne
    · exact ha

theorem Closed.add (h : v.Closed) (h0 : a.isEmpty = false)
    (hi : ∀ i ∈ a.imported, ∃ c, v.find i = some c ∧ c.isEmpty = false)
    (hac : Acyclic (v.add a).Edge) : (v.add a).Closed := by
  obtain ⟨has, hmem⟩ := add_spec h.ascending a
  have hid : a.modId ≠ 0 := by simpa [ModuleArchive.isEmpty] using h0
  -- what was there is still there, or is the new archive
  have hfind : ∀ i c, v.find i = some c → c.modId = i ∧ i ≠ 0 →
      ∃ c, (v.add a).find i = some c ∧ c.modId = i ∧ i ≠ 0 := by
    intro i c hc hci
    rw [find_eq_some h.ascending] at hc
    by_cases hia : i = a.modId
    · exact ⟨a, (find_eq_some has).2 ((hmem _).2 (.inl (by rw [hia]))), hia.symm, hci.2⟩
    · exact ⟨c, (find_eq_some has).2 ((hmem _).2 (.inr ⟨hc, hia⟩)), hci⟩
  refine ⟨has, fun k' a' ha => ?_, fun k' a' ha i hi' => ?_, hac⟩
  · rcases (hmem _).1 ha with he | ⟨ha, -⟩
    · cases he
      exact .inr ⟨rfl, hid⟩
    · exact h.own k' a' ha
  · rcases (hmem _).1 ha with he | ⟨ha, -⟩
    · cases he
      obtain ⟨c, hc, hne⟩ := hi i hi'
      refine hfind i c hc ((h.own i c ((find_eq_some h.ascending).1 hc)).resolve_left ?_)
      rintro rfl
      cases hne
    · obtain ⟨c, hc, hci⟩ := h.imports k' a' ha i hi'
      exact hfind i c hc hci

/-! ## Walks end -/

/-- A bound on how deep the walk from an archive can go. -/
noncomputable def depth (v : ModuleArchives) (k : Nat) : Nat :=
  height v.Edge (v.values.map Prod.fst) k

theorem depth_lt (v : ModuleArchives) (k : Nat) : v.depth k < v.values.length + 1 := by
  have := @height_le _ v.Edge (v.values.map Prod.fst) k
  rw [List.length_map] at this
  unfold depth
  omega

theorem Closed.depth_lt_depth (h : v.Closed) (ha : v.find k = some a) (hi : i ∈ a.imported)
    (hc : v.find i = some c) : v.depth i < v.depth k := by
  refine height_lt h.acyclic ?_ ⟨a, ha, hi⟩
  rw [find_eq_some h.ascending] at hc
  exact List.mem_map_of_mem hc

/-! ## Reverting -/

/-- The archive is in the set, or imports lead from it to one that is, or to none at all. -/
inductive Reaches (v : ModuleArchives) (S : List Nat) : ModuleArchive → Prop
  | self {a : ModuleArchive} (h : a.modId ∈ S) : Reaches v S a
  | missing {a : ModuleArchive} {i : Nat} (hi : i ∈ a.imported) (h : v.find i = none) :
      Reaches v S a
  | child {a c : ModuleArchive} {i : Nat} (hi : i ∈ a.imported) (hc : v.find i = some c)
      (h : Reaches v S c) : Reaches v S a

/-- What the walk may put into the set: ids of archives that are to be reverted. -/
def Marks (v : ModuleArchives) (S M : List Nat) : Prop :=
  S ⊆ M ∧ ∀ m ∈ M, m ∈ S ∨ ∃ k c, v.find k = some c ∧ c.modId = m ∧ c.imported ≠ [] ∧ v.Reaches S c

section
variable {S M is : List Nat} {fuel : Nat}

theorem Marks.refl : v.Marks S S := ⟨fun _ h => h, fun _ h => .inl h⟩

/-- The loop ends at the first import that is to be reverted. -/
theorem importLoop_spec {f : Nat → List Nat → Option (Bool × List Nat)} (P : Nat → Prop)
    (hf : ∀ i ∈ is, ∃ b M, f i S = some (b, M) ∧ (b = true ↔ P i) ∧ (b = false → M = S) ∧
      v.Marks S M) :
    ∃ b M, importLoop f is S = some (b, M) ∧ (b = true ↔ ∃ i ∈ is, P i) ∧ (b = false → M = S) ∧
      v.Marks S M := by
  induction is with
  | nil => exact ⟨false, S, rfl, by simp, fun _ => rfl, .refl⟩
  | cons i is ih =>
    obtain ⟨b, M, hfi, hb, hM, hm⟩ := hf i List.mem_cons_self
    unfold importLoop
    rw [hfi]
    cases b with
    | true => exact ⟨true, M, rfl, by simp [hb.1 rfl], nofun, hm⟩
    | false =>
      obtain rfl := hM rfl
      have hn : ¬ P i := fun h => Bool.false_ne_true (hb.2 h)
      obtain ⟨b', M', hl, hb', hrest⟩ := ih fun i hi => hf i (List.mem_cons_of_mem _ hi)
      refine ⟨b', M', hl, hb'.trans ?_, hrest⟩
      simp [hn]

/-- The walk from an import. -/
def isRevertedChild (v : ModuleArchives) (fuel i : Nat) (M : List Nat) : Option (Bool × List Nat) :=
  match v.find i with
  | none => some (true, M)
  | some child => v.isRevertedArchive fuel M child

theorem isRevertedArchive_succ : v.isRevertedArchive (fuel + 1) S a =
    if a.modId ∈ S then some (true, S)
    else (importLoop (v.isRevertedChild fuel) a.imported S).bind fun p =>
      if p.1 then some (true, p.2.insert a.modId) else some (false, p.2) := rfl

/-- The walk finds out whether the archive is to be reverted. -/
theorem isRevertedArchive_spec {depth : Nat → Nat}
    (hd : ∀ k a i c, v.find k = some a → i ∈ a.imported → v.find i = some c → depth i < depth k)
    (ha : v.find k = some a) (hk : depth k < fuel) :
    ∃ b M, v.isRevertedArchive fuel S a = some (b, M) ∧ (b = true ↔ v.Reaches S a) ∧
      (b = false → M = S) ∧ v.Marks S M := by
  induction fuel generalizing k a with
  | zero => omega
  | succ fuel ih =>
    rw [isRevertedArchive_succ]
    by_cases hS : a.modId ∈ S
    · rw [if_pos hS]
      exact ⟨true, S, rfl, by simp [Reaches.self hS], nofun, .refl⟩
    rw [if_neg hS]
    obtain ⟨b, M, hl, hb, hM, hm⟩ := @importLoop_spec v S a.imported (v.isRevertedChild fuel)
      (fun i => v.find i = none ∨ ∃ c, v.find i = some c ∧ v.Reaches S c) (by
        intro i hi
        unfold isRevertedChild
        cases hc : v.find i with
        | none => exact ⟨true, S, rfl, by simp, nofun, .refl⟩
        | some c =>
          have hlt := hd k a i c ha hi hc
          obtain ⟨b, M, he, hb, hrest⟩ := ih hc (by omega)
          exact ⟨b, M, he, hb.trans (by simp), hrest⟩)
    have hreach : v.Reaches S a ↔
        ∃ i ∈ a.imported, v.find i = none ∨ ∃ c, v.find i = some c ∧ v.Reaches S c := by
      constructor
      · rintro (h | ⟨hi, h⟩ | ⟨hi, hc, h⟩)
        · exact absurd h hS
        · exact ⟨_, hi, .inl h⟩
        · exact ⟨_, hi, .inr ⟨_, hc, h⟩⟩
      · rintro ⟨i, hi, h | ⟨c, hc, h⟩⟩
        · exact .missing hi h
        · exact .child hi hc h
    rw [hl]
    cases b with
    | false => exact ⟨false, M, rfl, hb.trans hreach.symm, hM, hm⟩
    | true =>
      have hr := hreach.2 (hb.1 rfl)
      obtain ⟨i, hi, -⟩ := hb.1 rfl
      refine ⟨true, M.insert a.modId, rfl, by simp [hr], nofun, ?_, ?_⟩
      · exact fun x hx => List.mem_insert_iff.2 (.inr (hm.1 hx))
      · intro m hmem
        rcases List.mem_insert_iff.1 hmem with rfl | hmem
        · exact .inr ⟨k, a, ha, rfl, List.ne_nil_of_mem hi, hr⟩
        · exact hm.2 m hmem

/-- The table and the set in the middle of reverting: archives to be reverted are gone from the one
or have come into the other. -/
structure Reverting (v : ModuleArchives) (S : List Nat) (u : ModuleArchives) (M : List Nat) : Prop where
  keys : u.values.map Prod.fst = v.values.map Prod.fst
  sub : ∀ k a, (k, some a) ∈ u.values → (k, some a) ∈ v.values
  gone : ∀ k a, (k, some a) ∈ v.values → (k, some a) ∈ u.values ∨ v.Reaches S a
  set : S ⊆ M
  marked : ∀ m ∈ M, m ∈ S ∨ ∃ c, (m, some c) ∈ v.values ∧ m ≠ 0 ∧ v.Reaches S c

theorem Reverting.ascending (hv : v.Closed) (h : Reverting v S u M) :
    Ascending Prod.fst u.values := hv.ascending.of_map_eq h.keys

/-- So the same archives are to be reverted. -/
theorem Reverting.reaches_iff (hv : v.Closed) (h : Reverting v S u M)
    (ha : (k, some a) ∈ v.values) : u.Reaches M a ↔ v.Reaches S a := by
  have has := h.ascending hv
  constructor
  · intro hr
    induction hr generalizing k with
    | @self a hm =>
      rcases h.marked _ hm with hm | ⟨c, hc, h0, hr⟩
      · exact .self hm
      · rcases hv.own k a ha with rfl | ⟨rfl, -⟩
        · exact absurd rfl h0
        · cases hv.ascending.eq_of_key hc ha rfl
          exact hr
    | @missing a i hi hn =>
      obtain ⟨c, hc, -⟩ := hv.imports k a ha i hi
      rcases h.gone i c ((find_eq_some hv.ascending).1 hc) with hu | hr
      · rw [(find_eq_some has).2 hu] at hn
        cases hn
      · exact .child hi hc hr
    | @child a c i hi hc _ ih =>
      have hc' := h.sub i c ((find_eq_some has).1 hc)
      exact .child hi ((find_eq_some hv.ascending).2 hc') (ih hc')
  · intro hr
    induction hr generalizing k with
    | self hm => exact .self (h.set hm)
    | @missing a i hi hn =>
      obtain ⟨c, hc, -⟩ := hv.imports k a ha i hi
      rw [hc] at hn
      cases hn
    | @child a c i hi hc _ ih =>
      have hc' := (find_eq_some hv.ascending).1 hc
      cases hu : u.find i with
      | none => exact .missing hi hu
      | some d =>
        have hd := h.sub i d ((find_eq_some has).1 hu)
        cases hv.ascending.eq_of_key hc' hd rfl
        exact .child hi hu (ih hc')

theorem Reverting.marks (hv : v.Closed) (h : Reverting v S u M) {M' : List Nat}
    (hm : u.Marks M M') : Reverting v S u M' where
  keys := h.keys
  sub := h.sub
  gone := h.gone
  set := fun _ hx => hm.1 (h.set hx)
  marked m hmem := by
    rcases hm.2 m hmem with hmem | ⟨k, c, hc, rfl, hne, hr⟩
    · exact h.marked m hmem
    · have hc' := h.sub k c ((find_eq_some (h.ascending hv)).1 hc)
      rcases hv.own k c hc' with rfl | ⟨rfl, h0⟩
      · exact absurd rfl hne
      · exact .inr ⟨c, hc', h0, (h.reaches_iff hv hc').1 hr⟩

theorem Reverting.null (hv : v.Closed) (h : Reverting v S u M)
    (hi : u.values[i]? = some (k, some a)) (hr : v.Reaches S a) :
    Reverting v S { values := u.values.set i (k, none) } M where
  keys := by
    obtain ⟨hlt, he⟩ := List.getElem?_eq_some_iff.1 hi
    rw [← h.keys, List.map_set]
    refine List.ext_getElem? fun j => ?_
    rw [List.getElem?_set]
    split
    · next hij =>
      subst hij
      simp [hlt, he]
    · rfl
  sub k' a' ha := by
    rcases ((h.ascending hv).mem_set hi).1 ha with he | ⟨ha, -⟩
    · cases he
    · exact h.sub k' a' ha
  gone k' a' ha := by
    rcases h.gone k' a' ha with ha' | hr'
    · by_cases he : (k', some a') = (k, some a)
      · cases he
        exact .inr hr
      · exact .inl (((h.ascending hv).mem_set hi).2 (.inr ⟨ha', he⟩))
    · exact .inr hr'
  set := h.set
  marked := h.marked

/-- One round of the loop. -/
theorem Reverting.step (hv : v.Closed) (h : Reverting v S u M) (n : Nat)
    (hdone : ∀ i < n, ∀ k a, u.values[i]? = some (k, some a) → ¬ v.Reaches S a) :
    ∃ u' M', revertStep (v.values.length + 1) (u, M) n = some (u', M') ∧ Reverting v S u' M' ∧
      ∀ i < n + 1, ∀ k a, u'.values[i]? = some (k, some a) → ¬ v.Reaches S a := by
  have hskip : (∀ k a, u.values[n]? ≠ some (k, some a)) →
      ∀ i < n + 1, ∀ k a, u.values[i]? = some (k, some a) → ¬ v.Reaches S a := by
    intro hn i hi k a hia
    rcases Nat.lt_succ_iff_lt_or_eq.1 hi with hi | rfl
    · exact hdone i hi k a hia
    · exact absurd hia (hn k a)
  unfold revertStep
  simp only
  split
  · next k a hka =>
    have has := h.ascending hv
    have hmem := List.mem_of_getElem? hka
    have hav := h.sub k a hmem
    obtain ⟨b, M', he, hb, -, hm⟩ := @isRevertedArchive_spec u k a M (v.values.length + 1) v.depth
      (fun k a i c hk hi hc => hv.depth_lt_depth
        ((find_eq_some hv.ascending).2 (h.sub k a ((find_eq_some has).1 hk))) hi
        ((find_eq_some hv.ascending).2 (h.sub i c ((find_eq_some has).1 hc))))
      ((find_eq_some has).2 hmem) (v.depth_lt k)
    rw [h.reaches_iff hv hav] at hb
    rw [he]
    have h' := h.marks hv hm
    cases b with
    | true =>
      refine ⟨_, _, rfl, h'.null hv hka (hb.1 rfl), ?_⟩
      intro i hi k' a' hia
      simp only [↓reduceIte, List.getElem?_set] at hia
      split at hia
      · split at hia <;> cases hia
      · exact hdone i (by omega) k' a' hia
    | false =>
      refine ⟨_, _, rfl, h', ?_⟩
      intro i hi k' a' hia
      simp only [Bool.false_eq_true, ↓reduceIte] at hia
      rcases Nat.lt_succ_iff_lt_or_eq.1 hi with hi | rfl
      · exact hdone i hi k' a' hia
      · rw [hka] at hia
        cases hia
        exact fun hr => Bool.false_ne_true (hb.2 hr)
  · next hn => exact ⟨u, M, rfl, h, hskip fun k a he => hn k a he⟩

theorem revert_loop (hv : v.Closed) (n : Nat) :
    ∃ u M, (List.range n).foldlM (revertStep (v.values.length + 1)) (v, S) = some (u, M) ∧
      Reverting v S u M ∧ ∀ i < n, ∀ k a, u.values[i]? = some (k, some a) → ¬ v.Reaches S a := by
  induction n with
  | zero =>
    exact ⟨v, S, rfl, ⟨rfl, fun _ _ h => h, fun _ _ h => .inl h, fun _ h => h, fun _ h => .inl h⟩,
      fun i hi => absurd hi (Nat.not_lt_zero i)⟩
  | succ n ih =>
    obtain ⟨u, M, he, hr, hdone⟩ := ih
    obtain ⟨u', M', he', hr', hdone'⟩ := hr.step hv n hdone
    refine ⟨u', M', ?_, hr', hdone'⟩
    rw [List.range_succ, List.foldlM_append, he]
    simp [he']

/-- Nothing is reverted for no reason. -/
theorem not_reaches_nil (hv : v.Closed) (ha : (k, some a) ∈ v.values) : ¬ v.Reaches [] a := by
  intro hr
  induction hr generalizing k with
  | self h => cases h
  | @missing a i hi hn =>
    obtain ⟨c, hc, -⟩ := hv.imports k a ha i hi
    rw [hc] at hn
    cases hn
  | child hi hc _ ih => exact ih ((find_eq_some hv.ascending).1 hc)

/-- `revert` nulls the archives that are in the set or lead there, and no others. -/
theorem revert_spec (hv : v.Closed) (S : List Nat) : ∃ w, v.revert S = some w ∧
    w.values.map Prod.fst = v.values.map Prod.fst ∧
    ∀ k a, (k, some a) ∈ w.values ↔ (k, some a) ∈ v.values ∧ ¬ v.Reaches S a := by
  unfold revert
  split
  · next h =>
    subst h
    exact ⟨v, rfl, rfl, fun k a => ⟨fun ha => ⟨ha, not_reaches_nil hv ha⟩, fun ha => ha.1⟩⟩
  · obtain ⟨w, M, he, hr, hdone⟩ := revert_loop hv (S := S) v.values.length
    rw [he]
    refine ⟨w, rfl, hr.keys, fun k a => ⟨fun ha => ⟨hr.sub k a ha, ?_⟩, fun ha => ?_⟩⟩
    · obtain ⟨i, hi, hia⟩ := List.getElem_of_mem ha
      have hlen : w.values.length = v.values.length := by
        simpa using congrArg List.length hr.keys
      exact hdone i (by omega) k a (by rw [List.getElem?_eq_getElem hi, hia])
    · exact (hr.gone k a ha.1).resolve_right ha.2

theorem Closed.revert (hv : v.Closed) (hw : v.revert S = some w) : w.Closed := by
  obtain ⟨w', hw', hkeys, hmem⟩ := revert_spec hv S
  rw [hw] at hw'
  cases hw'
  have has := hv.ascending.of_map_eq hkeys
  refine ⟨has, fun k a ha => hv.own k a ((hmem k a).1 ha).1, fun k a ha i hi => ?_,
    Acyclic.of_mem hv.acyclic hv.ascending has fun k a ha _ => ((hmem k a).1 ha).1⟩
  obtain ⟨ha, hn⟩ := (hmem k a).1 ha
  obtain ⟨c, hc, hid⟩ := hv.imports k a ha i hi
  refine ⟨c, (find_eq_some has).2 ((hmem i c).2 ⟨(find_eq_some hv.ascending).1 hc, ?_⟩), hid⟩
  exact fun hr => hn (.child hi hc hr)

/-! ## Removing -/

theorem anyM_spec {α : Type} {f : α → Option Bool} {xs : List α} (P : α → Prop)
    (hf : ∀ x ∈ xs, ∃ b, f x = some b ∧ (b = true ↔ P x)) :
    ∃ b, xs.anyM f = some b ∧ (b = true ↔ ∃ x ∈ xs, P x) := by
  induction xs with
  | nil => exact ⟨false, rfl, by simp⟩
  | cons x xs ih =>
    obtain ⟨b, hfx, hb⟩ := hf x List.mem_cons_self
    obtain ⟨b', hl, hb'⟩ := ih fun y hy => hf y (List.mem_cons_of_mem _ hy)
    unfold List.anyM
    rw [hfx]
    cases b with
    | true => exact ⟨true, rfl, by simp [hb.1 rfl]⟩
    | false =>
      have hn : ¬ P x := fun h => Bool.false_ne_true (hb.2 h)
      exact ⟨b', hl, hb'.trans (by simp [hn])⟩

/-- The walk finds out whether a path of imports leads to the id. -/
theorem isImported_spec (hv : v.Closed) (id : Nat) (ha : v.find k = some a)
    (hk : v.depth k < fuel) :
    ∃ b, v.isImported id fuel a = some b ∧ (b = true ↔ TransGen v.Edge k id) := by
  induction fuel generalizing k a with
  | zero => omega
  | succ fuel ih =>
    unfold isImported
    have hpath : TransGen v.Edge k id ↔ ∃ i ∈ a.imported, i = id ∨ TransGen v.Edge i id := by
      constructor
      · intro h
        obtain ⟨i, ⟨a', ha', hi⟩, hrest⟩ := TransGen.head'_iff.1 h
        rw [ha] at ha'
        cases ha'
        refine ⟨i, hi, ?_⟩
        rcases reflTransGen_iff_eq_or_transGen.1 hrest with h | h
        · exact .inl h.symm
        · exact .inr h
      · rintro ⟨i, hi, rfl | h⟩
        · exact .single ⟨a, ha, hi⟩
        · exact .head ⟨a, ha, hi⟩ h
    rw [hpath]
    refine anyM_spec (fun i => i = id ∨ TransGen v.Edge i id) fun i hi => ?_
    split
    · next h => exact ⟨true, rfl, by simp [h]⟩
    · next h =>
      obtain ⟨c, hc, -⟩ := hv.imports k a ((find_eq_some hv.ascending).1 ha) i hi
      have hlt := hv.depth_lt_depth ha hi hc
      obtain ⟨b, he, hb⟩ := ih hc (by omega)
      refine ⟨b, ?_, hb.trans (by simp [h])⟩
      rw [hc]
      exact he

/-- Whether the archive of an entry imports the id. -/
def entryImports (v : ModuleArchives) (id : Nat) (e : Nat × Option ModuleArchive) : Option Bool :=
  match e.2 with
  | some archive => v.isImported id (v.values.length + 1) archive
  | none => some false

theorem removeIfUnused_eq (id : Nat) : v.removeIfUnused id =
    (v.values.anyM (v.entryImports id)).bind fun used =>
      if used then some (false, v)
      else if (v.values.findIdx fun e => e.2.map (·.modId) = some id) < v.values.length then
        some (true, { values :=
          v.values.eraseIdx (v.values.findIdx fun e => e.2.map (·.modId) = some id) })
      else some (false, v) := rfl

/-- An archive that nobody imports is removed; reserved and reverted entries stay. -/
theorem removeIfUnused_spec (hv : v.Closed) (id : Nat) : ∃ b w, v.removeIfUnused id = some (b, w) ∧
    (b = false → w = v) ∧ (b = true → (∀ k, ¬ TransGen v.Edge k id) ∧
      ∃ k a, a.modId = id ∧ (k, some a) ∈ v.values ∧ Ascending Prod.fst w.values ∧
        ∀ e, e ∈ w.values ↔ e ∈ v.values ∧ e ≠ (k, some a)) := by
  rw [removeIfUnused_eq]
  obtain ⟨b, he, hb⟩ := @anyM_spec _ (v.entryImports id) v.values
    (fun e => ∃ a, e.2 = some a ∧ TransGen v.Edge e.1 id) (by
      rintro ⟨k, oa⟩ he
      cases oa with
      | none => exact ⟨false, rfl, by simp⟩
      | some a =>
        obtain ⟨b, hi, hb⟩ := isImported_spec hv id ((find_eq_some hv.ascending).2 he) (v.depth_lt k)
        exact ⟨b, hi, hb.trans (by simp)⟩)
  rw [he]
  cases b with
  | true => exact ⟨false, v, rfl, fun _ => rfl, nofun⟩
  | false =>
    have hunused : ∀ k, ¬ TransGen v.Edge k id := by
      intro k hk
      obtain ⟨i, ⟨a, ha, -⟩, -⟩ := TransGen.head'_iff.1 hk
      exact Bool.false_ne_true (hb.2 ⟨_, (find_eq_some hv.ascending).1 ha, a, rfl, hk⟩)
    simp only [Option.bind_some, Bool.false_eq_true, if_false]
    split
    · next hlt =>
      refine ⟨true, _, rfl, nofun, fun _ => ⟨hunused, ?_⟩⟩
      have hget := List.getElem?_eq_getElem hlt
      have hfound := List.findIdx_getElem (w := hlt)
      generalize v.values[v.values.findIdx _] = e at hget hfound
      obtain ⟨k, oa⟩ := e
      cases oa with
      | none => cases hfound
      | some a =>
        refine ⟨k, a, by simpa using hfound, List.mem_of_getElem? hget,
          hv.ascending.sublist (List.eraseIdx_sublist ..), fun e => hv.ascending.mem_eraseIdx hget⟩
    · exact ⟨false, v, rfl, fun _ => rfl, nofun⟩

theorem Closed.removeIfUnused (hv : v.Closed) {id : Nat} {b : Bool}
    (hw : v.removeIfUnused id = some (b, w)) : w.Closed := by
  obtain ⟨b', w', hw', hf, ht⟩ := removeIfUnused_spec hv id
  rw [hw] at hw'
  cases hw'
  cases b with
  | false =>
    rw [hf rfl]
    exact hv
  | true =>
    obtain ⟨hunused, k, a, rfl, ha, has, hmem⟩ := ht rfl
    refine ⟨has, fun k' a' ha' => hv.own k' a' ((hmem _).1 ha').1, fun k' a' ha' i hi => ?_,
      Acyclic.of_mem hv.acyclic hv.ascending has fun k' a' ha' _ => ((hmem _).1 ha').1⟩
    have ha'' := ((hmem _).1 ha').1
    obtain ⟨c, hc, hid⟩ := hv.imports k' a' ha'' i hi
    refine ⟨c, (find_eq_some has).2 ((hmem _).2 ⟨(find_eq_some hv.ascending).1 hc, ?_⟩), hid⟩
    -- the import would be the removed archive
    rintro heq
    cases heq
    refine hunused k' (.single ⟨a', (find_eq_some hv.ascending).2 ha'', ?_⟩)
    rw [hid.1]
    exact hi

end

end ModuleArchives

end Arsh.Analyzer
