import Arsh.Map.Buckets

/-!
# The invariant of ordered maps

The entries have different keys, the last one is not deleted, and the table holds exactly the ones
that are not deleted. There are always empty buckets, so every loop comes to an end. A search finds
the entry of a key if there is one.
-/

namespace Arsh.Map

open RobinHood Vec

variable {κ ν : Type}

/-! ## Entries -/

namespace OrderedMapEntries

variable {es : OrderedMapEntries κ ν} {e : Entry κ ν} {i : Nat}

/-- The entries that are not deleted. -/
def live (es : OrderedMapEntries κ ν) : List (Entry κ ν) := es.values.filterMap id

/-- The hash of an entry. -/
def home (es : OrderedMapEntries κ ν) (i : Nat) : Nat := (es.get i).elim 0 fun e => e.hash.toNat

theorem get_eq_some : es.get i = some e ↔ es.values[i]? = some (some e) := by
  unfold get
  cases es.values[i]? with
  | none => simp
  | some o => simp

theorem home_of_get (h : es.get i = some e) : es.home i = e.hash.toNat := by
  unfold home
  rw [h]
  rfl

theorem lt_of_get (h : es.get i = some e) : i < es.values.length :=
  (List.getElem?_eq_some_iff.1 (get_eq_some.1 h)).1

/-- What is around an entry. -/
theorem split_of_get (h : es.get i = some e) :
    ∃ pre post, es.values = pre ++ some e :: post ∧ pre.length = i := by
  obtain ⟨hlt, he⟩ := List.getElem?_eq_some_iff.1 (get_eq_some.1 h)
  refine ⟨es.values.take i, es.values.drop (i + 1), ?_, by simp; omega⟩
  rw [← he, List.cons_getElem_drop_succ, List.take_append_drop]

theorem mem_live : e ∈ es.live ↔ ∃ i, es.get i = some e := by
  unfold live
  rw [List.mem_filterMap]
  constructor
  · rintro ⟨o, ho, rfl⟩
    obtain ⟨i, hi⟩ := List.mem_iff_getElem?.1 ho
    exact ⟨i, get_eq_some.2 hi⟩
  · rintro ⟨i, hi⟩
    exact ⟨some e, List.mem_of_getElem? (get_eq_some.1 hi), rfl⟩

/-- The indices of entries, which are as many as the entries. -/
def indices (es : OrderedMapEntries κ ν) : Finset Nat :=
  (Finset.range es.values.length).filter fun i => (es.get i).isSome

theorem mem_indices : i ∈ es.indices ↔ (es.get i).isSome := by
  unfold indices
  rw [Finset.mem_filter, Finset.mem_range]
  refine ⟨And.right, fun h => ⟨?_, h⟩⟩
  obtain ⟨e, he⟩ := Option.isSome_iff_exists.1 h
  exact lt_of_get he

theorem card_indices_le (es : OrderedMapEntries κ ν) : es.indices.card ≤ es.live.length := by
  suffices ∀ (values : List (Option (Entry κ ν))) (c : Nat),
      (OrderedMapEntries.mk values c).indices.card ≤ (values.filterMap id).length from
    this es.values es.capacity
  intro values c
  induction values using List.reverseRecOn with
  | nil => simp [indices]
  | append_singleton values x ih =>
    have hold : ∀ i, i < values.length → (OrderedMapEntries.mk (values ++ [x]) c).get i =
        (OrderedMapEntries.mk values c).get i := by
      intro i hi
      unfold get
      dsimp only
      rw [List.getElem?_append_left hi]
    have hsub : (OrderedMapEntries.mk (values ++ [x]) c).indices ⊆
        if x.isSome then Insert.insert values.length (OrderedMapEntries.mk values c).indices
        else (OrderedMapEntries.mk values c).indices := by
      intro i hi
      rw [mem_indices] at hi
      have hlt : i < values.length + 1 := by
        obtain ⟨e, he⟩ := Option.isSome_iff_exists.1 hi
        simpa using lt_of_get he
      by_cases hlast : i = values.length
      · have hx : x.isSome := by
          rw [hlast] at hi
          simpa [get] using hi
        rw [if_pos hx, hlast]
        exact Finset.mem_insert_self _ _
      · rw [hold i (by omega)] at hi
        have hmem := mem_indices.2 hi
        split
        · exact Finset.mem_insert_of_mem hmem
        · exact hmem
    apply (Finset.card_le_card hsub).trans
    rw [List.filterMap_append, List.length_append]
    cases x with
    | none => simpa using ih
    | some e =>
      have := Finset.card_insert_le values.length (OrderedMapEntries.mk values c).indices
      rw [Option.isSome_some, if_pos rfl]
      change _ ≤ (values.filterMap id).length + 1
      omega

theorem live_compact (es : OrderedMapEntries κ ν) : es.compact.live = es.live ∧ es.compact.values = es.live.map some := by
  have hvalues : es.compact.values = es.live.map some := by
    obtain ⟨ys, hpack, -⟩ := pack_spec Option.isSome es.values
    unfold compact live
    rw [hpack]
    dsimp only
    rw [List.take_left]
    induction es.values with
    | nil => rfl
    | cons o os ih => cases o <;> simp [ih]
  refine ⟨?_, hvalues⟩
  unfold live
  rw [hvalues, List.filterMap_map]
  exact List.filterMap_some

theorem live_add (entry : Entry κ ν) : (es.add entry).2.live = es.live ++ [entry] := by
  unfold add live
  dsimp only
  rw [List.filterMap_append]
  rfl

theorem get_add (entry : Entry κ ν) : (es.add entry).2.get i =
    if i = es.values.length then some entry else es.get i := by
  unfold add get
  dsimp only
  split
  · next h => simp [h]
  · next h =>
    by_cases hlt : i < es.values.length
    · rw [List.getElem?_append_left hlt]
    · rw [List.getElem?_eq_none (by simp; omega), List.getElem?_eq_none (by omega)]

/-- The deleted entries at the end are none. -/
theorem get_rdropWhile (values : List (Option (Entry κ ν))) (c : Nat) :
    (OrderedMapEntries.mk (values.rdropWhile Option.isNone) c).get i =
      (OrderedMapEntries.mk values c).get i ∧
    (OrderedMapEntries.mk (values.rdropWhile Option.isNone) c).live =
      (OrderedMapEntries.mk values c).live := by
  induction values using List.reverseRecOn with
  | nil => exact ⟨rfl, rfl⟩
  | append_singleton values x ih =>
    cases x with
    | some e =>
      rw [List.rdropWhile_concat_neg _ _ _ (by simp)]
      exact ⟨rfl, rfl⟩
    | none =>
      rw [List.rdropWhile_concat_pos _ _ _ rfl]
      refine ⟨ih.1.trans ?_, ih.2.trans ?_⟩
      · unfold get
        dsimp only
        by_cases hlt : i < values.length
        · rw [List.getElem?_append_left hlt]
        · rw [List.getElem?_eq_none (by omega)]
          by_cases hi : i = values.length
          · simp [hi]
          · rw [List.getElem?_eq_none (by simp; omega)]
      · unfold live
        simp

theorem get_del {j : Nat} : (es.del i).get j = if j = i then none else es.get j := by
  unfold del
  rw [(get_rdropWhile _ _).1]
  unfold get
  dsimp only
  by_cases h : j = i
  · rw [if_pos h, h]
    by_cases hlt : i < es.values.length
    · simp [hlt]
    · simp [hlt]
  · rw [if_neg h, List.getElem?_set_ne (Ne.symm h)]

theorem live_del {pre post : List (Option (Entry κ ν))} (h : es.values = pre ++ some e :: post) :
    (es.del pre.length).live = pre.filterMap id ++ post.filterMap id := by
  unfold del
  rw [(get_rdropWhile (i := 0) _ _).2, h]
  unfold live
  simp

end OrderedMapEntries

/-! ## Maps -/

variable {es : OrderedMapEntries κ ν} {B : Nat → Option Bucket} {len : BucketLen}

/-- The load factor is not above the maximum. -/
def Loaded (size capacity : Nat) : Prop := size * 2 ^ 53 ≤ 8106479329266893 * capacity

theorem Loaded.lt {s c : Nat} (h : Loaded s c) (hc : 0 < c) : s < c := by
  unfold Loaded at h
  omega

theorem Loaded.of_succ {s c : Nat} (h : Loaded (s + 1) c) : Loaded s c :=
  Nat.le_trans (Nat.mul_le_mul_right _ (Nat.le_succ s)) h

/-- A table that is twice as large has room for another entry. -/
theorem Loaded.double {s c : Nat} (h : Loaded s c) (hc : 4 ≤ c) : Loaded (s + 1) (2 * c) := by
  have hone : 2 ^ 53 ≤ 8106479329266893 * c :=
    Nat.le_trans (by decide) (Nat.mul_le_mul_left 8106479329266893 hc)
  unfold Loaded
  rw [Nat.succ_mul, Nat.two_mul, Nat.mul_add]
  exact Nat.add_le_add h hone

theorem loaded_of_not_needGrow {len : BucketLen} (h : ¬ len.needGrow = true) :
    Loaded (len.size + 1) len.capacity := by
  unfold BucketLen.needGrow at h
  rw [decide_eq_true_iff] at h
  exact Nat.le_of_not_lt h

/-- Entries with different keys and their hashes. The last one is not deleted. -/
structure Content [BEq κ] (hash : κ → UInt64) (es : OrderedMapEntries κ ν) : Prop where
  hashes : ∀ e ∈ es.live, e.hash = hash e.key
  keys : es.live.Pairwise fun e f => (e.key == f.key) = false
  last : es.values.getLast? ≠ some none
  room : es.values.length ≤ es.capacity
  capacity : (es.capacity = 0 ∨ 4 ≤ es.capacity) ∧ es.capacity ≤ 2 ^ 28

/-- The buckets for the entries. -/
structure Indexed (len : BucketLen) (es : OrderedMapEntries κ ν) (B : Nat → Option Bucket) :
    Prop where
  table : Table len.capacity es.home B
  holds : ∀ i, Holds len.capacity B i ↔ (es.get i).isSome

theorem four_le_capacity (h : 2 ≤ len.capExp) : 4 ≤ len.capacity :=
  Nat.pow_le_pow_right (by decide : 0 < 2) h

/-- Some bucket is empty. -/
theorem Indexed.exists_free (h : Indexed len es B) (hlt : es.live.length < len.capacity) :
    ∃ p, p < len.capacity ∧ B p = none :=
  h.table.exists_free (fun i hi => OrderedMapEntries.mem_indices.2 ((h.holds i).1 hi))
    (Nat.lt_of_le_of_lt es.card_indices_le hlt)

/-- The distances in the buckets are below the capacity. -/
theorem Indexed.dist_lt (h : Indexed len es B) (hlt : es.live.length < len.capacity) {p : Nat}
    {b : Bucket} (hp : p < len.capacity) (hb : B p = some b) :
    b.distanceToInitBucketIndex < len.capacity := by
  obtain ⟨q, hq, hfree⟩ := h.exists_free hlt
  refine h.table.order.dist_lt (a := es.home b.entryIndex) ?_ hq ?_
  · rw [h.table.dist p hp b hb]
    exact dists_of_bucket hb
  · unfold dists
    rw [hfree]
    rfl

structure Inv [BEq κ] (hash : κ → UInt64) (m : OrderedMap κ ν) : Prop where
  capExp : 2 ≤ m.bucketLen.capExp ∧ m.bucketLen.capExp ≤ 28
  load : Loaded m.size m.bucketLen.capacity
  limit : m.size ≤ maxSize
  size : m.size = m.entries.live.length
  content : Content hash m.entries
  indexed : Indexed m.bucketLen m.entries m.buckets

section
variable [BEq κ] {hash : κ → UInt64} {m : OrderedMap κ ν}

theorem Inv.four_le (h : Inv hash m) : 4 ≤ m.bucketLen.capacity := four_le_capacity h.capExp.1

theorem Inv.size_lt (h : Inv hash m) : m.entries.live.length < m.bucketLen.capacity := by
  have hfour := h.four_le
  rw [← h.size]
  exact h.load.lt (by omega)

/-! ## Search -/

theorem probeLoop_spec (hash : κ → UInt64) (key : κ) {n fuel p d a : Nat} (hlen : m.bucketLen.capacity = n)
    (hn : 2 ≤ n) (horder : Order n (dists m.buckets)) (hpos : (a + d) % n = p)
    (hfits : Fits n (dists m.buckets) p d)
    (hfree : ∃ k, k < fuel ∧ m.buckets ((p + k) % n) = none) :
    ∃ found p' d', m.probeLoop hash key fuel p d = some (found, p', d') ∧
      (a + d') % n = p' ∧ Fits n (dists m.buckets) p' d' ∧
      (found = true → ∃ b, m.buckets p' = some b ∧ m.hasKey hash key b.entryIndex = true) ∧
      (found = false → ∀ b, d ≤ b.distanceToInitBucketIndex →
        m.buckets ((a + b.distanceToInitBucketIndex) % n) = some b →
        m.hasKey hash key b.entryIndex = false) := by
  have hp : p < n := by
    rw [← hpos]
    exact Nat.mod_lt _ (by omega)
  induction fuel generalizing p d with
  | zero =>
    obtain ⟨k, hk, -⟩ := hfree
    omega
  | succ fuel ih =>
    unfold OrderedMap.probeLoop
    cases hb : m.buckets p with
    | none =>
      refine ⟨false, p, d, rfl, hpos, hfits, nofun, fun _ b hle hb' => ?_⟩
      refine absurd hb' (no_bucket_of_low horder (by omega) hpos ?_ hle)
      unfold dists
      rw [hb]
      nofun
    | some cur =>
      have hcur := dists_of_bucket hb
      dsimp only
      split
      · next hgt =>
        refine ⟨false, p, d, rfl, hpos, hfits, nofun, fun _ b hle hb' => ?_⟩
        refine absurd hb' (no_bucket_of_low horder (by omega) hpos ?_ hle)
        intro e he
        rw [hcur] at he
        cases he
        exact hgt
      · next hle =>
        split
        · next hkey => exact ⟨true, p, d, rfl, hpos, hfits, fun _ => ⟨cur, hb, hkey⟩, nofun⟩
        · next hkey =>
          have hnext : m.bucketLen.nextBucketIndex p = (p + 1) % n := by
            unfold BucketLen.nextBucketIndex
            rw [hlen]
          have hpos' : (a + (d + 1)) % n = (p + 1) % n := by
            rw [← Nat.add_assoc, ← succ_mod, hpos]
          have hfits' : Fits n (dists m.buckets) ((p + 1) % n) (d + 1) := by
            intro q hq heq c hc
            obtain ⟨e, he, hce⟩ := fits_next hp hcur q hq heq _ rfl
            exact ⟨e, he, by omega⟩
          obtain ⟨k, hk, hnone⟩ := hfree
          obtain ⟨k, rfl⟩ : ∃ k', k = k' + 1 := by
            refine ⟨k - 1, ?_⟩
            by_contra hk0
            obtain rfl : k = 0 := by omega
            rw [Nat.add_zero, Nat.mod_eq_of_lt hp, hb] at hnone
            cases hnone
          have hfree' : m.buckets (((p + 1) % n + k) % n) = none := by
            rw [Nat.mod_add_mod, Nat.add_assoc, Nat.add_comm 1 k]
            exact hnone
          rw [hnext]
          have hp' : (p + 1) % n < n := Nat.mod_lt _ (by omega)
          obtain ⟨found, p', d', hloop, hpos'', hfits'', hfound, hnot⟩ :=
            ih hpos' hfits' ⟨k, by omega, hfree'⟩ hp'
          refine ⟨found, p', d', hloop, hpos'', hfits'', hfound, fun hf b hdb hb' => ?_⟩
          by_cases hd : d = b.distanceToInitBucketIndex
          · -- the bucket that was just looked at
            rw [← hd, hpos, hb] at hb'
            cases hb'
            simpa using hkey
          · exact hnot hf b (by omega) hb'

end

end Arsh.Map
