import Arsh.Lib.RobinHood
import Arsh.Map.OrderedMap

/-!
# The table of an ordered map

What holds of the buckets (`Table`): every bucket is as far from where its entry belongs as it
says, the distances are in the order of robin hood hashing, and no entry is in two buckets. The
loops of `insertEntryIndex` and `remove` come to an end if a bucket is empty, keep that, and change
the entries of the table as they should.
-/

namespace Arsh.Map

open RobinHood

variable {n fuel p d i j : Nat} {len : BucketLen} {B : Nat → Option Bucket} {home : Nat → Nat}

/-- The distances. -/
def dists (B : Nat → Option Bucket) (p : Nat) : Option Nat :=
  (B p).map Bucket.distanceToInitBucketIndex

/-- An entry is in the table. -/
def Holds (n : Nat) (B : Nat → Option Bucket) (i : Nat) : Prop :=
  ∃ p, p < n ∧ ∃ b, B p = some b ∧ b.entryIndex = i

/-- A table of `n` buckets for entries that have hashes. -/
structure Table (n : Nat) (home : Nat → Nat) (B : Nat → Option Bucket) : Prop where
  dist : ∀ p, p < n → ∀ b, B p = some b →
    (home b.entryIndex + b.distanceToInitBucketIndex) % n = p
  order : Order n (dists B)
  inj : ∀ p, p < n → ∀ q, q < n → ∀ b c, B p = some b → B q = some c →
    b.entryIndex = c.entryIndex → p = q

theorem dists_update (b : Option Bucket) : dists (Function.update B p b) =
    Function.update (dists B) p (b.map Bucket.distanceToInitBucketIndex) := by
  funext q
  unfold dists
  by_cases h : q = p
  · rw [h, Function.update_self, Function.update_self]
  · rw [Function.update_of_ne h, Function.update_of_ne h]

theorem table_empty (n : Nat) (home : Nat → Nat) : Table n home fun _ => none :=
  ⟨nofun, order_empty n, nofun⟩

theorem not_holds_empty : ¬ Holds n (fun _ => none) i := by
  rintro ⟨p, -, b, hb, -⟩
  cases hb

/-- Only the hashes of the entries that are in the table matter. -/
theorem Table.congr (h : Table n home B) {home' : Nat → Nat}
    (heq : ∀ i, Holds n B i → home' i = home i) : Table n home' B where
  dist p hp b hb := by
    rw [heq _ ⟨p, hp, b, hb, rfl⟩]
    exact h.dist p hp b hb
  order := h.order
  inj := h.inj

/-- A bucket for an entry that is not in the others. -/
theorem Table.set (h : Table n home B) (hn : 2 ≤ n) (hp : p < n) (hpos : (home i + d) % n = p)
    (hfits : Fits n (dists B) p d) (hle : ∀ b, B p = some b → b.distanceToInitBucketIndex ≤ d)
    (hfresh : ¬ Holds n B i) : Table n home (Function.update B p (some ⟨d, i⟩)) := by
  have hother : ∀ q, q < n → q ≠ p → ∀ b, Function.update B p (some ⟨d, i⟩) q = some b →
      B q = some b ∧ b.entryIndex ≠ i := by
    intro q hq hqp b hb
    rw [Function.update_of_ne hqp] at hb
    exact ⟨hb, fun hi => hfresh ⟨q, hq, b, hb, hi⟩⟩
  have hself : ∀ b, Function.update B p (some ⟨d, i⟩) p = some b → b = ⟨d, i⟩ := by
    intro b hb
    rw [Function.update_self] at hb
    exact (Option.some.inj hb).symm
  refine ⟨?_, ?_, ?_⟩
  · intro q hq b hb
    by_cases hqp : q = p
    · rw [hqp] at hb ⊢
      rw [hself b hb]
      exact hpos
    · exact h.dist q hq b (hother q hq hqp b hb).1
  · rw [dists_update]
    refine h.order.set hn hp ?_ hfits
    intro e he
    obtain ⟨b, hb, rfl⟩ := Option.map_eq_some_iff.1 he
    exact hle b hb
  · intro q hq r hr b c hb hc hbc
    by_cases hqp : q = p
    · by_cases hrp : r = p
      · rw [hqp, hrp]
      · rw [hqp] at hb
        rw [hself b hb] at hbc
        exact absurd hbc.symm (hother r hr hrp c hc).2
    · by_cases hrp : r = p
      · rw [hrp] at hc
        rw [hself c hc] at hbc
        exact absurd hbc (hother q hq hqp b hb).2
      · exact h.inj q hq r hr b c (hother q hq hqp b hb).1 (hother r hr hrp c hc).1 hbc

theorem holds_set (hp : p < n) : Holds n (Function.update B p (some ⟨d, i⟩)) j ↔
    j = i ∨ ∃ q, q < n ∧ q ≠ p ∧ ∃ b, B q = some b ∧ b.entryIndex = j := by
  constructor
  · rintro ⟨q, hq, b, hb, hj⟩
    by_cases hqp : q = p
    · rw [hqp, Function.update_self] at hb
      cases hb
      exact .inl hj.symm
    · rw [Function.update_of_ne hqp] at hb
      exact .inr ⟨q, hq, hqp, b, hb, hj⟩
  · rintro (rfl | ⟨q, hq, hqp, b, hb, hj⟩)
    · exact ⟨p, hp, _, Function.update_self _ _ _, rfl⟩
    · exact ⟨q, hq, b, by rw [Function.update_of_ne hqp]; exact hb, hj⟩

/-- The others, without the entry of a bucket. -/
theorem Table.holds_other (h : Table n home B) (hp : p < n) {b : Bucket} (hb : B p = some b) :
    (∃ q, q < n ∧ q ≠ p ∧ ∃ b, B q = some b ∧ b.entryIndex = j) ↔
      Holds n B j ∧ j ≠ b.entryIndex := by
  constructor
  · rintro ⟨q, hq, hqp, c, hc, rfl⟩
    exact ⟨⟨q, hq, c, hc, rfl⟩, fun hj => hqp (h.inj q hq p hp c b hc hb hj)⟩
  · rintro ⟨⟨q, hq, c, hc, rfl⟩, hne⟩
    refine ⟨q, hq, ?_, c, hc, rfl⟩
    rintro rfl
    rw [hb] at hc
    cases hc
    exact hne rfl

theorem dists_of_bucket {b : Bucket} (hb : B p = some b) :
    dists B p = some b.distanceToInitBucketIndex := by
  unfold dists
  rw [hb]
  rfl

/-- Where nobody is as far away as a search has come, nobody who belongs there is further on. -/
theorem no_bucket_of_low (h : Order n (dists B)) (hn : 0 < n) {a : Nat} (hpos : (a + d) % n = p)
    (hlow : ∀ e, dists B p = some e → e < d) {b : Bucket} (hle : d ≤ b.distanceToInitBucketIndex) :
    B ((a + b.distanceToInitBucketIndex) % n) ≠ some b := by
  intro hb
  obtain ⟨e, he, hde⟩ := h.reach hn (dists_of_bucket hb) hle
  rw [hpos] at he
  have := hlow e he
  omega

/-! ## Insertion -/

theorem insertLoop_spec (hlen : len.capacity = n) (hn : 2 ≤ n) (h : Table n home B) (hp : p < n)
    (hpos : (home i + d) % n = p) (hfits : Fits n (dists B) p d) (hfresh : ¬ Holds n B i)
    (hfree : ∃ k, k < fuel ∧ B ((p + k) % n) = none) :
    ∃ B', OrderedMap.insertLoop len fuel B i p d = some B' ∧ Table n home B' ∧
      ∀ j, Holds n B' j ↔ Holds n B j ∨ j = i := by
  induction fuel generalizing B i p d with
  | zero =>
    obtain ⟨k, hk, -⟩ := hfree
    omega
  | succ fuel ih =>
    obtain ⟨k, hk, hnone⟩ := hfree
    unfold OrderedMap.insertLoop
    have hnext : len.nextBucketIndex p = (p + 1) % n := by
      unfold BucketLen.nextBucketIndex
      rw [hlen]
    cases hb : B p with
    | none =>
      refine ⟨_, rfl, h.set hn hp hpos hfits (by rw [hb]; nofun) hfresh, fun j => ?_⟩
      rw [holds_set hp]
      constructor
      · rintro (hj | ⟨q, hq, -, hj⟩)
        · exact .inr hj
        · exact .inl ⟨q, hq, hj⟩
      · rintro (⟨q, hq, b, hq', hj⟩ | hj)
        · refine .inr ⟨q, hq, ?_, b, hq', hj⟩
          rintro rfl
          rw [hb] at hq'
          cases hq'
        · exact .inl hj
    | some cur =>
      -- the empty bucket is further on
      obtain ⟨k, rfl⟩ : ∃ k', k = k' + 1 := by
        refine ⟨k - 1, ?_⟩
        by_contra hk0
        obtain rfl : k = 0 := by omega
        rw [Nat.add_zero, Nat.mod_eq_of_lt hp, hb] at hnone
        cases hnone
      have hplace : ((p + 1) % n + k) % n = (p + (k + 1)) % n := by
        rw [Nat.mod_add_mod]
        congr 1
        omega
      have hlt : (p + 1) % n < n := Nat.mod_lt _ (by omega)
      have hk : k < fuel := by omega
      dsimp only
      rw [hnext]
      split
      · next hdist =>
        have hset := h.set hn hp hpos hfits (fun b hb' => by
          rw [hb] at hb'
          cases hb'
          omega) hfresh
        have hcur := h.dist p hp cur hb
        have hne : cur.entryIndex ≠ i := fun hi => hfresh ⟨p, hp, cur, hb, hi⟩
        have hholds : ∀ j, Holds n (Function.update B p (some ⟨d, i⟩)) j ↔
            j = i ∨ Holds n B j ∧ j ≠ cur.entryIndex := fun j => by
          rw [holds_set hp, h.holds_other hp hb]
        obtain ⟨B', hB', ht, hB⟩ := ih hset hlt (by
            rw [← Nat.add_assoc, ← succ_mod, hcur]) (by
            rw [dists_update]
            exact fits_set hp (Nat.le_of_lt hdist)) (by
            rw [hholds]
            rintro (hi | ⟨-, hi⟩)
            · exact hne hi
            · exact hi rfl) ⟨k, hk, by
              rw [hplace, Function.update_of_ne]
              · exact hnone
              · intro heq
                rw [heq, hb] at hnone
                cases hnone⟩
        refine ⟨B', hB', ht, fun j => ?_⟩
        rw [hB, hholds]
        constructor
        · rintro ((hj | ⟨hj, -⟩) | rfl)
          · exact .inr hj
          · exact .inl hj
          · exact .inl ⟨p, hp, cur, hb, rfl⟩
        · rintro (hj | hj)
          · by_cases hc : j = cur.entryIndex
            · exact .inr hc
            · exact .inl (.inr ⟨hj, hc⟩)
          · exact .inl (.inl hj)
      · next hdist =>
        have hcur := dists_of_bucket hb
        have hfits' : Fits n (dists B) ((p + 1) % n) (d + 1) := by
          intro q hq heq c hc
          obtain ⟨e, he, hle⟩ := fits_next hp hcur q hq heq _ rfl
          exact ⟨e, he, by omega⟩
        exact ih h hlt (by rw [← Nat.add_assoc, ← succ_mod, hpos]) hfits' hfresh
          ⟨k, hk, by rw [hplace]; exact hnone⟩

theorem insertEntryIndex_spec (hlen : len.capacity = n) (hn : 2 ≤ n) (h : Table n home B)
    (hpos : (home i + d) % n = p) (hfits : Fits n (dists B) p d) (hfresh : ¬ Holds n B i)
    (hfree : ∃ q, q < n ∧ B q = none) :
    ∃ B', OrderedMap.insertEntryIndex len B i p d = some B' ∧ Table n home B' ∧
      ∀ j, Holds n B' j ↔ Holds n B j ∨ j = i := by
  have hp : p < n := by
    rw [← hpos]
    exact Nat.mod_lt _ (by omega)
  obtain ⟨q, hq, hnone⟩ := hfree
  obtain ⟨k, hk, hkq⟩ := exists_steps hp hq
  unfold OrderedMap.insertEntryIndex
  rw [hlen]
  exact insertLoop_spec hlen hn h hp hpos hfits hfresh ⟨k, hk, by rw [hkq]; exact hnone⟩

/-! ## Deletion -/

/-- The place of a bucket that moves one step back. -/
theorem pred_mod {a : Nat} (hp : p < n) (h : (a + 1) % n = (p + 1) % n) : a % n = p :=
  succ_mod_inj (Nat.mod_lt _ (by omega)) hp (by rw [succ_mod, h])

/-- A table with an empty bucket, where somebody at the distance `d` would be in order. -/
structure Hole (n : Nat) (home : Nat → Nat) (B : Nat → Option Bucket) (p d : Nat) : Prop where
  dist : ∀ p, p < n → ∀ b, B p = some b →
    (home b.entryIndex + b.distanceToInitBucketIndex) % n = p
  order : Order n (Function.update (dists B) p (some d))
  inj : ∀ p, p < n → ∀ q, q < n → ∀ b c, B p = some b → B q = some c →
    b.entryIndex = c.entryIndex → p = q
  free : B p = none

/-- The bucket of a table is emptied. -/
theorem Table.hole (h : Table n home B) {b : Bucket} (hb : B p = some b) :
    Hole n home (Function.update B p none) p b.distanceToInitBucketIndex := by
  have hold : ∀ q c, Function.update B p none q = some c → B q = some c := by
    intro q c hc
    by_cases hqp : q = p
    · rw [hqp, Function.update_self] at hc
      cases hc
    · rw [Function.update_of_ne hqp] at hc
      exact hc
  refine ⟨fun q hq c hc => h.dist q hq c (hold q c hc), ?_,
    fun q hq r hr c e hc he => h.inj q hq r hr c e (hold q c hc) (hold r e he),
    Function.update_self _ _ _⟩
  rw [dists_update, Function.update_idem, ← dists_of_bucket hb, Function.update_eq_self]
  exact h.order

theorem Hole.table (h : Hole n home B p d) (hnext : ∀ e, dists B ((p + 1) % n) ≠ some (e + 1)) :
    Table n home B := by
  refine ⟨h.dist, h.order.close ?_ hnext, h.inj⟩
  unfold dists
  rw [h.free]
  rfl

theorem holds_clear : Holds n (Function.update B p none) j ↔
    ∃ q, q < n ∧ q ≠ p ∧ ∃ b, B q = some b ∧ b.entryIndex = j := by
  constructor
  · rintro ⟨q, hq, b, hb, hj⟩
    by_cases hqp : q = p
    · rw [hqp, Function.update_self] at hb
      cases hb
    · rw [Function.update_of_ne hqp] at hb
      exact ⟨q, hq, hqp, b, hb, hj⟩
  · rintro ⟨q, hq, hqp, b, hb, hj⟩
    exact ⟨q, hq, b, by rw [Function.update_of_ne hqp]; exact hb, hj⟩

/-- The next bucket moves into the hole. -/
theorem Hole.shift (h : Hole n home B p d) (hn : 2 ≤ n) (hp : p < n) {e : Nat}
    (hb : B ((p + 1) % n) = some ⟨e + 1, i⟩) :
    Hole n home (Function.update (Function.update B p (some ⟨e, i⟩)) ((p + 1) % n) none)
      ((p + 1) % n) (e + 1) ∧
    ∀ j, Holds n (Function.update (Function.update B p (some ⟨e, i⟩)) ((p + 1) % n) none) j ↔
      Holds n B j := by
  have hq : (p + 1) % n < n := Nat.mod_lt _ (by omega)
  have hne : (p + 1) % n ≠ p := succ_mod_ne hn hp
  -- every bucket is one of before, at its place or one step back
  have hcases : ∀ r b, Function.update (Function.update B p (some ⟨e, i⟩)) ((p + 1) % n) none r =
      some b → r = p ∧ b = ⟨e, i⟩ ∨ r ≠ p ∧ r ≠ (p + 1) % n ∧ B r = some b := by
    intro r b hr
    by_cases hrq : r = (p + 1) % n
    · rw [hrq, Function.update_self] at hr
      cases hr
    · rw [Function.update_of_ne hrq] at hr
      by_cases hrp : r = p
      · rw [hrp, Function.update_self] at hr
        exact .inl ⟨hrp, (Option.some.inj hr).symm⟩
      · rw [Function.update_of_ne hrp] at hr
        exact .inr ⟨hrp, hrq, hr⟩
  have hother : ∀ r b, r < n → r ≠ (p + 1) % n → B r = some b → b.entryIndex ≠ i := by
    intro r b hr hrq hrb hi
    exact hrq (h.inj r hr _ hq b _ hrb hb hi)
  refine ⟨⟨?_, ?_, ?_, Function.update_self _ _ _⟩, ?_⟩
  · intro r hr b hrb
    rcases hcases r b hrb with ⟨rfl, rfl⟩ | ⟨-, -, hrb⟩
    · exact pred_mod hr (by rw [Nat.add_assoc]; exact h.dist _ hq _ hb)
    · exact h.dist r hr b hrb
  · have hd : dists B ((p + 1) % n) = some (e + 1) := dists_of_bucket hb
    rw [dists_update, dists_update, Function.update_idem, Option.map_some, ← hd]
    have heq : Function.update (Function.update (dists B) p (some e)) ((p + 1) % n)
        (dists B ((p + 1) % n)) = Function.update (dists B) p (some e) := by
      rw [Function.update_comm (Ne.symm hne), Function.update_eq_self]
    rw [heq]
    exact h.order.lower hn hp hd
  · intro r hr r' hr' b c hrb hrc hbc
    rcases hcases r b hrb with ⟨hrp, rfl⟩ | ⟨-, hrq, hrb⟩
    · rcases hcases r' c hrc with ⟨hrp', -⟩ | ⟨-, hrq', hrc⟩
      · rw [hrp, hrp']
      · exact absurd hbc.symm (hother r' c hr' hrq' hrc)
    · rcases hcases r' c hrc with ⟨-, rfl⟩ | ⟨-, -, hrc⟩
      · exact absurd hbc (hother r b hr hrq hrb)
      · exact h.inj r hr r' hr' b c hrb hrc hbc
  · intro j
    constructor
    · rintro ⟨r, hr, b, hrb, rfl⟩
      rcases hcases r b hrb with ⟨-, rfl⟩ | ⟨-, -, hrb⟩
      · exact ⟨_, hq, _, hb, rfl⟩
      · exact ⟨r, hr, b, hrb, rfl⟩
    · rintro ⟨r, hr, b, hrb, rfl⟩
      by_cases hrq : r = (p + 1) % n
      · rw [hrq, hb] at hrb
        cases hrb
        refine ⟨p, hp, ⟨e, i⟩, ?_, rfl⟩
        rw [Function.update_of_ne (Ne.symm hne), Function.update_self]
      · have hrp : r ≠ p := by
          rintro rfl
          rw [h.free] at hrb
          cases hrb
        refine ⟨r, hr, b, ?_, rfl⟩
        rw [Function.update_of_ne hrq, Function.update_of_ne hrp]
        exact hrb

theorem shiftLoop_spec (hlen : len.capacity = n) (hn : 2 ≤ n) (h : Hole n home B p d) (hp : p < n)
    (hfree : ∃ k, k ≤ fuel ∧ (p + k) % n ≠ p ∧ B ((p + k) % n) = none) :
    ∃ B', OrderedMap.shiftLoop len fuel B p = some B' ∧ Table n home B' ∧
      ∀ j, Holds n B' j ↔ Holds n B j := by
  induction fuel generalizing B p d with
  | zero =>
    obtain ⟨k, hk, hne, -⟩ := hfree
    obtain rfl : k = 0 := by omega
    exact absurd (Nat.mod_eq_of_lt hp) hne
  | succ fuel ih =>
    obtain ⟨k, hk, hkp, hnone⟩ := hfree
    have hnext : len.nextBucketIndex p = (p + 1) % n := by
      unfold BucketLen.nextBucketIndex
      rw [hlen]
    unfold OrderedMap.shiftLoop
    dsimp only
    rw [hnext]
    cases hb : B ((p + 1) % n) with
    | none =>
      refine ⟨B, rfl, h.table ?_, fun _ => Iff.rfl⟩
      unfold dists
      rw [hb]
      nofun
    | some cur =>
      dsimp only
      split
      · next hzero =>
        refine ⟨B, rfl, h.table ?_, fun _ => Iff.rfl⟩
        unfold dists
        rw [hb, Option.map_some, hzero]
        nofun
      · next hpos =>
        obtain ⟨e, he⟩ : ∃ e, cur.distanceToInitBucketIndex = e + 1 :=
          ⟨cur.distanceToInitBucketIndex - 1, by omega⟩
        obtain ⟨dist, i⟩ := cur
        dsimp only at he
        subst he
        obtain ⟨hshift, hholds⟩ := h.shift hn hp hb
        -- the empty bucket is not the next one
        obtain ⟨k, rfl⟩ : ∃ k', k = k' + 1 := by
          refine ⟨k - 1, ?_⟩
          by_contra hk0
          obtain rfl : k = 0 := by omega
          exact hkp (Nat.mod_eq_of_lt hp)
        have hplace : ((p + 1) % n + k) % n = (p + (k + 1)) % n := by
          rw [Nat.mod_add_mod]
          congr 1
          omega
        have hkq : (p + (k + 1)) % n ≠ (p + 1) % n := by
          intro heq
          rw [heq, hb] at hnone
          cases hnone
        obtain ⟨B', hB', ht, hB⟩ := ih hshift (Nat.mod_lt _ (by omega)) ⟨k, by omega, by
          rw [hplace]
          exact hkq, by
          rw [hplace, Function.update_of_ne hkq, Function.update_of_ne hkp]
          exact hnone⟩
        exact ⟨B', hB', ht, fun j => (hB j).trans (hholds j)⟩

/-- A bucket is empty, if there are fewer entries than buckets. -/
theorem Table.exists_free (h : Table n home B) {s : Finset Nat} (hs : ∀ i, Holds n B i → i ∈ s)
    (hcard : s.card < n) : ∃ p, p < n ∧ B p = none := by
  obtain ⟨p, hp, hfree⟩ := RobinHood.exists_free (B := fun p => (B p).map Bucket.entryIndex)
    (fun p hp i hi => by
      obtain ⟨b, hb, rfl⟩ := Option.map_eq_some_iff.1 hi
      exact hs _ ⟨p, hp, b, hb, rfl⟩)
    (fun p hp q hq i hpi hqi => by
      obtain ⟨b, hb, hbi⟩ := Option.map_eq_some_iff.1 hpi
      obtain ⟨c, hc, rfl⟩ := Option.map_eq_some_iff.1 hqi
      exact h.inj p hp q hq b c hb hc hbi) hcard
  exact ⟨p, hp, Option.map_eq_none_iff.1 hfree⟩

end Arsh.Map
