import Arsh.Map.Invariant

/-!
# Operations of ordered maps

Every operation comes to an end, keeps the invariant, and does to the entries what it should:
`insert` adds one behind the others, `remove` takes one out, `put` changes a value. A rehash, with
or without a larger table or a compaction, does not change the entries.
-/

namespace Arsh.Map

open RobinHood Vec

variable {κ ν : Type} [BEq κ] {hash : κ → UInt64} {m : OrderedMap κ ν}
  {es : OrderedMapEntries κ ν} {e : Entry κ ν} {k : κ} {i : Nat}

/-- Hashes are those of equal keys. -/
def Consistent (hash : κ → UInt64) : Prop := ∀ a b : κ, (a == b) = true → hash a = hash b

/-! ## Keys -/

section
variable [EquivBEq κ]

/-- No other entry has the key. -/
theorem Content.unique (h : Content hash es) {pre post : List (Entry κ ν)}
    (hl : es.live = pre ++ e :: post) (hk : (k == e.key) = true) :
    (∀ f ∈ pre, (k == f.key) = false) ∧ ∀ f ∈ post, (k == f.key) = false := by
  have hkeys := h.keys
  rw [hl, List.pairwise_append, List.pairwise_cons] at hkeys
  obtain ⟨-, ⟨hpost, -⟩, hpre⟩ := hkeys
  constructor
  · intro f hf
    by_contra hne
    have hkf : (k == f.key) = true := by simpa using hne
    have := hpre f hf e List.mem_cons_self
    rw [BEq.trans (BEq.symm hkf) hk] at this
    cases this
  · intro f hf
    by_contra hne
    have hkf : (k == f.key) = true := by simpa using hne
    have := hpost f hf
    rw [BEq.trans (BEq.symm hk) hkf] at this
    cases this

/-- The entry of a key and those around it. -/
theorem Content.split (h : Content hash es) (he : es.get i = some e) (hk : (k == e.key) = true) :
    ∃ pre post, es.values = pre ++ some e :: post ∧ pre.length = i ∧
      es.live = pre.filterMap id ++ e :: post.filterMap id ∧
      (∀ f ∈ pre.filterMap id, (k == f.key) = false) ∧
      ∀ f ∈ post.filterMap id, (k == f.key) = false := by
  obtain ⟨pre, post, hvalues, hlen⟩ := OrderedMapEntries.split_of_get he
  have hl : es.live = pre.filterMap id ++ e :: post.filterMap id := by
    unfold OrderedMapEntries.live
    rw [hvalues]
    simp
  exact ⟨pre, post, hvalues, hlen, hl, h.unique hl hk⟩

theorem Content.find_of_get (h : Content hash es) (he : es.get i = some e)
    (hk : (k == e.key) = true) : es.live.find? (fun f => k == f.key) = some e := by
  obtain ⟨pre, post, -, -, hl, hpre, -⟩ := h.split he hk
  rw [hl, List.find?_append, List.find?_eq_none.2 fun f hf => by simp [hpre f hf], List.find?_cons,
    hk]
  rfl

end

theorem hasKey_iff : m.hasKey hash k i = true ↔
    ∃ e, m.entries.get i = some e ∧ hash k = e.hash ∧ (k == e.key) = true := by
  unfold OrderedMap.hasKey
  rw [Option.any_eq_true]
  simp only [Bool.and_eq_true, beq_iff_eq]

/-- A search depends on the buckets, and on which entries have the key. -/
theorem probe_congr {ι : Type} [BEq ι] {hash' : ι → UInt64} {m' : OrderedMap ι ν} {k' : ι}
    (hlen : m'.bucketLen = m.bucketLen) (hbuckets : m'.buckets = m.buckets)
    (hhash : hash' k' = hash k) (hkey : ∀ i, m'.hasKey hash' k' i = m.hasKey hash k i) :
    m'.probeBuckets hash' k' = m.probeBuckets hash k := by
  have hloop : ∀ fuel p d, m'.probeLoop hash' k' fuel p d = m.probeLoop hash k fuel p d := by
    intro fuel
    induction fuel with
    | zero => exact fun _ _ => rfl
    | succ fuel ih =>
      intro p d
      unfold OrderedMap.probeLoop
      simp only [hlen, hbuckets, hkey, ih]
  unfold OrderedMap.probeBuckets
  simp only [hlen, hhash, hloop]

theorem lookup_congr {ι : Type} [BEq ι] {hash' : ι → UInt64} {m' : OrderedMap ι ν} {k' : ι}
    (hlen : m'.bucketLen = m.bucketLen) (hbuckets : m'.buckets = m.buckets)
    (hhash : hash' k' = hash k) (hkey : ∀ i, m'.hasKey hash' k' i = m.hasKey hash k i) :
    m'.lookup hash' k' = m.lookup hash k := by
  unfold OrderedMap.lookup OrderedMap.size
  rw [probe_congr hlen hbuckets hhash hkey, hlen, hbuckets]

omit [BEq κ] in
/-- Comparisons that agree on the keys of the map insert in the same way. -/
theorem insert_congr (A B : BEq κ) (v : ν)
    (hkey : ∀ i, @OrderedMap.hasKey κ ν A hash m k i = @OrderedMap.hasKey κ ν B hash m k i) :
    @OrderedMap.insert κ ν A hash m (some k) v = @OrderedMap.insert κ ν B hash m (some k) v := by
  unfold OrderedMap.insert
  dsimp only
  rw [@probe_congr κ ν B hash m k κ A hash m k rfl rfl rfl hkey]

/-- What a search for a key comes to. -/
structure Probed (hash : κ → UInt64) (m : OrderedMap κ ν) (k : κ) (found : Bool)
    (probe : ProbeState) : Prop where
  keyHash : probe.keyHash = hash k
  pos : ((hash k).toNat + probe.dist) % m.bucketLen.capacity = probe.bucketIndex
  fits : Fits m.bucketLen.capacity (dists m.buckets) probe.bucketIndex probe.dist
  entry : found = true → ∃ b e, m.buckets probe.bucketIndex = some b ∧
    m.entries.get b.entryIndex = some e ∧ (k == e.key) = true
  none : found = false → ∀ e ∈ m.entries.live, (k == e.key) = false

/-- It is enough that the hash of the key is that of an equal key in the map. -/
theorem Inv.probe_of (h : Inv hash m)
    (hh : ∀ e ∈ m.entries.live, (k == e.key) = true → hash k = hash e.key) :
    ∃ found probe, m.probeBuckets hash k = some (found, probe) ∧ Probed hash m k found probe := by
  have hn := h.four_le
  obtain ⟨q, hq, hfree⟩ := h.indexed.exists_free h.size_lt
  obtain ⟨j, hj, hjq⟩ := exists_steps (Nat.mod_lt (hash k).toNat (by omega)) hq
  obtain ⟨found, p, d, hloop, hpos, hfits, hfound, hnot⟩ := probeLoop_spec hash k rfl
    (by omega : 2 ≤ m.bucketLen.capacity) h.indexed.table.order (a := (hash k).toNat) rfl fits_zero
    ⟨j, hj, by rw [Nat.add_zero, hjq]; exact hfree⟩
  refine ⟨found, ⟨hash k, p, d⟩, ?_, rfl, hpos, hfits, ?_, ?_⟩
  · unfold OrderedMap.probeBuckets BucketLen.toBucketIndex
    rw [Nat.add_zero] at hloop
    rw [hloop]
    rfl
  · intro hf
    obtain ⟨b, hb, hkey⟩ := hfound hf
    obtain ⟨e, he, -, hk⟩ := hasKey_iff.1 hkey
    exact ⟨b, e, hb, he, hk⟩
  · intro hf e he
    by_contra hne
    have hk : (k == e.key) = true := by simpa using hne
    -- the entry is in a bucket that the search comes past
    obtain ⟨i, hi⟩ := OrderedMapEntries.mem_live.1 he
    obtain ⟨q, hq, b, hb, rfl⟩ := (h.indexed.holds i).2 (by rw [hi]; rfl)
    have hhash : hash k = e.hash := (hh e he hk).trans (h.content.hashes e he).symm
    have hdist := h.indexed.table.dist q hq b hb
    rw [OrderedMapEntries.home_of_get hi, ← hhash] at hdist
    have := hnot hf b (Nat.zero_le _) (by rw [hdist]; exact hb)
    rw [hasKey_iff.2 ⟨e, hi, hhash, hk⟩] at this
    cases this

theorem Inv.probe (h : Inv hash m) (hh : Consistent hash) (k : κ) :
    ∃ found probe, m.probeBuckets hash k = some (found, probe) ∧ Probed hash m k found probe :=
  h.probe_of fun e _ => hh k e.key

/-! ## Rehash -/

omit [BEq κ] in
theorem rehashLoop_spec {len : BucketLen} (hn : 4 ≤ len.capacity)
    (hlt : es.live.length < len.capacity) :
    ∀ (rest : List (Option (Entry κ ν))) (i : Nat) (B : Nat → Option Bucket),
      es.values.drop i = rest → Table len.capacity es.home B →
      (∀ j, Holds len.capacity B j ↔ j < i ∧ (es.get j).isSome) →
      ∃ B', OrderedMap.rehashLoop len rest i B = some B' ∧ Indexed len es B' := by
  intro rest
  induction rest with
  | nil =>
    intro i B hdrop ht hholds
    refine ⟨B, rfl, ht, fun j => (hholds j).trans ⟨And.right, fun hj => ⟨?_, hj⟩⟩⟩
    obtain ⟨e, he⟩ := Option.isSome_iff_exists.1 hj
    have := OrderedMapEntries.lt_of_get he
    have := List.drop_eq_nil_iff.1 hdrop
    omega
  | cons o rest ih =>
    intro i B hdrop ht hholds
    have hi : es.values[i]? = some o := by
      have := congrArg (fun l => l[0]?) hdrop
      simpa using this
    have hdrop' : es.values.drop (i + 1) = rest := by
      rw [← List.tail_drop, hdrop]
      rfl
    have hget : es.get i = o := by
      unfold OrderedMapEntries.get
      rw [hi]
      rfl
    cases o with
    | none =>
      refine ih (i + 1) B hdrop' ht fun j => (hholds j).trans ?_
      constructor
      · rintro ⟨hj, hs⟩
        exact ⟨by omega, hs⟩
      · rintro ⟨hj, hs⟩
        refine ⟨?_, hs⟩
        have hne : j ≠ i := by
          rintro rfl
          rw [hget] at hs
          cases hs
        omega
    | some e =>
      have hfresh : ¬ Holds len.capacity B i := by
        rw [hholds]
        omega
      have hmem : ∀ j, Holds len.capacity B j → j ∈ es.indices := fun j hj =>
        OrderedMapEntries.mem_indices.2 ((hholds j).1 hj).2
      have hfree := ht.exists_free hmem (Nat.lt_of_le_of_lt es.card_indices_le hlt)
      have hpos : (es.home i + 0) % len.capacity = len.toBucketIndex e.hash := by
        rw [OrderedMapEntries.home_of_get hget]
        rfl
      obtain ⟨B', hB', ht', hB⟩ := insertEntryIndex_spec rfl (by omega) ht hpos fits_zero hfresh
        hfree
      obtain ⟨B'', hB'', hindexed⟩ := ih (i + 1) B' hdrop' ht' fun j => by
        rw [hB, hholds]
        constructor
        · rintro (⟨hj, hs⟩ | rfl)
          · exact ⟨by omega, hs⟩
          · exact ⟨Nat.lt_succ_self _, by rw [hget]; rfl⟩
        · rintro ⟨hj, hs⟩
          by_cases hji : j = i
          · exact .inr hji
          · exact .inl ⟨by omega, hs⟩
      refine ⟨B'', ?_, hindexed⟩
      unfold OrderedMap.rehashLoop
      rw [hB']
      exact hB''

omit [BEq κ] in
theorem rehash_spec (m : OrderedMap κ ν) (grow : Bool) {len : BucketLen}
    (hlen : len = if grow then m.bucketLen.incExp else m.bucketLen) (hn : 4 ≤ len.capacity)
    (hlt : m.entries.live.length < len.capacity) :
    ∃ B, m.rehash grow = some { m with bucketLen := len, buckets := B } ∧
      Indexed len m.entries B := by
  obtain ⟨B, hB, hindexed⟩ := rehashLoop_spec hn hlt m.entries.values 0 _ rfl
    (table_empty _ _) fun j => by
      constructor
      · exact fun hj => absurd hj not_holds_empty
      · rintro ⟨hj, -⟩
        omega
  refine ⟨B, ?_, hindexed⟩
  unfold OrderedMap.rehash
  dsimp only
  rw [← hlen, hB]
  rfl

theorem Content.compact (h : Content hash es) : Content hash es.compact := by
  obtain ⟨hlive, hvalues⟩ := OrderedMapEntries.live_compact es
  refine ⟨?_, ?_, ?_, ?_, h.capacity⟩
  · rw [hlive]
    exact h.hashes
  · rw [hlive]
    exact h.keys
  · rw [hvalues, List.getLast?_map]
    cases es.live.getLast? <;> simp
  · rw [hvalues, List.length_map]
    exact (List.length_filterMap_le _ _).trans h.room

/-- The table after a rehash, which is larger if it has to be. -/
theorem Inv.grow (h : Inv hash m) (hlt : m.size < maxSize) {len : BucketLen}
    (hlen : len = if m.bucketLen.needGrow then m.bucketLen.incExp else m.bucketLen) :
    len.size = m.bucketLen.size ∧ (2 ≤ len.capExp ∧ len.capExp ≤ 28) ∧
      m.bucketLen.capacity ≤ len.capacity ∧ Loaded (m.size + 1) len.capacity := by
  have hexp := h.capExp
  by_cases hg : m.bucketLen.needGrow = true
  · rw [if_pos hg] at hlen
    have hne : m.bucketLen.capExp ≠ 28 := by
      intro h28
      unfold BucketLen.needGrow BucketLen.capacity at hg
      rw [decide_eq_true_iff, h28] at hg
      unfold maxSize OrderedMap.size at hlt
      omega
    have hinc : len.capExp = m.bucketLen.capExp + 1 := by
      rw [hlen]
      exact Nat.mod_eq_of_lt (by omega)
    have hcap : len.capacity = 2 * m.bucketLen.capacity := by
      unfold BucketLen.capacity
      rw [hinc, Nat.pow_succ, Nat.mul_comm]
    refine ⟨by rw [hlen]; rfl, by omega, by omega, ?_⟩
    rw [hcap]
    exact h.load.double h.four_le
  · rw [if_neg hg] at hlen
    rw [hlen]
    exact ⟨rfl, hexp, Nat.le_refl _, loaded_of_not_needGrow hg⟩

/-- There is room for another entry. -/
structure Roomy (hash : κ → UInt64) (m : OrderedMap κ ν) : Prop where
  inv : Inv hash m
  load : Loaded (m.size + 1) m.bucketLen.capacity
  full : m.entries.values.length = m.entries.capacity → m.entries.values.length = m.size

/-- A rehash, where deleted entries are gone if there were some. -/
theorem Inv.rehash (h : Inv hash m) (hlt : m.size < maxSize) {es : OrderedMapEntries κ ν}
    (hlive : es.live = m.entries.live) (hcontent : Content hash es)
    (hused : es.values.length = es.live.length) :
    ∃ m', OrderedMap.rehash { m with entries := es } m.bucketLen.needGrow = some m' ∧
      m'.entries.live = m.entries.live ∧ m'.size = m.size ∧ Roomy hash m' := by
  obtain ⟨len, hlen⟩ : ∃ len : BucketLen,
      len = if m.bucketLen.needGrow then m.bucketLen.incExp else m.bucketLen := ⟨_, rfl⟩
  obtain ⟨hsize, hexp, hcap, hload⟩ := h.grow hlt hlen
  have hlt' : es.live.length < len.capacity := by
    rw [hlive]
    exact Nat.lt_of_lt_of_le h.size_lt hcap
  obtain ⟨B, hB, hindexed⟩ := rehash_spec { m with entries := es } m.bucketLen.needGrow hlen
    (four_le_capacity hexp.1) hlt'
  refine ⟨_, hB, hlive, hsize, ⟨hexp, ?_, ?_, ?_, hcontent, hindexed⟩, ?_, ?_⟩
  all_goals
    unfold OrderedMap.size
    dsimp only
    rw [hsize]
  · exact hload.of_succ
  · exact h.limit
  · rw [hlive]
    exact h.size
  · exact hload
  · intro _
    rw [hused, hlive]
    exact h.size.symm

theorem Inv.reserve (h : Inv hash m) (hlt : m.size < maxSize) {probe : ProbeState}
    (hp : Probed hash m k false probe) :
    ∃ m' probe', m.reserve probe = some (m', probe') ∧ m'.entries.live = m.entries.live ∧
      m'.size = m.size ∧ Roomy hash m' ∧ probe'.keyHash = hash k ∧
      ((hash k).toNat + probe'.dist) % m'.bucketLen.capacity = probe'.bucketIndex ∧
      Fits m'.bucketLen.capacity (dists m'.buckets) probe'.bucketIndex probe'.dist := by
  -- with deleted entries the length is not the size
  have hdeleted : ∀ c : Bool, (m.entries.getUsedSize != m.size) = c →
      c = false → m.entries.values.length = m.entries.live.length := by
    rintro c hc rfl
    rw [← h.size]
    simpa [OrderedMapEntries.getUsedSize] using hc
  unfold OrderedMap.reserve
  dsimp only
  generalize hd : (m.entries.getUsedSize != m.size) = deleted
  generalize hf : (m.entries.getUsedSize == m.entries.capacity) = full
  split
  · next hneed =>
    have hrest : ∀ m₁ : OrderedMap κ ν, (∃ m', m₁.rehash m.bucketLen.needGrow = some m' ∧
        m'.entries.live = m.entries.live ∧ m'.size = m.size ∧ Roomy hash m') →
        ∃ m' probe', (m₁.rehash m.bucketLen.needGrow >>= fun m' =>
          some (m', { probe with
            bucketIndex := m'.bucketLen.toBucketIndex probe.keyHash, dist := 0 })) =
          some (m', probe') ∧ m'.entries.live = m.entries.live ∧ m'.size = m.size ∧
          Roomy hash m' ∧ probe'.keyHash = hash k ∧
          ((hash k).toNat + probe'.dist) % m'.bucketLen.capacity = probe'.bucketIndex ∧
          Fits m'.bucketLen.capacity (dists m'.buckets) probe'.bucketIndex probe'.dist := by
      rintro m₁ ⟨m', hm', hlive, hsize, hroomy⟩
      rw [hm']
      refine ⟨m', _, rfl, hlive, hsize, hroomy, hp.keyHash, ?_, fits_zero⟩
      rw [← hp.keyHash]
      rfl
    apply hrest
    split
    · obtain ⟨hlive, hvalues⟩ := OrderedMapEntries.live_compact m.entries
      exact h.rehash hlt hlive h.content.compact (by rw [hvalues, hlive, List.length_map])
    · next hc =>
      refine h.rehash hlt rfl h.content (hdeleted deleted hd ?_)
      cases deleted with
      | false => rfl
      | true =>
        simp only [Bool.and_true] at hc hneed
        rw [Bool.or_comm] at hc
        exact absurd hneed hc
  · next hneed =>
    rw [Bool.or_eq_true, not_or] at hneed
    refine ⟨m, probe, rfl, rfl, rfl, ⟨h, loaded_of_not_needGrow hneed.1, fun hfull => ?_⟩,
      hp.keyHash, hp.pos, hp.fits⟩
    have hfull : full = true := by
      rw [← hf]
      simpa [OrderedMapEntries.getUsedSize] using hfull
    rw [hfull, Bool.true_and] at hneed
    rw [h.size]
    exact hdeleted deleted hd (by simpa using hneed.2)

theorem Inv.live_eq_nil (h : Inv hash m) (hsize : m.size = 0) : m.entries.live = [] :=
  List.eq_nil_of_length_eq_zero (by rw [← h.size]; exact hsize)

/-! ## Insertion -/

section
variable [EquivBEq κ]

theorem Content.add (h : Content hash es) {size : Nat} (hsize : size < maxSize)
    (hfull : es.values.length = es.capacity → es.values.length = size)
    (hnew : ∀ f ∈ es.live, (k == f.key) = false) (v : ν) :
    Content hash (es.add ⟨k, hash k, v⟩).2 := by
  have hroom := h.room
  obtain ⟨hzero, hle⟩ := h.capacity
  have hcap : es.values.length + 1 ≤ es.newCapacity ∧ 4 ≤ es.newCapacity ∧
      es.newCapacity ≤ 2 ^ 28 := by
    unfold maxSize at hsize
    unfold OrderedMapEntries.newCapacity OrderedMapEntries.getUsedSize
    split
    · next hused =>
      have hmod : (es.capacity + es.capacity / 2) % 2 ^ 32 = es.capacity + es.capacity / 2 :=
        Nat.mod_eq_of_lt (by omega)
      have := hfull hused
      dsimp only
      rw [hmod]
      split <;> omega
    · omega
  refine ⟨?_, ?_, ?_, ?_, .inr hcap.2.1, hcap.2.2⟩
  · rw [OrderedMapEntries.live_add]
    intro e he
    rcases List.mem_append.1 he with he | he
    · exact h.hashes e he
    · rw [List.mem_singleton.1 he]
  · rw [OrderedMapEntries.live_add, List.pairwise_append]
    refine ⟨h.keys, List.pairwise_singleton _ _, fun f hf g hg => ?_⟩
    rw [List.mem_singleton.1 hg, BEq.comm]
    exact hnew f hf
  · unfold OrderedMapEntries.add
    simp
  · unfold OrderedMapEntries.add
    simpa using hcap.1

theorem Roomy.add (h : Roomy hash m) (hlt : m.size < maxSize)
    (hnew : ∀ f ∈ m.entries.live, (k == f.key) = false) (v : ν) {p d : Nat}
    (hpos : ((hash k).toNat + d) % m.bucketLen.capacity = p)
    (hfits : Fits m.bucketLen.capacity (dists m.buckets) p d) :
    ∃ B, OrderedMap.insertEntryIndex m.bucketLen m.buckets m.entries.values.length p d = some B ∧
      Inv hash { bucketLen := m.bucketLen.setSize (m.bucketLen.size + 1), buckets := B
                 entries := (m.entries.add ⟨k, hash k, v⟩).2 } := by
  have hfour := h.inv.four_le
  have hindexed := h.inv.indexed
  -- the entries in the table are the old ones
  have hold : ∀ i, Holds m.bucketLen.capacity m.buckets i → i ≠ m.entries.values.length := by
    rintro i hi rfl
    obtain ⟨e, he⟩ := Option.isSome_iff_exists.1 ((hindexed.holds _).1 hi)
    exact Nat.lt_irrefl _ (OrderedMapEntries.lt_of_get he)
  have htable : Table m.bucketLen.capacity (m.entries.add ⟨k, hash k, v⟩).2.home m.buckets :=
    hindexed.table.congr fun i hi => by
      unfold OrderedMapEntries.home
      rw [OrderedMapEntries.get_add, if_neg (hold i hi)]
  have hhome : (m.entries.add ⟨k, hash k, v⟩).2.home m.entries.values.length = (hash k).toNat := by
    unfold OrderedMapEntries.home
    rw [OrderedMapEntries.get_add, if_pos rfl]
    rfl
  obtain ⟨B, hB, ht, hholds⟩ := insertEntryIndex_spec rfl (by omega) htable
    (by rw [hhome]; exact hpos) hfits (fun hi => hold _ hi rfl)
    (hindexed.exists_free h.inv.size_lt)
  have hset : (m.bucketLen.setSize (m.bucketLen.size + 1)).size = m.size + 1 := by
    unfold maxSize at hlt
    exact Nat.mod_eq_of_lt (by unfold OrderedMap.size at hlt; omega)
  refine ⟨B, hB, h.inv.capExp, ?_, ?_, ?_, h.inv.content.add hlt h.full hnew v, ht, fun i => ?_⟩
  · unfold OrderedMap.size
    rw [hset]
    exact h.load
  · unfold OrderedMap.size
    rw [hset]
    exact hlt
  · unfold OrderedMap.size
    rw [hset, OrderedMapEntries.live_add, List.length_append, ← h.inv.size]
    rfl
  · apply (hholds i).trans
    rw [hindexed.holds, OrderedMapEntries.get_add]
    by_cases hi : i = m.entries.values.length
    · rw [if_pos hi]
      exact ⟨fun _ => rfl, fun _ => .inr hi⟩
    · rw [if_neg hi]
      exact ⟨fun hor => hor.resolve_right hi, .inl⟩

/-- What `insert` does with a key. -/
inductive Inserted (hash : κ → UInt64) (m : OrderedMap κ ν) (k : κ) (v : ν) :
    Option Nat × InsertStatus → OrderedMap κ ν → Prop
  | inserted {i : Nat} {e : Entry κ ν} (he : m.entries.get i = some e)
      (hk : (k == e.key) = true) : Inserted hash m k v (some i, .inserted) m
  | limit (hnew : ∀ e ∈ m.entries.live, (k == e.key) = false) (hsize : m.size = maxSize) :
      Inserted hash m k v (none, .limit) m
  | ok {i : Nat} {m' : OrderedMap κ ν} (hnew : ∀ e ∈ m.entries.live, (k == e.key) = false)
      (hsize : m.size < maxSize) (hlive : m'.entries.live = m.entries.live ++ [⟨k, hash k, v⟩])
      (he : m'.entries.get i = some ⟨k, hash k, v⟩) : Inserted hash m k v (some i, .ok) m'

theorem Inv.insert_of (h : Inv hash m) (k : κ) (v : ν)
    (hh : ∀ e ∈ m.entries.live, (k == e.key) = true → hash k = hash e.key) :
    ∃ r m', m.insert hash (some k) v = some (r, m') ∧ Inv hash m' ∧ Inserted hash m k v r m' := by
  obtain ⟨found, probe, hprobe, hp⟩ := h.probe_of hh
  have hbind : m.insert hash (some k) v = if found then
      some (((m.buckets probe.bucketIndex).map Bucket.entryIndex, .inserted), m)
    else if m.size == maxSize then some ((none, .limit), m)
    else m.reserve probe >>= fun r =>
      OrderedMap.insertEntryIndex r.1.bucketLen r.1.buckets r.1.entries.values.length
        r.2.bucketIndex r.2.dist >>= fun buckets =>
      some ((some r.1.entries.values.length, .ok),
        { bucketLen := r.1.bucketLen.setSize (r.1.bucketLen.size + 1), buckets := buckets
          entries := (r.1.entries.add ⟨k, r.2.keyHash, v⟩).2 }) := by
    unfold OrderedMap.insert
    dsimp only
    rw [hprobe]
    rfl
  rw [hbind]
  cases found with
  | true =>
    obtain ⟨b, e, hb, he, hk⟩ := hp.entry rfl
    rw [if_pos rfl, hb]
    exact ⟨_, m, rfl, h, .inserted he hk⟩
  | false =>
    have hnew := hp.none rfl
    rw [if_neg Bool.false_ne_true]
    split
    · next hmax => exact ⟨_, m, rfl, h, .limit hnew (by simpa using hmax)⟩
    · next hmax =>
      have hlt : m.size < maxSize := by
        have := h.limit
        have : m.size ≠ maxSize := by simpa using hmax
        omega
      obtain ⟨m₁, probe₁, hreserve, hlive, hsize, hroomy, hkey, hpos, hfits⟩ := h.reserve hlt hp
      rw [← hlive] at hnew
      obtain ⟨B, hB, hinv⟩ := hroomy.add (by rw [hsize]; exact hlt) hnew v hpos hfits
      rw [hreserve]
      change ∃ r m', (OrderedMap.insertEntryIndex m₁.bucketLen m₁.buckets m₁.entries.values.length
        probe₁.bucketIndex probe₁.dist >>= _) = some (r, m') ∧ _
      rw [hB, hkey]
      refine ⟨_, _, rfl, hinv, .ok (by rw [← hlive]; exact hnew) hlt ?_ ?_⟩
      · rw [OrderedMapEntries.live_add, hlive]
      · rw [OrderedMapEntries.get_add, if_pos rfl]

theorem Inv.insert (h : Inv hash m) (hh : Consistent hash) (k : κ) (v : ν) :
    ∃ r m', m.insert hash (some k) v = some (r, m') ∧ Inv hash m' ∧ Inserted hash m k v r m' :=
  h.insert_of k v fun e _ => hh k e.key

/-! ## Lookup and removal -/

theorem Inv.lookup_of (h : Inv hash m)
    (hh : ∀ e ∈ m.entries.live, (k == e.key) = true → hash k = hash e.key) :
    ∃ r, m.lookup hash k = some r ∧
      r.bind m.entries.get = m.entries.live.find? fun f => k == f.key := by
  unfold OrderedMap.lookup
  split
  · next hsize =>
    refine ⟨none, rfl, ?_⟩
    rw [h.live_eq_nil hsize]
    rfl
  · obtain ⟨found, probe, hprobe, hp⟩ := h.probe_of hh
    rw [hprobe]
    cases found with
    | true =>
      obtain ⟨b, e, hb, he, hk⟩ := hp.entry rfl
      refine ⟨some b.entryIndex, ?_, ?_⟩
      · change some (if true then (m.buckets probe.bucketIndex).map Bucket.entryIndex else none) = _
        rw [if_pos rfl, hb]
        rfl
      · rw [Option.bind_some, he, h.content.find_of_get he hk]
    | false =>
      refine ⟨none, rfl, ?_⟩
      rw [Option.bind_none]
      exact (List.find?_eq_none.2 fun f hf => by simp [hp.none rfl f hf]).symm

omit [EquivBEq κ] in
/-- What is found is not deleted. -/
theorem Inv.get_of_lookup (h : Inv hash m)
    (hh : ∀ e ∈ m.entries.live, (k == e.key) = true → hash k = hash e.key)
    (hlookup : m.lookup hash k = some (some i)) : ∃ e, m.entries.get i = some e := by
  unfold OrderedMap.lookup at hlookup
  split at hlookup
  · cases hlookup
  · obtain ⟨found, probe, hprobe, hp⟩ := h.probe_of hh
    rw [hprobe] at hlookup
    cases found with
    | true =>
      obtain ⟨b, e, hb, he, -⟩ := hp.entry rfl
      change some (if true then (m.buckets probe.bucketIndex).map Bucket.entryIndex else none) =
        some (some i) at hlookup
      rw [if_pos rfl, hb] at hlookup
      cases hlookup
      exact ⟨e, he⟩
    | false => cases hlookup

theorem Inv.lookup (h : Inv hash m) (hh : Consistent hash) (k : κ) :
    ∃ r, m.lookup hash k = some r ∧
      r.bind m.entries.get = m.entries.live.find? fun f => k == f.key :=
  h.lookup_of fun e _ => hh k e.key

theorem Content.del (h : Content hash es) (he : es.get i = some e) (hk : (k == e.key) = true) :
    Content hash (es.del i) ∧ (es.del i).live = es.live.eraseP (fun f => k == f.key) ∧
      (es.del i).live.length + 1 = es.live.length := by
  obtain ⟨pre, post, hvalues, hlen, hl, hpre, hpost⟩ := h.split he hk
  have hdel : (es.del i).live = pre.filterMap id ++ post.filterMap id := by
    rw [← hlen]
    exact OrderedMapEntries.live_del hvalues
  have hsub : (es.del i).live.Sublist es.live := by
    rw [hdel, hl]
    exact (List.Sublist.refl _).append (List.sublist_cons_self _ _)
  have hlast : (es.del i).values.getLast? ≠ some none := by
    unfold OrderedMapEntries.del
    dsimp only
    intro hlast
    have hne : (es.values.set i none).rdropWhile Option.isNone ≠ [] := by
      intro hnil
      rw [hnil] at hlast
      cases hlast
    have := List.rdropWhile_last_not Option.isNone _ hne
    rw [List.getLast?_eq_some_getLast hne] at hlast
    rw [Option.some.inj hlast] at this
    exact this rfl
  refine ⟨⟨fun f hf => h.hashes f (hsub.mem hf), h.keys.sublist hsub, hlast, ?_, h.capacity⟩, ?_, ?_⟩
  · have hle := (List.rdropWhile_prefix Option.isNone (es.values.set i none)).length_le
    rw [List.length_set] at hle
    exact hle.trans h.room
  · rw [hdel, hl, List.eraseP_append_right _ fun f hf => by simp [hpre f hf],
      List.eraseP_cons_of_pos (by exact hk)]
  · rw [hdel, hl, List.length_append, List.length_append, List.length_cons]
    omega

theorem Inv.remove_entry (h : Inv hash m) {p : Nat} {b : Bucket} (hp : p < m.bucketLen.capacity)
    (hb : m.buckets p = some b) (he : m.entries.get b.entryIndex = some e)
    (hk : (k == e.key) = true) :
    ∃ B, OrderedMap.shiftLoop (m.bucketLen.setSize (m.bucketLen.size - 1)) m.bucketLen.capacity
        (Function.update m.buckets p none) p = some B ∧
      Inv hash { bucketLen := m.bucketLen.setSize (m.bucketLen.size - 1), buckets := B
                 entries := m.entries.del b.entryIndex } := by
  have hfour := h.four_le
  obtain ⟨hcontent, -, hlength⟩ := h.content.del he hk
  obtain ⟨q, hq, hfree⟩ := h.indexed.exists_free h.size_lt
  have hqp : q ≠ p := by
    rintro rfl
    rw [hb] at hfree
    cases hfree
  obtain ⟨j, hj, hjq⟩ := exists_steps hp hq
  have hcap : (m.bucketLen.setSize (m.bucketLen.size - 1)).capacity = m.bucketLen.capacity := rfl
  obtain ⟨B, hB, ht, hholds⟩ := shiftLoop_spec hcap (by omega) (h.indexed.table.hole hb) hp
    ⟨j, Nat.le_of_lt hj, by rw [hjq]; exact hqp, by
      rw [hjq, Function.update_of_ne hqp]
      exact hfree⟩
  have hholds' : ∀ i, Holds m.bucketLen.capacity B i ↔
      (m.entries.get i).isSome ∧ i ≠ b.entryIndex := by
    intro i
    rw [hholds, holds_clear, h.indexed.table.holds_other hp hb, h.indexed.holds]
  have hset : (m.bucketLen.setSize (m.bucketLen.size - 1)).size = m.size - 1 := by
    have := h.limit
    unfold maxSize OrderedMap.size at this
    exact Nat.mod_eq_of_lt (by omega)
  have hsize : m.size = (m.entries.del b.entryIndex).live.length + 1 := by
    rw [hlength]
    exact h.size
  refine ⟨B, hB, h.capExp, ?_, ?_, ?_, hcontent, ?_, ?_⟩
  · unfold OrderedMap.size
    rw [hset]
    have hload := h.load
    rw [hsize] at hload ⊢
    exact hload.of_succ
  · unfold OrderedMap.size
    rw [hset]
    exact (Nat.sub_le _ _).trans h.limit
  · unfold OrderedMap.size
    rw [hset, hsize]
    rfl
  · apply ht.congr
    intro i hi
    unfold OrderedMapEntries.home
    rw [OrderedMapEntries.get_del, if_neg ((hholds' i).1 hi).2]
  · intro i
    apply (hholds' i).trans
    rw [OrderedMapEntries.get_del]
    by_cases hi : i = b.entryIndex
    · rw [if_pos hi]
      exact ⟨fun hn => absurd hi hn.2, nofun⟩
    · rw [if_neg hi]
      exact ⟨And.left, fun hs => ⟨hs, hi⟩⟩

theorem Inv.remove (h : Inv hash m) (hh : Consistent hash) (k : κ) :
    ∃ m', m.remove hash k = some (m.entries.live.find? (fun f => k == f.key), m') ∧ Inv hash m' ∧
      m'.entries.live = m.entries.live.eraseP fun f => k == f.key := by
  unfold OrderedMap.remove
  split
  · next hsize =>
    refine ⟨m, ?_, h, ?_⟩
    · rw [h.live_eq_nil hsize]
      rfl
    · rw [h.live_eq_nil hsize]
      rfl
  · obtain ⟨found, probe, hprobe, hp⟩ := h.probe hh k
    rw [hprobe]
    cases found with
    | true =>
      obtain ⟨b, e, hb, he, hk⟩ := hp.entry rfl
      have hlt : probe.bucketIndex < m.bucketLen.capacity := by
        rw [← hp.pos]
        exact Nat.mod_lt _ (Nat.lt_of_lt_of_le (by decide) h.four_le)
      obtain ⟨B, hB, hinv⟩ := h.remove_entry hlt hb he hk
      refine ⟨_, ?_, hinv, (h.content.del he hk).2.1⟩
      rw [h.content.find_of_get he hk]
      dsimp only [bind, Option.bind]
      rw [hb]
      change (OrderedMap.shiftLoop (m.bucketLen.setSize (m.bucketLen.size - 1))
        m.bucketLen.capacity (Function.update m.buckets probe.bucketIndex none)
        probe.bucketIndex >>= _) = _
      rw [hB, he]
      rfl
    | false =>
      have hnone : ∀ f ∈ m.entries.live, ¬ (k == f.key) = true := fun f hf => by
        simp [hp.none rfl f hf]
      refine ⟨m, ?_, h, ?_⟩
      · rw [List.find?_eq_none.2 hnone]
        rfl
      · exact (List.eraseP_of_forall_not hnone).symm

end

/-! ## Clearing -/

theorem Inv.clear (h : Inv hash m) : Inv hash m.clear ∧ m.clear.entries.live = [] := by
  unfold OrderedMap.clear
  split
  · next hsize => exact ⟨h, h.live_eq_nil hsize⟩
  · refine ⟨⟨h.capExp, ?_, Nat.zero_le _, rfl, ?_, table_empty _ _, fun i => ?_⟩, rfl⟩
    · change Loaded 0 _
      unfold Loaded
      omega
    · exact ⟨nofun, .nil, nofun, Nat.zero_le _, h.content.capacity⟩
    · exact ⟨fun hi => absurd hi not_holds_empty, nofun⟩

/-! ## Values -/

theorem modify_append {α : Type*} (pre : List α) (x : α) (post : List α) (f : α → α) :
    (pre ++ x :: post).modify pre.length f = pre ++ f x :: post := by
  induction pre with
  | nil => rfl
  | cons y pre ih => simpa using ih

omit [BEq κ] in
theorem get_setValue (v : ν) (j : Nat) : (es.setValue i v).get j =
    (es.get j).map fun e => if i = j then { e with value := v } else e := by
  unfold OrderedMapEntries.setValue OrderedMapEntries.get
  dsimp only
  rw [List.getElem?_modify]
  cases es.values[j]? with
  | none => rfl
  | some o => cases o <;> by_cases hij : i = j <;> simp [hij]

theorem Inv.setValue [EquivBEq κ] (h : Inv hash m) (he : m.entries.get i = some e)
    (hk : (k == e.key) = true) (v : ν) :
    Inv hash { m with entries := m.entries.setValue i v } ∧
      (m.entries.setValue i v).live =
        m.entries.live.map fun f => if k == f.key then { f with value := v } else f := by
  obtain ⟨pre, post, hvalues, hlen, hl, hpre, hpost⟩ := h.content.split he hk
  have hother : ∀ fs : List (Entry κ ν), (∀ f ∈ fs, (k == f.key) = false) →
      fs.map (fun f => if k == f.key then { f with value := v } else f) = fs := by
    intro fs hfs
    refine (List.map_congr_left fun f hf => ?_).trans (List.map_id' _)
    rw [hfs f hf, if_neg Bool.false_ne_true]
  have hlive : (m.entries.setValue i v).live =
      m.entries.live.map fun f => if k == f.key then { f with value := v } else f := by
    rw [hl, List.map_append, List.map_cons, hother _ hpre, hother _ hpost, hk, if_pos rfl]
    unfold OrderedMapEntries.setValue OrderedMapEntries.live
    dsimp only
    rw [hvalues, ← hlen, modify_append]
    simp
  have hkey : ∀ f : Entry κ ν, (if k == f.key then { f with value := v } else f).key = f.key ∧
      (if k == f.key then { f with value := v } else f).hash = f.hash := by
    intro f
    split <;> exact ⟨rfl, rfl⟩
  have hsome : ∀ j, ((m.entries.setValue i v).get j).isSome = (m.entries.get j).isSome := by
    intro j
    rw [get_setValue, Option.isSome_map]
  refine ⟨⟨h.capExp, h.load, h.limit, ?_, ⟨?_, ?_, ?_, ?_, h.content.capacity⟩, ?_, ?_⟩, hlive⟩
  · rw [hlive, List.length_map]
    exact h.size
  · rw [hlive]
    intro f hf
    obtain ⟨g, hg, rfl⟩ := List.mem_map.1 hf
    rw [(hkey g).1, (hkey g).2]
    exact h.content.hashes g hg
  · rw [hlive, List.pairwise_map]
    refine h.content.keys.imp fun {f g} hfg => ?_
    rw [(hkey f).1, (hkey g).1]
    exact hfg
  · have hlast := h.content.last
    rw [List.getLast?_eq_getElem?] at hlast ⊢
    unfold OrderedMapEntries.setValue
    dsimp only
    rw [List.length_modify, List.getElem?_modify]
    intro hnone
    obtain ⟨o, ho, hmod⟩ := Option.map_eq_some_iff.1 hnone
    cases o with
    | none => exact hlast ho
    | some f => split at hmod <;> cases hmod
  · unfold OrderedMapEntries.setValue
    rw [List.length_modify]
    exact h.content.room
  · apply h.indexed.table.congr
    intro j _
    unfold OrderedMapEntries.home
    dsimp only
    rw [get_setValue]
    cases m.entries.get j with
    | none => rfl
    | some f =>
      dsimp only [Option.map_some, Option.elim_some]
      split <;> rfl
  · intro j
    dsimp only
    rw [hsome]
    exact h.indexed.holds j

end Arsh.Map
