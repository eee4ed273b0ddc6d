import Arsh.Map.Operations

/-!
# Ordered maps are maps that keep the order of insertion

The abstract map is the list of its entries. Every run of operations, from the empty map on, gives
what the abstract map gives and ends with its entries (`run_refines`); the table is in order after
every operation.
-/

namespace Arsh.Map

variable {κ ν : Type} [BEq κ]

inductive Op (κ ν : Type) where
  | insert (key : Option κ) (value : ν)
  | put (key : Option κ) (value : ν)
  | remove (key : κ)
  | clear
  | lookup (key : κ)

/-- What an operation gives; an index stands for the entry that is there. -/
inductive Ret (κ ν : Type) where
  | insert (status : InsertStatus) (entry : Option (κ × ν))
  | put (result : PutResult ν)
  | entry (entry : Option (κ × ν))
  | none

/-! ## The abstract map -/

namespace Spec

def find (es : List (κ × ν)) (key : κ) : Option (κ × ν) := es.find? fun e => key == e.1

def step (es : List (κ × ν)) : Op κ ν → Ret κ ν × List (κ × ν)
  | .insert none _ => (.insert .invalidKey none, es)
  | .insert (some key) value =>
    match find es key with
    | some e => (.insert .inserted (some e), es)
    | none =>
      if es.length = maxSize then (.insert .limit none, es)
      else (.insert .ok (some (key, value)), es ++ [(key, value)])
  | .put none _ => (.put .invalid, es)
  | .put (some key) value =>
    match find es key with
    | some e => (.put (.old e.2), es.map fun e => if key == e.1 then (e.1, value) else e)
    | none =>
      if es.length = maxSize then (.put .error, es) else (.put .invalid, es ++ [(key, value)])
  | .remove key => (.entry (find es key), es.eraseP fun e => key == e.1)
  | .clear => (.none, [])
  | .lookup key => (.entry (find es key), es)

def run (es : List (κ × ν)) : List (Op κ ν) → List (Ret κ ν) × List (κ × ν)
  | [] => ([], es)
  | op :: ops =>
    let (r, es) := step es op
    let (rs, es) := run es ops
    (r :: rs, es)

end Spec

/-! ## Runs -/

namespace OrderedMap

def pair (e : Entry κ ν) : κ × ν := (e.key, e.value)

/-- The entries of a map. -/
def toMap (m : OrderedMap κ ν) : List (κ × ν) := m.entries.live.map pair

def step (hash : κ → UInt64) (m : OrderedMap κ ν) : Op κ ν → Option (Ret κ ν × OrderedMap κ ν)
  | .insert key value => do
    let ((index, status), m) ← m.insert hash key value
    return (.insert status ((index.bind m.entries.get).map pair), m)
  | .put key value => do
    let (r, m) ← m.put hash key value
    return (.put r, m)
  | .remove key => do
    let (e, m) ← m.remove hash key
    return (.entry (e.map pair), m)
  | .clear => some (.none, m.clear)
  | .lookup key => do
    let index ← m.lookup hash key
    return (.entry ((index.bind m.entries.get).map pair), m)

def run (hash : κ → UInt64) (m : OrderedMap κ ν) :
    List (Op κ ν) → Option (List (Ret κ ν) × OrderedMap κ ν)
  | [] => some ([], m)
  | op :: ops => do
    let (r, m) ← m.step hash op
    let (rs, m) ← m.run hash ops
    return (r :: rs, m)

end OrderedMap

/-- The table is one of robin hood hashing: a bucket has the distance from where its key belongs,
nobody is in front of somebody who is further away, and a search finds every key. -/
structure RobinHood (hash : κ → UInt64) (m : OrderedMap κ ν) : Prop where
  dist : ∀ p, p < m.bucketLen.capacity → ∀ b, m.buckets p = some b →
    ∃ e, m.entries.get b.entryIndex = some e ∧
      b.distanceToInitBucketIndex < m.bucketLen.capacity ∧
      (m.bucketLen.toBucketIndex (hash e.key) + b.distanceToInitBucketIndex) %
        m.bucketLen.capacity = p
  order : ∀ p, p < m.bucketLen.capacity → ∀ b, m.buckets (m.bucketLen.nextBucketIndex p) = some b →
    0 < b.distanceToInitBucketIndex → ∃ c, m.buckets p = some c ∧
      b.distanceToInitBucketIndex ≤ c.distanceToInitBucketIndex + 1
  probe : ∀ i e, m.entries.get i = some e → ∃ probe b,
    m.probeBuckets hash e.key = some (true, probe) ∧
      m.buckets probe.bucketIndex = some b ∧ b.entryIndex = i

variable [EquivBEq κ] {hash : κ → UInt64} {m : OrderedMap κ ν}

theorem Inv.robinHood (h : Inv hash m) (hh : Consistent hash) : RobinHood hash m where
  dist p hp b hb := by
    obtain ⟨e, he⟩ := Option.isSome_iff_exists.1 ((h.indexed.holds _).1 ⟨p, hp, b, hb, rfl⟩)
    refine ⟨e, he, h.indexed.dist_lt h.size_lt hp hb, ?_⟩
    have hdist := h.indexed.table.dist p hp b hb
    rw [OrderedMapEntries.home_of_get he,
      h.content.hashes e (OrderedMapEntries.mem_live.2 ⟨_, he⟩)] at hdist
    unfold BucketLen.toBucketIndex
    rw [Nat.mod_add_mod]
    exact hdist
  order p hp b hb hpos := by
    obtain ⟨d, hd⟩ : ∃ d, b.distanceToInitBucketIndex = d + 1 :=
      ⟨b.distanceToInitBucketIndex - 1, by omega⟩
    have hnext : dists m.buckets ((p + 1) % m.bucketLen.capacity) = some (d + 1) := by
      rw [← hd]
      exact dists_of_bucket hb
    obtain ⟨e, he, hle⟩ := h.indexed.table.order p hp d hnext
    obtain ⟨c, hc, rfl⟩ := Option.map_eq_some_iff.1 he
    exact ⟨c, hc, by omega⟩
  probe i e he := by
    obtain ⟨found, probe, hprobe, hp⟩ := h.probe hh e.key
    have hmem : e ∈ m.entries.live := OrderedMapEntries.mem_live.2 ⟨i, he⟩
    cases found with
    | false =>
      have := hp.none rfl e hmem
      rw [BEq.refl] at this
      cases this
    | true =>
      obtain ⟨b, f, hb, hf, hk⟩ := hp.entry rfl
      refine ⟨probe, b, hprobe, hb, ?_⟩
      -- no other entry has the key
      obtain ⟨q, hq, c, hc, rfl⟩ := (h.indexed.holds i).2 (by rw [he]; rfl)
      by_contra hne
      obtain ⟨pre, post, hvalues, hlen, -, hpre, hpost⟩ := h.content.split hf hk
      rw [OrderedMapEntries.get_eq_some, hvalues] at he
      have hcases : some e ∈ pre ∨ some e ∈ post := by
        rcases Nat.lt_trichotomy c.entryIndex pre.length with hlt | heq | hgt
        · rw [List.getElem?_append_left hlt] at he
          exact .inl (List.mem_of_getElem? he)
        · omega
        · obtain ⟨j, hj⟩ : ∃ j, c.entryIndex = pre.length + (j + 1) :=
            ⟨c.entryIndex - pre.length - 1, by omega⟩
          rw [hj, List.getElem?_append_right (Nat.le_add_right _ _),
            Nat.add_sub_cancel_left, List.getElem?_cons_succ] at he
          exact .inr (List.mem_of_getElem? he)
      have hfalse : (e.key == e.key) = false := by
        rcases hcases with hmem | hmem
        · exact hpre e (List.mem_filterMap.2 ⟨some e, hmem, rfl⟩)
        · exact hpost e (List.mem_filterMap.2 ⟨some e, hmem, rfl⟩)
      rw [BEq.refl] at hfalse
      cases hfalse

/-! ## One step -/

omit [EquivBEq κ] in
theorem Inv.length_toMap (h : Inv hash m) : m.toMap.length = m.size := by
  unfold OrderedMap.toMap
  rw [List.length_map]
  exact h.size.symm

omit [EquivBEq κ] in
theorem find_toMap (m : OrderedMap κ ν) (k : κ) : Spec.find m.toMap k =
    (m.entries.live.find? fun f => k == f.key).map OrderedMap.pair := by
  unfold Spec.find OrderedMap.toMap
  rw [List.find?_map]
  rfl

theorem Inv.step_insert (h : Inv hash m) (hh : Consistent hash) (key : Option κ) (v : ν) :
    ∃ r m', m.step hash (.insert key v) = some (r, m') ∧ Inv hash m' ∧
      Spec.step m.toMap (.insert key v) = (r, m'.toMap) := by
  cases key with
  | none => exact ⟨_, m, rfl, h, rfl⟩
  | some k =>
    obtain ⟨r, m', hinsert, hinv, hspec⟩ := h.insert hh k v
    unfold OrderedMap.step Spec.step
    dsimp only
    rw [hinsert, find_toMap, h.length_toMap]
    refine ⟨_, m', rfl, hinv, ?_⟩
    cases hspec with
    | inserted he hk =>
      rw [h.content.find_of_get he hk, Option.bind_some, he]
      rfl
    | limit hnew hsize =>
      rw [List.find?_eq_none.2 fun f hf => by simp [hnew f hf]]
      dsimp only [Option.map_none]
      rw [if_pos hsize]
      rfl
    | ok hnew hsize hlive he =>
      rw [List.find?_eq_none.2 fun f hf => by simp [hnew f hf]]
      dsimp only [Option.map_none]
      rw [if_neg (by omega), Option.bind_some, he]
      unfold OrderedMap.toMap
      rw [hlive, List.map_append]
      rfl

theorem Inv.step_put (h : Inv hash m) (hh : Consistent hash) (key : Option κ) (v : ν) :
    ∃ r m', m.step hash (.put key v) = some (r, m') ∧ Inv hash m' ∧
      Spec.step m.toMap (.put key v) = (r, m'.toMap) := by
  cases key with
  | none => exact ⟨_, m, rfl, h, rfl⟩
  | some k =>
    obtain ⟨r, m', hinsert, hinv, hspec⟩ := h.insert hh k v
    unfold OrderedMap.step Spec.step OrderedMap.put
    dsimp only
    rw [hinsert, find_toMap, h.length_toMap]
    cases hspec with
    | inserted he hk =>
      obtain ⟨hset, hlive⟩ := h.setValue he hk v
      refine ⟨_, _, rfl, hset, ?_⟩
      rw [h.content.find_of_get he hk, he]
      unfold OrderedMap.toMap
      dsimp only [Option.map_some]
      rw [hlive, List.map_map, List.map_map]
      refine Prod.ext rfl (List.map_congr_left fun f _ => ?_)
      dsimp only [Function.comp, OrderedMap.pair]
      by_cases hf : (k == f.key) = true
      · rw [if_pos hf]
        exact if_pos hf
      · rw [if_neg hf]
        exact if_neg hf
    | limit hnew hsize =>
      refine ⟨_, _, rfl, hinv, ?_⟩
      rw [List.find?_eq_none.2 fun f hf => by simp [hnew f hf]]
      dsimp only [Option.map_none]
      rw [if_pos hsize]
    | ok hnew hsize hlive he =>
      refine ⟨_, _, rfl, hinv, ?_⟩
      rw [List.find?_eq_none.2 fun f hf => by simp [hnew f hf]]
      dsimp only [Option.map_none]
      rw [if_neg (by omega)]
      unfold OrderedMap.toMap
      rw [hlive, List.map_append]
      rfl

theorem Inv.step (h : Inv hash m) (hh : Consistent hash) (op : Op κ ν) :
    ∃ r m', m.step hash op = some (r, m') ∧ Inv hash m' ∧
      Spec.step m.toMap op = (r, m'.toMap) := by
  cases op with
  | insert key value => exact h.step_insert hh key value
  | put key value => exact h.step_put hh key value
  | remove key =>
    obtain ⟨m', hremove, hinv, hlive⟩ := h.remove hh key
    unfold OrderedMap.step Spec.step
    dsimp only
    rw [hremove, find_toMap]
    refine ⟨_, m', rfl, hinv, Prod.ext rfl ?_⟩
    unfold OrderedMap.toMap
    dsimp only
    rw [hlive, List.eraseP_map]
    rfl
  | clear =>
    obtain ⟨hinv, hlive⟩ := h.clear
    refine ⟨_, m.clear, rfl, hinv, Prod.ext rfl ?_⟩
    unfold OrderedMap.toMap
    rw [hlive]
    rfl
  | lookup key =>
    obtain ⟨r, hlookup, hr⟩ := h.lookup hh key
    unfold OrderedMap.step Spec.step
    dsimp only
    rw [hlookup, find_toMap, ← hr]
    exact ⟨_, m, rfl, h, rfl⟩

/-! ## Iteration -/

omit [BEq κ] [EquivBEq κ] in
theorem skipDeleted_spec {rest : List (Option (Entry κ ν))} (hne : rest.filterMap id ≠ [])
    (index : Nat) : ∃ e n, OrderedMap.skipDeleted rest index = some (e, index + (n + 1)) ∧
      rest.filterMap id = e :: (rest.drop (n + 1)).filterMap id := by
  induction rest generalizing index with
  | nil => exact absurd rfl hne
  | cons o rest ih =>
    cases o with
    | some e => exact ⟨e, 0, rfl, rfl⟩
    | none =>
      obtain ⟨e, n, hskip, hrest⟩ := ih hne (index + 1)
      refine ⟨e, n + 1, ?_, hrest⟩
      unfold OrderedMap.skipDeleted
      rw [hskip, Nat.add_assoc, Nat.add_comm 1]

omit [EquivBEq κ] in
theorem Inv.iterate (h : Inv hash m) (fuel index : Nat)
    (hfuel : m.entries.getUsedSize - index ≤ fuel) :
    m.iterate fuel index = some ((m.entries.values.drop index).filterMap id) := by
  induction fuel generalizing index with
  | zero =>
    unfold OrderedMapEntries.getUsedSize at hfuel
    unfold OrderedMap.iterate OrderedMap.hasNext OrderedMapEntries.getUsedSize
    rw [if_neg (by simp; omega), List.drop_of_length_le (by omega)]
    rfl
  | succ fuel ih =>
    unfold OrderedMap.iterate OrderedMap.hasNext
    unfold OrderedMapEntries.getUsedSize at hfuel ⊢
    split
    · next hlt =>
      have hlt : index < m.entries.values.length := by simpa using hlt
      -- the last entry is not deleted, so there is one ahead
      have hne : (m.entries.values.drop index).filterMap id ≠ [] := by
        have hdrop : (m.entries.values.drop index).getLast? = m.entries.values.getLast? := by
          rw [List.getLast?_drop, if_neg (by omega)]
        have hlast := h.content.last
        rw [← hdrop] at hlast
        cases ho : (m.entries.values.drop index).getLast? with
        | none =>
          rw [List.getLast?_eq_none_iff, List.drop_eq_nil_iff] at ho
          omega
        | some o =>
          cases o with
          | none => exact absurd ho hlast
          | some e =>
            have hmem : e ∈ (m.entries.values.drop index).filterMap id :=
              List.mem_filterMap.2 ⟨some e, List.mem_of_getLast? ho, rfl⟩
            exact List.ne_nil_of_mem hmem
      obtain ⟨e, n, hskip, hrest⟩ := skipDeleted_spec hne index
      unfold OrderedMap.nextEntry
      rw [hskip]
      have hih := ih (index + (n + 1)) (by
        unfold OrderedMapEntries.getUsedSize
        omega)
      dsimp only [bind, Option.bind]
      rw [hih, hrest, List.drop_drop]
      rfl
    · next hge =>
      have hge : m.entries.values.length ≤ index := by simpa using hge
      rw [List.drop_of_length_le hge]
      rfl

/-! ## Whole runs -/

omit [EquivBEq κ] in
theorem Inv.empty (hash : κ → UInt64) : Inv hash ({} : OrderedMap κ ν) where
  capExp := ⟨Nat.le_refl 2, Nat.le_add_right 2 26⟩
  load := by
    change 0 * _ ≤ _
    omega
  limit := Nat.zero_le _
  size := rfl
  content := ⟨nofun, .nil, nofun, Nat.le_refl _, .inl rfl, Nat.zero_le _⟩
  indexed := ⟨table_empty _ _, fun _ => ⟨fun hi => absurd hi not_holds_empty, nofun⟩⟩

theorem Inv.run (h : Inv hash m) (hh : Consistent hash) (ops : List (Op κ ν)) :
    ∃ rs m', m.run hash ops = some (rs, m') ∧ Inv hash m' ∧
      Spec.run m.toMap ops = (rs, m'.toMap) := by
  induction ops generalizing m with
  | nil => exact ⟨[], m, rfl, h, rfl⟩
  | cons op ops ih =>
    obtain ⟨r, m₁, hstep, hinv, hspec⟩ := h.step hh op
    obtain ⟨rs, m', hrun, hinv', hspec'⟩ := ih hinv
    refine ⟨r :: rs, m', ?_, hinv', ?_⟩
    · unfold OrderedMap.run
      rw [hstep]
      change (m₁.run hash ops >>= _) = _
      rw [hrun]
      rfl
    · unfold Spec.run
      rw [hspec]
      dsimp only
      rw [hspec']

/-- Whatever is done to an empty map, it gives what the abstract map gives; the entries, the size
and the order of iteration are those of the abstract map, and the table is in order. -/
theorem run_refines (hash : κ → UInt64) (hh : Consistent hash) (ops : List (Op κ ν)) :
    ∃ rs m, OrderedMap.run hash {} ops = some (rs, m) ∧
      Spec.run [] ops = (rs, m.toMap) ∧ m.size = m.toMap.length ∧
      (m.iterate m.entries.getUsedSize 0).map (List.map OrderedMap.pair) = some m.toMap ∧
      RobinHood hash m := by
  obtain ⟨rs, m, hrun, hinv, hspec⟩ := (Inv.empty hash).run hh ops
  refine ⟨rs, m, hrun, hspec, hinv.length_toMap.symm, ?_, hinv.robinHood hh⟩
  rw [hinv.iterate _ 0 (Nat.sub_le _ _), List.drop_zero]
  rfl

/-- Keys with one hash for all of them. -/
theorem run_refines_nat : ∃ rs m, OrderedMap.run (fun _ : Nat => 3) {}
      [.insert (some 1) 10, .insert (some 2) 20, .remove 1, .put (some 2) 30] = some (rs, m) ∧
    m.toMap = [(2, 30)] := by
  obtain ⟨rs, m, hrun, hspec, -⟩ := run_refines (fun _ : Nat => 3) (fun _ _ _ => rfl)
    [.insert (some 1) 10, .insert (some 2) 20, .remove 1, .put (some 2) 30]
  refine ⟨rs, m, hrun, ?_⟩
  exact (congrArg Prod.snd hspec).symm

end Arsh.Map
