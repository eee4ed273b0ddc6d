import Arsh.Tagged.Faithful

/-!
# Appending to a string

Pieces that are appended one after the other give their concatenation, in the eight bytes of the
value up to the sixth byte and in a string object from there on, as far as the string limit goes.
-/

namespace Arsh.Tagged

/-- A string that is not in an object of the heap `h₀`, which is still in `h`. -/
structure HasStr (h₀ h : Heap) (v : Value) (s : Bytes) : Prop where
  le : s.length ≤ maxSize
  frame : ∀ a c, h₀ a = some c → h a = some c
  value : SmallStr v s ∨
    hasTag v .object = true ∧ h₀ v = none ∧ ∃ n, h v = some ⟨n, .string s⟩

section
variable {A : Allocator} {h₀ h : Heap} {v : Value} {s c : Bytes} {cs : List Bytes} {n : BitVec 32}

theorem objectSize_eq (hle : s.length ≤ maxSize) : objectSize s = s.length :=
  Nat.mod_eq_of_lt (Nat.lt_of_le_of_lt hle (by decide))

theorem HasStr.asStrRef (hs : HasStr h₀ h v s) : asStrRef h v = some s := by
  rw [Tagged.asStrRef, isSmallStr]
  obtain hsmall | ⟨htag, -, n, hcell⟩ := hs.value
  · rw [hsmall.hasTag, if_pos rfl, hsmall.strData]
  · rw [hasTag_ne htag (show _ ≠ .string by decide), if_neg Bool.false_ne_true, hcell]
    dsimp only
    rw [objectSize_eq hs.le, List.take_length]

theorem HasStr.hasStrRef (hs : HasStr h₀ h v s) : hasStrRef h v = some true := by
  obtain hsmall | ⟨htag, -, n, hcell⟩ := hs.value
  · exact (classify_string hsmall.hasTag).2.2.2
  · exact (classify_object htag hcell).2.2.2

theorem HasStr.strSize (hs : HasStr h₀ h v s) : strSize h v = some s.length := by
  rw [Tagged.strSize, isSmallStr]
  obtain hsmall | ⟨htag, -, n, hcell⟩ := hs.value
  · rw [hsmall.hasTag, if_pos rfl, hsmall.size]
  · rw [hasTag_ne htag (show _ ≠ .string by decide), if_neg Bool.false_ne_true, hcell]
    dsimp only
    rw [objectSize_eq hs.le]

theorem createStr_hasStr (A : Allocator) (raw : TValue) (hle : s.length ≤ maxSize) (h : Heap) :
    createStr A raw s h = .error .badAlloc ∧ A.address h = none ∨
    ∃ v h', createStr A raw s h = .ok (v, h') ∧ HasStr h h' v s := by
  rw [createStr]
  split
  · next hsmall =>
    obtain ⟨v, hset, hv⟩ := set_spec raw hsmall
    rw [hset]
    exact .inr ⟨v, h, rfl, hle, fun _ _ => id, .inl hv⟩
  · obtain hfail | ⟨a, hcreate, hfresh, htag⟩ := create_spec A (.string s) h
    · exact .inl hfail
    · exact .inr ⟨a, _, hcreate, hle, fun _ _ => update_frame hfresh,
        .inr ⟨htag, hfresh, 1, Function.update_self ..⟩⟩

/-! ## One piece -/

theorem unsafeAppend_hasStr (hframe : ∀ a c, h₀ a = some c → h a = some c)
    (htag : hasTag v .object = true) (hfresh : h₀ v = none) (hcell : h v = some ⟨n, .string s⟩)
    (hle : s.length + c.length ≤ maxSize) :
    ∃ h', unsafeAppend v c h = .ok h' ∧ HasStr h₀ h' v (s ++ c) := by
  have hfree : ∀ a d, h₀ a = some d → a ≠ v := by
    rintro a d ha rfl
    rw [hfresh] at ha
    cases ha
  refine ⟨_, by rw [unsafeAppend, hcell], by rwa [List.length_append], fun a d ha => ?_,
    .inr ⟨htag, hfresh, n, Function.update_self ..⟩⟩
  rw [Function.update_of_ne (hfree a d ha)]
  exact hframe a d ha

/-- What the limit leaves is computed without a wrap. -/
theorem room_eq (hc : c.length ≤ maxSize) :
    (maxSize + 2 ^ 64 - c.length) % 2 ^ 64 = maxSize - c.length := by
  have hmax : maxSize = 2 ^ 31 - 1 := rfl
  omega

/-- A piece is appended, or the limit is raised and nothing is changed. -/
theorem appendAsStr_spec (hs : HasStr h₀ h v s) (hc : c.length ≤ maxSize) :
    appendAsStr A v c h = .error .badAlloc ∧ A.address h = none ∨
    ∃ v' h', appendAsStr A v c h = .ok (decide (s.length + c.length ≤ maxSize), v', h') ∧
      HasStr h₀ h' v' (if s.length + c.length ≤ maxSize then s ++ c else s) := by
  rw [appendAsStr]
  by_cases hnil : c = []
  · rw [if_pos hnil, hnil, List.length_nil, Nat.add_zero, decide_eq_true hs.le, if_pos hs.le,
      List.append_nil]
    exact .inr ⟨v, h, rfl, hs⟩
  rw [if_neg hnil, hs.strSize]
  dsimp only
  rw [room_eq hc]
  by_cases hle : s.length + c.length ≤ maxSize
  · rw [if_neg (by omega), decide_eq_true hle, if_pos hle]
    obtain hsmall | ⟨htag, hfresh, n, hcell⟩ := hs.value
    · rw [isSmallStr, hsmall.hasTag, Bool.true_and]
      by_cases hfits : s.length + c.length ≤ maxStrSize
      · obtain ⟨v', happend, hv'⟩ := append_spec hsmall hfits
        rw [if_pos (decide_eq_true hfits), happend]
        exact .inr ⟨v', h, rfl, by rwa [List.length_append], hs.frame, .inl hv'⟩
      · rw [decide_eq_false hfits, if_neg Bool.false_ne_true, if_pos rfl, hsmall.strData]
        obtain ⟨hcreate, haddr⟩ | ⟨a, hcreate, hfresh, htag⟩ := create_spec A (.string s) h
        · rw [hcreate]
          exact .inl ⟨rfl, haddr⟩
        have hrelease : ∀ h, release v h = .ok h := by
          intro h
          rw [release, isObject, hasTag_ne hsmall.hasTag (show _ ≠ .object by decide),
            if_neg Bool.false_ne_true]
        have hfresh₀ : h₀ a = none := by
          cases ha : h₀ a with
          | none => rfl
          | some d => rw [hs.frame a d ha] at hfresh; cases hfresh
        obtain ⟨h', happend, hstr⟩ := unsafeAppend_hasStr
          (fun b d hb => update_frame hfresh (hs.frame b d hb)) htag hfresh₀
          (Function.update_self a (some ⟨1, .string s⟩) h) hle
        refine .inr ⟨a, h', ?_, hstr⟩
        rw [hcreate]
        dsimp only [bind, Except.bind]
        rw [hrelease]
        dsimp only
        rw [happend]
    · obtain ⟨h', happend, hstr⟩ := unsafeAppend_hasStr hs.frame htag hfresh hcell hle
      rw [isSmallStr, hasTag_ne htag (show _ ≠ .string by decide), Bool.false_and,
        if_neg Bool.false_ne_true, if_neg Bool.false_ne_true, happend]
      exact .inr ⟨v, h', rfl, hstr⟩
  · rw [if_pos (by omega), decide_eq_false hle, if_neg hle]
    exact .inr ⟨v, h, rfl, hs⟩

/-! ## All pieces -/

/-- The pieces as far as the limit goes, and whether these are all. -/
def concatWithin (s : Bytes) : List Bytes → Bool × Bytes
  | [] => (true, s)
  | c :: cs => if s.length + c.length ≤ maxSize then concatWithin (s ++ c) cs else (false, s)

theorem concatWithin_of_le (h : s.length + cs.flatten.length ≤ maxSize) :
    concatWithin s cs = (true, s ++ cs.flatten) := by
  induction cs generalizing s with
  | nil => rw [concatWithin, List.flatten_nil, List.append_nil]
  | cons c cs ih =>
    rw [List.flatten_cons, List.length_append] at h
    rw [concatWithin, if_pos (by omega), ih (by rw [List.length_append]; omega), List.flatten_cons,
      List.append_assoc]

theorem concatWithin_of_gt (h : maxSize < s.length + cs.flatten.length) (hs : s.length ≤ maxSize) :
    ∃ k < cs.length, concatWithin s cs = (false, s ++ (cs.take k).flatten) := by
  induction cs generalizing s with
  | nil =>
    rw [List.flatten_nil, List.length_nil] at h
    omega
  | cons c cs ih =>
    rw [List.flatten_cons, List.length_append] at h
    rw [concatWithin]
    split
    · next hle =>
      obtain ⟨k, hk, hconcat⟩ := @ih (s ++ c) (by rw [List.length_append]; omega)
        (by rwa [List.length_append])
      refine ⟨k + 1, Nat.succ_lt_succ hk, ?_⟩
      rw [hconcat, List.take_succ_cons, List.flatten_cons, List.append_assoc]
    · exact ⟨0, Nat.succ_pos _, by rw [List.take_zero, List.flatten_nil, List.append_nil]⟩

theorem appendAll_spec (hs : HasStr h₀ h v s) (hcs : ∀ c ∈ cs, c.length ≤ maxSize) :
    (appendAll A v cs h = .error .badAlloc ∧ ∃ h', A.address h' = none) ∨
    ∃ v' h', appendAll A v cs h = .ok ((concatWithin s cs).1, v', h') ∧
      HasStr h₀ h' v' (concatWithin s cs).2 := by
  induction cs generalizing h v s with
  | nil => exact .inr ⟨v, h, rfl, hs⟩
  | cons c cs ih =>
    obtain ⟨hc, hcs⟩ := List.forall_mem_cons.1 hcs
    rw [appendAll, concatWithin]
    obtain ⟨hfail, haddr⟩ | ⟨v', h', happend, hv'⟩ := @appendAsStr_spec A h₀ h v s c hs hc
    · rw [hfail]
      exact .inl ⟨rfl, h, haddr⟩
    · rw [happend]
      by_cases hle : s.length + c.length ≤ maxSize
      · rw [if_pos hle] at hv'
        rw [decide_eq_true hle, if_pos hle]
        exact ih hv' hcs
      · rw [if_neg hle] at hv'
        rw [decide_eq_false hle, if_neg hle]
        exact .inr ⟨v', h', rfl, hv'⟩

end

/-- Appending gives the concatenation within the string limit, and what was appended before the
limit was raised otherwise. -/
def AppendFaithful (A : Allocator) (raw : TValue) (s : Str) (cs : List Str) : Prop :=
  ∀ h, ((createStr A raw s.1 h >>= fun (v, h) => appendAll A v (cs.map Subtype.val) h) =
      .error .badAlloc ∧ ∃ h', A.address h' = none) ∨
    ∃ ok v h', (createStr A raw s.1 h >>= fun (v, h) => appendAll A v (cs.map Subtype.val) h) =
        .ok (ok, v, h') ∧
      hasStrRef h' v = some true ∧ (∀ a c, h a = some c → h' a = some c) ∧
      (s.1.length + (cs.map Subtype.val).flatten.length ≤ maxSize →
        ok = true ∧ asStrRef h' v = some (s.1 ++ (cs.map Subtype.val).flatten)) ∧
      (maxSize < s.1.length + (cs.map Subtype.val).flatten.length → ok = false ∧
        ∃ k < cs.length, asStrRef h' v = some (s.1 ++ ((cs.map Subtype.val).take k).flatten))

theorem appendFaithful (A : Allocator) (raw : TValue) (s : Str) (cs : List Str) :
    AppendFaithful A raw s cs := by
  intro h
  obtain ⟨hfail, haddr⟩ | ⟨v, h₁, hcreate, hv⟩ := createStr_hasStr A raw s.2 h
  · rw [hfail]
    exact .inl ⟨rfl, h, haddr⟩
  rw [hcreate]
  have hcs : ∀ c ∈ cs.map Subtype.val, c.length ≤ maxSize := by
    intro c hc
    obtain ⟨c, -, rfl⟩ := List.mem_map.1 hc
    exact c.2
  obtain ⟨hfail, haddr⟩ | ⟨v', h', hall, hv'⟩ := @appendAll_spec A h h₁ v s.1 _ hv hcs
  · exact .inl ⟨hfail, haddr⟩
  refine .inr ⟨_, v', h', hall, hv'.hasStrRef, hv'.frame, fun hle => ?_, fun hgt => ?_⟩
  · have hconcat := concatWithin_of_le hle
    rw [hv'.asStrRef, hconcat]
    exact ⟨rfl, rfl⟩
  · obtain ⟨k, hk, hconcat⟩ := concatWithin_of_gt hgt s.2
    rw [List.length_map] at hk
    rw [hv'.asStrRef, hconcat]
    exact ⟨rfl, k, hk, rfl⟩

/-! ## The failing doubles -/

/-- Every source is represented faithfully but the doubles that are taken for an object, and strings
are appended faithfully. -/
theorem faithful_iff (A : Allocator) (raw : TValue) (src : Source) :
    (Faithful A raw src ↔ src.dangling = false) ∧ ∀ s cs, AppendFaithful A raw s cs := by
  refine ⟨⟨fun hfaithful => ?_, faithful_of_not_dangling A raw src⟩, appendFaithful A raw⟩
  cases h : src.dangling with
  | false => rfl
  | true => exact absurd hfaithful (not_faithful_of_dangling A raw src h)

/-- Memory for one object. -/
def oneObject : Allocator where
  address h := if (h 16).isNone then some 16 else none
  fresh h := by
    obtain ⟨hnone, heq⟩ := Option.ite_none_right_eq_some.1 h
    rw [← Option.some.inj heq]
    exact Option.isNone_iff_eq_none.1 hnone
  aligned h := by
    obtain ⟨-, heq⟩ := Option.ite_none_right_eq_some.1 h
    rw [← Option.some.inj heq]
    rfl

/-- The bits of `1e220`. -/
theorem not_faithful_1e220 : ¬Faithful oneObject 0 (.float 0x6D9C5416BB92E3E6) :=
  not_faithful_of_dangling _ _ _ (by decide)

end Arsh.Tagged
