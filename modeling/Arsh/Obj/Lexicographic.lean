import Arsh.Obj.Ordering

/-!
# The loop of ordering compares structures

`ordering_spec`: for values of one type that are nested below the limit, the result of `Ordering` has the sign
of their order. `equality_and_ordering` puts it together with `Equality`: the results are those of a total
preorder, and without maps 0 is what `Equality` says.
-/

namespace Arsh.Obj

open Map FrameStack

/-! ## Results -/

/-- What the comparison comes to: it ends with a result of the sign, or goes on. -/
def Settled {α : Type} (o : Except Int α) (a : α) : Ordering → Prop
  | .lt => ∃ r, o = .error r ∧ r < 0
  | .eq => o = .ok a
  | .gt => ∃ r, o = .error r ∧ 0 < r

section
variable {α : Type} {a : α} {o : Except Int α} {c : Ordering} {r : Int}

theorem settled_test (hr : compare r 0 = c) : Settled (Ordering.test r) ((), .pop) c := by
  subst hr
  unfold Ordering.test
  split
  · next hne =>
    rcases Int.lt_or_gt_of_ne hne with hr | hr
    · rw [Int.compare_eq_lt.2 hr]
      exact ⟨r, rfl, hr⟩
    · rw [Int.compare_eq_gt.2 hr]
      exact ⟨r, rfl, hr⟩
  · next heq =>
    rw [Decidable.not_not.1 heq, Std.ReflOrd.compare_self]
    rfl

theorem settled_compareSize (m n : Nat) :
    Settled (Ordering.compareSize m n) ((), .pop) (compare m n) := by
  unfold Ordering.compareSize
  rcases Nat.lt_trichotomy m n with hlt | heq | hgt
  · rw [if_pos hlt, Nat.compare_eq_lt.2 hlt]
    exact ⟨-1, rfl, by decide⟩
  · rw [if_neg (by omega), if_neg (by omega), Nat.compare_eq_eq.2 heq]
    rfl
  · rw [if_neg (by omega), if_pos hgt, Nat.compare_eq_gt.2 hgt]
    exact ⟨1, rfl, by decide⟩

end

/-- A number that has the sign of a difference. -/
theorem compare_sign {r m n : Int} (hlt : r < 0 ↔ m < n) (hgt : 0 < r ↔ n < m) :
    compare r 0 = compare m n := by
  rcases Int.lt_trichotomy m n with h | h | h
  · rw [Int.compare_eq_lt.2 h, Int.compare_eq_lt.2 (hlt.2 h)]
  · rw [Int.compare_eq_eq.2 h, Int.compare_eq_eq.2 (by omega)]
  · rw [Int.compare_eq_gt.2 h, Int.compare_eq_gt.2 (hgt.2 h)]

theorem stringCompare_cons (a b : UInt8) (s t : Bytes) : stringCompare (a :: s) (b :: t) =
    if a < b then -1 else if b < a then 1 else stringCompare s t := by
  unfold stringCompare
  simp only [List.length_cons, Nat.add_min_add_right, List.take_succ_cons, memcmp,
    Nat.add_lt_add_iff_right, Nat.add_right_cancel_iff]
  split
  · rfl
  split <;> rfl

theorem stringCompare_spec (s t : Bytes) : compare (stringCompare s t) 0 = compare s t := by
  induction s generalizing t with
  | nil => cases t <;> rfl
  | cons a s ih =>
    cases t with
    | nil => rfl
    | cons b t =>
      rw [stringCompare_cons]
      show _ = List.compareLex compare (a :: s) (b :: t)
      rw [List.compareLex_cons_cons]
      split
      · next hlt =>
        rw [Std.compare_eq_lt.2 hlt]
        rfl
      split
      · next hgt =>
        rw [Std.compare_eq_gt.2 hgt]
        rfl
      · next hlt hgt =>
        rw [Std.LawfulEqOrd.compare_eq_iff_eq.2 (UInt8.le_antisymm (UInt8.not_lt.1 hgt)
          (UInt8.not_lt.1 hlt))]
        exact ih t

/-! ## Values without parts -/

section
variable {pool : TypePool} {h : Heap} {ty : Ty} {T : Ty → Value → Prop} {frame : OrdFrame}
  {C : Value → Value → Ordering}

/-- Only the invalid value has its kind. -/
theorem kind_ne_invalid {x : Value} (hx : (view h x).isTyped = true) (hne : view h x ≠ .invalid) :
    x.kind ≠ Value.invalid.kind := by
  cases x with
  | internal => cases hx
  | invalid => exact absurd rfl hne
  | _ => exact nofun

/-- Values of a type, one of which has no parts, have the same kind if they are not invalid. -/
theorem ViewOk.same_leaf {u w : View} (hu : ViewOk pool h T ty u) (hw : ViewOk pool h T ty w)
    (hleaf : u.isLeaf = true ∨ w.isLeaf = true) (hne : u ≠ .invalid) (hne' : w ≠ .invalid) :
    (∃ s t, u = .str s ∧ w = .str t) ∨ (∃ m n, u = .int m ∧ w = .int n) ∨
      (∃ d e, u = .float d ∧ w = .float e) ∨ (∃ a b, u = .bool a ∧ w = .bool b) ∨
      ∃ m n, u = .sig m ∧ w = .sig n := by
  rcases hleaf with hleaf | hleaf
  · cases u <;> (try cases hleaf) <;> (try exact absurd rfl hne) <;> (try exact hu.elim) <;>
      unfold ViewOk at hu <;> cases w <;> (try exact absurd rfl hne') <;> (try exact hw.elim) <;>
      unfold ViewOk at hw <;> simp [hu] at hw ⊢
  · cases w <;> (try cases hleaf) <;> (try exact absurd rfl hne') <;> (try exact hw.elim) <;>
      unfold ViewOk at hw <;> cases u <;> (try exact absurd rfl hne) <;> (try exact hu.elim) <;>
      unfold ViewOk at hu <;> simp [hw] at hu ⊢

/-- Two values of a type, one of which has no parts. -/
theorem settled_leaf (hx : ViewOk pool h T ty (view h frame.x))
    (hy : ViewOk pool h T ty (view h frame.y))
    (hleaf : (view h frame.x).isLeaf = true ∨ (view h frame.y).isLeaf = true) :
    Settled (Ordering.step h () frame) ((), .pop)
      (cmpView C (view h frame.x) (view h frame.y)) := by
  have hsx := view_spec h frame.x
  have hsy := view_spec h frame.y
  have hkx := kind_ne_invalid (ViewOk.isTyped hx)
  have hky := kind_ne_invalid (ViewOk.isTyped hy)
  unfold Ordering.step
  rw [asStrRef_eq, asStrRef_eq, asInt_eq, asInt_eq, asFloat_eq, asFloat_eq]
  generalize view h frame.x = u at *
  generalize view h frame.y = w at *
  by_cases hu : u = .invalid
  · subst hu
    rw [hsx]
    by_cases hw : w = .invalid
    · subst hw
      rw [hsy]
      rfl
    · have hrank : cmpView C .invalid w = .lt := by
        cases w <;> first | rfl | exact absurd rfl hw
      rw [hrank]
      dsimp only
      rw [if_pos (hky hw).symm, if_pos rfl]
      exact ⟨-1, rfl, by decide⟩
  by_cases hw : w = .invalid
  · subst hw
    have hrank : cmpView C u .invalid = .gt := by
      cases u <;> first | rfl | exact absurd rfl hu
    have hne : frame.x ≠ .invalid := fun heq => hkx hu (by rw [heq])
    rw [hrank, hsy]
    cases u with
    | _ =>
      dsimp only
      rw [if_pos (hkx hu), if_neg hne, if_pos rfl]
      exact ⟨1, rfl, by decide⟩
  obtain ⟨s, t, rfl, rfl⟩ | ⟨m, n, rfl, rfl⟩ | ⟨d, e, rfl, rfl⟩ | ⟨a, b, rfl, rfl⟩ | ⟨m, n, rfl, rfl⟩ :=
    hx.same_leaf hy hleaf hu hw
  · rw [show cmpView C (.str s) (.str t) = compare s t from cmpView_bytes rfl rfl rfl rfl]
    exact settled_test (stringCompare_spec s t)
  · rw [show cmpView C (.int m) (.int n) = compare m n from cmpView_num rfl rfl rfl rfl]
    dsimp only
    rcases Int.lt_trichotomy m n with hlt | rfl | hgt
    · rw [if_neg (by omega), if_pos hlt, Int.compare_eq_lt.2 hlt]
      exact ⟨-1, rfl, by decide⟩
    · rw [if_pos rfl, Std.ReflOrd.compare_self]
      rfl
    · rw [if_neg (by omega), if_neg (by omega), Int.compare_eq_gt.2 hgt]
      exact ⟨1, rfl, by decide⟩
  · rw [show cmpView C (.float d) (.float e) = compare d.rank e.rank from
      cmpView_num rfl rfl rfl rfl]
    refine settled_test (compare_sign ?_ ?_) <;> rw [Double.compareByTotalOrder_eq] <;>
      split_ifs <;> omega
  · rw [show cmpView C (.bool a) (.bool b) = compare (if a then (1 : Int) else 0) (if b then 1 else 0)
      from cmpView_num rfl rfl rfl rfl, hsx, hsy]
    exact settled_test (compare_sign (by omega) (by omega))
  · rw [show cmpView C (.sig m) (.sig n) = compare m n from cmpView_num rfl rfl rfl rfl, hsx, hsy]
    exact settled_test (compare_sign (by omega) (by omega))

end

/-! ## Entries by their parts -/

section
variable {es : OrderedMapEntries Value Value} {e : Entry Value Value} {i k : Nat}

/-- The keys and values from an index on that counts both. -/
def ahead (es : OrderedMapEntries Value Value) (i : Nat) : List Value :=
  (((es.values.drop (i / 2)).filterMap id).flatMap fun e => [e.key, e.value]).drop (i % 2)

/-- An index of a value is that of an entry. -/
def PartOk (es : OrderedMapEntries Value Value) (i : Nat) : Prop :=
  i % 2 = 1 → (es.get (i / 2)).isSome

theorem drop_of_get (he : es.get k = some e) :
    es.values.drop k = some e :: es.values.drop (k + 1) := by
  obtain ⟨hlt, hget⟩ := List.getElem?_eq_some_iff.1 (OrderedMapEntries.get_eq_some.1 he)
  rw [List.drop_eq_getElem_cons hlt, hget]

theorem skipEmptyEntries2_eq : skipEmptyEntries2 es i =
    (skipEmptyEntries es (i / 2), i + 2 * (skipEmptyEntries es (i / 2) - i / 2)) := by
  unfold skipEmptyEntries2 skipEmptyEntries
  rw [Nat.add_sub_cancel_left]

/-- The next part and those behind it. -/
theorem skipEmptyEntries2_spec (hi : PartOk es i) :
    (skipEmptyEntries2 es i).2 % 2 = i % 2 ∧
      (es.get (skipEmptyEntries2 es i).1 = none → ahead es i = []) ∧
      ∀ e, es.get (skipEmptyEntries2 es i).1 = some e →
        PartOk es ((skipEmptyEntries2 es i).2 + 1) ∧
          ahead es i = (if (skipEmptyEntries2 es i).2 % 2 = 0 then e.key else e.value) ::
            ahead es ((skipEmptyEntries2 es i).2 + 1) := by
  obtain ⟨hget, htail⟩ := skipEmptyEntries_spec es (i / 2)
  have hle : i / 2 ≤ skipEmptyEntries es (i / 2) := Nat.le_add_right _ _
  rw [skipEmptyEntries2_eq]
  dsimp only
  generalize hk : skipEmptyEntries es (i / 2) = k at *
  refine ⟨by omega, fun hnone => ?_, fun e he => ?_⟩
  · rw [hnone] at hget
    unfold ahead
    rw [List.head?_eq_none_iff.1 hget.symm]
    exact List.drop_nil
  · have hlive : (es.values.drop (i / 2)).filterMap id = e :: (es.values.drop (k + 1)).filterMap id := by
      rw [htail]
      rw [he] at hget
      exact (List.cons_head?_tail hget.symm).symm
    rcases Nat.mod_two_eq_zero_or_one i with heven | hodd
    · have hhalf : (i + 2 * (k - i / 2) + 1) / 2 = k := by omega
      refine ⟨fun _ => by rw [hhalf, he]; rfl, ?_⟩
      unfold ahead
      rw [if_pos (by omega), hhalf, drop_of_get he, heven, hlive,
        show (i + 2 * (k - i / 2) + 1) % 2 = 1 by omega]
      rfl
    · -- the entry of a value is not skipped
      obtain ⟨f, hf⟩ := Option.isSome_iff_exists.1 (hi hodd)
      have hsame : k = i / 2 := by
        rw [← hk]
        unfold skipEmptyEntries
        rw [drop_of_get hf]
        rfl
      refine ⟨fun hmod => by omega, ?_⟩
      unfold ahead
      rw [if_neg (by omega), hodd, hlive, show (i + 2 * (k - i / 2) + 1) % 2 = 0 by omega,
        show (i + 2 * (k - i / 2) + 1) / 2 = k + 1 by omega]
      rfl

end

/-! ## Frames -/

/-- The first part that decides, or else what comes after all. -/
def lexFold {D : Type} (C : D → Ordering) (last : Ordering) (cs : List D) : Ordering :=
  cs.foldr (fun c r => (C c).then r) last

section
variable {D : Type} {C : D → Ordering} {last : Ordering} {item : D → Except Int Unit}
  {finish : Except Int Unit} {cs : List D}

theorem settled_traverse (hitem : ∀ c ∈ cs, Settled (item c) () (C c))
    (hfinish : Settled finish () last) :
    ∃ o, traverse (fun _ s => .ok s) (fun c _ => (item c).mapError .halt) (fun _ => finish) cs () =
        o.mapError Stop.halt ∧ Settled o () (lexFold C last cs) := by
  induction cs with
  | nil => exact ⟨finish, rfl, hfinish⟩
  | cons c cs ih =>
    obtain ⟨hc, hcs⟩ := List.forall_mem_cons.1 hitem
    obtain ⟨o, ho, hsettled⟩ := ih hcs
    show ∃ o, ((item c).mapError Stop.halt >>= _) = _ ∧ Settled o () ((C c).then (lexFold C last cs))
    cases hC : C c with
    | eq =>
      rw [hC] at hc
      rw [show item c = .ok () from hc]
      exact ⟨o, ho, hsettled⟩
    | lt | gt =>
      rw [hC] at hc
      obtain ⟨r, hr, hsign⟩ := hc
      rw [hr]
      exact ⟨.error r, rfl, r, rfl, hsign⟩

theorem compareSize_spec (m n : Nat) : ∃ o : Except Int Unit,
    Ordering.compareSize m n = o.map (fun s => (s, .pop)) ∧ Settled o () (compare m n) := by
  have hsize := settled_compareSize m n
  cases hc : compare m n with
  | eq =>
    rw [hc] at hsize
    exact ⟨.ok (), hsize, rfl⟩
  | lt | gt =>
    rw [hc] at hsize
    obtain ⟨r, hr, hsign⟩ := hsize
    exact ⟨.error r, hr, r, rfl, hsign⟩

theorem compare_succ (m n : Nat) : compare (m + 1) (n + 1) = compare m n := by
  rcases Nat.lt_trichotomy m n with hlt | rfl | hgt
  · rw [Nat.compare_eq_lt.2 hlt, Nat.compare_eq_lt.2 (Nat.succ_lt_succ hlt)]
  · rw [Std.ReflOrd.compare_self, Std.ReflOrd.compare_self]
  · rw [Nat.compare_eq_gt.2 hgt, Nat.compare_eq_gt.2 (Nat.succ_lt_succ hgt)]

theorem compare_double (m n : Nat) : compare m n = compare (2 * m) (2 * n) := by
  rcases Nat.lt_trichotomy m n with hlt | rfl | hgt
  · rw [Nat.compare_eq_lt.2 hlt, Nat.compare_eq_lt.2 (by omega)]
  · rw [Std.ReflOrd.compare_self, Std.ReflOrd.compare_self]
  · rw [Nat.compare_eq_gt.2 hgt, Nat.compare_eq_gt.2 (by omega)]

theorem compareLex_eq_lexFold {E : Value → Value → Ordering} {vs ws : List Value} :
    List.compareLex E vs ws =
      lexFold (fun p : Value × Value => E p.1 p.2) (compare vs.length ws.length) (vs.zip ws) := by
  induction vs generalizing ws with
  | nil => cases ws <;> rfl
  | cons v vs ih =>
    cases ws with
    | nil => rfl
    | cons w ws =>
      rw [List.compareLex_cons_cons, ih, List.length_cons, List.length_cons]
      show _ = (E v w).then (lexFold _ _ (vs.zip ws))
      rw [compare_succ]

end

section
variable {step : StepFun OrdFrame Unit Int} {frame : OrdFrame} {x y : Value} {r : Nat}
  {E : Value → Value → Ordering} {c : Value → Nat}

/-- What the loop does with a frame has the sign of the order. -/
def Ordered (step : StepFun OrdFrame Unit Int) (b r : Nat) (frame : OrdFrame) (order : Ordering) :
    Prop :=
  ∃ o : Except Int Unit, Below step b r () frame (o.mapError .halt) ∧ Settled o () order

theorem ordered_step {order : Ordering} (hstep : Settled (step () frame) ((), .pop) order)
    (k r : Nat) : Ordered step (k + 1) (r + 1) frame order := by
  cases order with
  | eq => exact ⟨.ok (), .pop hstep, rfl⟩
  | lt | gt =>
    obtain ⟨e, he, hsign⟩ := hstep
    exact ⟨.error e, .halt he, e, rfl, hsign⟩

theorem sum_zip_le {c : Value → Nat} {vs ws : List Value} :
    ((vs.zip ws).map fun p => c p.1).sum ≤ (vs.map c).sum := by
  induction vs generalizing ws with
  | nil => exact Nat.le_refl _
  | cons v vs ih =>
    cases ws with
    | nil => exact Nat.zero_le _
    | cons w ws =>
      have := @ih ws
      simp only [List.zip_cons_cons, List.map_cons, List.sum_cons]
      omega

/-- Parts are compared in pairs, and then how many there are. -/
theorem ordered_pairs {P : OrdFrame → List (Value × Value) → Prop} {vs ws : List Value} {m n : Nat}
    (hnil : ∀ f, P f [] → step () f = Ordering.compareSize m n)
    (hcons : ∀ f p ps, P f (p :: ps) → ∃ f', P f' ps ∧
      step () f = .ok ((), .push f' { x := p.1, y := p.2 }))
    (hitem : ∀ p ∈ vs.zip ws, Ordered step (c p.1) r { x := p.1, y := p.2 } (E p.1 p.2))
    (hsize : compare m n = compare vs.length ws.length) (hf : P frame (vs.zip ws)) :
    Ordered step ((vs.map fun v => c v + 1).sum + 1) (r + 1) frame (List.compareLex E vs ws) := by
  obtain ⟨finish, hfinish, hlast⟩ := compareSize_spec m n
  choose! item hbelow hsettled using hitem
  have hpush : ∀ f p ps (u : Unit), P f (p :: ps) → ∃ f', P f' ps ∧
      step u f = (Except.ok u).map fun s => (s, .push f' { x := p.1, y := p.2 }) :=
    fun f p ps u h => hcons f p ps h
  have hpop : ∀ f (u : Unit), P f [] → step u f = finish.map fun s => (s, .pop) :=
    fun f u h => (hnil f h).trans hfinish
  have hrun := below_traverse (r := r) (s := ()) hpop hpush (fun p hp _ => hbelow p hp) hf
  obtain ⟨o, ho, hend⟩ := settled_traverse hsettled hlast
  rw [ho] at hrun
  rw [compareLex_eq_lexFold, ← hsize]
  have hcost := @sum_zip_le (fun v => c v + 1) vs ws
  exact ⟨o, hrun.mono (Nat.succ_le_succ hcost), hend⟩

/-- Elements, or fields. -/
theorem ordered_elements {vs ws : List Value}
    (hstep : ∀ i, step () { x := x, y := y, xi := i, yi := i } =
      match vs[i]?, ws[i]? with
      | some v, some w =>
        .ok ((), .push { x := x, y := y, xi := i + 1, yi := i + 1 } { x := v, y := w })
      | _, _ => Ordering.compareSize vs.length ws.length)
    (hitem : ∀ p ∈ vs.zip ws, Ordered step (c p.1) r { x := p.1, y := p.2 } (E p.1 p.2)) :
    Ordered step ((vs.map fun v => c v + 1).sum + 1) (r + 1) { x := x, y := y }
      (List.compareLex E vs ws) := by
  refine ordered_pairs (P := AtPairs x y (vs.zip ws)) ?_ ?_ hitem rfl ⟨0, rfl, rfl⟩
  · rintro f ⟨i, rfl, hi⟩
    have hle := List.drop_eq_nil_iff.1 hi.symm
    rw [List.length_zip] at hle
    rw [hstep i]
    rcases Nat.le_total vs.length ws.length with hvs | hws
    · rw [List.getElem?_eq_none (by omega : vs.length ≤ i)]
    · rw [List.getElem?_eq_none (by omega : ws.length ≤ i)]
      cases vs[i]? <;> rfl
  · rintro f p ps ⟨i, rfl, hi⟩
    refine ⟨_, ⟨i + 1, rfl, ?_⟩, ?_⟩
    · rw [← List.tail_drop, ← hi]
      rfl
    · have hget : (vs.zip ws)[i]? = some p := by
        rw [← List.head?_drop, ← hi]
        rfl
      obtain ⟨hv, hw⟩ := List.getElem?_zip_eq_some.1 hget
      rw [hstep i, hv, hw]

/-- The frame has come to the parts of entries. -/
def AtParts (x y : Value) (m n : OrderedMap Value Value) (f : OrdFrame)
    (ps : List (Value × Value)) : Prop :=
  ∃ i j, f = { x := x, y := y, xi := i, yi := j } ∧ i % 2 = j % 2 ∧ PartOk m.entries i ∧
    PartOk n.entries j ∧ ps = (ahead m.entries i).zip (ahead n.entries j)

theorem ahead_zero (es : OrderedMapEntries Value Value) :
    ahead es 0 = es.live.flatMap fun e => [e.key, e.value] := rfl

theorem length_parts (es : List (Entry Value Value)) :
    (es.flatMap fun e => [e.key, e.value]).length = 2 * es.length := by
  induction es with
  | nil => rfl
  | cons e es ih =>
    rw [List.flatMap_cons, List.length_append, ih, List.length_cons]
    simp only [List.length_cons, List.length_nil]
    omega

/-- Keys and values, in the order of the entries. -/
theorem ordered_entries {m n : OrderedMap Value Value} (hm : m.size = m.entries.live.length)
    (hn : n.size = n.entries.live.length)
    (hstep : ∀ i j, step () { x := x, y := y, xi := i, yi := j } =
      match m.entries.get (skipEmptyEntries2 m.entries i).1,
        n.entries.get (skipEmptyEntries2 n.entries j).1 with
      | some e, some f => .ok ((), .push
        { x := x, y := y, xi := (skipEmptyEntries2 m.entries i).2 + 1
          yi := (skipEmptyEntries2 n.entries j).2 + 1 }
        { x := if (skipEmptyEntries2 m.entries i).2 % 2 = 0 then e.key else e.value
          y := if (skipEmptyEntries2 m.entries i).2 % 2 = 0 then f.key else f.value })
      | _, _ => Ordering.compareSize m.size n.size)
    (hitem : ∀ p ∈ (ahead m.entries 0).zip (ahead n.entries 0),
      Ordered step (c p.1) r { x := p.1, y := p.2 } (E p.1 p.2)) :
    Ordered step (((ahead m.entries 0).map fun v => c v + 1).sum + 1) (r + 1) { x := x, y := y }
      (List.compareLex E (ahead m.entries 0) (ahead n.entries 0)) := by
  have hsize : compare m.size n.size =
      compare (ahead m.entries 0).length (ahead n.entries 0).length := by
    rw [ahead_zero, ahead_zero, length_parts, length_parts, hm, hn, compare_double]
  refine ordered_pairs (P := AtParts x y m n) ?_ ?_ hitem hsize
    ⟨0, 0, rfl, rfl, nofun, nofun, rfl⟩
  · rintro f ⟨i, j, rfl, hij, hi, hj, hnil⟩
    obtain ⟨-, -, hsome⟩ := skipEmptyEntries2_spec hi
    obtain ⟨-, -, hsome'⟩ := skipEmptyEntries2_spec hj
    rw [hstep]
    cases he : m.entries.get (skipEmptyEntries2 m.entries i).1 with
    | none => rfl
    | some e =>
      cases hf : n.entries.get (skipEmptyEntries2 n.entries j).1 with
      | none => rfl
      | some f =>
        rw [(hsome e he).2, (hsome' f hf).2] at hnil
        cases hnil
  · rintro f p ps ⟨i, j, rfl, hij, hi, hj, hps⟩
    obtain ⟨hmod, hnone, hsome⟩ := skipEmptyEntries2_spec hi
    obtain ⟨hmod', hnone', hsome'⟩ := skipEmptyEntries2_spec hj
    rw [hstep]
    cases he : m.entries.get (skipEmptyEntries2 m.entries i).1 with
    | none =>
      rw [hnone he] at hps
      cases hps
    | some e =>
      cases hf : n.entries.get (skipEmptyEntries2 n.entries j).1 with
      | none =>
        rw [hnone' hf, List.zip_nil_right] at hps
        cases hps
      | some f =>
        obtain ⟨hok, hahead⟩ := hsome e he
        obtain ⟨hok', hahead'⟩ := hsome' f hf
        rw [hahead, hahead', List.zip_cons_cons] at hps
        obtain ⟨rfl, rfl⟩ := List.cons.inj hps
        refine ⟨_, ⟨_, _, rfl, by omega, hok, hok', rfl⟩, ?_⟩
        rw [hmod, hmod', hij]

end

/-! ## Values -/

section
variable {pool : TypePool} {h : Heap} {ty : Ty} {n r : Nat} {x y : Value}

theorem orderingStep_objects {frame : OrdFrame} {a b : Addr} (hx : frame.x = .object a)
    (hy : frame.y = .object b) (hleaf : (view h frame.x).isLeaf = false) :
    Ordering.step h () frame =
      if (h.get a).kind ≠ (h.get b).kind then .error ((h.get a).kind - (h.get b).kind)
      else if a = b then .ok ((), .pop)
      else Ordering.stepObject frame a b (h.get a) (h.get b) := by
  obtain ⟨hs, hi, hf⟩ := parts_eq_none hleaf
  unfold Ordering.step Ordering.stepKind
  rw [hs, hi, hf, hx, hy]
  rfl

/-- Keys are of one type, and values of another. -/
theorem typed_of_parts {T : Ty → Value → Prop} {key value : Ty} {es fs : List (Entry Value Value)}
    (hes : ∀ e ∈ es, T key e.key ∧ T value e.value) (hfs : ∀ f ∈ fs, T key f.key ∧ T value f.value) :
    ∀ p ∈ (es.flatMap fun e => [e.key, e.value]).zip (fs.flatMap fun e => [e.key, e.value]),
      ∃ ty, T ty p.1 ∧ T ty p.2 := by
  induction es generalizing fs with
  | nil => exact nofun
  | cons e es ih =>
    cases fs with
    | nil => exact nofun
    | cons f fs =>
      obtain ⟨⟨hk, hv⟩, hes⟩ := List.forall_mem_cons.1 hes
      obtain ⟨⟨hk', hv'⟩, hfs⟩ := List.forall_mem_cons.1 hfs
      refine List.forall_mem_cons.2 ⟨⟨key, hk, hk'⟩, List.forall_mem_cons.2 ⟨⟨value, hv, hv'⟩, ?_⟩⟩
      exact ih hes hfs

theorem ordered_cmp (hx : Typed pool h r ty x) (hy : Typed pool h r ty y) :
    Ordered (Ordering.step h) (cost h r x) r { x := x, y := y } (cmp h r x y) := by
  induction r generalizing ty x y with
  | zero => exact hx.elim
  | succ r ih =>
    have hxt : (view h x).isTyped = true := ViewOk.isTyped hx
    have hyt : (view h y).isTyped = true := ViewOk.isTyped hy
    show Ordered _ _ _ _ (cmpView (cmp h r) _ _)
    by_cases hleaf : (view h x).isLeaf = true ∨ (view h y).isLeaf = true
    · exact ordered_step (@settled_leaf pool h ty _ { x := x, y := y } _ hx hy hleaf) _ r
    · rw [not_or, Bool.not_eq_true, Bool.not_eq_true] at hleaf
      obtain ⟨a, rfl⟩ := object_of_parts hleaf.1 hxt
      obtain ⟨b, rfl⟩ := object_of_parts hleaf.2 hyt
      have hobjects : ∀ xi yi, Ordering.step h () ⟨.object a, .object b, xi, yi⟩ =
          if (h.get a).kind ≠ (h.get b).kind then .error ((h.get a).kind - (h.get b).kind)
          else if a = b then .ok ((), .pop)
          else Ordering.stepObject ⟨.object a, .object b, xi, yi⟩ a b (h.get a) (h.get b) :=
        fun xi yi => orderingStep_objects rfl rfl hleaf.1
      by_cases hab : a = b
      · subst hab
        have htrans := cmpView_transCmp (cmp_transCmp h r)
        have hrefl : cmpView (cmp h r) (view h (.object a)) (view h (.object a)) = .eq :=
          Std.ReflCmp.compare_self
        rw [hrefl]
        refine ordered_step ?_ _ r
        rw [hobjects, if_neg (fun hne => hne rfl), if_pos rfl]
        rfl
      · rw [cost_succ]
        unfold Typed at hx hy
        cases hvx : view h (.object a) with
        | array vs =>
          rw [hvx] at hx
          obtain ⟨elem, hdef, hvs⟩ := hx
          obtain ⟨ws, hvy, hws⟩ := ViewOk.array hy hleaf.2 hdef
          rw [hvy, @cmpView_children _ (.array vs) (.array ws) rfl rfl rfl]
          obtain ⟨_, ha, hobj⟩ := view_array hvx
          obtain ⟨_, hb, hobj'⟩ := view_array hvy
          cases ha
          cases hb
          refine ordered_elements (fun i => ?_) fun p hp => ?_
          · rw [hobjects, hobj, hobj', if_neg (fun hne => hne rfl), if_neg hab]
            rfl
          · obtain ⟨hv, hw⟩ := List.of_mem_zip hp
            exact ih (hvs _ hv) (hws _ hw)
        | map seed m =>
          rw [hvx] at hx
          obtain ⟨key, value, hdef, -, hes, hm⟩ := hx
          obtain ⟨seed', n, hvy, hfs, hn⟩ := ViewOk.map hy hleaf.2 hdef
          rw [hvy, @cmpView_children _ (.map seed m) (.map seed' n) rfl rfl rfl]
          obtain ⟨_, ha, hobj⟩ := view_map hvx
          obtain ⟨_, hb, hobj'⟩ := view_map hvy
          cases ha
          cases hb
          refine ordered_entries hm.size hn.size (fun i j => ?_) fun p hp => ?_
          · rw [hobjects, hobj, hobj', if_neg (fun hne => hne rfl), if_neg hab]
            rfl
          · obtain ⟨ty, hv, hw⟩ := typed_of_parts hes hfs p hp
            exact ih hv hw
        | base id hash vs =>
          rw [hvx] at hx
          obtain ⟨cached, fields, hdef, -, hvs, -⟩ := hx
          obtain ⟨id', hash', ws, hvy, hws⟩ := ViewOk.base hy hleaf.2 hdef
          rw [hvy, @cmpView_children _ (.base id hash vs) (.base id' hash' ws) rfl rfl rfl]
          obtain ⟨_, ha, hobj⟩ := view_base hvx
          obtain ⟨_, hb, hobj'⟩ := view_base hvy
          cases ha
          cases hb
          refine ordered_elements (fun i => ?_) fun p hp => ?_
          · rw [hobjects, hobj, hobj', if_neg (fun hne => hne rfl), if_neg hab]
            rfl
          · obtain ⟨ty, hv, hw⟩ := typed_of_zip hvs hws p hp
            exact ih hv hw
        | _ =>
          rw [hvx] at hleaf hxt
          first | (cases hleaf.1; done) | cases hxt

/-- The loop of `Ordering` ends with the result. -/
def OrderingReturns (h : Heap) (x y : Value) (r : Int) : Prop :=
  ∃ k, ∀ fuel, k ≤ fuel → ordering h fuel x y = some (r, false)

/-- The result of `Ordering` has the sign of the order. -/
theorem ordering_spec (hn : n < stackDepthLimit) (hx : Typed pool h n ty x)
    (hy : Typed pool h n ty y) :
    ∃ r, OrderingReturns h x y r ∧ compare r 0 = cmp h n x y := by
  obtain ⟨o, hbelow, hsettled⟩ := ordered_cmp hx hy
  have hnot : o.mapError Stop.halt ≠ .error Stop.overflow := by
    cases o <;> nofun
  have hroom : Below _ (cost h n x) (254 + 1) () _ _ :=
    hbelow.more_room hnot (Nat.le_of_lt_succ hn)
  have hrun : ∀ fuel, cost h n x + 1 ≤ fuel →
      run (Ordering.step h) stackDepthLimit fuel () [{ x := x, y := y }] =
        some (o.mapError .halt) := fun fuel hfuel => run_of_below hroom hfuel
  cases hc : cmp h n x y with
  | eq =>
    rw [hc] at hsettled
    refine ⟨0, ⟨cost h n x + 1, fun fuel hfuel => ?_⟩, rfl⟩
    unfold ordering
    rw [hrun fuel hfuel, show o = .ok () from hsettled]
    rfl
  | lt =>
    rw [hc] at hsettled
    obtain ⟨r, rfl, hr⟩ := hsettled
    refine ⟨r, ⟨cost h n x + 1, fun fuel hfuel => ?_⟩, Int.compare_eq_lt.2 hr⟩
    unfold ordering
    rw [hrun fuel hfuel]
    rfl
  | gt =>
    rw [hc] at hsettled
    obtain ⟨r, rfl, hr⟩ := hsettled
    refine ⟨r, ⟨cost h n x + 1, fun fuel hfuel => ?_⟩, Int.compare_eq_gt.2 hr⟩
    unfold ordering
    rw [hrun fuel hfuel]
    rfl

/-! ## Values without maps -/

/-- There is no map in a value, down to a depth. -/
def MapFree (h : Heap) : Nat → Value → Prop
  | 0, _ => True
  | n + 1, v => (∀ seed m, view h v ≠ .map seed m) ∧ ∀ c ∈ children (view h v), MapFree h n c

theorem compareLex_eq_iff {C : Value → Value → Ordering} {E : Value → Value → Bool}
    {vs ws : List Value} (hCE : ∀ v ∈ vs, ∀ w ∈ ws, C v w = .eq ↔ E v w = true) :
    List.compareLex C vs ws = .eq ↔ vs.isEqv ws E = true := by
  induction vs generalizing ws with
  | nil =>
    cases ws with
    | nil => exact ⟨fun _ => rfl, fun _ => rfl⟩
    | cons w ws => exact ⟨nofun, nofun⟩
  | cons v vs ih =>
    cases ws with
    | nil => exact ⟨nofun, nofun⟩
    | cons w ws =>
      rw [List.compareLex_cons_cons, Ordering.then_eq_eq, List.isEqv, Bool.and_eq_true,
        hCE v List.mem_cons_self w List.mem_cons_self,
        ih fun v hv w hw => hCE v (List.mem_cons_of_mem _ hv) w (List.mem_cons_of_mem _ hw)]

theorem cmpView_eq_iff {C : Value → Value → Ordering} {E : Value → Value → Bool} {u w : View}
    (hu : u.isTyped = true) (hw : w.isTyped = true) (hmap : ∀ seed m, u ≠ .map seed m)
    (hCE : ∀ a ∈ children u, ∀ b ∈ children w, C a b = .eq ↔ E a b = true) :
    cmpView C u w = .eq ↔ eqvView E u w = true := by
  rw [cmpView_eq, Ordering.then_eq_eq, Ordering.then_eq_eq, Ordering.then_eq_eq,
    Std.LawfulEqOrd.compare_eq_iff_eq, Std.LawfulEqOrd.compare_eq_iff_eq,
    Std.LawfulEqOrd.compare_eq_iff_eq, compareLex_eq_iff hCE]
  cases u <;> (try cases hu) <;> cases w <;> (try cases hw) <;> (try exact absurd rfl (hmap _ _))
  all_goals simp [View.rank, View.num, View.bytes, children, eqvView, rank_of_compare]
  case bool.refl.bool.refl a b => cases a <;> cases b <;> decide

theorem exists_of_forall₂ {α β : Type} {R : α → β → Prop} {l : List α} {m : List β}
    (hlm : List.Forall₂ R l m) : ∀ b ∈ m, ∃ a, R a b := by
  induction hlm with
  | nil => exact nofun
  | @cons a b l m hab _ ih => exact List.forall_mem_cons.2 ⟨⟨a, hab⟩, ih⟩

/-- The values in a value of a type are of types. -/
theorem typed_children {c : Value} (hx : Typed pool h (n + 1) ty x)
    (hc : c ∈ children (view h x)) : ∃ ty, Typed pool h n ty c := by
  unfold Typed at hx
  cases hview : view h x <;> rw [hview] at hx hc
  case array vs =>
    obtain ⟨elem, -, hvs⟩ := hx
    exact ⟨elem, hvs c hc⟩
  case map seed m =>
    obtain ⟨key, value, -, -, hes, -⟩ := hx
    obtain ⟨e, he, hc⟩ := List.mem_flatMap.1 hc
    rcases List.mem_pair.1 hc with rfl | rfl
    · exact ⟨key, (hes e he).1⟩
    · exact ⟨value, (hes e he).2⟩
  case base id hash vs =>
    obtain ⟨cached, fields, -, -, hvs, -⟩ := hx
    exact exists_of_forall₂ hvs c hc
  all_goals cases hc

/-- Without maps, values in the same place are those that are equal. -/
theorem cmp_eq_iff {tx ty : Ty} (hx : MapFree h n x) (hxt : Typed pool h n tx x)
    (hyt : Typed pool h n ty y) : cmp h n x y = .eq ↔ eqv h n x y = true := by
  induction n generalizing tx ty x y with
  | zero => exact hxt.elim
  | succ n ih =>
    obtain ⟨hmap, hchildren⟩ := hx
    apply cmpView_eq_iff (ViewOk.isTyped hxt) (ViewOk.isTyped hyt) hmap
    intro v hv w hw
    obtain ⟨_, hvt⟩ := typed_children hxt hv
    obtain ⟨_, hwt⟩ := typed_children hyt hw
    exact ih (hchildren v hv) hvt hwt

/-! ## Results -/

theorem OrderingReturns.unique {r r' : Int} (hr : OrderingReturns h x y r)
    (hr' : OrderingReturns h x y r') : r = r' := by
  obtain ⟨k, hk⟩ := hr
  obtain ⟨k', hk'⟩ := hr'
  have heq := (hk _ (Nat.le_add_right k k')).symm.trans (hk' _ (Nat.le_add_left k' k))
  exact congrArg Prod.fst (Option.some.inj heq)

/-- For values of one type that are nested below the limit, `Equality` is the equality of structures, and
`Ordering` has the sign of their order, which is a total preorder; without maps its 0 is that equality. -/
theorem equality_and_ordering {z : Value} (hn : n < stackDepthLimit) (hx : Typed pool h n ty x)
    (hy : Typed pool h n ty y) (hz : Typed pool h n ty z) :
    EqualityReturns h false x y (verdict (eqv h n x y)) ∧
      ∃ xy yx yz xz : Int, OrderingReturns h x y xy ∧ OrderingReturns h y x yx ∧
        OrderingReturns h y z yz ∧ OrderingReturns h x z xz ∧
        compare xy 0 = cmp h n x y ∧ (xy < 0 ↔ 0 < yx) ∧ (xy = 0 ↔ yx = 0) ∧
        (xy ≤ 0 → yz ≤ 0 → xz ≤ 0) ∧
        (MapFree h n x → (xy = 0 ↔ EqualityReturns h false x y (.ok ()))) := by
  have hequality := equalityReturns_of_typed hn hx hy
  obtain ⟨xy, hxy, hcxy⟩ := ordering_spec hn hx hy
  obtain ⟨yx, hyx, hcyx⟩ := ordering_spec hn hy hx
  obtain ⟨yz, hyz, hcyz⟩ := ordering_spec hn hy hz
  obtain ⟨xz, hxz, hcxz⟩ := ordering_spec hn hx hz
  have htrans := cmp_transCmp h n
  have hswap : cmp h n x y = (cmp h n y x).swap := htrans.eq_swap
  have hle : (cmp h n x y).isLE → (cmp h n y z).isLE → (cmp h n x z).isLE := htrans.isLE_trans
  rw [← hcxy, ← hcyx] at hswap
  rw [← hcxy, ← hcyz, ← hcxz] at hle
  refine ⟨hequality, xy, yx, yz, xz, hxy, hyx, hyz, hxz, hcxy, ?_, ?_, ?_, fun hfree => ?_⟩
  · rw [← Int.compare_eq_lt, ← Int.compare_eq_gt, hswap]
    cases compare yx 0 <;> simp
  · rw [← Int.compare_eq_eq, ← Int.compare_eq_eq, hswap]
    cases compare yx 0 <;> simp
  · rw [← Int.isLE_compare, ← Int.isLE_compare, ← Int.isLE_compare]
    exact hle
  · rw [← Int.compare_eq_eq, hcxy, cmp_eq_iff hfree hx hy]
    constructor
    · intro heq
      rw [heq] at hequality
      exact hequality
    · intro hok
      have heq := hequality.unique hok
      cases hc : eqv h n x y with
      | true => rfl
      | false =>
        rw [hc] at heq
        cases heq

end

/-- Arrays of records, with an integer in the value or in an object, and an invalid value. -/
def arrayPool : TypePool
  | 0 => .int
  | 1 => .base false [⟨false, 0⟩, ⟨true, 0⟩]
  | _ => .array ⟨false, 1⟩

def arrayHeap : Heap :=
  { get
      | 0 => .int 7
      | 1 => .base 1 0 [.smallInt 7, .invalid]
      | 2 => .base 1 0 [.object 0, .invalid]
      | 3 => .base 1 0 [.object 0, .smallInt 1]
      | 4 => .array [.object 1]
      | 5 => .array [.object 2]
      | _ => .array [.object 1, .object 3]
    rapidhash := rapidhashShort }

theorem typed_arrays (a : Addr) (ha : a ∈ [4, 5, 6]) :
    Typed arrayPool arrayHeap 3 ⟨false, 2⟩ (.object a) := by
  have h₁ : Typed arrayPool arrayHeap 2 ⟨false, 1⟩ (.object 1) :=
    ⟨false, _, rfl, rfl, .cons rfl (.cons rfl .nil), rfl⟩
  have h₂ : Typed arrayPool arrayHeap 2 ⟨false, 1⟩ (.object 2) :=
    ⟨false, _, rfl, rfl, .cons rfl (.cons rfl .nil), rfl⟩
  have h₃ : Typed arrayPool arrayHeap 2 ⟨false, 1⟩ (.object 3) :=
    ⟨false, _, rfl, rfl, .cons rfl (.cons rfl .nil), rfl⟩
  simp only [List.mem_cons, List.not_mem_nil, or_false] at ha
  rcases ha with rfl | rfl | rfl
  · exact ⟨⟨false, 1⟩, rfl, by simpa using h₁⟩
  · exact ⟨⟨false, 1⟩, rfl, by simpa using h₂⟩
  · exact ⟨⟨false, 1⟩, rfl, by simpa using ⟨h₁, h₃⟩⟩

theorem equality_and_ordering_sample :
    EqualityReturns arrayHeap false (.object 4) (.object 5) (.ok ()) ∧
      ∃ xz : Int, OrderingReturns arrayHeap (.object 4) (.object 6) xz ∧ compare xz 0 = .lt := by
  obtain ⟨heq, -⟩ := equality_and_ordering (by decide) (typed_arrays 4 (by decide))
    (typed_arrays 5 (by decide)) (typed_arrays 6 (by decide))
  obtain ⟨-, xz, -, -, -, hxz, -, -, -, hc, -⟩ := equality_and_ordering (by decide)
    (typed_arrays 4 (by decide)) (typed_arrays 6 (by decide)) (typed_arrays 6 (by decide))
  exact ⟨heq, xz, hxz, hc.trans (by decide)⟩

end Arsh.Obj
