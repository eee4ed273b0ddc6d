import Arsh.Lib.InsertionSort
import Arsh.Types.Subtype
import Mathlib.Data.List.Sort

/-!
# Common super types

The sorts of `TypePool::resolveCommonSuperType` of `type_pool.cpp`: the types without `Nothing?` are
sorted by their ids to drop those that are there twice, and sorted again by the subtype relation,
after which the first one must be a base of the others.

The relation is only a preorder on the types. `weakOrder_iff` says on which lists the comparator is
what `std::sort` asks for; `front_spec` says that the insertion sort brings a greatest type to the
front all the same.
-/

namespace Arsh.Types

open InsertionSort

def optNothing : Ty := .option (.builtin "Nothing")

/-- `std::unique`. -/
def unique : List Ty → List Ty
  | [] => []
  | [t] => [t]
  | t :: u :: ts => if t = u then unique (u :: ts) else t :: unique (u :: ts)

/-- The types with ids in order, each once. -/
def dedupById (typeId : Ty → Nat) (types : List Ty) : List Ty :=
  unique (types.insertionSort fun x y => typeId x ≤ typeId y)

/-- The comparator of the second sort. -/
def isBefore (same : Ty → Ty → Bool) (x y : Ty) : Bool := decide (x ≠ y) && same x y

/-- The types without `Nothing?` after both sorts. -/
def sortTypes (same : Ty → Ty → Bool) (typeId : Ty → Nat) (types : List Ty) : List Ty :=
  insertionSort (isBefore same) (dedupById typeId (types.filter fun t => t ≠ optNothing))

/-- The first type, if it is the same as the others or a base of them. -/
def frontType (same : Ty → Ty → Bool) : List Ty → Option Ty
  | [] => none
  | type :: rest => if rest.all (same type) then some type else none

section
variable {same : Ty → Ty → Bool} {typeId : Ty → Nat} {types types' : List Ty} {t u : Ty}

/-! ## Dropping duplicates -/

theorem mem_unique : t ∈ unique types ↔ t ∈ types := by
  induction types with
  | nil => rfl
  | cons a ts ih =>
    cases ts with
    | nil => rfl
    | cons b ts =>
      unfold unique
      split
      · next hab =>
        rw [ih, hab]
        simp only [List.mem_cons, or_self_left]
      · rw [List.mem_cons, ih, List.mem_cons (a := t) (b := a)]

/-- Types whose ids are in order, and tell them apart, have ids that grow. -/
theorem unique_pairwise (h : types.Pairwise fun x y => typeId x ≤ typeId y)
    (hid : ∀ x ∈ types, ∀ y ∈ types, typeId x = typeId y → x = y) :
    (unique types).Pairwise fun x y => typeId x < typeId y := by
  induction types with
  | nil => exact .nil
  | cons a ts ih =>
    have hid' : ∀ x ∈ ts, ∀ y ∈ ts, typeId x = typeId y → x = y := fun x hx y hy =>
      hid x (List.mem_cons_of_mem _ hx) y (List.mem_cons_of_mem _ hy)
    obtain ⟨ha, hts⟩ := List.pairwise_cons.1 h
    cases ts with
    | nil => exact List.pairwise_singleton _ _
    | cons b ts =>
      unfold unique
      split
      · exact ih hts hid'
      · next hab =>
        refine List.pairwise_cons.2 ⟨fun x hx => ?_, ih hts hid'⟩
        rw [mem_unique] at hx
        have hlt : typeId a < typeId b := by
          refine Nat.lt_of_le_of_ne (ha b List.mem_cons_self) fun he => hab ?_
          exact hid a List.mem_cons_self b (by simp) he
        rcases List.mem_cons.1 hx with rfl | hx
        · exact hlt
        · exact hlt.trans_le ((List.pairwise_cons.1 hts).1 x hx)

theorem dedupById_spec (hid : ∀ x ∈ types, ∀ y ∈ types, typeId x = typeId y → x = y) :
    (∀ t, t ∈ dedupById typeId types ↔ t ∈ types) ∧
      (dedupById typeId types).Pairwise fun x y => typeId x < typeId y := by
  have hperm := List.perm_insertionSort (fun x y => typeId x ≤ typeId y) types
  have hsorted : (types.insertionSort fun x y => typeId x ≤ typeId y).Pairwise
      fun x y => typeId x ≤ typeId y :=
    haveI : Std.Total fun x y => typeId x ≤ typeId y := ⟨fun x y => Nat.le_total _ _⟩
    haveI : IsTrans Ty fun x y => typeId x ≤ typeId y := ⟨fun _ _ _ => Nat.le_trans⟩
    List.pairwise_insertionSort _ types
  refine ⟨fun t => mem_unique.trans hperm.mem_iff, unique_pairwise hsorted ?_⟩
  intro x hx y hy
  exact hid x (hperm.mem_iff.1 hx) y (hperm.mem_iff.1 hy)

theorem mem_sortTypes (hid : ∀ x ∈ types, ∀ y ∈ types, typeId x = typeId y → x = y) :
    t ∈ sortTypes same typeId types ↔ t ∈ types ∧ t ≠ optNothing := by
  have hid' : ∀ x ∈ types.filter fun t => t ≠ optNothing,
      ∀ y ∈ types.filter fun t => t ≠ optNothing, typeId x = typeId y → x = y := fun x hx y hy =>
    hid x (List.mem_of_mem_filter hx) y (List.mem_of_mem_filter hy)
  unfold sortTypes
  rw [(insertionSort_perm _ _).mem_iff, (dedupById_spec hid').1, List.mem_filter,
    decide_eq_true_iff]

/-- The types with ids in order do not depend on the order that they came in. -/
theorem dedupById_perm (hid : ∀ x ∈ types, ∀ y ∈ types, typeId x = typeId y → x = y)
    (h : types.Perm types') : dedupById typeId types = dedupById typeId types' := by
  have hid' : ∀ x ∈ types', ∀ y ∈ types', typeId x = typeId y → x = y := fun x hx y hy =>
    hid x (h.mem_iff.2 hx) y (h.mem_iff.2 hy)
  obtain ⟨hmem, hlt⟩ := dedupById_spec hid
  obtain ⟨hmem', hlt'⟩ := dedupById_spec hid'
  have hne : ∀ {x y : Ty}, typeId x < typeId y → x ≠ y := fun hxy he => by
    rw [he] at hxy
    exact Nat.lt_irrefl _ hxy
  have hperm : (dedupById typeId types).Perm (dedupById typeId types') := by
    apply (List.perm_ext_iff_of_nodup (hlt.imp hne) (hlt'.imp hne)).2
    intro t
    rw [hmem, hmem', h.mem_iff]
  exact hperm.eq_of_pairwise (fun _ _ _ _ hxy hyx => absurd hxy (Nat.lt_asymm hyx)) hlt hlt'

theorem sortTypes_perm (hid : ∀ x ∈ types, ∀ y ∈ types, typeId x = typeId y → x = y)
    (h : types.Perm types') : sortTypes same typeId types = sortTypes same typeId types' := by
  unfold sortTypes
  rw [dedupById_perm _ (h.filter _)]
  exact fun x hx y hy => hid x (List.mem_of_mem_filter hx) y (List.mem_of_mem_filter hy)

/-! ## The greatest type -/

/-- `t` is the same as every one of the types, or a base of it. -/
def IsGreatest (same : Ty → Ty → Bool) (types : List Ty) (t : Ty) : Prop :=
  t ∈ types ∧ ∀ u ∈ types, same t u = true

/-- Where the relation is a preorder, the sort brings a greatest type to the front. -/
theorem front_spec
    (htrans : ∀ x ∈ types, ∀ y ∈ types, ∀ z ∈ types,
      same x y = true → same y z = true → same x z = true)
    (hn : types.Nodup) (hex : ∃ t, IsGreatest same types t) :
    ∃ t rest, insertionSort (isBefore same) types = t :: rest ∧ IsGreatest same types t := by
  have hlt : ∀ v ∈ types, ∀ w ∈ types, isBefore same v w = true →
      IsGreatest same types w → IsGreatest same types v := by
    intro v hv w hw hlt hgw
    have hvw := (Bool.and_eq_true_iff.1 hlt).2
    exact ⟨hv, fun u hu => htrans v hv w hw u hu hvw (hgw.2 u hu)⟩
  have hfirst : ∀ v ∈ types, ∀ w ∈ types, v ≠ w → IsGreatest same types v →
      isBefore same v w = true := by
    intro v _ w hw hne hv
    exact Bool.and_eq_true_iff.2 ⟨decide_eq_true hne, hv.2 w hw⟩
  obtain ⟨t, ht⟩ := hex
  obtain ⟨a, ha, hP⟩ := insertionSort_front hn hlt hfirst ⟨t, ht.1, ht⟩
  obtain ⟨rest, hrest⟩ := List.head?_eq_some_iff.1 ha
  exact ⟨a, rest, hrest, hP⟩

/-- A type that is found is a greatest one, and it is found if there is one. -/
theorem frontType_spec {rest : List Ty} (hrest : ∀ t, t ∈ rest ↔ t ∈ types ∧ t ≠ optNothing)
    (hid : ∀ x ∈ types, ∀ y ∈ types, typeId x = typeId y → x = y)
    (hrefl : ∀ x ∈ rest, same x x = true)
    (htrans : ∀ x ∈ rest, ∀ y ∈ rest, ∀ z ∈ rest,
      same x y = true → same y z = true → same x z = true) :
    (∀ t, frontType same (sortTypes same typeId types) = some t → IsGreatest same rest t) ∧
      ((∃ t, IsGreatest same rest t) →
        ∃ t, frontType same (sortTypes same typeId types) = some t) := by
  have hsorted : ∀ t, t ∈ sortTypes same typeId types ↔ t ∈ rest := fun t =>
    (mem_sortTypes hid).trans (hrest t).symm
  constructor
  · intro t ht
    unfold frontType at ht
    split at ht
    · cases ht
    · next type tail heq =>
      split at ht
      · next hall =>
        cases ht
        have htype : t ∈ rest := (hsorted t).1 (by rw [heq]; exact List.mem_cons_self)
        refine ⟨htype, fun u hu => ?_⟩
        rw [← hsorted, heq] at hu
        rcases List.mem_cons.1 hu with rfl | hu
        · exact hrefl _ htype
        · exact List.all_eq_true.1 hall u hu
      · cases ht
  · rintro ⟨g, hg⟩
    have hid' : ∀ x ∈ types.filter fun t => t ≠ optNothing,
        ∀ y ∈ types.filter fun t => t ≠ optNothing, typeId x = typeId y → x = y := fun x hx y hy =>
      hid x (List.mem_of_mem_filter hx) y (List.mem_of_mem_filter hy)
    obtain ⟨hmem, hlt⟩ := dedupById_spec hid'
    have hrest' : ∀ t, t ∈ dedupById typeId (types.filter fun t => t ≠ optNothing) ↔ t ∈ rest := by
      intro t
      rw [hmem, List.mem_filter, decide_eq_true_iff, hrest]
    have hnodup : (dedupById typeId (types.filter fun t => t ≠ optNothing)).Nodup :=
      hlt.imp fun hxy he => by
        rw [he] at hxy
        exact Nat.lt_irrefl _ hxy
    have hg' : IsGreatest same (dedupById typeId (types.filter fun t => t ≠ optNothing)) g :=
      ⟨(hrest' g).2 hg.1, fun u hu => hg.2 u ((hrest' u).1 hu)⟩
    obtain ⟨t, tail, heq, ht⟩ := front_spec (fun x hx y hy z hz =>
      htrans x ((hrest' x).1 hx) y ((hrest' y).1 hy) z ((hrest' z).1 hz)) hnodup ⟨g, hg'⟩
    refine ⟨t, ?_⟩
    unfold sortTypes
    rw [heq]
    refine if_pos (List.all_eq_true.2 fun u hu => ht.2 u ?_)
    rw [← (insertionSort_perm (isBefore same) _).mem_iff, heq]
    exact List.mem_cons_of_mem _ hu

/-! ## What `std::sort` asks for -/

/-- A strict weak ordering of the types: `<` and "neither before nor behind" are transitive. -/
structure StrictWeak (before : Ty → Ty → Bool) (types : List Ty) : Prop where
  irrefl : ∀ x ∈ types, before x x = false
  trans : ∀ x ∈ types, ∀ y ∈ types, ∀ z ∈ types,
    before x y = true → before y z = true → before x z = true
  incomp : ∀ x ∈ types, ∀ y ∈ types, ∀ z ∈ types,
    before x y = false ∧ before y x = false → before y z = false ∧ before z y = false →
      before x z = false ∧ before z x = false

/-- Neither of two types is a base of the other. -/
def Unrelated (same : Ty → Ty → Bool) (x y : Ty) : Prop := same x y = false ∧ same y x = false

/-- The comparator is a strict weak ordering where no two types are bases of each other, and no type
is unrelated to both of two that are related. -/
theorem weakOrder_iff
    (htrans : ∀ x ∈ types, ∀ y ∈ types, ∀ z ∈ types,
      same x y = true → same y z = true → same x z = true) :
    StrictWeak (isBefore same) types ↔
      (∀ x ∈ types, ∀ y ∈ types, same x y = true → same y x = true → x = y) ∧
        ∀ x ∈ types, ∀ y ∈ types, ∀ z ∈ types,
          x ≠ y → same x y = true → ¬(Unrelated same z x ∧ Unrelated same z y) := by
  have hbefore : ∀ {x y : Ty}, isBefore same x y = true ↔ x ≠ y ∧ same x y = true := by
    intro x y
    unfold isBefore
    rw [Bool.and_eq_true, decide_eq_true_iff]
  have hnot : ∀ {x y : Ty}, isBefore same x y = false ↔ x = y ∨ same x y = false := by
    intro x y
    rw [← Bool.not_eq_true, hbefore, not_and_or, not_not, Bool.not_eq_true]
  constructor
  · intro h
    constructor
    · intro x hx y hy hxy hyx
      by_contra hne
      have hirr := h.irrefl x hx
      have hcycle := h.trans x hx y hy x hx (hbefore.2 ⟨hne, hxy⟩)
        (hbefore.2 ⟨fun he => hne he.symm, hyx⟩)
      rw [hirr] at hcycle
      cases hcycle
    · rintro x hx y hy z hz hne hxy ⟨⟨hzx, hxz⟩, hzy, hyz⟩
      have hinc := h.incomp x hx z hz y hy ⟨hnot.2 (.inr hxz), hnot.2 (.inr hzx)⟩
        ⟨hnot.2 (.inr hzy), hnot.2 (.inr hyz)⟩
      have hlt := hbefore.2 ⟨hne, hxy⟩
      rw [hinc.1] at hlt
      cases hlt
  · rintro ⟨hanti, hthird⟩
    refine ⟨fun x _ => hnot.2 (.inl rfl), ?_, ?_⟩
    · intro x hx y hy z hz hxy hyz
      obtain ⟨hne, hxy⟩ := hbefore.1 hxy
      have hyz := (hbefore.1 hyz).2
      refine hbefore.2 ⟨?_, htrans x hx y hy z hz hxy hyz⟩
      rintro rfl
      exact hne (hanti x hx y hy hxy hyz)
    · intro x hx y hy z hz hxy hyz
      by_cases hexy : x = y
      · rw [hexy]
        exact hyz
      by_cases heyz : y = z
      · rw [← heyz]
        exact hxy
      have hux : Unrelated same y x :=
        ⟨(hnot.1 hxy.2).resolve_left (Ne.symm hexy), (hnot.1 hxy.1).resolve_left hexy⟩
      have huz : Unrelated same y z :=
        ⟨(hnot.1 hyz.1).resolve_left heyz, (hnot.1 hyz.2).resolve_left (Ne.symm heyz)⟩
      constructor
      · by_contra hc
        obtain ⟨hne, hxz⟩ := hbefore.1 (Bool.not_eq_false _ ▸ hc)
        exact hthird x hx z hz y hy hne hxz ⟨hux, huz⟩
      · by_contra hc
        obtain ⟨hne, hzx⟩ := hbefore.1 (Bool.not_eq_false _ ▸ hc)
        exact hthird z hz x hx y hy hne hzx ⟨huz, hux⟩

end

/-! ## Types that break the ordering -/

/-- Types that are no option types, by their lines of super types: the first one is above the second
one, and the third one is apart from both. -/
inductive Scattered (superOf : Ty → Option Ty) : Ty → Ty → Ty → Prop
  /-- a super type of the second one, and not in one line with the third one -/
  | line {t u v : Ty} (ht : t.isOptionType = false ∧ t.isFuncType = false)
      (hu : u.isOptionType = false) (hv : v.isOptionType = false) (htu : Anc superOf t u)
      (hne : t ≠ u) (hnu : ¬Anc superOf (.builtin "Nothing") u)
      (hnv : ¬Anc superOf (.builtin "Nothing") v) (htv : ¬Anc superOf t v)
      (hvt : ¬Anc superOf v t) : Scattered superOf t u v
  /-- two function types, and a type that is not above function types -/
  | funcs {t u v : Ty} (ht : t.isFuncType = true) (hu : u.isFuncType = true)
      (hv : v.isOptionType = false ∧ v.isFuncType = false) (htu : Rel superOf t u)
      (hut : ¬Rel superOf u t) (hnv : ¬Anc superOf (.builtin "Nothing") v)
      (heq : ¬Anc superOf v (.builtin "%Eq_")) : Scattered superOf t u v
  /-- three function types -/
  | func {t u v : Ty} (ht : t.isFuncType = true) (hu : u.isFuncType = true)
      (hv : v.isFuncType = true) (htu : Rel superOf t u) (hut : ¬Rel superOf u t)
      (htv : ¬Rel superOf t v) (hvu : ¬Rel superOf v u) : Scattered superOf t u v

/-- The same of types with and without a question mark: an option type is above what its element is
above, and below option types only. -/
inductive Splits (superOf : Ty → Option Ty) : Ty → Ty → Ty → Prop
  | plain {t u v : Ty} (h : Scattered superOf t u v) : Splits superOf t u v
  | options {t u v : Ty} (h : Scattered superOf t u v) :
    Splits superOf (.option t) (.option u) (.option v)
  | optionThird {t u v : Ty} (ht : t.isOptionType = false) (hu : u.isOptionType = false)
      (htu : Rel superOf t u) (hut : ¬Rel superOf u t) (hvu : ¬Rel superOf v u) :
    Splits superOf t u (.option v)
  | plainThird {t u v : Ty} (hv : v.isOptionType = false) (htu : Rel superOf t u)
      (hut : ¬Rel superOf u t) (htv : ¬Rel superOf t v) : Splits superOf (.option t) (.option u) v
  | optionFirst {t u v : Ty} (hu : u.isOptionType = false) (htu : Rel superOf t u)
      (htv : ¬Rel superOf t v.strip) (hvu : ¬Rel superOf v.strip u) :
    Splits superOf (.option t) u v

section
variable {superOf : Ty → Option Ty} {height : Ty → Nat} {t u v : Ty}

/-- The first type is above the second one, and the third one is apart from both. -/
def Apart (superOf : Ty → Option Ty) (t u v : Ty) : Prop :=
  Rel superOf t u ∧ ¬Rel superOf u t ∧ ¬Rel superOf t v ∧ ¬Rel superOf v u

theorem not_option_of_func (h : t.isFuncType = true) : t.isOptionType = false := by
  cases t with
  | option => cases h
  | _ => rfl

theorem Scattered.apart (hs : Supers superOf height) (h : Scattered superOf t u v) :
    Apart superOf t u v := by
  cases h with
  | line ht hu hv htu hne hnu hnv htv hvt =>
    have hfunc {w : Ty} : ¬(t.isFuncType ∧ w.isFuncType) := fun hc => by rw [ht.2] at hc; cases hc.1
    refine ⟨.up ht.1 hfunc (.inl htu), ?_, ?_, ?_⟩
    · rw [rel_up_iff hu (fun hc => hfunc hc.symm)]
      rintro (h | h)
      · exact hne (hs.anc_antisymm htu h)
      · exact hnu (anc_trans h htu)
    · rw [rel_up_iff ht.1 hfunc]
      exact not_or.2 ⟨htv, hnv⟩
    · intro h
      by_cases hvu : v.isFuncType = true ∧ u.isFuncType = true
      · -- what is above a function type is above all of them
        cases v with
        | func r ps =>
          cases u with
          | func r' ps' =>
            rcases hs.above_func htu with rfl | heq
            · cases ht.2
            · exact htv (anc_super (hs.func r ps) heq)
          | _ => cases hvu.2
        | _ => cases hvu.1
      · rw [rel_up_iff hv hvu] at h
        rcases h with h | h
        · exact (anc_line htu h).elim htv hvt
        · exact hnu h
  | funcs ht hu hv htu hut hnv heq =>
    refine ⟨htu, hut, fun h => ?_, fun h => ?_⟩
    · rw [rel_up_iff (not_option_of_func ht) (fun hc => by rw [hv.2] at hc; cases hc.2)] at h
      rcases h with h | h
      · cases t with
        | func r ps =>
          rw [hs.anc_func h] at hv
          cases hv.2
        | _ => cases ht
      · exact hnv h
    · cases u with
      | func r ps => exact heq (hs.rel_func h hv.1 hv.2)
      | _ => cases hu
  | func _ _ _ htu hut htv hvu => exact ⟨htu, hut, htv, hvu⟩

theorem scattered_iff (hs : Supers superOf height) (ht : t.isOptionType = false)
    (hu : u.isOptionType = false) (hv : v.isOptionType = false) :
    Scattered superOf t u v ↔ Apart superOf t u v := by
  refine ⟨Scattered.apart hs, ?_⟩
  rintro ⟨htu, hut, htv, hvu⟩
  have hnothing {w : Ty} (h : Anc superOf (.builtin "Nothing") w) (t : Ty) : Rel superOf t w :=
    rel_of_nothing (hs.plain_of_nothing h).1 (hs.plain_of_nothing h).2 h t
  cases hf : t.isFuncType with
  | false =>
    have hfunc {w : Ty} : ¬(t.isFuncType ∧ w.isFuncType) := fun hc => by rw [hf] at hc; cases hc.1
    rw [rel_up_iff ht hfunc] at htu htv
    obtain ⟨htv, hnv⟩ := not_or.1 htv
    have hnu : ¬Anc superOf (.builtin "Nothing") u := fun h => hvu (hnothing h v)
    have htu := htu.resolve_right hnu
    refine .line ⟨ht, hf⟩ hu hv htu ?_ hnu hnv htv fun hvt => hvu ?_
    · rintro rfl
      exact hut (rel_refl t)
    · refine .up hv (fun hc => ?_) (.inl (anc_trans hvt htu))
      cases v with
      | func r ps =>
        rw [hs.anc_func hvt] at hf
        cases hf
      | _ => cases hc.1
  | true =>
    have hfu : u.isFuncType = true := by
      by_contra hfu
      cases t with
      | func r ps => exact hvu (hs.rel_of_func htu (by simpa using hfu) v)
      | _ => cases hf
    cases hfv : v.isFuncType with
    | true => exact .func hf hfu hfv htu hut htv hvu
    | false =>
      refine .funcs hf hfu ⟨hv, hfv⟩ htu hut (fun h => htv (hnothing h t)) fun heq => hvu ?_
      cases u with
      | func r ps =>
        exact .up hv (fun hc => by rw [hfv] at hc; cases hc.1) (.inl (anc_super (hs.func r ps) heq))
      | _ => cases hfu

theorem not_rel_option (hs : Supers superOf height) (ht : t.isOptionType = false) (e : Ty) :
    ¬Rel superOf t (.option e) := by
  intro h
  obtain ⟨e', rfl, -⟩ := hs.rel_option h
  cases ht

theorem rel_option_plain (hu : u.isOptionType = false) :
    Rel superOf (.option t) u ↔ Rel superOf t u := by
  rw [rel_option_iff]
  cases u with
  | option => cases hu
  | _ => rfl

theorem rel_options {e e' : Ty} :
    Rel superOf (.option e) (.option e') ↔ Rel superOf e e' := rel_option_iff

theorem exists_option (h : t.isOptionType = true) : ∃ e, t = .option e := by
  cases t with
  | option e => exact ⟨e, rfl⟩
  | _ => cases h

theorem strip_plain (ht : t.isOptionType = false) : t.strip = t := by
  cases t with
  | option => cases ht
  | _ => rfl

theorem rel_strip_iff (hu : u.isOptionType = false) :
    Rel superOf v u ↔ Rel superOf v.strip u := by
  cases hvo : v.isOptionType with
  | true =>
    obtain ⟨e, rfl⟩ := exists_option hvo
    exact rel_option_plain hu
  | false => rw [strip_plain hvo]

/-- The types that break the ordering, without option types of option types. -/
theorem splits_iff (hs : Supers superOf height) (ht : t.strip.isOptionType = false)
    (hu : u.strip.isOptionType = false) (hv : v.strip.isOptionType = false) :
    Splits superOf t u v ↔ Apart superOf t u v := by
  constructor
  · intro h
    cases h with
    | plain h => exact h.apart hs
    | options h =>
      unfold Apart
      rw [rel_options, rel_options, rel_options, rel_options]
      exact h.apart hs
    | optionThird ht hu htu hut hvu =>
      exact ⟨htu, hut, not_rel_option hs ht _, fun h => hvu ((rel_option_plain hu).1 h)⟩
    | plainThird hv htu hut htv =>
      exact ⟨rel_options.2 htu, fun h => hut (rel_options.1 h),
        fun h => htv ((rel_option_plain hv).1 h), not_rel_option hs hv _⟩
    | optionFirst hu htu htv hvu =>
      exact ⟨(rel_option_plain hu).2 htu, not_rel_option hs hu _, fun h => htv (rel_option_iff.1 h),
        fun h => hvu ((rel_strip_iff hu).1 h)⟩
  · rintro ⟨htu, hut, htv, hvu⟩
    cases hto : t.isOptionType with
    | false =>
      have huo : u.isOptionType = false := by
        by_contra huo
        obtain ⟨e, rfl⟩ := exists_option (by simpa using huo)
        exact not_rel_option hs hto e htu
      cases hvo : v.isOptionType with
      | false => exact .plain ((scattered_iff hs hto huo hvo).2 ⟨htu, hut, htv, hvu⟩)
      | true =>
        obtain ⟨e, rfl⟩ := exists_option hvo
        exact .optionThird hto huo htu hut fun h => hvu ((rel_option_plain huo).2 h)
    | true =>
      obtain ⟨e, rfl⟩ := exists_option hto
      cases huo : u.isOptionType with
      | false =>
        exact .optionFirst huo ((rel_option_plain huo).1 htu) (fun h => htv (rel_option_iff.2 h))
          fun h => hvu ((rel_strip_iff huo).2 h)
      | true =>
        obtain ⟨e', rfl⟩ := exists_option huo
        cases hvo : v.isOptionType with
        | false =>
          exact .plainThird hvo (rel_options.1 htu) (fun h => hut (rel_options.2 h))
            fun h => htv ((rel_option_plain hvo).2 h)
        | true =>
          obtain ⟨e'', rfl⟩ := exists_option hvo
          exact .options ((scattered_iff hs ht hu hv).2 ⟨rel_options.1 htu,
            fun h => hut (rel_options.2 h), fun h => htv (rel_options.2 h),
            fun h => hvu (rel_options.2 h)⟩)

end

end Arsh.Types
