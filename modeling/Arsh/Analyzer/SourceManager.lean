import Arsh.Analyzer.Position
import Arsh.Lib.Assoc
import Mathlib.Data.Finset.Basic

/-!
# Sources and their module ids

`SourceManager` of `tools/analyzer/source.{h,cpp}`: an id is an index of a vector of sources, the
indices of removed sources are used again, and the last entry of the vector goes away when it is
removed. A run crashes (`none`) where the source would use a null pointer.

`remove` uses the path of an entry without looking whether there is a source. In the runs that
never remove an entry a second time before it is used again, paths and ids are one to one
(`reachable_one_to_one`).
-/

namespace Arsh.Lsp

open Arsh.Assoc

/-- A shared pointer: the object and where it is. -/
structure SourcePtr where
  addr : Nat
  source : Source
  deriving DecidableEq, Repr

def sysLimitModId : Nat := 0x7FFF

/-- The string that a pointer to its bytes is read as. -/
def cString (path : List Nat) : List Nat := path.takeWhile (· ≠ 0)

structure SourceManager where
  entries : List (Option SourcePtr)
  indexMap : List (List Nat × Nat)
  unusedIndexSet : Finset Nat

namespace SourceManager

def new : SourceManager := ⟨[], [], ∅⟩

variable (m : SourceManager)

def findById (id : Nat) : Option SourcePtr :=
  if 0 < id ∧ id - 1 < m.entries.length then (m.entries[id - 1]?).join else none

def find (path : List Nat) : Option SourcePtr :=
  (mapFind m.indexMap path).bind fun i => (m.entries[i]?).join

/-- A new source, at the address `addr` for the id `id`. -/
def makeShared (addr : Nat) (path : List Nat) (id : Nat) (content : List Nat) (version : Int)
    (attr : Nat) : SourcePtr :=
  ⟨addr, .new (cString path) (id % 0x10000) content version attr⟩

/-- `update`. The allocator gives `addr`, and `first` is where the set of free indices begins. -/
def update (path : List Nat) (version : Int) (content : List Nat) (attr addr first : Nat) :
    Option (Option SourcePtr × SourceManager) :=
  match mapFind m.indexMap path with
  | some i =>
    (m.entries[i]?).join.map fun src =>
      let src := ⟨addr, src.source.copyAndUpdate content version⟩
      (some src, { m with entries := m.entries.set i (some src) })
  | none =>
    if m.unusedIndexSet.Nonempty then
      let i := first
      match m.entries[i]? with
      | some none =>
        let src := makeShared addr path (i + 1) content version attr
        some (some src,
          { entries := m.entries.set i (some src)
            indexMap := (emplace m.indexMap src.source.path i).2
            unusedIndexSet := m.unusedIndexSet.erase i })
      | _ => none
    else
      let id := m.entries.length + 1
      if id = sysLimitModId then some (none, m)
      else
        let i := id - 1
        let src := makeShared addr path id content version attr
        some (some src,
          { m with
            entries := m.entries ++ [some src]
            indexMap := (emplace m.indexMap src.source.path i).2 })

def add (other : Option SourcePtr) (addr first : Nat) :
    Option (Option SourcePtr × SourceManager) :=
  match other with
  | none => some (none, m)
  | some other =>
    if (m.find other.source.path).map (·.addr) = some other.addr then some (some other, m)
    else
      m.update other.source.path other.source.version other.source.content other.source.attr addr
        first

def remove (id : Nat) : Option (Option SourcePtr × SourceManager) :=
  if 0 < id ∧ id - 1 < m.entries.length then
    let index := id - 1
    let tmp := (m.entries[index]?).join
    let m :=
      if index = m.entries.length - 1 then { m with entries := m.entries.dropLast }
      else
        { m with
          entries := m.entries.set index none
          unusedIndexSet := insert index m.unusedIndexSet }
    -- the path of a null pointer
    tmp.map fun tmp =>
      (some tmp, { m with indexMap := m.indexMap.filter fun e => e.1 ≠ tmp.source.path })
  else some (none, m)

/-- A call of an operation. -/
inductive Op where
  | update (path : List Nat) (version : Int) (content : List Nat) (attr addr first : Nat)
  | add (other : Option SourcePtr) (addr first : Nat)
  | remove (id : Nat)

def step : Op → Option (Option SourcePtr × SourceManager)
  | .update path version content attr addr first => m.update path version content attr addr first
  | .add other addr first => m.add other addr first
  | .remove id => m.remove id

/-- What an operation must not do: use an entry that has been removed, or a path with a zero byte
for which another path is live. `first` is one of the free indices. -/
def Op.Fine : Op → Prop
  | .update path _ _ _ _ first =>
    (m.find path = none → m.find (cString path) = none) ∧
      (m.unusedIndexSet.Nonempty → first ∈ m.unusedIndexSet)
  | .add other _ first =>
    (∀ o, other = some o → m.find o.source.path = none → m.find (cString o.source.path) = none) ∧
      (m.unusedIndexSet.Nonempty → first ∈ m.unusedIndexSet)
  | .remove id => 0 < id → id - 1 ∉ m.unusedIndexSet

/-- The states of the runs of such operations. -/
inductive Reachable : SourceManager → Prop
  | new : Reachable new
  | step {m m' : SourceManager} {op : Op} {r : Option SourcePtr} (h : Reachable m)
      (hop : op.Fine m) (hs : m.step op = some (r, m')) : Reachable m'

/-! ## Paths and ids -/

variable {m : SourceManager}

/-- The index map has the paths of the sources, an entry is free exactly if there is no source,
and a source has the id of its entry. -/
structure Inv (m : SourceManager) : Prop where
  map_iff : ∀ p i, mapFind m.indexMap p = some i ↔
    ∃ src, m.entries[i]? = some (some src) ∧ src.source.path = p
  id_eq : ∀ {i src}, m.entries[i]? = some (some src) → src.source.srcId = i + 1
  unused_iff : ∀ i, i ∈ m.unusedIndexSet ↔ m.entries[i]? = some none
  length_lt : m.entries.length < sysLimitModId

theorem inv_new : Inv new where
  map_iff p i := by
    constructor
    · intro h
      cases h
    · rintro ⟨src, h, -⟩
      cases h
  id_eq h := by cases h
  unused_iff i := by
    constructor
    · intro h
      cases h
    · intro h
      cases h
  length_lt := by decide

/-- A live source is found by its path, and its index is the one in the map. -/
theorem Inv.find_eq (h : Inv m) {p : List Nat} {src : SourcePtr} :
    m.find p = some src ↔
      ∃ i, m.entries[i]? = some (some src) ∧ src.source.path = p ∧
        mapFind m.indexMap p = some i := by
  unfold find
  constructor
  · intro hf
    obtain ⟨i, hi, hj⟩ := Option.bind_eq_some_iff.1 hf
    obtain ⟨src', he, hp⟩ := (h.map_iff p i).1 hi
    rw [he] at hj
    cases hj
    exact ⟨i, he, hp, hi⟩
  · rintro ⟨i, he, -, hi⟩
    rw [hi, Option.bind_some, he]
    rfl

theorem Inv.find_none (h : Inv m) {p : List Nat} :
    m.find p = none ↔ mapFind m.indexMap p = none := by
  constructor
  · intro hf
    by_contra hm
    obtain ⟨i, hi⟩ := Option.ne_none_iff_exists'.1 hm
    obtain ⟨src, he, hp⟩ := (h.map_iff p i).1 hi
    rw [h.find_eq.2 ⟨i, he, hp, hi⟩] at hf
    cases hf
  · intro hm
    rw [find, hm]
    rfl

theorem findById_eq {id : Nat} {src : SourcePtr} :
    m.findById id = some src ↔ 0 < id ∧ m.entries[id - 1]? = some (some src) := by
  unfold findById
  constructor
  · intro hf
    split at hf
    · next h => exact ⟨h.1, Option.join_eq_some_iff.1 hf⟩
    · cases hf
  · rintro ⟨hpos, he⟩
    rw [if_pos ⟨hpos, (List.getElem?_eq_some_iff.1 he).1⟩, he]
    rfl

theorem mapFind_erase (l : List (List Nat × Nat)) (p q : List Nat) :
    mapFind (l.filter fun e => e.1 ≠ p) q = if q = p then none else mapFind l q := by
  induction l with
  | nil =>
    rw [List.filter_nil, mapFind_nil]
    split <;> rfl
  | cons e l ih =>
    rw [List.filter_cons]
    by_cases he : e.1 = p
    · rw [if_neg (by simpa using he), ih]
      split
      · rfl
      · next hq =>
        have hne : ¬e.1 = q := fun h => hq (h.symm.trans he)
        simp only [mapFind, List.find?_cons, hne, decide_false]
    · rw [if_pos (by simpa using he)]
      by_cases hq : e.1 = q
      · rw [if_neg fun h => he (hq.trans h)]
        simp only [mapFind, List.find?_cons, hq, decide_true]
      · have hcons : ∀ l : List (List Nat × Nat), mapFind (e :: l) q = mapFind l q := fun l => by
          simp only [mapFind, List.find?_cons, hq, decide_false]
        rw [hcons, hcons, ih]

theorem mapFind_emplace {l : List (List Nat × Nat)} {p : List Nat} (i : Nat)
    (h : mapFind l p = none) (q : List Nat) :
    mapFind (emplace l p i).2 q = if p = q then some i else mapFind l q := by
  rw [emplace_of_none h, mapFind_snoc]
  split
  · next hq =>
    rw [← hq, h]
    rfl
  · rw [Option.or_none]

/-! ## What an operation keeps -/

theorem getElem?_set_of_lt {α : Type*} {l : List α} {i : Nat} (h : i < l.length) (a : α)
    (j : Nat) : (l.set i a)[j]? = if i = j then some a else l[j]? := by
  rw [List.getElem?_set]
  split
  · rfl
  · rfl

theorem getElem?_concat {α : Type*} (l : List α) (a : α) (j : Nat) :
    (l ++ [a])[j]? = if l.length = j then some a else l[j]? := by
  split
  · next hj => rw [← hj, List.getElem?_concat_length]
  · next hj =>
    rcases Nat.lt_or_gt_of_ne hj with hlt | hlt
    · rw [List.getElem?_eq_none (by rw [List.length_append, List.length_singleton]; omega),
        List.getElem?_eq_none (by omega)]
    · exact List.getElem?_append_left hlt

/-- An entry gets another source with the same path and id. -/
theorem Inv.replace (h : Inv m) {i : Nat} {src src' : SourcePtr}
    (he : m.entries[i]? = some (some src)) (hp : src'.source.path = src.source.path)
    (hid : src'.source.srcId = src.source.srcId) :
    Inv { m with entries := m.entries.set i (some src') } := by
  have hlt := (List.getElem?_eq_some_iff.1 he).1
  have hget := getElem?_set_of_lt hlt (some src')
  refine ⟨?_, ?_, ?_, ?_⟩
  · intro p j
    dsimp only
    rw [h.map_iff, hget]
    split
    · next hij =>
      subst hij
      constructor
      · rintro ⟨src₁, he₁, rfl⟩
        rw [he] at he₁
        cases he₁
        exact ⟨src', rfl, hp⟩
      · rintro ⟨src₁, he₁, rfl⟩
        cases he₁
        exact ⟨src, he, hp.symm⟩
    · rfl
  · intro j src₁ he₁
    dsimp only at he₁
    rw [hget] at he₁
    split at he₁
    · next hij =>
      cases he₁
      rw [hid, h.id_eq he, hij]
    · exact h.id_eq he₁
  · intro j
    dsimp only
    rw [h.unused_iff, hget]
    split
    · next hij =>
      rw [← hij, he]
      constructor <;> intro hj <;> cases hj
    · rfl
  · dsimp only
    rw [List.length_set]
    exact h.length_lt

/-- A source with a path that is not there gets an entry that is free or new. -/
theorem Inv.put (h : Inv m) {m' : SourceManager} {i : Nat} {src : SourcePtr}
    (hget : ∀ j, m'.entries[j]? = if i = j then some (some src) else m.entries[j]?)
    (hmap : m'.indexMap = (emplace m.indexMap src.source.path i).2)
    (hunused : m'.unusedIndexSet = m.unusedIndexSet.erase i)
    (hlen : m'.entries.length < sysLimitModId) (he : (m.entries[i]?).join = none)
    (hp : mapFind m.indexMap src.source.path = none) (hid : src.source.srcId = i + 1) :
    Inv m' := by
  have hold : ∀ j src₁, i = j → m.entries[j]? ≠ some (some src₁) := by
    rintro j src₁ rfl hj
    rw [hj] at he
    cases he
  refine ⟨?_, ?_, ?_, hlen⟩
  · intro p j
    rw [hmap, mapFind_emplace i hp, hget]
    split
    · next hpq =>
      rw [← hpq, Option.some.injEq]
      constructor
      · rintro rfl
        exact ⟨src, if_pos rfl, rfl⟩
      · rintro ⟨src₁, he₁, hp₁⟩
        split at he₁
        · next hij => exact hij
        · rw [(h.map_iff _ _).2 ⟨src₁, he₁, hp₁⟩] at hp
          cases hp
    · next hpq =>
      rw [h.map_iff]
      split
      · next hij =>
        constructor
        · rintro ⟨src₁, he₁, -⟩
          exact absurd he₁ (hold j src₁ hij)
        · rintro ⟨src₁, he₁, hp₁⟩
          cases he₁
          exact absurd hp₁ hpq
      · rfl
  · intro j src₁ he₁
    rw [hget] at he₁
    split at he₁
    · next hij =>
      cases he₁
      rw [hid, hij]
    · exact h.id_eq he₁
  · intro j
    rw [hunused, Finset.mem_erase, h.unused_iff, hget]
    split
    · next hij => exact ⟨fun hj => absurd hij.symm hj.1, fun hj => by cases hj⟩
    · next hij => exact ⟨fun hj => hj.2, fun hj => ⟨fun hji => hij hji.symm, hj⟩⟩

/-- An entry loses its source: it is free, or goes away. -/
theorem Inv.take (h : Inv m) {m' : SourceManager} {i : Nat} {src : SourcePtr}
    {x : Option (Option SourcePtr)} (hx : x.join = none)
    (hget : ∀ j, m'.entries[j]? = if i = j then x else m.entries[j]?)
    (hmap : m'.indexMap = m.indexMap.filter fun e => e.1 ≠ src.source.path)
    (hunused : ∀ j, j ∈ m'.unusedIndexSet ↔ j ∈ m.unusedIndexSet ∨ (i = j ∧ x = some none))
    (hlen : m'.entries.length ≤ m.entries.length) (he : m.entries[i]? = some (some src)) :
    Inv m' := by
  have hnew : ∀ src₁, x ≠ some (some src₁) := by
    rintro src₁ rfl
    cases hx
  refine ⟨?_, ?_, ?_, hlen.trans_lt h.length_lt⟩
  · intro p j
    rw [hmap, mapFind_erase, hget]
    have hi := (h.map_iff _ _).2 ⟨src, he, rfl⟩
    split
    · next hp =>
      subst hp
      constructor
      · intro hj
        cases hj
      · rintro ⟨src₁, he₁, hp₁⟩
        split at he₁
        · exact absurd he₁ (hnew src₁)
        · next hij =>
          rw [(h.map_iff _ _).2 ⟨src₁, he₁, hp₁⟩] at hi
          cases hi
          exact absurd rfl hij
    · next hp =>
      rw [h.map_iff]
      split
      · next hij =>
        subst hij
        constructor
        · rintro ⟨src₁, he₁, hp₁⟩
          rw [he] at he₁
          cases he₁
          exact absurd hp₁.symm hp
        · rintro ⟨src₁, he₁, -⟩
          exact absurd he₁ (hnew src₁)
      · rfl
  · intro j src₁ he₁
    rw [hget] at he₁
    split at he₁
    · exact absurd he₁ (hnew src₁)
    · exact h.id_eq he₁
  · intro j
    rw [hunused, h.unused_iff, hget]
    split
    · next hij =>
      rw [← hij, he]
      constructor
      · rintro (hj | hj)
        · cases hj
        · exact hj.2
      · intro hj
        exact .inr ⟨rfl, hj⟩
    · next hij =>
      constructor
      · rintro (hj | hj)
        · exact hj
        · exact absurd hj.1 hij
      · exact .inl

/-! ## Steps -/

/-- A source that is live stays live, with its id and path, if it is not removed. -/
def Keeps (m m' : SourceManager) (removed : Option Nat) : Prop :=
  ∀ id src, m.findById id = some src → removed ≠ some id →
    ∃ src', m'.findById id = some src' ∧ src'.source.path = src.source.path

/-- What `update` makes of a state. -/
structure Updated (m : SourceManager) (path : List Nat) (r : Option SourcePtr)
    (m' : SourceManager) : Prop where
  inv : Inv m'
  keeps : Keeps m m' none
  null : r = none → m' = m
  found : ∀ src, r = some src → m'.find src.source.path = some src ∧
    (src.source.path = path ∨ src.source.path = cString path)

theorem Inv.find_of_entry (h : Inv m) {i : Nat} {src : SourcePtr}
    (he : m.entries[i]? = some (some src)) : m.find src.source.path = some src :=
  h.find_eq.2 ⟨i, he, rfl, (h.map_iff _ _).2 ⟨src, he, rfl⟩⟩

theorem Inv.updated_replace (h : Inv m) {i : Nat} {src src' : SourcePtr}
    (he : m.entries[i]? = some (some src)) (hp : src'.source.path = src.source.path)
    (hid : src'.source.srcId = src.source.srcId) :
    Updated m src.source.path (some src') { m with entries := m.entries.set i (some src') } := by
  have hlt := (List.getElem?_eq_some_iff.1 he).1
  have hinv := h.replace he hp hid
  refine ⟨hinv, ?_, fun hr => absurd hr (Option.some_ne_none _), ?_⟩
  · intro id src₁ hf _
    obtain ⟨hpos, he₁⟩ := findById_eq.1 hf
    by_cases hi : i = id - 1
    · rw [← hi, he] at he₁
      cases he₁
      refine ⟨src', findById_eq.2 ⟨hpos, ?_⟩, hp⟩
      dsimp only
      rw [getElem?_set_of_lt hlt, if_pos hi]
    · refine ⟨src₁, findById_eq.2 ⟨hpos, ?_⟩, rfl⟩
      dsimp only
      rw [getElem?_set_of_lt hlt, if_neg hi, he₁]
  · intro src₁ hr
    cases hr
    refine ⟨hinv.find_of_entry (i := i) ?_, .inl hp⟩
    dsimp only
    rw [getElem?_set_of_lt hlt, if_pos rfl]

theorem Inv.updated_put (h : Inv m) {m' : SourceManager} {path : List Nat} {i : Nat}
    {src : SourcePtr}
    (hget : ∀ j, m'.entries[j]? = if i = j then some (some src) else m.entries[j]?)
    (hmap : m'.indexMap = (emplace m.indexMap src.source.path i).2)
    (hunused : m'.unusedIndexSet = m.unusedIndexSet.erase i)
    (hlen : m'.entries.length < sysLimitModId) (he : (m.entries[i]?).join = none)
    (hfind : m.find (cString path) = none) (hp : src.source.path = cString path)
    (hid : src.source.srcId = i + 1) : Updated m path (some src) m' := by
  have hnone : mapFind m.indexMap src.source.path = none := by
    rw [hp]
    exact h.find_none.1 hfind
  have hinv := h.put hget hmap hunused hlen he hnone hid
  refine ⟨hinv, ?_, fun hr => absurd hr (Option.some_ne_none _), ?_⟩
  · intro id src₁ hf _
    obtain ⟨hpos, he₁⟩ := findById_eq.1 hf
    refine ⟨src₁, findById_eq.2 ⟨hpos, ?_⟩, rfl⟩
    rw [hget, if_neg, he₁]
    rintro rfl
    rw [he₁] at he
    cases he
  · intro src₁ hr
    cases hr
    refine ⟨hinv.find_of_entry (i := i) ?_, .inr hp⟩
    rw [hget, if_pos rfl]

theorem Updated.refl (h : Inv m) (path : List Nat) : Updated m path none m where
  inv := h
  keeps _ src hf _ := ⟨src, hf, rfl⟩
  null _ := rfl
  found _ hr := by cases hr

theorem Inv.update (h : Inv m) (path : List Nat) (version : Int) (content : List Nat)
    (attr addr first : Nat) (hpath : m.find path = none → m.find (cString path) = none)
    (hfirst : m.unusedIndexSet.Nonempty → first ∈ m.unusedIndexSet) :
    ∃ r m', m.update path version content attr addr first = some (r, m') ∧
      Updated m path r m' := by
  have hlen := h.length_lt
  have hlimit : sysLimitModId < 0x10000 := by decide
  unfold SourceManager.update
  cases hm : mapFind m.indexMap path with
  | some i =>
    obtain ⟨src, he, rfl⟩ := (h.map_iff path i).1 hm
    dsimp only
    rw [he]
    exact ⟨_, _, rfl, h.updated_replace he rfl rfl⟩
  | none =>
    have hfind := hpath (h.find_none.2 hm)
    dsimp only
    split
    · next hu =>
      have he := (h.unused_iff first).1 (hfirst hu)
      have hlt := (List.getElem?_eq_some_iff.1 he).1
      rw [he]
      refine ⟨_, _, rfl, h.updated_put (getElem?_set_of_lt hlt _) rfl rfl ?_ ?_ hfind rfl ?_⟩
      · dsimp only
        rw [List.length_set]
        exact hlen
      · rw [he]
        rfl
      · exact Nat.mod_eq_of_lt (by omega)
    · next hu =>
      split
      · exact ⟨_, _, rfl, .refl h path⟩
      · next hne =>
        refine ⟨_, _, rfl, h.updated_put (i := m.entries.length) (fun j => ?_) rfl ?_ ?_ ?_ hfind
          rfl ?_⟩
        · exact getElem?_concat m.entries _ j
        · rw [Finset.not_nonempty_iff_eq_empty.1 hu]
          rfl
        · dsimp only
          rw [List.length_append, List.length_singleton]
          omega
        · rw [List.getElem?_eq_none (Nat.le_refl _)]
          rfl
        · exact Nat.mod_eq_of_lt (by omega)

theorem Inv.add (h : Inv m) (other : Option SourcePtr) (addr first : Nat)
    (hop : (Op.add other addr first).Fine m) :
    ∃ r m', m.add other addr first = some (r, m') ∧ Inv m' ∧ Keeps m m' none := by
  cases other with
  | none => exact ⟨none, m, rfl, h, (Updated.refl h []).keeps⟩
  | some other =>
    unfold SourceManager.add
    dsimp only
    split
    · exact ⟨some other, m, rfl, h, (Updated.refl h []).keeps⟩
    · obtain ⟨r, m', hm, hu⟩ := h.update other.source.path other.source.version
        other.source.content other.source.attr addr first (hop.1 other rfl) hop.2
      exact ⟨r, m', hm, hu.inv, hu.keeps⟩

/-- `remove` of an id that is not live returns null, unless its entry is free. -/
theorem Inv.remove_none (h : Inv m) {id : Nat} (hop : (Op.remove id).Fine m)
    (hf : m.findById id = none) : m.remove id = some (none, m) := by
  unfold SourceManager.remove
  split
  · next hid =>
    cases he : m.entries[id - 1]? with
    | none => exact absurd hid.2 (Nat.not_lt.2 (List.getElem?_eq_none_iff.1 he))
    | some e =>
      cases e with
      | none => exact absurd ((h.unused_iff _).2 he) (hop hid.1)
      | some src =>
        rw [findById_eq.2 ⟨hid.1, he⟩] at hf
        cases hf
  · rfl

/-- What `remove` makes of a state. -/
structure Removed (m : SourceManager) (id : Nat) (src : SourcePtr) (m' : SourceManager) :
    Prop where
  inv : Inv m'
  keeps : Keeps m m' (some id)
  findById : m'.findById id = none
  find : m'.find src.source.path = none

theorem Inv.removed_take (h : Inv m) {m' : SourceManager} {id : Nat} {src : SourcePtr}
    {x : Option (Option SourcePtr)} (hx : x.join = none)
    (hget : ∀ j, m'.entries[j]? = if id - 1 = j then x else m.entries[j]?)
    (hmap : m'.indexMap = m.indexMap.filter fun e => e.1 ≠ src.source.path)
    (hunused : ∀ j, j ∈ m'.unusedIndexSet ↔
      j ∈ m.unusedIndexSet ∨ (id - 1 = j ∧ x = some none))
    (hlen : m'.entries.length ≤ m.entries.length) (hpos : 0 < id)
    (he : m.entries[id - 1]? = some (some src)) : Removed m id src m' := by
  have hinv := h.take hx hget hmap hunused hlen he
  refine ⟨hinv, ?_, ?_, ?_⟩
  · intro id' src₁ hf hne
    obtain ⟨hpos', he₁⟩ := findById_eq.1 hf
    have hid : id - 1 ≠ id' - 1 := fun hid => hne (congrArg some (by omega))
    refine ⟨src₁, findById_eq.2 ⟨hpos', ?_⟩, rfl⟩
    rw [hget, if_neg hid, he₁]
  · by_contra hf
    obtain ⟨src₁, hf⟩ := Option.ne_none_iff_exists'.1 hf
    have he₁ := (findById_eq.1 hf).2
    rw [hget, if_pos rfl] at he₁
    rw [he₁] at hx
    cases hx
  · rw [hinv.find_none, hmap, mapFind_erase, if_pos rfl]

/-- `remove` of a live id returns its source. -/
theorem Inv.remove_some (h : Inv m) {id : Nat} {src : SourcePtr}
    (hf : m.findById id = some src) :
    ∃ m', m.remove id = some (some src, m') ∧ Removed m id src m' := by
  obtain ⟨hpos, he⟩ := findById_eq.1 hf
  have hlt := (List.getElem?_eq_some_iff.1 he).1
  unfold SourceManager.remove
  rw [if_pos ⟨hpos, hlt⟩]
  dsimp only
  rw [he]
  refine ⟨_, rfl, ?_⟩
  by_cases hlast : id - 1 = m.entries.length - 1
  · simp only [if_pos hlast]
    refine h.removed_take (x := none) rfl (fun j => ?_) rfl (fun j => ?_) ?_ hpos he
    · dsimp only
      rw [List.getElem?_dropLast]
      split
      · next hj => rw [if_neg (by omega)]
      · next hj =>
        split
        · rfl
        · next hij => rw [List.getElem?_eq_none (by omega)]
    · constructor
      · exact .inl
      · rintro (hj | hj)
        · exact hj
        · cases hj.2
    · dsimp only
      rw [List.length_dropLast]
      exact Nat.sub_le _ _
  · simp only [if_neg hlast]
    refine h.removed_take (x := some none) rfl (getElem?_set_of_lt hlt _) rfl (fun j => ?_) ?_
      hpos he
    · dsimp only
      rw [Finset.mem_insert]
      constructor
      · rintro (hj | hj)
        · exact .inr ⟨hj.symm, rfl⟩
        · exact .inl hj
      · rintro (hj | hj)
        · exact .inr hj
        · exact .inl hj.1.symm
    · dsimp only
      rw [List.length_set]

/-- The id whose source an operation removes. -/
def Op.removed : Op → Option Nat
  | .remove id => some id
  | _ => none

theorem Inv.step (h : Inv m) {op : Op} (hop : op.Fine m) :
    ∃ r m', m.step op = some (r, m') ∧ Inv m' ∧ Keeps m m' op.removed := by
  cases op with
  | update path version content attr addr first =>
    obtain ⟨r, m', hm, hu⟩ := h.update path version content attr addr first hop.1 hop.2
    exact ⟨r, m', hm, hu.inv, hu.keeps⟩
  | add other addr first => exact h.add other addr first hop
  | remove id =>
    cases hf : m.findById id with
    | none => exact ⟨none, m, h.remove_none hop hf, h, fun _ src hf _ => ⟨src, hf, rfl⟩⟩
    | some src =>
      obtain ⟨m', hm, hr⟩ := h.remove_some hf
      exact ⟨some src, m', hm, hr.inv, hr.keeps⟩

theorem Reachable.inv (h : Reachable m) : Inv m := by
  induction h with
  | new => exact inv_new
  | step _ hop hs ih =>
    obtain ⟨r, m', hm, hinv, -⟩ := ih.step hop
    rw [hm] at hs
    cases hs
    exact hinv

/-- `find` and `findById` agree: a live path has one live id, which no other path has. -/
structure OneToOne (m : SourceManager) : Prop where
  find_path : ∀ {p src}, m.find p = some src →
    src.source.path = p ∧ m.findById src.source.srcId = some src
  find_id : ∀ {id src}, m.findById id = some src →
    src.source.srcId = id ∧ m.find src.source.path = some src
  path_inj : ∀ {id id' src src'}, m.findById id = some src → m.findById id' = some src' →
    src.source.path = src'.source.path → id = id'

theorem Inv.oneToOne (h : Inv m) : OneToOne m := by
  have hid : ∀ {id src}, m.findById id = some src →
      src.source.srcId = id ∧ m.find src.source.path = some src := by
    intro id src hf
    obtain ⟨hpos, he⟩ := findById_eq.1 hf
    have hsrc := h.id_eq he
    exact ⟨by omega, h.find_of_entry he⟩
  refine ⟨?_, hid, ?_⟩
  · intro p src hf
    obtain ⟨i, he, hp, -⟩ := h.find_eq.1 hf
    refine ⟨hp, findById_eq.2 ⟨?_, ?_⟩⟩
    · rw [h.id_eq he]
      exact Nat.succ_pos i
    · rw [h.id_eq he, Nat.add_sub_cancel]
      exact he
  · intro id id' src src' hf hf' hp
    have hfind := (hid hf).2
    rw [hp, (hid hf').2] at hfind
    cases hfind
    rw [← (hid hf).1, (hid hf').1]

/-- In every run in which no entry is removed a second time before it is used again, and no path
with a zero byte stands for another one that is live, every operation is defined, paths and ids are
one to one, a source keeps its id until it is removed, `remove` of an id that is not live changes
nothing, and the free indices are those of the empty entries. -/
theorem reachable_one_to_one (h : Reachable m) :
    OneToOne m ∧
    (∀ i ∈ m.unusedIndexSet, i < m.entries.length ∧ m.entries[i]? = some none) ∧
    (∀ op : Op, op.Fine m → ∃ r m', m.step op = some (r, m') ∧ Keeps m m' op.removed) ∧
    (∀ path version content attr addr first,
      (Op.update path version content attr addr first).Fine m →
      ∃ r m', m.update path version content attr addr first = some (r, m') ∧
        (r = none → m' = m) ∧
        ∀ src, r = some src → m'.find src.source.path = some src ∧
          (src.source.path = path ∨ src.source.path = cString path)) ∧
    (∀ id, (Op.remove id).Fine m → m.findById id = none → m.remove id = some (none, m)) ∧
    ∀ id src, m.findById id = some src →
      ∃ m', m.remove id = some (some src, m') ∧ m'.findById id = none ∧
        m'.find src.source.path = none := by
  have hinv := h.inv
  refine ⟨hinv.oneToOne, ?_, ?_, ?_, ?_, ?_⟩
  · intro i hi
    have he := (hinv.unused_iff i).1 hi
    exact ⟨(List.getElem?_eq_some_iff.1 he).1, he⟩
  · intro op hop
    obtain ⟨r, m', hm, -, hk⟩ := hinv.step hop
    exact ⟨r, m', hm, hk⟩
  · intro path version content attr addr first hop
    obtain ⟨r, m', hm, hu⟩ := hinv.update path version content attr addr first hop.1 hop.2
    exact ⟨r, m', hm, hu.null, hu.found⟩
  · intro id hop hf
    exact hinv.remove_none hop hf
  · intro id src hf
    obtain ⟨m', hm, hr⟩ := hinv.remove_some hf
    exact ⟨m', hm, hr.findById, hr.find⟩

def run (ops : List Op) (m : SourceManager) : Option SourceManager :=
  ops.foldlM (fun m op => (m.step op).map Prod.snd) m

/-- A source of another manager. -/
def third : SourcePtr := makeShared 9 [99] 5 [1] 2 0

/-- The id of a removed source goes to one that is added. -/
def freedAgain : List Op :=
  [.update [97] 0 [] 0 1 0, .update [98] 0 [] 0 2 0, .remove 1, .add (some third) 3 0,
    .update [98] 1 [7] 0 4 0]

theorem reachable_one_to_one_freedAgain : ∃ m, run freedAgain new = some m ∧
    (m.findById 1).map (·.source.path) = some [99] ∧ m.find [97] = none ∧ OneToOne m := by
  have h₁ := @Reachable.step _ _ (.update [97] 0 [] 0 1 0) _ .new
    ⟨fun _ => rfl, fun h => absurd h Finset.not_nonempty_empty⟩ rfl
  have h₂ := @Reachable.step _ _ (.update [98] 0 [] 0 2 0) _ h₁
    ⟨fun _ => rfl, fun h => absurd h Finset.not_nonempty_empty⟩ rfl
  have h₃ := @Reachable.step _ _ (.remove 1) _ h₂ (fun _ => Finset.notMem_empty 0) rfl
  have h₄ := @Reachable.step _ _ (.add (some third) 3 0) _ h₃
    ⟨fun o ho _ => by cases ho; rfl, fun _ => Finset.mem_insert_self 0 ∅⟩ rfl
  have h₅ := @Reachable.step _ _ (.update [98] 1 [7] 0 4 0) _ h₄
    ⟨fun h => absurd h (by decide), by decide⟩ rfl
  exact ⟨_, rfl, by decide, by decide, (reachable_one_to_one h₅).1⟩

/-- Two sources, of which the first is removed. -/
def firstRemoved : List Op := [.update [97] 0 [] 0 1 0, .update [98] 0 [] 0 2 0, .remove 1]

/-- The entry of the first source is not live, but a second `remove` uses its path. -/
theorem remove_twice : ∃ m, run firstRemoved new = some m ∧ m.findById 1 = none ∧
    m.remove 1 = none := by
  refine ⟨_, rfl, ?_, ?_⟩ <;> rfl

end SourceManager

end Arsh.Lsp
