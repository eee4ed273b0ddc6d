import Mathlib.Data.List.Basic
import Mathlib.Tactic.Common

/-!
# Maps as lists of entries

A map where the first entry of a key counts. `emplace` never changes an entry that is there, so
what was in a map can be had back by dropping what was added.
-/

namespace Arsh.Assoc

variable {κ β : Type*} [DecidableEq κ] {m : List (κ × β)} {k j : κ} {v w : β}

/-- The value of a key. -/
def mapFind (m : List (κ × β)) (k : κ) : Option β := (m.find? fun e => e.1 = k).map Prod.snd

/-- A key that is there keeps its value. -/
def emplace (m : List (κ × β)) (k : κ) (v : β) : Bool × List (κ × β) :=
  if (mapFind m k).isSome then (false, m) else (true, m ++ [(k, v)])

@[simp]
theorem mapFind_nil : mapFind ([] : List (κ × β)) k = none := rfl

theorem mapFind_mem (h : mapFind m k = some v) : (k, v) ∈ m := by
  unfold mapFind at h
  obtain ⟨e, he, rfl⟩ := Option.map_eq_some_iff.1 h
  have hk : e.1 = k := by simpa using List.find?_some he
  rw [← hk]
  exact List.mem_of_find?_eq_some he

/-- If the keys are different, every entry is found. -/
theorem mapFind_of_mem (hn : (m.map Prod.fst).Nodup) (h : (k, v) ∈ m) : mapFind m k = some v := by
  induction m with
  | nil => cases h
  | cons e m ih =>
    rw [List.map_cons, List.nodup_cons] at hn
    rcases List.mem_cons.1 h with rfl | h
    · simp [mapFind]
    · have hne : e.1 ≠ k := by
        rintro rfl
        exact hn.1 (List.mem_map.2 ⟨_, h, rfl⟩)
      have := ih hn.2 h
      simpa [mapFind, hne] using this

theorem mapFind_append {m' : List (κ × β)} : mapFind (m ++ m') k = (mapFind m k).or (mapFind m' k) := by
  unfold mapFind
  rw [List.find?_append]
  cases m.find? fun e => e.1 = k <;> rfl

theorem mapFind_snoc :
    mapFind (m ++ [(j, v)]) k = (mapFind m k).or (if j = k then some v else none) := by
  rw [mapFind_append]
  congr 1
  unfold mapFind
  by_cases h : j = k
  · simp [h]
  · simp [h]

theorem emplace_of_none (h : mapFind m k = none) : emplace m k v = (true, m ++ [(k, v)]) := by
  simp [emplace, h]

theorem emplace_of_some (h : mapFind m k = some w) : emplace m k v = (false, m) := by
  simp [emplace, h]

/-- A filter keeps a value that it lets through. -/
theorem mapFind_filter {p : κ × β → Bool} (h : mapFind m k = some v) (hp : p (k, v) = true) :
    mapFind (m.filter p) k = some v := by
  induction m with
  | nil => cases h
  | cons e m ih =>
    by_cases he : e.1 = k
    · have hv : e = (k, v) := by
        have : e.2 = v := by simpa [mapFind, he] using h
        exact Prod.ext he this
      simp [hv, hp, mapFind]
    · have hm : mapFind m k = some v := by simpa [mapFind, he] using h
      rw [List.filter_cons]
      split
      · have := ih hm
        simpa [mapFind, he] using this
      · exact ih hm

end Arsh.Assoc
