import Arsh.Analyzer.Closure

/-!
# Dependencies in topological order

`getDepsByTopologicalOrder` collects all archives that can be reached, sorts them by id, and visits
them depth first. The bit vector of the visit is as long as the largest id asks for. While an
archive is being visited its bit is set but it is not in the result: such archives lead to the one
at hand, so in an acyclic graph the visit never comes back to them.
-/

namespace Arsh.Analyzer

open Vec Dag Relation

namespace ModuleArchives

variable {v w : ModuleArchives} {k i j n fuel : Nat} {a c : ModuleArchive}

/-- The imports of an archive of the table are there, under their ids. -/
theorem Closed.find_import (hv : v.Closed) (ha : v.find k = some a) (hi : i ∈ a.imported) :
    ∃ c, v.find i = some c ∧ c.modId = i :=
  let ⟨c, hc, hid, _⟩ := hv.imports k a ((find_eq_some hv.ascending).1 ha) i hi
  ⟨c, hc, hid⟩

theorem reflTransGen_edge_iff (ha : v.find k = some a) :
    ReflTransGen v.Edge k j ↔ j = k ∨ ∃ i ∈ a.imported, ReflTransGen v.Edge i j := by
  rw [ReflTransGen.cases_head_iff]
  refine or_congr eq_comm ⟨?_, ?_⟩
  · rintro ⟨i, ⟨a', ha', hi⟩, hij⟩
    rw [ha] at ha'
    cases ha'
    exact ⟨i, hi, hij⟩
  · rintro ⟨i, hi, hij⟩
    exact ⟨i, ⟨a, ha, hi⟩, hij⟩

/-! ## Collecting -/

/-- Collecting from a list of imports. -/
theorem resolve_loop {f : List ModuleArchive → Nat → Option (List ModuleArchive)} {is : List Nat}
    (hf : ∀ i ∈ is, ∀ targets, ∃ out, f targets i = some out ∧
      ∀ x, x ∈ out ↔ x ∈ targets ∨ ∃ j, ReflTransGen v.Edge i j ∧ v.find j = some x)
    (targets : List ModuleArchive) :
    ∃ out, is.foldlM f targets = some out ∧
      ∀ x, x ∈ out ↔ x ∈ targets ∨ ∃ i ∈ is, ∃ j, ReflTransGen v.Edge i j ∧ v.find j = some x := by
  induction is generalizing targets with
  | nil => exact ⟨targets, rfl, by simp⟩
  | cons i is ih =>
    obtain ⟨out, he, hout⟩ := hf i List.mem_cons_self targets
    obtain ⟨out', he', hout'⟩ := ih (fun i hi => hf i (List.mem_cons_of_mem _ hi)) out
    refine ⟨out', ?_, fun x => ?_⟩
    · rw [List.foldlM_cons, he]
      exact he'
    · rw [hout', hout]
      simp [or_assoc]

theorem resolveTargets_spec (hv : v.Closed) (ha : v.find k = some a) (hk : v.depth k < fuel)
    (targets : List ModuleArchive) :
    ∃ out, v.resolveTargets fuel targets a = some out ∧
      ∀ x, x ∈ out ↔ x ∈ targets ∨ ∃ j, ReflTransGen v.Edge k j ∧ v.find j = some x := by
  induction fuel generalizing k a targets with
  | zero => omega
  | succ fuel ih =>
    unfold resolveTargets
    obtain ⟨out, he, hout⟩ := @resolve_loop v (fun targets i => do
      let child ← v.find i
      v.resolveTargets fuel targets child) a.imported (by
        intro i hi targets
        obtain ⟨c, hc, -⟩ := hv.find_import ha hi
        have hlt := hv.depth_lt_depth ha hi hc
        obtain ⟨out, he, hout⟩ := ih hc (by omega) targets
        refine ⟨out, ?_, hout⟩
        rw [hc]
        exact he) (targets ++ [a])
    refine ⟨out, he, fun x => ?_⟩
    rw [hout, List.mem_append, List.mem_singleton, or_assoc]
    refine or_congr Iff.rfl ⟨?_, ?_⟩
    · rintro (rfl | ⟨i, hi, j, hij, hj⟩)
      · exact ⟨k, .refl, ha⟩
      · exact ⟨j, (reflTransGen_edge_iff ha).2 (.inr ⟨i, hi, hij⟩), hj⟩
    · rintro ⟨j, hkj, hj⟩
      rcases (reflTransGen_edge_iff ha).1 hkj with rfl | ⟨i, hi, hij⟩
      · rw [ha] at hj
        cases hj
        exact .inl rfl
      · exact .inr ⟨i, hi, j, hij, hj⟩

/-! ## Sorting -/

theorem uniqueFrom_spec {x : ModuleArchive} {xs : List ModuleArchive} :
    (uniqueFrom x xs).Sublist (x :: xs) ∧
      ∀ y ∈ x :: xs, ∃ z ∈ uniqueFrom x xs, z.modId = y.modId := by
  induction xs generalizing x with
  | nil => exact ⟨List.Sublist.refl _, fun y hy => ⟨y, hy, rfl⟩⟩
  | cons z zs ih =>
    unfold uniqueFrom
    split
    · next h =>
      obtain ⟨hsub, hall⟩ := @ih x
      refine ⟨hsub.trans (.cons_cons x (List.sublist_cons_self z zs)), fun y hy => ?_⟩
      rcases List.mem_cons.1 hy with rfl | hy
      · exact hall y List.mem_cons_self
      · rcases List.mem_cons.1 hy with rfl | hy
        · obtain ⟨w, hw, hid⟩ := hall x List.mem_cons_self
          exact ⟨w, hw, hid.trans h⟩
        · exact hall y (List.mem_cons_of_mem _ hy)
    · obtain ⟨hsub, hall⟩ := @ih z
      refine ⟨.cons_cons x hsub, fun y hy => ?_⟩
      rcases List.mem_cons.1 hy with rfl | hy
      · exact ⟨y, List.mem_cons_self, rfl⟩
      · obtain ⟨w, hw, hid⟩ := hall y hy
        exact ⟨w, List.mem_cons_of_mem _ hw, hid⟩

/-- Where archives with the same id are the same, sorting loses none, and the last has the largest
id. -/
theorem sortUnique_spec {targets : List ModuleArchive}
    (hsame : ∀ x ∈ targets, ∀ y ∈ targets, x.modId = y.modId → x = y) :
    (∀ x, x ∈ sortUnique targets ↔ x ∈ targets) ∧
      ∀ b ∈ (sortUnique targets).getLast?, ∀ x ∈ targets, x.modId ≤ b.modId := by
  have hsub : (sortUnique targets).Sublist
      (targets.insertionSort fun x y => x.modId ≤ y.modId) ∧
      ∀ y ∈ targets, ∃ z ∈ sortUnique targets, z.modId = y.modId := by
    unfold sortUnique
    have hperm := List.perm_insertionSort (fun x y : ModuleArchive => x.modId ≤ y.modId) targets
    split
    · next h =>
      rw [h] at hperm ⊢
      exact ⟨List.Sublist.refl _, fun y hy => absurd (hperm.mem_iff.2 hy) List.not_mem_nil⟩
    · next x xs h =>
      rw [h] at hperm ⊢
      exact ⟨uniqueFrom_spec.1, fun y hy => uniqueFrom_spec.2 y (hperm.mem_iff.2 hy)⟩
  have hmem : ∀ x, x ∈ sortUnique targets ↔ x ∈ targets := by
    intro x
    constructor
    · intro hx
      exact (List.mem_insertionSort _).1 (hsub.1.subset hx)
    · intro hx
      obtain ⟨z, hz, hid⟩ := hsub.2 x hx
      rwa [hsame x hx z ((List.mem_insertionSort _).1 (hsub.1.subset hz)) hid.symm]
  refine ⟨hmem, fun b hb x hx => ?_⟩
  have : Std.Total fun x y : ModuleArchive => x.modId ≤ y.modId := ⟨fun x y => Nat.le_total ..⟩
  have : IsTrans ModuleArchive fun x y => x.modId ≤ y.modId := ⟨fun x y z => Nat.le_trans⟩
  have hsorted := (List.pairwise_insertionSort (fun x y : ModuleArchive => x.modId ≤ y.modId)
    targets).sublist hsub.1
  obtain ⟨ys, hys⟩ := List.getLast?_eq_some_iff.1 hb
  rw [← hmem, hys] at hx
  rw [hys, List.pairwise_append] at hsorted
  rcases List.mem_append.1 hx with hx | hx
  · exact hsorted.2.2 x hx b List.mem_cons_self
  · rw [List.mem_singleton.1 hx]

/-! ## Visiting -/

/-- The result and the bits of a visit, when the ids in `grey` are being visited: their bits are
set, and so are those of the archives in the result, which are in topological order. -/
structure Visiting (v : ModuleArchives) (n : Nat) (grey : List Nat) (ret : List ModuleArchive)
    (used : List Bool) : Prop where
  length : used.length = n
  bits : ∀ j < n, used[j]? = some true ↔ j ∈ ret.map (·.modId) ∨ j ∈ grey
  topo : Topo v.Edge (ret.map (·.modId))
  found : ∀ x ∈ ret, v.find x.modId = some x

/-- What visiting from `start` has done. -/
def Visited (v : ModuleArchives) (n : Nat) (grey : List Nat) (start : Nat → Prop)
    (ret : List ModuleArchive) (st : Option (List ModuleArchive × List Bool)) : Prop :=
  ∃ ext used, st = some (ret ++ ext, used) ∧ Visiting v n grey (ret ++ ext) used ∧
    (∀ x ∈ ext, ∃ i, start i ∧ ReflTransGen v.Edge i x.modId) ∧
    ∀ i, start i → i ∈ (ret ++ ext).map (·.modId)

theorem visit_loop {β : Type} (key : β → Nat) {grey : List Nat} {xs : List β}
    {f : List ModuleArchive × List Bool → β → Option (List ModuleArchive × List Bool)}
    (hf : ∀ x ∈ xs, ∀ ret used, Visiting v n grey ret used →
      Visited v n grey (· = key x) ret (f (ret, used) x))
    {ret : List ModuleArchive} {used : List Bool} (h : Visiting v n grey ret used) :
    Visited v n grey (· ∈ xs.map key) ret (xs.foldlM f (ret, used)) := by
  induction xs generalizing ret used with
  | nil =>
    refine ⟨[], used, by rw [List.append_nil]; rfl, ?_, nofun, nofun⟩
    rw [List.append_nil]
    exact h
  | cons y ys ih =>
    obtain ⟨ext, used', he, hv', hext, hin⟩ := hf y List.mem_cons_self ret used h
    obtain ⟨ext', used'', he', hv'', hext', hin'⟩ :=
      ih (fun i hi => hf i (List.mem_cons_of_mem _ hi)) hv'
    rw [List.append_assoc] at he' hv'' hin'
    refine ⟨ext ++ ext', used'', ?_, hv'', fun x hx => ?_, fun j hj => ?_⟩
    · rw [List.foldlM_cons, he]
      exact he'
    · rcases List.mem_append.1 hx with hx | hx
      · obtain ⟨j, rfl, hj⟩ := hext x hx
        exact ⟨key y, List.mem_cons_self, hj⟩
      · obtain ⟨j, hj, hjx⟩ := hext' x hx
        exact ⟨j, List.mem_cons_of_mem _ hj, hjx⟩
    · rcases List.mem_cons.1 hj with rfl | hj
      · have := hin (key y) rfl
        rw [← List.append_assoc, List.map_append, List.mem_append]
        exact .inl this
      · exact hin' j hj

theorem visit_spec (hv : v.Closed) (ha : v.find k = some a) (hid : a.modId = k)
    (hn : ∀ j, ReflTransGen v.Edge k j → j < n) (hk : v.depth k < fuel) {grey : List Nat}
    (hg : ∀ g ∈ grey, TransGen v.Edge g k) {ret : List ModuleArchive} {used : List Bool}
    (h : Visiting v n grey ret used) : Visited v n grey (· = k) ret (v.visit fuel (ret, used) a) := by
  induction fuel generalizing k a grey ret used with
  | zero => omega
  | succ fuel ih =>
    have hkn : k < n := hn k .refl
    have hkg : k ∉ grey := fun hm => hv.acyclic k (hg k hm)
    unfold visit
    rw [hid]
    have hlt : k < used.length := by rw [h.length]; exact hkn
    rw [List.getElem?_eq_getElem hlt]
    cases hu : used[k] with
    | true =>
      have hmem : k ∈ ret.map (·.modId) := by
        refine ((h.bits k hkn).1 ?_).resolve_right hkg
        rw [List.getElem?_eq_getElem hlt, hu]
      refine ⟨[], used, by rw [List.append_nil]; rfl, ?_, nofun, fun i hi => ?_⟩
      · rw [List.append_nil]
        exact h
      · rw [List.append_nil, hi]
        exact hmem
    | false =>
      have hnmem : k ∉ ret.map (·.modId) := by
        intro hm
        have := (h.bits k hkn).2 (.inl hm)
        rw [List.getElem?_eq_getElem hlt, hu] at this
        cases this
      have hgrey : Visiting v n (k :: grey) ret (used.set k true) := by
        refine ⟨by rw [List.length_set]; exact h.length, fun j hj => ?_, h.topo, h.found⟩
        by_cases hjk : k = j
        · subst hjk
          rw [List.getElem?_set_self hlt]
          simp
        · rw [List.getElem?_set_ne hjk, h.bits j hj, List.mem_cons]
          simp [Ne.symm hjk]
      obtain ⟨ext, used', he, hvis, hext, hin⟩ := @visit_loop v n _ id (k :: grey) a.imported
        (fun st i => do
          let child ← v.find i
          v.visit fuel st child) (by
        intro i hi ret used hvis
        obtain ⟨c, hc, hci⟩ := hv.find_import ha hi
        have hedge : v.Edge k i := ⟨a, ha, hi⟩
        have hlt := hv.depth_lt_depth ha hi hc
        have := ih hc hci (fun j hj => hn j (.head hedge hj)) (by omega) (fun g hg' => by
          rcases List.mem_cons.1 hg' with rfl | hg'
          · exact .single hedge
          · exact (hg g hg').tail hedge) hvis
        rw [hc]
        exact this) ret (used.set k true) hgrey
      rw [List.map_id] at hext hin
      -- what was visited below cannot be the archive itself
      have hnext : k ∉ (ret ++ ext).map (·.modId) := by
        rw [List.map_append, List.mem_append]
        rintro (hm | hm)
        · exact hnmem hm
        · obtain ⟨x, hx, hxk⟩ := List.mem_map.1 hm
          obtain ⟨i, hi, hix⟩ := hext x hx
          rw [hxk] at hix
          exact hv.acyclic k (.head' ⟨a, ha, hi⟩ hix)
      refine ⟨ext ++ [a], used', ?_, ⟨hvis.length, fun j hj => ?_, ?_, ?_⟩, ?_, ?_⟩
      · simp only [Option.bind_eq_bind, Option.bind_some, Bool.false_eq_true, if_false] at he ⊢
        rw [he]
        simp
      · rw [hvis.bits j hj]
        simp [hid, or_assoc]
      · rw [← List.append_assoc, List.map_append, List.map_singleton, hid]
        apply hvis.topo.snoc hnext
        rintro b ⟨a', ha', hb⟩
        rw [ha] at ha'
        cases ha'
        exact hin b hb
      · intro x hx
        rw [← List.append_assoc, List.mem_append, List.mem_singleton] at hx
        rcases hx with hx | rfl
        · exact hvis.found x hx
        · rw [hid]
          exact ha
      · intro x hx
        refine ⟨k, rfl, ?_⟩
        rcases List.mem_append.1 hx with hx | hx
        · obtain ⟨i, hi, hix⟩ := hext x hx
          exact .head ⟨a, ha, hi⟩ hix
        · rw [List.mem_singleton.1 hx, hid]
      · rintro i rfl
        simp [hid]

/-! ## The order -/

theorem Closed.find_path (hv : v.Closed) (h : TransGen v.Edge k j) :
    ∃ c, v.find j = some c ∧ c.modId = j := by
  obtain ⟨i, -, a, ha, hj⟩ := TransGen.tail'_iff.1 h
  exact hv.find_import ha hj

/-- The archives that are collected are those that a path of imports leads to. -/
theorem targets_spec (hv : v.Closed) (ha : v.find k = some a) :
    ∃ targets, (a.imported.foldlM (fun targets i => do
        let child ← v.find i
        v.resolveTargets (v.values.length + 1) targets child) []) = some targets ∧
      ∀ x, x ∈ targets ↔ v.find x.modId = some x ∧ TransGen v.Edge k x.modId := by
  obtain ⟨targets, he, htargets⟩ := @resolve_loop v (fun targets i => do
    let child ← v.find i
    v.resolveTargets (v.values.length + 1) targets child) a.imported (by
      intro i hi targets
      obtain ⟨c, hc, -⟩ := hv.find_import ha hi
      rw [hc]
      exact resolveTargets_spec hv hc (v.depth_lt i) targets) []
  refine ⟨targets, he, fun x => ?_⟩
  rw [htargets]
  constructor
  · rintro (hx | ⟨i, hi, j, hij, hj⟩)
    · cases hx
    · have hkj : TransGen v.Edge k j := .head' ⟨a, ha, hi⟩ hij
      obtain ⟨c, hc, rfl⟩ := hv.find_path hkj
      rw [hj] at hc
      cases hc
      exact ⟨hj, hkj⟩
  · rintro ⟨hx, hkx⟩
    obtain ⟨i, ⟨a', ha', hi⟩, hix⟩ := TransGen.head'_iff.1 hkx
    rw [ha] at ha'
    cases ha'
    exact .inr ⟨i, hi, _, hix, hx⟩

/-- All dependencies of an archive in the table come once, each after those it imports. -/
theorem getDeps_spec (hv : v.Closed) (ha : v.find k = some a) :
    ∃ ret, v.getDepsByTopologicalOrder a = some ret ∧ (∀ x ∈ ret, v.find x.modId = some x) ∧
      (∀ j, j ∈ ret.map (·.modId) ↔ TransGen v.Edge k j) ∧ Topo v.Edge (ret.map (·.modId)) := by
  obtain ⟨targets, he, htargets⟩ := targets_spec hv ha
  unfold getDepsByTopologicalOrder
  rw [he]
  simp only [Option.bind_eq_bind, Option.bind_some]
  unfold topologicalSort
  by_cases hnil : targets = []
  · rw [if_pos hnil]
    refine ⟨[], rfl, nofun, fun j => ⟨nofun, fun hj => ?_⟩, .nil⟩
    obtain ⟨c, hc, rfl⟩ := hv.find_path hj
    have := (htargets c).2 ⟨hc, hj⟩
    rw [hnil] at this
    cases this
  rw [if_neg hnil]
  obtain ⟨hmem, hlast⟩ := @sortUnique_spec targets (by
    intro x hx y hy hxy
    have hx' := ((htargets x).1 hx).1
    rw [hxy, ((htargets y).1 hy).1] at hx'
    exact (Option.some.inj hx').symm)
  obtain ⟨x, hx⟩ := List.exists_mem_of_ne_nil _ hnil
  obtain ⟨b, hb⟩ : ∃ b, (sortUnique targets).getLast? = some b :=
    Option.isSome_iff_exists.1 (by
      rw [List.getLast?_isSome]
      exact List.ne_nil_of_mem ((hmem x).2 hx))
  simp only [hb, Option.bind_eq_bind, Option.bind_some]
  have hstart : Visiting v (b.modId + 1) [] [] (List.replicate (b.modId + 1) false) := by
    refine ⟨List.length_replicate, fun j hj => ?_, .nil, nofun⟩
    rw [List.getElem?_replicate]
    simp
  obtain ⟨ret, used, hvisit, hvis, hext, hin⟩ := @visit_loop v (b.modId + 1) _ ModuleArchive.modId []
    (sortUnique targets) (v.visit (v.values.length + 1)) (by
      intro x hx ret used hvis
      obtain ⟨hfind, hpath⟩ := (htargets x).1 ((hmem x).1 hx)
      refine visit_spec hv hfind rfl (fun j hj => ?_) (v.depth_lt _)
        (fun g hg => absurd hg List.not_mem_nil) hvis
      -- the last id is the largest one
      obtain ⟨c, hc, rfl⟩ := hv.find_path (hpath.trans_left hj)
      have := hlast b hb c ((htargets c).2 ⟨hc, hpath.trans_left hj⟩)
      omega) [] _ hstart
  rw [hvisit]
  rw [List.nil_append] at hvis hin ⊢
  refine ⟨ret, rfl, hvis.found, fun j => ⟨fun hj => ?_, fun hj => ?_⟩, hvis.topo⟩
  · obtain ⟨x, hx, rfl⟩ := List.mem_map.1 hj
    obtain ⟨i, hi, hix⟩ := hext x hx
    obtain ⟨y, hy, rfl⟩ := List.mem_map.1 hi
    exact ((htargets y).1 ((hmem y).1 hy)).2.trans_left hix
  · obtain ⟨c, hc, rfl⟩ := hv.find_path hj
    exact hin _ (List.mem_map_of_mem ((hmem c).2 ((htargets c).2 ⟨hc, hj⟩)))

/-! ## Runs -/

/-- One operation on the table. An archive that is added has its own id, imports real archives of
the table and closes no cycle; an id that is reserved is imported by nobody. -/
inductive Step (v : ModuleArchives) : ModuleArchives → Prop
  | add (a : ModuleArchive) (real : a.isEmpty = false)
      (imports : ∀ i ∈ a.imported, ∃ c, v.find i = some c ∧ c.isEmpty = false)
      (acyclic : Acyclic (v.add a).Edge) : Step v (v.add a)
  | reserve (k : Nat) (unused : ∀ k' a, (k', some a) ∈ v.values → k ∉ a.imported) :
      Step v (v.reserve k)
  | revert (S : List Nat) (w : ModuleArchives) (eq : v.revert S = some w) : Step v w
  | removeIfUnused (id : Nat) (b : Bool) (w : ModuleArchives)
      (eq : v.removeIfUnused id = some (b, w)) : Step v w

/-- The tables that a run of the analyzer can come to. -/
inductive Reachable : ModuleArchives → Prop
  | start : Reachable {}
  | step {v w : ModuleArchives} (h : Reachable v) (st : Step v w) : Reachable w

theorem Step.closed (h : v.Closed) (st : Step v w) : w.Closed := by
  cases st with
  | add a real imports acyclic => exact h.add real imports acyclic
  | reserve k unused => exact h.reserve unused
  | revert S _ eq => exact h.revert eq
  | removeIfUnused id b _ eq => exact h.removeIfUnused eq

theorem Closed.start : ({} : ModuleArchives).Closed where
  ascending := List.Pairwise.nil
  own := nofun
  imports := nofun
  acyclic a h := by
    obtain ⟨i, ⟨c, hc, -⟩, -⟩ := TransGen.head'_iff.1 h
    cases hc

theorem Reachable.closed (h : Reachable v) : v.Closed := by
  induction h with
  | start => exact .start
  | step _ st ih => exact st.closed ih

/-- In every state of a run: the imports of every archive are there and not null; `revert` nulls
exactly the archives with an id in the set, those that lead to one, and those that lead to nothing;
`removeIfUnused` is defined; and the dependencies of an archive come in topological order, all
assertions and indices on the way being valid. -/
theorem reachable_closed (h : Reachable v) :
    (∀ k a, v.find k = some a → ∀ i ∈ a.imported, ∃ c, v.find i = some c) ∧
    (∀ S, ∃ w, v.revert S = some w ∧ w.values.map Prod.fst = v.values.map Prod.fst ∧
      ∀ k a, w.find k = some a ↔ v.find k = some a ∧ ¬ v.Reaches S a) ∧
    (∀ id, (v.removeIfUnused id).isSome) ∧
    ∀ k a, v.find k = some a → ∃ ret, v.getDepsByTopologicalOrder a = some ret ∧
      (∀ x ∈ ret, v.find x.modId = some x) ∧
      (∀ j, j ∈ ret.map (·.modId) ↔ TransGen v.Edge k j) ∧ (ret.map (·.modId)).Nodup ∧
      ∀ pre x post, ret = pre ++ x :: post → ∀ i ∈ x.imported, i ∈ pre.map (·.modId) := by
  have hv := h.closed
  refine ⟨fun k a ha i hi => ?_, fun S => ?_, fun id => ?_, fun k a ha => ?_⟩
  · obtain ⟨c, hc, -⟩ := hv.find_import ha hi
    exact ⟨c, hc⟩
  · obtain ⟨w, hw, hkeys, hmem⟩ := revert_spec hv S
    refine ⟨w, hw, hkeys, fun k a => ?_⟩
    rw [find_eq_some (hv.revert hw).ascending, find_eq_some hv.ascending, hmem]
  · obtain ⟨b, w, hw, -⟩ := removeIfUnused_spec hv id
    rw [hw]
    rfl
  · obtain ⟨ret, he, hfound, hmem, htopo⟩ := getDeps_spec hv ha
    refine ⟨ret, he, hfound, hmem, htopo.nodup, ?_⟩
    rintro pre x post rfl i hi
    refine htopo.before (pre.map (·.modId)) x.modId (post.map (·.modId)) (by simp) i ?_
    exact ⟨x, hfound x (by simp), hi⟩

/-- The module 1 imports 2 and 3, and 2 imports 3. -/
def threeModules : ModuleArchives := ((({} : ModuleArchives).add ⟨3, []⟩).add ⟨2, [3]⟩).add ⟨1, [2, 3]⟩

theorem acyclic_of_lt (has : Ascending Prod.fst v.values)
    (h : ∀ e ∈ v.values, ∀ a ∈ e.2, ∀ i ∈ a.imported, e.1 < i) : Acyclic v.Edge := by
  apply Acyclic.of_lt (f := id)
  rintro i j ⟨a, ha, hj⟩
  exact h _ ((find_eq_some has).1 ha) a rfl j hj

theorem threeModules_reachable : Reachable threeModules := by
  have h₁ : Reachable (({} : ModuleArchives).add ⟨3, []⟩) :=
    Reachable.start.step (.add _ rfl (by decide) (acyclic_of_lt (add_spec List.Pairwise.nil _).1
      (by decide)))
  have h₂ : Reachable ((({} : ModuleArchives).add ⟨3, []⟩).add ⟨2, [3]⟩) :=
    h₁.step (.add _ rfl (by decide) (acyclic_of_lt (add_spec h₁.closed.ascending _).1 (by decide)))
  exact h₂.step (.add _ rfl (by decide) (acyclic_of_lt (add_spec h₂.closed.ascending _).1 (by decide)))

theorem threeModules_deps : ∃ ret, threeModules.getDepsByTopologicalOrder ⟨1, [2, 3]⟩ = some ret ∧
    (ret.map (·.modId)).Nodup := by
  obtain ⟨ret, he, -, -, hn, -⟩ :=
    (reachable_closed threeModules_reachable).2.2.2 1 ⟨1, [2, 3]⟩ (by decide)
  exact ⟨ret, he, hn⟩

/-- The entry of a reserved id is not nulled: the archive it holds has another id. -/
theorem revert_reserved : Reachable (({} : ModuleArchives).reserve 3) ∧
    ∃ w, (({} : ModuleArchives).reserve 3).revert [3] = some w ∧ w.find 3 = some emptyArchive :=
  ⟨Reachable.start.step (.reserve 3 nofun), _, rfl, by decide⟩

end ModuleArchives

end Arsh.Analyzer
