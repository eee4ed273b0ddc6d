import Arsh.Job.Table

/-!
# What the job table keeps

`Tables` couples the list of jobs, the job objects and the process table; `Pointers` is about the
current and the previous job. Every operation keeps both. A job ID is free at the place that
`findEmptyEntry` finds because the IDs ascend: from the first gap on they are all too large.
-/

namespace Arsh.Job

open Vec

/-! ## The process table -/

namespace ProcTable

variable {t : ProcTable} {pid : Int} {jobId offset i : Nat} {e : Entry}

theorem findProc_some (h : t.findProc pid = some i) :
    0 < pid ∧ i = lowerBound Entry.pid t.entries pid ∧ i < t.entries.length := by
  unfold findProc at h
  split at h
  · next hp =>
    simp only at h
    split at h
    · cases h
    · next hi =>
      cases h
      exact ⟨hp, rfl, Nat.lt_of_le_of_ne lowerBound_le hi⟩
  · cases h

/-- Adding a process whose pid is not in the table. -/
theorem addProc_fresh (hp : 0 < pid) (hj : jobId ≠ 0) (hf : ∀ e ∈ t.entries, e.pid ≠ pid) :
    (t.addProc pid jobId offset).2 = { t with
      entries := insertAt t.entries (lowerBound Entry.pid t.entries pid) ⟨pid, jobId, offset⟩ } := by
  unfold addProc
  rw [if_neg (by omega)]
  simp only
  rw [if_neg]
  intro h
  obtain ⟨e, he, rfl⟩ := Option.map_eq_some_iff.1 h
  exact hf e (List.mem_of_getElem? he) rfl

theorem addProc_negative (hp : pid < 0) : (t.addProc pid jobId offset).2 = t := by
  unfold addProc
  rw [if_pos (.inl hp)]

/-- The live processes of a job: what `add` is asked to enter. -/
def Lives (job : JobObject) (n : Nat) (e : Entry) : Prop :=
  e.procOffset < n ∧ e.jobId = job.jobID ∧
    ∃ p, job.procs[e.procOffset]? = some p ∧ p.state ≠ .terminated ∧ p.pid = e.pid

/-- The pids that a job brings along are positive, distinct and new. -/
structure Fresh (t : ProcTable) (job : JobObject) : Prop where
  positive : ∀ p ∈ job.procs, p.state ≠ .terminated → 0 < p.pid
  distinct : ∀ (i j : Nat) (p q : Proc), job.procs[i]? = some p → job.procs[j]? = some q →
    p.state ≠ .terminated → q.state ≠ .terminated → p.pid = q.pid → i = j
  new : ∀ p ∈ job.procs, p.state ≠ .terminated → ∀ e ∈ t.entries, e.pid ≠ p.pid

theorem add_spec {job : JobObject} (hs : Ascending Entry.pid t.entries) (hj : job.jobID ≠ 0)
    (hc : job.state ≠ .uncontrolled) (hf : t.Fresh job) :
    Ascending Entry.pid (t.add job).entries ∧ (t.add job).deletedCount = t.deletedCount ∧
      (t.add job).entries.countP (·.isDeleted) = t.entries.countP (·.isDeleted) ∧
      ∀ e, e ∈ (t.add job).entries ↔ e ∈ t.entries ∨ Lives job job.procs.length e := by
  unfold add
  -- on the number of processes that were added
  suffices ∀ n ≤ job.procs.length, ∀ u, u = (List.range n).foldl
      (fun t i => (t.addProc (job.getValidPid i) job.jobID i).2) t →
      Ascending Entry.pid u.entries ∧ u.deletedCount = t.deletedCount ∧
        u.entries.countP (·.isDeleted) = t.entries.countP (·.isDeleted) ∧
        ∀ e, e ∈ u.entries ↔ e ∈ t.entries ∨ Lives job n e from
    this _ (Nat.le_refl _) _ rfl
  intro n
  induction n with
  | zero =>
    rintro - u rfl
    exact ⟨hs, rfl, rfl, fun e => ⟨.inl, fun h => h.elim id fun h => absurd h.1 (Nat.not_lt_zero _)⟩⟩
  | succ n ih =>
    intro hn u hu
    rw [List.range_succ, List.foldl_append] at hu
    obtain ⟨has, hdel, hcount, hmem⟩ := ih (by omega) _ rfl
    generalize (List.range n).foldl
      (fun t i => (t.addProc (job.getValidPid i) job.jobID i).2) t = v at *
    simp only [List.foldl_cons, List.foldl_nil] at hu
    obtain ⟨p, hp⟩ : ∃ p, job.procs[n]? = some p := ⟨_, List.getElem?_eq_getElem hn⟩
    have hpid : job.getValidPid n = if p.state = .terminated then -1 else p.pid := by
      unfold JobObject.getValidPid
      rw [if_neg hc, hp]
    rw [hpid] at hu
    by_cases ht : p.state = .terminated
    · rw [if_pos ht, addProc_negative (by decide)] at hu
      subst hu
      refine ⟨has, hdel, hcount, fun e => (hmem e).trans (or_congr Iff.rfl ⟨?_, ?_⟩)⟩
      · rintro ⟨h, h'⟩
        exact ⟨by omega, h'⟩
      · rintro ⟨h, hid, q, hq, hl, hpq⟩
        refine ⟨Nat.lt_of_le_of_ne (by omega) fun he => ?_, hid, q, hq, hl, hpq⟩
        rw [he, hp] at hq
        cases hq
        exact hl ht
    · rw [if_neg ht] at hu
      have hmp : p ∈ job.procs := List.mem_of_getElem? hp
      have hnew : ∀ e ∈ v.entries, e.pid ≠ p.pid := by
        intro e he heq
        rcases (hmem e).1 he with he | ⟨hlt, -, q, hq, hl, hpq⟩
        · exact hf.new p hmp ht e he heq
        · have := hf.distinct _ _ q p hq hp hl ht (hpq.trans heq)
          omega
      rw [addProc_fresh (hf.positive p hmp ht) hj hnew] at hu
      subst hu
      refine ⟨Ascending.insertAt (x := ⟨p.pid, job.jobID, n⟩) has hnew, hdel, ?_, fun e => ?_⟩
      · rw [countP_insertAt, hcount]
        simp [Entry.isDeleted, hj]
      rw [mem_insertAt, hmem]
      constructor
      · rintro (rfl | he | ⟨h, h'⟩)
        · exact .inr ⟨Nat.lt_succ_self n, rfl, p, hp, ht, rfl⟩
        · exact .inl he
        · exact .inr ⟨by omega, h'⟩
      · rintro (he | ⟨h, hid, q, hq, hl, hpq⟩)
        · exact .inr (.inl he)
        · by_cases hlt : e.procOffset = n
          · left
            rw [hlt, hp] at hq
            cases hq
            rw [← hid, ← hlt, hpq]
          · exact .inr (.inr ⟨by omega, hid, q, hq, hl, hpq⟩)

theorem batchedRemove_entries (t : ProcTable) :
    t.batchedRemove = ⟨t.entries.filter fun e => !e.isDeleted, 0⟩ := by
  obtain ⟨ys, hys, -⟩ := pack_spec (fun e : Entry => !e.isDeleted) t.entries
  unfold batchedRemove
  rw [hys]
  simp

theorem deleteProc_of (h : t.entries[i]? = some e) (hd : e.jobId ≠ 0) :
    t.deleteProc i = ⟨t.entries.set i { e with jobId := 0 }, t.deletedCount + 1⟩ := by
  unfold deleteProc
  rw [h]
  simp [Entry.isDeleted, hd]

end ProcTable

/-! ## The first free job ID -/

section
variable {ids : List Nat}

/-- Ascending numbers are at least as far apart as their places. -/
theorem getElem_add_le (hs : ids.Pairwise (· < ·)) {j k x y : Nat} (hjk : j ≤ k)
    (hj : ids[j]? = some x) (hk : ids[k]? = some y) : x + (k - j) ≤ y := by
  induction k generalizing y with
  | zero =>
    obtain rfl : j = 0 := by omega
    rw [hj] at hk
    cases hk
    omega
  | succ k ih =>
    rcases Nat.lt_or_ge k j with h | h
    · obtain rfl : j = k + 1 := by omega
      rw [hj] at hk
      cases hk
      omega
    · obtain ⟨hlt, hy⟩ := List.getElem?_eq_some_iff.1 hk
      have hlt' : k < ids.length := by omega
      have hz : ids[k]? = some ids[k] := List.getElem?_eq_getElem hlt'
      have := List.pairwise_iff_getElem.1 hs k (k + 1) hlt' hlt (Nat.lt_succ_self k)
      have := ih h hz
      omega

theorem lt_getElem (hs : ids.Pairwise (· < ·)) (hp : ∀ x ∈ ids, 0 < x) {k y : Nat}
    (hk : ids[k]? = some y) : k < y := by
  obtain ⟨hlt, -⟩ := List.getElem?_eq_some_iff.1 hk
  have h0 : ids[0]? = some ids[0] := List.getElem?_eq_getElem (by omega)
  have := getElem_add_le hs (Nat.zero_le k) h0 hk
  have := hp ids[0] (List.getElem_mem (by omega))
  omega

/-- The places that hold their own ID come first. -/
theorem full_of_lt (hs : ids.Pairwise (· < ·)) (hp : ∀ x ∈ ids, 0 < x) {j k : Nat} (hjk : j < k)
    (hk : ids[k]? = some (k + 1)) : ids[j]? = some (j + 1) := by
  obtain ⟨hlt, -⟩ := List.getElem?_eq_some_iff.1 hk
  have hj : ids[j]? = some ids[j] := List.getElem?_eq_getElem (by omega)
  have := getElem_add_le hs hjk.le hj hk
  have := lt_getElem hs hp hj
  rw [hj, show ids[j] = j + 1 by omega]

theorem findEmptyLoop_spec (hs : ids.Pairwise (· < ·)) (hp : ∀ x ∈ ids, 0 < x)
    {fuel first dist : Nat} (hd : dist ≤ fuel) (hlo : ∀ j < first, ids[j]? = some (j + 1))
    (hhi : ids[first + dist]? ≠ some (first + dist + 1)) :
    (∀ j < JobTable.findEmptyLoop ids fuel first dist, ids[j]? = some (j + 1)) ∧
      ids[JobTable.findEmptyLoop ids fuel first dist]? ≠
        some (JobTable.findEmptyLoop ids fuel first dist + 1) := by
  induction fuel generalizing first dist with
  | zero =>
    obtain rfl : dist = 0 := by omega
    exact ⟨hlo, hhi⟩
  | succ fuel ih =>
    unfold JobTable.findEmptyLoop
    split
    · next h =>
      subst h
      exact ⟨hlo, hhi⟩
    · next h =>
      simp only
      split
      · next hm =>
        refine ih (by omega) (fun j hj => ?_) ?_
        · rcases Nat.lt_or_ge j (dist / 2 + first) with hj' | hj'
          · exact full_of_lt hs hp hj' hm
          · rwa [show j = dist / 2 + first by omega]
        · rwa [show dist / 2 + first + 1 + (dist - dist / 2 - 1) = first + dist by omega]
      · next hm =>
        refine ih (by omega) hlo ?_
        rwa [Nat.add_comm first]

end

/-! ## The invariant -/

namespace JobTable

/-- The entry is the one of a live process of an attached job. -/
def Maps (s : JobTable) (e : ProcTable.Entry) : Prop :=
  ∃ r ∈ s.jobs, s.jobID r = e.jobId ∧ (s.heap r).state = .available ∧
    ∃ p, (s.heap r).procs[e.procOffset]? = some p ∧ p.pid = e.pid ∧ p.state ≠ .terminated

/-- The list of jobs, the job objects and the process table fit together. -/
structure Tables (s : JobTable) : Prop where
  ascending : Ascending s.jobID s.jobs
  attached : ∀ r, s.jobID r ≠ 0 ↔ r ∈ s.jobs
  pids : Ascending ProcTable.Entry.pid s.procTable.entries
  positive : ∀ e ∈ s.procTable.entries, 0 < e.pid
  sound : ∀ e ∈ s.procTable.entries, e.jobId ≠ 0 → s.Maps e
  complete : ∀ r ∈ s.jobs, (s.heap r).state = .available → ∀ (i : Nat) (p : Proc),
    (s.heap r).procs[i]? = some p → p.state ≠ .terminated →
      ⟨p.pid, s.jobID r, i⟩ ∈ s.procTable.entries
  deleted : s.procTable.deletedCount = s.procTable.entries.countP (·.isDeleted)
  ended : ∀ r ∈ s.jobs, (s.heap r).state = .terminated → ∀ p ∈ (s.heap r).procs,
    p.state = .terminated

/-- A job that has left the table after control of it was lost. -/
def Lost (s : JobTable) (r : Nat) : Prop :=
  r ∉ s.jobs ∧ (s.heap r).state = .uncontrolled ∧ (s.heap r).disowned = true

/-- The current and the previous job. -/
structure Pointers (s : JobTable) : Prop where
  cur : ∀ r ∈ s.cur, r ∈ s.jobs ∨ s.Lost r
  prev : ∀ r ∈ s.prev, r ∈ s.jobs ∨ s.Lost r
  both : s.prev.isSome → s.cur.isSome
  differ : ∀ r ∈ s.cur, s.prev ≠ some r

variable {s t : JobTable} {r : Nat}

theorem Tables.ids (h : s.Tables) : (s.jobs.map s.jobID).Pairwise (· < ·) :=
  List.pairwise_map.2 h.ascending

theorem Tables.ids_pos (h : s.Tables) : ∀ x ∈ s.jobs.map s.jobID, 0 < x := by
  intro x hx
  obtain ⟨r, hr, rfl⟩ := List.mem_map.1 hx
  exact Nat.pos_of_ne_zero ((h.attached r).2 hr)

theorem Tables.nodup (h : s.Tables) : s.jobs.Nodup :=
  h.ascending.imp fun {a b} hlt hab => by rw [hab] at hlt; exact lt_irrefl _ hlt

theorem Tables.eq_of_jobID (h : s.Tables) {r r' : Nat} (hr : r ∈ s.jobs) (hr' : r' ∈ s.jobs)
    (he : s.jobID r = s.jobID r') : r = r' := h.ascending.eq_of_key hr hr' he

theorem modify_heap (f : JobObject → JobObject) (x : Nat) :
    (s.modify r f).heap x = if x = r then f (s.heap r) else s.heap x := Function.update_apply ..

/-- What the tables are read from. -/
theorem Tables.congr (h : s.Tables) (hj : t.jobs = s.jobs) (hp : t.procTable = s.procTable)
    (hid : ∀ r, t.jobID r = s.jobID r) (hst : ∀ r ∈ s.jobs, (t.heap r).state = (s.heap r).state)
    (hpr : ∀ r ∈ s.jobs, (t.heap r).procs = (s.heap r).procs) : t.Tables where
  ascending := by
    rw [hj, show t.jobID = s.jobID from funext hid]
    exact h.ascending
  attached r := by rw [hid, hj, h.attached]
  pids := by rw [hp]; exact h.pids
  positive := by rw [hp]; exact h.positive
  sound e he hne := by
    rw [hp] at he
    obtain ⟨r, hr, h₁, h₂, h₃⟩ := h.sound e he hne
    refine ⟨r, hj ▸ hr, (hid r).trans h₁, (hst r hr).trans h₂, ?_⟩
    rw [hpr r hr]
    exact h₃
  complete r hr hav i p hi hl := by
    rw [hj] at hr
    rw [hst r hr] at hav
    rw [hpr r hr] at hi
    rw [hp, hid]
    exact h.complete r hr hav i p hi hl
  deleted := by rw [hp]; exact h.deleted
  ended r hr := by
    rw [hj] at hr
    rw [hst r hr, hpr r hr]
    exact h.ended r hr

/-- The places below that of `findEmptyEntry` hold their own ID, the others larger ones. -/
theorem Tables.findEmptyEntry_getElem (h : s.Tables) :
    (∀ r ∈ s.jobs.take s.findEmptyEntry, s.jobID r < s.findEmptyEntry + 1) ∧
      (∀ r ∈ s.jobs.drop s.findEmptyEntry, s.findEmptyEntry + 1 < s.jobID r) ∧
      (∀ j < s.findEmptyEntry, ∃ r ∈ s.jobs, s.jobID r = j + 1) ∧
      s.findEmptyEntry ≤ s.jobs.length := by
  obtain ⟨hlo, hhi⟩ := findEmptyLoop_spec h.ids h.ids_pos (Nat.le_refl _)
    (fun j hj => absurd hj (Nat.not_lt_zero j)) (by simp : (s.jobs.map s.jobID)[0 + s.jobs.length]? ≠
      some (0 + s.jobs.length + 1))
  change ∀ j < s.findEmptyEntry, _ at hlo
  change (s.jobs.map s.jobID)[s.findEmptyEntry]? ≠ some (s.findEmptyEntry + 1) at hhi
  generalize s.findEmptyEntry = i at *
  refine ⟨fun r hr => ?_, fun r hr => ?_, fun j hj => ?_, ?_⟩
  · obtain ⟨k, hk, rfl⟩ := List.getElem_of_mem hr
    rw [List.length_take] at hk
    have := hlo k (by omega)
    rw [List.getElem?_map, List.getElem?_eq_getElem (by omega)] at this
    simp only [Option.map_some, Option.some.injEq] at this
    rw [List.getElem_take]
    omega
  · obtain ⟨k, hk, rfl⟩ := List.getElem_of_mem hr
    rw [List.length_drop] at hk
    have hget : (s.jobs.map s.jobID)[i + k]? = some (s.jobID s.jobs[i + k]) := by
      rw [List.getElem?_map, List.getElem?_eq_getElem (by omega)]
      rfl
    have := lt_getElem h.ids h.ids_pos hget
    rw [List.getElem_drop]
    refine Nat.lt_of_le_of_ne (by omega) fun he => ?_
    obtain rfl : k = 0 := by omega
    exact hhi (by rw [he]; exact hget)
  · obtain ⟨r, hr, hid⟩ := List.mem_map.1 (List.mem_of_getElem? (hlo j hj))
    exact ⟨r, hr, hid⟩
  · by_contra hlt
    have := hlo s.jobs.length (by omega)
    simp at this

/-- The new job ID is the smallest positive one that is not in use. -/
theorem Tables.findEmptyEntry_least (h : s.Tables) :
    (∀ n, 1 ≤ n → n < s.findEmptyEntry + 1 → ∃ r ∈ s.jobs, s.jobID r = n) ∧
      ∀ r ∈ s.jobs, s.jobID r ≠ s.findEmptyEntry + 1 := by
  obtain ⟨hlo, hhi, huse, -⟩ := h.findEmptyEntry_getElem
  constructor
  · intro n h₁ h₂
    obtain ⟨r, hr, hid⟩ := huse (n - 1) (by omega)
    exact ⟨r, hr, by omega⟩
  · intro r hr
    rw [← List.take_append_drop s.findEmptyEntry s.jobs, List.mem_append] at hr
    rcases hr with hr | hr
    · have := hlo r hr
      omega
    · have := hhi r hr
      omega

/-! ## Pointers -/

/-- What the pointers are read from. -/
theorem Pointers.congr (h : s.Pointers) (hj : t.jobs = s.jobs) (hc : t.cur = s.cur)
    (hp : t.prev = s.prev) (hl : ∀ r, s.Lost r → t.Lost r) : t.Pointers where
  cur r hr := by
    rw [hc] at hr
    rw [hj]
    exact (h.cur r hr).imp_right (hl r)
  prev r hr := by
    rw [hp] at hr
    rw [hj]
    exact (h.prev r hr).imp_right (hl r)
  both := by rw [hc, hp]; exact h.both
  differ := by rw [hc, hp]; exact h.differ

@[simp] theorem test_none {p : JobObject → Bool} : s.test p none = false := rfl

@[simp] theorem test_some {p : JobObject → Bool} : s.test p (some r) = p (s.heap r) := rfl

theorem Pointers.setCurrentJob (ht : s.Tables) (h : s.Pointers) (r : Nat) :
    (s.setCurrentJob r).Pointers := by
  unfold JobTable.setCurrentJob
  simp only
  split
  · next hr =>
    refine ⟨?_, ?_, fun _ => rfl, ?_⟩
    · intro x hx
      obtain rfl : r = x := Option.some.inj hx
      exact .inl ((ht.attached r).1 hr.1)
    · intro x hx
      simp only at hx
      split at hx
      · cases hx
      · exact h.cur x hx
    · intro x hx
      obtain rfl : r = x := Option.some.inj hx
      simp only
      split
      · exact nofun
      · exact hr.2.2.2.2
  · exact h

theorem syncLoop_spec {js : List Nat} {cur : Option Nat} (hj : js ⊆ s.jobs) :
    (∀ r ∈ (s.syncLoop js cur).1, r ∈ s.jobs ∨ r ∈ cur) ∧ (∀ r ∈ (s.syncLoop js cur).2, r ∈ s.jobs) ∧
      ((s.syncLoop js cur).2.isSome → (s.syncLoop js cur).1.isSome) ∧
      ∀ r ∈ (s.syncLoop js cur).1, (s.syncLoop js cur).2 ≠ some r := by
  induction js generalizing cur with
  | nil => exact ⟨fun r hr => .inr hr, nofun, nofun, nofun⟩
  | cons j js ih =>
    have hjs : js ⊆ s.jobs := fun x hx => hj (List.mem_cons_of_mem _ hx)
    unfold syncLoop
    split
    · exact ih hjs
    · split
      · exact ih hjs
      · next hne =>
        cases cur with
        | none =>
          obtain ⟨h₁, h₂⟩ := @ih (some j) hjs
          refine ⟨fun r hr => .inl ?_, h₂⟩
          rcases h₁ r hr with h | h
          · exact h
          · cases h
            exact hj List.mem_cons_self
        | some c =>
          refine ⟨fun r hr => .inr hr, ?_, fun _ => rfl, ?_⟩
          · intro r hr
            obtain rfl : j = r := Option.some.inj hr
            exact hj List.mem_cons_self
          · intro r hr h
            obtain rfl : c = r := Option.some.inj hr
            exact hne h

/-- What is handed out is in the table: a job that has left it is disowned. -/
theorem Pointers.sync (h : s.Pointers) :
    s.syncAndGetCurPrevJobs.Pointers ∧
      (∀ r ∈ s.syncAndGetCurPrevJobs.cur, r ∈ s.jobs) ∧
      ∀ r ∈ s.syncAndGetCurPrevJobs.prev, r ∈ s.jobs := by
  have howned : ∀ {x : Option Nat}, (∀ r ∈ x, r ∈ s.jobs ∨ s.Lost r) →
      s.test (·.disowned) x = false → ∀ r ∈ x, r ∈ s.jobs := by
    rintro x hx hd r rfl
    rcases hx r rfl with hr | ⟨-, -, hr⟩
    · exact hr
    · rw [test_some, hr] at hd
      cases hd
  -- the pointers without those that are disowned
  obtain ⟨cur, prev, hcp, hcur, hprev, hboth, hdiff⟩ : ∃ cur prev,
      (if s.test (·.disowned) s.cur then
        (if s.test (·.disowned) s.prev then none else s.prev, none)
      else (s.cur, if s.test (·.disowned) s.prev then none else s.prev)) = (cur, prev) ∧
      (∀ r ∈ cur, r ∈ s.jobs) ∧ (∀ r ∈ prev, r ∈ s.jobs) ∧ (prev.isSome → cur.isSome) ∧
      ∀ r ∈ cur, prev ≠ some r := by
    have hp : ∀ r ∈ (if s.test (·.disowned) s.prev then none else s.prev), r ∈ s.jobs := by
      intro r hr
      split at hr
      · cases hr
      · next hd => exact howned h.prev (by simpa using hd) r hr
    split
    · exact ⟨_, _, rfl, hp, nofun, nofun, nofun⟩
    · next hd =>
      refine ⟨_, _, rfl, howned h.cur (by simpa using hd), hp, ?_, ?_⟩
      · split
        · exact nofun
        · exact h.both
      · intro r hr
        split
        · exact nofun
        · exact h.differ r hr
  unfold syncAndGetCurPrevJobs
  simp only
  rw [hcp]
  simp only
  split
  · next hn =>
    obtain ⟨h₁, h₂, h₃, h₄⟩ := @syncLoop_spec s s.jobs.reverse cur fun x hx => List.mem_reverse.1 hx
    have h₁' : ∀ r ∈ (s.syncLoop s.jobs.reverse cur).1, r ∈ s.jobs := fun r hr =>
      (h₁ r hr).elim id (hcur r)
    exact ⟨⟨fun r hr => .inl (h₁' r hr), fun r hr => .inl (h₂ r hr), h₃, h₄⟩, h₁', h₂⟩
  · exact ⟨⟨fun r hr => .inl (hcur r hr), fun r hr => .inl (hprev r hr), hboth, hdiff⟩, hcur, hprev⟩

/-- Synchronizing looks at the tables only. -/
theorem sync_tables : s.syncAndGetCurPrevJobs.heap = s.heap ∧
    s.syncAndGetCurPrevJobs.jobs = s.jobs ∧ s.syncAndGetCurPrevJobs.procTable = s.procTable := by
  unfold syncAndGetCurPrevJobs
  simp only
  split_ifs <;> exact ⟨rfl, rfl, rfl⟩

/-! ## Attaching -/

theorem setCurrentJob_tables : (s.setCurrentJob r).heap = s.heap ∧
    (s.setCurrentJob r).jobs = s.jobs ∧ (s.setCurrentJob r).procTable = s.procTable := by
  unfold setCurrentJob
  simp only
  split_ifs <;> exact ⟨rfl, rfl, rfl⟩

/-- The job gets the free ID and its processes get their entries. -/
def enter (s : JobTable) (r : Nat) : JobTable :=
  { s with
    jobs := insertAt s.jobs s.findEmptyEntry r
    heap := Function.update s.heap r { s.heap r with jobID := (s.findEmptyEntry + 1) % 2 ^ 16 }
    procTable := s.procTable.add
      { s.heap r with jobID := (s.findEmptyEntry + 1) % 2 ^ 16 } }

theorem enter_heap_self : (s.enter r).heap r =
    { s.heap r with jobID := (s.findEmptyEntry + 1) % 2 ^ 16 } := Function.update_self ..

theorem enter_heap_of_ne {x : Nat} (hx : x ≠ r) : (s.enter r).heap x = s.heap x :=
  Function.update_of_ne hx ..

/-- What makes the processes of a new job the children of the shell: `fork` has not failed for the
size of the table, and their pids are positive, distinct and those of no entry of the table. -/
structure Forked (s : JobTable) (r : Nat) : Prop where
  size : s.jobs.length < jobTableSizeLimit
  owned : (s.heap r).disowned = false
  pids : s.procTable.Fresh (s.heap r)

/-- Once the entries of the processes that were waited for are gone, a pid is new when it is the
one of no live process: this much the system promises. -/
theorem Tables.fresh (h : s.Tables) (hr : s.procTable.deletedCount = 0)
    (hpos : ∀ p ∈ (s.heap r).procs, p.state ≠ .terminated → 0 < p.pid)
    (hdis : ∀ (i j : Nat) (p q : Proc), (s.heap r).procs[i]? = some p →
      (s.heap r).procs[j]? = some q → p.state ≠ .terminated → q.state ≠ .terminated →
        p.pid = q.pid → i = j)
    (hnew : ∀ p ∈ (s.heap r).procs, p.state ≠ .terminated → ∀ r' ∈ s.jobs,
      ∀ q ∈ (s.heap r').procs, q.state ≠ .terminated → q.pid ≠ p.pid) :
    s.procTable.Fresh (s.heap r) where
  positive := hpos
  distinct := hdis
  new p hp hl e he := by
    -- no entry is deleted
    have hne : e.jobId ≠ 0 := by
      rw [h.deleted, List.countP_eq_zero] at hr
      simpa [ProcTable.Entry.isDeleted] using hr e he
    obtain ⟨r', hr', -, -, q, hq, hqp, hql⟩ := h.sound e he hne
    rw [← hqp]
    exact hnew p hp hl r' hr' q (List.mem_of_getElem? hq) hql

theorem Tables.enter (h : s.Tables) (hf : s.Forked r) (h0 : s.jobID r = 0)
    (hav : (s.heap r).state = .available) : (s.enter r).Tables := by
  obtain ⟨hlo, hhi, -, hle⟩ := h.findEmptyEntry_getElem
  have hsize := hf.size
  unfold jobTableSizeLimit at hsize
  have hnew : r ∉ s.jobs := fun hr => (h.attached r).2 hr h0
  have hmod : (s.findEmptyEntry + 1) % 2 ^ 16 = s.findEmptyEntry + 1 :=
    Nat.mod_eq_of_lt (by omega)
  have hself : (s.enter r).jobID r = s.findEmptyEntry + 1 := by
    unfold JobTable.jobID
    rw [enter_heap_self]
    exact hmod
  have hid : ∀ x, x ≠ r → (s.enter r).jobID x = s.jobID x := fun x hx => by
    unfold JobTable.jobID
    rw [enter_heap_of_ne hx]
  have hmem : ∀ x, x ∈ (s.enter r).jobs ↔ x = r ∨ x ∈ s.jobs := fun x => mem_insertAt
  obtain ⟨hpids, hdel, hcount, hent⟩ := @ProcTable.add_spec s.procTable
    { s.heap r with jobID := (s.findEmptyEntry + 1) % 2 ^ 16 } h.pids
    (by rw [hmod]; exact Nat.succ_ne_zero _) (by rw [hav]; exact nofun)
    ⟨hf.pids.positive, hf.pids.distinct, hf.pids.new⟩
  change Ascending _ (s.enter r).procTable.entries at hpids
  change (s.enter r).procTable.deletedCount = _ at hdel
  change (s.enter r).procTable.entries.countP _ = _ at hcount
  change ∀ e, e ∈ (s.enter r).procTable.entries ↔ _ at hent
  have hne : ∀ x ∈ s.jobs, x ≠ r := fun x hx he => hnew (he ▸ hx)
  refine ⟨?_, ?_, hpids, ?_, ?_, ?_, ?_, ?_⟩
  · apply Ascending.insertAt_of
    · refine List.Pairwise.imp_of_mem ?_ h.ascending
      intro a b ha hb hab
      rwa [hid a (hne a ha), hid b (hne b hb)]
    · intro y hy
      rw [hself, hid y (hne y (List.mem_of_mem_take hy))]
      exact hlo y hy
    · intro y hy
      rw [hself, hid y (hne y (List.mem_of_mem_drop hy))]
      exact hhi y hy
  · intro x
    rw [hmem]
    by_cases hx : x = r
    · subst hx
      rw [hself]
      simp
    · rw [hid x hx, h.attached]
      simp [hx]
  · intro e he
    rcases (hent e).1 he with he | ⟨-, -, p, hp, hl, hpe⟩
    · exact h.positive e he
    · rw [← hpe]
      exact hf.pids.positive p (List.mem_of_getElem? hp) hl
  · intro e he hne0
    rcases (hent e).1 he with he | ⟨-, hje, p, hp, hl, hpe⟩
    · obtain ⟨x, hx, h₁, h₂⟩ := h.sound e he hne0
      refine ⟨x, (hmem x).2 (.inr hx), ?_⟩
      rw [hid x (hne x hx), enter_heap_of_ne (hne x hx)]
      exact ⟨h₁, h₂⟩
    · refine ⟨r, (hmem r).2 (.inl rfl), ?_⟩
      rw [hself, enter_heap_self, hje, hmod]
      exact ⟨rfl, hav, p, hp, hpe, hl⟩
  · intro x hx hxa i p hi hl
    rw [hent]
    rcases (hmem x).1 hx with rfl | hx
    · right
      rw [enter_heap_self] at hi
      refine ⟨(List.getElem?_eq_some_iff.1 hi).1, ?_, p, hi, hl, rfl⟩
      rw [hself, hmod]
    · left
      rw [enter_heap_of_ne (hne x hx)] at hxa hi
      rw [hid x (hne x hx)]
      exact h.complete x hx hxa i p hi hl
  · rw [hdel, h.deleted, hcount]
  · intro x hx
    rcases (hmem x).1 hx with rfl | hx
    · rw [enter_heap_self, hav]
      exact nofun
    · rw [enter_heap_of_ne (hne x hx)]
      exact h.ended x hx

end JobTable

end Arsh.Job
