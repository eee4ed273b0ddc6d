import Arsh.Job.Run

/-!
# Safety of the job table

What holds of the table in every state of a run: how the jobs, the processes and the current and
previous job fit together, and which wait results reach the process they are about.
-/

namespace Arsh.Job

open Vec

namespace JobTable

variable {s t : JobTable} {r : Nat}

/-! ## The job of a result -/

/-- The pid is in the table or above all pids there. -/
def Covers (s : JobTable) (pid : Int) : Prop :=
  pid ≤ 0 ∨ (∃ e ∈ s.procTable.entries, e.pid = pid) ∨ ∀ e ∈ s.procTable.entries, e.pid < pid

/-- `findProc` returns the entry with the pid, if there is one. -/
def FindsExactly (s : JobTable) (pid : Int) : Prop :=
  (∀ k, s.procTable.findProc pid = some k → s.procTable.entries[k]?.map (·.pid) = some pid) ∧
    ((s.procTable.findProc pid).isSome ↔ ∃ e ∈ s.procTable.entries, e.pid = pid)

/-- The process with the pid gets the result, and its job learns of it: nothing else is changed in
the tables. A result for another pid changes nothing. -/
inductive Attributes (s : JobTable) (ret : WaitResult) : Prop
  | absent (pid : ∀ e ∈ s.procTable.entries, e.pid ≠ ret.pid)
      (eq : s.updateProcState ret = some (s, none))
  | present (t : JobTable) (r i : Nat) (p : Proc)
      (eq : s.updateProcState ret = some (t, some (r, i)))
      (job : r ∈ s.jobs) (proc : (s.heap r).procs[i]? = some p) (pid : p.pid = ret.pid)
      (jobs : t.jobs = s.jobs) (other : ∀ x, x ≠ r → t.heap x = s.heap x)
      (self : t.heap r =
        JobObject.updateState { s.heap r with procs := (s.heap r).procs.set i (p.updateState ret) })
      (entries : ∀ e, e.pid ≠ ret.pid → (e ∈ t.procTable.entries ↔ e ∈ s.procTable.entries))

theorem findProc_of_mem (h : s.Tables) {e : ProcTable.Entry} (he : e ∈ s.procTable.entries) :
    ∃ k, s.procTable.findProc e.pid = some k ∧ s.procTable.entries[k]? = some e := by
  obtain ⟨hget, -⟩ := (getElem?_lowerBound h.pids).2 ⟨he, rfl⟩
  refine ⟨_, ?_, hget⟩
  unfold ProcTable.findProc
  rw [if_pos (h.positive e he)]
  exact if_neg (Nat.ne_of_lt (List.getElem?_eq_some_iff.1 hget).1)

/-- Without such an entry the search comes to the one with the next larger pid. -/
theorem findProc_of_not_mem {pid : Int}
    (hn : ∀ e ∈ s.procTable.entries, e.pid ≠ pid) :
    (s.Covers pid ∧ s.procTable.findProc pid = none) ∨ ¬ s.Covers pid ∧
      ∃ k e, s.procTable.findProc pid = some k ∧ s.procTable.entries[k]? = some e ∧ pid < e.pid := by
  have hne : ¬ ∃ e ∈ s.procTable.entries, e.pid = pid := fun ⟨e, he, hp⟩ => hn e he hp
  by_cases hp : 0 < pid
  · by_cases hlen : lowerBound ProcTable.Entry.pid s.procTable.entries pid =
        s.procTable.entries.length
    · refine .inl ⟨.inr (.inr (lowerBound_eq_length.1 hlen)), ?_⟩
      unfold ProcTable.findProc
      rw [if_pos hp]
      exact if_pos hlen
    · have hlt := Nat.lt_of_le_of_ne lowerBound_le hlen
      have hget := List.getElem?_eq_getElem hlt
      refine .inr ⟨?_, _, _, ?_, hget, ?_⟩
      · rintro (h' | h' | h')
        · omega
        · exact hne h'
        · exact hlen (lowerBound_eq_length.2 h')
      · unfold ProcTable.findProc
        rw [if_pos hp]
        exact if_neg hlen
      · exact lt_of_le_of_ne (le_key_of_getElem? hget) (Ne.symm (hn _ (List.getElem_mem hlt)))
  · refine .inl ⟨.inl (by omega), ?_⟩
    unfold ProcTable.findProc
    rw [if_neg hp]

theorem findsExactly_iff (h : s.Tables) (pid : Int) : s.FindsExactly pid ↔ s.Covers pid := by
  by_cases hm : ∃ e ∈ s.procTable.entries, e.pid = pid
  · refine ⟨fun _ => .inr (.inl hm), fun _ => ?_⟩
    obtain ⟨e, he, rfl⟩ := hm
    obtain ⟨k, hk, hke⟩ := findProc_of_mem h he
    constructor
    · intro k' hk'
      rw [hk] at hk'
      cases hk'
      rw [hke]
      rfl
    · rw [hk]
      exact ⟨fun _ => ⟨e, he, rfl⟩, fun _ => rfl⟩
  · rcases findProc_of_not_mem fun e he hp => hm ⟨e, he, hp⟩ with ⟨hc, hf⟩ | ⟨hc, k, e, hf, he, hlt⟩
    · refine ⟨fun _ => hc, fun _ => ⟨fun k hk => ?_, ?_⟩⟩
      · rw [hf] at hk
        cases hk
      · rw [hf]
        exact ⟨nofun, fun h' => absurd h' hm⟩
    · refine ⟨fun hx => absurd (hx.2.1 (by rw [hf]; rfl)) hm, fun h' => absurd h' hc⟩

theorem attributes_iff (h : s.Tables) (ret : WaitResult) : s.Attributes ret ↔
    s.Covers ret.pid ∧ ∀ e ∈ s.procTable.entries, e.pid = ret.pid → e.jobId ≠ 0 := by
  by_cases hm : ∃ e ∈ s.procTable.entries, e.pid = ret.pid
  · obtain ⟨e, he, hpid⟩ := hm
    obtain ⟨k, hk, hke⟩ := findProc_of_mem h he
    rw [hpid] at hk
    rcases h.updateProcState_cases ret with ⟨hf, -⟩ | ⟨k', e', hf, he', h0, hu⟩ |
      ⟨k', e', r, p, t, hf, he', h0, hr, -, -, hp, hpe, -, hu, hup⟩
    · rw [hf] at hk
      cases hk
    · -- the entry is deleted, and dereferencing the end is undefined
      rw [hf] at hk
      cases hk
      rw [hke] at he'
      cases he'
      constructor
      · rintro (⟨hn, -⟩ | ⟨t, r, i, p, hu', -⟩)
        · exact absurd hpid (hn e he)
        · rw [hu] at hu'
          cases hu'
      · rintro ⟨-, hd⟩
        exact absurd h0 (hd e he hpid)
    · rw [hf] at hk
      cases hk
      rw [hke] at he'
      cases he'
      refine ⟨fun _ => ⟨.inr (.inl ⟨e, he, hpid⟩), fun e' he' hpid' => ?_⟩, fun _ => ?_⟩
      · rwa [h.pids.eq_of_key he' he (hpid'.trans hpid.symm)]
      · refine .present t r e.procOffset p hu hr hp (hpe.trans hpid) hup.jobs
          (fun x hx => hup.heap_of_ne hx) hup.heap_self fun x hx => ?_
        rw [hup.procTable]
        split
        · rw [ProcTable.deleteProc_of hke h0, h.pids.mem_set hke]
          constructor
          · rintro (rfl | ⟨hx', -⟩)
            · exact absurd hpid hx
            · exact hx'
          · intro hx'
            exact .inr ⟨hx', fun hxe => hx (hxe ▸ hpid)⟩
        · exact Iff.rfl
  · have hn : ∀ e ∈ s.procTable.entries, e.pid ≠ ret.pid := fun e he hp => hm ⟨e, he, hp⟩
    rcases findProc_of_not_mem hn with ⟨hc, hf⟩ | ⟨hc, k, e, hf, he, hlt⟩
    · refine ⟨fun _ => ⟨hc, fun e he hp => absurd hp (hn e he)⟩, fun _ => .absent hn ?_⟩
      unfold updateProcState
      rw [hf]
    · refine ⟨fun ha => ?_, fun h' => absurd h'.1 hc⟩
      rcases h.updateProcState_cases ret with ⟨hf', -⟩ | ⟨k', e', -, -, -, hu⟩ |
        ⟨k', e', r, p, t, hf', he', -, -, -, -, hp, hpe, -, hu, -⟩
      · rw [hf'] at hf
        cases hf
      · rcases ha with ⟨-, hu'⟩ | ⟨t, r, i, p, hu', -⟩
        · rw [hu] at hu'
          cases hu'
        · rw [hu] at hu'
          cases hu'
      · -- the result goes to the process with the larger pid
        rw [hf'] at hf
        cases hf
        rw [he] at he'
        cases he'
        rcases ha with ⟨-, hu'⟩ | ⟨t', r', i, q, hu', -, hq, hqp, -⟩
        · rw [hu] at hu'
          cases hu'
        · rw [hu] at hu'
          cases hu'
          rw [hp] at hq
          cases hq
          omega

/-- In every state of a run, lookup is exact for a pid and a wait result goes to its process if and
only if the pid is in the table (with an entry that is not deleted) or above all that are. -/
theorem reachable_attributes_iff (h : Reachable s) :
    (∀ pid, s.FindsExactly pid ↔ s.Covers pid) ∧
      ∀ ret : WaitResult, s.Attributes ret ↔
        s.Covers ret.pid ∧ ∀ e ∈ s.procTable.entries, e.pid = ret.pid → e.jobId ≠ 0 :=
  ⟨findsExactly_iff h.invariant.1, attributes_iff h.invariant.1⟩

/-- A table where the process 10 runs in the job at address 1. -/
def oneJob : JobTable :=
  (({ heap := fun _ => { procs := [] } } : JobTable).modify 1 fun _ =>
    { procs := [{ pid := 10, state := .running }] }).attach 1 false

theorem forked_single {s : JobTable} {r : Nat} {p : Proc} (hs : s.jobs.length < jobTableSizeLimit)
    (hr : (s.heap r).disowned = false) (hp : (s.heap r).procs = [p]) (hpos : 0 < p.pid)
    (hnew : ∀ e ∈ s.procTable.entries, e.pid ≠ p.pid) : s.Forked r where
  size := hs
  owned := hr
  pids :=
    { positive := by simp [hp, hpos]
      distinct := by
        intro i j p q hi hj _ _ _
        have hi := (List.getElem?_eq_some_iff.1 hi).1
        have hj := (List.getElem?_eq_some_iff.1 hj).1
        rw [hp, List.length_singleton] at hi hj
        omega
      new := by simpa [hp] using fun _ => hnew }

theorem oneJob_reachable : Reachable oneJob := by
  refine ((Reachable.start _ fun _ => rfl).step (.create 1 _ ?_ ?_ ?_ rfl)).step (.attach 1 false ?_)
  · exact nofun
  · exact nofun
  · exact nofun
  · exact forked_single (by decide) rfl rfl (by decide) nofun

/-- A job of the process 20 next to it. -/
def twoJobs : JobTable :=
  (oneJob.modify 2 fun _ => { procs := [{ pid := 20, state := .running }] }).attach 2 false

theorem twoJobs_reachable : Reachable twoJobs := by
  refine (oneJob_reachable.step (.create 2 _ ?_ ?_ ?_ rfl)).step (.attach 2 false ?_)
  · decide
  · decide
  · decide
  · exact forked_single (by decide) rfl rfl (by decide) (by decide)

/-- The process 10 is waited for, and its job is removed. -/
def firstWaited : JobTable :=
  ((twoJobs.updateProcState ⟨10, .exited, 0, false⟩).getD (twoJobs, none)).1.removeTerminatedJobs

theorem firstWaited_reachable : Reachable firstWaited :=
  (twoJobs_reachable.step (.updateProcState ⟨10, .exited, 0, false⟩ _ _ rfl)).step
    .removeTerminatedJobs

theorem firstWaited_attributes : firstWaited.jobs = [2] ∧
    (firstWaited.FindsExactly 20 ∧ firstWaited.Attributes ⟨20, .exited, 0, false⟩) ∧
    ¬firstWaited.Attributes ⟨10, .exited, 0, false⟩ := by
  have hc : firstWaited.Covers 20 := .inr (.inl ⟨⟨20, 2, 0⟩, by decide, rfl⟩)
  obtain ⟨hf, ha⟩ := reachable_attributes_iff firstWaited_reachable
  refine ⟨by decide, ⟨(hf 20).2 hc, (ha ⟨20, .exited, 0, false⟩).2 ⟨hc, by decide⟩⟩, fun h => ?_⟩
  have hgone : ¬firstWaited.Covers 10 := by
    unfold Covers
    decide
  exact hgone ((ha ⟨10, .exited, 0, false⟩).1 h).1

/-- The result of a process that is not in the table ends the process 10. -/
theorem oneJob_misattributed : Reachable oneJob ∧
    (∀ e ∈ oneJob.procTable.entries, e.pid ≠ 5) ∧ (oneJob.procTable.findProc 5).isSome ∧
    (oneJob.heap 1).procs.map (fun p => (p.pid, p.state)) = [(10, .running)] ∧
    ∃ t, oneJob.updateProcState ⟨5, .exited, 0, false⟩ = some (t, some (1, 0)) ∧
      (t.heap 1).procs.map (fun p => (p.pid, p.state)) = [(10, .terminated)] ∧
      (t.heap 1).isTerminated :=
  ⟨oneJob_reachable, by decide, by decide, by decide, _, rfl, by decide, by decide⟩

/-! ## Jobs, processes and pointers -/

/-- In every state of a run: the jobs are strictly ascending by ID without duplicates; the ID that
`findEmptyEntry` gives is the smallest one that is free; a live process of a job under control has
its entry, which leads back to the job and the offset; entries ascend by pid and each that is not
deleted is one of these. The current and the previous job are in the table, or are jobs that have
left it after control was lost; those are never handed out. -/
theorem reachable_tables (h : Reachable s) :
    (Ascending s.jobID s.jobs ∧ s.jobs.Nodup) ∧
    ((∀ n, 1 ≤ n → n < s.findEmptyEntry + 1 → ∃ r ∈ s.jobs, s.jobID r = n) ∧
      ∀ r ∈ s.jobs, s.jobID r ≠ s.findEmptyEntry + 1) ∧
    (∀ r ∈ s.jobs, (s.heap r).state ≠ .uncontrolled → ∀ (i : Nat) (p : Proc),
      (s.heap r).procs[i]? = some p → p.state ≠ .terminated →
        ∃ k e, s.procTable.findProc p.pid = some k ∧ s.procTable.entries[k]? = some e ∧
          e.pid = p.pid ∧ s.findIter e.jobId = some r ∧ e.procOffset = i) ∧
    Ascending ProcTable.Entry.pid s.procTable.entries ∧
    (∀ e ∈ s.procTable.entries, e.jobId ≠ 0 → s.Maps e) ∧
    ((∀ r ∈ s.cur, r ∈ s.jobs ∨ s.Lost r) ∧ (∀ r ∈ s.prev, r ∈ s.jobs ∨ s.Lost r) ∧
      (s.prev.isSome → s.cur.isSome) ∧ ∀ r ∈ s.cur, s.prev ≠ some r) ∧
    (∀ r ∈ s.syncAndGetCurPrevJobs.cur, r ∈ s.jobs) ∧
      ∀ r ∈ s.syncAndGetCurPrevJobs.prev, r ∈ s.jobs := by
  obtain ⟨ht, hp⟩ := h.invariant
  refine ⟨⟨ht.ascending, ht.nodup⟩, ht.findEmptyEntry_least, fun r hr hc i p hi hl => ?_, ht.pids,
    ht.sound, ⟨hp.cur, hp.prev, hp.both, hp.differ⟩, hp.sync.2⟩
  have hav : (s.heap r).state = .available := by
    cases hst : (s.heap r).state with
    | available => rfl
    | terminated => exact absurd (ht.ended r hr hst p (List.mem_of_getElem? hi)) hl
    | uncontrolled => exact absurd hst hc
  obtain ⟨k, hk, hke⟩ := findProc_of_mem ht (ht.complete r hr hav i p hi hl)
  exact ⟨k, _, hk, hke, rfl, ht.findIter_jobID hr, rfl⟩

theorem firstWaited_tables : ∃ k e, firstWaited.procTable.findProc 20 = some k ∧
    firstWaited.procTable.entries[k]? = some e ∧ e.pid = 20 ∧
      firstWaited.findIter e.jobId = some 2 ∧ e.procOffset = 0 :=
  (reachable_tables firstWaited_reachable).2.2.1 2 (by decide) (by decide) 0
    { pid := 20, state := .running } rfl (by decide)

/-- A subshell starts the process 20 next to the job it has lost control of. -/
def subshell : JobTable :=
  (oneJob.loseControlOfJobs.modify 2 fun _ =>
    { procs := [{ pid := 20, state := .running }] }).attach 2 false

/-- In the subshell the process 10 has no entry, and after the other one has ended its job is the
current one without being in the table. -/
theorem subshell_tables : Reachable subshell ∧
    (1 ∈ subshell.jobs ∧ (subshell.heap 1).procs.map (fun p => (p.pid, p.state)) = [(10, .running)] ∧
      ∀ e ∈ subshell.procTable.entries, e.pid ≠ 10) ∧
    ∃ t x, subshell.updateProcState ⟨20, .exited, 0, false⟩ = some (t, x) ∧
      Reachable t.removeTerminatedJobs ∧ t.removeTerminatedJobs.cur = some 1 ∧
      1 ∉ t.removeTerminatedJobs.jobs := by
  have h : Reachable subshell := by
    refine ((oneJob_reachable.step .loseControlOfJobs).step (.create 2 _ ?_ ?_ ?_ rfl)).step
      (.attach 2 false ?_)
    · decide
    · decide
    · decide
    · exact forked_single (by decide) rfl rfl (by decide) nofun
  refine ⟨h, by decide, _, _, rfl, ?_, by decide, by decide⟩
  exact (h.step (.updateProcState ⟨20, .exited, 0, false⟩ _ _ rfl)).step .removeTerminatedJobs

end JobTable

end Arsh.Job
