import Arsh.Job.Invariant

/-!
# Runs of the job table

Each operation keeps `Tables` and `Pointers`, so they hold in every reachable state. What a wait
result changes is said once, in `Updated`; that it goes to the process it is about depends on the
pid being in the table or above all that are.
-/

namespace Arsh.Job

open Vec

/-! ## Process and job states -/

@[simp] theorem Proc.updateState_pid (p : Proc) (ret : WaitResult) :
    (p.updateState ret).pid = p.pid := by
  unfold Proc.updateState
  split
  · rfl
  · cases ret.kind <;> rfl

namespace JobObject

variable {j : JobObject}

@[simp] theorem updateState_jobID : j.updateState.jobID = j.jobID := by
  unfold updateState
  split <;> rfl

@[simp] theorem updateState_procs : j.updateState.procs = j.procs := by
  unfold updateState
  split <;> rfl

/-- A job with a live process keeps its state. -/
theorem updateState_of_live {p : Proc} (hp : p ∈ j.procs) (hl : p.state ≠ .terminated) :
    j.updateState = j := by
  unfold updateState
  rw [if_neg]
  simp only [Bool.and_eq_true, beq_iff_eq, not_and]
  intro _ hc
  rw [List.countP_eq_length] at hc
  exact hl (by simpa using hc p hp)

theorem updateState_terminated (h : j.updateState.state = .terminated) (hav : j.state = .available) :
    ∀ p ∈ j.procs, p.state = .terminated := by
  unfold updateState at h
  split at h
  · next hc =>
    simp only [Bool.and_eq_true, beq_iff_eq, List.countP_eq_length] at hc
    exact fun p hp => hc.2 p hp
  · rw [hav] at h
    cases h

end JobObject

namespace JobTable

variable {s t : JobTable} {r : Nat}

/-! ## Attaching and disowning -/

theorem Tables.disown (h : s.Tables) (r : Nat) : (s.disown r).Tables := by
  unfold JobTable.disown
  refine h.congr rfl rfl (fun x => ?_) (fun x _ => ?_) (fun x _ => ?_)
  · unfold JobTable.jobID
    rw [modify_heap]
    split_ifs with he
    · rw [he]
    · rfl
  · rw [modify_heap]
    split_ifs with he
    · rw [he]
    · rfl
  · rw [modify_heap]
    split_ifs with he
    · rw [he]
    · rfl

theorem Pointers.disown (h : s.Pointers) (r : Nat) : (s.disown r).Pointers := by
  refine h.congr rfl rfl rfl fun x hx => ⟨hx.1, ?_⟩
  unfold JobTable.disown
  rw [modify_heap]
  split
  · next he =>
    subst he
    exact ⟨hx.2.1, rfl⟩
  · exact hx.2

theorem Tables.setCurrentJob (h : s.Tables) (r : Nat) : (s.setCurrentJob r).Tables := by
  obtain ⟨hh, hj, hp⟩ := @setCurrentJob_tables s r
  refine h.congr hj hp (fun x => ?_) (fun x _ => ?_) (fun x _ => ?_)
  · unfold JobTable.jobID
    rw [hh]
  · rw [hh]
  · rw [hh]

theorem Tables.sync (h : s.Tables) : s.syncAndGetCurPrevJobs.Tables := by
  obtain ⟨hh, hj, hp⟩ := @sync_tables s
  refine h.congr hj hp (fun x => ?_) (fun x _ => ?_) (fun x _ => ?_)
  · unfold JobTable.jobID
    rw [hh]
  · rw [hh]
  · rw [hh]

theorem Pointers.enter (h : s.Pointers) (hr : (s.heap r).disowned = false) :
    (s.enter r).Pointers := by
  have hl : ∀ x, s.Lost x → (s.enter r).Lost x := by
    rintro x ⟨hx, hst, hd⟩
    have hne : x ≠ r := by
      rintro rfl
      rw [hr] at hd
      cases hd
    refine ⟨fun hm => ?_, ?_⟩
    · rcases mem_insertAt.1 hm with hm | hm
      · exact hne hm
      · exact hx hm
    · rw [enter_heap_of_ne hne]
      exact ⟨hst, hd⟩
  exact
    { cur := fun x hx => (h.cur x hx).imp (fun hm => mem_insertAt.2 (.inr hm)) (hl x)
      prev := fun x hx => (h.prev x hx).imp (fun hm => mem_insertAt.2 (.inr hm)) (hl x)
      both := h.both
      differ := h.differ }

/-- A job that is attached is entered, and then disowned or made the current one. -/
theorem attach_cases (s : JobTable) (r : Nat) (disowned : Bool) :
    s.attach r disowned = s ∨ s.jobID r = 0 ∧ (s.heap r).state = .available ∧
      (s.attach r disowned = (s.enter r).disown r ∨
        ∃ j, s.attach r disowned = { (s.enter r).setCurrentJob r with toplevelLastPipeJob := j }) := by
  unfold attach
  simp only
  split
  · next h =>
    refine .inr ⟨h.1, by simpa [JobObject.isAvailable] using h.2, ?_⟩
    split
    · exact .inl rfl
    · right
      split
      · exact ⟨_, rfl⟩
      · exact ⟨_, rfl⟩
  · exact .inl rfl

theorem attach_invariant (h : s.Tables) (hp : s.Pointers) (hf : s.Forked r) (disowned : Bool) :
    (s.attach r disowned).Tables ∧ (s.attach r disowned).Pointers := by
  rcases attach_cases s r disowned with he | ⟨h0, hav, he | ⟨j, he⟩⟩
  · rw [he]
    exact ⟨h, hp⟩
  · rw [he]
    exact ⟨(h.enter hf h0 hav).disown r, (hp.enter hf.owned).disown r⟩
  · rw [he]
    have ht := h.enter hf h0 hav
    exact ⟨(ht.setCurrentJob r).congr rfl rfl (fun _ => rfl) (fun _ _ => rfl) fun _ _ => rfl,
      ((hp.enter hf.owned).setCurrentJob ht r).congr rfl rfl rfl fun _ h => h⟩

/-! ## Wait results -/

/-- What a wait result that comes to the entry `e` at `k` leaves behind, for the process `p` at its
offset in the job `r`. -/
structure Updated (s t : JobTable) (ret : WaitResult) (k : Nat) (e : ProcTable.Entry) (r : Nat)
    (p : Proc) : Prop where
  jobs : t.jobs = s.jobs
  heap : t.heap = Function.update s.heap r (JobObject.updateState
    { s.heap r with procs := (s.heap r).procs.set e.procOffset (p.updateState ret) })
  procTable : t.procTable =
    if (p.updateState ret).state = .terminated then s.procTable.deleteProc k else s.procTable
  pointers : r ∈ s.jobs → s.Pointers → t.Pointers

/-- A job object in the table may be changed without a pointer becoming wrong. -/
theorem Pointers.modify (h : s.Pointers) (hr : r ∈ s.jobs) (f : JobObject → JobObject) :
    (s.modify r f).Pointers := by
  refine h.congr rfl rfl rfl fun x hx => ⟨hx.1, ?_⟩
  rw [modify_heap, if_neg]
  · exact hx.2
  · rintro rfl
    exact hx.1 hr

/-- A process that has terminated loses its entry; the user may be told the current job. -/
def reap (s : JobTable) (k : Nat) (q : Proc) : JobTable :=
  if q.state = .terminated then
    let s := { s with procTable := s.procTable.deleteProc k }
    if s.notifyCallback ∧ s.procTable.deletedCount = 1 then s.syncAndGetCurPrevJobs else s
  else s

theorem reap_spec (s : JobTable) (k : Nat) (q : Proc) :
    (s.reap k q).jobs = s.jobs ∧ (s.reap k q).heap = s.heap ∧
      (s.reap k q).procTable =
        (if q.state = .terminated then s.procTable.deleteProc k else s.procTable) ∧
      (s.Pointers → (s.reap k q).Pointers) := by
  unfold reap
  split
  · have hp : s.Pointers → { s with procTable := s.procTable.deleteProc k }.Pointers := fun h =>
      h.congr rfl rfl rfl fun _ hx => hx
    simp only
    split
    · obtain ⟨hh, hj, hpt⟩ := @sync_tables { s with procTable := s.procTable.deleteProc k }
      exact ⟨hj, hh, hpt, fun h => (hp h).sync.1⟩
    · exact ⟨rfl, rfl, rfl, hp⟩
  · exact ⟨rfl, rfl, rfl, id⟩

/-- The entry that was found decides which process gets the result. -/
theorem updateProcState_found {ret : WaitResult} {k : Nat} {e : ProcTable.Entry} {p : Proc}
    (hk : s.procTable.findProc ret.pid = some k) (he : s.procTable.entries[k]? = some e)
    (hr : s.findIter e.jobId = some r) (hp : (s.heap r).procs[e.procOffset]? = some p) :
    ∃ t, s.updateProcState ret = some (t, some (r, e.procOffset)) ∧ Updated s t ret k e r p := by
  let u := s.modify r fun j => { j with procs := j.procs.set e.procOffset (p.updateState ret) }
  refine ⟨(u.reap k (p.updateState ret)).modify r JobObject.updateState, ?_, ?_⟩
  · unfold updateProcState
    rw [hk]
    simp only [he, hr, hp, Option.bind_eq_bind, Option.bind_some]
    rfl
  obtain ⟨hj, hh, hpt, hptr⟩ := reap_spec u k (p.updateState ret)
  refine ⟨hj, ?_, hpt, fun hm h => ?_⟩
  · funext x
    rw [modify_heap, hh, Function.update_apply, modify_heap, modify_heap, if_pos rfl]
    split_ifs <;> rfl
  · exact Pointers.modify (hptr (h.modify hm _)) (by rw [hj]; exact hm) _

theorem findIter_zero : s.findIter 0 = none := rfl

theorem Tables.findIter_jobID (h : s.Tables) (hr : r ∈ s.jobs) : s.findIter (s.jobID r) = some r := by
  have hpos := Nat.pos_of_ne_zero ((h.attached r).2 hr)
  unfold findIter
  rw [if_pos hpos, ((getElem?_lowerBound h.ascending).2 ⟨hr, rfl⟩).1]
  simp

/-- A wait result finds no entry, or a deleted one, or that of a live process. -/
theorem Tables.updateProcState_cases (h : s.Tables) (ret : WaitResult) :
    (s.procTable.findProc ret.pid = none ∧ s.updateProcState ret = some (s, none)) ∨
    (∃ k e, s.procTable.findProc ret.pid = some k ∧ s.procTable.entries[k]? = some e ∧
      e.jobId = 0 ∧ s.updateProcState ret = none) ∨
    ∃ k e r p t, s.procTable.findProc ret.pid = some k ∧ s.procTable.entries[k]? = some e ∧
      e.jobId ≠ 0 ∧ r ∈ s.jobs ∧ s.jobID r = e.jobId ∧ (s.heap r).state = .available ∧
      (s.heap r).procs[e.procOffset]? = some p ∧ p.pid = e.pid ∧ p.state ≠ .terminated ∧
      s.updateProcState ret = some (t, some (r, e.procOffset)) ∧ Updated s t ret k e r p := by
  cases hk : s.procTable.findProc ret.pid with
  | none =>
    refine .inl ⟨rfl, ?_⟩
    unfold updateProcState
    rw [hk]
  | some k =>
    right
    obtain ⟨-, -, hlt⟩ := ProcTable.findProc_some hk
    obtain ⟨e, he⟩ : ∃ e, s.procTable.entries[k]? = some e := ⟨_, List.getElem?_eq_getElem hlt⟩
    by_cases h0 : e.jobId = 0
    · refine .inl ⟨k, e, rfl, he, h0, ?_⟩
      unfold updateProcState
      rw [hk]
      simp [he, h0, findIter_zero]
    · obtain ⟨r, hr, hid, hav, p, hp, hpid, hl⟩ := h.sound e (List.mem_of_getElem? he) h0
      obtain ⟨t, ht, hu⟩ := updateProcState_found hk he (hid ▸ h.findIter_jobID hr) hp
      exact .inr ⟨k, e, r, p, t, rfl, he, h0, hr, hid, hav, hp, hpid, hl, ht, hu⟩

section
variable {ret : WaitResult} {k : Nat} {e : ProcTable.Entry} {p : Proc}

theorem Updated.heap_self (hu : Updated s t ret k e r p) : t.heap r = JobObject.updateState
    { s.heap r with procs := (s.heap r).procs.set e.procOffset (p.updateState ret) } := by
  rw [hu.heap, Function.update_self]

theorem Updated.heap_of_ne (hu : Updated s t ret k e r p) {x : Nat} (hx : x ≠ r) :
    t.heap x = s.heap x := by
  rw [hu.heap, Function.update_of_ne hx]

theorem Updated.jobID (hu : Updated s t ret k e r p) (x : Nat) : t.jobID x = s.jobID x := by
  unfold JobTable.jobID
  by_cases hx : x = r
  · rw [hx, hu.heap_self, JobObject.updateState_jobID]
  · rw [hu.heap_of_ne hx]

/-- The entries that stay live are those of the other processes, and this one's if it lives. -/
theorem Updated.mem_entries (h : s.Tables) (he : s.procTable.entries[k]? = some e)
    (h0 : e.jobId ≠ 0) (hu : Updated s t ret k e r p) {x : ProcTable.Entry} (hx : x.jobId ≠ 0) :
    x ∈ t.procTable.entries ↔ x ∈ s.procTable.entries ∧
      (x = e → (p.updateState ret).state ≠ .terminated) := by
  rw [hu.procTable]
  split
  · next ht =>
    rw [ProcTable.deleteProc_of he h0, h.pids.mem_set he]
    constructor
    · rintro (rfl | ⟨hm, hne⟩)
      · exact absurd rfl hx
      · exact ⟨hm, fun h => absurd h hne⟩
    · rintro ⟨hm, hne⟩
      exact .inr ⟨hm, fun h => hne h ht⟩
  · next ht => exact ⟨fun hm => ⟨hm, fun _ => ht⟩, fun hm => hm.1⟩

theorem Updated.tables (h : s.Tables) (he : s.procTable.entries[k]? = some e) (h0 : e.jobId ≠ 0)
    (hr : r ∈ s.jobs) (hid : s.jobID r = e.jobId) (hav : (s.heap r).state = .available) (hp : (s.heap r).procs[e.procOffset]? = some p)
    (hpid : p.pid = e.pid) (hu : Updated s t ret k e r p) : t.Tables := by
  have hlen : e.procOffset < (s.heap r).procs.length := (List.getElem?_eq_some_iff.1 hp).1
  have hprocs : (t.heap r).procs = (s.heap r).procs.set e.procOffset (p.updateState ret) := by
    rw [hu.heap_self, JobObject.updateState_procs]
  have hpt := hu.procTable
  refine ⟨?_, ?_, ?_, ?_, ?_, ?_, ?_, ?_⟩
  · rw [hu.jobs, show t.jobID = s.jobID from funext hu.jobID]
    exact h.ascending
  · intro x
    rw [hu.jobID, hu.jobs, h.attached]
  · rw [hpt]
    split
    · rw [ProcTable.deleteProc_of he h0]
      exact h.pids.set he rfl
    · exact h.pids
  · intro x hx
    rw [hpt] at hx
    split at hx
    · rw [ProcTable.deleteProc_of he h0, h.pids.mem_set he] at hx
      rcases hx with rfl | ⟨hx, -⟩
      · exact h.positive e (List.mem_of_getElem? he)
      · exact h.positive x hx
    · exact h.positive x hx
  · intro x hx hx0
    obtain ⟨hx, hxe⟩ := (hu.mem_entries h he h0 hx0).1 hx
    obtain ⟨y, hy, hyid, hav, q, hq, hqp, hql⟩ := h.sound x hx hx0
    refine ⟨y, by rw [hu.jobs]; exact hy, (hu.jobID y).trans hyid, ?_⟩
    by_cases hyr : y = r
    · subst hyr
      -- the process of `x` is live after the update, so the job keeps its state
      obtain ⟨q', hq', hqp', hql'⟩ : ∃ q', (t.heap y).procs[x.procOffset]? = some q' ∧
          q'.pid = x.pid ∧ q'.state ≠ .terminated := by
        rw [hprocs]
        by_cases ho : x.procOffset = e.procOffset
        · rw [ho, hp] at hq
          cases hq
          have hxeq : x = e :=
            h.pids.eq_of_key hx (List.mem_of_getElem? he) (hqp.symm.trans hpid)
          exact ⟨_, by rw [ho, List.getElem?_set_self hlen], by rw [Proc.updateState_pid, hqp],
            hxe hxeq⟩
        · exact ⟨q, by rw [List.getElem?_set_ne (Ne.symm ho)]; exact hq, hqp, hql⟩
      refine ⟨?_, q', hq', hqp', hql'⟩
      rw [hprocs] at hq'
      rw [hu.heap_self, JobObject.updateState_of_live (List.mem_of_getElem? hq') hql']
      exact hav
    · rw [hu.heap_of_ne hyr]
      exact ⟨hav, q, hq, hqp, hql⟩
  · intro y hy hya i q hq hql
    rw [hu.jobs] at hy
    rw [hu.jobID, hu.mem_entries h he h0 ((h.attached y).2 hy)]
    by_cases hyr : y = r
    · subst hyr
      rw [hprocs] at hq
      by_cases ho : e.procOffset = i
      · subst ho
        rw [List.getElem?_set_self hlen] at hq
        cases hq
        have hxe : ProcTable.Entry.mk (p.updateState ret).pid (s.jobID y) e.procOffset = e := by
          rw [Proc.updateState_pid, hpid, hid]
        exact ⟨by rw [hxe]; exact List.mem_of_getElem? he, fun _ => hql⟩
      · rw [List.getElem?_set_ne ho] at hq
        exact ⟨h.complete y hy hav i q hq hql, fun hxe => absurd (by rw [← hxe]) ho⟩
    · rw [hu.heap_of_ne hyr] at hya hq
      refine ⟨h.complete y hy hya i q hq hql, fun hxe => absurd ?_ hyr⟩
      exact h.eq_of_jobID hy hr (by rw [hid, ← hxe])
  · rw [hpt]
    split
    · rw [ProcTable.deleteProc_of he h0]
      obtain ⟨hk, hke⟩ := List.getElem?_eq_some_iff.1 he
      simp only [List.countP_set hk, hke, ProcTable.Entry.isDeleted]
      simp [h0, h.deleted, ProcTable.Entry.isDeleted]
    · exact h.deleted
  · intro x hx
    rw [hu.jobs] at hx
    by_cases hxr : x = r
    · subst hxr
      rw [hu.heap_self, JobObject.updateState_procs]
      exact fun ht => JobObject.updateState_terminated ht hav
    · rw [hu.heap_of_ne hxr]
      exact h.ended x hx

end

/-- A wait result keeps the invariant, whatever its pid. -/
theorem updateProcState_invariant (h : s.Tables) (hp : s.Pointers) {ret : WaitResult}
    {x : Option (Nat × Nat)} (ht : s.updateProcState ret = some (t, x)) : t.Tables ∧ t.Pointers := by
  rcases h.updateProcState_cases ret with ⟨-, he⟩ | ⟨k, e, -, -, -, he⟩ |
    ⟨k, e, r, p, t', -, hke, h0, hr, hid, hav, hpr, hpid, -, he, hu⟩
  · rw [he] at ht
    cases ht
    exact ⟨h, hp⟩
  · rw [he] at ht
    cases ht
  · rw [he] at ht
    cases ht
    exact ⟨hu.tables h hke h0 hr hid hav hpr hpid, hu.pointers hr hp⟩

/-! ## Removing and losing jobs -/

theorem foldr_release (f : Nat → JobObject) (rs : List Nat) (x : Nat) :
    rs.foldr (fun r heap => Function.update heap r { heap r with jobID := 0, disowned := true }) f x =
      if x ∈ rs then { f x with jobID := 0, disowned := true } else f x := by
  induction rs with
  | nil => rfl
  | cons y ys ih =>
    rw [List.foldr_cons, Function.update_apply]
    by_cases hx : x = y
    · subst hx
      rw [if_pos rfl, if_pos List.mem_cons_self, ih]
      split <;> rfl
    · rw [if_neg hx, ih]
      simp [hx]

/-- The jobs that are no longer available go, with their IDs. -/
def release (s : JobTable) : JobTable :=
  { s with
    heap := fun x =>
      if x ∈ s.jobs ∧ ¬ (s.heap x).isAvailable then
        { s.heap x with jobID := 0, disowned := true }
      else s.heap x
    jobs := s.jobs.filter fun r => (s.heap r).isAvailable
    procTable := s.procTable.batchedRemove }

/-- Where a pointer may point to, no job is terminated that `release` has not taken away. -/
theorem release_not_terminated (hall : ∀ r ∈ s.jobs, (s.heap r).isAvailable) {x : Option Nat}
    (hx : ∀ r ∈ x, r ∈ s.jobs ∨ s.Lost r) : s.test (·.isTerminated) x = false := by
  cases x with
  | none => rfl
  | some r =>
    rw [test_some]
    unfold JobObject.isTerminated
    rcases hx r rfl with hr | ⟨-, hr, -⟩
    · have := hall r hr
      unfold JobObject.isAvailable at this
      rw [eq_of_beq this]
      rfl
    · rw [hr]
      rfl

/-- Pointers to terminated jobs are cleared after the jobs are gone. -/
theorem removeTerminatedJobs_cases (hp : s.Pointers) :
    (s.procTable.deletedCount = 0 ∧ s.removeTerminatedJobs = s) ∨ ∃ prev j,
      prev = (if s.release.test (·.isTerminated) s.prev then none else s.prev) ∧
      s.removeTerminatedJobs =
        if s.release.test (·.isTerminated) s.cur then
          { s.release with cur := prev, prev := none, toplevelLastPipeJob := j }
        else { s.release with prev := prev, toplevelLastPipeJob := j } := by
  unfold removeTerminatedJobs
  split
  · next h => exact .inl ⟨h, rfl⟩
  right
  obtain ⟨ys, hpack, hperm⟩ := pack_spec (fun r => (s.heap r).isAvailable) s.jobs
  simp only [hpack]
  by_cases hlen : (s.jobs.filter fun r => (s.heap r).isAvailable).length = s.jobs.length
  · rw [if_pos hlen]
    -- every job is available
    have hall := List.length_filter_eq_length_iff.1 hlen
    have hrel : s.release = { s with procTable := s.procTable.batchedRemove } := by
      unfold release
      rw [List.filter_eq_self.2 hall]
      congr 1
      funext x
      rw [if_neg]
      rintro ⟨hx, hn⟩
      exact hn (hall x hx)
    have htest : ∀ x : Option Nat, s.release.test (·.isTerminated) x = s.test (·.isTerminated) x :=
      fun x => by rw [hrel]; rfl
    refine ⟨_, s.toplevelLastPipeJob, rfl, ?_⟩
    rw [htest, htest, release_not_terminated hall hp.cur, release_not_terminated hall hp.prev, hrel]
    simp
  · rw [if_neg hlen]
    have hys : ∀ x, x ∈ ys ↔ x ∈ s.jobs ∧ ¬ (s.heap x).isAvailable := by
      intro x
      rw [hperm.mem_iff, List.mem_filter]
      simp
    have hheap : ys.foldr (fun r heap =>
        Function.update heap r { heap r with jobID := 0, disowned := true }) s.heap =
        s.release.heap := by
      funext x
      rw [foldr_release]
      simp only [hys]
      rfl
    simp only [List.drop_left, List.take_left, hheap]
    refine ⟨_, if s.release.test (·.isTerminated) s.toplevelLastPipeJob then none
      else s.toplevelLastPipeJob, rfl, ?_⟩
    have htest : ∀ x : Option Nat, JobTable.test
        { s with
          heap := s.release.heap
          jobs := s.jobs.filter fun r => (s.heap r).isAvailable
          procTable := s.procTable.batchedRemove } (·.isTerminated) x =
        s.release.test (·.isTerminated) x := fun _ => rfl
    simp only [htest]
    cases s.release.test (·.isTerminated) s.cur <;> rfl

theorem release_heap_of_mem (hr : r ∈ s.release.jobs) : s.release.heap r = s.heap r := by
  obtain ⟨-, hav⟩ := List.mem_filter.1 hr
  unfold release
  simp [hav]

theorem release_tables (h : s.Tables) : s.release.Tables := by
  have hsub : ∀ x ∈ s.release.jobs, x ∈ s.jobs := fun x hx => (List.mem_filter.1 hx).1
  have hid : ∀ x ∈ s.release.jobs, s.release.jobID x = s.jobID x := fun x hx => by
    unfold JobTable.jobID
    rw [release_heap_of_mem hx]
  have hent : s.release.procTable = ⟨s.procTable.entries.filter fun e => !e.isDeleted, 0⟩ :=
    s.procTable.batchedRemove_entries
  have hmem : ∀ e, e ∈ s.release.procTable.entries ↔ e ∈ s.procTable.entries ∧ e.jobId ≠ 0 := by
    intro e
    rw [hent, List.mem_filter]
    simp [ProcTable.Entry.isDeleted]
  refine ⟨?_, ?_, ?_, ?_, ?_, ?_, ?_, ?_⟩
  · apply (h.ascending.sublist List.filter_sublist).imp_of_mem
    intro a b ha hb hab
    rwa [hid a ha, hid b hb]
  · intro x
    constructor
    · intro hx
      by_contra hn
      have hav : ¬ (x ∈ s.jobs ∧ (s.heap x).isAvailable) := fun hav => hn (List.mem_filter.2 hav)
      unfold JobTable.jobID release at hx
      simp only at hx
      split at hx
      · exact hx rfl
      · next hna =>
        have hm := (h.attached x).1 hx
        exact hav ⟨hm, by_contra fun hna' => hna ⟨hm, hna'⟩⟩
    · intro hx
      rw [hid x hx]
      exact (h.attached x).2 (hsub x hx)
  · rw [hent]
    exact h.pids.sublist List.filter_sublist
  · intro e he
    exact h.positive e ((hmem e).1 he).1
  · intro e he h0
    obtain ⟨y, hy, hyid, hav, hrest⟩ := h.sound e ((hmem e).1 he).1 h0
    have hyr : y ∈ s.release.jobs :=
      List.mem_filter.2 ⟨hy, by unfold JobObject.isAvailable; rw [hav]; rfl⟩
    refine ⟨y, hyr, (hid y hyr).trans hyid, ?_⟩
    rw [release_heap_of_mem hyr]
    exact ⟨hav, hrest⟩
  · intro y hy hav i q hq hql
    rw [release_heap_of_mem hy] at hav hq
    rw [hid y hy, hmem]
    exact ⟨h.complete y (hsub y hy) hav i q hq hql, (h.attached y).2 (hsub y hy)⟩
  · rw [hent]
    symm
    rw [List.countP_eq_zero]
    intro e he
    simpa using (List.mem_filter.1 he).2
  · intro x hx
    rw [release_heap_of_mem hx]
    exact h.ended x (hsub x hx)

/-- A job that is not terminated stays in the table or is lost. -/
theorem release_stays (hr : r ∈ s.jobs ∨ s.Lost r)
    (ht : (s.release.heap r).isTerminated = false) : r ∈ s.release.jobs ∨ s.release.Lost r := by
  rcases hr with hr | ⟨hn, hst, hd⟩
  · by_cases hav : (s.heap r).isAvailable
    · exact .inl (List.mem_filter.2 ⟨hr, hav⟩)
    · have hheap : s.release.heap r = { s.heap r with jobID := 0, disowned := true } :=
        if_pos ⟨hr, hav⟩
      refine .inr ⟨fun hm => hav (List.mem_filter.1 hm).2, ?_, by rw [hheap]⟩
      rw [hheap] at ht ⊢
      unfold JobObject.isTerminated at ht
      unfold JobObject.isAvailable at hav
      simp only at ht ⊢
      cases hst : (s.heap r).state with
      | available => simp [hst] at hav
      | terminated => simp [hst] at ht
      | uncontrolled => rfl
  · have hheap : s.release.heap r = s.heap r := if_neg fun h => hn h.1
    exact .inr ⟨fun hm => hn (List.mem_filter.1 hm).1, by rw [hheap]; exact hst,
      by rw [hheap]; exact hd⟩

theorem removeTerminatedJobs_invariant (h : s.Tables) (hp : s.Pointers) :
    s.removeTerminatedJobs.Tables ∧ s.removeTerminatedJobs.Pointers := by
  rcases removeTerminatedJobs_cases hp with ⟨-, he⟩ | ⟨prev, j, hprev, he⟩
  · rw [he]
    exact ⟨h, hp⟩
  have hstays : ∀ {x : Option Nat}, (∀ r ∈ x, r ∈ s.jobs ∨ s.Lost r) →
      s.release.test (·.isTerminated) x = false →
      ∀ r ∈ x, r ∈ s.release.jobs ∨ s.release.Lost r := by
    rintro x hx ht r rfl
    exact release_stays (hx r rfl) ht
  have hprevs : ∀ r ∈ prev, r ∈ s.release.jobs ∨ s.release.Lost r := by
    intro r hr
    rw [hprev] at hr
    split at hr
    · cases hr
    · next ht => exact hstays hp.prev (by simpa using ht) r hr
  have hsub : ∀ r, prev = some r → s.prev = some r := by
    rintro r rfl
    split at hprev
    · cases hprev
    · exact hprev.symm
  rw [he]
  split
  · exact ⟨(release_tables h).congr rfl rfl (fun _ => rfl) (fun _ _ => rfl) fun _ _ => rfl,
      hprevs, nofun, nofun, nofun⟩
  · next ht =>
    refine ⟨(release_tables h).congr rfl rfl (fun _ => rfl) (fun _ _ => rfl) fun _ _ => rfl,
      hstays hp.cur (eq_false_of_ne_true ht), hprevs, fun hs => ?_, fun r hr he => ?_⟩
    · obtain ⟨r, hr⟩ := Option.isSome_iff_exists.1 hs
      exact hp.both (by rw [hsub r hr]; rfl)
    · exact hp.differ r hr (hsub r he)

theorem removeTerminatedJobs_deletedCount (hp : s.Pointers) :
    s.removeTerminatedJobs.procTable.deletedCount = 0 := by
  rcases removeTerminatedJobs_cases hp with ⟨h0, he⟩ | ⟨prev, j, -, he⟩
  · rw [he]
    exact h0
  · have hrel : s.release.procTable.deletedCount = 0 := by
      change s.procTable.batchedRemove.deletedCount = 0
      rw [ProcTable.batchedRemove_entries]
    rw [he]
    split <;> exact hrel

theorem loseControlOfJobs_invariant (h : s.Tables) (hp : s.Pointers) :
    s.loseControlOfJobs.Tables ∧ s.loseControlOfJobs.Pointers := by
  have hst : ∀ x ∈ s.jobs, (s.loseControlOfJobs.heap x).state = .uncontrolled := by
    intro x hx
    unfold loseControlOfJobs
    simp [hx]
  have hid : ∀ x, s.loseControlOfJobs.jobID x = s.jobID x := by
    intro x
    unfold JobTable.jobID loseControlOfJobs
    simp only
    split <;> rfl
  refine ⟨⟨?_, fun x => ?_, List.Pairwise.nil, nofun, nofun, fun x hx hav => ?_, rfl,
    fun x hx ht => ?_⟩, ?_⟩
  · rw [show s.loseControlOfJobs.jobID = s.jobID from funext hid]
    exact h.ascending
  · rw [hid]
    exact h.attached x
  · rw [hst x hx] at hav
    cases hav
  · rw [hst x hx] at ht
    cases ht
  · refine hp.congr rfl rfl rfl fun x hx => ⟨hx.1, ?_⟩
    have hheap : s.loseControlOfJobs.heap x = s.heap x := if_neg hx.1
    rw [hheap]
    exact hx.2

/-! ## Runs -/

/-- One operation on the table. A new job object is one that nothing refers to. -/
inductive Step (s : JobTable) : JobTable → Prop
  | create (r : Nat) (job : JobObject) (free : r ∉ s.jobs) (cur : s.cur ≠ some r)
      (prev : s.prev ≠ some r) (id : job.jobID = 0) :
      Step s (s.modify r fun _ => job)
  | attach (r : Nat) (disowned : Bool) (forked : s.Forked r) : Step s (s.attach r disowned)
  | updateProcState (ret : WaitResult) (t : JobTable) (x : Option (Nat × Nat))
      (eq : s.updateProcState ret = some (t, x)) : Step s t
  | removeTerminatedJobs : Step s s.removeTerminatedJobs
  | disown (r : Nat) : Step s (s.disown r)
  | setCurrentJob (r : Nat) : Step s (s.setCurrentJob r)
  | syncAndGetCurPrevJobs : Step s s.syncAndGetCurPrevJobs
  | loseControlOfJobs : Step s s.loseControlOfJobs
  | setNotifyCallback (b : Bool) : Step s { s with notifyCallback := b }
  | removeToplevelLastPipeJob : Step s { s with toplevelLastPipeJob := none }

/-- The tables that a run of the shell can come to. -/
inductive Reachable : JobTable → Prop
  | start (heap : Nat → JobObject) (ids : ∀ r, (heap r).jobID = 0) : Reachable { heap := heap }
  | step {s t : JobTable} (h : Reachable s) (st : Step s t) : Reachable t

theorem Tables.create (h : s.Tables) {job : JobObject} (hr : r ∉ s.jobs) (hid : job.jobID = 0) :
    (s.modify r fun _ => job).Tables := by
  refine h.congr rfl rfl (fun x => ?_) (fun x hx => ?_) (fun x hx => ?_)
  · unfold JobTable.jobID
    rw [modify_heap]
    split
    · next he =>
      rw [hid, he]
      by_contra hne
      exact hr ((h.attached r).1 (Ne.symm hne))
    · rfl
  · rw [modify_heap, if_neg fun he : x = r => hr (he ▸ hx)]
  · rw [modify_heap, if_neg fun he : x = r => hr (he ▸ hx)]

theorem Pointers.create (h : s.Pointers) {job : JobObject} (hc : s.cur ≠ some r)
    (hp : s.prev ≠ some r) : (s.modify r fun _ => job).Pointers := by
  have hl : ∀ x, x ≠ r → s.Lost x → (s.modify r fun _ => job).Lost x := by
    rintro x hx ⟨hn, hst⟩
    refine ⟨hn, ?_⟩
    rw [modify_heap, if_neg hx]
    exact hst
  exact
    { cur := fun x hx => (h.cur x hx).imp_right (hl x fun he => hc (he ▸ hx))
      prev := fun x hx => (h.prev x hx).imp_right (hl x fun he => hp (he ▸ hx))
      both := h.both
      differ := h.differ }

theorem Step.invariant (h : s.Tables) (hp : s.Pointers) (st : Step s t) : t.Tables ∧ t.Pointers := by
  cases st with
  | create r job free cur prev id => exact ⟨h.create free id, hp.create cur prev⟩
  | attach r disowned forked => exact attach_invariant h hp forked disowned
  | updateProcState ret _ x eq => exact updateProcState_invariant h hp eq
  | removeTerminatedJobs => exact removeTerminatedJobs_invariant h hp
  | disown r => exact ⟨h.disown r, hp.disown r⟩
  | setCurrentJob r => exact ⟨h.setCurrentJob r, hp.setCurrentJob h r⟩
  | syncAndGetCurPrevJobs => exact ⟨h.sync, hp.sync.1⟩
  | loseControlOfJobs => exact loseControlOfJobs_invariant h hp
  | setNotifyCallback b =>
    exact ⟨h.congr rfl rfl (fun _ => rfl) (fun _ _ => rfl) fun _ _ => rfl,
      hp.congr rfl rfl rfl fun _ h => h⟩
  | removeToplevelLastPipeJob =>
    exact ⟨h.congr rfl rfl (fun _ => rfl) (fun _ _ => rfl) fun _ _ => rfl,
      hp.congr rfl rfl rfl fun _ h => h⟩

theorem Reachable.invariant (h : Reachable s) : s.Tables ∧ s.Pointers := by
  induction h with
  | start heap ids =>
    refine ⟨⟨List.Pairwise.nil, fun r => ?_, List.Pairwise.nil, nofun, nofun, nofun, rfl,
      nofun⟩, nofun, nofun, nofun, nofun⟩
    unfold JobTable.jobID
    rw [ids]
    simp
  | step _ st ih => exact st.invariant ih.1 ih.2

/-- Between the jobs that were waited for and the next `fork` no deleted entry is left. -/
theorem waitForAny_deletedCount (h : Reachable s) {rets : List WaitResult}
    (ht : s.waitForAny rets = some t) : Reachable t ∧ t.procTable.deletedCount = 0 := by
  unfold waitForAny at ht
  obtain ⟨u, hu, hrem⟩ := Option.bind_eq_some_iff.1 ht
  cases hrem
  have hreach : Reachable u := by
    clear ht
    induction rets generalizing s with
    | nil =>
      cases hu
      exact h
    | cons ret rets ih =>
      rw [List.foldlM_cons] at hu
      obtain ⟨v, hv, hu⟩ := Option.bind_eq_some_iff.1 hu
      obtain ⟨⟨v', x⟩, hx, rfl⟩ := Option.map_eq_some_iff.1 hv
      exact ih (h.step (.updateProcState ret v' x hx)) hu
  exact ⟨hreach.step .removeTerminatedJobs,
    removeTerminatedJobs_deletedCount hreach.invariant.2⟩

end JobTable

end Arsh.Job
