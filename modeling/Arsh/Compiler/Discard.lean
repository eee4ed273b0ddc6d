import Arsh.Compiler.State

/-!
# Discarding what a failed input defined

The tables have counters of their own, and each erases what is newer than its counter. Entries of
the scope, types, names, methods and modules come back as they were. The count of global variables
comes back only if a module was added, since `ModuleLoader::discard` returns early otherwise. If an
old module holder gets another kind by an import, that is not undone, and neither are the handles
that the type of the root module got from the input.
-/

namespace Arsh.Compiler.State

open Arsh.Types Arsh.Assoc Arsh.Scope

variable {env : TypeEnv} {point : DiscardPoint} {s₀ s t : State} {b : Bool} {p : Nat}

/-! ## Invariants -/

/-- The modules and the pool. -/
structure Tables (s : State) : Prop where
  index : s.indexMap.map Prod.snd = List.range s.indexMap.length
  entries : s.entries.length = s.indexMap.length
  named : s.pool.Named
  methods : s.pool.Methods
  mods : ∀ obj ∈ s.pool.typeTable, ∀ m, obj.ty = .leaf (.mod m) → m < s.modSize

/-- The beginning of a unit. -/
structure Good (s : State) : Prop where
  start : s.scopes.Start
  listed : s.scopes.Listed
  scope : s.scope < s.scopes.scopeSize
  tables : s.Tables

/-- A state of a run from `s₀`; the flag says whether a holder of `s₀` was changed. -/
structure During (s₀ : State) (b : Bool) (s : State) : Prop where
  sound : s.scopes.Sound
  listed : s.scopes.Listed
  scope : s.scope = s₀.scope
  scopeSize : s₀.scopes.scopeSize ≤ s.scopes.scopeSize
  handles : ∃ new, s.handles = s₀.handles ++ new
  gvarCount : s₀.scopes.gvarCount ≤ s.scopes.gvarCount
  old : ∀ e ∈ s₀.handles, e.2.1 < s.scopes.heapSize ∧
    Scopes.needsCapture (s.scopes.heap e.2.1) = false
  kept : b = false → ∀ e ∈ s₀.handles, s.scopes.heap e.2.1 = s₀.scopes.heap e.2.1
  changed : b = true → ∃ e ∈ s₀.handles, (s.scopes.heap e.2.1).kind = .inlinedMod ∧
    (s₀.scopes.heap e.2.1).kind ≠ .inlinedMod
  tables : s.Tables

/-- An entry is found by its name. -/
theorem find_of_mem {u : Scopes} {a : Nat} {e : Types.Text × (Nat × Nat)} (hl : u.Listed)
    (he : e ∈ (u.scopes a).handles) : u.find a e.1 = some e.2.1 := by
  have hfind : mapFind (u.scopes a).handles e.1 = some e.2 := mapFind_of_mem (hl a).2 he
  unfold Scopes.find NameScope.find
  rw [hfind]
  rfl

theorem Good.during (h : Good s) : During s false s where
  sound := h.start.sound
  listed := h.listed
  scope := rfl
  scopeSize := Nat.le_refl _
  handles := ⟨[], by rw [List.append_nil]⟩
  gvarCount := Nat.le_refl _
  old e he := h.start.handles s.scope e.1 e.2.1 (find_of_mem h.listed he)
  kept _ _ _ := rfl
  changed := nofun
  tables := h.tables

theorem During.grows (h : During s₀ b s) {u : Scopes} (hg : Scopes.Grows s.scopes u)
    (hs : u.Sound) : During s₀ b { s with scopes := u } where
  sound := hs
  listed := hg.listed h.listed
  scope := h.scope
  scopeSize := Nat.le_trans h.scopeSize hg.scopeSize
  handles := by
    obtain ⟨new, hnew⟩ := h.handles
    obtain ⟨new', hnew'⟩ := hg.handles s.scope
    refine ⟨new ++ new', ?_⟩
    change (u.scopes s.scope).handles = _
    rw [hnew', ← List.append_assoc, ← hnew]
    rfl
  gvarCount := Nat.le_trans h.gvarCount hg.gvarCount
  old e he := by
    obtain ⟨hlt, hc⟩ := h.old e he
    refine ⟨Nat.lt_of_lt_of_le hlt hg.heapSize, ?_⟩
    change Scopes.needsCapture (u.heap e.2.1) = false
    rw [hg.heap _ hlt hc]
    exact hc
  kept hb e he := by
    obtain ⟨hlt, hc⟩ := h.old e he
    exact (hg.heap _ hlt hc).trans (h.kept hb e he)
  changed hb := by
    obtain ⟨e, he, hk, hk'⟩ := h.changed hb
    obtain ⟨hlt, hc⟩ := h.old e he
    refine ⟨e, he, ?_, hk'⟩
    change (u.heap e.2.1).kind = .inlinedMod
    rw [hg.heap _ hlt hc]
    exact hk
  tables := ⟨h.tables.index, h.tables.entries, h.tables.named, h.tables.methods, h.tables.mods⟩

theorem During.setTables (h : During s₀ b s) (ht : t.Tables) (hs : t.scopes = s.scopes)
    (hscope : t.scope = s.scope) : During s₀ b t := by
  have hhandles : t.handles = s.handles := by
    unfold State.handles
    rw [hs, hscope]
  refine ⟨?_, ?_, ?_, ?_, ?_, ?_, ?_, ?_, ?_, ht⟩
  · rw [hs]; exact h.sound
  · rw [hs]; exact h.listed
  · rw [hscope]; exact h.scope
  · rw [hs]; exact h.scopeSize
  · rw [hhandles]; exact h.handles
  · rw [hs]; exact h.gvarCount
  · rw [hs]; exact h.old
  · rw [hs]; exact h.kept
  · rw [hs]; exact h.changed

/-! ## Tables -/

theorem Tables.pool (h : Tables s) {q : TypePool} (hn : q.Named) (hm : q.Methods)
    (hmods : ∀ obj ∈ q.typeTable, ∀ m, obj.ty = .leaf (.mod m) → m < s.modSize) :
    Tables { s with pool := q } := ⟨h.index, h.entries, hn, hm, hmods⟩

theorem Tables.addNewModEntry (h : Tables s) (path : Types.Text) :
    Tables (s.addNewModEntry path) := by
  unfold State.addNewModEntry
  split
  · next m heq =>
    split
    · exact h
    · have hm : m = s.indexMap ++ [(path, s.indexMap.length)] := by
        unfold emplace at heq
        split at heq
        · cases heq
        · exact (congrArg Prod.snd heq).symm
      subst hm
      refine ⟨?_, ?_, h.named, h.methods, ?_⟩
      · simp [h.index, List.range_succ]
      · simp [h.entries]
      · intro obj hobj m hm
        have := h.mods obj hobj m hm
        unfold modSize at this ⊢
        simp only [List.length_append, List.length_singleton]
        omega
  · exact h

/-- There is an entry of the root module, if it has a type. -/
theorem Tables.root_lt (h : Tables s) (hsealed : ((s.entries[1]?).any fun e => 0 < e.2) = true) :
    1 < s.modSize := by
  unfold modSize
  rw [← h.entries]
  cases hentry : s.entries[1]? with
  | none =>
    rw [hentry] at hsealed
    cases hsealed
  | some e => exact (List.getElem?_eq_some_iff.1 hentry).1

theorem Tables.createModType (h : Tables s) {modId : Nat} (handles : List (Types.Text × Handle))
    (children : List Imported) (index attr : Nat) (hlt : modId < s.modSize) :
    Tables (s.createModType modId handles children index attr) := by
  have hentries : ∀ (c : Prop) [Decidable c] (f : Types.Text × Nat → Types.Text × Nat),
      (if c then s.entries else s.entries.modify modId f).length = s.indexMap.length := by
    intro c _ f
    split
    · exact h.entries
    · rw [List.length_modify]
      exact h.entries
  refine ⟨h.index, hentries _ _, h.named.createModType modId handles children index attr, ?_, ?_⟩
  · change (s.pool.createModType modId handles children index attr).2.Methods
    unfold TypePool.createModType
    split
    · exact h.methods.addType _
    · exact h.methods.modifyData _ _
  · intro obj hobj m hm
    change obj ∈ (s.pool.createModType modId handles children index attr).2.typeTable at hobj
    change m < s.modSize
    unfold TypePool.createModType at hobj
    split at hobj
    · obtain ⟨types, -, htypes, -, hall, -⟩ := TypePool.addType_tables s.pool
        ⟨.leaf (.mod modId), .mod handles children index attr⟩
      dsimp only at hobj
      rw [htypes] at hobj
      rcases List.mem_append.1 hobj with hobj | hobj
      · exact h.mods obj hobj m hm
      · rw [hall obj hobj] at hm
        cases hm
        exact hlt
    · obtain ⟨x, hx, heq⟩ := TypePool.mem_modifyData hobj
      exact h.mods x hx m (heq.trans hm)

/-! ## Runs -/

theorem Step.during (hs : Step env point s t) (h : During s₀ b s) : During s₀ b t := by
  cases hs with
  | scope hd => exact h.grows (hd.grows h.sound) (hd.sound h.sound)
  | create hc =>
    have hadds := hc.adds h.tables.named
    refine h.setTables (h.tables.pool (hc.named h.tables.named) (h.tables.methods.adds hadds) ?_)
      rfl rfl
    intro obj hobj m hm
    have hold := hadds.old hobj (by rw [hm]; exact TypePool.not_isNew_mod)
    exact h.tables.mods obj hold m hm
  | finalize typeId cli fields _ =>
    refine h.setTables (h.tables.pool (h.tables.named.modifyData _ _)
      (h.tables.methods.modifyData _ _) ?_) rfl rfl
    intro obj hobj m hm
    obtain ⟨x, hx, heq⟩ := TypePool.mem_modifyData hobj
    exact h.tables.mods x hx m (heq.trans hm)
  | lookupMethod ids methodName =>
    refine h.setTables (h.tables.pool (h.tables.named.lookupMethod ids methodName)
      (h.tables.methods.lookupMethod ids methodName) ?_) rfl rfl
    have htypes : (s.pool.lookupMethod ids methodName).typeTable = s.pool.typeTable := by
      unfold TypePool.lookupMethod
      split
      · unfold TypePool.instantiate
        split <;> rfl
      · rfl
    rw [htypes]
    exact h.tables.mods
  | load path =>
    apply h.setTables (h.tables.addNewModEntry path)
    · unfold State.addNewModEntry
      split
      · split <;> rfl
      · rfl
    · unfold State.addNewModEntry
      split
      · split <;> rfl
      · rfl
  | newMod modId handles children index attr _ hlt =>
    exact h.setTables (h.tables.createModType handles children index attr hlt) rfl rfl
  | reopen handles children index attr hsealed =>
    have hlt := h.tables.root_lt hsealed
    exact h.setTables (h.tables.createModType handles children index attr hlt) rfl rfl

/-- The handle of a module holder, after it was inlined. -/
theorem setInlined_eq {u : Scopes} {q : Nat} : (u.setInlined p).heap q = u.heap q ∨
    q = p ∧ (u.heap p).isModHolder = true ∧
      (u.setInlined p).heap q = { u.heap p with kind := .inlinedMod } := by
  unfold Scopes.setInlined
  dsimp only
  split
  · next hh =>
    by_cases hq : q = p
    · subst hq
      exact .inr ⟨rfl, hh, Function.update_self _ _ _⟩
    · exact .inl (Function.update_of_ne hq _ _)
  · exact .inl rfl

theorem setInlined_rest {u : Scopes} : (u.setInlined p).scopes = u.scopes ∧
    (u.setInlined p).heapSize = u.heapSize ∧ (u.setInlined p).scopeSize = u.scopeSize ∧
    (u.setInlined p).gvarCount = u.gvarCount := by
  unfold Scopes.setInlined
  dsimp only
  split <;> exact ⟨rfl, rfl, rfl, rfl⟩

theorem During.inline (h : During s₀ b s) (hk : (s.scopes.scopes s.scopes.cur).kind = .global) :
    During s₀ (b || upgrades s₀ s p) { s with scopes := s.scopes.setInlined p } := by
  obtain ⟨hscopes, hheapSize, hscopeSize, hgvar⟩ := setInlined_rest (u := s.scopes) (p := p)
  refine ⟨h.sound.setInlined hk, ?_, h.scope, ?_, ?_, ?_, ?_, ?_, ?_, ?_⟩
  · intro a
    rw [hscopes]
    exact h.listed a
  · rw [hscopeSize]
    exact h.scopeSize
  · obtain ⟨new, hnew⟩ := h.handles
    refine ⟨new, ?_⟩
    unfold State.handles at hnew ⊢
    rw [hscopes]
    exact hnew
  · rw [hgvar]
    exact h.gvarCount
  · intro e he
    rw [hheapSize, Scopes.setInlined_heap.2.2.1]
    exact h.old e he
  · intro hb e he
    obtain ⟨hb, hup⟩ := Bool.or_eq_false_iff.1 hb
    rw [← h.kept hb e he]
    rcases setInlined_eq (u := s.scopes) (p := p) (q := e.2.1) with heq | ⟨hq, hh, heq⟩
    · exact heq
    · -- the holder is one of `s₀`, so it was inlined already
      have hany : (s₀.handles.any fun e => e.2.1 == p) = true :=
        List.any_eq_true.2 ⟨e, he, by simp [hq]⟩
      have hkind : (s.scopes.heap p).kind = .inlinedMod := by
        simpa [upgrades, hany, hh] using hup
      rw [heq, hq, ← hkind]
  · intro hb
    by_cases hb' : b = true
    · obtain ⟨e, he, hki, hki'⟩ := h.changed hb'
      refine ⟨e, he, ?_, hki'⟩
      rcases setInlined_eq (u := s.scopes) (p := p) (q := e.2.1) with heq | ⟨-, -, heq⟩
      · rw [heq]
        exact hki
      · rw [heq]
    · have hb' : b = false := by simpa using hb'
      rw [hb', Bool.false_or] at hb
      simp only [upgrades, Bool.and_eq_true, List.any_eq_true, beq_iff_eq, bne_iff_ne] at hb
      obtain ⟨⟨⟨e, he, rfl⟩, hh⟩, hne⟩ := hb
      refine ⟨e, he, ?_, ?_⟩
      · have : (s.scopes.setInlined e.2.1).heap e.2.1 =
            { s.scopes.heap e.2.1 with kind := .inlinedMod } := by
          unfold Scopes.setInlined
          dsimp only
          rw [if_pos hh]
          exact Function.update_self _ _ _
        rw [this]
      · rw [← h.kept hb' e he]
        exact hne
  · exact ⟨h.tables.index, h.tables.entries, h.tables.named, h.tables.methods, h.tables.mods⟩

theorem Run.during (hr : Run env point s₀ b s) (h : Good s₀) : During s₀ b s := by
  induction hr with
  | start => exact h.during
  | step _ hs ih => exact hs.during ih
  | inline p _ hk ih => exact ih.inline hk

end Arsh.Compiler.State
