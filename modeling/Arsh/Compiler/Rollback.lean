import Arsh.Compiler.Discard

/-!
# When a discard restores everything

A run after a discard point only adds behind what was there (`Behind`), so taking the newer part
away gives back the scope, the modules and the pool, but for the data of the root module.
`discardAll_restored` says exactly when the rest comes back too.
-/

namespace Arsh.Compiler.State

open Arsh.Types Arsh.Assoc Arsh.Scope

variable {env : TypeEnv} {s₀ s t : State} {b : Bool}

/-! ## What a run adds -/

/-- `s` has what `s₀` has, and more behind it. -/
structure Behind (s₀ s : State) : Prop where
  pool : TypePool.Since s₀.pool s.pool
  indexMap : ∃ new, s.indexMap = s₀.indexMap ++ new
  entries : s.entries.take s₀.modSize = s₀.entries

theorem Good.behind (h : Good s) : Behind s s where
  pool := TypePool.Since.refl h.tables.named h.tables.methods
  indexMap := ⟨[], by rw [List.append_nil]⟩
  entries := List.take_of_length_le (Nat.le_of_eq h.tables.entries)

theorem Behind.addNewModEntry (h : Behind s₀ s) (ht : Tables s) (path : Types.Text) :
    Behind s₀ (s.addNewModEntry path) := by
  obtain ⟨new, hnew⟩ := h.indexMap
  unfold State.addNewModEntry
  split
  · next m heq =>
    split
    · exact h
    · have hm : m = s.indexMap ++ [(path, s.indexMap.length)] := by
        unfold emplace at heq
        split at heq
        · cases heq
        · exact (congrArg Prod.snd heq).symm
      subst hm
      refine ⟨h.pool, ⟨new ++ [(path, s.indexMap.length)], ?_⟩, ?_⟩
      · rw [← List.append_assoc, ← hnew]
      · have hle : s₀.modSize ≤ s.entries.length := by
          rw [ht.entries, hnew, List.length_append]
          exact Nat.le_add_right _ _
        change (s.entries ++ [(path, 0)]).take s₀.modSize = s₀.entries
        rw [List.take_append_of_le_length hle]
        exact h.entries
  · exact h

/-- The type of a module that is newer than `s₀` is newer than the types of `s₀`. -/
theorem Behind.modType_new (h : Behind s₀ s) (ht : Tables s) (ht₀ : Tables s₀) {modId id : Nat}
    (hmod : s₀.modSize ≤ modId) (hf : mapFind s.pool.nameMap (toModTypeName modId) = some id) :
    s₀.pool.typeTable.length ≤ id := by
  by_contra hlt
  have hlt : id < s₀.pool.typeTable.length := by omega
  obtain ⟨obj, hobj, hname⟩ := ht.named.ids _ (mapFind_mem hf)
  have hty : obj.ty = .leaf (.mod modId) :=
    (ht.named.wf obj (List.mem_of_getElem? hobj)).name_inj (.leaf trivial) hname
  have hold := List.getElem?_eq_getElem hlt
  obtain ⟨obj', hobj', hty', -⟩ := h.pool.types id _ hold
  cases hobj.symm.trans hobj'
  have := ht₀.mods _ (List.mem_of_getElem? hold) modId (hty'.symm.trans hty)
  omega

theorem Behind.createModType (h : Behind s₀ s) (ht : Tables s) (ht₀ : Tables s₀) {modId : Nat}
    (hmod : s₀.modSize ≤ modId) (handles : List (Types.Text × Handle)) (children : List Imported)
    (index attr : Nat) : Behind s₀ (s.createModType modId handles children index attr) := by
  have hlen : s₀.entries.length ≤ modId := by
    rw [ht₀.entries]
    exact hmod
  refine ⟨?_, h.indexMap, ?_⟩
  · change TypePool.Since _ (s.pool.createModType modId handles children index attr).2
    unfold TypePool.createModType
    split
    · exact h.pool.addType _
    · next hf =>
      have hle := h.modType_new ht ht₀ hmod hf
      exact h.pool.modifyData (fun x hx => absurd (List.getElem?_eq_some_iff.1 hx).1
        (Nat.not_lt_of_le hle)) _
  · have htake : ∀ (c : Prop) [Decidable c] (f : Types.Text × Nat → Types.Text × Nat),
        (if c then s.entries else s.entries.modify modId f).take s₀.modSize = s₀.entries := by
      intro c _ f
      split
      · exact h.entries
      · rw [List.take_modify, h.entries, List.modify_eq_self hlen]
    exact htake _ _

/-- The root module is opened again: its entry stays, and of the old types only its own gets other
data. -/
theorem Behind.reopen (h : Behind s₀ s) (ht : Tables s)
    (hsealed : ((s.entries[1]?).any fun e => 0 < e.2) = true)
    (handles : List (Types.Text × Handle)) (children : List Imported) (index attr : Nat) :
    Behind s₀ (s.createModType 1 handles children index attr) := by
  refine ⟨?_, h.indexMap, ?_⟩
  · change TypePool.Since _ (s.pool.createModType 1 handles children index attr).2
    unfold TypePool.createModType
    split
    · exact h.pool.addType _
    · next id hf =>
      refine h.pool.modifyData (fun x hx => ?_) _
      obtain ⟨obj, hobj, hname⟩ := ht.named.ids _ (mapFind_mem hf)
      obtain ⟨obj', hobj', hty', -⟩ := h.pool.types id x hx
      cases hobj.symm.trans hobj'
      rw [← hty']
      exact (ht.named.wf obj (List.mem_of_getElem? hobj)).name_inj (.leaf trivial) hname
  · unfold State.createModType
    dsimp only
    rw [if_pos (by rw [hsealed]; rfl)]
    exact h.entries

theorem Step.behind (hs : Step env s₀.getCurrentDiscardPoint s t) (h : Behind s₀ s)
    (ht : Tables s) (ht₀ : Tables s₀) : Behind s₀ t := by
  cases hs with
  | scope _ => exact ⟨h.pool, h.indexMap, h.entries⟩
  | create hc => exact ⟨h.pool.adds (hc.adds ht.named), h.indexMap, h.entries⟩
  | finalize typeId cli fields hid =>
    have hid : s₀.pool.typeTable.length ≤ typeId := hid
    refine ⟨?_, h.indexMap, h.entries⟩
    refine h.pool.modifyData (fun x hx => ?_) fun _ => .record cli (some fields)
    exact absurd (List.getElem?_eq_some_iff.1 hx).1 (Nat.not_lt_of_le hid)
  | lookupMethod ids methodName =>
    exact ⟨h.pool.lookupMethod ids methodName, h.indexMap, h.entries⟩
  | load path => exact h.addNewModEntry ht path
  | newMod modId handles children index attr hmod _ =>
    exact h.createModType ht ht₀ hmod handles children index attr
  | reopen handles children index attr hsealed =>
    exact h.reopen ht hsealed handles children index attr

theorem Run.behind (hr : Run env s₀.getCurrentDiscardPoint s₀ b s) (h : Good s₀) : Behind s₀ s := by
  induction hr with
  | start => exact h.behind
  | step hr hs ih => exact hs.behind ih (hr.during h).tables h.tables
  | inline _ _ _ ih => exact ⟨ih.pool, ih.indexMap, ih.entries⟩

/-! ## What a discard gives back -/

/-- Ids that count up tell how long an entry has been there. -/
theorem filter_lt {α : Type*} {f : α → Nat} {xs new : List α}
    (h : (xs ++ new).map f = List.range (xs ++ new).length) :
    ((xs ++ new).filter fun x => decide (f x < xs.length)) = xs := by
  have hget : ∀ (i : Nat) (x : α), (xs ++ new)[i]? = some x → f x = i := by
    intro i x hx
    have hi : i < (xs ++ new).length := (List.getElem?_eq_some_iff.1 hx).1
    have hmap : ((xs ++ new).map f)[i]? = some (f x) := by
      rw [List.getElem?_map, hx]
      rfl
    rw [h, List.getElem?_range hi] at hmap
    exact (Option.some.inj hmap).symm
  have hold : ∀ x ∈ xs, f x < xs.length := by
    intro x hx
    obtain ⟨i, hi⟩ := List.mem_iff_getElem?.1 hx
    have hlt : i < xs.length := (List.getElem?_eq_some_iff.1 hi).1
    rw [hget i x (by rw [List.getElem?_append_left hlt]; exact hi)]
    exact hlt
  have hnew : ∀ x ∈ new, ¬ f x < xs.length := by
    intro x hx
    obtain ⟨i, hi⟩ := List.mem_iff_getElem?.1 hx
    have hplace : (xs ++ new)[xs.length + i]? = some x := by
      rw [List.getElem?_append_right (Nat.le_add_right _ _), Nat.add_sub_cancel_left]
      exact hi
    rw [hget _ x hplace]
    omega
  rw [List.filter_append, List.filter_eq_self.2 fun x hx => decide_eq_true (hold x hx),
    List.filter_eq_nil_iff.2 fun x hx => by simpa using hnew x hx, List.append_nil]

theorem handles_discardAll {point : DiscardPoint} : (s.discardAll point).handles =
    s.handles.filter fun e => decide (e.2.2 < point.commitIdOffset) := by
  have hscope : (s.discardMod point).scope = s.scope := by
    unfold discardMod
    split <;> rfl
  have hscopes : (s.discardMod point).scopes.scopes = s.scopes.scopes := by
    unfold discardMod
    split <;> rfl
  unfold discardAll discardScope handles
  dsimp only [Scopes.setScope]
  rw [Function.update_self, hscope, hscopes]

theorem heap_discardAll {point : DiscardPoint} :
    (s.discardAll point).scopes.heap = s.scopes.heap := by
  unfold discardAll discardScope discardMod
  dsimp only [Scopes.setScope]
  split <;> rfl

theorem gvarCount_discardAll {point : DiscardPoint} : (s.discardAll point).scopes.gvarCount =
    if s.modSize ≤ point.idCount then s.scopes.gvarCount else point.gvarCount := by
  unfold discardAll discardScope discardMod
  dsimp only [Scopes.setScope]
  split <;> rfl

/-- The tables of the modules and of the pool come back, and the entries of the scope. What is
beside the structure of a type is as the run left it. -/
theorem discardAll_tables (h : Good s₀) (hr : Run env s₀.getCurrentDiscardPoint s₀ b s) :
    (s.discardAll s₀.getCurrentDiscardPoint).handles = s₀.handles ∧
    (s.discardAll s₀.getCurrentDiscardPoint).indexMap = s₀.indexMap ∧
    (s.discardAll s₀.getCurrentDiscardPoint).entries = s₀.entries ∧
    (s.discardAll s₀.getCurrentDiscardPoint).pool =
      { s₀.pool with typeTable := s.pool.typeTable.take s₀.pool.typeTable.length } := by
  have hd := hr.during h
  have hb := hr.behind h
  obtain ⟨newMods, hmods⟩ := hb.indexMap
  have hmod : (s.discardMod s₀.getCurrentDiscardPoint).indexMap = s₀.indexMap ∧
      (s.discardMod s₀.getCurrentDiscardPoint).entries = s₀.entries ∧
      (s.discardMod s₀.getCurrentDiscardPoint).pool = s.pool := by
    unfold discardMod
    split
    · next hle =>
      -- no module was added
      have hnil : newMods = [] := by
        change s.indexMap.length ≤ s₀.indexMap.length at hle
        rw [hmods, List.length_append] at hle
        exact List.eq_nil_of_length_eq_zero (by omega)
      rw [hnil, List.append_nil] at hmods
      refine ⟨hmods, ?_, rfl⟩
      have hlen : s.entries.length ≤ s₀.modSize := by
        rw [hd.tables.entries, hmods]
        exact Nat.le_refl _
      exact (List.take_of_length_le hlen).symm.trans hb.entries
    · refine ⟨?_, hb.entries, rfl⟩
      have hindex := hd.tables.index
      rw [hmods] at hindex
      change (s.indexMap.filter fun e => decide (e.2 < s₀.indexMap.length)) = s₀.indexMap
      rw [hmods]
      exact filter_lt hindex
  refine ⟨?_, hmod.1, hmod.2.1, ?_⟩
  · obtain ⟨new, hnew⟩ := hd.handles
    have hlist : s.handles.map (fun e => e.2.2) = List.range s.handles.length :=
      (hd.listed s.scope).1
    rw [hnew] at hlist
    rw [handles_discardAll, hnew]
    exact filter_lt hlist
  · change (s.discardMod s₀.getCurrentDiscardPoint).pool.discard _ _ = _
    rw [hmod.2.2]
    exact hb.pool.discard

theorem Behind.rootType_iff (h : Behind s₀ s) (ht₀ : Tables s₀) (ht : Tables s) :
    s.pool.typeTable.take s₀.pool.typeTable.length = s₀.pool.typeTable ↔
      ∀ obj, s₀.rootType = some obj → s.rootType = some obj :=
  h.pool.take_eq_iff ht₀.named ht.named

/-! ## Reachable states -/

/-- The data of the types is of no account. -/
theorem Tables.discarded (h : Tables s₀) (hb : Behind s₀ s) (hindex : t.indexMap = s₀.indexMap)
    (hentries : t.entries = s₀.entries) (hpool : t.pool =
      { s₀.pool with typeTable := s.pool.typeTable.take s₀.pool.typeTable.length }) :
    Tables t := by
  have hmap := hb.pool.map_take
  have hlen : t.pool.typeTable.length = s₀.pool.typeTable.length := by
    have := congrArg List.length hmap
    rw [List.length_map, List.length_map] at this
    rw [hpool]
    exact this
  refine ⟨?_, ?_, ?_, fun e he => ?_, fun obj hobj m hm => ?_⟩
  · rw [hindex]
    exact h.index
  · rw [hindex, hentries]
    exact h.entries
  · rw [hpool]
    exact h.named.of_eq rfl hmap
  · rw [hlen]
    rw [hpool] at he ⊢
    exact h.methods e he
  · rw [hpool] at hobj
    have hmem : obj.ty ∈ s₀.pool.typeTable.map TypeObj.ty := by
      rw [← hmap]
      exact List.mem_map_of_mem hobj
    obtain ⟨x, hx, hty⟩ := List.mem_map.1 hmem
    unfold modSize
    rw [hindex]
    exact h.mods x hx m (hty.trans hm)

theorem Tables.of_eq (h : Tables s) (hindex : t.indexMap = s.indexMap)
    (hentries : t.entries = s.entries) (hpool : t.pool = s.pool) : Tables t := by
  refine ⟨?_, ?_, ?_, ?_, ?_⟩
  · rw [hindex]; exact h.index
  · rw [hindex, hentries]; exact h.entries
  · rw [hpool]; exact h.named
  · rw [hpool]; exact h.methods
  · unfold modSize
    rw [hpool, hindex]
    exact h.mods

theorem Good.new (env : TypeEnv) : Good (new env) where
  start :=
    have h := Scopes.topLevel_start
    ⟨h.cur_lt, h.fresh, h.lower, h.global, h.named, h.handles⟩
  listed _ := ⟨rfl, .nil⟩
  scope := Nat.zero_lt_one
  tables := by
    obtain ⟨names, h⟩ := TypePool.Builtin.new env
    exact ⟨rfl, rfl, h.named, h.methods, fun obj hobj m hm => absurd hm ((h.only obj hobj).1 m)⟩

/-- What is left for the next unit, of scopes that are sound except for the entries. -/
theorem start_nextUnit {u : Scopes} {scope : Nat} (htree : u.Tree) (hnamed : ∀ a, u.find a [] = none)
    (hheap : ∀ a n p, u.find a n = some p → p < u.heapSize)
    (hglobal : ∀ a n p, (u.scopes a).kind = .global → u.find a n = some p →
      Scopes.needsCapture (u.heap p) = false) (hlt : scope < u.scopeSize) :
    Scopes.Start { u with
      cur := scope
      scopes := fun a => if (u.scopes a).kind = .global then u.scopes a else {} } := by
  refine ⟨hlt, ?_, ?_, ?_, ?_, ?_⟩
  · intro a ha
    dsimp only
    split
    · exact htree.fresh a ha
    · rfl
  · intro a b
    dsimp only
    split
    · exact htree.lower a b
    · nofun
  · intro a
    dsimp only
    split
    · next hk => exact ⟨hk, (htree.global a hk).1⟩
    · exact ⟨rfl, rfl⟩
  · intro a
    unfold Scopes.find
    dsimp only
    split
    · exact hnamed a
    · rfl
  · intro a n p
    unfold Scopes.find
    dsimp only
    split
    · next hk => exact fun hp => ⟨hheap a n p hp, hglobal a n p hk hp⟩
    · nofun

theorem During.nextUnit (h : During s₀ b s) {scope : Nat} (hlt : scope < s.scopes.scopeSize) :
    Good (s.nextUnit scope) where
  start := start_nextUnit h.sound.tree h.sound.captured.named h.sound.slots.heap
    h.sound.captured.global hlt
  listed a := by
    unfold State.nextUnit
    dsimp only
    split
    · exact h.listed a
    · exact ⟨rfl, .nil⟩
  scope := hlt
  tables := h.tables.of_eq rfl rfl rfl

theorem Good.cloneGlobal (h : Good s) : Good s.cloneGlobal := by
  have hself : s.cloneGlobal.scopes.scopes s.scopes.scopeSize =
      { modId := (s.scopes.scopes s.scope).modId, handles := (s.scopes.scopes s.scope).handles } :=
    Function.update_self _ _ _
  have hother : ∀ a, a ≠ s.scopes.scopeSize →
      s.cloneGlobal.scopes.scopes a = s.scopes.scopes a := fun a ha => Function.update_of_ne ha _ _
  -- the entries of the new scope are those of the old one
  have hfind : ∀ a n, ∃ c, s.cloneGlobal.scopes.find a n = s.scopes.find c n := by
    intro a n
    unfold Scopes.find
    by_cases ha : a = s.scopes.scopeSize
    · exact ⟨s.scope, by rw [ha, hself]; rfl⟩
    · exact ⟨a, by rw [hother a ha]⟩
  refine ⟨⟨Nat.lt_succ_self _, ?_, ?_, ?_, ?_, ?_⟩, ?_, Nat.lt_succ_self _, h.tables.of_eq rfl rfl rfl⟩
  · intro a ha
    have ha : s.scopes.scopeSize < a := ha
    rw [hother a (by omega)]
    exact h.start.fresh a (by omega)
  · intro a c
    by_cases ha : a = s.scopes.scopeSize
    · rw [ha, hself]
      nofun
    · rw [hother a ha]
      exact h.start.lower a c
  · intro a
    by_cases ha : a = s.scopes.scopeSize
    · rw [ha, hself]
      exact ⟨rfl, rfl⟩
    · rw [hother a ha]
      exact h.start.global a
  · intro a
    obtain ⟨c, hc⟩ := hfind a []
    rw [hc]
    exact h.start.named c
  · intro a n p hp
    obtain ⟨c, hc⟩ := hfind a n
    rw [hc] at hp
    exact h.start.handles c n p hp
  · intro a
    by_cases ha : a = s.scopes.scopeSize
    · rw [ha, hself]
      exact h.listed s.scope
    · rw [hother a ha]
      exact h.listed a

theorem scope_discardAll {point : DiscardPoint} : (s.discardAll point).scope = s.scope := by
  unfold discardAll discardScope discardMod
  split <;> rfl

/-- A discard changes no scope but the one of the module provider, where entries go. -/
theorem scopes_discardAll (point : DiscardPoint) (hlt : s.scope < s.scopes.scopeSize) :
    Scopes.SameShape s.scopes (s.discardAll point).scopes ∧
      (s.discardAll point).scopes.heapSize = s.scopes.heapSize ∧
      ∀ a, a ≠ s.scope → (s.discardAll point).scopes.scopes a = s.scopes.scopes a := by
  have hself : (s.discardAll point).scopes.scopes s.scope = { s.scopes.scopes s.scope with
      handles := s.handles.filter fun e => decide (e.2.2 < point.commitIdOffset)
      curLocalIndex := 0
      localSize := 0 } := by
    unfold discardAll discardScope discardMod
    split <;> exact Function.update_self _ _ _
  have hother : ∀ a, a ≠ s.scope →
      (s.discardAll point).scopes.scopes a = s.scopes.scopes a := by
    intro a ha
    unfold discardAll discardScope discardMod
    split <;> exact Function.update_of_ne ha _ _
  have hrest : (s.discardAll point).scopes.cur = s.scopes.cur ∧
      (s.discardAll point).scopes.scopeSize = s.scopes.scopeSize ∧
      (s.discardAll point).scopes.heapSize = s.scopes.heapSize := by
    unfold discardAll discardScope discardMod
    split <;> exact ⟨rfl, rfl, rfl⟩
  refine ⟨⟨hrest.1, hrest.2.1, fun a ha => hother a (by omega), ?_, ?_, ?_⟩, hrest.2.2, hother⟩
  all_goals
    intro a
    by_cases ha : a = s.scope
    · rw [ha, hself]
    · rw [hother a ha]

theorem Run.discarded (h : Good s₀) (hr : Run env s₀.getCurrentDiscardPoint s₀ b s) {scope : Nat}
    (hlt : scope < s.scopes.scopeSize) :
    Good ((s.discardAll s₀.getCurrentDiscardPoint).nextUnit scope) := by
  have hd := hr.during h
  have hscope : s.scope < s.scopes.scopeSize := by
    rw [hd.scope]
    exact Nat.lt_of_lt_of_le h.scope hd.scopeSize
  obtain ⟨hhandles, hindex, hentries, hpool⟩ := discardAll_tables h hr
  obtain ⟨hshape, hheapSize, hother⟩ := scopes_discardAll s₀.getCurrentDiscardPoint hscope
  -- the entries of the scope are those of `s₀`, which are still there before the discard
  have hself : ((s.discardAll s₀.getCurrentDiscardPoint).scopes.scopes s.scope).handles =
      s₀.handles := by
    rw [← hhandles, State.handles, scope_discardAll]
  have hfind : ∀ a n p, (s.discardAll s₀.getCurrentDiscardPoint).scopes.find a n = some p →
      s.scopes.find a n = some p := by
    intro a n p hp
    by_cases ha : a = s.scope
    · obtain ⟨new, hnew⟩ := hd.handles
      unfold Scopes.find NameScope.find at hp ⊢
      rw [ha] at hp ⊢
      rw [hself] at hp
      obtain ⟨v, hv, rfl⟩ := Option.map_eq_some_iff.1 hp
      change (mapFind s.handles n).map Prod.fst = _
      rw [hnew, mapFind_append, hv]
      rfl
    · unfold Scopes.find at hp ⊢
      rw [hother a ha] at hp
      exact hp
  refine ⟨start_nextUnit (hd.sound.tree.of_sameShape hshape) ?_ ?_ ?_ ?_, ?_, ?_,
    h.tables.discarded (hr.behind h) hindex hentries hpool⟩
  · intro a
    cases hn : (s.discardAll s₀.getCurrentDiscardPoint).scopes.find a [] with
    | none => rfl
    | some p =>
      have := hfind a [] p hn
      rw [hd.sound.captured.named a] at this
      cases this
  · intro a n p hp
    rw [hheapSize]
    exact hd.sound.slots.heap a n p (hfind a n p hp)
  · intro a n p hk hp
    rw [hshape.kind] at hk
    rw [heap_discardAll]
    exact hd.sound.captured.global a n p hk (hfind a n p hp)
  · rw [hshape.size]
    exact hlt
  · intro a
    unfold State.nextUnit
    dsimp only
    split
    · by_cases ha : a = s.scope
      · rw [ha, hself]
        exact h.listed s₀.scope
      · rw [hother a ha]
        exact hd.listed a
    · exact ⟨rfl, .nil⟩
  · change scope < (s.discardAll s₀.getCurrentDiscardPoint).scopes.scopeSize
    rw [hshape.size]
    exact hlt

theorem Reachable.good (h : Reachable env s) : Good s := by
  induction h with
  | new => exact Good.new env
  | unit _ hr hlt _ ih => exact (hr.during ih).nextUnit hlt
  | failed _ hr hlt _ ih => exact hr.discarded ih hlt
  | clone _ ih => exact ih.cloneGlobal

/-- After any run, a discard restores everything if and only if no old holder was changed, the root
module has the type it had, and the count of global variables is the old one or a module was
added. -/
theorem discardAll_restored (h : Reachable env s₀)
    (hr : Run env s₀.getCurrentDiscardPoint s₀ b s) :
    Restored s₀ (s.discardAll s₀.getCurrentDiscardPoint) ↔
      b = false ∧ (∀ obj, s₀.rootType = some obj → s.rootType = some obj) ∧
        (s₀.modSize < s.modSize ∨ s.scopes.gvarCount = s₀.scopes.gvarCount) := by
  have hd := hr.during h.good
  have hroot := (hr.behind h.good).rootType_iff h.good.tables hd.tables
  obtain ⟨hhandles, hindex, hentries, hpool⟩ := discardAll_tables h.good hr
  constructor
  · intro hres
    refine ⟨?_, ?_, ?_⟩
    · cases b with
      | false => rfl
      | true =>
        obtain ⟨e, he, hk, hk'⟩ := hd.changed rfl
        have := hres.heap e he
        rw [heap_discardAll] at this
        exact absurd (this ▸ hk) hk'
    · have := hres.pool
      rw [hpool] at this
      exact hroot.1 (congrArg TypePool.typeTable this)
    · have := hres.gvarCount
      rw [gvarCount_discardAll] at this
      split at this
      · exact .inr this
      · next hle => exact .inl (Nat.lt_of_not_le hle)
  · rintro ⟨hb, htype, hcount⟩
    refine ⟨hhandles, ?_, ?_, hindex, hentries, hpool.trans (by rw [hroot.2 htype])⟩
    · rw [heap_discardAll]
      exact hd.kept hb
    · rw [gvarCount_discardAll]
      split
      · next hle =>
        rcases hcount with hlt | heq
        · exact absurd hle (Nat.not_le_of_lt hlt)
        · exact heq
      · rfl

/-- The scope of the root module in a shell that was just started. -/
def rootScope (env : TypeEnv) : State :=
  let s := (new env).addNewModEntry "(root)".toList
  { s with scopes := s.scopes.createGlobalScope 1 (some 0) }

theorem rootScope_run (env : TypeEnv) : Run env {} (new env) false (rootScope env) := by
  have hparent : ∀ c, some 0 = some c →
      c < ((new env).addNewModEntry "(root)".toList).scopes.scopeSize ∧
      (((new env).addNewModEntry "(root)".toList).scopes.scopes c).kind = .global := by
    rintro c hc
    cases hc
    exact ⟨Nat.zero_lt_one, rfl⟩
  exact (Run.start.step (.load _)).step (.scope (.createModule 1 (some 0) rfl hparent))

/-- A unit that is compiled before the root module has a type. -/
def root (env : TypeEnv) : State := (rootScope env).nextUnit 1

theorem root_reachable (env : TypeEnv) : Reachable env (root env) :=
  .unit .new (rootScope_run env) (Nat.lt_succ_self 1) rfl

/-- A unit that is compiled when the root module has a type. -/
def opened (env : TypeEnv) : State := ((rootScope env).createModType 1 [] [] 1 0).nextUnit 1

theorem scopes_createModType : (s.createModType 1 [] [] 1 0).scopes = s.scopes := rfl

theorem rootType_scopes (s : State) (u : Scopes) :
    ({ s with scopes := u } : State).rootType = s.rootType := rfl

theorem opened_scopes (env : TypeEnv) : (opened env).scopes = (root env).scopes := by
  unfold opened root nextUnit
  rw [scopes_createModType]

theorem opened_reachable (env : TypeEnv) : Reachable env (opened env) := by
  have hrun : Run env {} (new env) false ((rootScope env).createModType 1 [] [] 1 0) :=
    (rootScope_run env).step (.newMod 1 [] [] 1 0 (Nat.zero_le 1) (Nat.lt_succ_self 1))
  refine .unit .new hrun ?_ ?_
  · rw [scopes_createModType]
    exact Nat.lt_succ_self 1
  · rw [scopes_createModType]
    rfl

theorem opened_rootType (env : TypeEnv) : ∃ obj, (opened env).rootType = some obj := by
  have htype (s : State) : ((s.createModType 1 [] [] 1 0).nextUnit 1).rootType =
      (s.pool.createModType 1 [] [] 1 0).2.get (toModTypeName 1) := rfl
  unfold opened
  rw [htype]
  exact (root_reachable env).good.tables.named.get_createModType 1 [] [] 1 0

/-- A type alias takes no index: it goes without a trace. -/
theorem discardAll_typeAlias :
    let env : TypeEnv := ⟨fun _ _ _ => true, fun _ => false, fun _ => []⟩
    let s : State := { opened env with
      scopes := ((opened env).scopes.defineTypeAlias false "T".toList 9).2 }
    (∃ obj, (opened env).rootType = some obj) ∧ s.handles.length = 1 ∧
      Restored (opened env) (s.discardAll (opened env).getCurrentDiscardPoint) := by
  intro env s
  have hkind : ((opened env).scopes.scopes (opened env).scopes.cur).kind ≠ .func := by
    rw [opened_scopes]
    nofun
  have hrun : Run env (opened env).getCurrentDiscardPoint (opened env) false s :=
    Run.start.step (.scope (.typeAlias false "T".toList 9 hkind))
  have hscopes : s.scopes = ((root env).scopes.defineTypeAlias false "T".toList 9).2 := by
    rw [← opened_scopes]
  have hscope : s.scope = 1 := rfl
  refine ⟨opened_rootType env, ?_, ?_⟩
  · rw [State.handles, hscopes, hscope]
    rfl
  · apply (discardAll_restored (opened_reachable env) hrun).2
    refine ⟨rfl, fun obj hobj => (rootType_scopes (opened env) _).trans hobj, .inr ?_⟩
    rw [hscopes, opened_scopes]
    rfl

/-- The index of a global variable is not given back. -/
theorem discardAll_variable :
    ¬ ∀ (env : TypeEnv) (s₀ s : State) (b : Bool), Reachable env s₀ →
      Run env s₀.getCurrentDiscardPoint s₀ b s →
      Restored s₀ (s.discardAll s₀.getCurrentDiscardPoint) := by
  intro h
  let env : TypeEnv := ⟨fun _ _ _ => true, fun _ => false, fun _ => []⟩
  have hrun : Run env (root env).getCurrentDiscardPoint (root env) false { root env with
      scopes := ((root env).scopes.defineHandle "a".toList 9 .var {}).2 } :=
    Run.start.step (.scope (.define "a".toList 9 .var {} nofun rfl))
  have hcount := (h env _ _ false (root_reachable env) hrun).gvarCount
  have h₀ : (root env).scopes.gvarCount = 2 := rfl
  have h₁ : ((root env).scopes.defineHandle "a".toList 9 .var {}).2.gvarCount = 3 := rfl
  rw [gvarCount_discardAll, h₀] at hcount
  change (if (root env).modSize ≤ (root env).modSize then _ else _) = 2 at hcount
  rw [if_pos (Nat.le_refl _), h₁] at hcount
  omega

end Arsh.Compiler.State
