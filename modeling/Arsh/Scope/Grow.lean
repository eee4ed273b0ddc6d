import Arsh.Scope.Run

/-!
# Scopes only grow

Whatever is defined, imported or looked up, the entries of a scope stay as they are and new ones
come behind them, with commit ids that count on. Handles that are not captured keep their values,
and the count of global variables never goes down.
-/

namespace Arsh.Scope.Scopes

open Arsh.Types Arsh.Assoc

variable {s t u : Scopes} {a f p : Nat} {name : Types.Text}

/-- The commit ids of a scope are the places of its entries, and its names are different. -/
def Listed (s : Scopes) : Prop :=
  ∀ a, (s.scopes a).handles.map (fun e => e.2.2) = List.range (s.scopes a).handles.length ∧
    ((s.scopes a).handles.map Prod.fst).Nodup

structure Grows (s t : Scopes) : Prop where
  scopeSize : s.scopeSize ≤ t.scopeSize
  kind : ∀ a, a < s.scopeSize → (t.scopes a).kind = (s.scopes a).kind
  handles : ∀ a, ∃ new, (t.scopes a).handles = (s.scopes a).handles ++ new
  listed : Listed s → Listed t
  heapSize : s.heapSize ≤ t.heapSize
  heap : ∀ q, q < s.heapSize → needsCapture (s.heap q) = false → t.heap q = s.heap q
  gvarCount : s.gvarCount ≤ t.gvarCount

theorem Grows.refl (s : Scopes) : Grows s s :=
  ⟨Nat.le_refl _, fun _ _ => rfl, fun _ => ⟨[], by simp⟩, id, Nat.le_refl _, fun _ _ _ => rfl,
    Nat.le_refl _⟩

theorem Grows.trans (h : Grows s t) (h' : Grows t u) : Grows s u where
  scopeSize := Nat.le_trans h.scopeSize h'.scopeSize
  kind a ha := (h'.kind a (Nat.lt_of_lt_of_le ha h.scopeSize)).trans (h.kind a ha)
  handles a := by
    obtain ⟨new, hnew⟩ := h.handles a
    obtain ⟨new', hnew'⟩ := h'.handles a
    exact ⟨new ++ new', by rw [hnew', hnew, List.append_assoc]⟩
  listed hl := h'.listed (h.listed hl)
  heapSize := Nat.le_trans h.heapSize h'.heapSize
  heap q hq hc := by
    have heq := h.heap q hq hc
    rw [h'.heap q (Nat.lt_of_lt_of_le hq h.heapSize) (by rw [heq]; exact hc), heq]
  gvarCount := Nat.le_trans h.gvarCount h'.gvarCount

/-- No entry is new. -/
theorem Grows.of_handles (hsize : t.scopeSize = s.scopeSize)
    (hkind : ∀ a, (t.scopes a).kind = (s.scopes a).kind)
    (hhandles : ∀ a, (t.scopes a).handles = (s.scopes a).handles) (hheapSize : s.heapSize ≤ t.heapSize)
    (hheap : ∀ q, q < s.heapSize → needsCapture (s.heap q) = false → t.heap q = s.heap q)
    (hgvar : s.gvarCount ≤ t.gvarCount) : Grows s t where
  scopeSize := Nat.le_of_eq hsize.symm
  kind a _ := hkind a
  handles a := ⟨[], by rw [hhandles, List.append_nil]⟩
  listed hl a := by
    rw [hhandles]
    exact hl a
  heapSize := hheapSize
  heap := hheap
  gvarCount := hgvar

/-! ## The operations -/

theorem grows_addEntry (hnone : s.find a name = none) : Grows s (s.addEntry a name p) := by
  have hself : (s.addEntry a name p).scopes a = (s.scopes a).addEntry name p :=
    Function.update_self _ _ _
  have hother : ∀ b, b ≠ a → (s.addEntry a name p).scopes b = s.scopes b := fun b hb =>
    Function.update_of_ne hb _ _
  refine ⟨Nat.le_refl _, ?_, ?_, ?_, Nat.le_refl _, fun _ _ _ => rfl, Nat.le_refl _⟩
  · intro b _
    by_cases hb : b = a
    · rw [hb, hself]
      rfl
    · rw [hother b hb]
  · intro b
    by_cases hb : b = a
    · rw [hb, hself]
      exact ⟨_, rfl⟩
    · exact ⟨[], by rw [hother b hb, List.append_nil]⟩
  · intro hl b
    by_cases hb : b = a
    · rw [hb, hself]
      unfold NameScope.addEntry
      dsimp only
      refine ⟨?_, ?_⟩
      · rw [List.map_append, (hl a).1, List.length_append, List.length_singleton, List.range_succ]
        rfl
      · rw [List.map_append, List.nodup_append]
        refine ⟨(hl a).2, by simp, ?_⟩
        intro x hx y hy hxy
        obtain ⟨e, he, rfl⟩ := List.mem_map.1 hx
        have hy : y = name := by simpa using hy
        have hno : mapFind (s.scopes a).handles name = none := by
          simpa [Scopes.find, NameScope.find] using hnone
        unfold mapFind at hno
        rw [Option.map_eq_none_iff, List.find?_eq_none] at hno
        exact hno e he (by simp [hxy, hy])
    · rw [hother b hb]
      exact hl b

theorem grows_alloc (handle : Handle) : Grows s (s.alloc handle) :=
  .of_handles rfl (fun _ => rfl) (fun _ => rfl) (Nat.le_succ _)
    (fun q hq _ => Function.update_of_ne (by omega) _ _) (Nat.le_refl _)

/-- A change of a scope that keeps its kind and its entries. -/
theorem grows_setScope {scope : NameScope} (hk : scope.kind = (s.scopes a).kind)
    (hh : scope.handles = (s.scopes a).handles) : Grows s (s.setScope a scope) := by
  refine .of_handles rfl ?_ ?_ (Nat.le_refl _) (fun _ _ _ => rfl) (Nat.le_refl _)
  · intro b
    by_cases hb : b = a
    · subst hb
      simp [setScope, hk]
    · simp [setScope, hb]
  · intro b
    by_cases hb : b = a
    · subst hb
      simp [setScope, hh]
    · simp [setScope, hb]

theorem grows_setCount {r : CountRef} {k : Nat} (h : s.getCount r ≤ k) :
    Grows s (s.setCount r k) := by
  cases r with
  | gvarCount =>
    exact .of_handles rfl (fun _ => rfl) (fun _ => rfl) (Nat.le_refl _) (fun _ _ _ => rfl) h
  | curLocalIndex a => exact grows_setScope rfl rfl

theorem grows_addLocal : Grows s (s.addLocal a) := by
  have h₁ : Grows s (s.setScope a (s.scopes a).addLocal) := grows_setScope rfl rfl
  exact h₁.trans (grows_setCount (Nat.le_max_left _ _))

theorem grows_add (s : Scopes) (a : Nat) (name : Types.Text) (p : Nat)
    (asAlias ignoreConflict : Bool) :
    Grows s (s.add a name p asAlias ignoreConflict).2 := by
  rcases add_cases s a name p asAlias ignoreConflict with ⟨heq, -⟩ | ⟨-, hnone, heq⟩
  · rw [heq]
    exact .refl s
  · rw [heq]
    have hentry : Grows s (s.addEntry a name p) := grows_addEntry hnone
    split
    · exact hentry
    · split
      · exact hentry.trans (grows_setCount (Nat.le_succ _))
      · exact hentry.trans grows_addLocal

theorem grows_addNew (s : Scopes) (a : Nat) (name : Types.Text) (handle : Handle) (asAlias : Bool) :
    Grows s (s.addNew a name handle asAlias).2 := by
  have hadd := (grows_alloc handle).trans (grows_add (s.alloc handle) a name s.heapSize asAlias false)
  unfold addNew
  split
  · next p t heq =>
    rw [heq] at hadd
    exact hadd
  · exact .refl s

theorem grows_defineHandle (s : Scopes) (name : Types.Text) (typeId : Nat) (kind : HandleKind)
    (attr : HandleAttr) : Grows s (s.defineHandle name typeId kind attr).2 := by
  unfold defineHandle
  dsimp only
  split
  · exact .refl s
  · split
    · exact .refl s
    · exact grows_addNew ..

theorem grows_defineAlias (s : Scopes) (name : Types.Text) (handle : Handle) :
    Grows s (s.defineAlias name handle).2 := by
  unfold defineAlias
  split
  · exact .refl s
  · exact grows_addNew ..

theorem grows_defineTypeAlias (s : Scopes) (inPool : Bool) (name : Types.Text) (typeId : Nat) :
    Grows s (s.defineTypeAlias inPool name typeId).2 := by
  unfold defineTypeAlias
  split
  · exact .refl s
  · exact grows_defineAlias ..

theorem grows_defineNamedFunction (s : Scopes) (name : Types.Text) (typeId : Nat) :
    Grows s (s.defineNamedFunction name typeId).2 := by
  unfold defineNamedFunction
  split
  · exact .refl s
  · split
    · exact .refl s
    · exact grows_addNew ..

theorem grows_defineMethod (s : Scopes) (invalidRecv hasMethod isInit : Bool) (name : Types.Text)
    (typeId : Nat) : Grows s (s.defineMethod invalidRecv hasMethod isInit name typeId).2 := by
  unfold defineMethod
  split
  · exact .refl s
  · split
    · exact .refl s
    · exact grows_addNew ..

theorem grows_push (ht : Tree s) {scope : NameScope} (hh : scope.handles = []) :
    Grows s (s.push scope) := by
  have hfresh := ht.fresh s.scopeSize (Nat.le_refl _)
  refine ⟨Nat.le_succ _, ?_, ?_, ?_, Nat.le_refl _, fun _ _ _ => rfl, Nat.le_refl _⟩
  · intro a ha
    rw [push_old (by omega)]
  · intro a
    refine ⟨[], ?_⟩
    rw [List.append_nil]
    by_cases ha : a = s.scopeSize
    · rw [ha, push_new, hh, hfresh]
    · rw [push_old ha]
  · intro hl a
    by_cases ha : a = s.scopeSize
    · rw [ha, push_new, hh]
      exact ⟨rfl, List.nodup_nil⟩
    · rw [push_old ha]
      exact hl a

theorem grows_gvarCount {k : Nat} (h : s.gvarCount ≤ k) : Grows s { s with gvarCount := k } :=
  .of_handles rfl (fun _ => rfl) (fun _ => rfl) (Nat.le_refl _) (fun _ _ _ => rfl) h

theorem grows_setCur : Grows s { s with cur := a } :=
  .of_handles rfl (fun _ => rfl) (fun _ => rfl) (Nat.le_refl _) (fun _ _ _ => rfl) (Nat.le_refl _)

theorem grows_captureIn (hneeds : needsCapture (s.heap p) = true) :
    Grows s (s.captureIn name p f).2 := by
  have hbox : Grows s (s.setBoxed p) := by
    unfold setBoxed
    dsimp only
    split
    · exact .refl s
    · refine .of_handles rfl (fun _ => rfl) (fun _ => rfl) (Nat.le_refl _) ?_ (Nat.le_refl _)
      intro q _ hq
      refine Function.update_of_ne ?_ _ _
      rintro rfl
      rw [hneeds] at hq
      cases hq
  unfold captureIn
  dsimp only
  refine (hbox.trans (grows_setScope ?_ ?_)).trans (grows_addNew ..)
  · rw [setBoxed_rest.1]
  · rw [setBoxed_rest.1]

theorem Loop.grows {funcs : List Nat} (h : Loop s name p funcs) (scope : Nat) :
    Grows s (s.capture name scope p funcs).2 := by
  induction funcs generalizing s p with
  | nil => exact .refl s
  | cons f funcs ih =>
    rw [Scopes.capture]
    split
    · exact .refl s
    · split
      · exact .refl s
      · obtain ⟨t, ht, -, -, hloop⟩ := h.captureIn
        have hin : Grows s (s.captureIn name p f).2 := grows_captureIn h.needs
        rw [ht] at hin ⊢
        exact hin.trans (ih hloop)

theorem Sound.grows_lookup (h : Sound s) (name : Types.Text) :
    Grows s (s.lookupAndCaptureUpVar name).2 := by
  unfold lookupAndCaptureUpVar
  split
  · next scope p funcs hsearch =>
    split
    · next hneeds =>
      obtain ⟨pre, post, hanc, hpre, hp, hfuncs⟩ := search_some hsearch
      rw [List.append_nil] at hfuncs
      have hloop : Loop s name p funcs :=
        ⟨h.tree, h.slots, h.captured, hneeds, pre, scope, post, hanc, hpre, hp, hfuncs⟩
      exact hloop.grows scope
    · exact .refl s
  · exact .refl s

theorem Define.grows (hd : Define s t) (h : Sound s) : Grows s t := by
  cases hd with
  | enter kind hs =>
    unfold Scopes.enterScope at hs
    obtain ⟨scope, hscope, rfl⟩ := Option.map_eq_some_iff.1 hs
    exact grows_push h.tree (h.tree.newScope hscope).handles
  | exit hs =>
    unfold Scopes.exitScope at hs
    obtain ⟨b, -, rfl⟩ := Option.map_eq_some_iff.1 hs
    exact grows_setCur
  | define name typeId kind attr _ _ => exact grows_defineHandle ..
  | typeAlias inPool name typeId _ => exact grows_defineTypeAlias ..
  | function name typeId => exact grows_defineNamedFunction ..
  | method invalidRecv hasMethod isInit name typeId => exact grows_defineMethod ..
  | lookup name => exact h.grows_lookup name
  | createModule modId parent _ _ =>
    have hpush : Grows s (s.push { modId := modId, parent := parent }) := grows_push h.tree rfl
    exact hpush.trans (grows_gvarCount (Nat.le_succ _))
  | switchModule a _ _ _ => exact grows_setCur
  | moduleAlias name handle _ _ => exact grows_defineAlias ..
  | holder name handle _ _ => exact grows_addNew ..
  | foreign name p _ _ _ => exact grows_add ..

end Arsh.Scope.Scopes
