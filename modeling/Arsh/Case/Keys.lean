import Arsh.Case.Selection
import Arsh.Map.Refine

/-!
# The map of constants

Keys of a map are values, and what they stand for decides on whether they are equal. `Filled` says which constants
a map has, with the offsets of their arms: another constant is inserted while there is room, and a subject is found
where a constant is equal to it.
-/

namespace Arsh.Case

open Obj Map

/-! ## Constants and their values -/

/-- What the value of a constant stands for. -/
def ConstNode.view : ConstNode → View
  | int value => .int value.toInt
  | signal value => .sig value.toInt
  | string value => .str value
  | regex .. => .empty

section
variable {c d : ConstNode} {x : View} {E : Value → Value → Bool} {t : TYPE}

theorem equals_eqvView (hc : c.isRegex = false) (x : View) : eqvView E x c.view = c.equals x := by
  cases c <;> cases x <;> first | rfl | (cases hc; done) |
    simp [eqvView, ConstNode.view, ConstNode.equals, eq_comm]

theorem equals_view_iff (hc : c.isRegex = false) : c.equals d.view = true ↔ c = d := by
  cases c <;> cases d <;> first | (cases hc; done) |
    simp [ConstNode.view, ConstNode.equals, Int64.toInt_inj, Int32.toInt_inj]

theorem viewType_view (hc : c.isRegex = false) : viewType c.view = some c.type := by
  cases c <;> first | rfl | cases hc

theorem equals_eq (h : c.equals x = true) : x = c.view := by
  cases c <;> cases x <;> simp_all [ConstNode.view, ConstNode.equals]

variable {node : CaseNode} {ε : Type} {env : Env node ε} {v w : Value}

theorem newObject_spec (hc : c ∈ node.constNodes) (hregex : c.isRegex = false) :
    ∃ k, env.newObject c = some k ∧ view env.heap k = c.view := by
  have hobject := env.objects c hc
  cases c with
  | int value =>
    refine ⟨_, rfl, ?_⟩
    split
    · rfl
    · next hlarge =>
      have := hobject (.int value.toInt) (by simp [ConstNode.object, hlarge])
      simp [view, this, ConstNode.view]
  | signal value => exact ⟨_, rfl, rfl⟩
  | string value =>
    refine ⟨_, rfl, ?_⟩
    split
    · rfl
    · next hlarge =>
      have := hobject (.string value) (by simp [ConstNode.object, hlarge])
      simp [view, this, ConstNode.view]
  | regex => cases hregex

/-! ## Comparison of keys -/

/-- Types that have the values of a pattern type only. -/
def typePool : TYPE → TypePool
  | .int => fun _ => .int
  | .signal => fun _ => .signal
  | _ => fun _ => .string

theorem typed_of_viewType (hv : viewType (view env.heap v) = some t) :
    Typed (typePool t) env.heap 1 ⟨false, 0⟩ v := by
  unfold Typed
  cases hview : view env.heap v <;> rw [hview] at hv <;> cases hv <;> rfl

theorem children_of_viewType (hx : viewType x = some t) : children x = [] := by
  cases x <;> first | rfl | cases hx

/-- `Equality` compares what the keys stand for. -/
theorem keyEq_spec (hv : viewType (view env.heap v) = some t) (hw : viewType (view env.heap w) = some t) :
    env.keyEq v w = eqvView (fun _ _ => true) (view env.heap v) (view env.heap w) := by
  have hcost : cost env.heap 1 v < env.keyFuel := by
    rw [cost_succ, children_of_viewType hv]
    exact env.two_le_keyFuel
  have hspec := equality_spec (by decide) (typed_of_viewType hv) (typed_of_viewType hw) hcost
  unfold Env.keyEq keyEquality
  rw [hspec]
  have heqv : eqv env.heap 1 v w =
      eqvView (fun _ _ => true) (view env.heap v) (view env.heap w) := rfl
  rw [heqv]
  cases eqvView (fun _ _ => true) (view env.heap v) (view env.heap w) <;> rfl

/-! ## Maps of constants -/

/-- The entry of a constant. -/
def Env.IsEntry (env : Env node ε) (label : ConstNode × Nat) (e : Entry Value Value) : Prop :=
  view env.heap e.key = label.1.view ∧ e.value = .internal numberKind label.2

/-- The map has the constants, with the offsets of their arms, in order. -/
structure Env.Filled (env : Env node ε) (t : TYPE) (map : OrderedMap Value Value)
    (labels : List (ConstNode × Nat)) : Prop where
  ok : MapOk env.heap env.seed map
  entries : List.Forall₂ env.IsEntry labels map.entries.live
  types : ∀ l ∈ labels, l.1.isRegex = false ∧ l.1.type = t

variable {map : OrderedMap Value Value} {labels : List (ConstNode × Nat)}

theorem Env.exists_label {es : List (Entry Value Value)} (h : List.Forall₂ env.IsEntry labels es)
    {e : Entry Value Value} (he : e ∈ es) : ∃ l ∈ labels, env.IsEntry l e := by
  induction h with
  | nil => cases he
  | @cons l _ ls es hl _ ih =>
    rcases List.mem_cons.1 he with rfl | he
    · exact ⟨l, List.mem_cons_self, hl⟩
    · obtain ⟨l', hl', hentry⟩ := ih he
      exact ⟨l', List.mem_cons_of_mem _ hl', hentry⟩

theorem Env.Filled.view_mem (h : env.Filled t map labels) {e : Entry Value Value}
    (he : e ∈ map.entries.live) :
    ∃ l ∈ labels, l.1.isRegex = false ∧ l.1.type = t ∧ env.IsEntry l e := by
  obtain ⟨l, hl, hentry⟩ := Env.exists_label h.entries he
  exact ⟨l, hl, (h.types l hl).1, (h.types l hl).2, hentry⟩

/-- The comparison of keys of the map depends on what they stand for. -/
theorem Env.Filled.eqv_key (h : env.Filled t map labels) {e : Entry Value Value}
    {l : ConstNode × Nat} (hl : l ∈ labels) (he : env.IsEntry l e) (v : Value) :
    eqv env.heap 128 v e.key = l.1.equals (view env.heap v) := by
  show eqvView _ (view env.heap v) (view env.heap e.key) = _
  rw [he.1]
  exact equals_eqvView (h.types l hl).1 _

theorem Env.Filled.hasKey (h : env.Filled t map labels)
    (hv : viewType (view env.heap v) = some t) (i : Nat) :
    @OrderedMap.hasKey Value Value ⟨env.keyEq⟩ (Value.hash env.heap env.seed) map v i =
      @OrderedMap.hasKey Value Value (keyBEq env.heap) (Value.hash env.heap env.seed) map v i := by
  unfold OrderedMap.hasKey
  cases hget : map.entries.get i with
  | none => rfl
  | some e =>
    obtain ⟨l, hl, hregex, htype, hentry⟩ :=
      h.view_mem (OrderedMapEntries.mem_live.2 ⟨i, hget⟩)
    have hkey : env.keyEq v e.key = eqv env.heap 128 v e.key := by
      rw [h.eqv_key hl hentry, keyEq_spec hv (by rw [hentry.1, viewType_view hregex, htype]),
        hentry.1]
      exact equals_eqvView hregex _
    show (_ && env.keyEq v e.key) = (_ && eqv env.heap 128 v e.key)
    rw [hkey]

/-- Equal keys stand for the same, and have the same hash. -/
theorem Env.Filled.hash_eq (h : env.Filled t map labels) {e : Entry Value Value}
    (he : e ∈ map.entries.live) (heq : eqv env.heap 128 v e.key = true) :
    v.hash env.heap env.seed = e.key.hash env.heap env.seed := by
  obtain ⟨l, hl, hregex, -, hentry⟩ := h.view_mem he
  rw [h.eqv_key hl hentry] at heq
  have hview := equals_eq heq
  have hsome : ∃ k, hashView env.heap env.seed l.1.view = some k := by
    cases hl : l.1 with
    | regex => rw [hl] at hregex; cases hregex
    | _ => exact ⟨_, rfl⟩
  obtain ⟨k, hk⟩ := hsome
  rw [hash_of_view (by rw [hview]; exact hk), hash_of_view (by rw [hentry.1]; exact hk)]

theorem filled_nil : env.Filled t {} [] where
  ok := @Inv.empty Value Value (keyBEq env.heap) _
  entries := .nil
  types := nofun

/-- A constant that is not in the map is inserted, if there is room. -/
theorem Env.Filled.insert (h : env.Filled t map labels) (hc : c ∈ node.constNodes)
    (hregex : c.isRegex = false) (htype : c.type = t) (hnew : ∀ l ∈ labels, l.1 ≠ c) (offset : Nat) :
    ∃ k, env.newObject c = some k ∧ ∃ r map',
      env.insert map k (.internal numberKind offset) = some (r, map') ∧
      if labels.length < maxSize then r.2 = .ok ∧ env.Filled t map' (labels ++ [(c, offset)])
      else r.2 = .limit := by
  obtain ⟨k, hk, hview⟩ := @newObject_spec c node ε env hc hregex
  have hv : viewType (view env.heap k) = some t := by rw [hview, viewType_view hregex, htype]
  refine ⟨k, hk, ?_⟩
  obtain ⟨r, map', hinsert, hinv, hspec⟩ := @Inv.insert_of Value Value (keyBEq env.heap)
    (Value.hash env.heap env.seed) map (keyBEq_equiv env.heap) h.ok k (.internal numberKind offset)
    fun e he => h.hash_eq he
  refine ⟨r, map', ?_, ?_⟩
  · rw [← hinsert]
    exact insert_congr _ _ _ (h.hasKey hv)
  have hsize : map.size = labels.length := (@Inv.size _ _ (keyBEq env.heap) _ _ h.ok).trans
    h.entries.length_eq.symm
  cases hspec with
  | @inserted i e he heq =>
    exfalso
    obtain ⟨l, hl, hregex', -, hentry⟩ := h.view_mem (OrderedMapEntries.mem_live.2 ⟨i, he⟩)
    have hequals : l.1.equals c.view = true := by
      rw [← hview, ← h.eqv_key hl hentry]
      exact heq
    exact hnew l hl ((equals_view_iff hregex').1 hequals)
  | limit _ hmax =>
    rw [if_neg (by omega)]
  | ok _ hlt hlive _ =>
    rw [if_pos (by omega)]
    refine ⟨rfl, hinv, ?_, fun l hl => ?_⟩
    · rw [hlive]
      exact List.rel_append h.entries (.cons ⟨hview, rfl⟩ .nil)
    · rcases List.mem_append.1 hl with hl | hl
      · exact h.types l hl
      · obtain rfl := List.mem_singleton.1 hl
        exact ⟨hregex, htype⟩

/-- A subject is found where a constant is equal to it. -/
theorem Env.Filled.lookupHash (h : env.Filled t map labels)
    (hv : viewType (view env.heap v) = some t) :
    env.lookupHash map v =
      some ((labels.find? fun l => l.1.equals (view env.heap v)).map Prod.snd) := by
  obtain ⟨r, hlookup, hget⟩ := @Inv.lookup_of Value Value (keyBEq env.heap)
    (Value.hash env.heap env.seed) map v (keyBEq_equiv env.heap) h.ok fun e he => h.hash_eq he
  have hlookup' : OrderedMapKey.lookup env.heap env.keyEq env.seed map (.value v) = some r := by
    rw [OrderedMapKey.lookup_value, ← hlookup]
    exact @lookup_congr _ _ (keyBEq env.heap) _ _ _ _ ⟨env.keyEq⟩ _ _ _ rfl rfl rfl (h.hasKey hv)
  have hfind : ∀ {ls : List (ConstNode × Nat)} {es : List (Entry Value Value)},
      (∀ l ∈ ls, l ∈ labels) → List.Forall₂ env.IsEntry ls es →
      (es.find? fun f => eqv env.heap 128 v f.key).map Entry.value =
        (ls.find? fun l => l.1.equals (view env.heap v)).map fun l => .internal numberKind l.2 := by
    intro ls es hls hes
    induction hes with
    | nil => rfl
    | @cons l e ls es hle _ ih =>
      rw [List.find?_cons, List.find?_cons, h.eqv_key (hls l List.mem_cons_self) hle]
      cases l.1.equals (view env.heap v) with
      | true => exact congrArg some hle.2
      | false => exact ih fun l hl => hls l (List.mem_cons_of_mem _ hl)
  have hvalue := hfind (fun l hl => hl) h.entries
  unfold Env.lookupHash
  rw [hlookup']
  cases r with
  | none =>
    have hnone : map.entries.live.find? (fun f => eqv env.heap 128 v f.key) = none := hget.symm
    rw [hnone] at hvalue
    cases hl : labels.find? fun l => l.1.equals (view env.heap v) with
    | none => rfl
    | some l =>
      rw [hl] at hvalue
      cases hvalue
  | some i =>
    obtain ⟨e, he⟩ := @Inv.get_of_lookup Value Value (keyBEq env.heap)
      (Value.hash env.heap env.seed) map v i h.ok (fun e he => h.hash_eq he) hlookup
    have hsome : map.entries.live.find? (fun f => eqv env.heap 128 v f.key) = some e :=
      hget.symm.trans he
    rw [hsome] at hvalue
    cases hl : labels.find? fun l => l.1.equals (view env.heap v) with
    | none =>
      rw [hl] at hvalue
      cases hvalue
    | some l =>
      rw [hl] at hvalue
      have hoffset : e.value = .internal numberKind l.2 := Option.some.inj hvalue
      rw [Option.bind_eq_bind, Option.bind_some]
      simp only [he, Option.map_some, hoffset, Option.pure_def]

end

end Arsh.Case
