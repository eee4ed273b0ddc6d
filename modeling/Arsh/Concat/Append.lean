import Mathlib.Logic.Function.Basic
import Mathlib.Tactic.Common
import Mathlib.Algebra.Group.Nat.Defs

/-!
# Strings that are appended to

`concatAsStr` of `object.h`: a short string is in its value, another one in an object that many values may
refer to. What is appended to an object is appended in place, unless there are other references to it.
`concatAsStr_spec`: the value becomes that of the concatenation, and no other value changes.
-/

namespace Arsh.Concat

abbrev Bytes := List UInt8

/-- `SYS_LIMIT_STRING_MAX`. -/
def maxSize : Nat := 2 ^ 31 - 1

/-! ## Texts -/

/-- `appendAsStr`, where the two are strings; `none` is the limit. -/
def appendText (left value : Bytes) : Option Bytes :=
  if value = [] then some left
  else if left.length > maxSize - value.length then none
  else some (left ++ value)

/-- Something that is printed piece by piece. -/
def appendPieces (left : Bytes) (pieces : List Bytes) : Option Bytes := pieces.foldlM appendText left

theorem appendText_some {left value out : Bytes} (h : appendText left value = some out) :
    out = left ++ value := by
  unfold appendText at h
  split_ifs at h with hnil
  · rw [hnil, List.append_nil]
    exact (Option.some.inj h).symm
  · exact (Option.some.inj h).symm

theorem appendText_eq_some {left value : Bytes} (hlen : left.length + value.length ≤ maxSize) :
    appendText left value = some (left ++ value) := by
  unfold appendText
  split_ifs with hnil hlt
  · rw [hnil, List.append_nil]
  · omega
  · rfl

theorem appendPieces_some {left out : Bytes} {pieces : List Bytes}
    (h : appendPieces left pieces = some out) : out = left ++ pieces.flatten := by
  unfold appendPieces at h
  induction pieces generalizing left with
  | nil =>
    rw [List.flatten_nil, List.append_nil]
    exact (Option.some.inj h).symm
  | cons piece pieces ih =>
    rw [List.foldlM_cons, Option.bind_eq_bind, Option.bind_eq_some_iff] at h
    obtain ⟨mid, hmid, h⟩ := h
    rw [ih h, appendText_some hmid, List.flatten_cons, List.append_assoc]

theorem appendPieces_eq_some {left : Bytes} {pieces : List Bytes}
    (hlen : left.length + pieces.flatten.length ≤ maxSize) :
    appendPieces left pieces = some (left ++ pieces.flatten) := by
  unfold appendPieces
  induction pieces generalizing left with
  | nil => rw [List.flatten_nil, List.append_nil]; rfl
  | cons piece pieces ih =>
    rw [List.flatten_cons, List.length_append] at hlen
    rw [List.foldlM_cons, appendText_eq_some (by omega), List.flatten_cons, ← List.append_assoc]
    exact ih (by rw [List.length_append]; omega)

/-! ## Objects -/

abbrev Addr := Nat

inductive StrValue where
  | small (s : Bytes)
  | object (addr : Addr)
  deriving DecidableEq, Repr

/-- The strings of objects, and the address of the next object. -/
structure Cells where
  text : Addr → Bytes
  next : Addr

def Cells.asStrRef (c : Cells) : StrValue → Bytes
  | .small s => s
  | .object addr => c.text addr

/-- A new `StringObject`. -/
def Cells.create (c : Cells) (s : Bytes) : Cells × StrValue :=
  ({ text := Function.update c.text c.next s, next := c.next + 1 }, .object c.next)

def maxStrSize : Nat := 6

def Cells.createStr (c : Cells) (s : Bytes) : Cells × StrValue :=
  if s.length ≤ maxStrSize then (c, .small s) else c.create s

/-- `unsafeAppend`, of an object. -/
def Cells.unsafeAppend (c : Cells) (addr : Addr) (value : Bytes) : Cells :=
  { c with text := Function.update c.text addr (c.text addr ++ value) }

/-- `appendAsStr`; `none` is the limit. -/
def Cells.appendAsStr (c : Cells) (left : StrValue) (value : Bytes) : Option (Cells × StrValue) :=
  if value = [] then some (c, left)
  else if (c.asStrRef left).length > maxSize - value.length then none
  else
    match left with
    | .small s =>
      if s.length + value.length ≤ maxStrSize then some (c, .small (s ++ value))
      else
        let (c, _) := c.create s
        some (c.unsafeAppend (c.next - 1) value, .object (c.next - 1))
    | .object addr => some (c.unsafeAppend addr value, .object addr)

/-- The right operand: a string, or the pieces of something that is printed. -/
inductive Right where
  | str (v : StrValue)
  | pieces (pieces : List Bytes)

/-- The references to the left operand that do not count; with `append` one is that of a variable. -/
def copyCount (append : Bool) : Nat := if append then 2 else 1

/-- `concatAsStr`. Both operands are off the stack, and count as references. -/
def concatAsStr (c : Cells) (refcount : Addr → Nat) (append : Bool) (left : StrValue) :
    Right → Option (Cells × StrValue)
  | .str v =>
    if c.asStrRef v = [] then some (c, left)
    else if c.asStrRef left = [] then some (c, v)
    else
      let (c', left) := unshare c left
      c'.appendAsStr left (c'.asStrRef v)
  | .pieces pieces =>
    let (c, left) := unshare c left
    pieces.foldlM (fun (c, left) piece => c.appendAsStr left piece) (c, left)
where
  /-- A string with other references is copied. -/
  unshare (c : Cells) : StrValue → Cells × StrValue
    | .small s => (c, .small s)
    | .object addr =>
      if refcount addr > copyCount append then c.createStr (c.text addr)
      else (c, .object addr)

/-! ## What an append does -/

/-- The text of what is appended. -/
inductive RightText where
  | str (s : Bytes)
  | pieces (pieces : List Bytes)

/-- `concatAsStr`, for texts. -/
def concatText (left : Bytes) : RightText → Option Bytes
  | .str s => if s = [] then some left else if left = [] then some s else appendText left s
  | .pieces pieces => appendPieces left pieces

def Cells.rightText (c : Cells) : Right → RightText
  | .str v => .str (c.asStrRef v)
  | .pieces pieces => .pieces pieces

section
variable {c : Cells} {P : Addr → Prop} {left : StrValue} {value : Bytes}

/-- Objects that are there, and to which the value does not refer. -/
def Apart (c : Cells) (P : Addr → Prop) (left : StrValue) : Prop :=
  ∀ a, P a → a < c.next ∧ left ≠ .object a

/-- A step that leaves the objects as they are. -/
structure Keeps (P : Addr → Prop) (c c' : Cells) (left : StrValue) : Prop where
  text : ∀ a, P a → c'.text a = c.text a
  apart : Apart c' P left

theorem Keeps.trans {c' c'' : Cells} {left' : StrValue} (h : Keeps P c c' left)
    (h' : Keeps P c' c'' left') : Keeps P c c'' left' :=
  ⟨fun a ha => (h'.text a ha).trans (h.text a ha), h'.apart⟩

theorem keeps_create (hP : ∀ a, P a → a < c.next) (s : Bytes) :
    Keeps P c (c.create s).1 (c.create s).2 := by
  refine ⟨fun a ha => ?_, fun a ha => ?_⟩
  · exact Function.update_of_ne (Nat.ne_of_lt (hP a ha)) _ _
  · refine ⟨Nat.lt_succ_of_lt (hP a ha), fun heq => ?_⟩
    have := hP a ha
    rw [← StrValue.object.inj heq] at this
    exact Nat.lt_irrefl _ this

theorem keeps_unsafeAppend {addr : Addr} (hP : Apart c P (.object addr)) (value : Bytes) :
    Keeps P c (c.unsafeAppend addr value) (.object addr) := by
  refine ⟨fun a ha => ?_, fun a ha => hP a ha⟩
  exact Function.update_of_ne (fun heq => (hP a ha).2 (by rw [heq])) _ _

theorem keeps_createStr (hP : ∀ a, P a → a < c.next) (s : Bytes) :
    Keeps P c (c.createStr s).1 (c.createStr s).2 ∧
      (c.createStr s).1.asStrRef (c.createStr s).2 = s := by
  unfold Cells.createStr
  split_ifs
  · exact ⟨⟨fun _ _ => rfl, fun a ha => ⟨hP a ha, nofun⟩⟩, rfl⟩
  · exact ⟨keeps_create hP s, Function.update_self ..⟩

theorem appendAsStr_spec (hP : Apart c P left) (value : Bytes) :
    (c.appendAsStr left value).map (fun r => r.1.asStrRef r.2) =
        appendText (c.asStrRef left) value ∧
      ∀ r, c.appendAsStr left value = some r → Keeps P c r.1 r.2 := by
  unfold Cells.appendAsStr appendText
  split_ifs with hnil hlt
  · exact ⟨rfl, fun r hr => by cases hr; exact ⟨fun _ _ => rfl, hP⟩⟩
  · exact ⟨rfl, nofun⟩
  · cases left with
    | object addr =>
      refine ⟨congrArg some (Function.update_self ..), fun r hr => ?_⟩
      cases hr
      exact keeps_unsafeAppend hP value
    | small s =>
      dsimp only
      split_ifs with hsize
      · exact ⟨rfl, fun r hr => by cases hr; exact ⟨fun _ _ => rfl, fun a ha => ⟨(hP a ha).1, nofun⟩⟩⟩
      · have hcreate := keeps_create (fun a ha => (hP a ha).1) s
        refine ⟨congrArg some ?_, fun r hr => ?_⟩
        · show Function.update _ c.next _ c.next = _
          rw [Function.update_self]
          exact congrArg (· ++ value) (Function.update_self ..)
        · cases hr
          exact hcreate.trans (keeps_unsafeAppend hcreate.apart value)

theorem appendPieces_spec (hP : Apart c P left) (pieces : List Bytes) :
    (pieces.foldlM (fun (r : Cells × StrValue) piece => r.1.appendAsStr r.2 piece) (c, left)).map
        (fun r => r.1.asStrRef r.2) = appendPieces (c.asStrRef left) pieces ∧
      ∀ r, pieces.foldlM (fun (r : Cells × StrValue) piece => r.1.appendAsStr r.2 piece) (c, left) =
        some r → Keeps P c r.1 r.2 := by
  unfold appendPieces
  induction pieces generalizing c left with
  | nil => exact ⟨rfl, fun r hr => by cases hr; exact ⟨fun _ _ => rfl, hP⟩⟩
  | cons piece pieces ih =>
    obtain ⟨htext, hkeeps⟩ := appendAsStr_spec hP piece
    rw [List.foldlM_cons, List.foldlM_cons, ← htext]
    cases hr : c.appendAsStr left piece with
    | none => exact ⟨rfl, nofun⟩
    | some r =>
      have hkeep := hkeeps r hr
      obtain ⟨htext', hkeeps'⟩ := @ih r.1 r.2 hkeep.apart
      exact ⟨htext', fun r' hr' => hkeep.trans (hkeeps' r' hr')⟩

/-- The references that a value is not the only one of. -/
def Shared (c : Cells) (refcount : Addr → Nat) (append : Bool) (left : StrValue) (a : Addr) : Prop :=
  a < c.next ∧ (left = .object a → refcount a > copyCount append)

theorem unshare_spec (refcount : Addr → Nat) (append : Bool) (left : StrValue) :
    Keeps (Shared c refcount append left) c (concatAsStr.unshare refcount append c left).1
        (concatAsStr.unshare refcount append c left).2 ∧
      (concatAsStr.unshare refcount append c left).1.asStrRef
        (concatAsStr.unshare refcount append c left).2 = c.asStrRef left := by
  cases left with
  | small s => exact ⟨⟨fun _ _ => rfl, fun a ha => ⟨ha.1, nofun⟩⟩, rfl⟩
  | object addr =>
    have hunshare : concatAsStr.unshare refcount append c (.object addr) =
        if refcount addr > copyCount append then c.createStr (c.text addr)
        else (c, .object addr) := rfl
    rw [hunshare]
    split_ifs with hgt
    · exact keeps_createStr (fun _ ha => ha.1) _
    · refine ⟨⟨fun _ _ => rfl, fun a ha => ⟨ha.1, fun heq => hgt ?_⟩⟩, rfl⟩
      rw [StrValue.object.inj heq]
      exact ha.2 heq

/-- The value becomes that of the concatenation, and what others refer to stays as it is. -/
theorem concatAsStr_spec (c : Cells) (refcount : Addr → Nat) (append : Bool) (left : StrValue)
    (right : Right) (hright : ∀ a, right = .str (.object a) → Shared c refcount append left a) :
    (concatAsStr c refcount append left right).map (fun r => r.1.asStrRef r.2) =
        concatText (c.asStrRef left) (c.rightText right) ∧
      ∀ r, concatAsStr c refcount append left right = some r →
        ∀ a, Shared c refcount append left a → r.1.text a = c.text a := by
  obtain ⟨hkeep, htext⟩ := unshare_spec (c := c) refcount append left
  cases right with
  | str v =>
    have hv : (concatAsStr.unshare refcount append c left).1.asStrRef v = c.asStrRef v := by
      cases v with
      | small s => rfl
      | object a => exact hkeep.text a (hright a rfl)
    unfold concatAsStr Cells.rightText concatText
    dsimp only
    split_ifs with hnil hleft
    · exact ⟨rfl, fun r hr a _ => by cases hr; rfl⟩
    · exact ⟨rfl, fun r hr a _ => by cases hr; rfl⟩
    · obtain ⟨happend, hkeeps⟩ := appendAsStr_spec hkeep.apart (c.asStrRef v)
      rw [hv, happend, htext]
      exact ⟨rfl, fun r hr a ha => (hkeep.trans (hkeeps r hr)).text a ha⟩
  | pieces pieces =>
    obtain ⟨happend, hkeeps⟩ := appendPieces_spec hkeep.apart pieces
    rw [htext] at happend
    exact ⟨happend, fun r hr a ha => (hkeep.trans (hkeeps r hr)).text a ha⟩

end

end Arsh.Concat
