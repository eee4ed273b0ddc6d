import Arsh.Lib.Bits
import Arsh.Lib.Vec
import Arsh.Unicode.RadixMap

/-!
# The radix tree in bytes

`serialize` lays a radix tree out in bytes, and `PackedRadixTree` searches the bytes. A node is
three bytes with the size of its prefix and the number of its children, the prefix, the property,
and the offset of each child; the nodes follow each other in the order of their depth. `Laid` says
that a tree lies at an offset. The search of the bytes is the search of the tree, and never reads
behind the end (`pack_faithful`).
-/

namespace Arsh.RadixTree

/-! ## Writing -/

def metaBytes : Nat := 3

/-- The bytes of a node whose children go to `targets`. -/
def nodeBytes (w : Nat) (t : RadixTree) (targets : List (RadixTree × Nat)) : List Nat :=
  BigEndian.put metaBytes (t.pre.length <<< 9 ||| t.children.length) ++ t.pre ++ [t.property] ++
    targets.flatMap fun e => BigEndian.put w e.2

/-- The targets of a node, with their offsets; `next` is the offset behind the last target so far.
`none` stands for an offset that does not fit in `w` bytes. -/
def childTargets (w : Nat) : List RadixTree → Nat → Option (List (RadixTree × Nat) × Nat)
  | [], next => some ([], next)
  | t :: ts, next =>
    if next > 2 ^ (8 * w) - 1 then none
    else (childTargets w ts (next + t.packedSize w)).map fun r => ((t, next) :: r.1, r.2)

/-- The loop of `serialize`. -/
def serializeTo (w : Nat) : Nat → List (RadixTree × Nat) → Nat → List Nat → Option (List Nat)
  | _, [], _, buf => some buf
  | 0, _ :: _, _, _ => none
  | fuel + 1, (t, _) :: targets, next, buf =>
    match childTargets w t.sortedChildren next with
    | none => none
    | some (children, next) =>
      serializeTo w fuel (targets ++ children) next (buf ++ nodeBytes w t children)

/-- `serialize` with a number of bytes for an offset. -/
def packWith (t : RadixTree) (w : Nat) : Option (List Nat) :=
  serializeTo w t.nodeCount [(t, 1)] (1 + t.packedSize w) [w]

/-- `serialize`, as the bytes that it writes. -/
def pack (t : RadixTree) : Option (List Nat) := t.packWith 2 <|> t.packWith 3

end Arsh.RadixTree

namespace Arsh.PackedRadixTree

open RadixTree

/-! ## Reading

A read behind the end of the bytes is `none`. -/

/-- The bytes of a range. -/
def slice (ptr : List Nat) (offset size : Nat) : Option (List Nat) :=
  if offset + size ≤ ptr.length then some ((ptr.drop offset).take size) else none

/-- What stands in a node before its child offsets. -/
structure Node where
  pre : List Nat
  property : Nat
  n : Nat
  /-- where the child offsets begin -/
  offset : Nat

def readNode (ptr : List Nat) (offset : Nat) : Option Node := do
  let info ← (slice ptr offset metaBytes).map BigEndian.get
  let offset := offset + metaBytes
  let prefixLen := info >>> 9
  let pre ← slice ptr offset prefixLen
  let property ← ptr[offset + prefixLen]?
  return ⟨pre, property, info &&& 0x1FF, offset + prefixLen + 1⟩

/-- `PackedRadixChildIter::childOffset` of each of `n` children. -/
def childOffsets (ptr : List Nat) (w : Nat) : Nat → Nat → Option (List Nat)
  | 0, _ => some []
  | n + 1, offset => do
    let childOffset ← (slice ptr offset w).map BigEndian.get
    let rest ← childOffsets ptr w n (offset + w)
    return childOffset :: rest

/-- `PackedRadixChildIter::operator*` of a child offset. -/
def firstByte (ptr : List Nat) (childOffset : Nat) : Option Nat := ptr[childOffset + metaBytes]?

/-- The loop of `findLongestMatched`; `consumed` bytes come before `ref`. The child is found by
`std::lower_bound`. -/
def findLoop (ptr : List Nat) (w : Nat) :
    Nat → Nat → List Nat → Nat → Nat × Nat → Option (Nat × Nat)
  | 0, _, _, _, _ => none
  | fuel + 1, offset, ref, consumed, latest =>
    if ptr.length ≤ offset then some latest
    else do
      let node ← readNode ptr offset
      if node.pre.isPrefixOf ref then
        let consumed := consumed + node.pre.length
        let latest := if node.property ≠ 0 then (consumed % 2 ^ 16, node.property) else latest
        match ref.drop node.pre.length with
        | [] => some latest
        | p :: rest => do
          let offsets ← childOffsets ptr w node.n node.offset
          let keys ← offsets.mapM (firstByte ptr)
          let i := Vec.lowerBound id keys p
          match offsets[i]?, keys[i]? with
          | some childOffset, some key =>
            if key = p then findLoop ptr w fuel childOffset (p :: rest) consumed latest
            else some latest
          | _, _ => some latest
      else some latest

/-- `findLongestMatched`; the fuel is what a search can need. -/
def findLongestMatched (ptr ref : List Nat) : Option (Nat × Nat) := do
  let w ← ptr[0]?
  findLoop ptr w (ref.length + 1) 1 ref 0 (0, 0)

def find (ptr ref : List Nat) : Option Nat :=
  (findLongestMatched ptr ref).map fun r => if ref.length = r.1 then r.2 else 0

/-- The recursion of `iterate`. -/
def iterateFrom (ptr : List Nat) (w : Nat) : Nat → Nat → List Nat → Option (List (List Nat × Nat))
  | 0, _, _ => none
  | fuel + 1, offset, buf =>
    if ptr.length ≤ offset then some []
    else do
      let node ← readNode ptr offset
      let buf := buf ++ node.pre
      let offsets ← childOffsets ptr w node.n node.offset
      let below ← offsets.mapM fun childOffset => iterateFrom ptr w fuel childOffset buf
      return (if node.property ≠ 0 then [(buf, node.property)] else []) ++ below.flatten

/-- `iterate`; a child lies behind its node, so the depth is less than the size. -/
def iterate (ptr : List Nat) : Option (List (List Nat × Nat)) := do
  let w ← ptr[0]?
  iterateFrom ptr w ptr.length 1 []

end Arsh.PackedRadixTree

namespace Arsh.RadixTree

/-! ## Trees that can be laid out -/

/-- The numbers of every node fit in the fields of its layout. -/
inductive Packable : RadixTree → Prop
  | node {pre : List Nat} {property : Nat} {children : List (Nat × RadixTree)}
    (head : ∀ x ∈ children, x.2.pre.head? = some x.1) (keys : (children.map Prod.fst).Nodup)
    (size : pre.length ≤ maxStringSize) (bytes : ∀ b ∈ pre, b < 256) (byte : property < 256)
    (packable : ∀ x ∈ children, Packable x.2) : Packable (.node pre property children)

/-- A compressed tree of byte strings is packable, since every node lies on the way to a string. -/
theorem Wf.packable {t : RadixTree} (ht : t.Wf)
    (h : ∀ s, t.lookup s ≠ 0 → s.length ≤ maxStringSize ∧ (∀ b ∈ s, b < 256) ∧ t.lookup s < 256) :
    t.Packable := by
  induction ht with
  | @node pre property children head keys branch wf ih =>
    obtain ⟨s, hs⟩ := (Wf.node head keys branch wf).exists_string
    obtain ⟨hsize, hbytes, -⟩ := h _ hs
    refine .node head keys ?_ (fun b hb => hbytes b (List.mem_append_left _ hb)) ?_ ?_
    · rw [List.length_append] at hsize
      exact Nat.le_of_add_right_le hsize
    · by_cases hp : property = 0
      · rw [hp]
        decide
      · have hself := lookup_self pre property children
        have := (h pre (hself.trans_ne hp)).2.2
        rwa [hself] at this
    · refine fun x hx => ih x hx fun s hs => ?_
      have hlookup : lookup (.node pre property children) (pre ++ s) = _ :=
        lookup_of_child keys hx (head x hx) hs
      obtain ⟨hsize, hbytes, hbyte⟩ := h (pre ++ s) (hlookup.trans_ne hs)
      rw [List.length_append] at hsize
      rw [hlookup] at hbyte
      exact ⟨Nat.le_of_add_left_le hsize, fun b hb => hbytes b (List.mem_append_right _ hb), hbyte⟩

theorem packable_nil : nil.Packable :=
  .node (fun _ h => by cases h) .nil (by decide) (fun _ h => by cases h) (by decide)
    (fun _ h => by cases h)

/-- The first byte of a node, by which `serialize` sorts. -/
def firstByte (t : RadixTree) : Nat := t.pre.headD 0

theorem firstByte_of_head {t : RadixTree} {k : Nat} (h : t.pre.head? = some k) :
    t.firstByte = k := by
  rw [firstByte, List.headD_eq_head?_getD, h, Option.getD_some]

theorem Packable.bytes {t : RadixTree} (h : t.Packable) : ∀ b ∈ t.pre, b < 256 := by
  cases h with
  | node _ _ _ bytes _ _ => exact bytes

/-- There is at most one child for a byte. -/
theorem Packable.length_children {pre : List Nat} {property : Nat}
    {children : List (Nat × RadixTree)} (h : Packable (.node pre property children)) :
    children.length ≤ 256 := by
  cases h with
  | node head keys _ _ _ packable =>
    have hsub : children.map Prod.fst ⊆ List.range 256 := by
      intro k hk
      obtain ⟨x, hx, rfl⟩ := List.mem_map.1 hk
      exact List.mem_range.2 ((packable x hx).bytes _ (List.mem_of_mem_head? (head x hx)))
    have := (List.subperm_of_subset keys hsub).length_le
    rwa [List.length_map, List.length_range] at this

/-- The children in the order in which they are laid out. -/
theorem sortedChildren_perm (t : RadixTree) : t.sortedChildren.Perm (t.children.map Prod.snd) :=
  List.mergeSort_perm _ _

theorem firstBytes_perm {pre : List Nat} {property : Nat} {children : List (Nat × RadixTree)}
    (head : ∀ x ∈ children, x.2.pre.head? = some x.1) :
    ((sortedChildren (.node pre property children)).map firstByte).Perm
      (children.map Prod.fst) := by
  have hmap : (children.map Prod.snd).map firstByte = children.map Prod.fst := by
    rw [List.map_map]
    exact List.map_congr_left fun x hx => firstByte_of_head (head x hx)
  exact hmap ▸ (sortedChildren_perm (.node pre property children)).map firstByte

theorem ascending_sortedChildren {pre : List Nat} {property : Nat}
    {children : List (Nat × RadixTree)} (head : ∀ x ∈ children, x.2.pre.head? = some x.1)
    (keys : (children.map Prod.fst).Nodup) :
    Vec.Ascending firstByte (sortedChildren (.node pre property children)) := by
  have hle : (sortedChildren (.node pre property children)).Pairwise
      fun x y => decide (x.firstByte ≤ y.firstByte) = true := by
    refine List.pairwise_mergeSort (fun a b c hab hbc => ?_) (fun a b => ?_) _
    · exact decide_eq_true (Nat.le_trans (of_decide_eq_true hab) (of_decide_eq_true hbc))
    · simpa only [Bool.or_eq_true, decide_eq_true_eq] using Nat.le_total a.firstByte b.firstByte
  have hnodup : ((sortedChildren (.node pre property children)).map firstByte).Nodup :=
    (firstBytes_perm head).nodup_iff.2 keys
  have hne := List.pairwise_map.1 hnodup
  exact (hle.and hne).imp fun h => Nat.lt_of_le_of_ne (of_decide_eq_true h.1) h.2

/-! ## What `serialize` has written -/

/-- The tree lies at the offset `off`, and its children behind it. -/
inductive Laid (ptr : List Nat) (w : Nat) : RadixTree → Nat → Prop
  | node {pre : List Nat} {property : Nat} {children : List (Nat × RadixTree)} {off : Nat}
    {targets : List (RadixTree × Nat)} {rest : List Nat}
    (packable : Packable (.node pre property children))
    (targets_eq : targets.map Prod.fst = sortedChildren (.node pre property children))
    (bytes : ptr.drop off = nodeBytes w (.node pre property children) targets ++ rest)
    (fits : ∀ e ∈ targets, off < e.2 ∧ e.2 < 2 ^ (8 * w))
    (laid : ∀ e ∈ targets, Laid ptr w e.1 e.2) : Laid ptr w (.node pre property children) off

theorem length_nodeBytes {w : Nat} {t : RadixTree} {targets : List (RadixTree × Nat)}
    (h : targets.map Prod.fst = t.sortedChildren) :
    (nodeBytes w t targets).length = t.packedSize w := by
  have hlen : targets.length = t.children.length := by
    rw [← List.length_map (f := Prod.fst), h, (sortedChildren_perm t).length_eq, List.length_map]
  have hsum : (targets.flatMap fun e => BigEndian.put w e.2).length = targets.length * w := by
    rw [List.length_flatMap, List.map_congr_left fun e _ => BigEndian.length_put w e.2,
      List.map_const', List.sum_replicate_nat]
  rw [nodeBytes, List.length_append, List.length_append, List.length_append, BigEndian.length_put,
    hsum, hlen]
  rfl

theorem packedSize_pos (t : RadixTree) (w : Nat) : 0 < t.packedSize w := by
  unfold packedSize
  omega

/-- Targets that follow each other up to the offset `next`. -/
def Consecutive (w : Nat) : List (RadixTree × Nat) → Nat → Nat → Prop
  | [], off, next => off = next
  | (t, o) :: targets, off, next => o = off ∧ Consecutive w targets (off + t.packedSize w) next

theorem Consecutive.append {w off mid next : Nat} {xs ys : List (RadixTree × Nat)}
    (h : Consecutive w xs off mid) (h' : Consecutive w ys mid next) :
    Consecutive w (xs ++ ys) off next := by
  induction xs generalizing off with
  | nil => exact h ▸ h'
  | cons x xs ih => exact ⟨h.1, ih h.2⟩

theorem Consecutive.le {w off next : Nat} {xs : List (RadixTree × Nat)}
    (h : Consecutive w xs off next) : off ≤ next := by
  induction xs generalizing off with
  | nil => exact Nat.le_of_eq h
  | cons x xs ih => exact Nat.le_of_add_right_le (ih h.2)

theorem childTargets_spec {w next next' : Nat} {ts : List RadixTree}
    {targets : List (RadixTree × Nat)} (h : childTargets w ts next = some (targets, next')) :
    targets.map Prod.fst = ts ∧ Consecutive w targets next next' ∧
      ∀ e ∈ targets, next ≤ e.2 ∧ e.2 < 2 ^ (8 * w) := by
  induction ts generalizing next targets with
  | nil =>
    cases h
    exact ⟨rfl, rfl, fun e he => by cases he⟩
  | cons t ts ih =>
    rw [childTargets] at h
    split at h
    · cases h
    · next hlt =>
      obtain ⟨⟨rest, next''⟩, hrest, heq⟩ := Option.map_eq_some_iff.1 h
      cases heq
      obtain ⟨rfl, hcons, hfits⟩ := ih hrest
      refine ⟨rfl, ⟨rfl, hcons⟩, List.forall_mem_cons.2 ⟨⟨Nat.le_refl _, ?_⟩, fun e he => ?_⟩⟩
      · have := Nat.two_pow_pos (8 * w)
        show next < 2 ^ (8 * w)
        omega
      · exact ⟨Nat.le_of_add_right_le (hfits e he).1, (hfits e he).2⟩

/-- The loop goes on behind what it has written, and lays out all its targets. -/
theorem serializeTo_laid {w fuel next : Nat} {targets : List (RadixTree × Nat)}
    {buf ptr : List Nat} (h : serializeTo w fuel targets next buf = some ptr)
    (hpackable : ∀ e ∈ targets, Packable e.1) (hcons : Consecutive w targets buf.length next) :
    buf <+: ptr ∧ ∀ e ∈ targets, Laid ptr w e.1 e.2 := by
  induction fuel generalizing targets next buf with
  | zero =>
    cases targets with
    | nil => cases h; exact ⟨List.prefix_rfl, fun e he => by cases he⟩
    | cons e targets => cases h
  | succ fuel ih =>
    cases targets with
    | nil => cases h; exact ⟨List.prefix_rfl, fun e he => by cases he⟩
    | cons e targets =>
      obtain ⟨t, off⟩ := e
      obtain ⟨rfl, hcons⟩ := hcons
      rw [serializeTo] at h
      split at h
      · cases h
      · next children next' hchildren =>
        obtain ⟨heq, hcons', hfits⟩ := childTargets_spec hchildren
        obtain ⟨ht, hts⟩ := List.forall_mem_cons.1 hpackable
        obtain ⟨pre, property, cs⟩ := t
        have hpack : ∀ e ∈ children, Packable e.1 := by
          intro e he
          have hmem : e.1 ∈ sortedChildren (.node pre property cs) :=
            heq ▸ List.mem_map_of_mem he
          obtain ⟨x, hx, hxe⟩ := List.mem_map.1 ((sortedChildren_perm _).mem_iff.1 hmem)
          cases ht with
          | node _ _ _ _ _ packable => exact hxe ▸ packable x hx
        obtain ⟨⟨rest, hrest⟩, hlaid⟩ := ih h
          (fun e he => (List.mem_append.1 he).elim (hts e) (hpack e))
          (by
            rw [List.length_append, length_nodeBytes heq]
            exact hcons.append hcons')
        refine ⟨⟨nodeBytes w (.node pre property cs) children ++ rest, ?_⟩,
          List.forall_mem_cons.2 ⟨?_, fun e he => hlaid e (List.mem_append_left _ he)⟩⟩
        · rw [← hrest, List.append_assoc]
        · have hbytes : ptr.drop buf.length =
              nodeBytes w (.node pre property cs) children ++ rest := by
            rw [← hrest, List.append_assoc, List.drop_left]
          refine .node ht heq hbytes (fun e he => ⟨?_, (hfits e he).2⟩)
            fun e he => hlaid e (List.mem_append_right _ he)
          · have hpos := packedSize_pos (.node pre property cs) w
            have hle := hcons.le
            have := (hfits e he).1
            omega

theorem packWith_laid {t : RadixTree} (ht : t.Packable) {w : Nat} {ptr : List Nat}
    (h : t.packWith w = some ptr) : ptr[0]? = some w ∧ Laid ptr w t 1 := by
  obtain ⟨⟨rest, rfl⟩, hlaid⟩ := serializeTo_laid h (List.forall_mem_singleton.2 ht) ⟨rfl, rfl⟩
  exact ⟨rfl, hlaid _ List.mem_cons_self⟩

theorem pack_laid {t : RadixTree} (ht : t.Packable) {ptr : List Nat} (h : t.pack = some ptr) :
    ∃ w, ptr[0]? = some w ∧ Laid ptr w t 1 := by
  unfold pack at h
  cases h2 : t.packWith 2 with
  | some ptr' =>
    rw [h2] at h
    cases h
    exact ⟨2, packWith_laid ht h2⟩
  | none =>
    rw [h2] at h
    exact ⟨3, packWith_laid ht h⟩

end Arsh.RadixTree

namespace Arsh.PackedRadixTree

open RadixTree

variable {ptr : List Nat} {w off : Nat} {t : RadixTree}

/-! ## What is read of it -/

theorem lt_length_of_drop {a : List Nat} (h : ptr.drop off = a) (hne : a ≠ []) :
    off < ptr.length := by
  by_contra hle
  exact hne (h ▸ List.drop_eq_nil_iff.2 (Nat.le_of_not_lt hle))

theorem drop_of_append {a b : List Nat} (h : ptr.drop off = a ++ b) :
    ptr.drop (off + a.length) = b := by
  rw [← List.drop_drop, h, List.drop_left]

theorem slice_eq {a b : List Nat} (h : ptr.drop off = a ++ b) (hne : a ++ b ≠ []) :
    slice ptr off a.length = some a := by
  have hlt := lt_length_of_drop h hne
  have hlen := congrArg List.length h
  rw [List.length_drop, List.length_append] at hlen
  rw [slice, if_pos (by omega), h, List.take_left]

theorem getElem?_of_drop {x : Nat} {b : List Nat} (h : ptr.drop off = x :: b) :
    ptr[off]? = some x := by
  rw [← List.head?_drop, h]
  rfl

theorem shape_of_laid (h : Laid ptr w t off) : off < ptr.length ∧ ∃ rest,
    ptr.drop (off + metaBytes) = t.pre ++ t.property :: rest := by
  cases h with
  | @node pre property children _ targets rest packable _ bytes _ _ =>
    rw [nodeBytes, List.append_assoc, List.append_assoc, List.append_assoc] at bytes
    have hmeta := drop_of_append bytes
    rw [BigEndian.length_put] at hmeta
    exact ⟨lt_length_of_drop bytes (by simp), _, hmeta⟩

theorem firstByte_of_laid {k : Nat} (h : Laid ptr w t off) (hk : t.pre.head? = some k) :
    firstByte ptr off = some k := by
  obtain ⟨-, rest, hrest⟩ := shape_of_laid h
  obtain ⟨pre, property, children⟩ := t
  cases pre with
  | nil => cases hk
  | cons a pre =>
    cases hk
    exact getElem?_of_drop hrest

theorem childOffsets_eq {targets : List (RadixTree × Nat)} {rest : List Nat} (hw : 0 < w)
    (h : ptr.drop off = (targets.flatMap fun e => BigEndian.put w e.2) ++ rest)
    (hfits : ∀ e ∈ targets, e.2 < 2 ^ (8 * w)) :
    childOffsets ptr w targets.length off = some (targets.map Prod.snd) := by
  induction targets generalizing off with
  | nil => rfl
  | cons e targets ih =>
    obtain ⟨he, hes⟩ := List.forall_mem_cons.1 hfits
    rw [List.flatMap_cons, List.append_assoc] at h
    have hne : BigEndian.put w e.2 ≠ [] :=
      List.ne_nil_of_length_pos (by rwa [BigEndian.length_put])
    have hslice := slice_eq h (List.append_ne_nil_of_left_ne_nil hne _)
    have hrest := drop_of_append h
    rw [BigEndian.length_put] at hslice hrest
    rw [List.length_cons, childOffsets, hslice, Option.map_some, BigEndian.get_put he, ih hrest hes]
    rfl

section
variable {pre : List Nat} {property : Nat} {children : List (Nat × RadixTree)}
  {targets : List (RadixTree × Nat)} {rest : List Nat}

/-- A node is read as it was written. -/
theorem readNode_eq (packable : Packable (.node pre property children))
    (bytes : ptr.drop off = nodeBytes w (.node pre property children) targets ++ rest) :
    readNode ptr off =
        some ⟨pre, property, children.length, off + metaBytes + pre.length + 1⟩ ∧
      ptr.drop (off + metaBytes + pre.length + 1) =
        (targets.flatMap fun e => BigEndian.put w e.2) ++ rest := by
  have hchildren := packable.length_children
  cases packable with
  | node head keys size _ byte _ =>
    rw [nodeBytes, List.append_assoc, List.append_assoc, List.append_assoc] at bytes
    have hinfo : pre.length <<< 9 ||| children.length = pre.length * 2 ^ 9 + children.length :=
      shift_or (by omega)
    have hsize : maxStringSize = 2 ^ 15 - 1 := rfl
    have hget : BigEndian.get (BigEndian.put metaBytes (pre.length <<< 9 ||| children.length)) =
        pre.length <<< 9 ||| children.length := by
      apply BigEndian.get_put
      rw [hinfo]
      show _ < 2 ^ 24
      omega
    have hlow : (pre.length <<< 9 ||| children.length) &&& 0x1FF = children.length := by
      show _ &&& (2 ^ 9 - 1) = _
      rw [Nat.and_two_pow_sub_one_eq_mod, hinfo, Nat.mul_add_mod_self_right,
        Nat.mod_eq_of_lt (by omega)]
    have hhigh : (pre.length <<< 9 ||| children.length) >>> 9 = pre.length := by
      rw [Nat.shiftRight_eq_div_pow, hinfo]
      omega
    have hslice := slice_eq bytes (by simp)
    have hpre := drop_of_append bytes
    rw [BigEndian.length_put] at hslice hpre
    have hslice' : slice ptr (off + metaBytes) pre.length = some pre := slice_eq hpre (by simp)
    have hproperty : ptr.drop (off + metaBytes + pre.length) = property :: _ := drop_of_append hpre
    refine ⟨?_, drop_of_append (a := [property]) hproperty⟩
    have hslice'' : slice ptr off metaBytes =
        some (BigEndian.put metaBytes (pre.length <<< 9 ||| children.length)) := hslice
    rw [readNode, hslice'']
    show (slice ptr (off + metaBytes) (BigEndian.get (BigEndian.put metaBytes _) >>> 9)).bind _ = _
    rw [hget, hhigh, hslice', Option.bind_some, getElem?_of_drop hproperty]
    show some (Node.mk pre property ((pre.length <<< 9 ||| children.length) &&& 0x1FF) _) = _
    rw [hlow]

/-- So are the offsets of its children. -/
theorem childOffsets_of_laid
    (targets_eq : targets.map Prod.fst = sortedChildren (.node pre property children))
    (bytes : ptr.drop off = (targets.flatMap fun e => BigEndian.put w e.2) ++ rest)
    (fits : ∀ e ∈ targets, 0 < e.2 ∧ e.2 < 2 ^ (8 * w)) :
    childOffsets ptr w children.length off = some (targets.map Prod.snd) := by
  have hlen : targets.length = children.length := by
    rw [← List.length_map (f := Prod.fst), targets_eq,
      (sortedChildren_perm (.node pre property children)).length_eq]
    exact List.length_map Prod.snd
  rw [← hlen]
  cases targets with
  | nil => rfl
  | cons e targets =>
    refine childOffsets_eq ?_ bytes fun e he => (fits e he).2
    have := fits e List.mem_cons_self
    by_contra hw
    obtain rfl : w = 0 := Nat.eq_zero_of_not_pos hw
    have hone : 2 ^ (8 * 0) = 1 := rfl
    omega

/-- A target is a child, with the byte by which it is found. -/
theorem mem_of_target
    (targets_eq : targets.map Prod.fst = sortedChildren (.node pre property children))
    (head : ∀ x ∈ children, x.2.pre.head? = some x.1) {e : RadixTree × Nat} (he : e ∈ targets) :
    (e.1.firstByte, e.1) ∈ children ∧ e.1.pre.head? = some e.1.firstByte := by
  have hmem : e.1 ∈ sortedChildren (.node pre property children) :=
    targets_eq ▸ List.mem_map_of_mem he
  obtain ⟨x, hx, hxe⟩ := List.mem_map.1 ((sortedChildren_perm _).mem_iff.1 hmem)
  have hfirst := firstByte_of_head (head x hx)
  rw [← hxe, hfirst]
  exact ⟨hx, head x hx⟩

end

/-- The bytes by which the children of a node are searched. -/
theorem keys_eq {targets : List (RadixTree × Nat)}
    (hlaid : ∀ e ∈ targets, Laid ptr w e.1 e.2)
    (hhead : ∀ e ∈ targets, e.1.pre.head? = some e.1.firstByte) :
    (targets.map Prod.snd).mapM (firstByte ptr) = some (targets.map fun e => e.1.firstByte) := by
  induction targets with
  | nil => rfl
  | cons e targets ih =>
    obtain ⟨he, hes⟩ := List.forall_mem_cons.1 hlaid
    obtain ⟨hk, hks⟩ := List.forall_mem_cons.1 hhead
    rw [List.map_cons, List.mapM_cons, firstByte_of_laid he hk, ih hes hks]
    rfl

theorem findLongestChild_of_mem {children : List (Nat × RadixTree)} {x : Nat × RadixTree}
    (hkeys : (children.map Prod.fst).Nodup) (hx : x ∈ children) (ref : List Nat) (consumed : Nat)
    (latest : Nat × Nat) : findLongestChild children x.1 ref consumed latest =
      x.2.findLongestLoop ref consumed latest := by
  induction children with
  | nil => cases hx
  | cons y children ih =>
    obtain ⟨k, t⟩ := y
    rw [List.map_cons, List.nodup_cons] at hkeys
    rw [findLongestChild]
    rcases List.mem_cons.1 hx with rfl | hx
    · rw [if_pos rfl]
    · have hne : k ≠ x.1 := fun h => hkeys.1 (List.mem_map.2 ⟨x, hx, h.symm⟩)
      rw [if_neg hne, ih hkeys.2 hx]

theorem findLongestChild_of_not_mem {children : List (Nat × RadixTree)} {b : Nat}
    (hb : b ∉ children.map Prod.fst) (ref : List Nat) (consumed : Nat) (latest : Nat × Nat) :
    findLongestChild children b ref consumed latest = latest := by
  induction children with
  | nil => rfl
  | cons y children ih =>
    obtain ⟨k, t⟩ := y
    rw [List.map_cons, List.mem_cons, not_or] at hb
    rw [findLongestChild, if_neg (Ne.symm hb.1), ih hb.2]

/-- The children of a node are searched by their first bytes. -/
theorem search_targets {targets : List (RadixTree × Nat)} {keys : List Nat}
    (hkeys : keys = targets.map fun e => e.1.firstByte) (hs : Vec.Ascending id keys) (b : Nat) :
    (∃ e ∈ targets, e.1.firstByte = b ∧
      (targets.map Prod.snd)[Vec.lowerBound id keys b]? = some e.2 ∧
      keys[Vec.lowerBound id keys b]? = some b) ∨
    b ∉ keys ∧ ∀ k, keys[Vec.lowerBound id keys b]? = some k → k ≠ b := by
  by_cases hb : b ∈ keys
  · have hget : keys[Vec.lowerBound id keys b]? = some b :=
      ((Vec.getElem?_lowerBound hs).2 ⟨hb, rfl⟩).1
    have htarget := hget
    rw [hkeys, List.getElem?_map, ← hkeys] at htarget
    obtain ⟨e, he, heq⟩ := Option.map_eq_some_iff.1 htarget
    exact .inl ⟨e, List.mem_of_getElem? he, heq, by rw [List.getElem?_map, he]; rfl, hget⟩
  · exact .inr ⟨hb, fun k hk hkb => hb (hkb ▸ List.mem_of_getElem? hk)⟩

/-- The search of the bytes is the search of the tree. -/
theorem findLoop_eq (h : Laid ptr w t off) {fuel consumed : Nat} {ref : List Nat}
    (latest : Nat × Nat) (hpos : 0 < fuel) (hfuel : ref.length ≤ fuel)
    (hroot : t.pre = [] → ref.length < fuel)
    (hsize : ∀ s, t.lookup s ≠ 0 → consumed + s.length < 2 ^ 16) :
    findLoop ptr w fuel off ref consumed latest =
      some (t.findLongestLoop ref consumed latest) := by
  induction h generalizing fuel consumed ref latest with
  | @node pre property children off targets rest packable targets_eq bytes fits laid ih =>
    have hlt := (shape_of_laid (Laid.node packable targets_eq bytes fits laid)).1
    obtain ⟨hread, hrest⟩ := readNode_eq packable bytes
    have hoffsets := childOffsets_of_laid targets_eq hrest
      fun e he => ⟨Nat.zero_lt_of_lt (fits e he).1, (fits e he).2⟩
    cases packable with
    | node head keys _ _ _ _ =>
      obtain ⟨fuel, rfl⟩ : ∃ n, fuel = n + 1 := ⟨fuel - 1, by omega⟩
      rw [findLoop, if_neg (Nat.not_le.2 hlt), hread, findLongestLoop]
      show (if pre.isPrefixOf ref then _ else _) = _
      by_cases hpre : pre <+: ref
      · obtain ⟨tail, rfl⟩ := hpre
        rw [if_pos (List.isPrefixOf_iff_prefix.2 (List.prefix_append _ _)),
          if_pos (List.isPrefixOf_iff_prefix.2 (List.prefix_append _ _))]
        dsimp only
        rw [List.drop_left]
        -- the size of a string that is found fits in sixteen bits
        have hlatest : (if property ≠ 0 then ((consumed + pre.length) % 2 ^ 16, property)
            else latest) = if property = 0 then latest else (consumed + pre.length, property) := by
          by_cases hp : property = 0
          · rw [if_neg fun h => h hp, if_pos hp]
          · have hlen := hsize pre ((lookup_self pre property children).trans_ne hp)
            rw [if_pos hp, if_neg hp, Nat.mod_eq_of_lt hlen]
        rw [hlatest]
        generalize (if property = 0 then latest else (consumed + pre.length, property)) = latest'
        cases tail with
        | nil => rfl
        | cons b tail =>
          have hkeys := keys_eq laid fun e he => (mem_of_target targets_eq head he).2
          have hasc : Vec.Ascending id (targets.map fun e => e.1.firstByte) := by
            have hasc : Vec.Ascending RadixTree.firstByte
                (sortedChildren (.node pre property children)) :=
              ascending_sortedChildren head keys
            rw [← targets_eq, Vec.Ascending, List.pairwise_map] at hasc
            exact List.pairwise_map.2 hasc
          show (childOffsets ptr w children.length _ >>= _) =
            some (findLongestChild children b _ _ _)
          rw [hoffsets]
          show ((targets.map Prod.snd).mapM (firstByte ptr) >>= _) = _
          rw [hkeys]
          dsimp only [Option.bind_eq_bind, Option.bind_some]
          rcases search_targets rfl hasc b with ⟨e, he, rfl, hoff, hkey⟩ | ⟨hb, hne⟩
          · obtain ⟨hmem, hhead⟩ := mem_of_target targets_eq head he
            rw [hoff, hkey]
            dsimp only
            rw [if_pos rfl, findLongestChild_of_mem keys hmem]
            -- a node consumes a byte, but for the root
            have hle : (e.1.firstByte :: tail).length ≤ fuel := by
              rw [List.length_append] at hfuel
              by_cases hnil : pre = []
              · have := hroot hnil
                rw [List.length_append] at this
                omega
              · have := List.length_pos_of_ne_nil hnil
                omega
            refine ih e he latest' ?_ hle (fun h => ?_) fun s hs => ?_
            · exact Nat.lt_of_lt_of_le (Nat.succ_pos _) hle
            · rw [h] at hhead
              cases hhead
            · have := hsize (pre ++ s)
                ((lookup_of_child keys hmem hhead hs).trans_ne hs)
              rw [List.length_append] at this
              omega
          · have hb' : b ∉ children.map Prod.fst := by
              have hperm : ((sortedChildren (.node pre property children)).map _).Perm _ :=
                firstBytes_perm head
              rw [← targets_eq, List.map_map] at hperm
              exact fun h => hb (hperm.mem_iff.2 h)
            rw [findLongestChild_of_not_mem hb']
            split
            · next k _ hk =>
              rw [if_neg (hne _ hk)]
            · rfl
      · rw [if_neg fun e => hpre (List.isPrefixOf_iff_prefix.1 e),
          if_neg fun e => hpre (List.isPrefixOf_iff_prefix.1 e)]

theorem iterateChildren_eq (buf : List Nat) (children : List (Nat × RadixTree)) :
    iterateChildren buf children = (children.map Prod.snd).flatMap (RadixTree.iterate buf) := by
  induction children with
  | nil => rfl
  | cons x children ih =>
    rw [iterateChildren, List.map_cons, List.flatMap_cons, ih]

/-- The bytes show the strings of the tree. -/
theorem iterateFrom_perm (h : Laid ptr w t off) {fuel : Nat} (hfuel : ptr.length ≤ off + fuel)
    (buf : List Nat) :
    ∃ l, iterateFrom ptr w fuel off buf = some l ∧ l.Perm (t.iterate buf) := by
  induction h generalizing fuel buf with
  | @node pre property children off targets rest packable targets_eq bytes fits laid ih =>
    have hlt := (shape_of_laid (Laid.node packable targets_eq bytes fits laid)).1
    obtain ⟨hread, hrest⟩ := readNode_eq packable bytes
    have hoffsets := childOffsets_of_laid targets_eq hrest
      fun e he => ⟨Nat.zero_lt_of_lt (fits e he).1, (fits e he).2⟩
    obtain ⟨fuel, rfl⟩ : ∃ n, fuel = n + 1 := ⟨fuel - 1, by omega⟩
    have hchild : ∀ e ∈ targets, ∃ l, iterateFrom ptr w fuel e.2 (buf ++ pre) = some l ∧
        l.Perm (e.1.iterate (buf ++ pre)) := by
      intro e he
      have := (fits e he).1
      exact ih e he (by omega) (buf ++ pre)
    have hbelow : ∃ ls, (targets.map Prod.snd).mapM
        (fun childOffset => iterateFrom ptr w fuel childOffset (buf ++ pre)) = some ls ∧
        ls.flatten.Perm ((targets.map Prod.fst).flatMap (RadixTree.iterate (buf ++ pre))) := by
      clear ih laid fits bytes targets_eq hoffsets hrest
      induction targets with
      | nil => exact ⟨[], rfl, .refl _⟩
      | cons e targets ihc =>
        obtain ⟨⟨l, hl, hperm⟩, hes⟩ := List.forall_mem_cons.1 hchild
        obtain ⟨ls, hls, hperms⟩ := ihc hes
        refine ⟨l :: ls, ?_, ?_⟩
        · rw [List.map_cons, List.mapM_cons, hl, hls]
          rfl
        · rw [List.flatten_cons, List.map_cons, List.flatMap_cons]
          exact hperm.append hperms
    obtain ⟨ls, hls, hperm⟩ := hbelow
    refine ⟨(if property ≠ 0 then [(buf ++ pre, property)] else []) ++ ls.flatten, ?_, ?_⟩
    · rw [iterateFrom, if_neg (Nat.not_le.2 hlt), hread]
      show (childOffsets ptr w children.length _ >>= _) = _
      rw [hoffsets]
      show ((targets.map Prod.snd).mapM
        (fun childOffset => iterateFrom ptr w fuel childOffset _) >>= _) = _
      rw [hls]
      rfl
    · rw [RadixTree.iterate, iterateChildren_eq]
      have hhead : (if property ≠ 0 then [(buf ++ pre, property)] else []) =
          if property = 0 then [] else [(buf ++ pre, property)] := by
        by_cases hp : property = 0
        · rw [if_neg fun h => h hp, if_pos hp]
        · rw [if_pos hp, if_neg hp]
      rw [hhead]
      refine (hperm.trans ?_).append_left _
      rw [targets_eq]
      exact (sortedChildren_perm (.node pre property children)).flatMap_right _

end Arsh.PackedRadixTree

namespace Arsh.RadixTree

/-! ## When there are bytes -/

theorem childTargets_eq (w : Nat) (ts : List RadixTree) (next : Nat) :
    (childTargets w ts next).map Prod.snd = childOffsets w ts next := by
  induction ts generalizing next with
  | nil => rfl
  | cons t ts ih =>
    rw [childTargets, childOffsets]
    split
    · rfl
    · rw [← ih, Option.map_map]
      rfl

theorem nodeCounts_eq (children : List (Nat × RadixTree)) :
    nodeCounts children = ((children.map Prod.snd).map nodeCount).sum := by
  induction children with
  | nil => rfl
  | cons x children ih =>
    rw [nodeCounts, ih]
    rfl

/-- With fuel for all nodes the loop fails for an offset only. -/
theorem isSome_serializeTo {w fuel next : Nat} {targets : List (RadixTree × Nat)} {buf : List Nat}
    (h : ((targets.map Prod.fst).map nodeCount).sum ≤ fuel) :
    (serializeTo w fuel targets next buf).isSome =
      serializeLoop w fuel (targets.map Prod.fst) next := by
  induction fuel generalizing targets next buf with
  | zero =>
    cases targets with
    | nil => rfl
    | cons e targets =>
      obtain ⟨⟨pre, property, children⟩, off⟩ := e
      rw [List.map_cons, List.map_cons, List.sum_cons, nodeCount] at h
      omega
  | succ fuel ih =>
    cases targets with
    | nil => rfl
    | cons e targets =>
      obtain ⟨⟨pre, property, children⟩, off⟩ := e
      rw [List.map_cons, serializeTo, serializeLoop, ← childTargets_eq]
      cases hc : childTargets w (sortedChildren (.node pre property children)) next with
      | none => rfl
      | some r =>
        obtain ⟨targets', next'⟩ := r
        obtain ⟨heq, -, -⟩ := childTargets_spec hc
        show (serializeTo w fuel (targets ++ targets') next' _).isSome =
          serializeLoop w fuel (targets.map Prod.fst ++ sortedChildren _) next'
        rw [ih, List.map_append, heq]
        have hperm := ((sortedChildren_perm (.node pre property children)).map nodeCount).sum_nat
        have hcount : nodeCounts children = _ := nodeCounts_eq children
        rw [List.map_cons, List.map_cons, List.sum_cons, nodeCount] at h
        rw [List.map_append, List.map_append, List.sum_append, heq, hperm]
        show _ + ((children.map Prod.snd).map nodeCount).sum ≤ fuel
        omega

theorem isSome_packWith (t : RadixTree) (w : Nat) :
    (t.packWith w).isSome = serializeLoop w t.nodeCount [t] (1 + t.packedSize w) :=
  isSome_serializeTo (Nat.le_refl _)

/-- There are bytes when every child offset fits in two bytes, or in three. -/
theorem isSome_pack (t : RadixTree) : t.pack.isSome = t.serialize := by
  rw [pack, serialize, ← isSome_packWith, ← isSome_packWith]
  cases t.packWith 2 <;> rfl

/-! ## The bytes of a run -/

/-- The arguments of the call are bytes. -/
def Op.Bytes : Op → Prop
  | .add seq p => (∀ b ∈ seq, b < 256) ∧ p < 256
  | .remove _ => True

/-- What the map of a run holds. -/
def Stored (m : List Nat → Nat) : Prop :=
  ∀ s, m s ≠ 0 → s.length ≤ maxStringSize ∧ (∀ b ∈ s, b < 256) ∧ m s < 256

theorem Stored.spec {m : List Nat → Nat} (h : Stored m) {op : Op} (hop : op.Bytes) :
    Stored (op.spec m).2 := by
  cases op with
  | add seq p =>
    simp only [Op.spec]
    split
    · exact h
    split
    · exact h
    split
    · exact h
    split
    · next hsize _ =>
      intro s hs
      dsimp only at hs ⊢
      by_cases he : s = seq
      · subst he
        rw [Function.update_self]
        exact ⟨Nat.le_of_not_lt hsize, hop.1, hop.2⟩
      · rw [Function.update_of_ne he] at hs ⊢
        exact h s hs
    · exact h
  | remove seq =>
    intro s hs
    show _ ∧ _ ∧ Function.update m seq 0 s < 256
    replace hs : Function.update m seq 0 s ≠ 0 := hs
    by_cases he : s = seq
    · subst he
      rw [Function.update_self] at hs
      exact absurd rfl hs
    · rw [Function.update_of_ne he] at hs ⊢
      exact h s hs

theorem Stored.specAll {m : List Nat → Nat} (h : Stored m) {ops : List Op}
    (hops : ∀ op ∈ ops, op.Bytes) : Stored (specAll m ops).2 := by
  induction ops generalizing m with
  | nil => exact h
  | cons op ops ih =>
    obtain ⟨hop, hops⟩ := List.forall_mem_cons.1 hops
    exact ih (h.spec hop) hops

/-- The property of a string is found with the longest string it starts with. -/
theorem Longest.find_eq {m : List Nat → Nat} {ref : List Nat} {r : Nat × Nat}
    (h : Longest m ref 0 (0, 0) r) : (if ref.length = r.1 then r.2 else 0) = m ref := by
  rcases h with ⟨rfl, hnone⟩ | ⟨n, hn, hne, rfl, hmax⟩
  · have := hnone ref.length (Nat.le_refl _)
    rw [List.take_length] at this
    rw [this, ite_self]
  · rw [Nat.zero_add]
    dsimp only
    split
    · next hlen => rw [← hlen, List.take_length]
    · next hlen =>
      by_contra hm
      have := hmax ref.length (Nat.le_refl _) (by rw [List.take_length]; exact Ne.symm hm)
      omega

/-- The bytes of a tree that `add` and `remove` have made find the longest string of the finite map
that a text starts with, find the property of every string, and show every string once. -/
theorem pack_faithful (ops : List Op) (hops : ∀ op ∈ ops, op.Bytes) {ptr : List Nat}
    (h : (runAll nil ops).2.pack = some ptr) :
    (∀ ref, ∃ r, PackedRadixTree.findLongestMatched ptr ref = some r ∧
      Longest (specAll (fun _ => 0) ops).2 ref 0 (0, 0) r) ∧
    (∀ ref, PackedRadixTree.find ptr ref = some ((specAll (fun _ => 0) ops).2 ref)) ∧
    ∃ l, PackedRadixTree.iterate ptr = some l ∧ (l.map Prod.fst).Nodup ∧
      ∀ s p, (s, p) ∈ l ↔ p ≠ 0 ∧ (specAll (fun _ => 0) ops).2 s = p := by
  obtain ⟨hsound, -, hlookup⟩ := Sound.runAll (.inl rfl) ops
  rw [funext lookup_nil] at hlookup
  have hstored : Stored (runAll nil ops).2.lookup := by
    rw [hlookup]
    exact Stored.specAll (fun s hs => absurd rfl hs) hops
  rw [← hlookup]
  generalize (runAll nil ops).2 = t at *
  have hpackable : t.Packable := by
    rcases hsound with rfl | hwf
    · exact packable_nil
    · exact hwf.packable hstored
  have hok : t.Ok := by
    rcases hsound with rfl | hwf
    · exact ok_leaf [] 0
    · exact hwf.ok
  obtain ⟨w, hw, hlaid⟩ := pack_laid hpackable h
  have hfind : ∀ ref, PackedRadixTree.findLongestMatched ptr ref =
      some (t.findLongestLoop ref 0 (0, 0)) := by
    intro ref
    rw [PackedRadixTree.findLongestMatched, hw]
    refine PackedRadixTree.findLoop_eq hlaid (0, 0) (Nat.succ_pos _) (Nat.le_succ _)
      (fun _ => Nat.lt_succ_self _) fun s hs => ?_
    have hsize : maxStringSize = 2 ^ 15 - 1 := rfl
    have := (hstored s hs).1
    omega
  have hlongest := fun ref => findLongestLoop_spec hok ref 0 (0, 0)
  refine ⟨fun ref => ⟨_, hfind ref, hlongest ref⟩, fun ref => ?_, ?_⟩
  · rw [PackedRadixTree.find, hfind, Option.map_some, (hlongest ref).find_eq]
  · obtain ⟨l, hl, hperm⟩ :=
      PackedRadixTree.iterateFrom_perm hlaid (Nat.le_add_left ptr.length 1) []
    refine ⟨l, ?_, ?_, fun s p => ?_⟩
    · rw [PackedRadixTree.iterate, hw]
      exact hl
    · exact (hperm.map Prod.fst).nodup_iff.2 hsound.nodup_iterate
    · rw [hperm.mem_iff]
      exact hsound.mem_iterate_iff

/-- Two strings below a common start. -/
theorem pack_shared :
    (runAll nil [.add [97, 98] 1, .add [97, 99, 100] 4, .add [97] 3, .remove [97, 99, 100],
      .add [97, 99] 2]).2.pack =
      some [2, 0, 2, 2, 97, 3, 0, 10, 0, 15, 0, 2, 0, 98, 1, 0, 2, 0, 99, 2] := by
  have hsorted : sortedChildren (.node [97] 3 [(98, .node [98] 1 []), (99, .node [99] 2 [])]) =
      [.node [98] 1 [], .node [99] 2 []] := List.mergeSort_of_pairwise (by decide)
  have hleaf : ∀ pre p, sortedChildren (.node pre p []) = [] := fun _ _ => List.mergeSort_nil
  have hpack : packWith (.node [97] 3 [(98, .node [98] 1 []), (99, .node [99] 2 [])]) 2 =
      some [2, 0, 2, 2, 97, 3, 0, 10, 0, 15, 0, 2, 0, 98, 1, 0, 2, 0, 99, 2] := by
    rw [packWith]
    show serializeTo 2 3 [(.node [97] 3 [(98, .node [98] 1 []), (99, .node [99] 2 [])], 1)] 10 [2] =
      _
    rw [serializeTo, hsorted]
    show serializeTo 2 2 [(.node [98] 1 [], 10), (.node [99] 2 [], 15)] 20 _ = _
    rw [serializeTo, hleaf]
    show serializeTo 2 1 [(.node [99] 2 [], 15)] 20 _ = _
    rw [serializeTo, hleaf]
    rfl
  show (packWith (.node [97] 3 [(98, .node [98] 1 []), (99, .node [99] 2 [])]) 2 <|> _) = _
  rw [hpack]
  rfl

theorem pack_faithful_shared :
    PackedRadixTree.find [2, 0, 2, 2, 97, 3, 0, 10, 0, 15, 0, 2, 0, 98, 1, 0, 2, 0, 99, 2]
      [97, 99] = some 2 :=
  (pack_faithful _ (by simp [Op.Bytes]) pack_shared).2.1 [97, 99]

end Arsh.RadixTree
