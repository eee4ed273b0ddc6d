import Arsh.Tagged.Value

/-!
# Faithful values

Every create function gives a value of its own kind that is decoded to what it was made from, and
leaves all other objects alone, except that `createFloat` takes some doubles for an object. These
are the doubles whose rotated bits have the tag of an object: the temporary value with these bits is
released as an object that is not there.
-/

namespace Arsh.Tagged

/-- A string object has at most `MAX_SIZE` bytes. -/
abbrev Str := {s : Bytes // s.length ≤ maxSize}

/-- What a value is made from. -/
inductive Source where
  | num (v : BitVec 32)
  | braceRangeAttr (k : BitVec 8) (digits : BitVec 32)
  | stackGuard (t : BitVec 8) (level : BitVec 32)
  | dummy (typeId : BitVec 32) (v1 : BitVec 16)
  | expandMeta (e : BitVec 8) (v : BitVec 32)
  | bool (b : Bool)
  | sig (n : BitVec 32)
  | int (n : BitVec 64)
  | float (v : BitVec 64)
  | str (s : Str)

namespace Source

/-- The create function of a source. -/
def build (A : Allocator) (raw : TValue) : Source → Heap → Except Fault (Value × Heap)
  | num v, h => .ok (createNum v, h)
  | braceRangeAttr k digits, h => .ok (createBraceRangeAttr k digits, h)
  | stackGuard t level, h => .ok (createStackGuard t level, h)
  | dummy typeId v1, h => .ok (createDummy typeId (v1.setWidth 32), h)
  | expandMeta e v, h => .ok (createExpandMeta e v, h)
  | bool b, h => .ok (createBool b, h)
  | sig n, h => .ok (createSig n, h)
  | int n, h => createInt A n h
  | float v, h => createFloat A v h
  | str s, h => createStr A raw s.1 h

def kind : Source → ValueKind
  | num _ => .number
  | braceRangeAttr _ _ => .braceRangeAttr
  | stackGuard _ _ => .stackGuard
  | dummy _ _ => .dummy
  | expandMeta _ _ => .expandMeta
  | bool _ => .bool
  | sig _ => .sig
  | int n => if withinInt56 n then .smallInt else .object
  | float v => if hasTag (encodeTaggedFloat .float v) .float then .commonFloat else .object
  | str s => if s.1.length ≤ maxStrSize then .smallStr else .object

def isInt : Source → Bool
  | int _ => true
  | _ => false

def isFloat : Source → Bool
  | float _ => true
  | _ => false

def isStr : Source → Bool
  | str _ => true
  | _ => false

/-- The value is decoded to its source. -/
def Decoded (h : Heap) (v : Value) : Source → Prop
  | num n => asNum v = n
  | braceRangeAttr k digits => asBraceRangeAttr v = (k, digits)
  | stackGuard t level => asStackGuard v = (t, level)
  | dummy typeId v1 => asUInt16UInt32Pair v = (v1, typeId) ∧ asTypeId v = typeId ∧
      asTypeIdMeta v = v1.setWidth 32
  | expandMeta e n => asExpandMeta v = (e, n)
  | bool b => asBool v = b
  | sig n => asSig v = n
  | int n => asInt h v = some n
  | float n => asFloat h v = some n
  | str s => asStrRef h v = some s.1

/-- The rotated bits are those of an object. -/
def dangling : Source → Bool
  | float v => isObject (encodeTaggedFloat .float v)
  | _ => false

end Source

/-- What is asked of a value and the heap it has been made in. -/
structure Represents (h h' : Heap) (v : Value) (src : Source) : Prop where
  kind : kind v = some src.kind
  hasInt : hasInt h' v = some src.isInt
  hasFloat : hasFloat h' v = some src.isFloat
  hasStrRef : hasStrRef h' v = some src.isStr
  decoded : src.Decoded h' v
  frame : ∀ a c, h a = some c → h' a = some c

/-- A create function gives such a value in any heap, if there is memory. -/
def Faithful (A : Allocator) (raw : TValue) (src : Source) : Prop :=
  ∀ h, src.build A raw h = .error .badAlloc ∧ A.address h = none ∨
    ∃ v h', src.build A raw h = .ok (v, h') ∧ Represents h h' v src

section
variable {A : Allocator} {raw x : TValue} {h h' heap : Heap} {v : Value} {k : ValueKind}
  {t : ValueTag} {u16 : BitVec 16} {u32 : BitVec 32} {u64 : BitVec 64} {o : Object}
  {s : Bytes} {n : BitVec 32}

/-! ## Classification -/

/-- The kinds that the low byte of a value has. -/
def isByteKind (k : ValueKind) : Bool :=
  k.toUnderlying &&& 0x7 == ValueTag.int.toUnderlying ||
    k.toUnderlying &&& 0x7 == ValueTag.uint.toUnderlying

theorem hasTag_low : hasTag ((x &&& ~~~0xFF) ||| k.toUnderlying.setWidth 64) t =
    (k.toUnderlying &&& 0x7 == t.toUnderlying) := by
  rw [hasTag, getTag_eq, setWidth_tagged]

/-- The flags of a number. -/
theorem classify_byte (hk : isByteKind k = true)
    (hv : v = (x &&& ~~~0xFF) ||| k.toUnderlying.setWidth 64) :
    kind v = some k ∧ hasInt h v = some (k == .smallInt) ∧ hasFloat h v = some false ∧
      hasStrRef h v = some false := by
  have hall : ∀ k, isByteKind k = true →
      (k.toUnderlying &&& 0x7 == ValueTag.empty.toUnderlying) = false ∧
      (k.toUnderlying &&& 0x7 == ValueTag.object.toUnderlying) = false ∧
      (k.toUnderlying &&& 0x7 == ValueTag.float.toUnderlying) = false ∧
      (k.toUnderlying &&& 0x7 == ValueTag.string.toUnderlying) = false ∧
      (k.toUnderlying &&& 0x7 == ValueTag.int.toUnderlying ||
        k.toUnderlying &&& 0x7 == ValueTag.uint.toUnderlying) = true := by
    intro k
    cases k <;> decide
  obtain ⟨hempty, hobject, hfloat, hstring, hbyte⟩ := hall k hk
  have hkind : kind v = some k := by
    rw [kind, hv, hasTag_low, hasTag_low, hasTag_low, hasTag_low, hasTag_low, hempty, hobject,
      hfloat, hbyte, setWidth_tagged]
    exact ValueKind.ofByte_toUnderlying k
  have hboxed : ∀ o, isBoxed h v o = some false := by
    intro o
    rw [isBoxed, isObject, hv, hasTag_low, hobject]
    rfl
  refine ⟨hkind, ?_, ?_, ?_⟩
  · rw [hasInt, hkind, hboxed]
    cases k <;> rfl
  · rw [hasFloat, hboxed, hv, hasTag_low, hfloat]
    rfl
  · rw [hasStrRef, hboxed, isSmallStr, hv, hasTag_low, hstring]
    rfl

theorem hasTag_ne {t' : ValueTag} (h : hasTag v t = true) (hne : t ≠ t') : hasTag v t' = false := by
  have hinj : ∀ t t' : ValueTag, t ≠ t' → t.toUnderlying ≠ t'.toUnderlying := by
    intro t t'
    cases t <;> cases t' <;> decide
  rw [hasTag, beq_iff_eq] at h
  rw [hasTag, h, beq_eq_false_iff_ne]
  exact hinj t t' hne

theorem classify_float (hv : hasTag v .float = true) :
    kind v = some .commonFloat ∧ hasInt h v = some false ∧ hasFloat h v = some true ∧
      hasStrRef h v = some false := by
  have hobject := hasTag_ne hv (show _ ≠ .object by decide)
  have hboxed : ∀ o, isBoxed h v o = some false := by
    intro o
    rw [isBoxed, isObject, hobject]
    rfl
  have hkind : kind v = some .commonFloat := by
    rw [kind, hasTag_ne hv (show _ ≠ .empty by decide), hobject, hv]
    rfl
  refine ⟨hkind, ?_, ?_, ?_⟩
  · rw [hasInt, hkind, hboxed]
    rfl
  · rw [hasFloat, hv]
    rfl
  · rw [hasStrRef, hboxed, isSmallStr, hasTag_ne hv (show _ ≠ .string by decide)]
    rfl

theorem classify_string (hv : hasTag v .string = true) :
    kind v = some .smallStr ∧ hasInt h v = some false ∧ hasFloat h v = some false ∧
      hasStrRef h v = some true := by
  have hobject := hasTag_ne hv (show _ ≠ .object by decide)
  have hboxed : ∀ o, isBoxed h v o = some false := by
    intro o
    rw [isBoxed, isObject, hobject]
    rfl
  have hkind : kind v = some .smallStr := by
    rw [kind, hasTag_ne hv (show _ ≠ .empty by decide), hobject,
      hasTag_ne hv (show _ ≠ .float by decide), hasTag_ne hv (show _ ≠ .int by decide),
      hasTag_ne hv (show _ ≠ .uint by decide), hv]
    rfl
  refine ⟨hkind, ?_, ?_, ?_⟩
  · rw [hasInt, hkind, hboxed]
    rfl
  · rw [hasFloat, hboxed, hasTag_ne hv (show _ ≠ .float by decide)]
    rfl
  · rw [hasStrRef, isSmallStr, hv]
    rfl

theorem classify_object (hv : hasTag v .object = true) (hcell : h v = some ⟨n, o⟩) :
    kind v = some .object ∧ hasInt h v = some (o.getKind == .int) ∧
      hasFloat h v = some (o.getKind == .float) ∧ hasStrRef h v = some (o.getKind == .string) := by
  have hboxed : ∀ k, isBoxed h v k = some (o.getKind == k) := by
    intro k
    rw [isBoxed, isObject, hv, hcell]
    rfl
  have hkind : kind v = some .object := by
    rw [kind, hasTag_ne hv (show _ ≠ .empty by decide), hv]
    rfl
  refine ⟨hkind, ?_, ?_, ?_⟩
  · rw [hasInt, hkind, hboxed]
    rfl
  · rw [hasFloat, hboxed, hasTag_ne hv (show _ ≠ .float by decide)]
    rfl
  · rw [hasStrRef, hboxed, isSmallStr, hasTag_ne hv (show _ ≠ .string by decide)]
    rfl

/-! ## Numbers -/

theorem setWidth_setWidth_of_le {w w' : Nat} (hle : w ≤ w') (y : BitVec w) :
    (y.setWidth w').setWidth w = y := by
  rw [BitVec.setWidth_setWidth_of_le y hle, BitVec.setWidth_eq]

/-- The pair in one number. -/
theorem pair_lt : ((u16.setWidth 64 <<< 32) ||| u32.setWidth 64 : BitVec 64).toNat < 2 ^ 56 := by
  have h16 : (u16.setWidth 64 <<< 32 : BitVec 64).toNat < 2 ^ 56 := by
    rw [BitVec.toNat_shiftLeft, BitVec.toNat_setWidth, Nat.shiftLeft_eq]
    have := u16.isLt
    omega
  have h32 : (u32.setWidth 64 : BitVec 64).toNat < 2 ^ 56 := by
    rw [BitVec.toNat_setWidth]
    have := u32.isLt
    omega
  rw [BitVec.toNat_or]
  exact Nat.or_lt_two_pow h16 h32

theorem asUInt16UInt32Pair_ofPair : asUInt16UInt32Pair (ofPair k u16 u32) = (u16, u32) := by
  rw [asUInt16UInt32Pair, ofPair, decodeTaggedUInt_encodeTaggedUInt pair_lt]
  refine Prod.ext (BitVec.eq_of_getLsbD_eq fun i hi => ?_) (BitVec.eq_of_getLsbD_eq fun i hi => ?_)
  · rw [BitVec.getLsbD_setWidth, BitVec.getLsbD_ushiftRight, BitVec.getLsbD_or,
      BitVec.getLsbD_shiftLeft, BitVec.getLsbD_setWidth, BitVec.getLsbD_setWidth,
      BitVec.getLsbD_of_ge u32 (32 + i) (by omega), Nat.add_sub_cancel_left, decide_eq_true hi,
      decide_eq_true (show 32 + i < 64 by omega), decide_eq_true (show i < 64 by omega),
      decide_eq_false (show ¬32 + i < 32 by omega)]
    simp
  · have hall : ∀ i < 32, (0xFFFFFFFF : BitVec 64).getLsbD i = true := by decide
    rw [BitVec.getLsbD_setWidth, BitVec.getLsbD_and, BitVec.getLsbD_or, BitVec.getLsbD_shiftLeft,
      BitVec.getLsbD_setWidth, BitVec.getLsbD_setWidth, hall i hi, decide_eq_true hi,
      decide_eq_true (show i < 64 by omega)]
    simp

theorem asEnumPair_ofPair (e : BitVec 8) :
    asEnumPair (ofPair k (e.setWidth 16) u32) = (e, u32) := by
  rw [asEnumPair, asUInt16UInt32Pair_ofPair]
  dsimp only
  rw [setWidth_setWidth_of_le (by decide)]

/-- A number whose kind is in its low byte. -/
theorem Faithful.of_byte {src : Source} (k : ValueKind) (hk : isByteKind k = true)
    (hbuild : ∀ h, src.build A raw h = .ok ((x &&& ~~~0xFF) ||| k.toUnderlying.setWidth 64, h))
    (hkind : src.kind = k) (hint : src.isInt = (k == .smallInt)) (hfloat : src.isFloat = false)
    (hstr : src.isStr = false)
    (hdecoded : ∀ h, src.Decoded h ((x &&& ~~~0xFF) ||| k.toUnderlying.setWidth 64)) :
    Faithful A raw src := by
  intro h
  obtain ⟨hkind', hint', hfloat', hstr'⟩ := @classify_byte x h _ k hk rfl
  exact .inr ⟨_, h, hbuild h, hkind ▸ hkind', hint ▸ hint', hfloat ▸ hfloat', hstr ▸ hstr',
    hdecoded h, fun _ _ => id⟩

theorem setWidth_signExtend : (n.signExtend 64).setWidth 32 = n := by
  apply BitVec.eq_of_getLsbD_eq
  intro i hi
  rw [BitVec.getLsbD_setWidth, BitVec.getLsbD_signExtend, decide_eq_true hi, if_pos hi,
    decide_eq_true (show i < 64 by omega), Bool.true_and, Bool.true_and]

theorem withinInt56_signExtend : withinInt56 (n.signExtend 64) = true := by
  have hle := @BitVec.le_toInt 32 n
  have hlt := @BitVec.toInt_lt 32 n
  rw [withinInt56, BitVec.toInt_signExtend_of_le (by decide), int56Min, int56Max,
    Bool.and_eq_true]
  exact ⟨decide_eq_true (by omega), decide_eq_true (by omega)⟩

/-! ## Objects -/

theorem create_spec (A : Allocator) (o : Object) (h : Heap) :
    create A o h = .error .badAlloc ∧ A.address h = none ∨
    ∃ a, create A o h = .ok (a, Function.update h a (some ⟨1, o⟩)) ∧ h a = none ∧
      hasTag a .object = true := by
  rw [create]
  cases haddr : A.address h with
  | none => exact .inl ⟨rfl, rfl⟩
  | some a => exact .inr ⟨a, rfl, A.fresh haddr, A.aligned haddr⟩

theorem update_frame {a b : BitVec 64} {c c' : Cell} (hfresh : h a = none) (hb : h b = some c) :
    Function.update h a (some c') b = some c := by
  have hne : b ≠ a := by
    rintro rfl
    rw [hfresh] at hb
    cases hb
  rw [Function.update_of_ne hne, hb]

theorem Represents.of_object {src : Source} {a : BitVec 64} (hfresh : h a = none)
    (htag : hasTag a .object = true) (hkind : src.kind = .object)
    (hint : src.isInt = (o.getKind == .int)) (hfloat : src.isFloat = (o.getKind == .float))
    (hstr : src.isStr = (o.getKind == .string))
    (hdecoded : src.Decoded (Function.update h a (some ⟨1, o⟩)) a) :
    Represents h (Function.update h a (some ⟨1, o⟩)) a src := by
  obtain ⟨hkind', hint', hfloat', hstr'⟩ :=
    classify_object htag (Function.update_self a (some ⟨1, o⟩) h)
  exact ⟨hkind ▸ hkind', hint ▸ hint', hfloat ▸ hfloat', hstr ▸ hstr', hdecoded,
    fun _ _ hb => update_frame hfresh hb⟩

/-! ## Every source -/

theorem createInt_faithful (A : Allocator) (raw : TValue) (n : BitVec 64) :
    Faithful A raw (.int n) := by
  by_cases hsmall : withinInt56 n = true
  · refine .of_byte .smallInt rfl (fun _ => if_pos hsmall) (if_pos hsmall) rfl rfl rfl fun h => ?_
    have hint : hasTag (encodeTaggedInt ValueKind.smallInt.toUnderlying n) .int = true := hasTag_low
    rw [Source.Decoded, asInt, ← encodeTaggedInt, hint, if_pos rfl,
      decodeTaggedInt_encodeTaggedInt hsmall]
  · intro h
    have hkind : (Source.int n).kind = .object := if_neg hsmall
    have hbuild : (Source.int n).build A raw h = create A (.int n) h := if_neg hsmall
    rw [hbuild]
    obtain hfail | ⟨a, hcreate, hfresh, htag⟩ := create_spec A (.int n) h
    · exact .inl hfail
    · refine .inr ⟨a, _, hcreate, .of_object hfresh htag hkind rfl rfl rfl ?_⟩
      rw [Source.Decoded, asInt, hasTag_ne htag (show _ ≠ .int by decide),
        if_neg Bool.false_ne_true, Function.update_self]

theorem createStr_faithful (A : Allocator) (raw : TValue) (s : Str) : Faithful A raw (.str s) := by
  intro h
  by_cases hsmall : s.1.length ≤ maxStrSize
  · have hkind : (Source.str s).kind = .smallStr := if_pos hsmall
    obtain ⟨v, hset, hv⟩ := set_spec raw hsmall
    have hbuild : (Source.str s).build A raw h = .ok (v, h) := by
      rw [Source.build, createStr, if_pos hsmall, hset]
    obtain ⟨hkind', hint, hfloat, hstr⟩ := @classify_string h v hv.hasTag
    refine .inr ⟨v, h, hbuild, hkind ▸ hkind', hint, hfloat, hstr, ?_, fun _ _ => id⟩
    rw [Source.Decoded, asStrRef, isSmallStr, hv.hasTag, if_pos rfl, hv.strData]
  · have hkind : (Source.str s).kind = .object := if_neg hsmall
    have hbuild : (Source.str s).build A raw h = create A (.string s.1) h := if_neg hsmall
    rw [hbuild]
    obtain hfail | ⟨a, hcreate, hfresh, htag⟩ := create_spec A (.string s.1) h
    · exact .inl hfail
    · refine .inr ⟨a, _, hcreate, .of_object hfresh htag hkind rfl rfl rfl ?_⟩
      have hlen : objectSize s.1 = s.1.length := Nat.mod_eq_of_lt
        (Nat.lt_of_le_of_lt s.2 (by decide))
      rw [Source.Decoded, asStrRef, isSmallStr, hasTag_ne htag (show _ ≠ .string by decide),
        if_neg Bool.false_ne_true, Function.update_self]
      dsimp only
      rw [hlen, List.take_length]

/-- A double with other tags than that of an object. -/
theorem createFloat_faithful (A : Allocator) (raw : TValue)
    (h : (Source.float u64).dangling = false) : Faithful A raw (.float u64) := by
  intro heap
  rw [Source.dangling] at h
  cases htag : hasTag (encodeTaggedFloat .float u64) .float with
  | true =>
    have hkind : (Source.float u64).kind = .commonFloat := if_pos htag
    have hbuild : (Source.float u64).build A raw heap =
        .ok (encodeTaggedFloat .float u64, heap) := if_pos htag
    obtain ⟨hkind', hint, hfloat, hstr⟩ := @classify_float heap _ htag
    refine .inr ⟨_, heap, hbuild, hkind ▸ hkind', hint, hfloat, hstr, ?_, fun _ _ => id⟩
    rw [Source.Decoded, asFloat, htag, if_pos rfl, decodeTaggedFloat_encodeTaggedFloat]
  | false =>
    have hnot : ¬hasTag (encodeTaggedFloat .float u64) .float = true := by
      rw [htag]
      exact Bool.false_ne_true
    have hkind : (Source.float u64).kind = .object := if_neg hnot
    have hbuild : (Source.float u64).build A raw heap = create A (.float u64) heap := by
      rw [Source.build, createFloat]
      rw [if_neg hnot, release, h, if_neg Bool.false_ne_true]
    rw [hbuild]
    obtain hfail | ⟨a, hcreate, hfresh, hobject⟩ := create_spec A (.float u64) heap
    · exact .inl hfail
    · refine .inr ⟨a, _, hcreate, .of_object hfresh hobject hkind rfl rfl rfl ?_⟩
      rw [Source.Decoded, asFloat, hasTag_ne hobject (show _ ≠ .float by decide),
        if_neg Bool.false_ne_true, Function.update_self]

/-- Where no object is, the temporary value is released through a wild pointer. -/
theorem createFloat_dangling (A : Allocator) (h : (Source.float u64).dangling = true)
    (hfree : heap (encodeTaggedFloat .float u64) = none) :
    createFloat A u64 heap = .error .wildPointer := by
  have hobject : hasTag (encodeTaggedFloat .float u64) .object = true := h
  have hfloat := hasTag_ne hobject (show _ ≠ .float by decide)
  rw [createFloat, hfloat, if_neg Bool.false_ne_true, release, isObject, hobject, if_pos rfl, hfree]

theorem faithful_of_not_dangling (A : Allocator) (raw : TValue) (src : Source)
    (h : src.dangling = false) : Faithful A raw src := by
  cases src with
  | num n =>
    have hlt : (n.setWidth 64 : BitVec 64).toNat < 2 ^ 56 := by
      rw [BitVec.toNat_setWidth]
      have := n.isLt
      omega
    have hdecoded : asNum (createNum n) = n := by
      rw [asNum, createNum, decodeTaggedUInt_encodeTaggedUInt hlt,
        setWidth_setWidth_of_le (by decide)]
    exact .of_byte .number rfl (fun _ => rfl) rfl rfl rfl rfl fun _ => hdecoded
  | braceRangeAttr k digits =>
    exact .of_byte .braceRangeAttr rfl (fun _ => rfl) rfl rfl rfl rfl fun _ => asEnumPair_ofPair k
  | stackGuard t level =>
    exact .of_byte .stackGuard rfl (fun _ => rfl) rfl rfl rfl rfl fun _ => asEnumPair_ofPair t
  | dummy typeId v1 =>
    have hdecoded : asUInt16UInt32Pair (createDummy typeId (v1.setWidth 32)) = (v1, typeId) := by
      rw [createDummy, asUInt16UInt32Pair_ofPair, setWidth_setWidth_of_le (by decide)]
    refine .of_byte .dummy rfl (fun _ => rfl) rfl rfl rfl rfl fun _ => ⟨hdecoded, ?_, ?_⟩
    · exact congrArg Prod.snd hdecoded
    · exact congrArg (fun p => p.1.setWidth 32) hdecoded
  | expandMeta e n =>
    exact .of_byte .expandMeta rfl (fun _ => rfl) rfl rfl rfl rfl fun _ => asEnumPair_ofPair e
  | bool b =>
    have hdecoded : asBool (createBool b) = b := by
      rw [asBool, createBool, decodeTaggedInt_encodeTaggedInt (by cases b <;> decide)]
      cases b <;> rfl
    exact .of_byte .bool rfl (fun _ => rfl) rfl rfl rfl rfl fun _ => hdecoded
  | sig n =>
    have hdecoded : asSig (createSig n) = n := by
      rw [asSig, createSig, decodeTaggedInt_encodeTaggedInt withinInt56_signExtend,
        setWidth_signExtend]
    exact .of_byte .sig rfl (fun _ => rfl) rfl rfl rfl rfl fun _ => hdecoded
  | int n => exact createInt_faithful A raw n
  | float u => exact createFloat_faithful A raw h
  | str s => exact createStr_faithful A raw s

theorem not_faithful_of_dangling (A : Allocator) (raw : TValue) (src : Source)
    (h : src.dangling = true) : ¬Faithful A raw src := by
  cases src with
  | float u =>
    intro hfaithful
    have hwild := @createFloat_dangling (fun _ => none) u A h rfl
    rcases hfaithful fun _ => none with ⟨hbad, -⟩ | ⟨v, h', hok, -⟩
    · cases hwild.symm.trans hbad
    · cases hwild.symm.trans hok
  | num | braceRangeAttr | stackGuard | dummy | expandMeta | bool | sig | int | str => cases h

end

end Arsh.Tagged
