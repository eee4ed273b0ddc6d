import Arsh.Json.Correct

/-!
# Serializing JSON

`Serializer` of `json.cpp`. Arrays and objects leave out what is invalid in them. A value without
floating-point numbers is parsed back from its text, whatever the width of a tab, if its strings are
UTF-8 without the one control character that `quote` forgets (`parse_serialize`).

What `Decimal` makes of a floating-point number is a parameter.
-/

namespace Arsh.Json

open Regex.Parser (byte isDigit isHex hexToNum hexValue isHighSurrogate isLowSurrogate)
open UnicodeUtil NumUtil

/-! ## Texts -/

/-- `std::to_string`. -/
def toDecimal (n : Nat) : Bytes := (formatLoop 10 64 n).reverse

def toString (v : Int) : Bytes :=
  if v < 0 then byte '-' :: toDecimal v.natAbs else toDecimal v.natAbs

def quoteByte (ch : Nat) : Bytes :=
  if ch < 0x1F then bytes "\\u00" ++ [digitChar (ch / 16), digitChar (ch % 16)]
  else if ch = byte '\\' ∨ ch = byte '"' then [byte '\\', ch]
  else [ch]

def quote (s : Bytes) : Bytes := byte '"' :: (s.flatMap quoteByte ++ [byte '"'])

def JSON.isInvalid : JSON → Bool
  | .invalid => true
  | _ => false

section
variable (fromDouble : Double → Bytes) (tab : Nat)

def newline : Bytes := if 0 < tab then [byte '\n'] else []

def indent (level : Nat) : Bytes := List.replicate (level * tab) (byte ' ')

def separator (count : Nat) : Bytes := if 0 < count then byte ',' :: newline tab else []

mutual

/-- `Serializer::serialize`, on a level. -/
def serializeValue : JSON → Nat → Bytes
  | .invalid, _ => []
  | .null, _ => bytes "null"
  | .bool b, _ => if b then bytes "true" else bytes "false"
  | .long v, _ => toString v
  | .double d, _ => fromDouble d
  | .string s, _ => quote s
  | .array values, level =>
    if values.all JSON.isInvalid then bytes "[]"
    else bytes "[" ++ newline tab ++ serializeElements values (level + 1) 0 ++ newline tab ++
      indent tab level ++ bytes "]"
  | .object members, level =>
    if members.all (·.2.isInvalid) then bytes "\x7b\x7d"
    else bytes "\x7b" ++ newline tab ++ serializeMembers members (level + 1) 0 ++ newline tab ++
      indent tab level ++ bytes "\x7d"

/-- The loop over an array, after `count` elements. -/
def serializeElements : List JSON → Nat → Nat → Bytes
  | [], _, _ => []
  | e :: es, level, count =>
    if e.isInvalid then serializeElements es level count
    else separator tab count ++ indent tab level ++ serializeValue e level ++
      serializeElements es level (count + 1)

/-- The loop over an object. -/
def serializeMembers : List (Bytes × JSON) → Nat → Nat → Bytes
  | [], _, _ => []
  | m :: ms, level, count =>
    if m.2.isInvalid then serializeMembers ms level count
    else separator tab count ++ indent tab level ++ serializeMember m level ++
      serializeMembers ms level (count + 1)

def serializeMember : Bytes × JSON → Nat → Bytes
  | (key, value), level =>
    quote key ++ bytes ":" ++ (if 0 < tab then [byte ' '] else []) ++ serializeValue value level

end

-- The equations are made here, once, and not inside the proofs that unfold a definition.
attribute [local grind =] serializeValue serializeElements serializeMembers serializeMember

def JSON.serialize (v : JSON) : Bytes :=
  if v.isInvalid then [] else serializeValue fromDouble tab v 0 ++ newline tab

end

/-! ## Values -/

mutual

/-- The value without what is invalid in it. -/
def JSON.strip : JSON → JSON
  | .array values => .array (stripElements values)
  | .object members => .object (stripMembers members)
  | v => v

def stripElements : List JSON → List JSON
  | [] => []
  | e :: es => if e.isInvalid then stripElements es else e.strip :: stripElements es

def stripMembers : List (Bytes × JSON) → List (Bytes × JSON)
  | [] => []
  | m :: ms => if m.2.isInvalid then stripMembers ms else stripMember m :: stripMembers ms

def stripMember : Bytes × JSON → Bytes × JSON
  | (key, value) => (key, value.strip)

end

attribute [local grind =] JSON.strip stripElements stripMembers stripMember

/-- UTF-8 without the control character that is not escaped. -/
def Textual (s : Bytes) : Prop := ∃ cs, CodePoints cs ∧ s = encode cs ∧ 0x1F ∉ cs

/-- A value of at most `n` levels without floating-point numbers; its integers are of 64 bits, and
the keys of its objects in order. -/
def Plain : Nat → JSON → Prop
  | 0, _ => False
  | _ + 1, .null => True
  | _ + 1, .bool _ => True
  | _ + 1, .long v => Fits Width.w64.size v
  | _ + 1, .string s => Textual s
  | n + 1, .array values => ∀ v ∈ values, v = .invalid ∨ Plain n v
  | n + 1, .object members =>
    members.Pairwise (fun m m' => m.1 < m'.1) ∧
      ∀ m ∈ members, m.2 = .invalid ∨ (Textual m.1 ∧ Plain n m.2)
  | _ + 1, .invalid => False
  | _ + 1, .double _ => False

section
variable {s v w : Bytes} {n : Nat} {toDouble : Bytes → Option Double}

/-! ## Integers -/

theorem isDigit_of_isDigit10 {ch : Nat} (h : IsDigit 10 ch) : isDigit ch := by
  obtain ⟨v, hv, hlt⟩ := h
  unfold digitValue at hv
  split at hv
  · next hd =>
    show (decide (48 ≤ ch) && decide (ch ≤ 57)) = true
    rw [Bool.and_eq_true, decide_eq_true_eq, decide_eq_true_eq]
    exact hd
  · split at hv
    · cases hv
      omega
    · split at hv
      · cases hv
        omega
      · cases hv

/-- The first digit of a number is no zero, unless the number is. -/
theorem formatLoop_getLast (fuel tmp : Nat) (h : tmp < 2 ^ (fuel + 1)) (hpos : tmp ≠ 0) :
    ∃ ds d, formatLoop 10 (fuel + 1) tmp = ds ++ [d] ∧ d ≠ byte '0' := by
  have hdigit : ∀ d < 10, d ≠ 0 → digitChar d ≠ byte '0' := by decide
  induction fuel generalizing tmp with
  | zero =>
    have hz : tmp / 10 = 0 := Nat.div_eq_of_lt (by omega)
    rw [formatLoop, if_pos hz]
    exact ⟨[], _, rfl, hdigit _ (Nat.mod_lt _ (by decide)) (by omega)⟩
  | succ fuel ih =>
    rw [formatLoop]
    split
    · next hz => exact ⟨[], _, rfl, hdigit _ (Nat.mod_lt _ (by decide)) (by omega)⟩
    · next hz =>
      obtain ⟨ds, d, heq, hd⟩ := ih (tmp / 10) (by omega) hz
      rw [heq]
      exact ⟨_ :: ds, d, rfl, hd⟩

theorem toDecimal_spec (h : n < 2 ^ 64) :
    IntText (toDecimal n) ∧ (∀ ch ∈ toDecimal n, isDigit ch) ∧ Numeral 10 (toDecimal n) n := by
  obtain ⟨hdigits, hvalue⟩ := @formatLoop_spec 10 63 n (by decide) h
  have hall : ∀ ch ∈ toDecimal n, isDigit ch :=
    fun ch hch => isDigit_of_isDigit10 (hdigits.all ch hch)
  refine ⟨?_, hall, ?_⟩
  · by_cases hzero : n = 0
    · rw [hzero]
      exact .inl rfl
    · obtain ⟨ds, d, heq, hd⟩ := formatLoop_getLast 63 n h hzero
      have heq' : toDecimal n = d :: ds.reverse := by
        unfold toDecimal
        rw [heq, List.reverse_append]
        rfl
      rw [heq', List.forall_mem_cons] at hall
      exact .inr ⟨d, _, heq', hall.1, hd, hall.2⟩
  · exact formatLoop_numeral (by decide) h

theorem toString_spec {z : Int} (hz : Fits Width.w64.size z) :
    NumberText (toString z) ∧ NumberOf toDouble (toString z) (.long z) := by
  have hlt : z.natAbs < 2 ^ 64 := by
    change -((0x10000000000000000 / 2 : Nat) : Int) ≤ z ∧ z < (0x10000000000000000 / 2 : Nat) at hz
    omega
  obtain ⟨hint, hall, hnumeral⟩ := toDecimal_spec hlt
  have hfloat {ds : Bytes} (h : ∀ ch ∈ ds, isDigit ch ∨ ch = byte '-') : ¬isFloat ds := by
    have hnot {b : Nat} (hb : ¬(isDigit b ∨ b = byte '-')) : b ∉ ds := fun hmem => hb (h b hmem)
    unfold isFloat
    simp only [Bool.or_eq_true, decide_eq_true_eq, not_or]
    exact ⟨⟨hnot (by decide), hnot (by decide)⟩, hnot (by decide)⟩
  unfold toString
  split
  · next hneg =>
    refine ⟨⟨[byte '-'], _, [], [], by simp, .inr rfl, hint, .inl rfl, .inl rfl⟩,
      .inr ⟨hfloat ?_, z, .inr ⟨z.natAbs, _, by omega, rfl, hnumeral⟩, hz, rfl⟩⟩
    exact List.forall_mem_cons.2 ⟨.inr rfl, fun ch hch => .inl (hall ch hch)⟩
  · next hneg =>
    exact ⟨⟨[], _, [], [], by simp, .inl rfl, hint, .inl rfl, .inl rfl⟩,
      .inr ⟨hfloat fun ch hch => .inl (hall ch hch), z,
        .inl ⟨z.natAbs, by omega, .inl hnumeral⟩, hz, rfl⟩⟩

/-! ## Strings -/

theorem quoteByte_plain {ch : Nat} (h : 0x20 ≤ ch) (hne : ch ≠ byte '\\' ∧ ch ≠ byte '"') :
    quoteByte ch = [ch] := by
  unfold quoteByte
  rw [if_neg (by omega), if_neg (not_or.2 hne)]

/-- A code point is quoted as a character that stands for it. -/
theorem quote_codePoint {c : Nat} (hc : c ≤ codePointMax) (hne : c ≠ 0x1F) (hs : CharsText s)
    (hv : Unescapes s v) :
    CharsText ((codePointToUtf8 c).flatMap quoteByte ++ s) ∧
      Unescapes ((codePointToUtf8 c).flatMap quoteByte ++ s) (codePointToUtf8 c ++ v) := by
  by_cases hcontrol : c < 0x1F
  · have hall : ∀ c < 0x1F, codePointToUtf8 c = [c] ∧
        quoteByte c = bytes "\\u00" ++ [digitChar (c / 16), digitChar (c % 16)] ∧
        (∀ ch ∈ [byte '0', byte '0', digitChar (c / 16), digitChar (c % 16)], isHex ch) ∧
        hexValue [byte '0', byte '0', digitChar (c / 16), digitChar (c % 16)] = c ∧
        ¬isHighSurrogate c ∧ ¬isLowSurrogate c := by
      decide
    obtain ⟨hutf8, hquote, hhex, hvalue, hsur⟩ := hall c hcontrol
    rw [hutf8, List.flatMap_singleton, hquote]
    have hunicode := @Unescapes.unicode [byte '0', byte '0', _, _] s v rfl hhex
      (by rw [hvalue]; exact hsur) hv
    rw [hvalue, hutf8] at hunicode
    exact ⟨.cons (.unicode hhex) hs, hunicode⟩
  · by_cases hescape : c = byte '\\' ∨ c = byte '"'
    · have hall : ∀ c ∈ [byte '\\', byte '"'], codePointToUtf8 c = [c] ∧
          quoteByte c = [byte '\\', c] ∧ c ∈ simpleEscapes ∧ escapeCode c = some c := by
        decide
      obtain ⟨hutf8, hquote, hmem, hcode⟩ := hall c (by simpa using hescape)
      have hesc := Unescapes.escape hcode hv
      rw [hutf8, List.flatMap_singleton, hquote]
      rw [hutf8] at hesc
      exact ⟨.cons (.escape hmem) hs, hesc⟩
    · rw [not_or] at hescape
      have hplain : (codePointToUtf8 c).flatMap quoteByte = codePointToUtf8 c := by
        obtain ⟨b, bs, heq, hb, hbs⟩ := codePointToUtf8_first hc
        have hquote := codePointToUtf8_ne hc (b := byte '"') (by decide) hescape.2
        have hback := codePointToUtf8_ne hc (b := byte '\\') (by decide) hescape.1
        rw [heq] at hquote hback ⊢
        have hall : ∀ ch ∈ b :: bs, quoteByte ch = [ch] := by
          intro ch hch
          refine quoteByte_plain ?_ ⟨hback ch hch, hquote ch hch⟩
          rcases List.mem_cons.1 hch with rfl | hch
          · omega
          · have := hbs ch hch
            omega
        rw [List.flatMap_congr hall]
        exact List.flatMap_singleton' _
      rw [hplain]
      have hspace : 0x20 ≤ c := by omega
      exact ⟨.cons (.unescaped hc hspace hescape.symm) hs,
        .unescaped hc hspace hescape.symm hv⟩

theorem quote_spec (h : Textual s) : StringText (quote s) ∧ StringOf (quote s) s := by
  obtain ⟨cs, hcs, rfl, hmem⟩ := h
  suffices h : CharsText ((encode cs).flatMap quoteByte) ∧
      Unescapes ((encode cs).flatMap quoteByte) (encode cs) from
    ⟨⟨_, rfl, h.1⟩, ⟨_, rfl, h.2⟩⟩
  induction cs with
  | nil => exact ⟨.nil, .nil⟩
  | cons c cs ih =>
    obtain ⟨hc, hcs⟩ := hcs.cons
    rw [List.mem_cons, not_or] at hmem
    obtain ⟨hchars, hvalue⟩ := ih hcs hmem.2
    rw [encode_cons, List.flatMap_append]
    exact quote_codePoint hc (Ne.symm hmem.1) hchars hvalue

/-! ## Tokens -/

theorem Spells.spaces_append {ts : List Token} (hw : Spaces w) (h : Spells ts s) :
    Spells ts (w ++ s) := by
  cases h with
  | nil hw' => exact .nil (List.forall_mem_append.2 ⟨hw, hw'⟩)
  | cons hw' ht hs =>
    rw [← List.append_assoc]
    exact .cons (List.forall_mem_append.2 ⟨hw, hw'⟩) ht hs

theorem Spells.append {ts ts' : List Token} {s' : Bytes} (h : Spells ts s) (h' : Spells ts' s') :
    Spells (ts ++ ts') (s ++ s') := by
  induction h with
  | nil hw => exact h'.spaces_append hw
  | cons hw ht _ ih =>
    rw [List.append_assoc, List.append_assoc]
    exact .cons hw ht ih

theorem Spells.token (tok : Token) (ht : Lexeme tok) : Spells [tok] tok.text := by
  have h := Spells.cons (w := []) (List.forall_mem_nil _) ht (.nil (List.forall_mem_nil _))
  rw [List.nil_append, List.append_nil] at h
  exact h

theorem Spells.fixed (kind : JSONTokenKind) (hkind : kind ∈ JSONTokenKind.fixed) :
    Spells [fixedToken kind] kind.toString :=
  Spells.token (fixedToken kind) (.inl ⟨hkind, rfl⟩)

theorem spaces_newline (tab : Nat) : Spaces (newline tab) := by
  unfold newline Spaces
  split <;> decide

theorem spaces_indent (tab level : Nat) : Spaces (indent tab level) := by
  intro ch hch
  rw [List.eq_of_mem_replicate hch]
  decide

/-- The separator before a part, but not before the first one. -/
theorem spells_separator (tab count : Nat) :
    Spells (if count = 0 then [] else [fixedToken .comma]) (separator tab count) := by
  unfold separator
  by_cases hzero : count = 0
  · rw [if_pos hzero, if_neg (by omega)]
    exact .nil (List.forall_mem_nil _)
  · rw [if_neg hzero, if_pos (by omega)]
    exact (Spells.fixed .comma (by decide)).append_spaces (spaces_newline tab)

/-- The parts of a list after `count` parts, with the commas between them. -/
def listParts (count : Nat) (parts : List (List Token)) : List Token :=
  if count = 0 then commaSeparated parts else parts.flatMap (fixedToken .comma :: ·)

theorem listParts_cons (count : Nat) (part : List Token) (parts : List (List Token)) :
    listParts count (part :: parts) =
      (if count = 0 then [] else [fixedToken .comma]) ++ part ++ listParts (count + 1) parts := by
  unfold listParts
  rw [if_neg (Nat.succ_ne_zero count)]
  split
  · rfl
  · rw [List.flatMap_cons]
    rfl

theorem listParts_nil (count : Nat) : listParts count [] = [] := by
  unfold listParts
  split <;> rfl

/-- The text of a list in two tokens. -/
theorem spells_enclosed {kind close : JSONTokenKind} {parts : List (List Token)} {tab level : Nat}
    (hkind : kind ∈ JSONTokenKind.fixed) (hclose : close ∈ JSONTokenKind.fixed)
    (h : Spells (listParts 0 parts) s) :
    Spells (enclosed kind close parts) (kind.toString ++ newline tab ++ s ++ newline tab ++
      indent tab level ++ close.toString) := by
  have hopen := (Spells.fixed kind hkind).append_spaces (spaces_newline tab)
  have hparts := ((hopen.append h).append_spaces (spaces_newline tab)).append_spaces
    (spaces_indent tab level)
  exact hparts.append (.fixed close hclose)

/-! ## Round trips -/

section
variable {fromDouble : Double → Bytes} {tab : Nat}

/-- The text of a value on any level, and the tokens that spell it. -/
def Derives (toDouble : Bytes → Option Double) (fromDouble : Double → Bytes) (tab n : Nat)
    (v : JSON) : Prop :=
  ∀ level, ∃ ts, Spells ts (serializeValue fromDouble tab v level) ∧ Value toDouble n ts v.strip

theorem isInvalid_iff {v : JSON} : v.isInvalid ↔ v = .invalid := by
  cases v <;> simp [JSON.isInvalid]

theorem spells_elements {values : List JSON}
    (h : ∀ v ∈ values, v = .invalid ∨ Derives toDouble fromDouble tab n v) (level count : Nat) :
    ∃ parts, Spells (listParts count parts) (serializeElements fromDouble tab values level count) ∧
      List.Forall₂ (Value toDouble n) parts (stripElements values) := by
  induction values generalizing count with
  | nil =>
    refine ⟨[], ?_, .nil⟩
    rw [listParts_nil]
    exact .nil (List.forall_mem_nil _)
  | cons v values ih =>
    rw [List.forall_mem_cons] at h
    rw [serializeElements, stripElements]
    by_cases hinvalid : v.isInvalid
    · rw [if_pos hinvalid, if_pos hinvalid]
      exact ih h.2 count
    · rw [if_neg hinvalid, if_neg hinvalid]
      obtain ⟨ts, hts, hvalue⟩ := h.1.resolve_left (hinvalid ∘ isInvalid_iff.2) level
      obtain ⟨parts, hparts, hvalues⟩ := ih h.2 (count + 1)
      refine ⟨ts :: parts, ?_, .cons hvalue hvalues⟩
      rw [listParts_cons]
      have hitem :=
        (spells_separator tab count).append (hts.spaces_append (spaces_indent tab level))
      rw [← List.append_assoc] at hitem
      exact hitem.append hparts

theorem spells_member {m : Bytes × JSON} (hkey : Textual m.1)
    (h : Derives toDouble fromDouble tab n m.2) (level : Nat) :
    ∃ ts, Spells ts (serializeMember fromDouble tab m level) ∧
      Member (Value toDouble n) ts (stripMember m) := by
  obtain ⟨key, value⟩ := m
  obtain ⟨ts, hts, hvalue⟩ := h level
  obtain ⟨htext, hstring⟩ := quote_spec hkey
  rw [serializeMember, stripMember]
  have hquote := Spells.token ⟨.string, quote key⟩ (.inr (.inr ⟨rfl, htext⟩))
  have hspace : Spaces (if 0 < tab then [byte ' '] else []) := by
    unfold Spaces
    split <;> decide
  have hcolon := (Spells.fixed .colon (by decide)).append_spaces hspace
  have hall := (hquote.append hcolon).append hts
  rw [← List.append_assoc] at hall
  exact ⟨_, hall, _, ts, rfl, rfl, hstring, hvalue⟩

theorem spells_members {members : List (Bytes × JSON)}
    (h : ∀ m ∈ members, m.2 = .invalid ∨
      (Textual m.1 ∧ Derives toDouble fromDouble tab n m.2)) (level count : Nat) :
    ∃ parts, Spells (listParts count parts) (serializeMembers fromDouble tab members level count) ∧
      List.Forall₂ (Member (Value toDouble n)) parts (stripMembers members) := by
  induction members generalizing count with
  | nil =>
    refine ⟨[], ?_, .nil⟩
    rw [listParts_nil]
    exact .nil (List.forall_mem_nil _)
  | cons m members ih =>
    rw [List.forall_mem_cons] at h
    rw [serializeMembers, stripMembers]
    by_cases hinvalid : m.2.isInvalid
    · rw [if_pos hinvalid, if_pos hinvalid]
      exact ih h.2 count
    · rw [if_neg hinvalid, if_neg hinvalid]
      obtain ⟨hkey, hderives⟩ := h.1.resolve_left (hinvalid ∘ isInvalid_iff.2)
      obtain ⟨ts, hts, hmember⟩ := spells_member hkey hderives level
      obtain ⟨parts, hparts, hmembers⟩ := ih h.2 (count + 1)
      refine ⟨ts :: parts, ?_, .cons hmember hmembers⟩
      rw [listParts_cons]
      have hitem :=
        (spells_separator tab count).append (hts.spaces_append (spaces_indent tab level))
      rw [← List.append_assoc] at hitem
      exact hitem.append hparts

/-! ## Objects -/

theorem insertMember_last {ms : List (Bytes × JSON)} {key : Bytes} {value : JSON}
    (h : ∀ m ∈ ms, m.1 < key) : insertMember key value ms = ms ++ [(key, value)] := by
  induction ms with
  | nil => rfl
  | cons m ms ih =>
    rw [List.forall_mem_cons] at h
    have hne : key ≠ m.1 := by
      rintro rfl
      exact List.lt_irrefl _ h.1
    rw [insertMember, if_neg (List.lt_asymm h.1), if_neg hne, ih h.2]
    rfl

theorem foldl_insertMember {ms ms' : List (Bytes × JSON)}
    (h : (ms ++ ms').Pairwise (fun m m' => m.1 < m'.1)) :
    ms'.foldl (fun ms m => insertMember m.1 m.2 ms) ms = ms ++ ms' := by
  induction ms' generalizing ms with
  | nil => exact (List.append_nil ms).symm
  | cons m ms' ih =>
    obtain ⟨-, -, hlt⟩ := List.pairwise_append.1 h
    rw [List.foldl_cons, insertMember_last fun m' hm' => hlt m' hm' m List.mem_cons_self,
      ih (by rw [List.append_assoc]; exact h), List.append_assoc]
    rfl

/-- Members in order are a map. -/
theorem toObject_of_pairwise {ms : List (Bytes × JSON)}
    (h : ms.Pairwise (fun m m' => m.1 < m'.1)) : toObject ms = ms :=
  @foldl_insertMember [] ms h

theorem stripElements_eq_nil {values : List JSON} (h : ∀ v ∈ values, v.isInvalid) :
    stripElements values = [] := by
  induction values with
  | nil => rfl
  | cons v values ih =>
    rw [List.forall_mem_cons] at h
    rw [stripElements, if_pos h.1, ih h.2]

theorem stripMembers_eq_nil {members : List (Bytes × JSON)} (h : ∀ m ∈ members, m.2.isInvalid) :
    stripMembers members = [] := by
  induction members with
  | nil => rfl
  | cons m members ih =>
    rw [List.forall_mem_cons] at h
    rw [stripMembers, if_pos h.1, ih h.2]

theorem stripMembers_keys (ms : List (Bytes × JSON)) :
    ((stripMembers ms).map Prod.fst).Sublist (ms.map Prod.fst) := by
  induction ms with
  | nil => exact .slnil
  | cons m ms ih =>
    obtain ⟨key, value⟩ := m
    rw [stripMembers]
    split
    · exact .cons _ ih
    · exact .cons_cons key ih

theorem toObject_stripMembers {ms : List (Bytes × JSON)}
    (h : ms.Pairwise (fun m m' => m.1 < m'.1)) : toObject (stripMembers ms) = stripMembers ms := by
  have hkeys := (List.pairwise_map.2 h).sublist (stripMembers_keys ms)
  exact toObject_of_pairwise (List.pairwise_map.1 hkeys)

/-! ## Values -/

theorem Plain.derives (toDouble : Bytes → Option Double) (fromDouble : Double → Bytes) (tab n : Nat)
    (v : JSON) (h : Plain n v) : Derives toDouble fromDouble tab n v := by
  induction n generalizing v with
  | zero => exact h.elim
  | succ n ih =>
    intro level
    cases v with
    | invalid => exact h.elim
    | double d => exact h.elim
    | null => exact ⟨_, .fixed .nil (by decide), .inl ⟨_, rfl, .inl ⟨rfl, rfl⟩⟩⟩
    | bool b =>
      cases b with
      | false =>
        exact ⟨_, .fixed .false (by decide), .inl ⟨_, rfl, .inr (.inr (.inl ⟨rfl, rfl⟩))⟩⟩
      | true =>
        exact ⟨_, .fixed .true (by decide), .inl ⟨_, rfl, .inr (.inl ⟨rfl, rfl⟩)⟩⟩
    | long z =>
      obtain ⟨htext, hnumber⟩ := @toString_spec toDouble _ h
      exact ⟨_, .token ⟨.number, toString z⟩ (.inr (.inl ⟨rfl, htext⟩)),
        .inl ⟨_, rfl, .inr (.inr (.inr (.inl ⟨rfl, hnumber⟩)))⟩⟩
    | string s =>
      obtain ⟨htext, hstring⟩ := quote_spec h
      exact ⟨_, .token ⟨.string, quote s⟩ (.inr (.inr ⟨rfl, htext⟩)),
        .inl ⟨_, rfl, .inr (.inr (.inr (.inr ⟨rfl, s, hstring, rfl⟩)))⟩⟩
    | array values =>
      obtain ⟨parts, hparts, hvalues⟩ := spells_elements
        (fun v hv => (h v hv).imp_right (ih v)) (level + 1) 0
      refine ⟨enclosed .arrayOpen .arrayClose parts, ?_, .inr (.inl ⟨parts, _, rfl, hvalues, rfl⟩)⟩
      rw [serializeValue]
      split
      · next hall =>
        rw [stripElements_eq_nil (List.all_eq_true.1 hall)] at hvalues
        cases hvalues
        exact (Spells.fixed .arrayOpen (by decide)).append
          (.fixed .arrayClose (by decide))
      · exact spells_enclosed (by decide) (by decide) hparts
    | object members =>
      obtain ⟨hsorted, hmembers⟩ := h
      obtain ⟨parts, hparts, hvalues⟩ := spells_members
        (fun m hm => (hmembers m hm).imp_right fun hm => ⟨hm.1, ih m.2 hm.2⟩) (level + 1) 0
      refine ⟨enclosed .objectOpen .objectClose parts, ?_,
        .inr (.inr ⟨parts, _, rfl, hvalues, ?_⟩)⟩
      · rw [serializeValue]
        split
        · next hall =>
          rw [stripMembers_eq_nil (List.all_eq_true.1 hall)] at hvalues
          cases hvalues
          exact (Spells.fixed .objectOpen (by decide)).append
            (.fixed .objectClose (by decide))
        · exact spells_enclosed (by decide) (by decide) hparts
      · rw [toObject_stripMembers hsorted]
        rfl

end

/-- A value is parsed back from its text, without what is invalid in it. -/
theorem parse_serialize (toDouble : Bytes → Option Double) (fromDouble : Double → Bytes)
    (tab : Nat) {v : JSON} (hv : Plain (maxNestingDepth - 1) v) :
    parse toDouble (v.serialize fromDouble tab) = .ok v.strip := by
  obtain ⟨ts, hspells, hvalue⟩ :=
    hv.derives toDouble fromDouble tab _ _ 0
  have hinvalid : ¬v.isInvalid := by
    rw [isInvalid_iff]
    rintro rfl
    exact hv.elim
  refine parse_complete ?_ hvalue
  unfold JSON.serialize
  rw [if_neg hinvalid]
  exact hspells.append_spaces (spaces_newline tab)

/-- An object with an invalid member, an escaped key and an array with a hole. -/
def sampleValue : JSON :=
  .object [(bytes "a\n", .array [.long (-12), .invalid, .bool true]), (bytes "b", .invalid)]

theorem parse_serialize_sample :
    parse (fun _ => none) (sampleValue.serialize (fun _ => []) 2) =
      .ok (.object [(bytes "a\n", .array [.long (-12), .bool true])]) := by
  refine parse_serialize (fun _ => none) (fun _ => []) 2 ?_
  refine ⟨by decide, List.forall_mem_cons.2 ⟨.inr ⟨⟨[97, 10], ?_, rfl, by decide⟩, ?_⟩,
    List.forall_mem_singleton.2 (.inl rfl)⟩⟩
  · unfold CodePoints
    decide
  · exact List.forall_mem_cons.2 ⟨.inr (by unfold Plain Fits; decide),
      List.forall_mem_cons.2 ⟨.inl rfl, List.forall_mem_singleton.2 (.inr trivial)⟩⟩

end

end Arsh.Json
