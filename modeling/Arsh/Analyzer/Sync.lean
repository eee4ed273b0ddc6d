import Arsh.Analyzer.Source
import Arsh.Lib.Splice
import Mathlib.Tactic.Common

/-!
# The document of the client

The client keeps its document as UTF-16 units and edits it by position. A text in sync is one list
of characters in both encodings. `protocolAt` is where the protocol puts a position; `serverAt`
is what the server makes of it: a newline is the last character of its line, so that a character
past the end of a line is the start of the next one, and nothing stands within a surrogate pair.
`run_synced`: under `serverAt` the two sides stay in sync.
-/

namespace Arsh.Lsp

open UnicodeUtil Splice

/-- The UTF-16 units of a code point. -/
def codeUnits (c : Nat) : List Nat :=
  if c ≤ 0xFFFF then [c]
  else [0xD800 + (c - 0x10000) / 1024, 0xDC00 + (c - 0x10000) % 1024]

def utf16 (cs : List Nat) : List Nat := cs.flatMap codeUnits

def isHigh (u : Nat) : Bool := 0xD800 ≤ u && u < 0xDC00

def isLow (u : Nat) : Bool := 0xDC00 ≤ u && u < 0xE000

/-- A text of Unicode characters whose only line terminator is the newline. -/
structure LfText (cs : List Nat) : Prop where
  codePoints : CodePoints cs
  noSurrogate : ∀ c ∈ cs, isHigh c = false ∧ isLow c = false
  noReturn : 13 ∉ cs

/-! ## Positions -/

/-- The units before the next line terminator. -/
def lineLength (units : List Nat) : Nat := (units.takeWhile fun u => u ≠ 10 && u ≠ 13).length

/-- The size of the line terminator at the head: `\n`, `\r\n` or `\r`. -/
def lineBreak (units : List Nat) : Nat :=
  if units.getD 0 0 = 13 then (if units.getD 1 0 = 10 then 2 else 1)
  else if units.getD 0 0 = 10 then 1
  else 0

/-- The start of a line, if the document has it. -/
def lineStart : List Nat → Nat → Option Nat
  | _, 0 => some 0
  | units, line + 1 =>
    let size := lineBreak (units.drop (lineLength units))
    let next := lineLength units + size
    if size = 0 then none else (lineStart (units.drop next) line).map (next + ·)

/-- The offset of a position: past the end of a line it is that end. -/
def protocolAt (doc : List Nat) (position : Position) : Option Nat :=
  (lineStart doc position.line.toNat).map fun start =>
    start + min position.character.toNat (lineLength (doc.drop start))

/-- The offset `k`, or the end of the surrogate pair it stands in. -/
def boundary (units : List Nat) (k : Nat) : Nat :=
  if 0 < k ∧ isHigh (units.getD (k - 1) 0) ∧ isLow (units.getD k 0) then k + 1 else k

/-- A line with its terminator. -/
def fullLine (units : List Nat) : List Nat :=
  units.take (lineLength units + lineBreak (units.drop (lineLength units)))

/-- The offset the server gives a position: past the end of a line it is the start of the next
one, and within a surrogate pair it is the end of the pair. -/
def serverAt (doc : List Nat) (position : Position) : Option Nat :=
  (lineStart doc position.line.toNat).map fun start =>
    let line := fullLine (doc.drop start)
    start + boundary line (min position.character.toNat line.length)

/-! ## Edits -/

/-- A change as the client has it; `text` is a list of characters. -/
structure Change where
  range : Option Range
  rangeLength : Option Nat
  text : List Nat

/-- The event that the client sends. -/
def Change.event (c : Change) : TextDocumentContentChangeEvent :=
  ⟨c.range, c.rangeLength, encode c.text⟩

/-- The range lies in the document, its start before its end. -/
structure Range.Ok (doc : List Nat) (r : Range) : Prop where
  line : 0 ≤ r.start.line
  start : 0 ≤ r.start.character
  stop : 0 ≤ r.stop.character
  le : r.start.line < r.stop.line ∨
    (r.start.line = r.stop.line ∧ r.start.character ≤ r.stop.character)
  inside : (lineStart doc r.stop.line.toNat).isSome

structure Change.Ok (doc : List Nat) (c : Change) : Prop where
  text : LfText c.text
  range : ∀ r, c.range = some r → r.Ok doc

section
variable (offsetAt : List Nat → Position → Option Nat)

/-- The length given with a range is the number of its units. -/
def Change.agrees (doc : List Nat) (c : Change) : Bool :=
  match c.range, c.rangeLength with
  | some r, some n => n == (offsetAt doc r.stop).getD 0 - (offsetAt doc r.start).getD 0
  | _, _ => true

/-- The document after a change. A change whose length disagrees is none. -/
def Change.edit (doc : List Nat) (c : Change) : List Nat :=
  if c.agrees offsetAt doc then
    match c.range with
    | none => utf16 c.text
    | some r =>
      splice doc ((offsetAt doc r.start).getD 0) ((offsetAt doc r.stop).getD 0) (utf16 c.text)
  else doc

/-- The text of the server and the document of the client. -/
structure Session where
  text : List Nat
  doc : List Nat

/-- One change, made by the client and sent to the server. -/
def Session.step (s : Session) (c : Change) : Session :=
  ⟨(applyChange s.text c.event).2, c.edit offsetAt s.doc⟩

def Session.run (s : Session) (changes : List Change) : Session :=
  changes.foldl (Session.step offsetAt) s

/-- The changes make sense where they are made, to a text the server can index. -/
def Session.Admits : Session → List Change → Prop
  | _, [] => True
  | s, c :: changes => c.Ok s.doc ∧ s.text.length ≤ uint32Max ∧
      (s.step offsetAt c).Admits changes

end

/-- The text and the document are the same characters. -/
def Session.Synced (s : Session) : Prop :=
  ∃ cs, LfText cs ∧ s.text = encode cs ∧ s.doc = utf16 cs

/-! ## Characters in both encodings -/

variable {cs ls : List Nat} {c : Nat}

theorem LfText.take (h : LfText cs) (k : Nat) : LfText (cs.take k) :=
  ⟨h.codePoints.take k, fun c hc => h.noSurrogate c (List.mem_of_mem_take hc),
    fun hr => h.noReturn (List.mem_of_mem_take hr)⟩

theorem LfText.drop (h : LfText cs) (k : Nat) : LfText (cs.drop k) :=
  ⟨h.codePoints.drop k, fun c hc => h.noSurrogate c (List.mem_of_mem_drop hc),
    fun hr => h.noReturn (List.mem_of_mem_drop hr)⟩

theorem LfText.splice {t : List Nat} (h : LfText cs) (ht : LfText t) (a b : Nat) :
    LfText (splice cs a b t) := by
  have hmem : ∀ c ∈ Splice.splice cs a b t, c ∈ cs ∨ c ∈ t := by
    intro c hc
    unfold Splice.splice at hc
    rw [List.mem_append, List.mem_append] at hc
    rcases hc with (hc | hc) | hc
    · exact .inl (List.mem_of_mem_take hc)
    · exact .inr hc
    · exact .inl (List.mem_of_mem_drop hc)
  exact ⟨fun c hc => (hmem c hc).elim (h.codePoints c) (ht.codePoints c),
    fun c hc => (hmem c hc).elim (h.noSurrogate c) (ht.noSurrogate c),
    fun hr => (hmem 13 hr).elim h.noReturn ht.noReturn⟩

theorem LfText.tail (h : LfText (c :: cs)) : LfText cs := h.drop 1

theorem isHigh_false (h : isHigh c = false) (hl : isLow c = false) : c < 0xD800 ∨ 0xE000 ≤ c := by
  simp only [isHigh, isLow, Bool.and_eq_false_iff, decide_eq_false_iff_not] at h hl
  omega

/-- The server reads a character as the client counts it. -/
theorem nextChar_append (hc : c ≤ codePointMax) (hs : isHigh c = false) (hl : isLow c = false)
    (t : List Nat) :
    nextChar (codePointToUtf8 c ++ t) = ((codePointToUtf8 c).length, (codeUnits c).length) := by
  have hpos := codePointToUtf8_length_pos hc
  have hvalid : utf8ValidateChar (codePointToUtf8 c ++ t) = (codePointToUtf8 c).length := by
    unfold utf8ValidateChar
    rw [wtf8ValidateChar_append hc, if_neg]
    have hrange := isHigh_false hs hl
    simp only [codePointMax] at hc
    unfold codePointToUtf8
    split
    · rintro ⟨h, -⟩
      simp only [List.cons_append, List.getD_cons_zero] at h
      omega
    split
    · rintro ⟨h, -⟩
      simp only [List.cons_append, List.getD_cons_zero] at h
      omega
    split
    · rintro ⟨h, h'⟩
      simp only [List.cons_append, List.getD_cons_zero, List.getD_cons_succ] at h h'
      omega
    · rintro ⟨h, -⟩
      simp only [List.cons_append, List.getD_cons_zero] at h
      omega
  unfold nextChar utf8ToCodePoint
  simp only
  rw [hvalid, if_neg (by omega), decodeFirst_append hc, if_neg (by omega)]
  unfold codeUnits
  simp only
  split <;> rfl

theorem utf16LenLoop_encode (h : LfText cs) {fuel : Nat} (hf : (encode cs).length ≤ fuel)
    (count : Nat) : utf16LenLoop fuel (encode cs) count = count + (utf16 cs).length := by
  induction cs generalizing fuel count with
  | nil => cases fuel <;> simp [utf16LenLoop, utf16]
  | cons c cs ih =>
    have hc := h.codePoints c (List.mem_cons_self ..)
    have hs := h.noSurrogate c (List.mem_cons_self ..)
    have hpos := codePointToUtf8_length_pos hc
    rw [encode_cons, List.length_append] at hf
    cases fuel with
    | zero => omega
    | succ fuel =>
      have hne : codePointToUtf8 c ++ encode cs ≠ [] := by
        intro he
        have := congrArg List.length he
        rw [List.length_append, List.length_nil] at this
        omega
      rw [encode_cons, utf16LenLoop, if_neg hne, nextChar_append hc hs.1 hs.2]
      simp only
      rw [List.drop_left, ih h.tail (by omega)]
      unfold utf16
      rw [List.flatMap_cons, List.length_append]
      omega

theorem utf16Len_encode (h : LfText cs) : utf16Len (encode cs) = (utf16 cs).length := by
  unfold utf16Len
  rw [utf16LenLoop_encode h (Nat.le_refl _), Nat.zero_add]

/-! ## Lines -/

/-- The characters before the next newline. -/
def beforeBreak (cs : List Nat) : Nat := (cs.takeWhile (· ≠ 10)).length

/-- The index of the first character of a line. -/
def lineIndex : List Nat → Nat → Option Nat
  | _, 0 => some 0
  | cs, line + 1 =>
    if beforeBreak cs < cs.length then
      (lineIndex (cs.drop (beforeBreak cs + 1)) line).map (beforeBreak cs + 1 + ·)
    else none

-- The equations are made here, once, and not inside the proofs that unfold a definition.
attribute [local grind =] beforeBreak lineIndex

/-- What stands after the characters before the newline is the newline. -/
theorem drop_beforeBreak (h : beforeBreak cs < cs.length) :
    cs.drop (beforeBreak cs) = 10 :: cs.drop (beforeBreak cs + 1) := by
  have hdrop : cs.drop (beforeBreak cs) = cs.dropWhile (· ≠ 10) := by
    unfold beforeBreak
    conv_lhs => arg 2; rw [← List.takeWhile_append_dropWhile (p := (· ≠ 10)) (l := cs)]
    exact List.drop_left
  have hne : cs.dropWhile (· ≠ 10) ≠ [] := by
    rw [← hdrop, Ne, List.drop_eq_nil_iff]
    omega
  have hhead := List.head_dropWhile_not (· ≠ 10) hne
  rw [List.drop_eq_getElem_cons h, List.cons.injEq, and_iff_left rfl]
  simp only [← hdrop, List.head_drop] at hhead
  simpa using hhead

theorem codePointToUtf8_ne_newline (h : c ≠ 10) : ∀ x ∈ codePointToUtf8 c, x ≠ 10 := by
  unfold codePointToUtf8
  split
  · simpa using h
  split
  · simp only [List.mem_cons, List.not_mem_nil, or_false]
    omega
  split
  · simp only [List.mem_cons, List.not_mem_nil, or_false]
    omega
  split
  · simp only [List.mem_cons, List.not_mem_nil, or_false]
    omega
  · simp

theorem takeWhile_encode (cs : List Nat) :
    ((encode cs).takeWhile (· ≠ 10)).length = offset codePointToUtf8 cs (beforeBreak cs) := by
  refine length_takeWhile_flatMap (fun c hc x hx => ?_) (fun c hc => ?_) cs
  · simpa using codePointToUtf8_ne_newline (by simpa using hc) x hx
  · have h : c = 10 := by simpa using hc
    exact ⟨10, [], by rw [h]; rfl, rfl⟩

theorem lineLength_utf16 (h : LfText cs) :
    lineLength (utf16 cs) = offset codeUnits cs (beforeBreak cs) := by
  have hcr : cs.takeWhile (fun c => c ≠ 10 && c ≠ 13) = cs.takeWhile (· ≠ 10) := by
    have hr := h.noReturn
    clear h
    induction cs with
    | nil => rfl
    | cons c cs ih =>
      rw [List.mem_cons, not_or] at hr
      have hc : (decide (c ≠ 13)) = true := by simpa using Ne.symm hr.1
      rw [List.takeWhile_cons, List.takeWhile_cons, hc, Bool.and_true, ih hr.2]
  unfold lineLength utf16 beforeBreak
  rw [← hcr]
  refine length_takeWhile_flatMap (fun c hc x hx => ?_) (fun c hc => ?_) cs
  · simp only [ne_eq, Bool.and_eq_true, decide_eq_true_eq] at hc ⊢
    unfold codeUnits at hx
    split at hx
    · rw [List.mem_singleton] at hx
      rwa [hx]
    · simp only [List.mem_cons, List.not_mem_nil, or_false] at hx
      omega
  · refine ⟨c, [], ?_, hc⟩
    unfold codeUnits
    rw [if_pos]
    simp only [ne_eq, Bool.and_eq_false_iff, decide_eq_false_iff_not, not_not] at hc
    omega

theorem lineBreak_utf16 (cs : List Nat) :
    lineBreak (utf16 (cs.drop (beforeBreak cs))) = if beforeBreak cs < cs.length then 1 else 0 := by
  split
  · next hlt =>
    rw [drop_beforeBreak hlt]
    rfl
  · next hge =>
    rw [List.drop_of_length_le (by omega)]
    rfl

/-- The next newline is at the same character for both. -/
theorem findNewline_encode (h : LfText cs) (k : Nat) :
    findNewline (encode cs) (offset codePointToUtf8 cs k) =
      if beforeBreak (cs.drop k) < (cs.drop k).length then
        some (offset codePointToUtf8 cs (k + beforeBreak (cs.drop k))) else none := by
  have hdrop : (encode cs).drop (offset codePointToUtf8 cs k) = encode (cs.drop k) :=
    drop_offset codePointToUtf8 cs k
  unfold findNewline
  simp only
  rw [hdrop, takeWhile_encode, ← offset_add, List.length_drop]
  by_cases hlt : beforeBreak (cs.drop k) < cs.length - k
  · rw [if_pos hlt, if_pos]
    exact offset_lt (fun c hc => codePointToUtf8_length_pos (h.codePoints c hc)) (by omega)
  · have hle : (encode cs).length ≤ offset codePointToUtf8 cs (k + beforeBreak (cs.drop k)) := by
      unfold offset
      rw [List.take_of_length_le (by omega)]
      exact Nat.le_refl _
    rw [if_neg hlt, if_neg (by omega)]

/-- The server finds the start of a line of the document. -/
theorem findLineStartLoop_encode (h : LfText cs) {k line m : Nat}
    (hm : lineIndex (cs.drop k) line = some m) :
    findLineStartLoop (encode cs) line (offset codePointToUtf8 cs k) =
      offset codePointToUtf8 cs (k + m) := by
  induction line generalizing k m with
  | zero =>
    rw [lineIndex, Option.some.injEq] at hm
    rw [findLineStartLoop, ← hm, Nat.add_zero]
  | succ line ih =>
    rw [lineIndex] at hm
    split at hm
    · next hlt =>
      obtain ⟨j, hj, rfl⟩ := Option.map_eq_some_iff.1 hm
      rw [List.drop_drop] at hj
      have hnl : offset codePointToUtf8 cs (k + beforeBreak (cs.drop k)) + 1 =
          offset codePointToUtf8 cs (k + (beforeBreak (cs.drop k) + 1)) := by
        rw [← Nat.add_assoc, offset_add _ _ (_ + _) 1, ← List.drop_drop, drop_beforeBreak hlt,
          offset_cons_succ]
        rfl
      rw [findLineStartLoop, findNewline_encode h, if_pos hlt]
      simp only
      rw [hnl, ih hj]
      congr 1
      omega
    · cases hm

/-- The client has the same lines. -/
theorem lineStart_utf16 (h : LfText cs) (line : Nat) :
    lineStart (utf16 cs) line = (lineIndex cs line).map (offset codeUnits cs) := by
  induction line generalizing cs with
  | zero => simp [lineStart, lineIndex]
  | succ line ih =>
    have hdrop : ∀ k, (utf16 cs).drop (offset codeUnits cs k) = utf16 (cs.drop k) :=
      drop_offset codeUnits cs
    rw [lineStart, lineIndex, lineLength_utf16 h, hdrop, lineBreak_utf16]
    by_cases hlt : beforeBreak cs < cs.length
    · have hnl : offset codeUnits cs (beforeBreak cs) + 1 =
          offset codeUnits cs (beforeBreak cs + 1) := by
        rw [offset_add _ _ _ 1, drop_beforeBreak hlt, offset_cons_succ]
        rfl
      rw [if_pos hlt, if_pos hlt, if_neg (by omega), hnl, hdrop, ih (h.drop _), Option.map_map,
        Option.map_map]
      congr 1
      funext j
      exact (offset_add codeUnits cs _ j).symm
    · rw [if_neg hlt, if_neg hlt, if_pos rfl]
      rfl

/-! ## Columns -/

/-- The characters of a line that begin before unit `n`. -/
def column : List Nat → Nat → Nat
  | [], _ => 0
  | c :: cs, n => if n = 0 then 0 else column cs (n - (codeUnits c).length) + 1

attribute [local grind =] column

theorem column_zero (ls : List Nat) : column ls 0 = 0 := by
  cases ls with
  | nil => rfl
  | cons c ls => rw [column, if_pos rfl]

theorem column_le (ls : List Nat) (n : Nat) : column ls n ≤ ls.length := by
  induction ls generalizing n with
  | nil => exact Nat.le_refl _
  | cons c ls ih =>
    rw [column]
    split
    · exact Nat.zero_le _
    · exact Nat.succ_le_succ (ih _)

theorem column_mono (ls : List Nat) {m n : Nat} (h : m ≤ n) : column ls m ≤ column ls n := by
  induction ls generalizing m n with
  | nil => exact Nat.le_refl _
  | cons c ls ih =>
    rw [column, column]
    split
    · exact Nat.zero_le _
    · rw [if_neg (by omega)]
      exact Nat.succ_le_succ (ih (by omega))

/-- The server's loop stops after the characters that begin before the unit. -/
theorem countLoop_encode (h : LfText ls) {fuel : Nat} (hf : (encode ls).length ≤ fuel)
    (n i : Nat) : countLoop n fuel (encode ls) i = offset codePointToUtf8 ls (column ls (n - i)) := by
  induction ls generalizing fuel i with
  | nil => cases fuel <;> simp [countLoop, column]
  | cons c ls ih =>
    have hc := h.codePoints c (List.mem_cons_self ..)
    have hs := h.noSurrogate c (List.mem_cons_self ..)
    have hpos := codePointToUtf8_length_pos hc
    rw [encode_cons, List.length_append] at hf
    cases fuel with
    | zero => omega
    | succ fuel =>
      have hne : codePointToUtf8 c ++ encode ls ≠ [] := by
        intro he
        have := congrArg List.length he
        rw [List.length_append, List.length_nil] at this
        omega
      rw [encode_cons, countLoop, column]
      by_cases hi : i < n
      · rw [if_pos ⟨hi, hne⟩, if_neg (by omega), nextChar_append hc hs.1 hs.2, offset_cons_succ]
        simp only
        rw [List.drop_left, ih h.tail (by omega), Nat.sub_sub]
      · rw [if_neg (by omega), if_pos (by omega), offset_zero]

theorem boundary_append {u v : List Nat} (hu : 0 < u.length)
    (hlast : isHigh (u.getD (u.length - 1) 0) = false) (k : Nat) :
    boundary (u ++ v) (u.length + k) = u.length + boundary v k := by
  unfold boundary
  rcases Nat.eq_zero_or_pos k with rfl | hk
  · rw [if_neg, if_neg (by omega)]
    rintro ⟨-, hh, -⟩
    rw [Nat.add_zero, List.getD_append _ _ _ _ (by omega), hlast] at hh
    cases hh
  · rw [List.getD_append_right _ _ _ _ (by omega), List.getD_append_right _ _ _ _ (by omega),
      show u.length + k - 1 - u.length = k - 1 by omega, Nat.add_sub_cancel_left]
    by_cases h : isHigh (v.getD (k - 1) 0) = true ∧ isLow (v.getD k 0) = true
    · rw [if_pos ⟨by omega, h⟩, if_pos ⟨hk, h⟩]
      omega
    · rw [if_neg fun h' => h h'.2, if_neg fun h' => h h'.2]

/-- So does the offset of the client. -/
theorem boundary_utf16 (h : LfText ls) (n : Nat) :
    boundary (utf16 ls) (min n (utf16 ls).length) = offset codeUnits ls (column ls n) := by
  induction ls generalizing n with
  | nil => simp [boundary, utf16, column]
  | cons c ls ih =>
    have hc := h.codePoints c (List.mem_cons_self ..)
    have hs := h.noSurrogate c (List.mem_cons_self ..)
    have ih := ih h.tail
    rcases Nat.eq_zero_or_pos n with rfl | hn
    · rw [column_zero, offset_zero, Nat.zero_min]
      rfl
    rw [column, if_neg (by omega), offset_cons_succ, ← ih]
    unfold utf16
    rw [List.flatMap_cons, List.length_append]
    simp only [codePointMax] at hc
    by_cases hbmp : c ≤ 0xFFFF
    · have hu : codeUnits c = [c] := by
        unfold codeUnits
        rw [if_pos hbmp]
      rw [hu, ← boundary_append (u := [c]) (by simp) hs.1]
      congr 1
      simp only [List.length_singleton]
      omega
    · obtain ⟨hi, lo, hu, hhi, hlo, hlow⟩ : ∃ hi lo, codeUnits c = [hi, lo] ∧
          isHigh hi = true ∧ isHigh lo = false ∧ isLow lo = true := by
        refine ⟨_, _, by unfold codeUnits; rw [if_neg hbmp], ?_, ?_, ?_⟩
        · simp only [isHigh, Bool.and_eq_true, decide_eq_true_eq]
          omega
        · simp only [isHigh, Bool.and_eq_false_iff, decide_eq_false_iff_not]
          omega
        · simp only [isLow, Bool.and_eq_true, decide_eq_true_eq]
          omega
      rw [hu]
      by_cases hone : n = 1
      · have hmin : min n ([hi, lo].length + (ls.flatMap codeUnits).length) = 1 := by
          simp only [List.length_cons, List.length_nil]
          omega
        rw [hmin, boundary, if_pos ⟨by omega, hhi, hlow⟩, hone]
        simp [boundary]
      · rw [← boundary_append (u := [hi, lo]) (by simp) hlo]
        congr 1
        simp only [List.length_cons, List.length_nil]
        omega

/-! ## The character at a position -/

/-- A line with its newline. -/
def lineOf (cs : List Nat) : List Nat := cs.take (beforeBreak cs + 1)

/-- The character that a position means to the server. -/
def charIndex (cs : List Nat) (position : Position) : Option Nat :=
  (lineIndex cs position.line.toNat).map fun start =>
    start + column (lineOf (cs.drop start)) position.character.toNat

theorem column_lineOf_le (ls : List Nat) (n : Nat) : column (lineOf ls) n ≤ beforeBreak ls + 1 := by
  have := column_le (lineOf ls) n
  unfold lineOf at this ⊢
  rw [List.length_take] at this
  omega

theorem fullLine_utf16 (h : LfText ls) : fullLine (utf16 ls) = utf16 (lineOf ls) := by
  have hdrop : (utf16 ls).drop (offset codeUnits ls (beforeBreak ls)) =
      utf16 (ls.drop (beforeBreak ls)) := drop_offset codeUnits ls _
  unfold fullLine
  rw [lineLength_utf16 h, hdrop, lineBreak_utf16]
  by_cases hlt : beforeBreak ls < ls.length
  · have hnl : offset codeUnits ls (beforeBreak ls) + 1 =
        offset codeUnits ls (beforeBreak ls + 1) := by
      rw [offset_add _ _ _ 1, drop_beforeBreak hlt, offset_cons_succ]
      rfl
    rw [if_pos hlt, hnl]
    exact take_offset codeUnits ls _
  · rw [if_neg hlt, Nat.add_zero]
    unfold lineOf utf16
    rw [take_offset, List.take_of_length_le (by omega), List.take_of_length_le (by omega)]

theorem serverAt_utf16 (h : LfText cs) (position : Position) :
    serverAt (utf16 cs) position = (charIndex cs position).map (offset codeUnits cs) := by
  unfold serverAt charIndex
  rw [lineStart_utf16 h, Option.map_map, Option.map_map]
  congr 1
  funext start
  have hdrop : (utf16 cs).drop (offset codeUnits cs start) = utf16 (cs.drop start) :=
    drop_offset codeUnits cs start
  have hl : LfText (lineOf (cs.drop start)) := (h.drop start).take _
  simp only [Function.comp_apply]
  rw [hdrop, fullLine_utf16 (h.drop start), boundary_utf16 hl, offset_add]
  congr 1
  exact offset_take codeUnits _ (column_lineOf_le _ _)

theorem count_encode (h : LfText cs) (k n : Nat) :
    count (encode cs) (offset codePointToUtf8 cs k) n =
      offset codePointToUtf8 cs (k + column (lineOf (cs.drop k)) n) := by
  have hdrop : (encode cs).drop (offset codePointToUtf8 cs k) = encode (cs.drop k) :=
    drop_offset codePointToUtf8 cs k
  have hl : LfText (lineOf (cs.drop k)) := (h.drop k).take _
  have hline : (encode (cs.drop k)).take
      (offset codePointToUtf8 (cs.drop k) (beforeBreak (cs.drop k)) + 1) =
        encode (lineOf (cs.drop k)) := by
    by_cases hlt : beforeBreak (cs.drop k) < (cs.drop k).length
    · have hnl : offset codePointToUtf8 (cs.drop k) (beforeBreak (cs.drop k)) + 1 =
          offset codePointToUtf8 (cs.drop k) (beforeBreak (cs.drop k) + 1) := by
        rw [offset_add _ _ _ 1, drop_beforeBreak hlt, offset_cons_succ]
        rfl
      rw [hnl]
      exact take_offset codePointToUtf8 _ _
    · have hend : (encode (cs.drop k)).length ≤
          offset codePointToUtf8 (cs.drop k) (beforeBreak (cs.drop k)) := by
        unfold offset
        rw [List.take_of_length_le (by omega)]
        exact Nat.le_refl _
      unfold lineOf
      rw [List.take_of_length_le (by omega), List.take_of_length_le (by omega)]
  unfold count
  simp only
  rw [hdrop, takeWhile_encode, show ∀ a b : Nat, a + b + 1 - a = b + 1 by omega, hline,
    countLoop_encode hl (Nat.le_refl _), Nat.sub_zero, offset_add]
  congr 1
  exact offset_take codePointToUtf8 _ (column_lineOf_le _ _)

/-- The server finds the character. -/
theorem toTokenPos_encode (h : LfText cs) (hsize : (encode cs).length ≤ uint32Max)
    {position : Position} (hline : 0 ≤ position.line) (hchar : 0 ≤ position.character) {k : Nat}
    (hk : charIndex cs position = some k) :
    toTokenPos (encode cs) position = some (offset codePointToUtf8 cs k) := by
  obtain ⟨start, hstart, rfl⟩ := Option.map_eq_some_iff.1 hk
  have hfind : findLineStartPos (encode cs) position.line.toNat =
      offset codePointToUtf8 cs start := by
    have := findLineStartLoop_encode h (k := 0) hstart
    rwa [offset_zero, Nat.zero_add] at this
  have hle := offset_le codePointToUtf8 cs
    (start + column (lineOf (cs.drop start)) position.character.toNat)
  unfold toTokenPos
  rw [if_neg (by omega)]
  simp only
  rw [hfind, count_encode h, if_neg]
  unfold encode at hsize
  omega

/-- An earlier line exists too, and ends before a later one starts. -/
theorem lineIndex_le {line line' m : Nat} (hm : lineIndex cs line = some m) (hl : line' ≤ line) :
    ∃ m', lineIndex cs line' = some m' ∧
      (line' < line → m' + (beforeBreak (cs.drop m') + 1) ≤ m) := by
  induction line' generalizing cs line m with
  | zero =>
    refine ⟨0, by rw [lineIndex], fun hlt => ?_⟩
    obtain ⟨n, rfl⟩ := Nat.exists_eq_succ_of_ne_zero (Nat.ne_of_gt hlt)
    rw [lineIndex] at hm
    split at hm
    · obtain ⟨j, -, rfl⟩ := Option.map_eq_some_iff.1 hm
      rw [List.drop_zero]
      omega
    · cases hm
  | succ line' ih =>
    obtain ⟨n, rfl⟩ := Nat.exists_eq_succ_of_ne_zero (show line ≠ 0 by omega)
    rw [lineIndex] at hm
    split at hm
    · next hlt =>
      obtain ⟨j, hj, rfl⟩ := Option.map_eq_some_iff.1 hm
      obtain ⟨m', hm', hle⟩ := ih hj (by omega)
      refine ⟨beforeBreak cs + 1 + m', by rw [lineIndex, if_pos hlt, hm']; rfl, fun h => ?_⟩
      rw [← List.drop_drop]
      have := hle (by omega)
      omega
    · cases hm

/-- The start of a range does not come after its end. -/
theorem charIndex_range (h : LfText cs) {r : Range} (hr : r.Ok (utf16 cs)) :
    ∃ a b, charIndex cs r.start = some a ∧ charIndex cs r.stop = some b ∧ a ≤ b := by
  have hinside := hr.inside
  rw [lineStart_utf16 h, Option.isSome_map, Option.isSome_iff_exists] at hinside
  obtain ⟨m, hm⟩ := hinside
  have hline := hr.line
  have hlines : r.start.line.toNat ≤ r.stop.line.toNat := by
    rcases hr.le with h | h <;> omega
  obtain ⟨m', hm', hle⟩ := lineIndex_le hm hlines
  refine ⟨m' + column (lineOf (cs.drop m')) r.start.character.toNat,
    m + column (lineOf (cs.drop m)) r.stop.character.toNat, by unfold charIndex; rw [hm']; rfl,
    by unfold charIndex; rw [hm]; rfl, ?_⟩
  rcases hr.le with hlt | ⟨heq, hchar⟩
  · have := hle (by omega)
    have := column_lineOf_le (cs.drop m') r.start.character.toNat
    omega
  · rw [heq, hm, Option.some.injEq] at hm'
    subst hm'
    exact Nat.add_le_add_left (column_mono _ (by omega)) _

/-! ## The two sides of one change -/

theorem replace_eq_splice (content t : List Nat) {a b : Nat} (h : a ≤ b) :
    replace content a (b - a) t = splice content a b t := by
  unfold replace splice
  rw [Nat.add_sub_cancel' h]

theorem toToken_encode (h : LfText cs) (hsize : (encode cs).length ≤ uint32Max) {r : Range}
    (hr : r.Ok (utf16 cs)) : ∃ a b, a ≤ b ∧
      toToken (encode cs) r = some ⟨offset codePointToUtf8 cs a,
        offset codePointToUtf8 cs b - offset codePointToUtf8 cs a⟩ ∧
      serverAt (utf16 cs) r.start = some (offset codeUnits cs a) ∧
      serverAt (utf16 cs) r.stop = some (offset codeUnits cs b) := by
  obtain ⟨a, b, ha, hb, hab⟩ := charIndex_range h hr
  have hline := hr.line
  have hstop : 0 ≤ r.stop.line := by
    rcases hr.le with h | h <;> omega
  have hle := offset_mono codePointToUtf8 cs hab
  have hmax := offset_le codePointToUtf8 cs b
  refine ⟨a, b, hab, ?_, by rw [serverAt_utf16 h, ha]; rfl, by rw [serverAt_utf16 h, hb]; rfl⟩
  unfold toToken
  rw [toTokenPos_encode h hsize hline hr.start ha, toTokenPos_encode h hsize hstop hr.stop hb]
  simp only [Option.some.injEq, Token.mk.injEq, true_and]
  unfold encode at hsize
  rw [show offset codePointToUtf8 cs b + (uint32Max + 1) - offset codePointToUtf8 cs a =
    offset codePointToUtf8 cs b - offset codePointToUtf8 cs a + (uint32Max + 1) by omega,
    Nat.add_mod_right, Nat.mod_eq_of_lt (by omega)]

/-- The characters of a token have as many units as the client counts. -/
theorem utf16Len_token (h : LfText cs) {a b : Nat} (hab : a ≤ b) :
    utf16Len (((encode cs).drop (offset codePointToUtf8 cs a)).take
      (offset codePointToUtf8 cs b - offset codePointToUtf8 cs a)) =
      offset codeUnits cs b - offset codeUnits cs a := by
  obtain ⟨d, rfl⟩ := Nat.exists_eq_add_of_le hab
  have hdrop : (encode cs).drop (offset codePointToUtf8 cs a) = encode (cs.drop a) :=
    drop_offset codePointToUtf8 cs a
  have htake : (encode (cs.drop a)).take (offset codePointToUtf8 (cs.drop a) d) =
      encode ((cs.drop a).take d) := take_offset codePointToUtf8 _ d
  rw [hdrop, offset_add, offset_add, Nat.add_sub_cancel_left, Nat.add_sub_cancel_left, htake,
    utf16Len_encode ((h.drop a).take d)]
  rfl

/-- One change keeps the two sides in sync, and is accepted if its length agrees. -/
theorem applyChange_encode (h : LfText cs) (hsize : (encode cs).length ≤ uint32Max) {c : Change}
    (hc : c.Ok (utf16 cs)) : ∃ cs', LfText cs' ∧
      applyChange (encode cs) c.event = (c.agrees serverAt (utf16 cs), encode cs') ∧
      c.edit serverAt (utf16 cs) = utf16 cs' := by
  obtain ⟨range, rangeLength, text⟩ := c
  cases range with
  | none => exact ⟨text, hc.text, rfl, rfl⟩
  | some r =>
    obtain ⟨a, b, hab, htoken, hstart, hstop⟩ := toToken_encode h hsize (hc.range r rfl)
    have hlen := utf16Len_token h hab
    have hreplace : replace (encode cs) (offset codePointToUtf8 cs a)
        (offset codePointToUtf8 cs b - offset codePointToUtf8 cs a) (encode text) =
          encode (splice cs a b text) := by
      rw [replace_eq_splice _ _ (offset_mono codePointToUtf8 cs hab)]
      exact splice_offset codePointToUtf8 cs a b text
    have hsplice : splice (utf16 cs) (offset codeUnits cs a) (offset codeUnits cs b)
        (utf16 text) = utf16 (splice cs a b text) := splice_offset codeUnits cs a b text
    unfold applyChange Change.event Change.edit Change.agrees
    simp only [htoken, hlen, hreplace, hstart, hstop, Option.getD_some]
    cases rangeLength with
    | none => exact ⟨splice cs a b text, h.splice hc.text a b, rfl, hsplice⟩
    | some n =>
      simp only [hstart, hstop, Option.getD_some]
      by_cases hn : n = offset codeUnits cs b - offset codeUnits cs a
      · refine ⟨splice cs a b text, h.splice hc.text a b, ?_, ?_⟩
        · rw [if_neg (not_not.2 hn.symm), beq_iff_eq.2 hn]
        · rw [if_pos (beq_iff_eq.2 hn)]
          exact hsplice
      · refine ⟨cs, h, ?_, ?_⟩
        · rw [if_pos (Ne.symm hn), beq_eq_false_iff_ne.2 hn]
        · rw [if_neg fun he => hn (beq_iff_eq.1 he)]

theorem Session.Synced.step {s : Session} (hs : s.Synced) {c : Change} (hc : c.Ok s.doc)
    (hsize : s.text.length ≤ uint32Max) : (s.step serverAt c).Synced := by
  obtain ⟨cs, h, htext, hdoc⟩ := hs
  rw [hdoc] at hc
  rw [htext] at hsize
  obtain ⟨cs', h', happly, hedit⟩ := applyChange_encode h hsize hc
  refine ⟨cs', h', ?_, ?_⟩
  · rw [Session.step, htext, happly]
  · rw [Session.step, hdoc, hedit]

/-- A rejected change leaves the text as it is, whatever its range. -/
theorem applyChange_rejected {content : List Nat} {change : TextDocumentContentChangeEvent}
    (h : (applyChange content change).1 = false) : (applyChange content change).2 = content := by
  unfold applyChange at h ⊢
  split at h
  · cases h
  · split at h
    · rfl
    · split at h
      · cases h
      · simp only at h ⊢
        split at h
        · next hne => rw [if_pos hne]
        · cases h

/-! ## Sessions -/

theorem Session.Admits.append {offsetAt : List Nat → Position → Option Nat} {s : Session}
    {before after : List Change} (h : s.Admits offsetAt (before ++ after)) :
    s.Admits offsetAt before ∧ (s.run offsetAt before).Admits offsetAt after := by
  induction before generalizing s with
  | nil => exact ⟨trivial, h⟩
  | cons c before ih =>
    obtain ⟨hc, hsize, h⟩ := h
    obtain ⟨hb, ha⟩ := ih h
    exact ⟨⟨hc, hsize, hb⟩, ha⟩

theorem Session.Synced.run {s : Session} (hs : s.Synced) {changes : List Change}
    (ha : s.Admits serverAt changes) : (s.run serverAt changes).Synced := by
  induction changes generalizing s with
  | nil => exact hs
  | cons c changes ih =>
    obtain ⟨hc, hsize, ha⟩ := ha
    exact ih (hs.step hc hsize) ha

/-- In a session whose changes make sense the server's text is the client's document after every
change. A change is rejected if and only if its length disagrees, and leaves the text as it is. -/
theorem run_synced {s : Session} (hs : s.Synced) {changes : List Change}
    (ha : s.Admits serverAt changes) :
    (s.run serverAt changes).Synced ∧
      ∀ before c after, changes = before ++ c :: after →
        let now := s.run serverAt before
        now.Synced ∧ (applyChange now.text c.event).1 = c.agrees serverAt now.doc ∧
          (c.agrees serverAt now.doc = false →
            (applyChange now.text c.event).2 = now.text) := by
  refine ⟨hs.run ha, ?_⟩
  rintro before c after rfl
  obtain ⟨hb, hc, hsize, -⟩ := ha.append
  have hnow := hs.run hb
  refine ⟨hnow, ?_⟩
  generalize s.run serverAt before = now at hc hsize hnow
  obtain ⟨cs, h, htext, hdoc⟩ := hnow
  rw [hdoc] at hc
  rw [htext] at hsize
  obtain ⟨cs', -, happly, -⟩ := applyChange_encode h hsize hc
  have haccept : (applyChange now.text c.event).1 = c.agrees serverAt now.doc := by
    rw [htext, hdoc, happly]
  exact ⟨haccept, fun hfalse => applyChange_rejected (haccept.trans hfalse)⟩

/-! ## A character past the end of a line -/

/-- The text `a`, a newline, `b`. -/
def twoLines : Session := ⟨[97, 10, 98], [97, 10, 98]⟩

/-- An insertion at character 5 of the first line. -/
def pastEnd : Change := ⟨some ⟨⟨0, 5⟩, ⟨0, 5⟩⟩, none, [120]⟩

theorem twoLines_synced : twoLines.Synced :=
  ⟨[97, 10, 98], ⟨by simp [CodePoints, codePointMax], by decide, by decide⟩, by decide, by decide⟩

theorem pastEnd_ok : pastEnd.Ok twoLines.doc where
  text := ⟨by simp [CodePoints, codePointMax, pastEnd], by decide, by decide⟩
  range := by
    rintro r ⟨⟩
    exact ⟨by decide, by decide, by decide, .inr ⟨rfl, by decide⟩, by decide⟩

theorem run_synced_pastEnd :
    (twoLines.run serverAt [pastEnd]).Synced ∧
      ∀ before c after, [pastEnd] = before ++ c :: after →
        let now := twoLines.run serverAt before
        now.Synced ∧ (applyChange now.text c.event).1 = c.agrees serverAt now.doc ∧
          (c.agrees serverAt now.doc = false →
            (applyChange now.text c.event).2 = now.text) :=
  run_synced twoLines_synced ⟨pastEnd_ok, by decide, trivial⟩

/-- The protocol inserts before the newline, the server after it. -/
theorem protocol_not_synced : ∃ (s : Session) (changes : List Change), s.Synced ∧
    s.Admits protocolAt changes ∧ ¬ (s.run protocolAt changes).Synced := by
  refine ⟨twoLines, [pastEnd], twoLines_synced, ⟨pastEnd_ok, by decide, trivial⟩, ?_⟩
  have htext : (twoLines.run protocolAt [pastEnd]).text = encode [97, 10, 120, 98] := by
    decide
  have hdoc : (twoLines.run protocolAt [pastEnd]).doc = [97, 120, 10, 98] := by decide
  rintro ⟨cs, h, ht, hd⟩
  rw [htext] at ht
  have hcs := encode_inj (by simp [CodePoints, codePointMax]) h.codePoints ht
  rw [hdoc, ← hcs] at hd
  revert hd
  decide

end Arsh.Lsp
