import Arsh.Analyzer.Source
import Mathlib.Data.List.TakeWhile

/-!
# Positions of a source

`Source` of `tools/analyzer/source.{h,cpp}` and `LineNumTable` of `misc/lexer_base.hpp`. A source
knows where its newlines are. `toPosition` looks the line of an offset up and counts the UTF-16
units from the start of the line; `toTokenPos` scans for the newlines again and counts units until
it has as many. On the offsets at which a character of the line begins the second is the inverse of
the first, and the first keeps the order.
-/

namespace Arsh.Lsp

open UnicodeUtil

def int32Max : Nat := 0x7FFFFFFF

/-! ## Newlines -/

structure LineNumTable where
  offset : Nat
  table : List Nat
  deriving DecidableEq, Repr

namespace LineNumTable

variable (t : LineNumTable)

def addNewlinePos (pos : Nat) : LineNumTable :=
  if t.table = [] ∨ t.table.getLastD 0 < pos then { t with table := t.table ++ [pos] } else t

/-- The position of `std::lower_bound` in the sorted table. -/
def lowerBound (pos : Nat) : Nat := (t.table.takeWhile (· < pos)).length

def getMaxLineNum : Nat := t.table.length + t.offset

def lookup (pos : Nat) : Nat :=
  if t.lowerBound pos = t.table.length then t.getMaxLineNum else t.lowerBound pos + t.offset

def getNewlinePos (lineNum : Nat) : Nat := t.table.getD (lineNum - t.offset) 0

end LineNumTable

/-- `path` is the full path; `srcId` and `attr` are numbers. -/
structure Source where
  path : List Nat
  content : List Nat
  lineNumTable : LineNumTable
  srcId : Nat
  attr : Nat
  version : Int
  deriving DecidableEq, Repr

/-- The loop of the constructor: the newlines from `pos` on. A position is an `unsigned int`. -/
def addNewlines (ref : List Nat) : Nat → Nat → LineNumTable → LineNumTable
  | 0, _, t => t
  | fuel + 1, pos, t =>
    match findNewline ref pos with
    | none => t
    | some pos => addNewlines ref fuel (pos + 1) (t.addNewlinePos (pos % (uint32Max + 1)))

namespace Source

/-- The constructor. The content always ends with a newline. -/
def new (path : List Nat) (srcId : Nat) (content : List Nat) (version : Int) (attr : Nat) :
    Source :=
  let content :=
    if content = [] ∨ content.getLast? ≠ some 10 then content ++ [10] else content
  { path, content, srcId, attr, version,
    lineNumTable := addNewlines content (content.length + 1) 0 ⟨0, []⟩ }

def copyAndUpdate (s : Source) (c : List Nat) (v : Int) : Source := new s.path s.srcId c v s.attr

def toPosition (s : Source) (pos : Nat) : Option Position :=
  if uint32Max < s.content.length then none
  else
    let pos := min (s.content.length - 1) pos
    let c := s.lineNumTable.lookup pos
    let offset := if 0 < c then s.lineNumTable.getNewlinePos (c - 1) + 1 else 0
    let line := (s.content.drop offset).take (pos - offset)
    let offset := utf16Len line
    if int32Max < c ∨ int32Max < offset then none else some ⟨c, offset⟩

def toRange (s : Source) (token : Token) : Option Range :=
  match s.toPosition token.pos, s.toPosition (token.pos + token.size) with
  | some start, some stop => some ⟨start, stop⟩
  | _, _ => none

end Source

/-! ## Characters -/

/-- `p` bytes of a line are characters of `u` units. -/
inductive Chars : List Nat → Nat → Nat → Prop
  | nil (line : List Nat) : Chars line 0 0
  | cons {line : List Nat} {p u : Nat} (h : line ≠ [])
      (hc : Chars (line.drop (nextChar line).1) p u) :
      Chars line ((nextChar line).1 + p) ((nextChar line).2 + u)

theorem nextChar_units_pos (iter : List Nat) : 0 < (nextChar iter).2 := by
  unfold nextChar
  dsimp only
  split
  · exact Nat.one_pos
  · split <;> decide

theorem nextChar_size_pos (iter : List Nat) : 0 < (nextChar iter).1 := by
  unfold nextChar
  dsimp only
  split
  · exact Nat.one_pos
  · next h => exact Nat.pos_of_ne_zero h

/-- The character at the start of a text is encoded there, or is an invalid byte. -/
theorem nextChar_cases (iter : List Nat) :
    (∃ c t, c ≤ codePointMax ∧ iter = codePointToUtf8 c ++ t ∧
      utf8ValidateChar iter = (codePointToUtf8 c).length) ∨
    (utf8ValidateChar iter = 0 ∧ nextChar iter = (1, 1)) := by
  by_cases hz : utf8ValidateChar iter = 0
  · right
    refine ⟨hz, ?_⟩
    unfold nextChar utf8ToCodePoint
    rw [hz]
    rfl
  · left
    have hv : utf8ValidateChar iter = wtf8ValidateChar iter := by
      unfold utf8ValidateChar at hz ⊢
      split
      · next h => exact absurd (if_pos h) hz
      · rfl
    rw [hv] at hz
    obtain ⟨c, t, hc, rfl⟩ := exists_of_wtf8ValidateChar hz
    exact ⟨c, t, hc, rfl, by rw [hv, wtf8ValidateChar_append hc]⟩

theorem nextChar_encoded {c : Nat} {t : List Nat} (hc : c ≤ codePointMax)
    (hv : utf8ValidateChar (codePointToUtf8 c ++ t) = (codePointToUtf8 c).length) :
    nextChar (codePointToUtf8 c ++ t)
      = ((codePointToUtf8 c).length, if c ≤ 0xFFFF then 1 else 2) := by
  have hne : (codePointToUtf8 c).length ≠ 0 := (codePointToUtf8_length_pos hc).ne'
  unfold nextChar utf8ToCodePoint
  simp only [hv, decodeFirst_append hc, hne, if_false]

theorem utf8ValidateChar_append_eq {c : Nat} (hc : c ≤ codePointMax) (s t : List Nat) :
    utf8ValidateChar (codePointToUtf8 c ++ s) = utf8ValidateChar (codePointToUtf8 c ++ t) := by
  have hcond : (codePointToUtf8 c ++ s).getD 0 0 = 0xED ∧
      (codePointToUtf8 c ++ s).getD 1 0 / 32 = 5 ↔
      (codePointToUtf8 c ++ t).getD 0 0 = 0xED ∧
      (codePointToUtf8 c ++ t).getD 1 0 / 32 = 5 := by
    unfold codePointToUtf8
    unfold codePointMax at hc
    split
    · simp only [List.singleton_append, List.getD_cons_zero]
      constructor <;> (rintro ⟨h, -⟩; omega)
    split
    · rfl
    split <;> rfl
  unfold utf8ValidateChar
  rw [wtf8ValidateChar_append hc, wtf8ValidateChar_append hc]
  simp only [hcond]

/-- Decoding a character does not look behind it. -/
theorem nextChar_of_append {a b : List Nat} (h : (nextChar (a ++ b)).1 ≤ a.length) :
    nextChar a = nextChar (a ++ b) := by
  rcases nextChar_cases (a ++ b) with ⟨c, t, hc, he, hv⟩ | ⟨hz, hn⟩
  · have hpos := codePointToUtf8_length_pos hc
    rw [he] at hv
    rw [he, nextChar_encoded hc hv] at h
    obtain ⟨t', rfl⟩ : codePointToUtf8 c <+: a :=
      List.prefix_of_prefix_length_le ⟨t, he.symm⟩ (List.prefix_append a b) h
    have hv' : utf8ValidateChar (codePointToUtf8 c ++ t') = (codePointToUtf8 c).length := by
      rw [utf8ValidateChar_append_eq hc t' t, hv]
    rw [he, nextChar_encoded hc hv, nextChar_encoded hc hv']
  · rw [hn]
    rcases nextChar_cases a with ⟨c, t, hc, rfl, hv⟩ | ⟨-, hn'⟩
    · have hpos := codePointToUtf8_length_pos hc
      rw [List.append_assoc] at hz
      rw [utf8ValidateChar_append_eq hc t (t ++ b), hz] at hv
      omega
    · exact hn'

theorem nextChar_size_le {iter : List Nat} (h : iter ≠ []) : (nextChar iter).1 ≤ iter.length := by
  rcases nextChar_cases iter with ⟨c, t, hc, rfl, hv⟩ | ⟨-, hn⟩
  · rw [nextChar_encoded hc hv, List.length_append]
    exact Nat.le_add_right _ _
  · rw [hn]
    exact List.length_pos_iff.2 h

theorem nextChar_take {line : List Nat} {n : Nat} (h : (nextChar line).1 ≤ n) (hl : line ≠ []) :
    nextChar (line.take n) = nextChar line := by
  have hlen := nextChar_size_le hl
  have happ := @nextChar_of_append (line.take n) (line.drop n)
  rw [List.take_append_drop] at happ
  exact happ (by rw [List.length_take]; exact le_min h hlen)

theorem Chars.le_length {line : List Nat} {p u : Nat} (h : Chars line p u) : p ≤ line.length := by
  induction h with
  | nil => exact Nat.zero_le _
  | @cons line p u h _ ih =>
    have := nextChar_size_le h
    rw [List.length_drop] at ih
    omega

/-- The units of a prefix of a line are those of its characters. -/
theorem Chars.utf16LenLoop_eq {line : List Nat} {p u : Nat} (h : Chars line p u) {fuel : Nat}
    (hf : p ≤ fuel) (n : Nat) : utf16LenLoop fuel (line.take p) n = n + u := by
  induction h generalizing fuel n with
  | nil =>
    rw [List.take_zero]
    cases fuel <;> rfl
  | @cons line p u hl _ ih =>
    have hpos := nextChar_size_pos line
    cases fuel with
    | zero => omega
    | succ fuel =>
      have htake : line.take ((nextChar line).1 + p) ≠ [] := by
        rw [Ne, List.take_eq_nil_iff]
        rintro (h | h)
        · omega
        · exact hl h
      rw [utf16LenLoop, if_neg htake, nextChar_take (Nat.le_add_right _ _) hl, List.drop_take,
        Nat.add_sub_cancel_left, ih (by omega), Nat.add_assoc]

theorem Chars.utf16Len_eq {line : List Nat} {p u : Nat} (h : Chars line p u) :
    utf16Len (line.take p) = u := by
  have hlen : (line.take p).length = p := List.length_take_of_le h.le_length
  rw [utf16Len, hlen, h.utf16LenLoop_eq (Nat.le_refl p), Nat.zero_add]

/-- Counting the units of the characters again consumes the same bytes. -/
theorem Chars.countLoop_eq {line : List Nat} {p u : Nat} (h : Chars line p u) {fuel : Nat}
    (hf : p ≤ fuel) (i : Nat) : countLoop (i + u) fuel line i = p := by
  induction h generalizing fuel i with
  | nil line =>
    cases fuel with
    | zero => rfl
    | succ fuel =>
      rw [countLoop, if_neg]
      exact fun h => Nat.lt_irrefl _ h.1
  | @cons line p u hl _ ih =>
    have hpos := nextChar_size_pos line
    have hunits := nextChar_units_pos line
    cases fuel with
    | zero => omega
    | succ fuel =>
      rw [countLoop, if_pos ⟨by omega, hl⟩, ← Nat.add_assoc, ih (by omega)]

/-- More characters have more units. -/
theorem Chars.units_lt {line : List Nat} {p q u v : Nat} (h : Chars line p u)
    (h' : Chars line q v) (hlt : p < q) : u < v := by
  induction h generalizing q v with
  | nil line =>
    cases h' with
    | nil => omega
    | cons =>
      have := nextChar_units_pos line
      omega
  | @cons line p u hl _ ih =>
    cases h' with
    | nil => omega
    | cons _ hc =>
      have := ih hc (by omega)
      omega

/-- No character goes over a newline. -/
theorem exists_chars_newline {l : List Nat} {m : Nat} (h : l[m]? = some 10) :
    ∃ u, Chars l m u := by
  induction m using Nat.strong_induction_on generalizing l with
  | _ m ih =>
    rcases Nat.eq_zero_or_pos m with rfl | hm
    · exact ⟨0, .nil l⟩
    have hline : l ≠ [] := by
      rintro rfl
      cases h
    have hle : (nextChar l).1 ≤ m := by
      rcases nextChar_cases l with ⟨c, t, hc, rfl, hv⟩ | ⟨-, hn⟩
      · rw [nextChar_encoded hc hv]
        by_contra hlt
        rw [Nat.not_le] at hlt
        obtain ⟨b, bs, he, -, -, hbs⟩ := codePointToUtf8_shape hc
        rw [List.getElem?_append_left hlt, he] at h
        obtain ⟨m, rfl⟩ := Nat.exists_eq_succ_of_ne_zero hm.ne'
        have hfollow := hbs 10 (List.mem_of_getElem? h)
        exact absurd hfollow.2.1 (by decide)
      · rw [hn]
        exact hm
    have hpos := nextChar_size_pos l
    have hdrop : (l.drop (nextChar l).1)[m - (nextChar l).1]? = some 10 := by
      rw [List.getElem?_drop, Nat.add_sub_cancel' hle, h]
    obtain ⟨u, hu⟩ := ih _ (by omega) hdrop
    have hcons := Chars.cons hline hu
    rw [Nat.add_sub_cancel' hle] at hcons
    exact ⟨_, hcons⟩

/-! ## Lines -/

/-- The newlines from `pos` on. -/
def newlines (content : List Nat) (pos : Nat) : List Nat :=
  (List.range' pos (content.length - pos)).filter fun i => content[i]? = some 10

theorem mem_newlines {content : List Nat} {pos i : Nat} :
    i ∈ newlines content pos ↔ pos ≤ i ∧ content[i]? = some 10 := by
  rw [newlines, List.mem_filter, List.mem_range'_1, decide_eq_true_eq]
  constructor
  · rintro ⟨⟨hle, -⟩, h⟩
    exact ⟨hle, h⟩
  · rintro ⟨hle, h⟩
    have hlt := (List.getElem?_eq_some_iff.1 h).1
    exact ⟨⟨hle, by omega⟩, h⟩

theorem newlines_pairwise (content : List Nat) (pos : Nat) :
    (newlines content pos).Pairwise (· < ·) :=
  List.Pairwise.filter _ (List.pairwise_lt_range' 1)

/-- Between `pos` and the newline `r` there is none. -/
structure NextNewline (content : List Nat) (pos r : Nat) : Prop where
  le : pos ≤ r
  newline : content[r]? = some 10
  none_between : ∀ i, pos ≤ i → i < r → content[i]? ≠ some 10

theorem newlines_eq_cons {content : List Nat} {pos r : Nat} (h : NextNewline content pos r) :
    newlines content pos = r :: newlines content (r + 1) := by
  have hlt := (List.getElem?_eq_some_iff.1 h.newline).1
  have hle := h.le
  have hsplit : content.length - pos = (r - pos) + (1 + (content.length - (r + 1))) := by omega
  have hr : pos + (r - pos) = r := Nat.add_sub_cancel' h.le
  unfold newlines
  rw [hsplit, ← List.range'_append_1, hr, ← List.range'_append_1, List.filter_append,
    List.filter_append]
  have hbefore : (List.range' pos (r - pos)).filter (fun i => content[i]? = some 10) = [] := by
    rw [List.filter_eq_nil_iff]
    intro i hi
    rw [List.mem_range'_1, hr] at hi
    rw [decide_eq_true_eq]
    exact h.none_between i hi.1 hi.2
  rw [hbefore, List.range'_one, List.filter_cons, if_pos (by rw [h.newline]; rfl)]
  rfl

theorem getElem?_takeWhile_length {l : List Nat} {p : Nat → Bool}
    (h : (l.takeWhile p).length < l.length) :
    ∃ a, l[(l.takeWhile p).length]? = some a ∧ p a = false := by
  induction l with
  | nil => cases h
  | cons a l ih =>
    rw [List.takeWhile_cons] at h ⊢
    cases hp : p a with
    | false => exact ⟨a, rfl, hp⟩
    | true =>
      rw [hp, if_pos rfl, List.length_cons, List.length_cons] at h
      obtain ⟨b, hb, hpb⟩ := ih (by omega)
      rw [if_pos rfl, List.length_cons, List.getElem?_cons_succ]
      exact ⟨b, hb, hpb⟩

theorem getElem?_of_lt_takeWhile {l : List Nat} {p : Nat → Bool} {j : Nat}
    (h : j < (l.takeWhile p).length) : ∃ a, l[j]? = some a ∧ p a = true := by
  have hget : (l.takeWhile p)[j]? = some (l.takeWhile p)[j] := List.getElem?_eq_getElem h
  obtain ⟨t, ht⟩ := List.takeWhile_prefix (l := l) p
  refine ⟨(l.takeWhile p)[j], ?_, List.mem_takeWhile_imp (List.getElem_mem h)⟩
  rw [← hget]
  conv_lhs => rw [← ht]
  exact List.getElem?_append_left h

/-- Before the next newline there is none. -/
theorem none_before_newline {content : List Nat} {pos i : Nat} (hle : pos ≤ i)
    (hi : i < pos + ((content.drop pos).takeWhile (· ≠ 10)).length) : content[i]? ≠ some 10 := by
  obtain ⟨j, rfl⟩ := Nat.exists_eq_add_of_le hle
  obtain ⟨a, ha, hp⟩ := getElem?_of_lt_takeWhile (Nat.lt_of_add_lt_add_left hi)
  rw [List.getElem?_drop] at ha
  rw [ha, Ne, Option.some.injEq]
  exact of_decide_eq_true hp

theorem findNewline_eq_some {content : List Nat} {pos r : Nat}
    (h : findNewline content pos = some r) : NextNewline content pos r := by
  unfold findNewline at h
  dsimp only at h
  split at h
  · next hlt =>
    obtain rfl := Option.some.inj h
    refine ⟨Nat.le_add_right _ _, ?_, fun i => none_before_newline⟩
    have hlt' : ((content.drop pos).takeWhile (· ≠ 10)).length < (content.drop pos).length := by
      rw [List.length_drop]
      omega
    obtain ⟨a, ha, hp⟩ := getElem?_takeWhile_length hlt'
    rw [List.getElem?_drop] at ha
    rw [ha, Decidable.not_not.1 (of_decide_eq_false hp)]
  · cases h

theorem findNewline_eq_none {content : List Nat} {pos : Nat}
    (h : findNewline content pos = none) : newlines content pos = [] := by
  rw [List.eq_nil_iff_forall_not_mem]
  intro i hi
  rw [mem_newlines] at hi
  have hlt := (List.getElem?_eq_some_iff.1 hi.2).1
  unfold findNewline at h
  dsimp only at h
  split at h
  · cases h
  · exact none_before_newline hi.1 (by omega) hi.2

/-- Skipping `count` lines ends after a newline. -/
theorem findLineStartLoop_eq (content : List Nat) {count pos : Nat}
    (h : count < (newlines content pos).length) :
    findLineStartLoop content (count + 1) pos = (newlines content pos)[count] + 1 := by
  induction count generalizing pos with
  | zero =>
    unfold findLineStartLoop
    split
    · next hn => simp only [findNewline_eq_none hn, List.length_nil, Nat.not_lt_zero] at h
    · next r hr =>
      simp only [newlines_eq_cons (findNewline_eq_some hr), List.getElem_cons_zero]
      rfl
  | succ count ih =>
    unfold findLineStartLoop
    split
    · next hn => simp only [findNewline_eq_none hn, List.length_nil, Nat.not_lt_zero] at h
    · next r hr =>
      simp only [newlines_eq_cons (findNewline_eq_some hr), List.getElem_cons_succ]
      rw [newlines_eq_cons (findNewline_eq_some hr), List.length_cons] at h
      exact ih (Nat.lt_of_succ_lt_succ h)

/-- The constructor puts the newlines into the table. -/
theorem addNewlines_eq {content : List Nat} (hc : content.length ≤ uint32Max) {fuel pos : Nat}
    {t : LineNumTable} (hf : content.length < pos + fuel) (ht : ∀ i ∈ t.table, i < pos) :
    addNewlines content fuel pos t = { t with table := t.table ++ newlines content pos } := by
  induction fuel generalizing pos t with
  | zero =>
    have hnil : newlines content pos = [] := by
      rw [List.eq_nil_iff_forall_not_mem]
      intro i hi
      rw [mem_newlines] at hi
      have hlt := (List.getElem?_eq_some_iff.1 hi.2).1
      omega
    rw [addNewlines, hnil, List.append_nil]
  | succ fuel ih =>
    unfold addNewlines
    split
    · next hn => rw [findNewline_eq_none hn, List.append_nil]
    · next r hr =>
      have hnext := findNewline_eq_some hr
      have hlt := (List.getElem?_eq_some_iff.1 hnext.newline).1
      have hle := hnext.le
      have hadd : t.addNewlinePos (r % (uint32Max + 1)) = { t with table := t.table ++ [r] } := by
        rw [Nat.mod_eq_of_lt (by omega), LineNumTable.addNewlinePos, if_pos]
        by_cases hnil : t.table = []
        · exact .inl hnil
        · right
          rw [List.getLastD_eq_getLast?, List.getLast?_eq_some_getLast hnil]
          exact (ht _ (List.getLast_mem hnil)).trans_le hle
      rw [hadd, ih (by omega), newlines_eq_cons hnext, List.append_assoc]
      · rfl
      · intro i hi
        rcases List.mem_append.1 hi with hi | hi
        · exact (ht i hi).trans_le (by omega)
        · rw [List.mem_singleton.1 hi]
          exact Nat.lt_succ_self r

theorem getLast?_new (path : List Nat) (srcId : Nat) (content : List Nat) (version : Int)
    (attr : Nat) : (Source.new path srcId content version attr).content.getLast? = some 10 := by
  unfold Source.new
  dsimp only
  split
  · exact List.getLast?_concat
  · next h => exact Decidable.not_not.1 fun hne => h (.inr hne)

/-- A source as its constructor makes it. -/
def Source.Built (s : Source) : Prop :=
  ∃ content, s = Source.new s.path s.srcId content s.version s.attr

theorem Source.Built.table {s : Source} (h : s.Built) (hc : s.content.length ≤ uint32Max) :
    s.lineNumTable = ⟨0, newlines s.content 0⟩ := by
  obtain ⟨content, h⟩ := h
  have ht : s.lineNumTable = addNewlines s.content (s.content.length + 1) 0 ⟨0, []⟩ := by
    rw [h]
    rfl
  rw [ht, addNewlines_eq hc (by omega)]
  · rfl
  · intro i hi
    cases hi

/-- The characters of the line that begins at `start`, its newline included. -/
def lineAt (content : List Nat) (start : Nat) : List Nat :=
  (content.drop start).take (((content.drop start).takeWhile (· ≠ 10)).length + 1)

/-- The offset `pos` is on the line that begins at `start`. -/
structure OnLine (content : List Nat) (start pos : Nat) : Prop where
  le : start ≤ pos
  begins : start = 0 ∨ content[start - 1]? = some 10
  same : ∀ i, start ≤ i → i < pos → content[i]? ≠ some 10

theorem OnLine.unique {content : List Nat} {start start' pos : Nat}
    (h : OnLine content start pos) (h' : OnLine content start' pos) : start = start' := by
  have hle := h.le
  have hle' := h'.le
  rcases Nat.lt_trichotomy start start' with hlt | rfl | hlt
  · rcases h'.begins with h0 | hb
    · omega
    · exact absurd hb (h.same _ (by omega) (by omega))
  · rfl
  · rcases h.begins with h0 | hb
    · omega
    · exact absurd hb (h'.same _ (by omega) (by omega))

theorem OnLine.sub_le {content : List Nat} {start pos : Nat} (h : OnLine content start pos)
    (hpos : pos < content.length) :
    pos - start ≤ ((content.drop start).takeWhile (· ≠ 10)).length := by
  have hle := h.le
  by_contra hlt
  have hlt' : ((content.drop start).takeWhile (· ≠ 10)).length < (content.drop start).length := by
    rw [List.length_drop]
    omega
  obtain ⟨a, ha, hp⟩ := getElem?_takeWhile_length hlt'
  rw [List.getElem?_drop, Decidable.not_not.1 (of_decide_eq_false hp)] at ha
  exact h.same _ (Nat.le_add_right _ _) (by omega) ha

/-- The text of a line up to `pos` is a prefix of the line. -/
theorem OnLine.take_lineAt {content : List Nat} {start pos : Nat} (h : OnLine content start pos)
    (hpos : pos < content.length) :
    (lineAt content start).take (pos - start) = (content.drop start).take (pos - start) := by
  have hle := h.sub_le hpos
  rw [lineAt, List.take_take, min_eq_left (by omega)]

theorem OnLine.getElem?_lineAt {content : List Nat} {start pos : Nat}
    (h : OnLine content start pos) (hpos : pos < content.length) :
    (lineAt content start)[pos - start]? = content[pos]? := by
  have hle := h.sub_le hpos
  rw [lineAt, List.getElem?_take_of_lt (by omega), List.getElem?_drop,
    Nat.add_sub_cancel' h.le]

/-- The newlines before an offset. -/
def lineNumber (content : List Nat) (pos : Nat) : Nat :=
  ((newlines content 0).takeWhile (· < pos)).length

theorem lineNumber_le_length (content : List Nat) (pos : Nat) :
    lineNumber content pos ≤ (newlines content 0).length :=
  (List.takeWhile_sublist _).length_le

theorem newline_le {content : List Nat} {i j : Nat} (hij : i ≤ j)
    (hi : i < (newlines content 0).length) (hj : j < (newlines content 0).length) :
    (newlines content 0)[i] ≤ (newlines content 0)[j] := by
  rcases Nat.eq_or_lt_of_le hij with rfl | hlt
  · exact Nat.le_refl _
  · exact (List.pairwise_iff_getElem.1 (newlines_pairwise content 0) i j _ hj hlt).le

theorem newline_lt_of_lt_lineNumber {content : List Nat} {pos j : Nat}
    (h : j < lineNumber content pos) (hj : j < (newlines content 0).length) :
    (newlines content 0)[j] < pos := by
  obtain ⟨a, ha, hp⟩ := getElem?_of_lt_takeWhile h
  rw [List.getElem?_eq_getElem hj, Option.some.injEq] at ha
  rw [ha]
  exact of_decide_eq_true hp

/-- A newline before the offset is one of those that are counted. -/
theorem exists_lt_lineNumber {content : List Nat} {pos i : Nat} (h : content[i]? = some 10)
    (hi : i < pos) : ∃ j, ∃ hj : j < (newlines content 0).length,
      j < lineNumber content pos ∧ (newlines content 0)[j] = i := by
  obtain ⟨j, hj, rfl⟩ := List.getElem_of_mem (mem_newlines.2 ⟨Nat.zero_le i, h⟩)
  refine ⟨j, hj, ?_, rfl⟩
  by_contra hle
  rw [Nat.not_lt] at hle
  obtain ⟨a, ha, hp⟩ := getElem?_takeWhile_length (hle.trans_lt hj)
  have ha' : (newlines content 0)[lineNumber content pos]? = some a := ha
  rw [List.getElem?_eq_getElem (hle.trans_lt hj), Option.some.injEq] at ha'
  have hle' := newline_le hle (hle.trans_lt hj) hj
  rw [ha'] at hle'
  have := of_decide_eq_false hp
  omega

/-- Skipping as many lines as there are newlines before the offset ends on its line. -/
theorem onLine_findLineStartPos (content : List Nat) (pos : Nat) :
    OnLine content (findLineStartPos content (lineNumber content pos)) pos := by
  unfold findLineStartPos
  cases hn : lineNumber content pos with
  | zero =>
    refine ⟨Nat.zero_le pos, .inl rfl, fun i _ hi h => ?_⟩
    obtain ⟨j, -, hj, -⟩ := exists_lt_lineNumber h hi
    omega
  | succ m =>
    have hm : m < lineNumber content pos := by omega
    have hlen : m < (newlines content 0).length :=
      hm.trans_le (lineNumber_le_length content pos)
    rw [findLineStartLoop_eq content hlen]
    refine ⟨newline_lt_of_lt_lineNumber hm hlen, .inr ?_, fun i hle hi h => ?_⟩
    · exact (mem_newlines.1 (List.getElem_mem hlen)).2
    · obtain ⟨j, hj, hlt, rfl⟩ := exists_lt_lineNumber h hi
      have hjm : j ≤ m := by omega
      have := newline_le hjm hj hlen
      omega

/-- The table has the number of the line. -/
theorem lookup_newlines (content : List Nat) (pos : Nat) :
    (⟨0, newlines content 0⟩ : LineNumTable).lookup pos = lineNumber content pos := by
  have hlower : (⟨0, newlines content 0⟩ : LineNumTable).lowerBound pos
      = lineNumber content pos := rfl
  rw [LineNumTable.lookup, hlower]
  split
  · next h => exact h.symm
  · exact Nat.add_zero _

/-- The table has the start of a line. -/
theorem getNewlinePos_newlines {content : List Nat} {c : Nat}
    (h : c ≤ (newlines content 0).length) :
    (if 0 < c then (⟨0, newlines content 0⟩ : LineNumTable).getNewlinePos (c - 1) + 1 else 0)
      = findLineStartPos content c := by
  cases c with
  | zero => rfl
  | succ m =>
    rw [if_pos (Nat.succ_pos m), findLineStartPos, findLineStartLoop_eq content h,
      LineNumTable.getNewlinePos, Nat.add_sub_cancel, Nat.sub_zero, List.getD_eq_getElem _ _ h]

/-! ## The round trip -/

/-- An offset at which a character of its line begins. -/
def Boundary (content : List Nat) (pos : Nat) : Prop :=
  pos < content.length ∧ ∃ start u, OnLine content start pos ∧
    Chars (lineAt content start) (pos - start) u

/-- The order of positions. -/
def Position.lt (p q : Position) : Prop :=
  p.line < q.line ∨ p.line = q.line ∧ p.character < q.character

/-- What `toPosition` says of an offset at which a character begins. -/
theorem toPosition_eq {s : Source} (hs : s.Built) {pos u : Nat} (hp : pos < s.content.length)
    (hu : Chars (lineAt s.content (findLineStartPos s.content (lineNumber s.content pos)))
      (pos - findLineStartPos s.content (lineNumber s.content pos)) u) :
    s.toPosition pos =
      if uint32Max < s.content.length ∨ int32Max < lineNumber s.content pos ∨ int32Max < u
      then none else some ⟨lineNumber s.content pos, u⟩ := by
  unfold Source.toPosition
  split
  · next h => rw [if_pos (.inl h)]
  · next h =>
    have hmin : min (s.content.length - 1) pos = pos := by omega
    dsimp only
    rw [hs.table (Nat.le_of_not_lt h), hmin, lookup_newlines,
      getNewlinePos_newlines (lineNumber_le_length _ _)]
    have honline := onLine_findLineStartPos s.content pos
    rw [← honline.take_lineAt hp, hu.utf16Len_eq]
    simp only [h, false_or]

theorem Boundary.chars {content : List Nat} {pos : Nat} (h : Boundary content pos) :
    ∃ u, Chars (lineAt content (findLineStartPos content (lineNumber content pos)))
      (pos - findLineStartPos content (lineNumber content pos)) u := by
  obtain ⟨-, start, u, hline, hu⟩ := h
  rw [hline.unique (onLine_findLineStartPos content pos)] at hu
  exact ⟨u, hu⟩

theorem count_eq (content : List Nat) (start u : Nat) :
    count content start u
      = start + countLoop u (lineAt content start).length (lineAt content start) 0 := by
  unfold count lineAt
  dsimp only
  rw [Nat.add_assoc, Nat.add_sub_cancel_left]

/-- Scanning to the line and counting the units ends at the offset. -/
theorem toTokenPos_eq {content : List Nat} {pos u : Nat} (hp : pos < content.length)
    (hc : content.length ≤ uint32Max)
    (hu : Chars (lineAt content (findLineStartPos content (lineNumber content pos)))
      (pos - findLineStartPos content (lineNumber content pos)) u) :
    toTokenPos content ⟨lineNumber content pos, u⟩ = some pos := by
  have hle := (onLine_findLineStartPos content pos).le
  have hcount := hu.countLoop_eq hu.le_length 0
  rw [Nat.zero_add] at hcount
  have hguard : ¬((lineNumber content pos : Int) < 0 ∨ (u : Int) < 0 ∨
      uint32Max < content.length) := by omega
  unfold toTokenPos
  rw [if_neg hguard]
  dsimp only
  rw [Int.toNat_natCast, Int.toNat_natCast, count_eq, hcount, Nat.add_sub_cancel' hle,
    if_neg (by omega)]

theorem lineNumber_mono {content : List Nat} {p q : Nat} (h : p ≤ q) :
    lineNumber content p ≤ lineNumber content q := by
  by_contra hlt
  rw [Nat.not_le] at hlt
  have hlen := hlt.trans_le (lineNumber_le_length content p)
  have hnew := newline_lt_of_lt_lineNumber hlt hlen
  obtain ⟨j, hj, hjq, hjeq⟩ := exists_lt_lineNumber
    (mem_newlines.1 (List.getElem_mem hlen)).2 (hnew.trans_le h)
  have hpair := List.pairwise_iff_getElem.1 (newlines_pairwise content 0) j _ hj hlen hjq
  omega

theorem Position.lt_irrefl {p : Position} : ¬p.lt p := by
  unfold Position.lt
  omega

theorem Position.lt.asymm {p q : Position} (h : p.lt q) : ¬q.lt p := by
  unfold Position.lt at *
  omega

/-- A later character has a later position. -/
theorem toPosition_lt {s : Source} (hs : s.Built) {p q : Nat} {P Q : Position} (hlt : p < q)
    (hp : Boundary s.content p) (hq : Boundary s.content q) (hP : s.toPosition p = some P)
    (hQ : s.toPosition q = some Q) : P.lt Q := by
  obtain ⟨u, hu⟩ := hp.chars
  obtain ⟨v, hv⟩ := hq.chars
  rw [toPosition_eq hs hp.1 hu] at hP
  rw [toPosition_eq hs hq.1 hv] at hQ
  split at hP
  · cases hP
  split at hQ
  · cases hQ
  cases hP
  cases hQ
  have hmono := @lineNumber_mono s.content p q hlt.le
  rcases Nat.lt_or_eq_of_le hmono with hline | hline
  · exact .inl (Int.ofNat_lt.2 hline)
  · rw [← hline] at hv
    refine .inr ⟨congrArg Int.ofNat hline, Int.ofNat_lt.2 (hu.units_lt hv ?_)⟩
    have := (onLine_findLineStartPos s.content p).le
    omega

/-- The last newline begins a character. -/
theorem boundary_last {s : Source} (hs : s.Built) :
    0 < s.content.length ∧ Boundary s.content (s.content.length - 1) := by
  obtain ⟨content, hs⟩ := hs
  have hlast : s.content.getLast? = some 10 := by
    rw [hs]
    exact getLast?_new _ _ _ _ _
  have hpos : 0 < s.content.length := by
    rw [List.length_pos_iff]
    intro hnil
    rw [hnil] at hlast
    cases hlast
  rw [List.getLast?_eq_getElem?] at hlast
  have hline := onLine_findLineStartPos s.content (s.content.length - 1)
  obtain ⟨u, hu⟩ := exists_chars_newline ((hline.getElem?_lineAt (by omega)).trans hlast)
  exact ⟨hpos, by omega, _, u, hline, hu⟩

/-- An end of a token: an offset at which a character begins, or the end of the text. -/
def TokenEnd (content : List Nat) (pos : Nat) : Prop :=
  Boundary content pos ∨ pos = content.length

/-- The end of the text has the position of the last newline. -/
theorem TokenEnd.toPosition {s : Source} (hs : s.Built) {pos : Nat}
    (h : TokenEnd s.content pos) :
    Boundary s.content (min (s.content.length - 1) pos) ∧
      s.toPosition pos = s.toPosition (min (s.content.length - 1) pos) := by
  obtain ⟨hlen, hlast⟩ := boundary_last hs
  refine ⟨?_, ?_⟩
  · rcases h with h | rfl
    · have hlt := h.1
      rwa [min_eq_right (by omega)]
    · rwa [min_eq_left (by omega)]
  · unfold Source.toPosition
    rw [← min_assoc, min_self]

theorem toPosition_mono {s : Source} (hs : s.Built) {p q : Nat} {P Q : Position} (hle : p ≤ q)
    (hp : TokenEnd s.content p) (hq : TokenEnd s.content q) (hP : s.toPosition p = some P)
    (hQ : s.toPosition q = some Q) : ¬Q.lt P := by
  obtain ⟨hbp, hpos⟩ := hp.toPosition hs
  obtain ⟨hbq, hpos'⟩ := hq.toPosition hs
  rw [hpos] at hP
  rw [hpos'] at hQ
  rcases Nat.lt_or_eq_of_le (min_le_min_left (s.content.length - 1) hle) with hlt | heq
  · exact (toPosition_lt hs hlt hbp hbq hP hQ).asymm
  · rw [heq, hQ] at hP
    cases hP
    exact Position.lt_irrefl

theorem toPosition_none_iff {s : Source} (hs : s.Built) {pos start u : Nat}
    (hp : pos < s.content.length) (hline : OnLine s.content start pos)
    (hu : Chars (lineAt s.content start) (pos - start) u) :
    s.toPosition pos = none ↔ uint32Max < s.content.length ∨
      int32Max < lineNumber s.content pos ∨ int32Max < u := by
  rw [hline.unique (onLine_findLineStartPos s.content pos)] at hu
  rw [toPosition_eq hs hp hu]
  split
  · next h => exact iff_of_true rfl h
  · next h => exact iff_of_false (Option.some_ne_none _) h

theorem toTokenPos_toPosition {s : Source} (hs : s.Built) {pos : Nat} {p : Position}
    (h : Boundary s.content pos) (hp : s.toPosition pos = some p) :
    toTokenPos s.content p = some pos := by
  obtain ⟨u, hu⟩ := h.chars
  rw [toPosition_eq hs h.1 hu] at hp
  split at hp
  · cases hp
  · next hc =>
    cases hp
    exact toTokenPos_eq h.1 (by omega) hu

theorem toRange_stop_le_start {s : Source} (hs : s.Built) {t t' : Token} {r r' : Range}
    (h : t.pos + t.size ≤ t'.pos) (hend : TokenEnd s.content (t.pos + t.size))
    (hpos : TokenEnd s.content t'.pos) (hr : s.toRange t = some r) (hr' : s.toRange t' = some r') :
    ¬r'.start.lt r.stop := by
  unfold Source.toRange at hr hr'
  split at hr
  · next hstop =>
    split at hr'
    · next hstart' _ =>
      cases hr
      cases hr'
      exact toPosition_mono hs h hend hpos hstop hstart'
    · cases hr'
  · cases hr

/-- The offset at which a character begins is got back from its position, when it has one; the
positions have the order of the offsets, and ranges of tokens that do not overlap do not overlap. -/
theorem built_positions {s : Source} (hs : s.Built) :
    (∀ pos start u, pos < s.content.length → OnLine s.content start pos →
      Chars (lineAt s.content start) (pos - start) u →
      (s.toPosition pos = none ↔ uint32Max < s.content.length ∨
        int32Max < lineNumber s.content pos ∨ int32Max < u) ∧
      ∀ p, s.toPosition pos = some p → toTokenPos s.content p = some pos) ∧
    (∀ pos pos' p p', pos < pos' → Boundary s.content pos → Boundary s.content pos' →
      s.toPosition pos = some p → s.toPosition pos' = some p' → p.lt p') ∧
    ∀ t t' r r', t.pos + t.size ≤ t'.pos → TokenEnd s.content (t.pos + t.size) →
      TokenEnd s.content t'.pos → s.toRange t = some r → s.toRange t' = some r' →
      ¬r'.start.lt r.stop := by
  refine ⟨?_, ?_, ?_⟩
  · intro pos start u hp hline hu
    exact ⟨toPosition_none_iff hs hp hline hu,
      fun p => toTokenPos_toPosition hs ⟨hp, start, u, hline, hu⟩⟩
  · intro pos pos' p p' hlt h h' hp hp'
    exact toPosition_lt hs hlt h h' hp hp'
  · intro t t' r r' h hend hpos hr hr'
    exact toRange_stop_le_start hs h hend hpos hr hr'

/-- The second of the characters `é` and `x`, which are not at the same byte and unit. -/
theorem built_positions_x : toTokenPos [0xC3, 0xA9, 120, 10] ⟨0, 1⟩ = some 2 := by
  have hline : OnLine [0xC3, 0xA9, 120, 10] 0 2 := by
    refine ⟨Nat.zero_le 2, .inl rfl, fun i _ hi => ?_⟩
    have hi' : i = 0 ∨ i = 1 := by omega
    rcases hi' with rfl | rfl <;> decide
  have hchars : Chars (lineAt [0xC3, 0xA9, 120, 10] 0) 2 1 :=
    .cons (by decide) (.nil _)
  have hbuilt : (Source.new [47] 1 [0xC3, 0xA9, 120] 0 0).Built := ⟨_, rfl⟩
  exact ((built_positions hbuilt).1 2 0 1 (by decide) hline hchars).2 ⟨0, 1⟩ (by decide)

theorem content_replicate (n : Nat) :
    (Source.new [47] 1 (List.replicate (n + 1) 10) 0 0).content = List.replicate (n + 1) 10 := by
  unfold Source.new
  dsimp only
  rw [if_neg]
  rintro (h | h)
  · cases h
  · exact h (by rw [List.replicate_succ', List.getLast?_concat])

/-- A text that is too long has characters without a position. -/
theorem toPosition_too_long : ∃ s : Source, s.Built ∧ Boundary s.content 0 ∧
    ¬∃ p, s.toPosition 0 = some p ∧ toTokenPos s.content p = some 0 := by
  refine ⟨.new [47] 1 (List.replicate (uint32Max + 1) 10) 0 0, ⟨_, rfl⟩, ?_, ?_⟩
  · rw [content_replicate]
    refine ⟨?_, 0, 0, ⟨Nat.le_refl 0, .inl rfl, fun i _ hi => absurd hi (Nat.not_lt_zero i)⟩,
      .nil _⟩
    rw [List.length_replicate]
    exact Nat.succ_pos _
  · rintro ⟨p, hp, -⟩
    unfold Source.toPosition at hp
    rw [content_replicate, List.length_replicate, if_pos (Nat.lt_succ_self _)] at hp
    cases hp

end Arsh.Lsp
