import Arsh.Lib.Captures

/-!
# The grammar of URIs

The rule `uri` of `uri_parser.re2c.cpp` with its tags. No component has the symbol that the next one
begins with, so a URI has its components in one way only (`uri_unambiguous`).
-/

namespace Arsh.Uri

open Lexer

abbrev Bytes := List Nat

/-! ## The source -/

/-- The pairs of tags. -/
inductive Tag where
  | scheme
  | userInfo
  | host
  | port
  | path01
  | path23
  | query
  | fragment
  deriving DecidableEq, Repr

def text (w : List Char) : Re Nat := .lit (w.map Char.toNat)

def isAlpha (c : Nat) : Bool := (97 ≤ c && c ≤ 122) || (65 ≤ c && c ≤ 90)

def isDigit (c : Nat) : Bool := 48 ≤ c && c ≤ 57

def isHexdig (c : Nat) : Bool := isDigit c || (97 ≤ c && c ≤ 102) || (65 ≤ c && c ≤ 70)

/-- `[!$&'()*+,;=]`. -/
def isSubDelim (c : Nat) : Bool := [33, 36, 38, 39, 40, 41, 42, 43, 44, 59, 61].contains c

/-- `ALPHA | DIGIT | [-._~]`. -/
def isUnreserved (c : Nat) : Bool := isAlpha c || isDigit c || [45, 46, 95, 126].contains c

def digit : Re Nat := .set isDigit

def hexdig : Re Nat := .set isHexdig

def pctEncoded : Re Nat := .cat (text ['%']) (.cat hexdig hexdig)

def subDelims : Re Nat := .set isSubDelim

def unreserved : Re Nat := .set isUnreserved

/-- `unreserved | pct_encoded | sub_delims`. -/
def regChar : Re Nat := .alt unreserved (.alt pctEncoded subDelims)

def pchar : Re Nat := .alt regChar (.alt (text [':']) (text ['@']))

def scheme : Re Nat :=
  .cat (.set isAlpha) (.star (.set fun c => isAlpha c || isDigit c || [43, 45, 46].contains c))

def userInfo : Re Nat := .star (.alt regChar (text [':']))

def port : Re Nat := .star digit

def range (lo hi : Char) : Re Nat := .set fun c => lo.toNat ≤ c && c ≤ hi.toNat

def decOctet : Re Nat :=
  .alt digit <|
  .alt (.cat (range '1' '9') digit) <|
  .alt (.cat (text ['1']) (digit.times 2)) <|
  .alt (.cat (text ['2']) (.cat (range '0' '4') digit)) <|
  .cat (text ['2', '5']) (range '0' '5')

def ipv4Address : Re Nat :=
  .cat decOctet <| .cat (text ['.']) <| .cat decOctet <| .cat (text ['.']) <|
  .cat decOctet <| .cat (text ['.']) decOctet

def ipvFuture : Re Nat :=
  .cat (text ['v']) <| .cat hexdig.plus <| .cat (text ['.'])
    (Re.plus (.alt unreserved (.alt subDelims (text [':']))))

def h16 : Re Nat := .cat hexdig (hexdig.upTo 3)

/-- `h16 ":"`. -/
def h16Colon : Re Nat := .cat h16 (text [':'])

def ls32 : Re Nat := .alt (.cat h16Colon h16) ipv4Address

/-- `((h16 ":"){0,n} h16)?`. -/
def before (n : Nat) : Re Nat := Re.opt (.cat (h16Colon.upTo n) h16)

def ipv6Address : Re Nat :=
  .alt (.cat (h16Colon.times 6) ls32) <|
  .alt (.cat (text [':', ':']) (.cat (h16Colon.times 5) ls32)) <|
  .alt (.cat h16.opt (.cat (text [':', ':']) (.cat (h16Colon.times 4) ls32))) <|
  .alt (.cat (before 1) (.cat (text [':', ':']) (.cat (h16Colon.times 3) ls32))) <|
  .alt (.cat (before 2) (.cat (text [':', ':']) (.cat (h16Colon.times 2) ls32))) <|
  .alt (.cat (before 3) (.cat (text [':', ':']) (.cat h16Colon ls32))) <|
  .alt (.cat (before 4) (.cat (text [':', ':']) ls32)) <|
  .alt (.cat (before 5) (.cat (text [':', ':']) h16)) <|
  .cat (before 6) (text [':', ':'])

def ipLiteral : Re Nat := .cat (text ['[']) (.cat (.alt ipv6Address ipvFuture) (text [']']))

def regName : Re Nat := .star regChar

def host : Re Nat := .alt ipLiteral (.alt ipv4Address regName)

def authority : Tre Nat Tag :=
  .cat (.opt (.cat (.group .userInfo userInfo) (.re (text ['@'])))) <|
  .cat (.group .host host) (.opt (.cat (.re (text [':'])) (.group .port port)))

def segment : Re Nat := .star pchar

def segmentNz : Re Nat := pchar.plus

def pathAbempty : Re Nat := .star (.cat (text ['/']) segment)

def pathAbsolute : Re Nat := .cat (text ['/']) (Re.opt (.cat segmentNz pathAbempty))

def pathRootless : Re Nat := .cat segmentNz pathAbempty

def pathEmpty : Re Nat := .eps

def hierPart : Tre Nat Tag :=
  .alt (.cat (.re (text ['/', '/'])) (.cat authority (.group .path01 pathAbempty)))
    (.group .path23 (.alt pathAbsolute (.alt pathRootless pathEmpty)))

def query : Re Nat := .star (.alt pchar (.alt (text ['/']) (text ['?'])))

def fragment : Re Nat := .star (.alt pchar (.alt (text ['/']) (text ['?'])))

def uri : Tre Nat Tag :=
  .cat (.group .scheme scheme) <| .cat (.re (text [':'])) <| .cat hierPart <|
  .cat (.opt (.cat (.re (text ['?'])) (.group .query query)))
    (.opt (.cat (.re (text ['#'])) (.group .fragment fragment)))

/-! ## The symbols of the components -/

/-- No general delimiter. -/
def Plain (c : Nat) : Prop :=
  c ≠ 35 ∧ c ≠ 47 ∧ c ≠ 58 ∧ c ≠ 63 ∧ c ≠ 64 ∧ c ≠ 91 ∧ c ≠ 93

instance : DecidablePred Plain := fun c => by
  unfold Plain
  infer_instance

section
variable {p : Nat → Prop} {c : Nat} {w : List Nat}

/-- A class is plain if no delimiter is in it. -/
theorem set_over {f : Nat → Bool} (h : ∀ d ∈ [35, 47, 58, 63, 64, 91, 93], f d = false) :
    (Re.set f).Over Plain := fun c hc => by
  have hne : ∀ d ∈ [35, 47, 58, 63, 64, 91, 93], c ≠ d := by
    rintro d hd rfl
    rw [h c hd] at hc
    cases hc
  unfold Plain
  simpa using hne

theorem digit_over : digit.Over Plain := set_over (by decide)

theorem hexdig_over : hexdig.Over Plain := set_over (by decide)

theorem text_over {w : List Char} (h : ∀ c ∈ w.map Char.toNat, p c) : (text w).Over p :=
  Re.over_lit h

theorem pctEncoded_over : pctEncoded.Over Plain :=
  ⟨text_over (by decide), hexdig_over, hexdig_over⟩

theorem unreserved_over : unreserved.Over Plain := set_over (by decide)

theorem subDelims_over : subDelims.Over Plain := set_over (by decide)

theorem regChar_over : regChar.Over Plain := ⟨unreserved_over, pctEncoded_over, subDelims_over⟩

theorem decOctet_over : decOctet.Over Plain :=
  ⟨digit_over, ⟨set_over (by decide), digit_over⟩,
    ⟨text_over (by decide), digit_over.times 2⟩,
    ⟨text_over (by decide), set_over (by decide), digit_over⟩,
    text_over (by decide), set_over (by decide)⟩

theorem ipv4Address_over : ipv4Address.Over Plain :=
  ⟨decOctet_over, text_over (by decide), decOctet_over, text_over (by decide), decOctet_over,
    text_over (by decide), decOctet_over⟩

theorem regName_over : regName.Over Plain := regChar_over

/-- Plain symbols and the colon, as between the brackets of an address. -/
def ColonOr (c : Nat) : Prop := c = 58 ∨ Plain c

instance : DecidablePred ColonOr := fun c => by
  unfold ColonOr
  infer_instance

theorem colonOr_over {r : Re Nat} (h : r.Over Plain) : r.Over ColonOr := h.mono fun _ => .inr

theorem h16_over : h16.Over ColonOr := colonOr_over ⟨hexdig_over, hexdig_over.upTo 3⟩

theorem h16Colon_over : h16Colon.Over ColonOr := ⟨h16_over, text_over (by decide)⟩

theorem ls32_over : ls32.Over ColonOr := ⟨⟨h16Colon_over, h16_over⟩, colonOr_over ipv4Address_over⟩

theorem before_over (n : Nat) : (before n).Over ColonOr :=
  Re.Over.opt ⟨h16Colon_over.upTo n, h16_over⟩

theorem colons_over : (text [':', ':']).Over ColonOr := text_over (by decide)

theorem ipv6Address_over : ipv6Address.Over ColonOr :=
  ⟨⟨h16Colon_over.times 6, ls32_over⟩, ⟨colons_over, h16Colon_over.times 5, ls32_over⟩,
    ⟨h16_over.opt, colons_over, h16Colon_over.times 4, ls32_over⟩,
    ⟨before_over 1, colons_over, h16Colon_over.times 3, ls32_over⟩,
    ⟨before_over 2, colons_over, h16Colon_over.times 2, ls32_over⟩,
    ⟨before_over 3, colons_over, h16Colon_over, ls32_over⟩, ⟨before_over 4, colons_over, ls32_over⟩,
    ⟨before_over 5, colons_over, h16_over⟩, before_over 6, colons_over⟩

theorem ipvFuture_over : ipvFuture.Over ColonOr :=
  ⟨text_over (by decide), Re.Over.plus (colonOr_over hexdig_over), text_over (by decide),
    Re.Over.plus ⟨colonOr_over unreserved_over, colonOr_over subDelims_over, text_over (by decide)⟩⟩

/-! ## One way to match -/

theorem nil_notMem {r : Re Nat} (h : r.nullable = false) : [] ∉ r.lang := fun hm => by
  rw [Re.nullable_iff.2 hm] at h
  cases h

theorem mem_text {t : List Char} : w ∈ (text t).lang ↔ w = t.map Char.toNat := Re.mem_lit

/-- A part that begins with a fixed symbol, if it is there. -/
theorem head_of_opt {ch : Char} {t : Tre Nat Tag}
    (h : w ∈ (Tre.opt (.cat (.re (text [ch])) t)).toRe.lang) : ∀ c ∈ w.head?, c = ch.toNat := by
  rcases Re.mem_alt.1 h with h | h
  · obtain ⟨u, hu, v, -, rfl⟩ := Re.mem_cat.1 h
    rw [mem_text.1 hu]
    simp
  · rw [Re.mem_eps.1 h]
    simp

theorem unambiguous_opt (ch : Char) {t : Tre Nat Tag} (ht : t.Unambiguous) :
    (Tre.opt (.cat (.re (text [ch])) t)).Unambiguous := by
  refine Tre.Unambiguous.opt ((Tre.unambiguous_re _).cat ht fun u u' _ _ hu hu' _ _ _ => ?_) ?_
  · rw [mem_text.1 hu, mem_text.1 hu']
  · intro h
    obtain ⟨u, hu, v, -, he⟩ := Re.mem_cat.1 h
    rw [mem_text.1 hu] at he
    cases he

/-- The tags `u0` and `u1`, and the symbol behind them. -/
def userPart : Tre Nat Tag := .opt (.cat (.group .userInfo userInfo) (.re (text ['@'])))

def portPart : Tre Nat Tag := .opt (.cat (.re (text [':'])) (.group .port port))

theorem userInfo_over : userInfo.Over ColonOr := ⟨colonOr_over regChar_over, text_over (by decide)⟩

theorem userPart_unambiguous : userPart.Unambiguous := by
  refine Tre.Unambiguous.opt ((Tre.unambiguous_group _ _).cat (Tre.unambiguous_re _) ?_) ?_
  · intro u u' v v' hu hu' hv hv' h
    rw [mem_text.1 hv, mem_text.1 hv'] at h
    exact List.append_cancel_right h
  · exact nil_notMem (by decide)

/-- Nothing before a user's `@` is one. -/
theorem mem_userPart (h : w ∈ userPart.toRe.lang) :
    w = [] ∨ ∃ u, w = u ++ [64] ∧ ∀ c ∈ u, c ≠ 64 := by
  rcases Re.mem_alt.1 h with h | h
  · obtain ⟨u, hu, v, hv, rfl⟩ := Re.mem_cat.1 h
    refine .inr ⟨u, by rw [mem_text.1 hv]; rfl, fun c hc => ?_⟩
    rintro rfl
    exact absurd (userInfo_over.mem hu 64 hc) (by decide)
  · exact .inl (Re.mem_eps.1 h)

def NoAt (c : Nat) : Prop := c ≠ 35 ∧ c ≠ 47 ∧ c ≠ 63 ∧ c ≠ 64

instance : DecidablePred NoAt := fun c => by
  unfold NoAt
  infer_instance

theorem noAt_of_colonOr (h : ColonOr c) : NoAt c := by
  unfold ColonOr Plain at h
  unfold NoAt
  omega

theorem host_over : host.Over NoAt :=
  ⟨⟨text_over (by decide), ⟨ipv6Address_over.mono fun _ => noAt_of_colonOr,
    ipvFuture_over.mono fun _ => noAt_of_colonOr⟩, text_over (by decide)⟩,
    ipv4Address_over.mono fun _ h => noAt_of_colonOr (.inr h),
    regName_over.mono fun _ h => noAt_of_colonOr (.inr h)⟩

theorem portPart_over : portPart.toRe.Over NoAt :=
  ⟨⟨text_over (by decide), digit_over.mono fun _ h => noAt_of_colonOr (.inr h)⟩, trivial⟩

/-- A host in brackets ends with the first closing one; another host has no bracket and no colon. -/
theorem mem_host (h : w ∈ host.lang) :
    (∃ u, w = 91 :: u ++ [93] ∧ ∀ c ∈ u, c ≠ 93) ∨ ∀ c ∈ w, Plain c := by
  rcases Re.mem_alt.1 h with h | h
  · obtain ⟨x, hx, y, hy, rfl⟩ := Re.mem_cat.1 h
    obtain ⟨u, hu, z, hz, rfl⟩ := Re.mem_cat.1 hy
    refine .inl ⟨u, ?_, fun c hc => ?_⟩
    · rw [mem_text.1 hx, mem_text.1 hz]
      rfl
    · have hover : (Re.alt ipv6Address ipvFuture).Over ColonOr := ⟨ipv6Address_over, ipvFuture_over⟩
      rintro rfl
      exact absurd (hover.mem hu 93 hc) (by decide)
  · refine .inr ?_
    rcases Re.mem_alt.1 h with h | h
    · exact ipv4Address_over.mem h
    · exact regName_over.mem h

theorem not_plain_bracket {x u v v' : List Nat} (hu : ∀ c ∈ u, Plain c)
    (hv : ∀ c ∈ v.head?, c = 58) : 91 :: x ++ v' ≠ u ++ v := by
  intro h
  cases u with
  | nil =>
    rw [List.nil_append] at h
    rw [← h] at hv
    exact absurd (hv 91 rfl) (by decide)
  | cons c u =>
    obtain ⟨rfl, -⟩ := List.cons.inj h
    exact absurd (hu 91 List.mem_cons_self) (by decide)

theorem host_cut {u u' v v' : List Nat} (hu : u ∈ host.lang) (hu' : u' ∈ host.lang)
    (hv : v ∈ portPart.toRe.lang) (hv' : v' ∈ portPart.toRe.lang) (h : u ++ v = u' ++ v') :
    u = u' := by
  have hh : ∀ c ∈ v.head?, c = 58 := head_of_opt hv
  have hh' : ∀ c ∈ v'.head?, c = 58 := head_of_opt hv'
  rcases mem_host hu with ⟨x, rfl, hx⟩ | hp <;> rcases mem_host hu' with ⟨y, rfl, hy⟩ | hp'
  · simp only [List.cons_append, List.append_assoc, List.cons.injEq, true_and] at h
    rw [@Tre.cut_unique Nat x _ (· = 93) y _ hx hy (by simp) (by simp) h]
  · exact absurd h (by
      rw [List.append_assoc]
      exact not_plain_bracket hp' hh')
  · exact absurd h.symm (by
      rw [List.append_assoc]
      exact not_plain_bracket hp hh)
  · exact @Tre.cut_unique Nat u v (· = 58) u' v' (fun c hc => (hp c hc).2.2.1)
      (fun c hc => (hp' c hc).2.2.1) hh hh' h

theorem hostPort_unambiguous : (Tre.cat (.group .host host) portPart).Unambiguous :=
  (Tre.unambiguous_group _ _).cat (unambiguous_opt ':' (Tre.unambiguous_group _ _))
    fun _ _ _ _ => host_cut

theorem userPart_cut {u u' v v' : List Nat} (hu : u ∈ userPart.toRe.lang)
    (hu' : u' ∈ userPart.toRe.lang) (hv : ∀ c ∈ v, NoAt c) (hv' : ∀ c ∈ v', NoAt c)
    (h : u ++ v = u' ++ v') : u = u' := by
  have hno : ∀ {x y z : List Nat}, (∀ c ∈ y, NoAt c) → y ≠ x ++ [64] ++ z := by
    rintro x y z hy rfl
    exact (hy 64 (by simp)).2.2.2 rfl
  rcases mem_userPart hu with rfl | ⟨x, rfl, hx⟩ <;>
    rcases mem_userPart hu' with rfl | ⟨y, rfl, hy⟩
  · rfl
  · exact absurd h (hno hv)
  · exact absurd h.symm (hno hv')
  · rw [List.append_assoc, List.append_assoc] at h
    rw [@Tre.cut_unique Nat x _ (· = 64) y _ hx hy (by simp) (by simp) h]

theorem authority_unambiguous : authority.Unambiguous := by
  have hover : (Tre.cat (.group .host host) portPart).toRe.Over NoAt := ⟨host_over, portPart_over⟩
  exact userPart_unambiguous.cat hostPort_unambiguous fun u u' v v' hu hu' hv hv' h =>
    userPart_cut hu hu' (hover.mem hv) (hover.mem hv') h

/-- Neither `#` nor `?`. -/
def InHier (c : Nat) : Prop := c ≠ 35 ∧ c ≠ 63

instance : DecidablePred InHier := fun c => by
  unfold InHier
  infer_instance

/-- No slash either. -/
def InSegment (c : Nat) : Prop := c ≠ 35 ∧ c ≠ 47 ∧ c ≠ 63

instance : DecidablePred InSegment := fun c => by
  unfold InSegment
  infer_instance

theorem inSegment_of_noAt (h : NoAt c) : InSegment c := by
  unfold NoAt at h
  unfold InSegment
  omega

theorem authority_over : authority.toRe.Over InSegment := by
  have huser : userPart.toRe.Over InSegment :=
    ⟨⟨userInfo_over.mono fun _ h => inSegment_of_noAt (noAt_of_colonOr h), text_over (by decide)⟩,
      trivial⟩
  exact ⟨huser, host_over.mono fun _ => inSegment_of_noAt,
    portPart_over.mono fun _ => inSegment_of_noAt⟩

theorem pchar_over : pchar.Over InSegment :=
  ⟨regChar_over.mono fun _ h => inSegment_of_noAt (noAt_of_colonOr (.inr h)),
    text_over (by decide), text_over (by decide)⟩

theorem inHier_of_inSegment (h : InSegment c) : InHier c := ⟨h.1, h.2.2⟩

theorem pathAbempty_over : pathAbempty.Over InHier :=
  ⟨text_over (by decide), pchar_over.mono fun _ => inHier_of_inSegment⟩

theorem head_pathAbempty (h : w ∈ pathAbempty.lang) : ∀ c ∈ w.head?, c = 47 := by
  rcases Re.mem_star.1 h with rfl | ⟨u, hu, v, -, rfl⟩
  · simp
  · obtain ⟨x, hx, y, -, rfl⟩ := Re.mem_cat.1 hu
    rw [mem_text.1 hx]
    simp

/-- The part with an authority. -/
def netPart : Tre Nat Tag := .cat authority (.group .path01 pathAbempty)

theorem netPart_unambiguous : netPart.Unambiguous :=
  authority_unambiguous.cat (Tre.unambiguous_group _ _) fun _ _ _ _ hu hu' hv hv' h =>
    @Tre.cut_unique Nat _ _ (· = 47) _ _ (fun c hc => (authority_over.mem hu c hc).2.1)
      (fun c hc => (authority_over.mem hu' c hc).2.1) (head_pathAbempty hv) (head_pathAbempty hv') h

/-- A path that is not behind an authority does not begin with two slashes. -/
theorem path_not_slashes (h : w ∈ (Re.alt pathAbsolute (.alt pathRootless pathEmpty)).lang)
    (v : List Nat) : w ≠ 47 :: 47 :: v := by
  have hseg : ∀ u ∈ segmentNz.lang, ∀ v : List Nat, ∀ c ∈ (u ++ v).head?, c ≠ 47 := by
    intro u hu v c hc
    have hne : u ≠ [] := fun h0 => nil_notMem (by decide) (h0 ▸ hu)
    rw [List.head?_append_of_ne_nil _ hne] at hc
    have hover : segmentNz.Over InSegment := pchar_over.plus
    exact (hover.mem hu c (List.mem_of_head? hc)).2.1
  rintro rfl
  rcases Re.mem_alt.1 h with h | h
  · obtain ⟨x, hx, y, hy, he⟩ := Re.mem_cat.1 h
    rw [mem_text.1 hx] at he
    obtain rfl : y = 47 :: v := (List.cons.inj he).2
    rcases Re.mem_opt.1 hy with hy | hy
    · obtain ⟨u, hu, z, -, he⟩ := Re.mem_cat.1 hy
      exact hseg u hu z 47 (by rw [he]; rfl) rfl
    · cases hy
  · rcases Re.mem_alt.1 h with h | h
    · obtain ⟨u, hu, z, -, he⟩ := Re.mem_cat.1 h
      exact hseg u hu z 47 (by rw [he]; rfl) rfl
    · cases Re.mem_eps.1 h

theorem hierPart_unambiguous : hierPart.Unambiguous := by
  refine Tre.Unambiguous.alt ((Tre.unambiguous_re _).cat netPart_unambiguous ?_)
    (Tre.unambiguous_group _ _) ?_
  · intro u u' _ _ hu hu' _ _ _
    rw [mem_text.1 hu, mem_text.1 hu']
  · intro w hw hp
    obtain ⟨u, hu, v, -, rfl⟩ := Re.mem_cat.1 hw
    rw [mem_text.1 hu] at hp
    exact path_not_slashes hp v rfl

theorem hierPart_over : hierPart.toRe.Over InHier :=
  ⟨⟨text_over (by decide), authority_over.mono fun _ => inHier_of_inSegment, pathAbempty_over⟩,
    ⟨text_over (by decide), Re.Over.opt ⟨(pchar_over.mono fun _ => inHier_of_inSegment).plus,
      pathAbempty_over⟩⟩,
    ⟨(pchar_over.mono fun _ => inHier_of_inSegment).plus, pathAbempty_over⟩, trivial⟩

def queryPart : Tre Nat Tag := .opt (.cat (.re (text ['?'])) (.group .query query))

def fragmentPart : Tre Nat Tag := .opt (.cat (.re (text ['#'])) (.group .fragment fragment))

theorem queryPart_over : queryPart.toRe.Over (· ≠ 35) :=
  ⟨⟨text_over (by decide), pchar_over.mono fun _ h => h.1, text_over (by decide),
    text_over (by decide)⟩, trivial⟩

/-- The query and the fragment begin with their own symbols. -/
theorem head_queryFragment (h : w ∈ (Tre.cat queryPart fragmentPart).toRe.lang) :
    ∀ c ∈ w.head?, ¬ InHier c := by
  obtain ⟨u, hu, v, hv, rfl⟩ := Re.mem_cat.1 h
  intro c hc
  cases u with
  | nil => rw [head_of_opt hv c hc]; decide
  | cons d u => rw [head_of_opt hu c hc]; decide

theorem scheme_over : scheme.Over Plain := ⟨set_over (by decide), set_over (by decide)⟩

/-- A text has the components of a URI in one way at most. -/
theorem uri_unambiguous : uri.Unambiguous := by
  have hend : (Tre.cat queryPart fragmentPart).Unambiguous :=
    (unambiguous_opt '?' (Tre.unambiguous_group _ _)).cat
      (unambiguous_opt '#' (Tre.unambiguous_group _ _)) fun _ _ _ _ hu hu' hv hv' h =>
        @Tre.cut_unique Nat _ _ (· = 35) _ _ (queryPart_over.mem hu) (queryPart_over.mem hu')
          (head_of_opt hv) (head_of_opt hv') h
  have hhier : (Tre.cat hierPart (.cat queryPart fragmentPart)).Unambiguous :=
    hierPart_unambiguous.cat hend fun _ _ _ _ hu hu' hv hv' h =>
      @Tre.cut_unique Nat _ _ (¬ InHier ·) _ _ (fun c hc => not_not.2 (hierPart_over.mem hu c hc))
        (fun c hc => not_not.2 (hierPart_over.mem hu' c hc)) (head_queryFragment hv)
        (head_queryFragment hv') h
  refine (Tre.unambiguous_group _ _).cat ((Tre.unambiguous_re _).cat hhier ?_) ?_
  · intro u u' _ _ hu hu' _ _ _
    rw [mem_text.1 hu, mem_text.1 hu']
  · intro u u' v v' hu hu' hv hv' h
    have hcolon : ∀ {x : List Nat}, x ∈ (Tre.cat (.re (text [':']))
        (.cat hierPart (.cat queryPart fragmentPart))).toRe.lang → ∀ c ∈ x.head?, c = 58 := by
      intro x hx
      obtain ⟨y, hy, z, -, rfl⟩ := Re.mem_cat.1 hx
      rw [mem_text.1 hy]
      simp
    exact @Tre.cut_unique Nat _ _ (· = 58) _ _ (fun c hc => (scheme_over.mem hu c hc).2.2.1)
      (fun c hc => (scheme_over.mem hu' c hc).2.2.1) (hcolon hv) (hcolon hv') h

end

end Arsh.Uri
