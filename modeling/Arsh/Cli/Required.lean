import Arsh.Cli.ArgParser
import Arsh.Cli.Entries
import Mathlib.Data.List.Sort
import Mathlib.Data.List.TakeWhile

/-!
# Required and exclusive options

What the parser of a command line enforces. `Scan` is what the option parser makes of the
arguments by itself; `Missing`, `Conflict` and `Lacks` say from it which options and arguments
should be there. Two slips of the parser make it miss, or report, what it should not: the set of
required options takes an index as an unsigned char, and the set of exclusive groups has a group
if it has a larger one. `enforces_iff` says for which options the result is right all the same.
-/

namespace Arsh.Cli

open Vec

/-! ## The set of required options -/

section
variable {values : List Nat} {entries : List ArgEntry}

theorem ascending_delRequired (h : Ascending id values) (n : Nat) :
    Ascending id (delRequired values n) := by
  unfold delRequired
  simp only
  split
  · exact h.sublist (List.eraseIdx_sublist ..)
  · exact h

/-- An index is deleted together with those that agree with it in the low byte. -/
theorem mem_delRequired (h : Ascending id values) (n i : Nat) :
    i ∈ delRequired values n ↔ i ∈ values ∧ i ≠ n % 256 := by
  unfold delRequired
  simp only
  split
  · next hn => exact h.mem_eraseIdx hn
  · next hn =>
    refine ⟨fun hi => ⟨hi, ?_⟩, fun hi => hi.1⟩
    rintro rfl
    exact hn ((getElem?_lowerBound h).2 ⟨hi, rfl⟩).1

/-- The indices left after the options that were given. -/
def remaining (values : List Nat) (given : List Given) : List Nat :=
  given.foldl (fun values g => delRequired values g.index) values

theorem remaining_spec (h : Ascending id values) (given : List Given) :
    Ascending id (remaining values given) ∧
      ∀ i, i ∈ remaining values given ↔ i ∈ values ∧ ∀ g ∈ given, i ≠ g.index % 256 := by
  induction given generalizing values with
  | nil => exact ⟨h, fun i => by simp [remaining]⟩
  | cons g given ih =>
    obtain ⟨hasc, hmem⟩ := ih (ascending_delRequired h g.index)
    refine ⟨hasc, fun i => (hmem i).trans ?_⟩
    rw [mem_delRequired h, List.forall_mem_cons, and_assoc]

theorem requiredValues_spec (entries : List ArgEntry) (n : Nat)
    (h : n + entries.length ≤ argEntryMax + 1) :
    Ascending id (requiredValues entries n) ∧ ∀ i, i ∈ requiredValues entries n ↔
      ∃ j e, entries[j]? = some e ∧ i = n + j ∧ (e.isRequired || e.isPositional) = true := by
  induction entries generalizing n with
  | nil => exact ⟨.nil, fun i => by simp [requiredValues]⟩
  | cons e entries ih =>
    rw [List.length_cons] at h
    obtain ⟨hasc, hmem⟩ := ih (n + 1) (by omega)
    have hstep : ∀ i, (∃ j e', (e :: entries)[j]? = some e' ∧ i = n + j ∧
        (e'.isRequired || e'.isPositional) = true) ↔
        i = n ∧ (e.isRequired || e.isPositional) = true ∨ i ∈ requiredValues entries (n + 1) := by
      intro i
      rw [hmem]
      constructor
      · rintro ⟨j, e', hj, rfl, he⟩
        cases j with
        | zero =>
          rw [List.getElem?_cons_zero, Option.some.injEq] at hj
          exact .inl ⟨rfl, hj ▸ he⟩
        | succ j => exact .inr ⟨j, e', hj, by omega, he⟩
      · rintro (⟨rfl, he⟩ | ⟨j, e', hj, rfl, he⟩)
        · exact ⟨0, e, rfl, rfl, he⟩
        · exact ⟨j + 1, e', hj, by omega, he⟩
    unfold requiredValues
    split
    · next he =>
      rw [Nat.mod_eq_of_lt (by omega)]
      refine ⟨List.pairwise_cons.2 ⟨fun i hi => ?_, hasc⟩, fun i => ?_⟩
      · obtain ⟨j, -, -, rfl, -⟩ := (hmem i).1 hi
        simp only [id]
        omega
      · rw [hstep, List.mem_cons, and_iff_left he]
    · next he =>
      refine ⟨hasc, fun i => ?_⟩
      rw [hstep]
      simp [he]

end

/-! ## The set of exclusive groups -/

section
variable {groups : List XORArgEntry} {entry x : XORArgEntry}

theorem hasGroup_iff {group : Nat} : hasGroup groups group = true ↔ ∃ x ∈ groups, group ≤ x.groupId := by
  unfold hasGroup
  rw [decide_eq_true_eq, Ne, lowerBound_eq_length]
  push Not
  rfl

/-- A group is added if it is new; otherwise its entry is found. -/
theorem addGroup_cases (h : Ascending XORArgEntry.groupId groups) (entry : XORArgEntry) :
    (∃ iter, addGroup groups entry = (insertAt groups iter entry, iter, true)) ∧
        Ascending XORArgEntry.groupId (addGroup groups entry).1 ∧
        (∀ x ∈ groups, x.groupId ≠ entry.groupId) ∨
      ∃ iter x, addGroup groups entry = (groups, iter, false) ∧ groups[iter]? = some x ∧
        x.groupId = entry.groupId := by
  have hfresh : (∀ x, groups[lowerBound XORArgEntry.groupId groups entry.groupId]? = some x →
      x.groupId ≠ entry.groupId) → ∀ x ∈ groups, x.groupId ≠ entry.groupId := by
    intro hne x hx heq
    exact hne x ((getElem?_lowerBound h).2 ⟨hx, heq⟩).1 heq
  unfold addGroup
  simp only
  split
  · next hnone =>
    have hf := hfresh fun x hx => by rw [hnone] at hx; cases hx
    exact .inl ⟨⟨_, rfl⟩, h.insertAt hf, hf⟩
  · next y hy =>
    split
    · next hne =>
      have hf := hfresh fun x hx => by rw [hy, Option.some.injEq] at hx; exact hx ▸ hne
      exact .inl ⟨⟨_, rfl⟩, h.insertAt hf, hf⟩
    · next heq => exact .inr ⟨_, y, rfl, hy, not_not.1 heq⟩

end

/-! ## The options of a command line -/

/-- What the option parser makes of the arguments: the options given, what it leaves, whether a
stop option ended it, and the message of its error. -/
structure Scan where
  given : List Given
  scanner : Scanner
  stop : Bool
  error : Option Text
  deriving DecidableEq

/-- The loop over the options, without what is done for each. -/
def scanOptions (entries : List ArgEntry) : Nat → Scanner → Option Scan
  | 0, _ => none
  | fuel + 1, scanner =>
    let (ret, scanner) := Scanner.next (optionTable entries) scanner
    match recognize ret with
    | none => some ⟨[], scanner, false, ret.formatError⟩
    | some g =>
      match entries[g.index]? with
      | none => some ⟨[], scanner, false, none⟩
      | some e =>
        if !e.isHelp && e.attr.stopOption then some ⟨[g], scanner, true, none⟩
        else (scanOptions entries fuel scanner).map fun s => { s with given := g :: s.given }

/-- The values that the options store. -/
def storeAll (entries : List ArgEntry) : List Given → List Value → Except Report (List Value)
  | [], out => .ok out
  | g :: given, out =>
    match entries[g.index]? with
    | none => .ok out
    | some e =>
      if e.isHelp then storeAll entries given out
      else match setOption e g out with
        | .error report => .error report
        | .ok out => storeAll entries given out

/-- The exclusive group of an option. -/
def groupOf (entries : List ArgEntry) (g : Given) : Option Nat :=
  (entries[g.index]?).bind ArgEntry.xorGroupId

/-- Two different options of one group are given. -/
def Conflict (entries : List ArgEntry) (given : List Given) : Prop :=
  ∃ a ∈ given, ∃ b ∈ given, a.index ≠ b.index ∧
    ∃ group, groupOf entries a = some group ∧ groupOf entries b = some group

def helpGiven (entries : List ArgEntry) (given : List Given) : Bool :=
  given.any fun g => (entries[g.index]?).any ArgEntry.isHelp

namespace Report

def isExclusive : Report → Bool
  | exclusive _ _ _ _ => true
  | _ => false

def isRequireOption : Report → Bool
  | requireOption _ => true
  | _ => false

def isRequireArgument : Report → Bool
  | requireArgument _ => true
  | _ => false

end Report

section
variable {n : Nat} {entries : List ArgEntry} {given : List Given} {groups : List XORArgEntry}
  {g : Given}

theorem recognized_eq (ret : OptParseResult Nat) :
    Scanner.recognized ret = (recognize ret).map Given.index := by
  cases ret <;> rfl

/-- What is recognized is an option of the record, or its help option. -/
theorem Entries.recognize (he : Entries n entries) {scanner : Scanner}
    (h : Cli.recognize (Scanner.next (optionTable entries) scanner).1 = some g) :
    g.index ≤ n ∧ ∃ e, entries[g.index]? = some e := by
  have hr : Scanner.recognized (Scanner.next (optionTable entries) scanner).1 = some g.index := by
    rw [recognized_eq, h]
    rfl
  obtain ⟨option, hmem, hkind⟩ := Scanner.next_mem hr
  unfold optionTable at hmem
  obtain ⟨e, htake, rfl⟩ := List.mem_map.1 hmem
  obtain ⟨i, hi⟩ := List.mem_iff_getElem?.1 ((List.takeWhile_sublist _).mem htake)
  have hopt : e.isOption = true := List.mem_takeWhile_imp htake
  have hindex : g.index = i := by
    rw [← hkind]
    exact he.kind i e hi
  rw [hindex]
  refine ⟨?_, e, hi⟩
  by_contra hlt
  rw [he.other i e hi (by omega)] at hopt
  cases hopt

theorem Entries.groupOf_help (he : Entries n entries) (hle : g.index ≤ n) {e : ArgEntry}
    (hg : entries[g.index]? = some e) (hhelp : e.isHelp = true) : groupOf entries g = none := by
  rcases Nat.lt_or_eq_of_le hle with hlt | heq
  · rw [(he.option _ _ hg hlt).help] at hhelp
    cases hhelp
  · unfold groupOf
    rw [heq, he.help]
    rfl

/-- The groups of the options given so far, each with its first option. -/
structure GroupsOk (entries : List ArgEntry) (given : List Given) (groups : List XORArgEntry) :
    Prop where
  ascending : Ascending XORArgEntry.groupId groups
  mem : ∀ x ∈ groups, ∃ g ∈ given, groupOf entries g = some x.groupId
  has : ∀ g ∈ given, ∀ group, groupOf entries g = some group →
    ∃ x ∈ groups, x.groupId = group ∧ x.index = g.index

theorem groupsOk_nil : GroupsOk entries [] [] :=
  ⟨.nil, by simp, by simp⟩

theorem GroupsOk.not_conflict (h : GroupsOk entries given groups) : ¬ Conflict entries given := by
  rintro ⟨a, ha, b, hb, hne, group, hga, hgb⟩
  obtain ⟨x, hx, hxg, hxi⟩ := h.has a ha group hga
  obtain ⟨y, hy, hyg, hyi⟩ := h.has b hb group hgb
  have hxy : x = y := h.ascending.eq_of_key hx hy (hxg.trans hyg.symm)
  exact hne (hxi.symm.trans (hxy ▸ hyi))

theorem GroupsOk.snoc_none (h : GroupsOk entries given groups) (hg : groupOf entries g = none) :
    GroupsOk entries (given ++ [g]) groups where
  ascending := h.ascending
  mem x hx := by
    obtain ⟨a, ha, hga⟩ := h.mem x hx
    exact ⟨a, List.mem_append_left _ ha, hga⟩
  has a ha group hga := by
    rcases List.mem_append.1 ha with ha | ha
    · exact h.has a ha group hga
    · rw [List.mem_singleton.1 ha, hg] at hga
      cases hga

/-- An option of a group is refused if and only if another one of the group was given. -/
theorem checkXORGroup_spec (h : GroupsOk entries given groups) {group : Nat}
    (hg : groupOf entries g = some group) :
    (∃ groups', checkXORGroup g group groups = .ok groups' ∧
        GroupsOk entries (given ++ [g]) groups') ∨
      (∃ report, checkXORGroup g group groups = .error report ∧ report.isExclusive = true) ∧
        ∃ a ∈ given, a.index ≠ g.index ∧ groupOf entries a = some group := by
  unfold checkXORGroup
  rcases addGroup_cases h.ascending ⟨g.index, g.shortOpt, group⟩ with
    ⟨⟨iter, hadd⟩, hasc, hnew⟩ | ⟨iter, x, hadd, hx, hxg⟩
  · rw [hadd] at hasc ⊢
    refine .inl ⟨_, rfl, hasc, fun x hx => ?_, fun a ha k hk => ?_⟩
    · rcases mem_insertAt.1 hx with rfl | hx
      · exact ⟨g, by simp, hg⟩
      · obtain ⟨a, ha, hga⟩ := h.mem x hx
        exact ⟨a, List.mem_append_left _ ha, hga⟩
    · rcases List.mem_append.1 ha with ha | ha
      · obtain ⟨x, hx, hxk⟩ := h.has a ha k hk
        exact ⟨x, mem_insertAt.2 (.inr hx), hxk⟩
      · rw [List.mem_singleton.1 ha] at hk ⊢
        rw [hg, Option.some.injEq] at hk
        exact ⟨_, mem_insertAt.2 (.inl rfl), hk, rfl⟩
  · have hmem : x ∈ groups := List.mem_of_getElem? hx
    rw [hadd]
    simp only [hx, Bool.false_eq_true, if_false]
    split
    · next heq =>
      refine .inl ⟨_, rfl, h.ascending, fun x hx => ?_, fun a ha k hk => ?_⟩
      · obtain ⟨a, ha, hga⟩ := h.mem x hx
        exact ⟨a, List.mem_append_left _ ha, hga⟩
      · rcases List.mem_append.1 ha with ha | ha
        · exact h.has a ha k hk
        · rw [List.mem_singleton.1 ha] at hk ⊢
          rw [hg, Option.some.injEq] at hk
          exact ⟨x, hmem, hxg.trans hk, heq⟩
    · next hne =>
      obtain ⟨a, ha, hga⟩ := h.mem x hmem
      obtain ⟨y, hy, hyg, hyi⟩ := h.has a ha _ hga
      have hxy : y = x := h.ascending.eq_of_key hy hmem hyg
      refine .inr ⟨⟨_, rfl, rfl⟩, a, ha, fun hc => hne ?_, hga.trans (congrArg some hxg)⟩
      rw [← hc, ← hyi, hxy]

theorem Conflict.mono {given' : List Given} (h : Conflict entries given)
    (hsub : ∀ g ∈ given, g ∈ given') : Conflict entries given' := by
  obtain ⟨a, ha, b, hb, hab⟩ := h
  exact ⟨a, hsub a ha, b, hsub b hb, hab⟩

/-- One option: an exclusion error, or the set of groups with it. -/
theorem optionStep_spec (he : Entries n entries) (hle : g.index ≤ n) {e : ArgEntry}
    (hge : entries[g.index]? = some e) (st : OptionState) (hg : GroupsOk entries given st.groups)
    {out : List Value}
    (hout : (if e.isHelp then .ok st.out else setOption e g st.out) = Except.ok out) :
    (Conflict entries (given ++ [g]) ∧
        ∃ f, optionStep e g st = .error f ∧ f.report.isExclusive = true) ∨
      ∃ groups, GroupsOk entries (given ++ [g]) groups ∧
        optionStep e g st = .ok ⟨st.scanner, delRequired st.required g.index, groups,
          st.help || e.isHelp, out⟩ := by
  unfold optionStep
  simp only
  split
  · next hh =>
    rw [if_pos hh] at hout
    cases hout
    refine .inr ⟨st.groups, hg.snoc_none (he.groupOf_help hle hge hh), ?_⟩
    rw [hh, Bool.or_true]
  · next hh =>
    rw [if_neg hh] at hout
    have hgroup : groupOf entries g = e.xorGroupId := by
      unfold groupOf
      rw [hge]
      rfl
    cases hx : e.xorGroupId with
    | none =>
      refine .inr ⟨st.groups, hg.snoc_none (hgroup.trans hx), ?_⟩
      simp [hout, hh]
    | some group =>
      rcases checkXORGroup_spec hg (hgroup.trans hx) with ⟨groups', hcheck, hok⟩ |
        ⟨⟨report, hcheck, hreport⟩, a, ha, hne, hga⟩
      · refine .inr ⟨groups', hok, ?_⟩
        simp [hcheck, hout, hh]
      · refine .inl ⟨⟨a, List.mem_append_left _ ha, g, by simp, hne, group, hga,
          hgroup.trans hx⟩, ⟨report, st.scanner.args.length⟩, ?_, hreport⟩
        simp only [hcheck]

/-- The loop over well-formed options. -/
theorem parseOptions_spec (he : Entries n entries) {fuel : Nat} (st : OptionState) {s : Scan}
    (hscan : scanOptions entries fuel st.scanner = some s) (herr : s.error = none)
    {out : List Value} (hout : storeAll entries s.given st.out = .ok out)
    (hg : GroupsOk entries given st.groups) :
    (Conflict entries (given ++ s.given) ∧
        ∃ f, parseOptions entries fuel st = some (.error f) ∧ f.report.isExclusive = true) ∨
      ∃ groups, GroupsOk entries (given ++ s.given) groups ∧
        parseOptions entries fuel st = some (.ok (⟨s.scanner, remaining st.required s.given, groups,
          st.help || helpGiven entries s.given, out⟩, s.stop)) := by
  induction fuel generalizing st s given with
  | zero => cases hscan
  | succ fuel ih =>
    obtain ⟨scanner, required, groups, help, out₀⟩ := st
    rw [scanOptions] at hscan
    rw [parseOptions]
    simp only at hscan hg hout ⊢
    have hrec : ∀ g, recognize (Scanner.next (optionTable entries) scanner).1 = some g →
        g.index ≤ n ∧ ∃ e, entries[g.index]? = some e := fun g => he.recognize
    generalize Scanner.next (optionTable entries) scanner = step at hscan hrec ⊢
    obtain ⟨ret, scanner'⟩ := step
    simp only at hscan hrec ⊢
    cases hret : recognize ret with
    | none =>
      rw [hret] at hscan
      cases hscan
      cases hout
      simp only at herr
      rw [herr]
      exact .inr ⟨groups, by simpa using hg, by simp [remaining, helpGiven]⟩
    | some g =>
      obtain ⟨hle, e, hge⟩ := hrec g hret
      simp only [hret, hge] at hscan ⊢
      obtain ⟨s', hs', hgiven⟩ : ∃ s' : Scan, s = { s' with given := g :: s'.given } ∧
          (if !e.isHelp && e.attr.stopOption then s' = ⟨[], scanner', true, none⟩
            else scanOptions entries fuel scanner' = some s') := by
        split at hscan
        · next hstop =>
          cases hscan
          exact ⟨_, rfl, by rw [if_pos hstop]⟩
        · next hstop =>
          obtain ⟨s', h', rfl⟩ := Option.map_eq_some_iff.1 hscan
          exact ⟨s', rfl, by rw [if_neg hstop]; exact h'⟩
      subst hs'
      simp only at hout herr ⊢
      rw [storeAll, hge] at hout
      simp only at hout
      obtain ⟨out₁, hout₁, hrest⟩ : ∃ out₁,
          (if e.isHelp then .ok out₀ else setOption e g out₀) = Except.ok out₁ ∧
          storeAll entries s'.given out₁ = .ok out := by
        split at hout
        · next hh => exact ⟨out₀, by rw [if_pos hh], hout⟩
        · next hh =>
          rw [if_neg hh]
          cases hset : setOption e g out₀ with
          | error report => rw [hset] at hout; cases hout
          | ok out₁ => rw [hset] at hout; exact ⟨out₁, rfl, hout⟩
      have hhelp : helpGiven entries (g :: s'.given) =
          (e.isHelp || helpGiven entries s'.given) := by
        unfold helpGiven
        rw [List.any_cons, hge]
        rfl
      rcases optionStep_spec he hle hge ⟨scanner', required, groups, help, out₀⟩ hg hout₁ with
        ⟨hconf, f, hstep, hf⟩ | ⟨groups', hg', hstep⟩
      · refine .inl ⟨hconf.mono fun a ha => ?_, f, by rw [hstep], hf⟩
        rcases List.mem_append.1 ha with ha | ha
        · exact List.mem_append_left _ ha
        · rw [List.mem_singleton.1 ha]
          simp
      · simp only [hstep]
        have happ : given ++ g :: s'.given = (given ++ [g]) ++ s'.given := by simp
        rw [happ, hhelp]
        split at hgiven
        · next hstop =>
          subst hgiven
          cases hrest
          rw [if_pos hstop]
          refine .inr ⟨groups', by simpa using hg', ?_⟩
          simp [remaining, helpGiven]
        · next hstop =>
          rw [if_neg hstop]
          have := ih ⟨scanner', delRequired required g.index, groups', help || e.isHelp, out₁⟩
            hgiven herr hrest hg'
          rwa [Bool.or_assoc] at this

/-- The option parser comes to an end. -/
theorem scanOptions_total (entries : List ArgEntry) {fuel : Nat} {scanner : Scanner}
    (h : scanner.size < fuel) : ∃ s, scanOptions entries fuel scanner = some s := by
  induction fuel generalizing scanner with
  | zero => omega
  | succ fuel ih =>
    rw [scanOptions]
    simp only
    have hlt : ∀ opt, Scanner.recognized (Scanner.next (optionTable entries) scanner).1 =
        some opt → (Scanner.next (optionTable entries) scanner).2.size < scanner.size :=
      fun _ => Scanner.next_size_lt
    rw [recognized_eq] at hlt
    generalize Scanner.next (optionTable entries) scanner = step at hlt ⊢
    cases hret : recognize step.1 with
    | none => exact ⟨_, rfl⟩
    | some g =>
      cases hentry : entries[g.index]? with
      | none => exact ⟨_, by simp only [hentry]; rfl⟩
      | some e =>
        simp only [hentry]
        split
        · exact ⟨_, rfl⟩
        · have := hlt g.index (by rw [hret]; rfl)
          obtain ⟨s, hs⟩ := ih (show step.2.size < fuel by omega)
          exact ⟨_, by rw [hs]; rfl⟩

end

/-! ## Positional arguments -/

def positionalIndices (entries : List ArgEntry) : List Nat :=
  (List.range entries.length).filter fun i => (entries[i]?).any ArgEntry.isPositional

/-- The arguments stored in order, as far as there are any. -/
def storePositionals (entries : List ArgEntry) :
    List Nat → List Text → List Value → Except Failure (List Value × List Text)
  | [], args, out => .ok (out, args)
  | _ :: _, [], out => .ok (out, [])
  | i :: indices, arg :: args, out =>
    match entries[i]? with
    | none => .ok (out, arg :: args)
    | some e =>
      match setPositional e arg args out with
      | .error failure => .error failure
      | .ok (out, args) => storePositionals entries indices args out

/-- Of some positional arguments, one is required and comes after as many as there are. -/
def Lacks (entries : List ArgEntry) (indices : List Nat) (count : Nat) : Prop :=
  ∃ t i e, indices[t]? = some i ∧ entries[i]? = some e ∧ e.isRequired = true ∧ count ≤ t

namespace Report

/-- A report about what was given together, or not given. -/
def isVerdict (r : Report) : Bool := r.isExclusive || r.isRequireOption || r.isRequireArgument

end Report

section
variable {entries : List ArgEntry} {e : ArgEntry} {arg : Text} {args : List Text}
  {out : List Value} {failure : Failure}

theorem append_report {value : Value} {element : Element} {report : Report}
    (h : append value element = .error report) : report.isVerdict = false := by
  unfold append at h
  split at h
  · split at h
    · cases h
      rfl
    · split at h
      · cases h
        rfl
      · cases h
  · cases h

theorem put_report {value : Value} {key text : Text} {report : Report}
    (h : put value key text = .error report) : report.isVerdict = false := by
  unfold put at h
  split at h
  · split at h
    · cases h
    · split at h
      · cases h
        rfl
      · cases h
  · cases h

theorem bind_error {x : Except Report Value} {f : Value → List Value} {report : Report}
    (h : (do return f (← x)) = Except.error report) : x = .error report := by
  cases x with
  | error r =>
    cases h
    rfl
  | ok v => cases h

theorem checkAndSetArg_report {shortOpt : Bool} {report : Report}
    (h : checkAndSetArg e arg shortOpt out = .error report) : report.isVerdict = false := by
  unfold checkAndSetArg at h
  split at h
  · cases h
    rfl
  · simp only at h
    split at h
    · exact put_report (bind_error h)
    · exact append_report (bind_error h)
    · exact append_report (bind_error h)
    · cases h

theorem appendAll_report {value : Value} (h : appendAll value args = .error failure) :
    failure.report.isVerdict = false := by
  induction args generalizing value with
  | nil => cases h
  | cons arg args ih =>
    unfold appendAll at h
    split at h
    · next ha =>
      cases h
      exact append_report ha
    · exact ih h

theorem setPositional_report (h : setPositional e arg args out = .error failure) :
    failure.report.isVerdict = false := by
  unfold setPositional at h
  split at h
  · split at h
    · next ha =>
      cases h
      exact append_report ha
    · split at h
      · next ha =>
        cases h
        exact appendAll_report ha
      · cases h
  · split at h
    · next hc =>
      cases h
      exact checkAndSetArg_report hc
    · cases h

theorem setPositional_args {out' : List Value} {args' : List Text}
    (h : setPositional e arg args out = .ok (out', args')) :
    args' = args ∨ e.isRemainArg = true ∧ args' = [] := by
  unfold setPositional at h
  split at h
  · next hr =>
    split at h
    · cases h
    · split at h
      · cases h
      · cases h
        exact .inr ⟨hr, rfl⟩
  · split at h
    · cases h
    · cases h
      exact .inl rfl

theorem storePositionals_report {indices : List Nat}
    (h : storePositionals entries indices args out = .error failure) :
    failure.report.isVerdict = false := by
  induction indices generalizing args out with
  | nil => cases h
  | cons i indices ih =>
    cases args with
    | nil => cases h
    | cons arg args =>
      unfold storePositionals at h
      split at h
      · cases h
      · split at h
        · next hs =>
          cases h
          exact setPositional_report hs
        · exact ih h

theorem lacks_cons {i : Nat} {indices : List Nat} {count : Nat} (he : entries[i]? = some e) :
    Lacks entries (i :: indices) count ↔
      (count = 0 ∧ e.isRequired = true) ∨ Lacks entries indices (count - 1) := by
  constructor
  · rintro ⟨t, j, e', ht, hj, hreq, hle⟩
    cases t with
    | zero =>
      rw [List.getElem?_cons_zero, Option.some.injEq] at ht
      subst ht
      rw [he, Option.some.injEq] at hj
      exact .inl ⟨Nat.le_zero.1 hle, hj ▸ hreq⟩
    | succ t => exact .inr ⟨t, j, e', ht, hj, hreq, by omega⟩
  · rintro (⟨rfl, hreq⟩ | ⟨t, j, e', ht, hj, hreq, hle⟩)
    · exact ⟨0, i, e, rfl, he, hreq, Nat.le_refl _⟩
    · exact ⟨t + 1, j, e', ht, hj, hreq, by omega⟩

/-- The loop over positional arguments, of which only the last one takes those that remain. -/
theorem checkPositional_spec {groups : List XORArgEntry} {indices : List Nat}
    (hpos : ∀ i ∈ indices, ∃ e, entries[i]? = some e ∧ e.isPositional = true)
    (hremain : ∀ t i e, indices[t]? = some i → entries[i]? = some e → e.isRemainArg = true →
      t + 1 = indices.length) (args : List Text) (out : List Value) :
    (∀ f, storePositionals entries indices args out = .error f →
        checkRequireOrPositionalArgs entries groups indices args out = .error f) ∧
      ∀ r, storePositionals entries indices args out = .ok r →
        (Lacks entries indices args.length →
          ∃ i, checkRequireOrPositionalArgs entries groups indices args out =
            .error ⟨.requireArgument i, 0⟩) ∧
        (¬ Lacks entries indices args.length →
          checkRequireOrPositionalArgs entries groups indices args out = .ok r) := by
  induction indices generalizing args out with
  | nil =>
    refine ⟨fun f hf => ?_, fun r hr => ⟨?_, fun _ => hr⟩⟩
    · cases hf
    · rintro ⟨t, i, e, ht, -⟩
      cases ht
  | cons i indices ih =>
    obtain ⟨e, he, hp⟩ := hpos i (List.mem_cons_self ..)
    have hopt : e.isOption = false := by simp [ArgEntry.isOption, hp]
    have ih := ih (fun j hj => hpos j (List.mem_cons_of_mem _ hj)) fun t j e' ht hj hr => by
      have := hremain (t + 1) j e' ht hj hr
      rw [List.length_cons] at this
      omega
    unfold checkRequireOrPositionalArgs storePositionals
    simp only [he, hopt, hp, Bool.not_true, Bool.false_eq_true, if_false]
    rw [lacks_cons he]
    cases args with
    | nil =>
      have hstore : storePositionals entries indices [] out = .ok (out, []) := by
        cases indices <;> rfl
      obtain ⟨hlacks, hnot⟩ := (ih [] out).2 _ hstore
      refine ⟨fun f hf => ?_, fun r hr => ?_⟩
      · cases hf
      · cases hr
        simp only [List.length_nil, Nat.zero_sub, true_and]
        cases hreq : e.isRequired with
        | true => exact ⟨fun _ => ⟨i, rfl⟩, fun h => absurd (.inl rfl) h⟩
        | false =>
          simp only [Bool.false_eq_true, if_false, false_or]
          exact ⟨hlacks, hnot⟩
    | cons arg args =>
      simp only [he, List.length_cons, Nat.add_sub_cancel]
      rw [or_iff_right (by omega)]
      cases hset : setPositional e arg args out with
      | error f =>
        refine ⟨fun f' hf => ?_, fun r hr => ?_⟩
        · cases hf
          rfl
        · cases hr
      | ok p =>
        obtain ⟨out', args'⟩ := p
        simp only
        rcases setPositional_args hset with rfl | ⟨hr, rfl⟩
        · exact ih _ _
        · -- the last positional argument has taken all
          have hlast := hremain 0 i e rfl he hr
          have hnil : indices = [] := by
            rw [List.length_cons] at hlast
            exact List.eq_nil_of_length_eq_zero (by omega)
          subst hnil
          refine ⟨fun f hf => ?_, fun r hr => ⟨?_, fun _ => hr⟩⟩
          · cases hf
          · rintro ⟨t, j, e', ht, -⟩
            cases ht

end

/-! ## Required options -/

section
variable (entries : List ArgEntry) (given : List Given)

/-- A required option is not given, nor is another one of its group. -/
def Missing (i : Nat) : Prop :=
  ∃ e, entries[i]? = some e ∧ e.isOption = true ∧ e.isRequired = true ∧
    (∀ g ∈ given, g.index ≠ i) ∧
    ∀ group, e.xorGroupId = some group → ∀ g ∈ given, groupOf entries g ≠ some group

/-- The sets of the parser lose sight of a missing option: an option given agrees with it in the
low byte of the index, or is in a larger group. -/
def Hidden (i : Nat) : Prop :=
  (∃ g ∈ given, 256 ≤ g.index ∧ g.index % 256 = i) ∨
    ∃ e group, entries[i]? = some e ∧ e.xorGroupId = some group ∧
      ∃ g ∈ given, ∃ larger, groupOf entries g = some larger ∧ group < larger

/-- The set of required options keeps an option that is given, as its index is no unsigned char. -/
def Retained (i : Nat) : Prop :=
  256 ≤ i ∧ (∃ g ∈ given, g.index = i) ∧
    ∃ e, entries[i]? = some e ∧ e.isRequired = true ∧ e.xorGroupId = none

/-- No slip of the sets shows in the result: if an option is missing, the sets still have a
missing option or a retained one; and if they have a retained one, an option is missing. -/
def Unaffected : Prop :=
  (∀ i, Missing entries given i →
    ∃ j, Missing entries given j ∧ ¬ Hidden entries given j ∨ Retained entries given j) ∧
  ∀ i, Retained entries given i → ∃ j, Missing entries given j

end

/-! ## What is left of the required set -/

section
variable {n : Nat} {entries : List ArgEntry} {given : List Given} {groups : List XORArgEntry}
  {required : List Nat} {args : List Text} {out : List Value}

/-- The parser reports the option at an index, if the required set has it. -/
def Blocks (entries : List ArgEntry) (groups : List XORArgEntry) (i : Nat) : Prop :=
  ∃ e, entries[i]? = some e ∧ e.isOption = true ∧ groupGiven e groups = false

def positionalAt (entries : List ArgEntry) (i : Nat) : Bool :=
  (entries[i]?).any ArgEntry.isPositional

theorem Entries.option_iff (he : Entries n entries) {i : Nat} {e : ArgEntry}
    (hi : entries[i]? = some e) : e.isOption = true ↔ i ≤ n := by
  constructor
  · intro ho
    by_contra hlt
    rw [he.other i e hi (by omega)] at ho
    cases ho
  · intro hle
    rcases Nat.lt_or_eq_of_le hle with hlt | rfl
    · exact (he.option i e hi hlt).option
    · rw [he.help, Option.some.injEq] at hi
      rw [← hi]
      rfl

theorem isOption_of_not {e : ArgEntry} (h : e.isOption = true) : e.isPositional = false := by
  simp only [ArgEntry.isOption, Bool.and_eq_true, Bool.not_eq_true'] at h
  exact h.1

/-- The loop reports an option that blocks; without one it goes through the positional arguments.
Options come first, so that no argument is stored before. -/
theorem checkOptions_spec (he : Entries n entries) (groups : List XORArgEntry)
    (hasc : Ascending id required) (hmem : ∀ i ∈ required, ∃ e, entries[i]? = some e)
    (args : List Text) (out : List Value) :
    ((∃ i ∈ required, Blocks entries groups i) → ∃ i left,
        checkRequireOrPositionalArgs entries groups required args out =
          .error ⟨.requireOption i, left⟩) ∧
      ((¬ ∃ i ∈ required, Blocks entries groups i) →
        checkRequireOrPositionalArgs entries groups required args out =
          checkRequireOrPositionalArgs entries groups (required.filter (positionalAt entries))
            args out) := by
  induction required generalizing args out with
  | nil =>
    refine ⟨?_, fun _ => rfl⟩
    rintro ⟨i, hi, -⟩
    cases hi
  | cons i required ih =>
    obtain ⟨hlt, hasc⟩ := List.pairwise_cons.1 hasc
    have ih := ih hasc fun j hj => hmem j (List.mem_cons_of_mem _ hj)
    obtain ⟨e, hi⟩ := hmem i (List.mem_cons_self ..)
    have hposat : positionalAt entries i = e.isPositional := by
      unfold positionalAt
      rw [hi]
      rfl
    have hcons : (∃ j ∈ i :: required, Blocks entries groups j) ↔
        Blocks entries groups i ∨ ∃ j ∈ required, Blocks entries groups j := by
      simp
    cases hopt : e.isOption with
    | true =>
      have hnp := isOption_of_not hopt
      rw [List.filter_cons_of_neg (by simp [hposat, hnp]), hcons]
      rw [checkRequireOrPositionalArgs]
      simp only [hi, hopt, if_true]
      have hb : Blocks entries groups i ↔ groupGiven e groups = false := by
        refine ⟨?_, fun h => ⟨e, hi, hopt, h⟩⟩
        rintro ⟨e', hi', -, h⟩
        rw [hi, Option.some.injEq] at hi'
        rwa [hi']
      rw [hb]
      cases groupGiven e groups with
      | false => exact ⟨fun _ => ⟨i, _, rfl⟩, fun h => absurd (.inl rfl) h⟩
      | true =>
        rw [or_iff_right (by simp), if_pos rfl]
        exact ih args out
    | false =>
      have hlate : ¬ ∃ j ∈ i :: required, Blocks entries groups j := by
        rintro ⟨j, hj, e', hj', ho, -⟩
        have hjn := (he.option_iff hj').1 ho
        have hin : ¬ i ≤ n := fun hle => by
          rw [(he.option_iff hi).2 hle] at hopt
          cases hopt
        rcases List.mem_cons.1 hj with rfl | hj
        · exact hin hjn
        · exact hin (Nat.le_trans (Nat.le_of_lt (hlt j hj)) hjn)
      have hlater : ¬ ∃ j ∈ required, Blocks entries groups j := fun h => hlate (hcons.2 (.inr h))
      refine ⟨fun h => absurd h hlate, fun _ => ?_⟩
      cases hpos : e.isPositional with
      | true =>
        rw [List.filter_cons_of_pos (by rw [hposat, hpos])]
        rw [checkRequireOrPositionalArgs, checkRequireOrPositionalArgs]
        simp only [hi, hopt, hpos, Bool.not_true, Bool.false_eq_true, if_false]
        simp only [(ih _ _).2 hlater]
      | false =>
        rw [List.filter_cons_of_neg (by simp [hposat, hpos]), checkRequireOrPositionalArgs]
        simp only [hi, hopt, hpos, Bool.not_false, Bool.false_eq_true, if_false, if_true]
        exact (ih args out).2 hlater

/-- The positional arguments stay in the set: the options given come before them. -/
theorem filter_remaining (he : Entries n entries) (hgiven : ∀ g ∈ given, g.index ≤ n) :
    (remaining (requiredValues entries 0) given).filter (positionalAt entries) =
      positionalIndices entries := by
  have hlimit := he.limit
  obtain ⟨hasc, hmem⟩ := requiredValues_spec entries 0 (by omega)
  obtain ⟨hasc', hmem'⟩ := remaining_spec hasc given
  have hleft : ((remaining (requiredValues entries 0) given).filter
      (positionalAt entries)).Pairwise (· < ·) := hasc'.sublist List.filter_sublist
  have hright : (positionalIndices entries).Pairwise (· < ·) :=
    List.pairwise_lt_range.sublist List.filter_sublist
  apply hleft.eq_of_mem_iff hright
  intro i
  unfold positionalIndices
  rw [List.mem_filter, List.mem_filter, hmem', hmem, List.mem_range]
  constructor
  · rintro ⟨⟨⟨j, e, hj, rfl, -⟩, -⟩, hp⟩
    rw [Nat.zero_add] at hp ⊢
    exact ⟨(List.getElem?_eq_some_iff.1 hj).1, hp⟩
  · rintro ⟨hlt, hp⟩
    refine ⟨⟨⟨i, entries[i], List.getElem?_eq_getElem hlt, by omega, ?_⟩, fun g hg heq => ?_⟩, hp⟩
    · rw [List.getElem?_eq_getElem hlt] at hp
      simp only [Option.any_some] at hp
      rw [hp, Bool.or_true]
    · have hle := hgiven g hg
      have hin : i ≤ n := by
        have := Nat.mod_le g.index 256
        omega
      have ho := (he.option_iff (List.getElem?_eq_getElem hlt)).2 hin
      rw [List.getElem?_eq_getElem hlt] at hp
      simp only [Option.any_some] at hp
      rw [isOption_of_not ho] at hp
      cases hp

/-- The sets have an option that blocks if and only if they have a missing option or a retained
one. -/
theorem exists_blocks_iff (he : Entries n entries) (hgiven : ∀ g ∈ given, g.index ≤ n)
    (hg : GroupsOk entries given groups) :
    (∃ i ∈ remaining (requiredValues entries 0) given, Blocks entries groups i) ↔
      ∃ i, Missing entries given i ∧ ¬ Hidden entries given i ∨ Retained entries given i := by
  have hlimit := he.limit
  obtain ⟨hasc, hmem⟩ := requiredValues_spec entries 0 (by omega)
  obtain ⟨-, hmem'⟩ := remaining_spec hasc given
  -- the set has the group of an entry if it has that group or a larger one
  have hgroup : ∀ e : ArgEntry, groupGiven e groups = true ↔
      ∃ group, e.xorGroupId = some group ∧ ∃ g ∈ given, ∃ larger,
        groupOf entries g = some larger ∧ group ≤ larger := by
    intro e
    unfold groupGiven
    cases hx : e.xorGroupId with
    | none => simp
    | some group =>
      simp only [Option.some.injEq, exists_eq_left']
      rw [hasGroup_iff]
      constructor
      · rintro ⟨x, hxm, hle⟩
        obtain ⟨g, hgm, hgg⟩ := hg.mem x hxm
        exact ⟨g, hgm, _, hgg, hle⟩
      · rintro ⟨g, hgm, larger, hgg, hle⟩
        obtain ⟨x, hxm, hxg, -⟩ := hg.has g hgm larger hgg
        exact ⟨x, hxm, by omega⟩
  constructor
  · rintro ⟨i, hi, e, hie, hopt, hnot⟩
    obtain ⟨⟨j, e', hj, rfl, hreq⟩, hkept⟩ := (hmem' i).1 hi |>.imp_left (hmem i).1
    rw [Nat.zero_add] at *
    rw [hie, Option.some.injEq] at hj
    subst hj
    rw [isOption_of_not hopt, Bool.or_false] at hreq
    have hno : ∀ group, e.xorGroupId = some group → ∀ g ∈ given, ∀ larger,
        groupOf entries g = some larger → larger < group := by
      intro group hx g hgm larger hgl
      by_contra hle
      rw [(hgroup e).2 ⟨group, hx, g, hgm, larger, hgl, by omega⟩] at hnot
      cases hnot
    refine ⟨j, ?_⟩
    by_cases hgiv : ∃ g ∈ given, g.index = j
    · obtain ⟨g, hgm, rfl⟩ := hgiv
      refine .inr ⟨?_, ⟨g, hgm, rfl⟩, e, hie, hreq, ?_⟩
      · by_contra hlt
        exact hkept g hgm (Nat.mod_eq_of_lt (by omega)).symm
      · cases hx : e.xorGroupId with
        | none => rfl
        | some group =>
          have := hno group hx g hgm group (by unfold groupOf; rw [hie]; exact hx)
          omega
    · refine .inl ⟨⟨e, hie, hopt, hreq, fun g hgm heq => hgiv ⟨g, hgm, heq⟩, ?_⟩, ?_⟩
      · intro group hx g hgm hgg
        exact absurd (hno group hx g hgm group hgg) (Nat.lt_irrefl _)
      · rintro (⟨g, hgm, -, hmod⟩ | ⟨e', group, hie', hx, g, hgm, larger, hgl, hlt⟩)
        · exact hkept g hgm hmod.symm
        · rw [hie, Option.some.injEq] at hie'
          subst hie'
          have := hno group hx g hgm larger hgl
          omega
  · rintro ⟨i, ⟨⟨e, hie, hopt, hreq, hnot, hgr⟩, hseen⟩ | ⟨hlarge, ⟨g, hgm, rfl⟩, e, hie, hreq, hx⟩⟩
    · refine ⟨i, (hmem' i).2 ⟨(hmem i).2 ⟨i, e, hie, by omega, by rw [hreq]; rfl⟩, ?_⟩, e, hie,
        hopt, ?_⟩
      · intro g hgm heq
        refine hseen (.inl ⟨g, hgm, ?_, heq.symm⟩)
        by_contra hlt
        rw [Nat.mod_eq_of_lt (by omega)] at heq
        exact hnot g hgm heq.symm
      · by_contra hyes
        obtain ⟨group, hx, g, hgm, larger, hgl, hle⟩ :=
          (hgroup e).1 (Bool.not_eq_false _ ▸ hyes)
        rcases Nat.lt_or_eq_of_le hle with hlt | rfl
        · exact hseen (.inr ⟨e, group, hie, hx, g, hgm, larger, hgl, hlt⟩)
        · exact hgr group hx g hgm hgl
    · refine ⟨g.index, (hmem' _).2 ⟨(hmem _).2 ⟨_, e, hie, by omega, by rw [hreq]; rfl⟩, ?_⟩, e,
        hie, (he.option_iff hie).2 (hgiven g hgm), by unfold groupGiven; rw [hx]⟩
      intro g' _ heq
      have := Nat.mod_lt g'.index (show 0 < 256 by decide)
      omega

end

/-! ## What is enforced -/

/-- The parser reports an error of some kind about a record. -/
def Reports (result : Option (Except Failure Parsed)) (kind : Report → Bool) : Prop :=
  ∃ failure, result = some (.error failure) ∧ kind failure.report = true

/-- Required and exclusive options are enforced, for a command line that scans as `s` and whose
options make the record `out`. One error is reported: an exclusion error comes first, a missing
option before a missing argument, and a request for help is no error. -/
structure Enforces (entries : List ArgEntry) (s : Scan) (out : List Value)
    (result : Option (Except Failure Parsed)) : Prop where
  exclusive : Reports result Report.isExclusive ↔ Conflict entries s.given
  option : Reports result Report.isRequireOption ↔ ¬ Conflict entries s.given ∧
    helpGiven entries s.given = false ∧ ∃ i, Missing entries s.given i
  argument : Reports result Report.isRequireArgument ↔ ¬ Conflict entries s.given ∧
    helpGiven entries s.given = false ∧ (¬ ∃ i, Missing entries s.given i) ∧
    (∃ r, storePositionals entries (positionalIndices entries) s.scanner.args out = .ok r) ∧
    Lacks entries (positionalIndices entries) s.scanner.args.length

section
variable {n : Nat} {type : CLIRecordType} {init : Nat → Option (List Value)} {args : List Text}
  {out out' : List Value} {s : Scan}

theorem scanOptions_index {entries : List ArgEntry} (he : Entries n entries) {fuel : Nat}
    {scanner : Scanner} (h : scanOptions entries fuel scanner = some s) :
    ∀ g ∈ s.given, g.index ≤ n := by
  induction fuel generalizing scanner s with
  | zero => cases h
  | succ fuel ih =>
    rw [scanOptions] at h
    simp only at h
    have hrec : ∀ g, recognize (Scanner.next (optionTable entries) scanner).1 = some g →
        g.index ≤ n ∧ ∃ e, entries[g.index]? = some e := fun g => he.recognize
    generalize Scanner.next (optionTable entries) scanner = step at h hrec
    cases hret : recognize step.1 with
    | none =>
      rw [hret] at h
      cases h
      simp
    | some g =>
      obtain ⟨hle, e, hge⟩ := hrec g hret
      simp only [hret, hge] at h
      split at h
      · cases h
        simpa using hle
      · obtain ⟨s', hs', rfl⟩ := Option.map_eq_some_iff.1 h
        simpa [hle] using ih hs'

theorem reports_error {failure : Failure} {kind : Report → Bool} :
    Reports (some (.error failure)) kind ↔ kind failure.report = true := by
  constructor
  · rintro ⟨f, hf, hk⟩
    cases hf
    exact hk
  · exact fun hk => ⟨failure, rfl, hk⟩

theorem not_reports_ok {parsed : Parsed} {kind : Report → Bool} :
    ¬ Reports (some (.ok parsed)) kind := by
  rintro ⟨f, hf, -⟩
  cases hf

/-- No verdict is reported. -/
theorem not_reports {result : Option (Except Failure Parsed)}
    (h : ∀ f, result = some (.error f) → f.report.isVerdict = false) :
    ¬ Reports result Report.isExclusive ∧ ¬ Reports result Report.isRequireOption ∧
      ¬ Reports result Report.isRequireArgument := by
  have hv : ∀ f, result = some (.error f) → f.report.isExclusive = false ∧
      f.report.isRequireOption = false ∧ f.report.isRequireArgument = false := by
    intro f hf
    have := h f hf
    unfold Report.isVerdict at this
    simpa [and_assoc] using this
  refine ⟨?_, ?_, ?_⟩ <;> rintro ⟨f, hf, hk⟩
  · exact Bool.false_ne_true ((hv f hf).1.symm.trans hk)
  · exact Bool.false_ne_true ((hv f hf).2.1.symm.trans hk)
  · exact Bool.false_ne_true ((hv f hf).2.2.symm.trans hk)

/-- The report that the sets lead to. -/
def Seen (entries : List ArgEntry) (given : List Given) : Prop :=
  ∃ i, Missing entries given i ∧ ¬ Hidden entries given i ∨ Retained entries given i

def Stored (entries : List ArgEntry) (s : Scan) (out : List Value) : Prop :=
  ∃ r, storePositionals entries (positionalIndices entries) s.scanner.args out = .ok r

/-- The arguments of a command line without a report about its options. -/
theorem checkArguments_spec {entries : List ArgEntry} (he : Entries n entries)
    (groups : List XORArgEntry) (args : List Text) (out : List Value) :
    (∀ f, storePositionals entries (positionalIndices entries) args out = .error f →
        checkRequireOrPositionalArgs entries groups (positionalIndices entries) args out =
          .error f) ∧
      ∀ r, storePositionals entries (positionalIndices entries) args out = .ok r →
        (Lacks entries (positionalIndices entries) args.length →
          ∃ i, checkRequireOrPositionalArgs entries groups (positionalIndices entries) args out =
            .error ⟨.requireArgument i, 0⟩) ∧
        (¬ Lacks entries (positionalIndices entries) args.length →
          checkRequireOrPositionalArgs entries groups (positionalIndices entries) args out =
            .ok r) := by
  refine checkPositional_spec (fun i hi => ?_) (fun t i e ht hi hr => ?_) args out
  · unfold positionalIndices at hi
    obtain ⟨hlt, hp⟩ := List.mem_filter.1 hi
    rw [List.mem_range] at hlt
    rw [List.getElem?_eq_getElem hlt] at hp
    exact ⟨entries[i], List.getElem?_eq_getElem hlt, by simpa using hp⟩
  · -- the indices ascend to the last one
    have hlast := he.remain i e hi hr
    have hasc : (positionalIndices entries).Pairwise (· < ·) :=
      List.pairwise_lt_range.sublist List.filter_sublist
    obtain ⟨htl, hti⟩ := List.getElem?_eq_some_iff.1 ht
    by_contra hne
    have hnext : t + 1 < (positionalIndices entries).length := by omega
    have hlt := List.pairwise_iff_getElem.1 hasc t (t + 1) htl hnext (by omega)
    have hmem : (positionalIndices entries)[t + 1] ∈ positionalIndices entries :=
      List.getElem_mem hnext
    have hbound := List.mem_range.1 (List.mem_filter.1 hmem).1
    omega

theorem parseCommandLineImpl_cases (he : Entries n type.entries)
    (hscan : scanOptions type.entries (optionFuel args) ⟨[], args⟩ = some s)
    (herr : s.error = none) (hout : storeAll type.entries s.given out = .ok out')
    {result : Option (Except Failure Parsed)}
    (hr : parseCommandLineImpl init type (optionFuel args) args out = result) :
    (Conflict type.entries s.given ∧
        ∃ f, result = some (.error f) ∧ f.report.isExclusive = true) ∨
      ¬ Conflict type.entries s.given ∧
      ((helpGiven type.entries s.given = true ∧
          ∀ f, result = some (.error f) → f.report.isVerdict = false) ∨
        helpGiven type.entries s.given = false ∧
        ((Seen type.entries s.given ∧
            ∃ f, result = some (.error f) ∧ f.report.isRequireOption = true) ∨
          ¬ Seen type.entries s.given ∧
          (((Stored type.entries s out' ∧
              Lacks type.entries (positionalIndices type.entries) s.scanner.args.length) ∧
              ∃ f, result = some (.error f) ∧ f.report.isRequireArgument = true) ∨
            ¬ (Stored type.entries s out' ∧
              Lacks type.entries (positionalIndices type.entries) s.scanner.args.length) ∧
              ∀ f, result = some (.error f) → f.report.isVerdict = false))) := by
  have hgiven := scanOptions_index he hscan
  have hlimit := he.limit
  obtain ⟨hasc, hmem⟩ := requiredValues_spec type.entries 0 (by omega)
  obtain ⟨hasc', hmem'⟩ := remaining_spec hasc s.given
  have hparse := parseOptions_spec he
    ⟨⟨[], args⟩, requiredValues type.entries 0, [], false, out⟩ hscan herr hout groupsOk_nil
  rw [List.nil_append] at hparse
  unfold parseCommandLineImpl at hr
  rcases hparse with ⟨hconf, f, hf, hex⟩ | ⟨groups, hg, hok⟩
  · rw [hf] at hr
    exact .inl ⟨hconf, f, hr.symm, hex⟩
  refine .inr ⟨hg.not_conflict, ?_⟩
  rw [hok] at hr
  simp only [Bool.false_or] at hr
  cases hhelp : helpGiven type.entries s.given with
  | true =>
    rw [hhelp, if_pos rfl] at hr
    refine .inl ⟨rfl, fun f hf => ?_⟩
    rw [← hr] at hf
    cases hf
    rfl
  | false =>
    rw [hhelp, if_neg Bool.false_ne_true] at hr
    refine .inr ⟨rfl, ?_⟩
    have hblocks := exists_blocks_iff he hgiven hg
    have hentry : ∀ i ∈ remaining (requiredValues type.entries 0) s.given,
        ∃ e, type.entries[i]? = some e := by
      intro i hi
      obtain ⟨j, e, hj, rfl, -⟩ := (hmem i).1 ((hmem' i).1 hi).1
      exact ⟨e, by rwa [Nat.zero_add]⟩
    obtain ⟨hreport, hpass⟩ := checkOptions_spec he groups hasc' hentry s.scanner.args out'
    rw [filter_remaining he hgiven] at hpass
    by_cases hseen : Seen type.entries s.given
    · obtain ⟨i, left, hcheck⟩ := hreport (hblocks.2 hseen)
      rw [hcheck] at hr
      exact .inl ⟨hseen, _, hr.symm, rfl⟩
    · refine .inr ⟨hseen, ?_⟩
      rw [hpass (mt hblocks.1 hseen)] at hr
      obtain ⟨hfail, hstored⟩ := checkArguments_spec he groups s.scanner.args out'
      cases hstore : storePositionals type.entries (positionalIndices type.entries)
        s.scanner.args out' with
      | error f =>
        rw [hfail f hstore] at hr
        refine .inr ⟨?_, fun f' hf' => ?_⟩
        · rintro ⟨⟨r, h⟩, -⟩
          rw [hstore] at h
          cases h
        · rw [← hr] at hf'
          cases hf'
          exact storePositionals_report hstore
      | ok r =>
        obtain ⟨hlacks, hnot⟩ := hstored r hstore
        by_cases hl : Lacks type.entries (positionalIndices type.entries) s.scanner.args.length
        · obtain ⟨i, hcheck⟩ := hlacks hl
          rw [hcheck] at hr
          exact .inl ⟨⟨⟨r, hstore⟩, hl⟩, _, hr.symm, rfl⟩
        · rw [hnot hl] at hr
          refine .inr ⟨fun h => hl h.2, fun f hf => ?_⟩
          rw [← hr] at hf
          simp only [Option.some.injEq] at hf
          split at hf
          · cases hf
          · split at hf
            · split at hf
              · cases hf
                rfl
              · split at hf
                · cases hf
                  rfl
                · cases hf
            · cases hf

theorem unaffected_iff (entries : List ArgEntry) (given : List Given) :
    Unaffected entries given ↔ ((∃ i, Missing entries given i) ↔ Seen entries given) := by
  unfold Unaffected Seen
  constructor
  · rintro ⟨hseen, hmissing⟩
    constructor
    · rintro ⟨i, hi⟩
      exact hseen i hi
    · rintro ⟨i, ⟨hi, -⟩ | hi⟩
      · exact ⟨i, hi⟩
      · exact hmissing i hi
  · exact fun h => ⟨fun i hi => h.1 ⟨i, hi⟩, fun i hi => h.2 ⟨i, .inr hi⟩⟩

/-- Required and exclusive options are enforced if and only if there is an exclusion error, help
was asked for, or no slip of the sets shows. -/
theorem enforces_iff {attrs : List FieldAttribute}
    (hentries : resolveArgEntries attrs = some type.entries)
    (hlimit : type.entries.length ≤ argEntryMax + 1)
    (hscan : scanOptions type.entries (optionFuel args) ⟨[], args⟩ = some s)
    (herr : s.error = none) (hout : storeAll type.entries s.given out = .ok out') :
    Enforces type.entries s out' (parseCommandLineImpl init type (optionFuel args) args out) ↔
      Conflict type.entries s.given ∨ helpGiven type.entries s.given = true ∨
        Unaffected type.entries s.given := by
  obtain ⟨n, he⟩ := resolveArgEntries_ok hentries hlimit
  have hcases := parseCommandLineImpl_cases he hscan herr hout
    (rfl : parseCommandLineImpl init type (optionFuel args) args out = _)
  rw [unaffected_iff]
  generalize parseCommandLineImpl init type (optionFuel args) args out = result at hcases ⊢
  have hkinds : ∀ f : Failure,
      (f.report.isExclusive = true →
        f.report.isRequireOption = false ∧ f.report.isRequireArgument = false) ∧
      (f.report.isRequireOption = true →
        f.report.isExclusive = false ∧ f.report.isRequireArgument = false) ∧
      (f.report.isRequireArgument = true →
        f.report.isExclusive = false ∧ f.report.isRequireOption = false) := by
    rintro ⟨report, left⟩
    cases report <;> simp [Report.isExclusive, Report.isRequireOption, Report.isRequireArgument]
  have hiff : ∀ {a b c : Prop},
      ((Reports result Report.isExclusive ↔ a) → (Reports result Report.isRequireOption ↔ b) →
        (Reports result Report.isRequireArgument ↔ c) →
      (Enforces type.entries s out' result ↔
        (a ↔ Conflict type.entries s.given) ∧
        (b ↔ ¬ Conflict type.entries s.given ∧ helpGiven type.entries s.given = false ∧
          ∃ i, Missing type.entries s.given i) ∧
        (c ↔ ¬ Conflict type.entries s.given ∧ helpGiven type.entries s.given = false ∧
          (¬ ∃ i, Missing type.entries s.given i) ∧ Stored type.entries s out' ∧
          Lacks type.entries (positionalIndices type.entries) s.scanner.args.length))) := by
    intro a b c ha hb hc
    rw [← ha, ← hb, ← hc]
    exact ⟨fun h => ⟨h.exclusive, h.option, h.argument⟩, fun h => ⟨h.1, h.2.1, h.2.2⟩⟩
  rcases hcases with ⟨hconf, f, rfl, hf⟩ | ⟨hconf, hcases⟩
  · obtain ⟨ho, ha⟩ := (hkinds f).1 hf
    rw [hiff (reports_error.trans (iff_true_intro hf))
      (reports_error.trans (iff_false_intro (by simp [ho])))
      (reports_error.trans (iff_false_intro (by simp [ha])))]
    simp [hconf]
  rcases hcases with ⟨hhelp, hno⟩ | ⟨hhelp, hcases⟩
  · obtain ⟨he, ho, ha⟩ := not_reports hno
    rw [hiff (iff_false_intro he) (iff_false_intro ho) (iff_false_intro ha)]
    simp [hconf, hhelp]
  rcases hcases with ⟨hseen, f, rfl, hf⟩ | ⟨hseen, hcases⟩
  · obtain ⟨he, ha⟩ := (hkinds f).2.1 hf
    rw [hiff (reports_error.trans (iff_false_intro (by simp [he])))
      (reports_error.trans (iff_true_intro hf))
      (reports_error.trans (iff_false_intro (by simp [ha])))]
    by_cases hm : ∃ i, Missing type.entries s.given i <;> simp [hconf, hhelp, hseen, hm]
  rcases hcases with ⟨hlacks, f, rfl, hf⟩ | ⟨hlacks, hno⟩
  · obtain ⟨he, ho⟩ := (hkinds f).2.2 hf
    rw [hiff (reports_error.trans (iff_false_intro (by simp [he])))
      (reports_error.trans (iff_false_intro (by simp [ho])))
      (reports_error.trans (iff_true_intro hf))]
    by_cases hm : ∃ i, Missing type.entries s.given i <;> simp [hconf, hhelp, hseen, hm, hlacks]
  · obtain ⟨he, ho, ha⟩ := not_reports hno
    rw [hiff (iff_false_intro he) (iff_false_intro ho) (iff_false_intro ha)]
    by_cases hm : ∃ i, Missing type.entries s.given i
    · simp [hconf, hhelp, hseen, hm]
    · simp only [hconf, hhelp, hseen, hm, hlacks]
      simp

end

/-! ## A larger group -/

/-- A required flag `-a` in group 0 and a flag `-b` in group 1. -/
def twoFlags : List FieldAttribute :=
  [⟨.flag, [.short ['a'], .required true, .xor 0], ['x'], .bool, 1, by decide⟩,
    ⟨.flag, [.short ['b'], .xor 1], ['y'], .bool, 2, by decide⟩]

def twoFlagsType : CLIRecordType := ⟨(resolveArgEntries twoFlags).getD [], fun _ => none⟩

/-- The scan of `-b`. -/
def scanB : Scan := ⟨[⟨1, true, none⟩], ⟨[], []⟩, false, none⟩

def newRecord : List Value := [.str "cmd".toList, .bool false, .bool false]

theorem twoFlags_resolve : resolveArgEntries twoFlags = some twoFlagsType.entries := by
  decide

theorem twoFlags_scan : scanOptions twoFlagsType.entries (optionFuel ["-b".toList])
    ⟨[], ["-b".toList]⟩ = some scanB := by
  decide

theorem twoFlags_store : storeAll twoFlagsType.entries scanB.given newRecord =
    .ok [.str "cmd".toList, .bool false, .bool true] := by
  rfl

theorem enforces_iff_twoFlags :
    Enforces twoFlagsType.entries scanB [.str "cmd".toList, .bool false, .bool true]
        (parseCommandLineImpl (fun _ => none) twoFlagsType (optionFuel ["-b".toList])
          ["-b".toList] newRecord) ↔
      Conflict twoFlagsType.entries scanB.given ∨
        helpGiven twoFlagsType.entries scanB.given = true ∨
        Unaffected twoFlagsType.entries scanB.given :=
  enforces_iff twoFlags_resolve (by decide) twoFlags_scan rfl twoFlags_store

/-- The option `-a` is missing and not reported: the set of groups has the larger group of `-b`. -/
theorem twoFlags_not_enforced :
    resolveArgEntries twoFlags = some twoFlagsType.entries ∧
    scanOptions twoFlagsType.entries (optionFuel ["-b".toList]) ⟨[], ["-b".toList]⟩ =
      some scanB ∧ scanB.error = none ∧
    storeAll twoFlagsType.entries scanB.given newRecord =
      .ok [.str "cmd".toList, .bool false, .bool true] ∧
    ¬ Enforces twoFlagsType.entries scanB [.str "cmd".toList, .bool false, .bool true]
      (parseCommandLineImpl (fun _ => none) twoFlagsType (optionFuel ["-b".toList])
        ["-b".toList] newRecord) := by
  refine ⟨twoFlags_resolve, twoFlags_scan, rfl, twoFlags_store, fun h => ?_⟩
  have hrun : parseCommandLineImpl (fun _ => none) twoFlagsType (optionFuel ["-b".toList])
      ["-b".toList] newRecord =
        some (.ok (.done [.str "cmd".toList, .bool false, .bool true] [])) := rfl
  have hgroups : groupOf twoFlagsType.entries ⟨1, true, none⟩ = some 1 := by decide
  have hmissing : Missing twoFlagsType.entries scanB.given 0 := by
    refine ⟨_, rfl, rfl, rfl, by simp [scanB], ?_⟩
    rintro group hg g hgm
    cases hg
    rw [List.mem_singleton.1 hgm, hgroups]
    decide
  have hconf : ¬ Conflict twoFlagsType.entries scanB.given := by
    rintro ⟨a, ha, b, hb, hne, -⟩
    rw [List.mem_singleton.1 ha, List.mem_singleton.1 hb] at hne
    exact hne rfl
  have hreports := h.option.2 ⟨hconf, by decide, 0, hmissing⟩
  rw [hrun] at hreports
  exact not_reports_ok hreports

end Arsh.Cli
