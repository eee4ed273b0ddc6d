import Arsh.Cli.ArgEntry
import Mathlib.Data.Option.Basic

/-!
# The entries of a record

What the type checker ensures of the entries it builds (`resolveArgEntries_ok`): options come
first, then the help option, then arguments or sub-commands, and only the last one takes the
arguments that remain. Every entry knows its index.
-/

namespace Arsh.Cli

/-- An entry of a field with an attribute of one of two kinds. -/
structure ArgEntry.Optional (e : ArgEntry) : Prop where
  option : e.isOption = true
  help : e.isHelp = false
  remain : e.isRemainArg = false

/-- The entries of a record, with `n` options. -/
structure Entries (n : Nat) (entries : List ArgEntry) : Prop where
  limit : entries.length ≤ argEntryMax + 1
  kind : ∀ (i : Nat) (e : ArgEntry), entries[i]? = some e → e.kind = i
  option : ∀ (i : Nat) (e : ArgEntry), entries[i]? = some e → i < n → e.Optional
  help : entries[n]? = some (.newHelp n)
  other : ∀ (i : Nat) (e : ArgEntry), entries[i]? = some e → n < i → e.isOption = false
  remain : ∀ (i : Nat) (e : ArgEntry), entries[i]? = some e → e.isRemainArg = true →
    i + 1 = entries.length

/-! ## One entry -/

/-- What the parameters of an attribute leave as it was. -/
structure Draft.Kept (d d' : Draft) : Prop where
  kind : d'.entry.kind = d.entry.kind
  fieldOffset : d'.entry.fieldOffset = d.entry.fieldOffset
  fieldType : d'.entry.fieldType = d.entry.fieldType
  positional : d'.entry.attr.positional = d.entry.attr.positional
  subcmd : d'.entry.attr.subcmd = d.entry.attr.subcmd
  remain : d'.entry.attr.remain = d.entry.attr.remain
  found : d'.found.remain = d.found.remain
  argCount : d'.found.argCount = d.found.argCount
  subCmds : d.found.foundSubCmdSet ≠ [] → d'.found.foundSubCmdSet ≠ []

namespace Draft

variable {d d' d'' : Draft}

theorem Kept.refl (d : Draft) : Kept d d :=
  ⟨rfl, rfl, rfl, rfl, rfl, rfl, rfl, rfl, id⟩

theorem Kept.trans (h : Kept d d') (h' : Kept d' d'') : Kept d d'' where
  kind := h'.kind.trans h.kind
  fieldOffset := h'.fieldOffset.trans h.fieldOffset
  fieldType := h'.fieldType.trans h.fieldType
  positional := h'.positional.trans h.positional
  subcmd := h'.subcmd.trans h.subcmd
  remain := h'.remain.trans h.remain
  found := h'.found.trans h.found
  argCount := h'.argCount.trans h.argCount
  subCmds hd := h'.subCmds (h.subCmds hd)

theorem kept_addOptName {name : Text} {op : OptParseOp} {short : Option Char} {long arg : Text}
    (h : d.addOptName name { d.entry with op := op, shortOptName := short, longOptName := long,
                                          argName := arg } = some d') : Kept d d' := by
  unfold addOptName at h
  split at h
  · cases h
  · cases h
    exact ⟨rfl, rfl, rfl, rfl, rfl, rfl, rfl, rfl, id⟩

theorem kept_addSubCmd {name : Text} (h : d.addSubCmd name = some d') : Kept d d' := by
  unfold addSubCmd at h
  split at h
  · cases h
  · cases h
    exact ⟨rfl, rfl, rfl, rfl, rfl, rfl, rfl, rfl, fun _ => List.cons_ne_nil _ _⟩

theorem kept_fill {p : Param} (h : d.fill p = some d') : Kept d d' := by
  cases p with
  | help text =>
    simp only [fill] at h
    split at h
    · cases h
    · cases h
      exact .refl d
  | short name =>
    simp only [fill] at h
    split at h
    · split at h
      · exact kept_addOptName h
      · cases h
    · cases h
  | long name =>
    simp only [fill] at h
    split at h
    · exact kept_addOptName h
    · cases h
  | range a b =>
    simp only [fill] at h
    split at h
    · cases h
      exact ⟨rfl, rfl, rfl, rfl, rfl, rfl, rfl, rfl, id⟩
    · cases h
  | choice elements =>
    simp only [fill] at h
    split at h
    · split at h
      · cases h
      · split at h
        · cases h
          exact .refl d
        · cases h
          exact ⟨rfl, rfl, rfl, rfl, rfl, rfl, rfl, rfl, id⟩
    · cases h
  | xor v =>
    simp only [fill] at h
    split at h
    · cases h
    · cases h
      exact ⟨rfl, rfl, rfl, rfl, rfl, rfl, rfl, rfl, id⟩
  | name text =>
    simp only [fill] at h
    split at h
    · cases h
    · exact kept_addSubCmd h
  | required b | store b | opt b | stop b | default text | placeHolder text | comp =>
    cases h
    exact ⟨rfl, rfl, rfl, rfl, rfl, rfl, rfl, rfl, id⟩

theorem kept_fillAll {ps : List Param} (h : ps.foldlM fill d = some d') : Kept d d' := by
  induction ps generalizing d with
  | nil =>
    cases h
    exact .refl _
  | cons p ps ih =>
    rw [List.foldlM_cons, Option.bind_eq_bind, Option.bind_eq_some_iff] at h
    obtain ⟨d₁, h₁, h₂⟩ := h
    exact (kept_fill h₁).trans (ih h₂)

theorem addSubCmd_ne_nil {name : Text} (h : d.addSubCmd name = some d') :
    d'.found.foundSubCmdSet ≠ [] := by
  unfold addSubCmd at h
  split at h
  · cases h
  · cases h
    exact List.cons_ne_nil _ _

/-- A sub-command that has a name has added it. -/
theorem named_fillAll {ps : List Param} (hps : ps.all AttributeKind.subcmd.lookupParam = true)
    (hd : d.entry.argName ≠ [] → d.found.foundSubCmdSet ≠ [])
    (h : ps.foldlM fill d = some d') :
    d'.entry.argName ≠ [] → d'.found.foundSubCmdSet ≠ [] := by
  induction ps generalizing d with
  | nil =>
    cases h
    exact hd
  | cons p ps ih =>
    rw [List.all_cons, Bool.and_eq_true] at hps
    rw [List.foldlM_cons, Option.bind_eq_bind, Option.bind_eq_some_iff] at h
    obtain ⟨d₁, h₁, h₂⟩ := h
    refine ih hps.2 ?_ h₂
    cases p with
    | help text =>
      simp only [fill] at h₁
      split at h₁
      · cases h₁
      · cases h₁
        exact hd
    | name text =>
      simp only [fill] at h₁
      split at h₁
      · cases h₁
      · exact fun _ => addSubCmd_ne_nil h₁
    | _ => cases hps.1

/-- What naming an entry leaves as it was, and what it finds. -/
theorem addName_cases {attr : FieldAttribute} (h : d.addName attr = some d') :
    (Kept d d' ∧ attr.kind ≠ .arg ∨
      attr.kind = .arg ∧ d.found.remain = false ∧
        (d' = d ∨ d' = { d with entry.attr.remain := true, found.remain := true })) ∧
      (attr.kind = .subcmd → d.entry.argName = [] → d'.found.foundSubCmdSet ≠ []) := by
  unfold addName at h
  cases hk : attr.kind with
  | flag | option =>
    simp only [hk] at h
    refine ⟨.inl ⟨?_, by simp⟩, fun hc => by cases hc⟩
    split at h
    · exact kept_addOptName h
    · cases h
      exact .refl _
  | arg =>
    simp only [hk] at h
    refine ⟨.inr ⟨rfl, ?_⟩, fun hc => by cases hc⟩
    split at h
    · cases h
    · next hr =>
      split at h
      · cases h
        exact ⟨by simpa using hr, .inr rfl⟩
      · cases h
        exact ⟨by simpa using hr, .inl rfl⟩
  | subcmd =>
    simp only [hk] at h
    split at h
    · exact ⟨.inl ⟨kept_addSubCmd h, by simp⟩, fun _ _ => addSubCmd_ne_nil h⟩
    · next hn =>
      cases h
      exact ⟨.inl ⟨.refl _, by simp⟩, fun _ hc => absurd hc hn⟩

end Draft

/-- What `resolveArgEntry` adds. -/
structure Resolved (found : ResolveArgEntryParam) (attr : FieldAttribute) (index : Nat)
    (found' : ResolveArgEntryParam) (e : ArgEntry) : Prop where
  kind : e.kind = index
  fieldOffset : e.fieldOffset = attr.fieldOffset
  positional : e.isPositional = decide (attr.kind = .arg)
  subcmd : e.isSubCmd = decide (attr.kind = .subcmd)
  argCount : found'.argCount = if attr.kind = .arg then found.argCount + 1 else found.argCount
  remain : attr.kind = .arg → found.remain = false
  remains : e.isRemainArg = true → attr.kind = .arg ∧ found'.remain = true
  found : attr.kind ≠ .arg → found'.remain = found.remain
  alone : attr.kind = .subcmd → found'.argCount = 0

theorem Draft.finish_cases (d : Draft) (varName : Text) :
    ∃ name, d.finish varName = { d.entry with argName := name } := by
  unfold Draft.finish
  split
  · exact ⟨_, rfl⟩
  · exact ⟨d.entry.argName, rfl⟩

theorem ResolveArgEntryParam.addRequired_cases (found : ResolveArgEntryParam) (e : ArgEntry) :
    ∃ groups, found.addRequired e = { found with requiredXORGroupSet := groups } := by
  unfold ResolveArgEntryParam.addRequired
  split
  · split
    · exact ⟨_, rfl⟩
    · exact ⟨_, rfl⟩
  · exact ⟨_, rfl⟩

theorem resolveArgEntry_some {found found' : ResolveArgEntryParam} {attr : FieldAttribute}
    {entries entries' : List ArgEntry}
    (h : resolveArgEntry found attr entries = some (found', entries')) :
    ∃ e, entries' = entries ++ [e] ∧
      Resolved found attr (entries.length % (argEntryMax + 1)) found' e := by
  simp only [resolveArgEntry, Option.bind_eq_bind, Option.bind_eq_some_iff, Option.guard_eq_some',
    Option.pure_def, Option.some.injEq, Prod.mk.injEq, exists_and_left, exists_const] at h
  obtain ⟨hps, -, -, d, hfill, d', hname, hguard, -, hfound, rfl⟩ := h
  refine ⟨_, rfl, ?_⟩
  have hk := Draft.kept_fillAll hfill
  obtain ⟨hcases, hsub⟩ := Draft.addName_cases hname
  obtain ⟨name, he⟩ := d'.finish_cases attr.varName
  obtain ⟨groups, hg⟩ := d'.found.addRequired_cases (d'.finish attr.varName)
  rw [hg] at hfound hguard
  rw [he]
  have hargs : d'.found.argCount = if attr.kind = .arg then found.argCount + 1 else found.argCount := by
    rcases hcases with ⟨hk', -⟩ | ⟨-, -, rfl | rfl⟩
    · rw [hk'.argCount, hk.argCount]
      rfl
    · exact hk.argCount
    · exact hk.argCount
  have hfields : d'.entry.kind = entries.length % (argEntryMax + 1) ∧
      d'.entry.fieldOffset = attr.fieldOffset ∧
      d'.entry.attr.positional = decide (attr.kind = .arg) ∧
      d'.entry.attr.subcmd = decide (attr.kind = .subcmd) := by
    rcases hcases with ⟨hk', -⟩ | ⟨-, -, rfl | rfl⟩
    · have hk := hk.trans hk'
      exact ⟨hk.kind, hk.fieldOffset, hk.positional, hk.subcmd⟩
    · exact ⟨hk.kind, hk.fieldOffset, hk.positional, hk.subcmd⟩
    · exact ⟨hk.kind, hk.fieldOffset, hk.positional, hk.subcmd⟩
  obtain ⟨hkind, hoffset, hpos, hsubcmd⟩ := hfields
  subst hfound
  exact
    { kind := hkind
      fieldOffset := hoffset
      positional := hpos
      subcmd := hsubcmd
      argCount := hargs
      remain := fun harg => by
        rcases hcases with ⟨-, hne⟩ | ⟨-, hr, -⟩
        · exact absurd harg hne
        · exact hk.found.symm.trans hr
      remains := fun hr => by
        rcases hcases with ⟨hk', -⟩ | ⟨harg, -, rfl | rfl⟩
        · have : d'.entry.attr.remain = false := (hk.trans hk').remain
          exact absurd hr (by simp [ArgEntry.isRemainArg, this])
        · have : d'.entry.attr.remain = false := hk.remain
          exact absurd hr (by simp [ArgEntry.isRemainArg, this])
        · exact ⟨harg, rfl⟩
      found := fun hne => by
        rcases hcases with ⟨hk', -⟩ | ⟨harg, -⟩
        · exact (hk.trans hk').found
        · exact absurd harg hne
      alone := fun hc => by
        by_contra hne
        refine hguard ⟨Nat.pos_of_ne_zero hne, ?_, .inr hc⟩
        by_cases hn : d.entry.argName = []
        · exact hsub hc hn
        · have hd := Draft.named_fillAll (by rwa [hc] at hps) (fun h => absurd rfl h) hfill hn
          rcases hcases with ⟨hk', -⟩ | ⟨harg, -⟩
          · exact hk'.subCmds hd
          · rw [hc] at harg
            cases harg }

/-! ## All entries -/

/-- The options resolved so far. -/
structure Options (acc : ResolveArgEntryParam × List ArgEntry) : Prop where
  kind : ∀ (i : Nat) (e : ArgEntry), acc.2[i]? = some e → e.kind = i % (argEntryMax + 1)
  option : ∀ e ∈ acc.2, e.Optional
  remain : acc.1.remain = false

/-- The entries resolved so far, with `n` options. -/
structure Others (n : Nat) (acc : ResolveArgEntryParam × List ArgEntry) : Prop where
  kind : ∀ (i : Nat) (e : ArgEntry), acc.2[i]? = some e → e.kind = i % (argEntryMax + 1)
  option : ∀ (i : Nat) (e : ArgEntry), acc.2[i]? = some e → i < n → e.Optional
  help : acc.2[n]? = some (.newHelp (n % (argEntryMax + 1)))
  other : ∀ (i : Nat) (e : ArgEntry), acc.2[i]? = some e → n < i → e.isOption = false
  remain : ∀ (i : Nat) (e : ArgEntry), acc.2[i]? = some e → e.isRemainArg = true →
    i + 1 = acc.2.length ∧ acc.1.remain = true ∧ 0 < acc.1.argCount

theorem getElem?_snoc {α : Type} {xs : List α} {x y : α} {i : Nat} (h : (xs ++ [x])[i]? = some y) :
    xs[i]? = some y ∧ i < xs.length ∨ i = xs.length ∧ y = x := by
  rcases Nat.lt_or_ge i xs.length with hi | hi
  · rw [List.getElem?_append_left hi] at h
    exact .inl ⟨h, hi⟩
  · rw [List.getElem?_append_right hi] at h
    obtain ⟨hlt, rfl⟩ := List.getElem?_eq_some_iff.1 h
    simp only [List.length_singleton] at hlt
    exact .inr ⟨by omega, by simp⟩

theorem resolveEach_induct {P : ResolveArgEntryParam × List ArgEntry → Prop}
    {attrs : List FieldAttribute} {acc acc' : ResolveArgEntryParam × List ArgEntry}
    (hstep : ∀ attr ∈ attrs, ∀ acc acc', P acc →
      resolveArgEntry acc.1 attr acc.2 = some acc' → P acc')
    (hacc : P acc) (h : resolveEach attrs acc = some acc') : P acc' := by
  induction attrs generalizing acc with
  | nil =>
    cases h
    exact hacc
  | cons attr attrs ih =>
    unfold resolveEach at h
    rw [List.foldlM_cons, Option.bind_eq_bind, Option.bind_eq_some_iff] at h
    obtain ⟨acc₁, h₁, h₂⟩ := h
    exact ih (fun a ha => hstep a (List.mem_cons_of_mem _ ha))
      (hstep attr (List.mem_cons_self ..) _ _ hacc h₁) h₂

theorem Options.step {acc acc' : ResolveArgEntryParam × List ArgEntry} {attr : FieldAttribute}
    (hk : attr.kind = .flag ∨ attr.kind = .option) (ho : Options acc)
    (h : resolveArgEntry acc.1 attr acc.2 = some acc') : Options acc' := by
  obtain ⟨found', entries'⟩ := acc'
  obtain ⟨e, rfl, hr⟩ := resolveArgEntry_some h
  have harg : attr.kind ≠ .arg := by rcases hk with hk | hk <;> simp [hk]
  have hsub : attr.kind ≠ .subcmd := by rcases hk with hk | hk <;> simp [hk]
  constructor
  · intro i e' he
    rcases getElem?_snoc he with ⟨he, -⟩ | ⟨rfl, rfl⟩
    · exact ho.kind i e' he
    · exact hr.kind
  · intro e' he
    rcases List.mem_append.1 he with he | he
    · exact ho.option e' he
    · rw [List.mem_singleton.1 he]
      refine ⟨?_, ?_, ?_⟩
      · simp [ArgEntry.isOption, hr.positional, hr.subcmd, harg, hsub]
      · have := attr.pos
        simp only [ArgEntry.isHelp, hr.fieldOffset, decide_eq_false_iff_not]
        omega
      · exact Bool.eq_false_iff.2 fun hc => harg (hr.remains hc).1
  · exact (hr.found harg).trans ho.remain

theorem Others.step {n : Nat} {acc acc' : ResolveArgEntryParam × List ArgEntry}
    {attr : FieldAttribute} (hk : attr.kind = .arg ∨ attr.kind = .subcmd) (ho : Others n acc)
    (h : resolveArgEntry acc.1 attr acc.2 = some acc') : Others n acc' := by
  obtain ⟨found', entries'⟩ := acc'
  obtain ⟨e, rfl, hr⟩ := resolveArgEntry_some h
  have hn : n < acc.2.length := (List.getElem?_eq_some_iff.1 ho.help).1
  constructor
  · intro i e' he
    rcases getElem?_snoc he with ⟨he, -⟩ | ⟨rfl, rfl⟩
    · exact ho.kind i e' he
    · exact hr.kind
  · intro i e' he hi
    rcases getElem?_snoc he with ⟨he, -⟩ | ⟨rfl, -⟩
    · exact ho.option i e' he hi
    · omega
  · simp only
    rw [List.getElem?_append_left hn]
    exact ho.help
  · intro i e' he hi
    rcases getElem?_snoc he with ⟨he, -⟩ | ⟨-, rfl⟩
    · exact ho.other i e' he hi
    · rcases hk with hk | hk <;> simp [ArgEntry.isOption, hr.positional, hr.subcmd, hk]
  · intro i e' he hrem
    rcases getElem?_snoc he with ⟨he, hi⟩ | ⟨rfl, rfl⟩
    · -- nothing is added after the last argument
      obtain ⟨-, hfound, hcount⟩ := ho.remain i e' he hrem
      rcases hk with hk | hk
      · rw [hr.remain hk] at hfound
        cases hfound
      · have h0 := hr.alone hk
        rw [hr.argCount, if_neg (by simp [hk])] at h0
        omega
    · obtain ⟨harg, hfound⟩ := hr.remains hrem
      refine ⟨by simp, hfound, ?_⟩
      simp only
      rw [hr.argCount, if_pos harg]
      omega

/-- The type checker builds well-formed entries, up to the limit of their number. -/
theorem resolveArgEntries_ok {attrs : List FieldAttribute} {entries : List ArgEntry}
    (h : resolveArgEntries attrs = some entries) (hlimit : entries.length ≤ argEntryMax + 1) :
    ∃ n, Entries n entries := by
  simp only [resolveArgEntries, Option.bind_eq_bind, Option.bind_eq_some_iff,
    Option.guard_eq_some', Option.pure_def, Option.some.injEq, exists_and_left,
    exists_const] at h
  obtain ⟨⟨found, options⟩, ho, ⟨found', entries'⟩, he, -, rfl⟩ := h
  have hoptions : Options (found, options) := by
    refine resolveEach_induct (fun attr ha acc acc' => ?_) ?_ ho
    · exact Options.step (by simpa using (List.mem_filter.1 ha).2)
    · exact ⟨by simp, by simp, rfl⟩
  have hothers : Others options.length (found', entries') := by
    refine resolveEach_induct (fun attr ha acc acc' => ?_) ?_ he
    · exact Others.step (by simpa using (List.mem_filter.1 ha).2)
    · constructor
      · intro i e h
        rcases getElem?_snoc h with ⟨h, -⟩ | ⟨rfl, rfl⟩
        · exact hoptions.kind i e h
        · rfl
      · intro i e h hi
        rcases getElem?_snoc h with ⟨h, -⟩ | ⟨rfl, -⟩
        · exact hoptions.option e (List.mem_of_getElem? h)
        · exact absurd hi (Nat.lt_irrefl _)
      · simp
      · intro i e h hi
        rcases getElem?_snoc h with ⟨-, h⟩ | ⟨rfl, -⟩
        · exact absurd h (Nat.not_lt_of_gt hi)
        · exact absurd hi (Nat.lt_irrefl _)
      · intro i e h hr
        rcases getElem?_snoc h with ⟨h, -⟩ | ⟨-, rfl⟩
        · have := (hoptions.option e (List.mem_of_getElem? h)).remain
          rw [hr] at this
          cases this
        · cases hr
  have hmod : ∀ i, i < entries'.length → i % (argEntryMax + 1) = i := fun i hi =>
    Nat.mod_eq_of_lt (Nat.lt_of_lt_of_le hi hlimit)
  refine ⟨options.length, hlimit, ?_, hothers.option, ?_, hothers.other, ?_⟩
  · intro i e h
    rw [hothers.kind i e h, hmod i (List.getElem?_eq_some_iff.1 h).1]
  · have h := hothers.help
    rwa [hmod _ (List.getElem?_eq_some_iff.1 h).1] at h
  · exact fun i e h hr => (hothers.remain i e h hr).1

end Arsh.Cli
