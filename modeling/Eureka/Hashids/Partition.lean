import Eureka.Hashids.Hashids

/-!
# The partition of the alphabet

The constructor in two steps: up to the guards (`beforeGuards`), and the guards,
which are taken from one of two sides (`takeGuards`).  What it ends with is a
partition of the characters that the options give (`construct_partition`).
-/

namespace Eureka.Hashids

/-! ## The constructor in two steps -/

/-- The constructor in front of the guards: the alphabet and the separators. -/
def beforeGuards (opts : Options) : Except Failure (Bytes × Bytes) := do
  let separators := baseSeparators.filter (· ∈ opts.given)
  let alphabet := removeSeen separators [] opts.given
  if separators.length + alphabet.length < 16 then
    throw (.invalidArgument "Alphabet must contain at least 16 unique characters")
  let separators ← reorder opts.salt separators
  let delta := minSepsCnt alphabet.length - separators.length
  let separators := separators ++ alphabet.take delta
  let alphabet ← reorder opts.salt (alphabet.drop delta)
  return (alphabet, separators)

/-- The guards are taken from the alphabet, or from the separators if that has less than three
characters. -/
def takeGuards (opts : Options) (alphabet separators : Bytes) : Hashids :=
  let cnt := guardsCnt alphabet.length
  if alphabet.length < 3 then
    ⟨opts.minimumLength, opts.salt, alphabet, separators.drop cnt, separators.take cnt⟩
  else
    ⟨opts.minimumLength, opts.salt, alphabet.drop cnt, separators, alphabet.take cnt⟩

theorem construct_eq (opts : Options) :
    construct opts =
      beforeGuards opts >>= fun parts => .ok (takeGuards opts parts.1 parts.2) := by
  unfold construct beforeGuards
  dsimp only
  rw [← Options.given]
  split_ifs
  · rfl
  · rw [bind_assoc]
    refine congrArg _ (funext fun separators => ?_)
    rw [bind_assoc]
    refine congrArg _ (funext fun alphabet => ?_)
    rw [pure_bind]
    unfold takeGuards
    dsimp only
    split_ifs <;> rfl

theorem construct_eq_ok_iff {opts : Options} {hs : Hashids} :
    construct opts = .ok hs ↔
      ∃ alphabet separators, beforeGuards opts = .ok (alphabet, separators) ∧
        hs = takeGuards opts alphabet separators := by
  rw [construct_eq, bind_eq_ok]
  constructor
  · rintro ⟨⟨alphabet, separators⟩, hbefore, heq⟩
    exact ⟨alphabet, separators, hbefore, (Except.ok.inj heq).symm⟩
  · rintro ⟨alphabet, separators, hbefore, rfl⟩
    exact ⟨_, hbefore, rfl⟩

/-! ## The characters that are given -/

theorem mem_removeSeen {separators seen rest : Bytes} {ch : Byte}
    (hmem : ch ∈ removeSeen separators seen rest) : ch ∉ seen ∧ ch ∉ separators := by
  induction rest generalizing seen with
  | nil => exact absurd hmem List.not_mem_nil
  | cons first rest ih =>
      rw [removeSeen] at hmem
      split_ifs at hmem with hremove
      · exact ⟨fun hseen => (ih hmem).1 (List.mem_cons_of_mem _ hseen), (ih hmem).2⟩
      · rcases List.mem_cons.mp hmem with rfl | hmem
        · exact not_or.mp hremove
        · exact ⟨fun hseen => (ih hmem).1 (List.mem_cons_of_mem _ hseen), (ih hmem).2⟩

theorem removeSeen_nodup (separators seen rest : Bytes) :
    (removeSeen separators seen rest).Nodup := by
  induction rest generalizing seen with
  | nil => exact List.nodup_nil
  | cons first rest ih =>
      rw [removeSeen]
      split_ifs
      · exact ih _
      · exact List.nodup_cons.mpr
          ⟨fun hmem => (mem_removeSeen hmem).1 List.mem_cons_self, ih _⟩

theorem mem_of_mem_removeSeen {separators seen rest : Bytes} {ch : Byte}
    (hmem : ch ∈ removeSeen separators seen rest) : ch ∈ rest := by
  induction rest generalizing seen with
  | nil => exact hmem
  | cons first rest ih =>
      rw [removeSeen] at hmem
      split_ifs at hmem
      · exact List.mem_cons_of_mem _ (ih hmem)
      · exact List.mem_cons.mpr ((List.mem_cons.mp hmem).imp_right ih)

theorem mem_removeSeen_iff {separators seen rest : Bytes} {ch : Byte} :
    ch ∈ removeSeen separators seen rest ↔ ch ∈ rest ∧ ch ∉ seen ∧ ch ∉ separators := by
  constructor
  · intro hmem
    exact ⟨mem_of_mem_removeSeen hmem, mem_removeSeen hmem⟩
  · rintro ⟨hrest, hseen, hseparators⟩
    induction rest generalizing seen with
    | nil => cases hrest
    | cons first rest ih =>
        unfold removeSeen
        by_cases heq : ch = first
        · subst heq
          rw [if_neg (not_or.mpr ⟨hseen, hseparators⟩)]
          exact List.mem_cons_self
        · have hlater := ih ((List.mem_cons.mp hrest).resolve_left heq)
            (List.not_mem_cons_of_ne_of_not_mem heq hseen)
          split_ifs
          · exact hlater
          · exact List.mem_cons_of_mem first hlater

theorem separators_append_removeSeen (given : Bytes) :
    (baseSeparators.filter (· ∈ given) ++
      removeSeen (baseSeparators.filter (· ∈ given)) [] given).Nodup ∧
    ∀ ch, ch ∈ baseSeparators.filter (· ∈ given) ++
      removeSeen (baseSeparators.filter (· ∈ given)) [] given ↔ ch ∈ given := by
  constructor
  · refine List.nodup_append.mpr ⟨List.Nodup.filter _ (by decide), removeSeen_nodup _ _ _, ?_⟩
    rintro ch hseparator _ hother rfl
    exact (mem_removeSeen_iff.mp hother).2.2 hseparator
  · intro ch
    rw [List.mem_append, mem_removeSeen_iff]
    constructor
    · rintro (hmem | ⟨hmem, -⟩)
      · exact of_decide_eq_true (List.mem_filter.mp hmem).2
      · exact hmem
    · intro hmem
      by_cases hseparator : ch ∈ baseSeparators.filter (· ∈ given)
      · exact .inl hseparator
      · exact .inr ⟨hmem, List.not_mem_nil, hseparator⟩

/-! ## The partition -/

/-- What the constructor has in front of the guards. -/
structure Divided (opts : Options) (alphabet separators : Bytes) : Prop where
  nodup : (alphabet ++ separators).Nodup
  mem_iff : ∀ ch, ch ∈ alphabet ++ separators ↔ ch ∈ opts.given
  sixteen_le : 16 ≤ alphabet.length + separators.length
  two_le : 2 ≤ alphabet.length
  ratio : 2 * alphabet.length ≤ 7 * separators.length

theorem divided_of_beforeGuards {opts : Options} {alphabet separators : Bytes}
    (hbefore : beforeGuards opts = .ok (alphabet, separators)) :
    Divided opts alphabet separators := by
  unfold beforeGuards at hbefore
  dsimp only at hbefore
  obtain ⟨hnodup, hmem⟩ := separators_append_removeSeen opts.given
  have hfourteen : (baseSeparators.filter (· ∈ opts.given)).length ≤ 14 :=
    List.length_filter_le _ _
  generalize removeSeen (baseSeparators.filter (· ∈ opts.given)) [] opts.given = others
    at hbefore hnodup hmem
  generalize baseSeparators.filter (· ∈ opts.given) = base at hbefore hnodup hmem hfourteen
  split_ifs at hbefore with hshort
  · exact nomatch hbefore
  obtain ⟨-, -, hbefore⟩ := bind_eq_ok.mp hbefore
  obtain ⟨base', hbase, hbefore⟩ := bind_eq_ok.mp hbefore
  obtain ⟨rest, hrest, hbefore⟩ := bind_eq_ok.mp hbefore
  obtain ⟨rfl, rfl⟩ := Prod.mk.inj (Except.ok.inj hbefore)
  have hbase := reorder_perm hbase
  have hrest := reorder_perm hrest
  set delta := minSepsCnt others.length - base'.length with hdelta
  -- no character is lost or doubled by the shuffles and the move
  have hperm : (rest ++ (base' ++ others.take delta)).Perm (base ++ others) := by
    calc rest ++ (base' ++ others.take delta)
      _ |>.Perm ((base' ++ others.take delta) ++ rest) := List.perm_append_comm
      _ |>.Perm ((base' ++ others.take delta) ++ others.drop delta) := hrest.append_left _
      _ = base' ++ others := by rw [List.append_assoc, List.take_append_drop]
      _ |>.Perm (base ++ others) := hbase.append_right _
  have hlength := hrest.length_eq
  have hlength' := hbase.length_eq
  rw [List.length_drop] at hlength
  unfold minSepsCnt at hdelta
  refine ⟨hperm.nodup_iff.mpr hnodup, fun ch => hperm.mem_iff.trans (hmem ch), ?_, ?_, ?_⟩
  · have htotal := hperm.length_eq
    simp only [List.length_append] at htotal ⊢
    omega
  · omega
  · rw [List.length_append, List.length_take]
    omega

/-- The three alphabets are a partition of the given characters. -/
structure Partitions (hs : Hashids) (given : Bytes) : Prop where
  alphabet_nodup : hs.alphabet.Nodup
  separators_nodup : hs.separators.Nodup
  guards_nodup : hs.guards.Nodup
  alphabet_separators : List.Disjoint hs.alphabet hs.separators
  alphabet_guards : List.Disjoint hs.alphabet hs.guards
  separators_guards : List.Disjoint hs.separators hs.guards
  mem_iff : ∀ ch, ch ∈ given ↔ ch ∈ hs.alphabet ∨ ch ∈ hs.separators ∨ ch ∈ hs.guards
  two_le : 2 ≤ hs.alphabet.length
  separators_ne : hs.separators ≠ []
  guards_ne : hs.guards ≠ []

theorem takeGuards_perm (opts : Options) (alphabet separators : Bytes) :
    ((takeGuards opts alphabet separators).alphabet ++
      ((takeGuards opts alphabet separators).separators ++
        (takeGuards opts alphabet separators).guards)).Perm (alphabet ++ separators) := by
  unfold takeGuards
  dsimp only
  split_ifs
  · refine List.Perm.append_left _ (List.perm_append_comm.trans ?_)
    rw [List.take_append_drop]
  · refine List.perm_append_comm.trans ?_
    rw [List.append_assoc, List.take_append_drop]
    exact List.perm_append_comm

theorem Divided.partitions {opts : Options} {alphabet separators : Bytes}
    (hdivided : Divided opts alphabet separators) :
    (takeGuards opts alphabet separators).Partitions opts.given := by
  have hperm := takeGuards_perm opts alphabet separators
  have hnodup := hperm.nodup_iff.mpr hdivided.nodup
  obtain ⟨halphabet, hrest, hdisjoint⟩ := List.nodup_append'.mp hnodup
  obtain ⟨hseparators, hguards, hdisjoint'⟩ := List.nodup_append'.mp hrest
  have hsixteen := hdivided.sixteen_le
  have htwo := hdivided.two_le
  have hratio := hdivided.ratio
  have hcounts : 2 ≤ (takeGuards opts alphabet separators).alphabet.length ∧
      0 < (takeGuards opts alphabet separators).separators.length ∧
      0 < (takeGuards opts alphabet separators).guards.length := by
    unfold takeGuards guardsCnt
    dsimp only
    split_ifs
    · simp only [List.length_drop, List.length_take]
      omega
    · simp only [List.length_drop, List.length_take]
      omega
  refine ⟨halphabet, hseparators, hguards, ?_, ?_, hdisjoint', fun ch => ?_, hcounts.1,
    List.ne_nil_of_length_pos hcounts.2.1, List.ne_nil_of_length_pos hcounts.2.2⟩
  · exact fun ch hch hmem => hdisjoint hch (List.mem_append_left _ hmem)
  · exact fun ch hch hmem => hdisjoint hch (List.mem_append_right _ hmem)
  · rw [← hdivided.mem_iff, ← hperm.mem_iff, List.mem_append, List.mem_append]

/-- **The constructor divides the alphabet into disjoint parts.** -/
theorem valid_of_construct {opts : Options} {hs : Hashids} (hconstruct : construct opts = .ok hs) :
    hs.Valid := by
  obtain ⟨alphabet, separators, hbefore, rfl⟩ := construct_eq_ok_iff.mp hconstruct
  exact (takeGuards_perm opts alphabet separators).nodup_iff.mpr
    (divided_of_beforeGuards hbefore).nodup

/-- **The constructor ends with a partition of the given characters.**  In front of the guards the
alphabet has at most 3.5 times as many characters as the separators. -/
theorem construct_partition {opts : Options} {hs : Hashids} (hconstruct : construct opts = .ok hs) :
    hs.Partitions opts.given ∧
      ∃ alphabet separators, beforeGuards opts = .ok (alphabet, separators) ∧
        hs = takeGuards opts alphabet separators ∧
        (alphabet.length : ℚ) ≤ 3.5 * separators.length := by
  obtain ⟨alphabet, separators, hbefore, rfl⟩ := construct_eq_ok_iff.mp hconstruct
  have hdivided := divided_of_beforeGuards hbefore
  refine ⟨hdivided.partitions, alphabet, separators, hbefore, rfl, ?_⟩
  have hratio : ((2 * alphabet.length : ℕ) : ℚ) ≤ ((7 * separators.length : ℕ) : ℚ) :=
    Nat.cast_le.mpr hdivided.ratio
  push_cast at hratio
  linarith

/-- The guard is taken from the five characters that are not separators. -/
theorem construct_partition_guard :
    Partitions ⟨0, [], ascii "Zbde", baseSeparators, ascii "A"⟩
      (ascii "AZbdecfhistuCFHISTU") := by
  have hconstruct : construct ⟨[], ascii "AZbdecfhistuCFHISTU", 0⟩ =
      .ok ⟨0, [], ascii "Zbde", baseSeparators, ascii "A"⟩ := by decide
  exact (construct_partition hconstruct).1

end Eureka.Hashids
