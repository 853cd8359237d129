import Eureka.Hashids.Completion

/-!
# The round trip

* `decodeLoop_encodeLoop`: decoding follows the shuffles of encoding, and cuts the
  text where a separator was put.
* `guarded_of_wrapped`: the guards mark the text, whatever the padding.
* `decode_encode`, `decode_error_or_encode`: the two directions of the round trip,
  joined in `round_trip`.
-/

namespace Eureka.Hashids

variable {hs : Hashids}

/-! ## Disjoint alphabets -/

theorem Valid.not_mem_separators (hvalid : hs.Valid) {ch : Byte} (hch : ch ∈ hs.alphabet) :
    ch ∉ hs.separators := by
  intro hmem
  exact (List.nodup_append.mp hvalid).2.2 ch hch ch (List.mem_append_left _ hmem) rfl

theorem Valid.not_mem_guards (hvalid : hs.Valid) {ch : Byte}
    (hch : ch ∈ hs.alphabet ∨ ch ∈ hs.separators) : ch ∉ hs.guards := by
  intro hmem
  rcases hch with hch | hch
  · exact (List.nodup_append.mp hvalid).2.2 ch hch ch (List.mem_append_right _ hmem) rfl
  · exact (List.nodup_append.mp (List.nodup_append.mp hvalid).2.1).2.2 ch hch ch hmem rfl

/-! ## The loops -/

/-- **Decoding follows the shuffles of encoding.** -/
theorem decodeLoop_encodeLoop (hvalid : hs.Valid) {lottery : Byte} {i : ℕ} {alphabet : Bytes}
    {values : List UInt64} {text last : Bytes} (hperm : alphabet.Perm hs.alphabet)
    (hvalues : values ≠ [])
    (hloop : hs.encodeLoop lottery i alphabet values = .ok (text, last)) :
    hs.decodeLoop lottery alphabet (text.dropLast.splitOnP (· ∈ hs.separators)) =
      .ok values := by
  induction values generalizing i alphabet text with
  | nil => exact absurd rfl hvalues
  | cons value values ih =>
      obtain ⟨alphabet', hashed, separator, rest, hnext, hhashed, hseparator, hrest, rfl⟩ :=
        encodeLoop_cons hloop
      have hperm' := (nextAlphabet_perm hnext).trans hperm
      have hnodup : alphabet'.Nodup :=
        hperm'.nodup_iff.mpr (List.nodup_append.mp hvalid).1
      have hplain : ∀ ch ∈ hashed, decide (ch ∈ hs.separators) = false := fun ch hch =>
        decide_eq_false
          (hvalid.not_mem_separators (hperm'.subset (mem_alphabet_of_hashNumber hhashed ch hch)))
      cases values with
      | nil =>
          rw [encodeLoop] at hrest
          obtain ⟨rfl, -⟩ := Prod.mk.inj (Except.ok.inj hrest)
          rw [List.dropLast_concat, List.splitOnP_eq_singleton hplain, decodeLoop, hnext]
          change Except.ok [unhash hashed alphabet'] = _
          rw [unhash_hashNumber hnodup hhashed]
      | cons value' values =>
          have hne := encodeLoop_ne_nil (List.cons_ne_nil _ _) hrest
          rw [List.dropLast_append_cons, List.dropLast_cons_of_ne_nil hne,
            List.splitOnP_append_cons_of_forall_mem hplain _ (decide_eq_true hseparator),
            decodeLoop, hnext]
          have ih := ih hperm' (List.cons_ne_nil _ _) hrest
          change (hs.decodeLoop lottery alphabet' _ >>= fun nums =>
            Except.ok (unhash hashed alphabet' :: nums)) = _
          rw [ih, unhash_hashNumber hnodup hhashed]
          rfl

/-! ## The guards -/

/-- **The guards mark the text.** -/
theorem guarded_of_wrapped (hvalid : hs.Valid) {alphabet encoded hashid : Bytes}
    (hperm : alphabet.Perm hs.alphabet)
    (hencoded : ∀ ch ∈ encoded, ch ∈ hs.alphabet ∨ ch ∈ hs.separators)
    (hwrapped : Wrapped alphabet hs.guards encoded hashid) :
    guarded (hashid.splitOnP (· ∈ hs.guards)) = .ok encoded := by
  have hplain : ∀ ch ∈ encoded, decide (ch ∈ hs.guards) = false :=
    fun ch hch => decide_eq_false (hvalid.not_mem_guards (hencoded ch hch))
  have hpadding : ∀ {padding : Bytes}, padding ⊆ alphabet →
      ∀ ch ∈ padding, decide (ch ∈ hs.guards) = false :=
    fun hsub ch hch =>
      decide_eq_false (hvalid.not_mem_guards (.inl (hperm.subset (hsub hch))))
  cases hwrapped with
  | bare => rw [List.splitOnP_eq_singleton hplain, guarded]
  | @head guard hguard =>
      rw [List.splitOnP_cons_eq_if_modifyHead, if_pos (decide_eq_true hguard),
        List.splitOnP_eq_singleton hplain, guarded]
  | @both before after headGuard tailGuard hhead htail hbefore hafter =>
      rw [List.splitOnP_append_cons_of_forall_mem (hpadding hbefore) _ (decide_eq_true hhead),
        List.splitOnP_append_cons_of_forall_mem hplain _ (decide_eq_true htail),
        List.splitOnP_eq_singleton (hpadding hafter), guarded]

/-! ## The round trip -/

variable {maxSize : ℕ}

theorem wrapped_of_encode {values : List UInt64} {hashid : Bytes} (hvalues : values ≠ [])
    (hencode : hs.encode maxSize values = .ok hashid) :
    ∃ lottery text last, lottery ∈ hs.alphabet ∧
      hs.encodeLoop lottery 0 hs.alphabet values = .ok (text, last) ∧
      Wrapped last hs.guards (lottery :: text.dropLast) hashid := by
  unfold encode at hencode
  rw [if_neg (List.isEmpty_iff.not.mpr hvalues)] at hencode
  split at hencode
  · cases hencode
  · rename_i lottery hlottery
    split_ifs at hencode
    obtain ⟨⟨text, last⟩, hloop, hencode⟩ := bind_eq_ok.mp hencode
    refine ⟨lottery, text, last, List.mem_of_getElem? hlottery, hloop, ?_⟩
    rw [← List.dropLast_cons_of_ne_nil (encodeLoop_ne_nil hvalues hloop)]
    dsimp only at hencode
    by_cases hlong : maxSize < (lottery :: text).length
    · rw [if_pos hlong] at hencode
      cases hencode
    rw [if_neg hlong] at hencode
    split_ifs at hencode
    · exact wrapped_of_ensureMinimumLength hencode
    · obtain rfl := Except.ok.inj hencode
      exact .bare

theorem Wrapped.ne_nil {alphabet guards encoded hashid : Bytes} (hencoded : encoded ≠ [])
    (hwrapped : Wrapped alphabet guards encoded hashid) : hashid ≠ [] := by
  cases hwrapped with
  | bare => exact hencoded
  | head => exact List.cons_ne_nil _ _
  | both => exact List.append_ne_nil_of_right_ne_nil _ (List.cons_ne_nil _ _)

section Split

variable {split : Bytes → Bytes → List Bytes}
  (hsplit : ∀ delims text, split delims text = text.splitOnP (· ∈ delims))
include hsplit

/-- **Decoding inverts encoding.** -/
theorem decode_encode (hvalid : hs.Valid) {values : List UInt64} {hashid : Bytes}
    (hvalues : values ≠ []) (hencode : hs.encode maxSize values = .ok hashid) :
    hs.decode maxSize split hashid = .ok values := by
  obtain ⟨lottery, text, last, hlottery, hloop, hwrapped⟩ := wrapped_of_encode hvalues hencode
  have hencoded : ∀ ch ∈ lottery :: text.dropLast, ch ∈ hs.alphabet ∨ ch ∈ hs.separators := by
    intro ch hch
    rcases List.mem_cons.mp hch with rfl | hch
    · exact .inl hlottery
    · exact mem_of_encodeLoop (.refl _) hloop ch (List.dropLast_subset _ hch)
  unfold decode
  rw [if_neg (List.isEmpty_iff.not.mpr (hwrapped.ne_nil (List.cons_ne_nil _ _))), hsplit,
    guarded_of_wrapped hvalid (encodeLoop_perm hloop) hencoded hwrapped]
  change (hs.decodeLoop lottery hs.alphabet (split hs.separators text.dropLast) >>= _) = _
  rw [hsplit, decodeLoop_encodeLoop hvalid (.refl _) hvalues hloop]
  change (hs.encode maxSize values >>= _) = _
  rw [hencode]
  change (if hashid ≠ hashid then _ else _) = _
  rw [if_neg (not_not.mpr rfl)]
  rfl

end Split

theorem decodeLoop_completes (hs : Hashids) (lottery : Byte) {alphabet : Bytes}
    (halphabet : alphabet ≠ []) (parts : List Bytes) :
    ∃ nums, hs.decodeLoop lottery alphabet parts = .ok nums ∧ nums.length = parts.length := by
  induction parts generalizing alphabet with
  | nil => exact ⟨[], rfl, rfl⟩
  | cons hashed parts ih =>
      obtain ⟨alphabet', hnext⟩ := nextAlphabet_completes hs lottery halphabet
      obtain ⟨nums, hnums, hlength⟩ := ih (ne_nil_of_perm (nextAlphabet_perm hnext) halphabet)
      refine ⟨unhash hashed alphabet' :: nums, ?_, congrArg Nat.succ hlength⟩
      rw [decodeLoop, hnext]
      change hs.decodeLoop lottery alphabet' parts >>= _ = _
      rw [hnums]
      rfl

theorem guarded_error {parts : List Bytes} {failure : Failure}
    (hguarded : guarded parts = .error failure) : ∃ what, failure = .invalidArgument what := by
  unfold guarded at hguarded
  split at hguarded
  · exact nomatch hguarded
  · exact nomatch hguarded
  · exact nomatch hguarded
  · exact ⟨_, (Except.error.inj hguarded).symm⟩

theorem length_splitOnP_le (p : Byte → Bool) (text : Bytes) :
    (text.splitOnP p).length ≤ text.length + 1 := by
  induction text with
  | nil => exact le_refl 1
  | cons ch text ih =>
      rw [List.splitOnP_cons_eq_if_modifyHead]
      split_ifs
      · exact Nat.succ_le_succ ih
      · rw [List.length_modifyHead]
        exact ih.trans (Nat.le_succ _)

theorem length_le_of_mem_splitOnP {p : Byte → Bool} {text part : Bytes}
    (hpart : part ∈ text.splitOnP p) : part.length ≤ text.length := by
  induction text generalizing part with
  | nil =>
      obtain rfl := List.mem_singleton.mp hpart
      exact le_refl 0
  | cons ch text ih =>
      rw [List.splitOnP_cons_eq_if_modifyHead] at hpart
      split_ifs at hpart
      · obtain rfl | hpart := List.mem_cons.mp hpart
        · exact Nat.zero_le _
        · exact (ih hpart).trans (Nat.le_succ _)
      · obtain ⟨first, rest, hparts⟩ := List.exists_cons_of_ne_nil (List.splitOnP_ne_nil p text)
        rw [hparts, List.modifyHead_cons] at hpart
        rw [hparts] at ih
        obtain rfl | hpart := List.mem_cons.mp hpart
        · exact Nat.succ_le_succ (ih List.mem_cons_self)
        · exact (ih (List.mem_cons_of_mem _ hpart)).trans (Nat.le_succ _)

theorem mem_of_guarded {parts : List Bytes} {encoded : Bytes} (hguarded : guarded parts = .ok encoded) :
    encoded ∈ parts := by
  unfold guarded at hguarded
  split at hguarded
  · obtain rfl := Except.ok.inj hguarded
    exact List.mem_cons_self
  · obtain rfl := Except.ok.inj hguarded
    exact List.mem_cons_of_mem _ List.mem_cons_self
  · obtain rfl := Except.ok.inj hguarded
    exact List.mem_cons_of_mem _ List.mem_cons_self
  · cases hguarded

/-- **What decoding accepts is an encoding.**  Every other text is an
`std::invalid_argument`.  A text has no more numbers than characters. -/
theorem decode_error_or_encode (hstocked : hs.Stocked) {split : Bytes → Bytes → List Bytes}
    (hsplit : ∀ delims text, split delims text = text.splitOnP (· ∈ delims)) {hashid : Bytes}
    (hencode : ∀ values, values ≠ [] → values.length ≤ hashid.length →
      ∃ again, hs.encode maxSize values = .ok again) :
    (∃ what, hs.decode maxSize split hashid = .error (.invalidArgument what)) ∨
      ∃ nums, hs.decode maxSize split hashid = .ok nums ∧ hs.encode maxSize nums = .ok hashid := by
  unfold decode
  split_ifs with hempty
  · obtain rfl := List.isEmpty_iff.mp hempty
    exact .inr ⟨[], rfl, rfl⟩
  · cases hguarded : guarded (split hs.guards hashid) with
    | error failure =>
        obtain ⟨what, rfl⟩ := guarded_error hguarded
        exact .inl ⟨what, rfl⟩
    | ok encoded =>
        have hmem := mem_of_guarded hguarded
        rw [hsplit] at hmem
        have hshort := length_le_of_mem_splitOnP hmem
        cases encoded with
        | nil => exact .inl ⟨_, rfl⟩
        | cons lottery encoded =>
            have hparts := length_splitOnP_le (· ∈ hs.separators) encoded
            rw [← hsplit] at hparts
            obtain ⟨nums, hnums, hlength⟩ := decodeLoop_completes hs lottery
              hstocked.alphabet_ne (split hs.separators encoded)
            have hne : nums ≠ [] := by
              rintro rfl
              rw [hsplit, List.length_nil] at hlength
              exact List.splitOnP_ne_nil _ _ (List.eq_nil_of_length_eq_zero hlength.symm)
            rw [List.length_cons] at hshort
            obtain ⟨again, hagain⟩ := hencode nums hne (by omega)
            change (∃ what, (hs.decodeLoop lottery hs.alphabet _ >>= _) = _) ∨
              ∃ nums, (hs.decodeLoop lottery hs.alphabet _ >>= _) = _ ∧ _
            rw [hnums]
            change (∃ what, (hs.encode maxSize nums >>= _) = _) ∨
              ∃ nums', (hs.encode maxSize nums >>= _) = _ ∧ _
            rw [hagain]
            by_cases hsame : again = hashid
            · refine .inr ⟨nums, ?_, hsame ▸ hagain⟩
              change (if again ≠ hashid then _ else _) = _
              rw [if_neg (not_not.mpr hsame)]
              rfl
            · refine .inl ⟨"hashid mismatched", ?_⟩
              change (if again ≠ hashid then _ else _) = _
              rw [if_pos hsame]
              rfl

/-- **The round trip.**  For all options that the constructor accepts, decoding inverts
every encoding that completes; and where the encodings of no more numbers than a text has
characters complete, decoding the text throws `std::invalid_argument` or inverts encoding. -/
theorem round_trip {split : Bytes → Bytes → List Bytes}
    (hsplit : ∀ delims text, split delims text = text.splitOnP (· ∈ delims))
    {opts : Options} {hs : Hashids} (hconstruct : construct opts = .ok hs) (maxSize : ℕ) :
    (∀ values hashid, values ≠ [] → hs.encode maxSize values = .ok hashid →
      hs.decode maxSize split hashid = .ok values) ∧
    ∀ hashid, (∀ values, values ≠ [] → values.length ≤ hashid.length →
        ∃ again, hs.encode maxSize values = .ok again) →
      (∃ what, hs.decode maxSize split hashid = .error (.invalidArgument what)) ∨
        ∃ nums, hs.decode maxSize split hashid = .ok nums ∧ hs.encode maxSize nums = .ok hashid :=
  ⟨fun _ _ hvalues hencode => decode_encode hsplit (valid_of_construct hconstruct) hvalues hencode,
    fun _ hencode => decode_error_or_encode (stocked_of_construct hconstruct) hsplit hencode⟩

/-- Options with a short alphabet, a salt, and a length to pad to. -/
def paddedOptions : Options := ⟨ascii "this is my salt", ascii "ABcfhistuCFHISTUXYZ", 20⟩

def paddedHashids : Hashids :=
  ⟨20, ascii "this is my salt", ascii "XZBA", ascii "UHuhtcITCsFifS", ascii "Y"⟩

theorem round_trip_paddedHashids :
    paddedHashids.decode (2 ^ 62 - 1) (fun delims text => text.splitOnP (· ∈ delims))
        (ascii "ZAABYXBAAABZXhAZYXZB") = .ok [12345, 7] ∧
      ∀ hashid, hashid.length < 2 ^ 32 →
        (∃ what, paddedHashids.decode (2 ^ 62 - 1)
          (fun delims text => text.splitOnP (· ∈ delims)) hashid = .error (.invalidArgument what)) ∨
        ∃ nums, paddedHashids.decode (2 ^ 62 - 1)
            (fun delims text => text.splitOnP (· ∈ delims)) hashid = .ok nums ∧
          paddedHashids.encode (2 ^ 62 - 1) nums = .ok hashid := by
  have hconstruct : construct paddedOptions = .ok paddedHashids := by decide
  have htrip := round_trip (fun _ _ => rfl) hconstruct (2 ^ 62 - 1)
  have hcomplete := complete_of_construct hconstruct (by decide)
  refine ⟨htrip.1 _ _ (List.cons_ne_nil _ _) (by decide +kernel), fun hashid hshort => ?_⟩
  refine htrip.2 hashid fun values hvalues hlength => encode_completes hcomplete hvalues ?_
  have halphabet : paddedHashids.minLen + paddedHashids.alphabet.length = 24 := by decide
  exact Fits.of_length hcomplete.two_le (by omega)

end Eureka.Hashids
