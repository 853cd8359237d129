import Eureka.Hashids.RoundTrip

/-!
# The minimum length

`ensure_minimum_length` ends with a text of exactly the minimum length, in which
the guards mark the text that was given to it (`encode_padded_iff`).
-/

namespace Eureka.Hashids

/-! ## The length of the padding -/

theorem length_padOnce_le (minLen mid : ℕ) (alphabet encoded : Bytes) :
    (padOnce minLen mid alphabet encoded).length ≤ minLen := by
  unfold padOnce
  dsimp only
  split_ifs with hlong
  · exact List.length_take_le _ _
  · exact not_lt.mp hlong

/-- No round makes the text longer than the minimum, so that is what it ends with. -/
theorem length_padLoop {maxSize minLen mid : ℕ} {alphabet encoded hashid : Bytes}
    (hle : encoded.length ≤ minLen)
    (hpad : padLoop maxSize minLen mid alphabet encoded = .ok hashid) :
    hashid.length = minLen := by
  fun_induction padLoop maxSize minLen mid alphabet encoded with
  | case1 alphabet encoded hlong =>
      obtain rfl := Except.ok.inj hpad
      exact le_antisymm hle hlong
  | case2 => cases hpad
  | case3 => cases hpad
  | case4 alphabet encoded hshort alphabet' hreorder hroom hgrows ih =>
      exact ih (length_padOnce_le minLen mid alphabet' encoded) hpad
  | case5 => cases hpad

theorem length_of_ensureMinimumLength {valueHash : UInt64} {maxSize minLen : ℕ}
    {prevAlphabet guards encoded hashid : Bytes} (hshort : encoded.length < minLen)
    (hensure : ensureMinimumLength valueHash maxSize minLen prevAlphabet guards encoded =
      .ok hashid) :
    hashid.length = minLen := by
  unfold ensureMinimumLength at hensure
  obtain ⟨headGuard, -, hensure⟩ := bind_eq_ok.mp hensure
  dsimp only at hensure
  split_ifs at hensure with hlong
  · obtain rfl := Except.ok.inj hensure
    rw [List.length_cons] at hlong ⊢
    omega
  · obtain ⟨-, -, hensure⟩ := bind_eq_ok.mp hensure
    obtain ⟨tailGuard, -, hpad⟩ := bind_eq_ok.mp hensure
    refine length_padLoop ?_ hpad
    rw [List.length_append, List.length_cons, List.length_singleton]
    rw [List.length_cons] at hlong
    omega

/-! ## The unpadded encoding -/

variable {hs : Hashids} {maxSize : ℕ}

/-- The same alphabets, without a minimum length. -/
def unpadded (hs : Hashids) : Hashids := { hs with minLen := 0 }

theorem encodeLoop_unpadded (hs : Hashids) (lottery : Byte) (i : ℕ) (alphabet : Bytes)
    (values : List UInt64) :
    hs.unpadded.encodeLoop lottery i alphabet values = hs.encodeLoop lottery i alphabet values := by
  induction values generalizing i alphabet with
  | nil => rfl
  | cons value values ih =>
      unfold encodeLoop
      simp only [ih]
      rfl

theorem encode_cases {values : List UInt64} {hashid : Bytes} (hvalues : values ≠ [])
    (hencode : hs.encode maxSize values = .ok hashid) :
    ∃ plain last, hs.unpadded.encode maxSize values = .ok plain ∧ last.Perm hs.alphabet ∧
      (∀ ch ∈ plain, ch ∈ hs.alphabet ∨ ch ∈ hs.separators) ∧
      (hs.minLen ≤ plain.length ∧ hashid = plain ∨ plain.length < hs.minLen ∧
        ensureMinimumLength (valueHash values) maxSize hs.minLen last hs.guards plain =
          .ok hashid) := by
  unfold encode at hencode ⊢
  rw [if_neg (List.isEmpty_iff.not.mpr hvalues)] at hencode ⊢
  have halphabet : hs.unpadded.alphabet = hs.alphabet := rfl
  rw [halphabet]
  split at hencode
  · cases hencode
  · next lottery hlottery =>
    split_ifs at hencode with hreserved
    obtain ⟨⟨text, last⟩, hloop, hencode⟩ := bind_eq_ok.mp hencode
    dsimp only at hencode
    by_cases hlong : maxSize < (lottery :: text).length
    · rw [if_pos hlong] at hencode
      cases hencode
    rw [if_neg hlong] at hencode
    refine ⟨(lottery :: text).dropLast, last, ?_, encodeLoop_perm hloop, ?_, ?_⟩
    · have hless : hs.unpadded.reserved values ≤ hs.reserved values :=
        max_le_max (le_refl _) (Nat.zero_le _)
      dsimp only
      rw [if_neg (not_lt.mpr (hless.trans (not_lt.mp hreserved)))]
      refine bind_eq_ok.mpr ⟨(text, last), (encodeLoop_unpadded hs _ _ _ _).trans hloop, ?_⟩
      dsimp only
      rw [if_neg hlong]
      exact if_neg (Nat.not_lt_zero _)
    · intro ch hch
      obtain rfl | hch := List.mem_cons.mp (List.dropLast_subset _ hch)
      · exact .inl (List.mem_of_getElem? hlottery)
      · exact mem_of_encodeLoop (.refl _) hloop ch hch
    · split_ifs at hencode with hshort
      · exact .inr ⟨hshort, hencode⟩
      · exact .inl ⟨not_lt.mp hshort, (Except.ok.inj hencode).symm⟩

/-! ## The padded text -/

/-- The text behind a guard or, if there is more than that, between two guards; there are no other
guards. -/
inductive Guarded (guards plain : Bytes) : Bytes → Prop
  | head {guard : Byte} (hguard : guard ∈ guards) (hplain : ∀ ch ∈ plain, ch ∉ guards) :
      Guarded guards plain (guard :: plain)
  | both {before after : Bytes} {headGuard tailGuard : Byte} (hhead : headGuard ∈ guards)
      (htail : tailGuard ∈ guards) (hbefore : ∀ ch ∈ before, ch ∉ guards)
      (hplain : ∀ ch ∈ plain, ch ∉ guards) (hafter : ∀ ch ∈ after, ch ∉ guards) :
      Guarded guards plain (before ++ headGuard :: (plain ++ tailGuard :: after))

/-- The hash has the minimum length at least, and its padding is marked by guards. -/
structure Padded (hs : Hashids) (plain hashid : Bytes) : Prop where
  length_eq : hashid.length = max hs.minLen plain.length
  bare : hs.minLen ≤ plain.length → hashid = plain
  guarded : plain.length < hs.minLen → Guarded hs.guards plain hashid

theorem Wrapped.guarded {alphabet plain hashid : Bytes} (hvalid : hs.Valid)
    (hperm : alphabet.Perm hs.alphabet)
    (hplain : ∀ ch ∈ plain, ch ∈ hs.alphabet ∨ ch ∈ hs.separators)
    (hwrapped : Wrapped alphabet hs.guards plain hashid) (hne : hashid ≠ plain) :
    Guarded hs.guards plain hashid := by
  have hplain : ∀ ch ∈ plain, ch ∉ hs.guards := fun ch hch => hvalid.not_mem_guards (hplain ch hch)
  have hpadding : ∀ {padding : Bytes}, padding ⊆ alphabet → ∀ ch ∈ padding, ch ∉ hs.guards :=
    fun hsub ch hch => hvalid.not_mem_guards (.inl (hperm.subset (hsub hch)))
  cases hwrapped with
  | bare => exact absurd rfl hne
  | head hguard => exact .head hguard hplain
  | both hhead htail hbefore hafter =>
      exact .both hhead htail (hpadding hbefore) hplain (hpadding hafter)

theorem padded_of_encode (hvalid : hs.Valid) {values : List UInt64} {hashid : Bytes}
    (hvalues : values ≠ []) (hencode : hs.encode maxSize values = .ok hashid) :
    ∃ plain, hs.unpadded.encode maxSize values = .ok plain ∧ hs.Padded plain hashid := by
  obtain ⟨plain, last, hunpadded, hperm, hplain, ⟨hlong, rfl⟩ | ⟨hshort, hensure⟩⟩ :=
    encode_cases hvalues hencode
  · exact ⟨hashid, hunpadded, (max_eq_right hlong).symm, fun _ => rfl,
      fun hshort => absurd hlong (not_le.mpr hshort)⟩
  · have hlength := length_of_ensureMinimumLength hshort hensure
    refine ⟨plain, hunpadded, hlength.trans (max_eq_left hshort.le).symm,
      fun hlong => absurd hlong (not_le.mpr hshort), fun _ => ?_⟩
    refine (wrapped_of_ensureMinimumLength hensure).guarded hvalid hperm hplain ?_
    rintro rfl
    omega

/-- **Encodings are padded to the minimum length**, unless the first number begins with NUL or
there is no room for them in a string. -/
theorem encode_padded_iff {opts : Options} (hconstruct : construct opts = .ok hs) (maxSize : ℕ)
    {values : List UInt64} (hvalues : values ≠ []) :
    (∃ plain hashid, hs.unpadded.encode maxSize values = .ok plain ∧
      hs.encode maxSize values = .ok hashid ∧ hs.Padded plain hashid) ↔
      ¬ hs.LeadsWithNul values ∧ hs.Fits maxSize values := by
  rw [← encode_completes_iff (stocked_of_construct hconstruct) hvalues]
  constructor
  · rintro ⟨plain, hashid, -, hencode, -⟩
    exact ⟨hashid, hencode⟩
  · rintro ⟨hashid, hencode⟩
    obtain ⟨plain, hunpadded, hpadded⟩ :=
      padded_of_encode (valid_of_construct hconstruct) hvalues hencode
    exact ⟨plain, hashid, hunpadded, hencode, hpadded⟩

theorem encode_padded_iff_paddedHashids :
    (∃ plain hashid, paddedHashids.unpadded.encode (2 ^ 62 - 1) [12345, 7] = .ok plain ∧
      paddedHashids.encode (2 ^ 62 - 1) [12345, 7] = .ok hashid ∧
      paddedHashids.Padded plain hashid) ↔
      ¬ paddedHashids.LeadsWithNul [12345, 7] ∧ paddedHashids.Fits (2 ^ 62 - 1) [12345, 7] :=
  encode_padded_iff (show construct paddedOptions = .ok paddedHashids by decide +kernel) _
    (List.cons_ne_nil _ _)

/-- An alphabet whose last character is NUL. -/
def nulHashids : Hashids :=
  ⟨20, [], ascii "klmnopqrvw" ++ [0], ascii "abdeg", ascii "j"⟩

/-- The leading digit of 27 is written as NUL, and the length of the encoding is undefined. -/
theorem encode_nul_undefined :
    construct ⟨[], ascii "abdegjklmnopqrvw" ++ [0], 20⟩ = .ok nulHashids ∧
      ¬ ∃ plain hashid, nulHashids.unpadded.encode (2 ^ 62 - 1) [27] = .ok plain ∧
        nulHashids.encode (2 ^ 62 - 1) [27] = .ok hashid ∧ nulHashids.Padded plain hashid := by
  have hundefined : nulHashids.encode (2 ^ 62 - 1) [27] = .error .undefined := by decide +kernel
  refine ⟨by decide, ?_⟩
  rintro ⟨plain, hashid, -, hencode, -⟩
  rw [hundefined] at hencode
  cases hencode

end Eureka.Hashids
