import Eureka.Hashids.EncodeLoop
import Eureka.Hashids.Partition

/-!
# Encoding completes

Over two or more characters, and with separators and guards at hand, `encode` ends with a
text for every list of numbers that does not begin with NUL and for which there is room in a
string (`encode_completes_iff`); where there is none, it throws `std::length_error`, and
otherwise it divides by zero (`encode_undefined_iff`).
-/

namespace Eureka.Hashids

/-- Alphabets from which a character can be taken wherever `encode` does so. -/
structure Stocked (hs : Hashids) : Prop where
  two_le : 2 ≤ hs.alphabet.length
  separators_ne : hs.separators ≠ []
  guards_ne : hs.guards ≠ []

theorem stocked_of_construct {opts : Options} {hs : Hashids} (hconstruct : construct opts = .ok hs) :
    hs.Stocked := by
  obtain ⟨hpartition, -⟩ := construct_partition hconstruct
  exact ⟨hpartition.two_le, hpartition.separators_ne, hpartition.guards_ne⟩

/-- Alphabets with which no division is by zero and no loop stands still. -/
structure Complete (hs : Hashids) : Prop where
  two_le : 2 ≤ hs.alphabet.length
  nul_notMem : 0 ∉ hs.alphabet
  separators_ne : hs.separators ≠ []
  guards_ne : hs.guards ≠ []

/-- **Every hashids whose options name no NUL encodes.** -/
theorem complete_of_construct {opts : Options} {hs : Hashids} (hconstruct : construct opts = .ok hs)
    (hnul : 0 ∉ opts.given) : hs.Complete := by
  obtain ⟨hpartition, -⟩ := construct_partition hconstruct
  refine ⟨hpartition.two_le, fun hmem => hnul ?_, hpartition.separators_ne, hpartition.guards_ne⟩
  exact (hpartition.mem_iff 0).mpr (.inl hmem)

theorem Complete.stocked {hs : Hashids} (hcomplete : hs.Complete) : hs.Stocked :=
  ⟨hcomplete.two_le, hcomplete.separators_ne, hcomplete.guards_ne⟩

theorem Stocked.alphabet_ne {hs : Hashids} (hstocked : hs.Stocked) : hs.alphabet ≠ [] :=
  List.ne_nil_of_length_pos (Nat.lt_of_lt_of_le Nat.two_pos hstocked.two_le)

theorem Complete.not_leadsWithNul {hs : Hashids} (hcomplete : hs.Complete) (values : List UInt64) :
    ¬ hs.LeadsWithNul values := by
  rintro ⟨value, -, lottery, -, alphabet, hnext, hnul⟩
  exact hcomplete.nul_notMem ((nextAlphabet_perm hnext).subset (List.mem_of_getElem? hnul))

theorem bind_completes {α β : Type} {x : Except Failure α} {f : α → Except Failure β} {a : α}
    (hx : x = .ok a) (hf : ∃ b, f a = .ok b) : ∃ b, x >>= f = .ok b := by
  obtain ⟨b, hb⟩ := hf
  exact ⟨b, bind_eq_ok.mpr ⟨a, hx, hb⟩⟩

theorem exists_getElem?_mod {str : Bytes} (hne : str ≠ []) (index : ℕ) :
    ∃ ch, str[index % str.length]? = some ch :=
  ⟨_, List.getElem?_eq_getElem (Nat.mod_lt _ (List.length_pos_of_ne_nil hne))⟩

theorem reorder_completes (salt : Bytes) {str : Bytes} (hstr : str ≠ []) :
    ∃ str', reorder salt str = .ok str' := by
  unfold reorder
  split_ifs with hsalt hempty
  · exact ⟨_, rfl⟩
  · exact absurd (List.isEmpty_iff.mp hempty) hstr
  · exact ⟨_, rfl⟩

theorem nextAlphabet_completes (hs : Hashids) (lottery : Byte) {alphabet : Bytes}
    (halphabet : alphabet ≠ []) :
    ∃ alphabet', hs.nextAlphabet lottery alphabet = .ok alphabet' :=
  reorder_completes _ halphabet

theorem hashDigits_completes {alphabet : Bytes} (halphabet : 2 ≤ alphabet.length) (number : ℕ) :
    ∃ digits, hashDigits alphabet number = .ok digits := by
  induction number using Nat.strongRecOn with
  | ind number ih =>
      have hne : alphabet ≠ [] := List.ne_nil_of_length_pos (by omega)
      obtain ⟨ch, hch⟩ := exists_getElem?_mod hne number
      rw [hashDigits, hch]
      dsimp only
      split_ifs with hlast hless
      · exact ⟨_, rfl⟩
      · obtain ⟨rest, hrest⟩ := ih _ hless
        rw [hrest]
        exact ⟨_, rfl⟩
      · have hpos : 0 < number :=
          Nat.pos_of_ne_zero fun hzero => hlast (by rw [hzero, Nat.zero_div])
        exact absurd (Nat.div_lt_self hpos halphabet) hless

theorem hashNumber_completes {alphabet : Bytes} (halphabet : 2 ≤ alphabet.length)
    (number : UInt64) : ∃ hashed, hashNumber number alphabet = .ok hashed := by
  obtain ⟨digits, hdigits⟩ := hashDigits_completes halphabet number.toNat
  exact ⟨digits.reverse, by rw [hashNumber, hdigits]; rfl⟩

/-! ## Padding -/

theorem length_padOnce {minLen : ℕ} (alphabet : Bytes) {encoded : Bytes}
    (hshort : encoded.length < minLen) :
    (padOnce minLen (alphabet.length / 2) alphabet encoded).length =
      min minLen (encoded.length + alphabet.length) := by
  unfold padOnce
  dsimp only
  split_ifs with hlong
  · rw [List.length_append, List.length_append, List.length_drop, List.length_take] at hlong
    rw [List.length_take, List.length_drop, List.length_append, List.length_append,
      List.length_drop, List.length_take]
    omega
  · rw [List.length_append, List.length_append, List.length_drop, List.length_take] at hlong ⊢
    omega

/-- The length that the padding reaches before it is cut: whole rounds, up to the minimum. -/
def paddedLength (minLen round size : ℕ) : ℕ :=
  size + round * ((minLen - size + (round - 1)) / round)

theorem paddedLength_of_le {minLen round size : ℕ} (hshort : size < minLen)
    (hle : minLen ≤ size + round) : paddedLength minLen round size = size + round := by
  have hone : (minLen - size + (round - 1)) / round = 1 :=
    Nat.div_eq_of_lt_le (by omega) (by omega)
  rw [paddedLength, hone, Nat.mul_one]

theorem paddedLength_of_lt {minLen round size : ℕ} (hround : 0 < round)
    (hlt : size + round < minLen) :
    paddedLength minLen round size = paddedLength minLen round (size + round) := by
  have hsplit : minLen - size + (round - 1) = minLen - (size + round) + (round - 1) + round := by
    omega
  rw [paddedLength, paddedLength, hsplit, Nat.add_div_right _ hround, Nat.mul_succ]
  omega

/-- There is room for the padding, if there is any. -/
def HasRoom (maxSize minLen round size : ℕ) : Prop :=
  size < minLen → paddedLength minLen round size ≤ maxSize

instance (maxSize minLen round size : ℕ) : Decidable (HasRoom maxSize minLen round size) :=
  inferInstanceAs (Decidable (_ → _))

theorem padLoop_ends {maxSize minLen mid : ℕ} {alphabet encoded : Bytes}
    (hmid : mid = alphabet.length / 2) (halphabet : alphabet ≠ []) :
    (∃ hashid, padLoop maxSize minLen mid alphabet encoded = .ok hashid) ∧
        HasRoom maxSize minLen alphabet.length encoded.length ∨
      padLoop maxSize minLen mid alphabet encoded = .error .lengthError ∧
        ¬ HasRoom maxSize minLen alphabet.length encoded.length := by
  fun_induction padLoop maxSize minLen mid alphabet encoded with
  | case1 alphabet encoded hlong =>
      exact .inl ⟨⟨_, rfl⟩, fun hshort => absurd hlong (not_le.mpr hshort)⟩
  | case2 alphabet encoded hshort failure hreorder =>
      obtain ⟨alphabet', hreorder'⟩ := reorder_completes alphabet halphabet
      rw [hreorder'] at hreorder
      cases hreorder
  | case3 alphabet encoded hshort alphabet' hreorder hroom =>
      rw [(reorder_perm hreorder).length_eq] at hroom
      have hround := List.length_pos_of_ne_nil halphabet
      refine .inr ⟨rfl, fun hfits => ?_⟩
      have hle := hfits (not_le.mp hshort)
      rcases le_or_gt minLen (encoded.length + alphabet.length) with hlast | hmore
      · rw [paddedLength_of_le (not_le.mp hshort) hlast] at hle
        omega
      · rw [paddedLength_of_lt hround hmore, paddedLength] at hle
        omega
  | case4 alphabet encoded hshort alphabet' hreorder hroom hgrows ih =>
      have hperm := reorder_perm hreorder
      rw [← hperm.length_eq] at hmid ⊢
      have hround := List.length_pos_of_ne_nil (ne_nil_of_perm hperm halphabet)
      have hends := ih hmid (ne_nil_of_perm hperm halphabet)
      rw [hmid, length_padOnce alphabet' (not_le.mp hshort), ← hmid] at hends
      -- the rounds that are left need as much room as before
      have hiff : HasRoom maxSize minLen alphabet'.length
            (min minLen (encoded.length + alphabet'.length)) ↔
          HasRoom maxSize minLen alphabet'.length encoded.length := by
        unfold HasRoom
        rcases le_or_gt minLen (encoded.length + alphabet'.length) with hlast | hmore
        · rw [min_eq_left hlast, paddedLength_of_le (not_le.mp hshort) hlast]
          exact iff_of_true (fun hlt => absurd hlt (lt_irrefl _)) fun _ => not_lt.mp hroom
        · rw [min_eq_right hmore.le, paddedLength_of_lt hround hmore]
          exact imp_congr_left (iff_of_true hmore (not_le.mp hshort))
      rwa [hiff] at hends
  | case5 alphabet encoded hshort alphabet' hreorder hroom hstuck =>
      have hperm := reorder_perm hreorder
      have hround := List.length_pos_of_ne_nil (ne_nil_of_perm hperm halphabet)
      rw [hmid, ← hperm.length_eq, length_padOnce alphabet' (not_le.mp hshort)] at hstuck
      omega

theorem guardFor_completes {guards : Bytes} (hguards : guards ≠ []) (valueHash : UInt64)
    (ch : Byte) : ∃ guard, guardFor valueHash guards (some ch) = .ok guard := by
  obtain ⟨guard, hguard⟩ :=
    exists_getElem?_mod hguards (valueHash + UInt64.ofNat ch.toNat).toNat
  exact ⟨guard, by rw [guardFor, Option.bind_some, hguard]⟩

theorem ensureMinimumLength_ends {prevAlphabet guards encoded : Bytes}
    (halphabet : prevAlphabet ≠ []) (hguards : guards ≠ []) (hencoded : 2 ≤ encoded.length)
    (valueHash : UInt64) (maxSize minLen : ℕ) :
    (∃ hashid, ensureMinimumLength valueHash maxSize minLen prevAlphabet guards encoded =
          .ok hashid) ∧ HasRoom maxSize minLen prevAlphabet.length (encoded.length + 2) ∨
      ensureMinimumLength valueHash maxSize minLen prevAlphabet guards encoded =
          .error .lengthError ∧
        ¬ HasRoom maxSize minLen prevAlphabet.length (encoded.length + 2) := by
  obtain ⟨ch, ch', rest, rfl⟩ : ∃ ch ch' rest, encoded = ch :: ch' :: rest := by
    match encoded, hencoded with
    | ch :: ch' :: rest, _ => exact ⟨ch, ch', rest, rfl⟩
  obtain ⟨headGuard, hhead⟩ := guardFor_completes hguards valueHash ch
  obtain ⟨tailGuard, htail⟩ := guardFor_completes hguards valueHash ch'
  have heq : ensureMinimumLength valueHash maxSize minLen prevAlphabet guards (ch :: ch' :: rest) =
      if (headGuard :: ch :: ch' :: rest).length ≥ minLen then
        .ok (headGuard :: ch :: ch' :: rest)
      else
        padLoop maxSize minLen (prevAlphabet.length / 2) prevAlphabet
          (headGuard :: ch :: ch' :: rest ++ [tailGuard]) := by
    unfold ensureMinimumLength
    rw [List.getElem?_cons_zero, hhead]
    change (if _ then _ else _) = _
    refine if_congr Iff.rfl rfl ?_
    change guardFor valueHash guards (some ch') >>= _ = _
    rw [htail]
    rfl
  rw [heq]
  split_ifs with hlong
  · refine .inl ⟨⟨_, rfl⟩, fun hshort => ?_⟩
    rw [List.length_cons] at hlong
    omega
  · have hlength : (headGuard :: ch :: ch' :: rest ++ [tailGuard]).length =
        (ch :: ch' :: rest).length + 2 := by
      rw [List.length_append, List.length_cons, List.length_singleton]
    rw [← hlength]
    exact padLoop_ends rfl halphabet

/-! ## `encode` -/

theorem separatorFor_completes {hs : Hashids} (hstocked : hs.Stocked) {i : ℕ}
    (number : UInt64) {hashed : Bytes} (hhashed : hashed ≠ [])
    (hnul : i = 0 → hashed.head? ≠ some 0) :
    ∃ separator, hs.separatorFor i number hashed = .ok separator := by
  cases hashed with
  | nil => exact absurd rfl hhashed
  | cons first rest =>
      have hfirst : first.toNat + i ≠ 0 := by
        intro hzero
        refine hnul (by omega) (congrArg some ?_)
        exact UInt8.toNat_inj.mp (Nat.eq_zero_of_add_eq_zero_right hzero)
      obtain ⟨separator, hseparator⟩ :=
        exists_getElem?_mod hstocked.separators_ne (number.toNat % (first.toNat + i))
      refine ⟨separator, ?_⟩
      rw [separatorFor, List.head?_cons]
      dsimp only
      rw [if_neg hfirst, hseparator]

/-- Only the first number can fail, where NUL stands at the position of its leading digit. -/
theorem encodeLoop_completes {hs : Hashids} (hstocked : hs.Stocked) (lottery : Byte) (i : ℕ)
    {alphabet : Bytes} (hperm : alphabet.Perm hs.alphabet) {values : List UInt64}
    (hnul : i = 0 → ∀ value ∈ values.head?, ∀ alphabet',
      hs.nextAlphabet lottery alphabet = .ok alphabet' →
        alphabet'[leadingDigit alphabet'.length value.toNat]? ≠ some 0) :
    ∃ result, hs.encodeLoop lottery i alphabet values = .ok result := by
  induction values generalizing i alphabet with
  | nil => exact ⟨_, rfl⟩
  | cons value values ih =>
      obtain ⟨alphabet', hnext⟩ :=
        nextAlphabet_completes hs lottery (ne_nil_of_perm hperm hstocked.alphabet_ne)
      have hperm' := (nextAlphabet_perm hnext).trans hperm
      have htwo : 2 ≤ alphabet'.length := hperm'.length_eq ▸ hstocked.two_le
      obtain ⟨hashed, hhashed⟩ := hashNumber_completes htwo value
      obtain ⟨separator, hseparator⟩ := separatorFor_completes hstocked value
        (hashNumber_ne_nil hhashed) fun hi =>
          (hashNumber_spec htwo hhashed).1 ▸ hnul hi value rfl alphabet' hnext
      obtain ⟨⟨rest, last⟩, hrest⟩ := ih (i + 1) hperm' (fun hi => absurd hi (Nat.succ_ne_zero i))
      unfold encodeLoop
      refine bind_completes hnext (bind_completes hhashed (bind_completes hseparator ?_))
      exact bind_completes hrest ⟨_, rfl⟩

/-- There is room in a string for what `encode` reserves, writes and pads. -/
structure Fits (hs : Hashids) (maxSize : ℕ) (values : List UInt64) : Prop where
  reserved_le : hs.reserved values ≤ maxSize
  text_le : hs.textLength values ≤ maxSize
  hasRoom : HasRoom maxSize hs.minLen hs.alphabet.length (hs.textLength values + 1)

instance (hs : Hashids) (maxSize : ℕ) (values : List UInt64) : Decidable (hs.Fits maxSize values) :=
  decidable_of_iff (hs.reserved values ≤ maxSize ∧ hs.textLength values ≤ maxSize ∧
      HasRoom maxSize hs.minLen hs.alphabet.length (hs.textLength values + 1))
    ⟨fun h => ⟨h.1, h.2.1, h.2.2⟩, fun h => ⟨h.1, h.2, h.3⟩⟩

variable {hs : Hashids} {maxSize : ℕ} {values : List UInt64}

theorem Fits.of_length (htwo : 2 ≤ hs.alphabet.length)
    (hlength : hs.minLen + hs.alphabet.length + 65 * values.length + 2 ≤ maxSize) :
    hs.Fits maxSize values := by
  have htext : hs.textLength values ≤ 1 + 65 * values.length := by
    have hsum := List.sum_le_card_nsmul
      (values.map fun value => Nat.log hs.alphabet.length value.toNat + 2) 65 ?_
    · rw [List.length_map, smul_eq_mul] at hsum
      rw [textLength]
      omega
    · intro digits hdigits
      obtain ⟨value, -, rfl⟩ := List.mem_map.mp hdigits
      have hlog : Nat.log hs.alphabet.length value.toNat < 64 := by
        by_cases hzero : value.toNat = 0
        · rw [hzero, Nat.log_zero_right]
          decide
        · refine Nat.log_lt_of_lt_pow hzero (value.toNat_lt.trans_le ?_)
          exact Nat.pow_le_pow_left htwo 64
      omega
  refine ⟨max_le ?_ (by omega), by omega, fun hshort => ?_⟩
  · have hmod := Nat.mod_le (values.length * encodedRatio) (2 ^ 64)
    unfold encodedRatio at hmod ⊢
    omega
  · have hrounds := Nat.mul_div_le
      (hs.minLen - (hs.textLength values + 1) + (hs.alphabet.length - 1)) hs.alphabet.length
    rw [paddedLength]
    omega

theorem encode_of_not_reserved (hstocked : hs.Stocked) (hvalues : values ≠ [])
    (hreserved : maxSize < hs.reserved values) :
    hs.encode maxSize values = .error .lengthError := by
  obtain ⟨lottery, hlottery⟩ :=
    exists_getElem?_mod hstocked.alphabet_ne (valueHash values).toNat
  rw [encode, if_neg (List.isEmpty_iff.not.mpr hvalues), hlottery]
  exact if_pos hreserved

/-- **The division by zero.** -/
theorem encode_of_leadsWithNul (hstocked : hs.Stocked) (hreserved : hs.reserved values ≤ maxSize)
    (hnul : hs.LeadsWithNul values) : hs.encode maxSize values = .error .undefined := by
  obtain ⟨value, hvalue, lottery, hlottery, alphabet, hnext, hnul⟩ := hnul
  obtain ⟨values, rfl⟩ := List.head?_eq_some_iff.mp hvalue
  have hlength : 2 ≤ alphabet.length := (nextAlphabet_perm hnext).length_eq ▸ hstocked.two_le
  obtain ⟨hashed, hhashed⟩ := hashNumber_completes hlength value
  have hloop : hs.encodeLoop lottery 0 hs.alphabet (value :: values) = .error .undefined := by
    rw [encodeLoop, hnext]
    change hashNumber value alphabet >>= _ = _
    rw [hhashed]
    change hs.separatorFor 0 value hashed >>= _ = _
    rw [separatorFor_of_nul value ((hashNumber_spec hlength hhashed).1.trans hnul)]
    rfl
  rw [encode, if_neg (by exact Bool.false_ne_true), hlottery]
  dsimp only
  rw [if_neg (not_lt.mpr hreserved), hloop]
  rfl

theorem encode_of_not_leadsWithNul (hstocked : hs.Stocked) (hvalues : values ≠ [])
    (hreserved : hs.reserved values ≤ maxSize) (hnul : ¬ hs.LeadsWithNul values) :
    (∃ hashid, hs.encode maxSize values = .ok hashid) ∧ hs.Fits maxSize values ∨
      hs.encode maxSize values = .error .lengthError ∧ ¬ hs.Fits maxSize values := by
  obtain ⟨lottery, hlottery⟩ :=
    exists_getElem?_mod hstocked.alphabet_ne (valueHash values).toNat
  obtain ⟨⟨text, last⟩, hloop⟩ := encodeLoop_completes hstocked lottery 0 (.refl _)
    fun _ value hvalue alphabet' hnext hzero =>
      hnul ⟨value, hvalue, lottery, hlottery, alphabet', hnext, hzero⟩
  have htext := length_encodeLoop_eq (.refl _) hstocked.two_le hloop
  have hlast := encodeLoop_perm hloop
  have hencode : hs.encode maxSize values =
      if maxSize < hs.textLength values then .error .lengthError
      else if (lottery :: text).dropLast.length < hs.minLen then
        ensureMinimumLength (valueHash values) maxSize hs.minLen last hs.guards
          (lottery :: text).dropLast
      else .ok (lottery :: text).dropLast := by
    rw [encode, if_neg (List.isEmpty_iff.not.mpr hvalues), hlottery]
    dsimp only
    rw [if_neg (not_lt.mpr hreserved), hloop, ← htext]
    rfl
  rw [hencode]
  by_cases hlong : maxSize < hs.textLength values
  · rw [if_pos hlong]
    exact .inr ⟨rfl, fun hfits => absurd hfits.text_le (not_le.mpr hlong)⟩
  rw [if_neg hlong]
  have hdigits := length_encodeLoop hloop
  have hpos := List.length_pos_of_ne_nil hvalues
  have hresult : (lottery :: text).dropLast.length + 1 = hs.textLength values := by
    rw [List.length_dropLast, ← htext, List.length_cons]
    omega
  have hfits : hs.Fits maxSize values ↔
      HasRoom maxSize hs.minLen last.length ((lottery :: text).dropLast.length + 2) := by
    rw [hlast.length_eq, show (lottery :: text).dropLast.length + 2 = hs.textLength values + 1 by
      omega]
    exact ⟨fun hfits => hfits.hasRoom, fun hroom => ⟨hreserved, not_lt.mp hlong, hroom⟩⟩
  rw [hfits]
  split_ifs with hshort
  · refine ensureMinimumLength_ends (ne_nil_of_perm hlast hstocked.alphabet_ne) hstocked.guards_ne
      ?_ _ _ _
    rw [List.length_cons] at htext
    omega
  · exact .inl ⟨⟨_, rfl⟩, fun hroom => by omega⟩

/-- **When encoding completes.** -/
theorem encode_completes_iff (hstocked : hs.Stocked) (hvalues : values ≠ []) :
    (∃ hashid, hs.encode maxSize values = .ok hashid) ↔
      ¬ hs.LeadsWithNul values ∧ hs.Fits maxSize values := by
  rcases lt_or_ge maxSize (hs.reserved values) with hlong | hreserved
  · rw [encode_of_not_reserved hstocked hvalues hlong]
    exact iff_of_false nofun fun hfits => absurd hfits.2.reserved_le (not_le.mpr hlong)
  by_cases hnul : hs.LeadsWithNul values
  · rw [encode_of_leadsWithNul hstocked hreserved hnul]
    exact iff_of_false nofun fun hfits => hfits.1 hnul
  rw [and_iff_right hnul]
  rcases encode_of_not_leadsWithNul hstocked hvalues hreserved hnul with
    ⟨hencode, hfits⟩ | ⟨hencode, hfits⟩
  · exact iff_of_true hencode hfits
  · rw [hencode]
    exact iff_of_false nofun hfits

/-- **When encoding is undefined.** -/
theorem encode_undefined_iff (hstocked : hs.Stocked) :
    hs.encode maxSize values = .error .undefined ↔
      hs.reserved values ≤ maxSize ∧ hs.LeadsWithNul values := by
  by_cases hvalues : values = []
  · subst hvalues
    refine iff_of_false nofun ?_
    rintro ⟨-, value, hvalue, -⟩
    cases hvalue
  rcases lt_or_ge maxSize (hs.reserved values) with hlong | hreserved
  · rw [encode_of_not_reserved hstocked hvalues hlong]
    exact iff_of_false nofun fun hfits => absurd hfits.1 (not_le.mpr hlong)
  by_cases hnul : hs.LeadsWithNul values
  · exact iff_of_true (encode_of_leadsWithNul hstocked hreserved hnul) ⟨hreserved, hnul⟩
  · refine iff_of_false (fun hundefined => ?_) fun hleads => hnul hleads.2
    rcases encode_of_not_leadsWithNul hstocked hvalues hreserved hnul with
      ⟨⟨hashid, hencode⟩, -⟩ | ⟨hencode, -⟩ <;> exact nomatch hencode.symm.trans hundefined

/-- **Encoding completes**, where there is room. -/
theorem encode_completes (hcomplete : hs.Complete) (hvalues : values ≠ [])
    (hfits : hs.Fits maxSize values) : ∃ hashid, hs.encode maxSize values = .ok hashid :=
  (encode_completes_iff hcomplete.stocked hvalues).mpr
    ⟨hcomplete.not_leadsWithNul values, hfits⟩

/-! ## Construction -/

/-- The shuffle of the separators needs one, unless there is no salt. -/
theorem reorder_completes_iff {salt str : Bytes} :
    (∃ str', reorder salt str = .ok str') ↔ salt = [] ∨ str ≠ [] := by
  constructor
  · rintro ⟨str', hreorder⟩
    by_contra hnot
    obtain ⟨hsalt, hstr⟩ := not_or.mp hnot
    obtain rfl := not_not.mp hstr
    unfold reorder at hreorder
    rw [if_neg (List.isEmpty_iff.not.mpr hsalt), if_pos List.isEmpty_nil] at hreorder
    cases hreorder
  · rintro (rfl | hstr)
    · exact ⟨str, rfl⟩
    · exact reorder_completes salt hstr

/-- **When the constructor completes**, on an alphabet with enough characters. -/
theorem construct_completes_iff {opts : Options} (hsixteen : 16 ≤ opts.given.toFinset.card) :
    (∃ hs, construct opts = .ok hs) ↔ opts.salt = [] ∨ ∃ ch ∈ baseSeparators, ch ∈ opts.given := by
  obtain ⟨hnodup, hmem⟩ := separators_append_removeSeen opts.given
  have hbase : baseSeparators.filter (· ∈ opts.given) ≠ [] ↔
      ∃ ch ∈ baseSeparators, ch ∈ opts.given := by
    rw [ne_eq, List.filter_eq_nil_iff]
    push Not
    simp only [decide_eq_true_eq]
  have hfourteen : (baseSeparators.filter (· ∈ opts.given)).length ≤ 14 :=
    List.length_filter_le _ _
  rw [← hbase, ← reorder_completes_iff]
  constructor
  · rintro ⟨hs, hconstruct⟩
    obtain ⟨alphabet, separators, hbefore, -⟩ := construct_eq_ok_iff.mp hconstruct
    unfold beforeGuards at hbefore
    dsimp only at hbefore
    split_ifs at hbefore
    · exact nomatch hbefore
    obtain ⟨-, -, hbefore⟩ := bind_eq_ok.mp hbefore
    obtain ⟨base, hreorder, -⟩ := bind_eq_ok.mp hbefore
    exact ⟨base, hreorder⟩
  · rintro ⟨base, hreorder⟩
    have hcard : (baseSeparators.filter (· ∈ opts.given)).length +
        (removeSeen (baseSeparators.filter (· ∈ opts.given)) [] opts.given).length =
          opts.given.toFinset.card := by
      rw [← List.length_append, ← List.toFinset_card_of_nodup hnodup]
      refine congrArg Finset.card (Finset.ext fun ch => ?_)
      rw [List.mem_toFinset, List.mem_toFinset, hmem]
    have hbaseLength := (reorder_perm hreorder).length_eq
    rw [construct_eq]
    unfold beforeGuards
    dsimp only
    generalize removeSeen (baseSeparators.filter (· ∈ opts.given)) [] opts.given = others at hcard
    rw [if_neg (by omega), hreorder]
    obtain ⟨rest, hrest⟩ : ∃ rest, reorder opts.salt
        (others.drop (minSepsCnt others.length - base.length)) = .ok rest := by
      refine reorder_completes _ (List.ne_nil_of_length_pos ?_)
      rw [List.length_drop]
      unfold minSepsCnt
      omega
    exact bind_completes (bind_eq_ok.mpr ⟨base, rfl, bind_eq_ok.mpr ⟨rest, hrest, rfl⟩⟩) ⟨_, rfl⟩

/-- **When construction and encoding end**, with a text or with an exception, on a custom
alphabet with enough characters. -/
theorem construct_encode_completes_iff {opts : Options}
    (hsixteen : 16 ≤ opts.customAlphabet.toFinset.card) (maxSize : ℕ) (values : List UInt64) :
    (∃ hs, construct opts = .ok hs ∧ hs.encode maxSize values ≠ .error .undefined) ↔
      (opts.salt = [] ∨ ∃ ch ∈ baseSeparators, ch ∈ opts.customAlphabet) ∧
        ∀ hs, construct opts = .ok hs →
          ¬ (hs.reserved values ≤ maxSize ∧ hs.LeadsWithNul values) := by
  have hgiven : opts.given = opts.customAlphabet := by
    unfold Options.given
    refine if_neg fun hempty => ?_
    rw [List.isEmpty_iff.mp hempty] at hsixteen
    exact absurd hsixteen (by decide)
  rw [← hgiven] at hsixteen ⊢
  rw [← construct_completes_iff hsixteen]
  constructor
  · rintro ⟨hs, hconstruct, hencode⟩
    refine ⟨⟨hs, hconstruct⟩, fun hs' hconstruct' => ?_⟩
    obtain rfl := Except.ok.inj (hconstruct.symm.trans hconstruct')
    exact (encode_undefined_iff (stocked_of_construct hconstruct)).not.mp hencode
  · rintro ⟨⟨hs, hconstruct⟩, hnul⟩
    exact ⟨hs, hconstruct,
      (encode_undefined_iff (stocked_of_construct hconstruct)).not.mpr (hnul hs hconstruct)⟩

/-- Twenty characters, one of them NUL, among which there are separators. -/
theorem construct_encode_completes_iff_nul :
    (∃ hs, construct ⟨ascii "salt", 0 :: ascii "abdegjklmnopqrvxcfs", 0⟩ = .ok hs ∧
      hs.encode (2 ^ 62 - 1) [12345] ≠ .error .undefined) ↔
      (ascii "salt" = [] ∨ ∃ ch ∈ baseSeparators, ch ∈ 0 :: ascii "abdegjklmnopqrvxcfs") ∧
        ∀ hs, construct ⟨ascii "salt", 0 :: ascii "abdegjklmnopqrvxcfs", 0⟩ = .ok hs →
          ¬ (hs.reserved [12345] ≤ 2 ^ 62 - 1 ∧ hs.LeadsWithNul [12345]) :=
  construct_encode_completes_iff (by decide) (2 ^ 62 - 1) [12345]

/-- An alphabet without a standard separator, and a salt. -/
theorem construct_undefined :
    ¬ ∃ hs, construct ⟨ascii "salt",
        ascii "abdegjklmnopqrvwxyzABDEGJKLMNOPQRVWXYZ1234567890", 0⟩ = .ok hs ∧
      hs.encode (2 ^ 62 - 1) [7452, 2967, 21401] ≠ .error .undefined := by
  have hundefined : construct ⟨ascii "salt",
      ascii "abdegjklmnopqrvwxyzABDEGJKLMNOPQRVWXYZ1234567890", 0⟩ = .error .undefined := by
    decide
  rintro ⟨hs, hconstruct, -⟩
  rw [hundefined] at hconstruct
  cases hconstruct

end Eureka.Hashids
