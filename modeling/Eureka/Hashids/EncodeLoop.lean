import Eureka.Hashids.Hashids
import Mathlib.Data.Nat.Digits.Defs

/-!
# Guards and padding

What `ensure_minimum_length` puts around a text (`wrapped_of_ensureMinimumLength`): a
guard in front of it, or guards on both sides and behind them characters of the
alphabet.  The padding is cut to length, but never as far as the guards.
-/

namespace Eureka.Hashids

/-- The ways a text without guards stands in a hash. -/
inductive Wrapped (alphabet guards encoded : Bytes) : Bytes → Prop
  | bare : Wrapped alphabet guards encoded encoded
  | head {guard : Byte} (hguard : guard ∈ guards) :
      Wrapped alphabet guards encoded (guard :: encoded)
  | both {before after : Bytes} {headGuard tailGuard : Byte}
      (hhead : headGuard ∈ guards) (htail : tailGuard ∈ guards)
      (hbefore : before ⊆ alphabet) (hafter : after ⊆ alphabet) :
      Wrapped alphabet guards encoded
        (before ++ headGuard :: (encoded ++ tailGuard :: after))

/-! ## Padding -/

/-- The cut takes at most the new characters away. -/
theorem padOnce_eq {minLen : ℕ} (alphabet : Bytes) {encoded : Bytes} (hshort : encoded.length < minLen) :
    ∃ before after, padOnce minLen (alphabet.length / 2) alphabet encoded =
      before ++ (encoded ++ after) ∧ before ⊆ alphabet ∧ after ⊆ alphabet := by
  unfold padOnce
  dsimp only
  split_ifs with hlong
  · set mid := alphabet.length / 2
    rw [List.length_append, List.length_append, List.length_drop, List.length_take] at hlong ⊢
    set excess := alphabet.length - mid + encoded.length + min mid alphabet.length - minLen
    have hdrop : excess / 2 ≤ (alphabet.drop mid).length := by
      rw [List.length_drop]
      omega
    refine ⟨(alphabet.drop mid).drop (excess / 2),
      (alphabet.take mid).take (minLen - (alphabet.length - mid - excess / 2 + encoded.length)),
      ?_, ?_, ?_⟩
    · rw [List.append_assoc, List.drop_append_of_le_length hdrop, ← List.append_assoc,
        List.take_append, List.take_of_length_le, List.append_assoc]
      · rw [List.length_append, List.length_drop, List.length_drop]
      · rw [List.length_append, List.length_drop, List.length_drop]
        omega
    · exact List.Subset.trans (List.drop_subset _ _) (List.drop_subset _ _)
    · exact List.Subset.trans (List.take_subset _ _) (List.take_subset _ _)
  · exact ⟨alphabet.drop (alphabet.length / 2), alphabet.take (alphabet.length / 2),
      List.append_assoc _ _ _, List.drop_subset _ _, List.take_subset _ _⟩

theorem padLoop_eq {maxSize minLen mid : ℕ} {alphabet encoded hashid : Bytes}
    (hmid : mid = alphabet.length / 2)
    (hpad : padLoop maxSize minLen mid alphabet encoded = .ok hashid) :
    ∃ before after, hashid = before ++ (encoded ++ after) ∧
      before ⊆ alphabet ∧ after ⊆ alphabet := by
  fun_induction padLoop maxSize minLen mid alphabet encoded with
  | case1 alphabet encoded hlong =>
      obtain rfl := Except.ok.inj hpad
      exact ⟨[], [], (List.append_nil _).symm, List.nil_subset _, List.nil_subset _⟩
  | case2 => exact nomatch hpad
  | case3 => exact nomatch hpad
  | case4 alphabet encoded hshort alphabet' hreorder hroom hgrows ih =>
      have hperm := reorder_perm hreorder
      rw [← hperm.length_eq] at hmid
      obtain ⟨before, after, rfl, hbefore, hafter⟩ := ih hmid hpad
      obtain ⟨before', after', heq, hbefore', hafter'⟩ :=
        padOnce_eq alphabet' (lt_of_not_ge hshort)
      rw [hmid, heq]
      refine ⟨before ++ before', after' ++ after, ?_, ?_, ?_⟩
      · simp only [List.append_assoc]
      · exact List.append_subset.mpr
          ⟨List.Subset.trans hbefore hperm.subset, List.Subset.trans hbefore' hperm.subset⟩
      · exact List.append_subset.mpr
          ⟨List.Subset.trans hafter' hperm.subset, List.Subset.trans hafter hperm.subset⟩
  | case5 => exact nomatch hpad

/-! ## `ensure_minimum_length` -/

theorem guardFor_mem {valueHash : UInt64} {guards : Bytes} {ch : Option Byte} {guard : Byte}
    (hguard : guardFor valueHash guards ch = .ok guard) : guard ∈ guards := by
  unfold guardFor at hguard
  split at hguard
  · cases hguard
  · rename_i heq
    obtain rfl := Except.ok.inj hguard
    obtain ⟨ch, -, hget⟩ := Option.bind_eq_some_iff.mp heq
    exact List.mem_of_getElem? hget

theorem wrapped_of_ensureMinimumLength {valueHash : UInt64} {maxSize minLen : ℕ}
    {prevAlphabet guards encoded hashid : Bytes}
    (hensure : ensureMinimumLength valueHash maxSize minLen prevAlphabet guards encoded =
      .ok hashid) :
    Wrapped prevAlphabet guards encoded hashid := by
  unfold ensureMinimumLength at hensure
  obtain ⟨headGuard, hhead, hensure⟩ := bind_eq_ok.mp hensure
  dsimp only at hensure
  split_ifs at hensure with hlong
  · obtain rfl := Except.ok.inj hensure
    exact .head (guardFor_mem hhead)
  · obtain ⟨-, -, hensure⟩ := bind_eq_ok.mp hensure
    obtain ⟨tailGuard, htail, hpad⟩ := bind_eq_ok.mp hensure
    obtain ⟨before, after, rfl, hbefore, hafter⟩ := padLoop_eq rfl hpad
    rw [List.append_assoc]
    exact .both (guardFor_mem hhead) (guardFor_mem htail) hbefore hafter

end Eureka.Hashids

/-!
## Numbers and the loop of `encode`

`hash_number` writes a number in the digits of its alphabet (`digitsValue_hashDigits`),
and `unhash` computes in 64 bits what digits stand for (`unhash_reverse`).  Over an
alphabet without repetitions `unhash` therefore inverts `hash_number`
(`unhash_hashNumber`).
-/

namespace Eureka.Hashids

variable {alphabet : Bytes}

/-! ## `hash_number` -/

theorem hashDigits_cases {number : ℕ} {digits : Bytes}
    (hdigits : hashDigits alphabet number = .ok digits) :
    ∃ ch rest, digits = ch :: rest ∧ alphabet[number % alphabet.length]? = some ch ∧
      (number / alphabet.length = 0 ∧ rest = [] ∨
        number / alphabet.length ≠ 0 ∧ number / alphabet.length < number ∧
          hashDigits alphabet (number / alphabet.length) = .ok rest) := by
  rw [hashDigits.eq_def] at hdigits
  split at hdigits
  · cases hdigits
  · rename_i ch hch
    dsimp only at hdigits
    split_ifs at hdigits with hlast hless
    · obtain rfl := Except.ok.inj hdigits
      exact ⟨ch, [], rfl, hch, .inl ⟨hlast, rfl⟩⟩
    · obtain ⟨rest, hrest, rfl⟩ := map_eq_ok.mp hdigits
      exact ⟨ch, rest, rfl, hch, .inr ⟨hlast, hless, hrest⟩⟩

theorem hashDigits_ne_nil {number : ℕ} {digits : Bytes}
    (hdigits : hashDigits alphabet number = .ok digits) : digits ≠ [] := by
  obtain ⟨ch, rest, rfl, -⟩ := hashDigits_cases hdigits
  exact List.cons_ne_nil _ _

theorem mem_alphabet_of_hashDigits {number : ℕ} {digits : Bytes}
    (hdigits : hashDigits alphabet number = .ok digits) : ∀ ch ∈ digits, ch ∈ alphabet := by
  induction number using Nat.strongRecOn generalizing digits with
  | ind number ih =>
      obtain ⟨last, rest, rfl, hlast, hrest⟩ := hashDigits_cases hdigits
      intro ch hch
      rcases List.mem_cons.mp hch with rfl | hch
      · exact List.mem_of_getElem? hlast
      · rcases hrest with ⟨-, rfl⟩ | ⟨-, hless, hrest⟩
        · exact absurd hch List.not_mem_nil
        · exact ih _ hless hrest ch hch

/-- What digits stand for, the last one first. -/
def digitsValue (alphabet digits : Bytes) : ℕ :=
  Nat.ofDigits alphabet.length (digits.map alphabet.idxOf)

theorem digitsValue_cons (digits : Bytes) (ch : Byte) :
    digitsValue alphabet (ch :: digits) =
      alphabet.idxOf ch + alphabet.length * digitsValue alphabet digits :=
  Nat.ofDigits_cons

theorem digitsValue_hashDigits (hnodup : alphabet.Nodup) {number : ℕ} {digits : Bytes}
    (hdigits : hashDigits alphabet number = .ok digits) :
    digitsValue alphabet digits = number := by
  induction number using Nat.strongRecOn generalizing digits with
  | ind number ih =>
      obtain ⟨last, rest, rfl, hlast, hrest⟩ := hashDigits_cases hdigits
      obtain ⟨hpos, rfl⟩ := List.getElem?_eq_some_iff.mp hlast
      have hvalue : digitsValue alphabet rest = number / alphabet.length := by
        rcases hrest with ⟨hzero, rfl⟩ | ⟨-, hless, hrest⟩
        · rw [hzero]
          rfl
        · exact ih _ hless hrest
      rw [digitsValue_cons, hvalue, hnodup.idxOf_getElem, Nat.mod_add_div]

/-! ## `unhash` -/

theorem unhash_append (hashed : Bytes) {ch : Byte} (hmem : ch ∈ alphabet) :
    unhash (hashed ++ [ch]) alphabet =
      unhash hashed alphabet * UInt64.ofNat alphabet.length +
        UInt64.ofNat (alphabet.idxOf ch) := by
  have hpos : alphabet.idxOf? ch = some (alphabet.idxOf ch) := by
    obtain ⟨pos, hpos⟩ := Option.isSome_iff_exists.mp (List.isSome_idxOf?.mpr hmem)
    rw [List.idxOf_eq_getD_idxOf?, hpos, Option.getD_some]
  rw [unhash, List.foldl_append, List.foldl_cons, List.foldl_nil, hpos]
  rfl

theorem unhash_reverse {digits : Bytes} (hmem : ∀ ch ∈ digits, ch ∈ alphabet) :
    unhash digits.reverse alphabet = UInt64.ofNat (digitsValue alphabet digits) := by
  induction digits with
  | nil => rfl
  | cons ch digits ih =>
      rw [List.reverse_cons, unhash_append _ (hmem ch List.mem_cons_self),
        ih fun ch' hch' => hmem ch' (List.mem_cons_of_mem _ hch'), digitsValue_cons,
        UInt64.ofNat_add, UInt64.ofNat_mul, UInt64.add_comm,
        UInt64.mul_comm (UInt64.ofNat alphabet.length)]

/-- **`unhash` inverts `hash_number`.** -/
theorem unhash_hashNumber (hnodup : alphabet.Nodup) {number : UInt64} {hashed : Bytes}
    (hhashed : hashNumber number alphabet = .ok hashed) : unhash hashed alphabet = number := by
  obtain ⟨digits, hdigits, rfl⟩ := map_eq_ok.mp hhashed
  rw [unhash_reverse (mem_alphabet_of_hashDigits hdigits),
    digitsValue_hashDigits hnodup hdigits, UInt64.ofNat_toNat]

theorem hashNumber_ne_nil {number : UInt64} {hashed : Bytes}
    (hhashed : hashNumber number alphabet = .ok hashed) : hashed ≠ [] := by
  obtain ⟨digits, hdigits, rfl⟩ := map_eq_ok.mp hhashed
  exact List.reverse_ne_nil_iff.mpr (hashDigits_ne_nil hdigits)

theorem mem_alphabet_of_hashNumber {number : UInt64} {hashed : Bytes}
    (hhashed : hashNumber number alphabet = .ok hashed) : ∀ ch ∈ hashed, ch ∈ alphabet := by
  obtain ⟨digits, hdigits, rfl⟩ := map_eq_ok.mp hhashed
  exact fun ch hch => mem_alphabet_of_hashDigits hdigits ch (List.mem_reverse.mp hch)

end Eureka.Hashids

/-!
## The loop of `encode`

What the text of a list of numbers consists of: `encodeLoop_cons` takes the first
number off, and the other facts follow from it by induction.
-/

namespace Eureka.Hashids

variable {hs : Hashids}

theorem separatorFor_mem {i : ℕ} {number : UInt64} {hashed : Bytes} {separator : Byte}
    (hseparator : hs.separatorFor i number hashed = .ok separator) :
    separator ∈ hs.separators := by
  unfold separatorFor at hseparator
  split at hseparator
  · cases hseparator
  · split_ifs at hseparator
    split at hseparator
    · cases hseparator
    · rename_i hget
      obtain rfl := Except.ok.inj hseparator
      exact List.mem_of_getElem? hget

theorem encodeLoop_cons {lottery : Byte} {i : ℕ} {alphabet : Bytes} {value : UInt64}
    {values : List UInt64} {text last : Bytes}
    (hloop : hs.encodeLoop lottery i alphabet (value :: values) = .ok (text, last)) :
    ∃ alphabet' hashed separator rest,
      hs.nextAlphabet lottery alphabet = .ok alphabet' ∧
      hashNumber value alphabet' = .ok hashed ∧ separator ∈ hs.separators ∧
      hs.encodeLoop lottery (i + 1) alphabet' values = .ok (rest, last) ∧
      text = hashed ++ separator :: rest := by
  rw [encodeLoop] at hloop
  obtain ⟨alphabet', hnext, hloop⟩ := bind_eq_ok.mp hloop
  obtain ⟨hashed, hhashed, hloop⟩ := bind_eq_ok.mp hloop
  obtain ⟨separator, hseparator, hloop⟩ := bind_eq_ok.mp hloop
  obtain ⟨⟨rest, last'⟩, hrest, hloop⟩ := bind_eq_ok.mp hloop
  obtain ⟨rfl, rfl⟩ := Prod.mk.inj (Except.ok.inj hloop)
  exact ⟨alphabet', hashed, separator, rest, hnext, hhashed, separatorFor_mem hseparator,
    hrest, rfl⟩

theorem length_encodeLoop {lottery : Byte} {i : ℕ} {alphabet : Bytes} {values : List UInt64}
    {text last : Bytes} (hloop : hs.encodeLoop lottery i alphabet values = .ok (text, last)) :
    2 * values.length ≤ text.length := by
  induction values generalizing i alphabet text with
  | nil => exact Nat.zero_le _
  | cons value values ih =>
      obtain ⟨alphabet', hashed, separator, rest, -, hhashed, -, hrest, rfl⟩ :=
        encodeLoop_cons hloop
      have hdigit := List.length_pos_of_ne_nil (hashNumber_ne_nil hhashed)
      have hlength := ih hrest
      rw [List.length_append, List.length_cons, List.length_cons]
      omega

theorem encodeLoop_ne_nil {lottery : Byte} {i : ℕ} {alphabet : Bytes} {values : List UInt64}
    {text last : Bytes} (hvalues : values ≠ [])
    (hloop : hs.encodeLoop lottery i alphabet values = .ok (text, last)) : text ≠ [] := by
  have hpos := List.length_pos_of_ne_nil hvalues
  exact List.ne_nil_of_length_pos (by have := length_encodeLoop hloop; omega)

theorem encodeLoop_perm {lottery : Byte} {i : ℕ} {alphabet : Bytes} {values : List UInt64}
    {text last : Bytes} (hloop : hs.encodeLoop lottery i alphabet values = .ok (text, last)) :
    last.Perm alphabet := by
  induction values generalizing i alphabet text with
  | nil =>
      rw [encodeLoop] at hloop
      obtain ⟨-, rfl⟩ := Prod.mk.inj (Except.ok.inj hloop)
      rfl
  | cons value values ih =>
      obtain ⟨alphabet', hashed, separator, rest, hnext, -, -, hrest, -⟩ := encodeLoop_cons hloop
      exact (ih hrest).trans (nextAlphabet_perm hnext)

theorem mem_of_encodeLoop {lottery : Byte} {i : ℕ} {alphabet : Bytes} {values : List UInt64}
    {text last : Bytes} (hperm : alphabet.Perm hs.alphabet)
    (hloop : hs.encodeLoop lottery i alphabet values = .ok (text, last)) :
    ∀ ch ∈ text, ch ∈ hs.alphabet ∨ ch ∈ hs.separators := by
  induction values generalizing i alphabet text with
  | nil =>
      rw [encodeLoop] at hloop
      obtain ⟨rfl, -⟩ := Prod.mk.inj (Except.ok.inj hloop)
      exact fun ch hch => absurd hch List.not_mem_nil
  | cons value values ih =>
      obtain ⟨alphabet', hashed, separator, rest, hnext, hhashed, hseparator, hrest, rfl⟩ :=
        encodeLoop_cons hloop
      have hperm' := (nextAlphabet_perm hnext).trans hperm
      intro ch hch
      rcases List.mem_append.mp hch with hch | hch
      · exact .inl (hperm'.subset (mem_alphabet_of_hashNumber hhashed ch hch))
      · rcases List.mem_cons.mp hch with rfl | hch
        · exact .inr hseparator
        · exact ih hperm' hrest ch hch

end Eureka.Hashids

/-!
## The leading digit

The divisor behind the first number is the code of the first character that is
written for it.  That character stands at the position of the leading digit in
the alphabet which is shuffled for the number (`hashNumber_spec`); if it is NUL,
the division is by zero.
-/

namespace Eureka.Hashids

def leadingDigit (base number : ℕ) : ℕ := number / base ^ Nat.log base number

theorem leadingDigit_of_lt {base number : ℕ} (hlt : number < base) :
    leadingDigit base number = number := by
  unfold leadingDigit
  rw [Nat.log_of_lt hlt, pow_zero, Nat.div_one]

theorem leadingDigit_div {base number : ℕ} (hbase : 2 ≤ base) (hle : base ≤ number) :
    leadingDigit base (number / base) = leadingDigit base number := by
  have hlog : Nat.log base number = Nat.log base (number / base) + 1 :=
    Nat.log_of_one_lt_of_le hbase hle
  unfold leadingDigit
  rw [hlog, pow_succ', Nat.div_div_eq_div_mul]

/-- `hash_number` writes a character for each digit, the leading digit's first. -/
theorem hashNumber_spec {alphabet hashed : Bytes} {number : UInt64}
    (halphabet : 2 ≤ alphabet.length) (hhashed : hashNumber number alphabet = .ok hashed) :
    hashed.head? = alphabet[leadingDigit alphabet.length number.toNat]? ∧
      hashed.length = Nat.log alphabet.length number.toNat + 1 := by
  obtain ⟨digits, hdigits, rfl⟩ := map_eq_ok.mp hhashed
  rw [List.head?_reverse, List.length_reverse]
  clear hhashed
  generalize number.toNat = number at hdigits
  induction number using Nat.strongRecOn generalizing digits with
  | ind number ih =>
      obtain ⟨ch, rest, rfl, hch, ⟨hzero, rfl⟩ | ⟨hpos, hless, hrest⟩⟩ := hashDigits_cases hdigits
      · have hlt := (Nat.div_eq_zero_iff_lt (by omega)).mp hzero
        rw [leadingDigit_of_lt hlt, Nat.log_of_lt hlt]
        rw [Nat.mod_eq_of_lt hlt] at hch
        exact ⟨hch.symm, rfl⟩
      · have hle : alphabet.length ≤ number := by
          by_contra hlt
          exact hpos (Nat.div_eq_of_lt (not_le.mp hlt))
        obtain ⟨hlast, hlength⟩ := ih _ hless _ hrest
        rw [← leadingDigit_div halphabet hle, ← hlast, List.length_cons, hlength,
          Nat.log_of_one_lt_of_le halphabet hle]
        obtain ⟨first, rest, rfl⟩ := List.exists_cons_of_ne_nil (hashDigits_ne_nil hrest)
        exact ⟨List.getLast?_cons_cons, rfl⟩

/-- NUL stands at the position of the leading digit of the first number, in the alphabet which is
shuffled for it. -/
def LeadsWithNul (hs : Hashids) (values : List UInt64) : Prop :=
  ∃ value ∈ values.head?, ∃ lottery ∈ hs.alphabet[(valueHash values).toNat % hs.alphabet.length]?,
    ∃ alphabet, hs.nextAlphabet lottery hs.alphabet = .ok alphabet ∧
      alphabet[leadingDigit alphabet.length value.toNat]? = some 0

variable {hs : Hashids}

theorem separatorFor_of_nul (number : UInt64) {hashed : Bytes} (hhead : hashed.head? = some 0) :
    hs.separatorFor 0 number hashed = .error .undefined := by
  unfold separatorFor
  rw [hhead]
  rfl

/-! ## Lengths -/

/-- The characters that `encode` writes for the values: the lottery, the digits of the numbers,
and a separator behind each. -/
def textLength (hs : Hashids) (values : List UInt64) : ℕ :=
  1 + (values.map fun value => Nat.log hs.alphabet.length value.toNat + 2).sum

theorem length_encodeLoop_eq {lottery : Byte} {i : ℕ} {alphabet : Bytes} {values : List UInt64}
    {text last : Bytes} (hperm : alphabet.Perm hs.alphabet) (htwo : 2 ≤ hs.alphabet.length)
    (hloop : hs.encodeLoop lottery i alphabet values = .ok (text, last)) :
    (lottery :: text).length = hs.textLength values := by
  rw [List.length_cons, Nat.add_comm, textLength, Nat.add_left_cancel_iff]
  induction values generalizing i alphabet text with
  | nil =>
      rw [encodeLoop] at hloop
      obtain ⟨rfl, -⟩ := Prod.mk.inj (Except.ok.inj hloop)
      rfl
  | cons value values ih =>
      obtain ⟨alphabet', hashed, separator, rest, hnext, hhashed, -, hrest, rfl⟩ :=
        encodeLoop_cons hloop
      have hperm' := (nextAlphabet_perm hnext).trans hperm
      have hlength := (hashNumber_spec (by rwa [hperm'.length_eq]) hhashed).2
      rw [hperm'.length_eq] at hlength
      rw [List.length_append, List.length_cons, ih hperm' hrest, List.map_cons, List.sum_cons,
        hlength]
      omega

end Eureka.Hashids
