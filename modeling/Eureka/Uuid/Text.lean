import Eureka.Uuid.Uuid

/-!
# The text of a UUID

`string` prints five fields of fixed widths in small letters; `make_from` cuts a text at
its hyphens and reads each part as a number of any length.

* `hexValue_formatPadded`, `formatPadded_hexValue`: printing a number to a width and
  reading digits are inverse, zeros in front included.
* `text_round_trip`: both ways between UUIDs and texts.
-/

namespace Eureka.Uuid

open Eureka.Hashids

/-! ## Digits -/

/-- A hexadecimal digit that `%x` prints. -/
def IsLowerDigit (ch : Byte) : Prop := isHexDigit ch = true ∧ toLower ch = ch

instance (ch : Byte) : Decidable (IsLowerDigit ch) := inferInstanceAs (Decidable (_ ∧ _))

/-- Digits in small letters. -/
def IsLowerHex (digits : Bytes) : Prop := ∀ ch ∈ digits, IsLowerDigit ch

theorem isLowerDigit_lowerDigit {digit : ℕ} (hdigit : digit < 16) :
    IsLowerDigit (lowerDigit digit) ∧ (hexDigit? (lowerDigit digit)).getD 0 = digit := by
  decide +revert

theorem isLowerHex_map {digits : List ℕ} (hdigits : ∀ digit ∈ digits, digit < 16) :
    IsLowerHex (digits.map lowerDigit) := by
  intro ch hch
  obtain ⟨digit, hdigit, rfl⟩ := List.mem_map.mp hch
  exact (isLowerDigit_lowerDigit (hdigits digit hdigit)).1

theorem map_lowerDigit {digits : Bytes} (hlower : IsLowerHex digits) :
    (digits.map fun ch => (hexDigit? ch).getD 0).map lowerDigit = digits := by
  rw [List.map_map]
  refine (List.map_congr_left fun ch hch => ?_).trans (List.map_id _)
  obtain ⟨hhex, hsmall⟩ := hlower ch hch
  exact (lowerDigit_hexDigit hhex).trans hsmall

/-- Texts of one length are told apart by what they stand for. -/
theorem hexValue_inj {digits digits' : Bytes} (hlower : IsLowerHex digits)
    (hlower' : IsLowerHex digits') (hlength : digits.length = digits'.length)
    (heq : hexValue digits = hexValue digits') : digits = digits' := by
  have hdigit : ∀ {text : Bytes}, ∀ digit ∈ text.reverse.map fun ch => (hexDigit? ch).getD 0,
      digit < 16 := by
    intro text digit hmem
    obtain ⟨ch, -, rfl⟩ := List.mem_map.mp hmem
    exact digit_lt ch
  -- digits to the base 16, the lowest one first
  have hreverse := Nat.ofDigits_inj_of_len_eq (by decide) (by simpa using hlength) hdigit hdigit heq
  rw [List.map_reverse, List.map_reverse] at hreverse
  rw [← map_lowerDigit hlower, ← map_lowerDigit hlower', List.reverse_injective hreverse]

/-! ## Printing -/

theorem hexValue_replicate (zeros : ℕ) (digits : Bytes) :
    hexValue (List.replicate zeros 48 ++ digits) = hexValue digits := by
  have hzeros : Nat.ofDigits 16 ((List.replicate zeros (48 : Byte)).reverse.map fun ch =>
      (hexDigit? ch).getD 0) = 0 := by
    rw [List.reverse_replicate, List.map_replicate]
    exact Nat.ofDigits_replicate_zero
  unfold hexValue
  rw [List.reverse_append, List.map_append, Nat.ofDigits_append, hzeros, Nat.mul_zero,
    Nat.add_zero]

theorem hexValue_formatHex (n : UInt64) : hexValue (formatHex n) = n.toNat := by
  unfold formatHex
  split
  · next hzero =>
    rw [hzero]
    rfl
  · next hpos =>
    have hdigits : ((Nat.digits 16 n.toNat).map lowerDigit).map (fun ch => (hexDigit? ch).getD 0) =
        Nat.digits 16 n.toNat := by
      rw [List.map_map]
      refine (List.map_congr_left fun digit hdigit => ?_).trans (List.map_id _)
      exact (isLowerDigit_lowerDigit (Nat.digits_lt_base (by decide) hdigit)).2
    rw [hexValue, List.reverse_reverse, hdigits, Nat.ofDigits_digits]

theorem hexValue_formatPadded (width : ℕ) (n : UInt64) :
    hexValue (formatPadded width n) = n.toNat := by
  rw [formatPadded, hexValue_replicate, hexValue_formatHex]

theorem formatHex_lower (n : UInt64) : IsLowerHex (formatHex n) := by
  intro ch hch
  unfold formatHex at hch
  split at hch
  · obtain rfl := List.mem_singleton.mp hch
    decide
  · refine isLowerHex_map (fun digit hdigit => ?_) ch (List.mem_reverse.mp hch)
    exact Nat.digits_lt_base (by decide) hdigit

theorem formatPadded_lower (width : ℕ) (n : UInt64) : IsLowerHex (formatPadded width n) := by
  intro ch hch
  rcases List.mem_append.mp hch with hzero | hdigit
  · obtain rfl := List.eq_of_mem_replicate hzero
    decide
  · exact formatHex_lower n ch hdigit

theorem length_formatPadded {width : ℕ} (hwidth : 0 < width) {n : UInt64}
    (hn : n.toNat < 16 ^ width) : (formatPadded width n).length = width := by
  have hshort : (formatHex n).length ≤ width := by
    unfold formatHex
    split
    · exact hwidth
    · rw [List.length_reverse, List.length_map]
      exact (Nat.digits_length_le_iff (by decide) _).mpr hn
  rw [formatPadded, List.length_append, List.length_replicate]
  omega

/-- **Printing what was read** gives the digits back. -/
theorem formatPadded_hexValue {digits : Bytes} (hlower : IsLowerHex digits) {n : UInt64}
    (hne : digits ≠ []) (hn : n.toNat = hexValue digits) :
    formatPadded digits.length n = digits := by
  have hlt : n.toNat < 16 ^ digits.length := lt_of_eq_of_lt hn (hexValue_lt digits)
  -- both texts have one length and one value
  refine hexValue_inj (formatPadded_lower _ n) hlower ?_ ?_
  · exact length_formatPadded (List.length_pos_iff.mpr hne) hlt
  · rw [hexValue_formatPadded, hn]

/-! ## Reading -/

/-- **Reading a part.**  Nothing is dropped from it. -/
theorem stoull_lower {digits : Bytes} (hlower : IsLowerHex digits) (hne : digits ≠ [])
    (hlength : digits.length ≤ 16) :
    stoull digits = .ok (UInt64.ofNat (hexValue digits), digits.length) := by
  have hvalue : hexValue digits < 2 ^ 64 := by
    calc
      hexValue digits < 16 ^ digits.length := hexValue_lt digits
      _ ≤ 16 ^ 16 := Nat.pow_le_pow_right (by decide) hlength
      _ = 2 ^ 64 := by decide
  obtain ⟨hspace, hsign, hprefix, hall, hpositive⟩ :=
    hexDigits_plain fun ch hch => (hlower ch hch).1
  unfold stoull
  dsimp only
  rw [hspace, hsign, hprefix, hall, if_neg (by simpa using hne), if_neg (not_le.mpr hvalue),
    if_neg hpositive, Nat.sub_self, Nat.zero_add]

/-- The five parts with the hyphens between them. -/
def joined (part0 part1 part2 part3 part4 : Bytes) : Bytes :=
  part0 ++ hyphen :: (part1 ++ hyphen :: (part2 ++ hyphen :: (part3 ++ hyphen :: part4)))

/-- A text of five parts in small letters, with 8, 4, 4, 4 and 12 digits. -/
def IsCanonical (text : Bytes) : Prop :=
  ∃ part0 part1 part2 part3 part4, text = joined part0 part1 part2 part3 part4 ∧
    [part0, part1, part2, part3, part4].map List.length = [8, 4, 4, 4, 12] ∧
    ∀ part ∈ [part0, part1, part2, part3, part4], IsLowerHex part

theorem splitOn_joined {part0 part1 part2 part3 part4 : Bytes}
    (hlower : ∀ part ∈ [part0, part1, part2, part3, part4], IsLowerHex part) :
    (joined part0 part1 part2 part3 part4).splitOn hyphen =
      [part0, part1, part2, part3, part4] := by
  have hjoined : [hyphen].intercalate [part0, part1, part2, part3, part4] =
      joined part0 part1 part2 part3 part4 := by
    simp [List.intercalate, joined]
  rw [← hjoined]
  -- a hyphen is no digit
  refine List.splitOn_intercalate hyphen (fun part hpart hmem => ?_) (List.cons_ne_nil _ _)
  exact (isHexDigit_plain (hlower part hpart hyphen hmem).1).2 (by decide)

theorem parseParts_lower {parts : List Bytes} (hlower : ∀ part ∈ parts, IsLowerHex part)
    (hne : ∀ part ∈ parts, part ≠ []) (hlength : ∀ part ∈ parts, part.length ≤ 16) :
    parseParts parts = .ok (parts.map fun part => UInt64.ofNat (hexValue part)) := by
  induction parts with
  | nil => rfl
  | cons part parts ih =>
      obtain ⟨hpart, hlower⟩ := List.forall_mem_cons.mp hlower
      obtain ⟨hsome, hne⟩ := List.forall_mem_cons.mp hne
      obtain ⟨hshort, hlength⟩ := List.forall_mem_cons.mp hlength
      unfold parseParts
      rw [stoull_lower hpart hsome hshort, ih hlower hne hlength]
      rfl

/-! ## The round trip -/

/-- The fields of a UUID, as `string` prints them. -/
def fields (uuid : Uuid) : List Bytes :=
  [formatPadded 8 (uuid.data0 >>> 32), formatPadded 4 (uuid.data0 >>> 16 &&& 0xffff),
    formatPadded 4 (uuid.data0 &&& 0xffff), formatPadded 4 (uuid.data1 >>> 48),
    formatPadded 12 (uuid.data1 &&& 0xffffffffffff)]

theorem fields_toNat_of_words (uuid : Uuid) :
    (uuid.data0 >>> 32).toNat = uuid.data0.toNat / 2 ^ 32 ∧
      (uuid.data0 >>> 16 &&& 0xffff).toNat = uuid.data0.toNat / 2 ^ 16 % 2 ^ 16 ∧
      (uuid.data0 &&& 0xffff).toNat = uuid.data0.toNat % 2 ^ 16 ∧
      (uuid.data1 >>> 48).toNat = uuid.data1.toNat / 2 ^ 48 ∧
      (uuid.data1 &&& 0xffffffffffff).toNat = uuid.data1.toNat % 2 ^ 48 := by
  refine ⟨?_, ?_, ?_, ?_, ?_⟩
  · rw [UInt64.toNat_shiftRight, Nat.shiftRight_eq_div_pow]
    rfl
  · rw [UInt64.toNat_and, UInt64.toNat_shiftRight, Nat.shiftRight_eq_div_pow]
    exact Nat.and_two_pow_sub_one_eq_mod _ 16
  · rw [UInt64.toNat_and]
    exact Nat.and_two_pow_sub_one_eq_mod _ 16
  · rw [UInt64.toNat_shiftRight, Nat.shiftRight_eq_div_pow]
    rfl
  · rw [UInt64.toNat_and]
    exact Nat.and_two_pow_sub_one_eq_mod _ 48

theorem fields_length (uuid : Uuid) : (fields uuid).map List.length = [8, 4, 4, 4, 12] := by
  have hword0 := uuid.data0.toNat_lt
  have hword1 := uuid.data1.toNat_lt
  obtain ⟨h0, h1, h2, h3, h4⟩ := fields_toNat_of_words uuid
  simp only [fields, List.map_cons, List.map_nil]
  rw [length_formatPadded (by decide) (by omega), length_formatPadded (by decide) (by omega),
    length_formatPadded (by decide) (by omega), length_formatPadded (by decide) (by omega),
    length_formatPadded (by decide) (by omega)]

theorem fields_lower (uuid : Uuid) : ∀ part ∈ fields uuid, IsLowerHex part := by
  intro part hpart
  fin_cases hpart <;> exact formatPadded_lower _ _

theorem length_joined {part0 part1 part2 part3 part4 : Bytes}
    (hlengths : [part0, part1, part2, part3, part4].map List.length = [8, 4, 4, 4, 12]) :
    (joined part0 part1 part2 part3 part4).length = canonicalLen := by
  simp only [List.map_cons, List.map_nil, List.cons.injEq, and_true] at hlengths
  simp only [joined, List.length_append, List.length_cons, canonicalLen]
  omega

theorem resize_snprintf {size : ℕ} {text : Bytes} (hlength : text.length = size) :
    resize size (snprintf (size + 1) text) = text := by
  subst hlength
  unfold resize snprintf
  dsimp only
  rw [Nat.add_sub_cancel, List.take_length, List.take_left, List.length_append,
    Nat.sub_eq_zero_of_le (Nat.le_add_right _ _), List.replicate_zero, List.append_nil]

theorem string_eq (uuid : Uuid) :
    string uuid = joined (formatPadded 8 (uuid.data0 >>> 32))
      (formatPadded 4 (uuid.data0 >>> 16 &&& 0xffff)) (formatPadded 4 (uuid.data0 &&& 0xffff))
      (formatPadded 4 (uuid.data1 >>> 48)) (formatPadded 12 (uuid.data1 &&& 0xffffffffffff)) :=
  resize_snprintf (length_joined (fields_length uuid))

/-- **Reading a canonical text**: the words are its digits. -/
theorem makeFrom_joined {part0 part1 part2 part3 part4 : Bytes}
    (hlengths : [part0, part1, part2, part3, part4].map List.length = [8, 4, 4, 4, 12])
    (hlower : ∀ part ∈ [part0, part1, part2, part3, part4], IsLowerHex part) :
    ∃ uuid, makeFrom (joined part0 part1 part2 part3 part4) = .ok uuid ∧
      uuid.data0.toNat =
        2 ^ 32 * hexValue part0 + 2 ^ 16 * hexValue part1 + hexValue part2 ∧
      uuid.data1.toNat = 2 ^ 48 * hexValue part3 + hexValue part4 := by
  have hsplit := splitOn_joined hlower
  simp only [List.map_cons, List.map_nil, List.cons.injEq, and_true] at hlengths
  obtain ⟨h0, h1, h2, h3, h4⟩ := hlengths
  have hlength : ∀ part ∈ [part0, part1, part2, part3, part4],
      part ≠ [] ∧ part.length ≤ 16 := by
    intro part hpart
    rw [← List.length_pos_iff]
    fin_cases hpart <;> omega
  have hparse := parseParts_lower hlower (fun part hpart => (hlength part hpart).1)
    fun part hpart => (hlength part hpart).2
  -- twelve digits are less than 64 bits
  have hvalue : ∀ {part : Bytes} {width : ℕ}, part.length = width → width ≤ 12 →
      hexValue part < 16 ^ width ∧ (UInt64.ofNat (hexValue part)).toNat = hexValue part := by
    intro part width hwidth hle
    have hlt : hexValue part < 16 ^ width := hwidth ▸ hexValue_lt part
    refine ⟨hlt, UInt64.toNat_ofNat_of_lt' (hlt.trans ?_)⟩
    exact (Nat.pow_le_pow_right (by decide) hle).trans_lt (by decide : 16 ^ 12 < 2 ^ 64)
  obtain ⟨-, hnat0⟩ := hvalue h0 (by decide)
  obtain ⟨hlt1, hnat1⟩ := hvalue h1 (by decide)
  obtain ⟨hlt2, hnat2⟩ := hvalue h2 (by decide)
  obtain ⟨hlt3, hnat3⟩ := hvalue h3 (by decide)
  obtain ⟨hlt4, hnat4⟩ := hvalue h4 (by decide)
  have hlt0 : hexValue part0 < 16 ^ 8 := (hvalue h0 (by decide)).1
  refine ⟨_, by unfold makeFrom; rw [hsplit, hparse]; rfl, ?_, ?_⟩
  · dsimp only
    rw [fields_toNat (by omega) (by omega) (by omega), hnat0, hnat1, hnat2]
  · dsimp only
    rw [nodeFields_toNat (by omega) (by omega), hnat3, hnat4]

theorem makeFrom_string (uuid : Uuid) : makeFrom (string uuid) = .ok uuid := by
  have hword0 := uuid.data0.toNat_lt
  have hword1 := uuid.data1.toNat_lt
  obtain ⟨h0, h1, h2, h3, h4⟩ := fields_toNat_of_words uuid
  obtain ⟨uuid', hmake, hfirst, hsecond⟩ :=
    makeFrom_joined (fields_length uuid) (fields_lower uuid)
  rw [hexValue_formatPadded, hexValue_formatPadded, hexValue_formatPadded, h0, h1, h2] at hfirst
  rw [hexValue_formatPadded, hexValue_formatPadded, h3, h4] at hsecond
  rw [string_eq, hmake]
  have hsame0 : uuid'.data0 = uuid.data0 := UInt64.toNat_inj.mp (by omega)
  have hsame1 : uuid'.data1 = uuid.data1 := UInt64.toNat_inj.mp (by omega)
  cases uuid'
  cases uuid
  dsimp only at hsame0 hsame1
  rw [hsame0, hsame1]

theorem string_makeFrom {text : Bytes} (hcanonical : IsCanonical text) :
    (makeFrom text).map string = .ok text := by
  obtain ⟨part0, part1, part2, part3, part4, rfl, hlengths, hlower⟩ := hcanonical
  obtain ⟨uuid, hmake, hword0, hword1⟩ := makeFrom_joined hlengths hlower
  obtain ⟨hfield0, hfield1, hfield2, hfield3, hfield4⟩ := fields_toNat_of_words uuid
  simp only [List.map_cons, List.map_nil, List.cons.injEq, and_true] at hlengths
  simp only [List.forall_mem_cons, List.not_mem_nil, false_implies, implies_true, and_true]
    at hlower
  obtain ⟨h0, h1, h2, h3, h4⟩ := hlengths
  obtain ⟨hlower0, hlower1, hlower2, hlower3, hlower4⟩ := hlower
  have hprint : ∀ {part : Bytes} {width : ℕ} {n : UInt64}, part.length = width → 0 < width →
      IsLowerHex part → n.toNat = hexValue part → formatPadded width n = part := by
    intro part width n hwidth hpos hpart hn
    subst hwidth
    exact formatPadded_hexValue hpart (List.length_pos_iff.mp hpos) hn
  have hlt0 : hexValue part0 < 16 ^ 8 := h0 ▸ hexValue_lt part0
  have hlt1 : hexValue part1 < 16 ^ 4 := h1 ▸ hexValue_lt part1
  have hlt2 : hexValue part2 < 16 ^ 4 := h2 ▸ hexValue_lt part2
  have hlt3 : hexValue part3 < 16 ^ 4 := h3 ▸ hexValue_lt part3
  have hlt4 : hexValue part4 < 16 ^ 12 := h4 ▸ hexValue_lt part4
  rw [hmake]
  change Except.ok (string uuid) = _
  rw [string_eq, hprint h0 (by decide) hlower0 (by omega),
    hprint h1 (by decide) hlower1 (by omega), hprint h2 (by decide) hlower2 (by omega),
    hprint h3 (by decide) hlower3 (by omega), hprint h4 (by decide) hlower4 (by omega)]

/-- **The round trip.** -/
theorem text_round_trip :
    (∀ uuid, makeFrom (string uuid) = .ok uuid) ∧
      ∀ text, IsCanonical text → (makeFrom text).map string = .ok text :=
  ⟨makeFrom_string, fun _ => string_makeFrom⟩

/-- A text with zeros in front in each of its parts. -/
theorem text_round_trip_zeros :
    (makeFrom (ascii "0000000a-0000-100b-0c0d-00c04fd430c8")).map string =
      .ok (ascii "0000000a-0000-100b-0c0d-00c04fd430c8") := by
  let parts : List (List ℕ) := [[0, 0, 0, 0, 0, 0, 0, 10], [0, 0, 0, 0], [1, 0, 0, 11],
    [0, 12, 0, 13], [0, 0, 12, 0, 4, 15, 13, 4, 3, 0, 12, 8]]
  have hdigits : ∀ digits ∈ parts, ∀ digit ∈ digits, digit < 16 := by decide
  have hlower : ∀ part ∈ parts.map (List.map lowerDigit), IsLowerHex part := by
    intro part hpart
    obtain ⟨digits, hmem, rfl⟩ := List.mem_map.mp hpart
    exact isLowerHex_map (hdigits digits hmem)
  exact text_round_trip.2 _ ⟨_, _, _, _, _, by decide, by decide, hlower⟩

end Eureka.Uuid
