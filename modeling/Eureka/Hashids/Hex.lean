import Eureka.Hashids.MinimumLength

/-!
# Hexadecimal texts

`encode_hex` cuts a text into groups of twelve digits, marks each group with a digit `1`
in front, and encodes the numbers that the groups stand for; `decode_hex` prints the
numbers without their marks.

* `stoull_mark`: the library routine reads a marked group up to the first character that
  is no digit.
* `formatHex_groupNumber`: printing a group's number gives the group back, the zeros
  behind the mark included.
* `hex_round_trip_iff`: the round trip, and the rejection of every other text.
-/

namespace Eureka.Hashids

/-- How `encode_hex` can fail. -/
inductive HexFailure
  | outOfRange (what : String)
  | of (failure : Failure)
deriving DecidableEq, Repr

/-! ## The library's conversions -/

/-- The value of a hexadecimal digit. -/
def hexDigit? (ch : Byte) : Option ℕ :=
  if 48 ≤ ch.toNat ∧ ch.toNat ≤ 57 then some (ch.toNat - 48)
  else if 65 ≤ ch.toNat ∧ ch.toNat ≤ 70 then some (ch.toNat - 55)
  else if 97 ≤ ch.toNat ∧ ch.toNat ≤ 102 then some (ch.toNat - 87)
  else none

def isHexDigit (ch : Byte) : Bool := (hexDigit? ch).isSome

/-- What hexadecimal digits stand for, the first one first. -/
def hexValue (digits : Bytes) : ℕ :=
  Nat.ofDigits 16 (digits.reverse.map fun ch => (hexDigit? ch).getD 0)

/-- `std::isspace`. -/
def isSpace (ch : Byte) : Bool := ch = 32 || (9 ≤ ch && ch ≤ 13)

/-- A sign in front of a number. -/
def dropSign : Bytes → Bytes
  | ch :: rest => if ch = 43 ∨ ch = 45 then rest else ch :: rest
  | [] => []

/-- The `0x` in front of a hexadecimal number. -/
def dropHexPrefix : Bytes → Bytes
  | zero :: x :: ch :: rest =>
      if zero = 48 ∧ (x = 120 ∨ x = 88) ∧ isHexDigit ch then ch :: rest
      else zero :: x :: ch :: rest
  | text => text

/-- `std::stoull` to base 16: the number, and the length of the text that was read. -/
def stoull (str : Bytes) : Except HexFailure (UInt64 × ℕ) :=
  let text := str.dropWhile isSpace
  let digits := (dropHexPrefix (dropSign text)).takeWhile isHexDigit
  if digits.isEmpty then .error (.of (.invalidArgument "stoull"))
  else if 2 ^ 64 ≤ hexValue digits then .error (.outOfRange "stoull")
  else
    let num := UInt64.ofNat (hexValue digits)
    let cvtLen := str.length - (dropHexPrefix (dropSign text)).length + digits.length
    .ok (if text.head? = some 45 then -num else num, cvtLen)

/-- A digit as `x` prints it. -/
def lowerDigit (digit : ℕ) : Byte := UInt8.ofNat (if digit < 10 then 48 + digit else 87 + digit)

/-- The hexadecimal digits of a number, in lower case and with no zeros in front of them, as the
conversion `x` without a width is documented to print them. -/
def formatHex (n : UInt64) : Bytes :=
  if n = 0 then [48] else ((Nat.digits 16 n.toNat).map lowerDigit).reverse

/-- A letter in lower case. -/
def toLower (ch : Byte) : Byte :=
  if 65 ≤ ch.toNat ∧ ch.toNat ≤ 90 then UInt8.ofNat (ch.toNat + 32) else ch

/-! ## `encode_hex` and `decode_hex` -/

/-- The loop of `encode_hex`. -/
def parseGroups : List Bytes → Except HexFailure (List UInt64)
  | [] => .ok []
  | part :: parts => do
      let buf := 49 :: part
      let (num, cvtLen) ← stoull buf
      if cvtLen ≠ buf.length then
        throw (.of (.invalidArgument "invalid hex"))
      let nums ← parseGroups parts
      return num :: nums

/-- `encode_hex`; `splitByLength` is `esl::strings::split` by a length. -/
def encodeHex (hs : Hashids) (maxSize : ℕ) (splitByLength : ℕ → Bytes → List Bytes) (hex : Bytes) :
    Except HexFailure Bytes :=
  if hex.isEmpty then .ok []
  else do
    let nums ← parseGroups (splitByLength 12 hex)
    (hs.encode maxSize nums).mapError .of

/-- `decode_hex`; `format` is `fmt::format` of a number by `{:x}`. -/
def decodeHex (hs : Hashids) (maxSize : ℕ) (split : Bytes → Bytes → List Bytes)
    (format : UInt64 → Bytes) (hashid : Bytes) : Except Failure Bytes :=
  if hashid.isEmpty then .ok []
  else do
    let nums ← hs.decode maxSize split hashid
    return nums.flatMap fun n => (format n).drop 1

/-! ## Digits -/

theorem hexDigit?_cases {ch : Byte} {digit : ℕ} (hdigit : hexDigit? ch = some digit) :
    digit < 16 ∧ lowerDigit digit = toLower ch := by
  unfold hexDigit? at hdigit
  unfold lowerDigit toLower
  -- the decimal digits, the capital and the small letters
  split_ifs at hdigit with hdecimal hupper hlower
  · obtain rfl := Option.some.inj hdigit
    rw [if_pos (by omega), if_neg (by omega), Nat.add_sub_of_le hdecimal.1, UInt8.ofNat_toNat]
    exact ⟨by omega, rfl⟩
  · obtain rfl := Option.some.inj hdigit
    rw [if_neg (by omega), if_pos (by omega)]
    exact ⟨by omega, congrArg UInt8.ofNat (by omega)⟩
  · obtain rfl := Option.some.inj hdigit
    rw [if_neg (by omega), if_neg (by omega), Nat.add_sub_of_le (by omega), UInt8.ofNat_toNat]
    exact ⟨by omega, rfl⟩

theorem digit_lt (ch : Byte) : (hexDigit? ch).getD 0 < 16 := by
  cases hdigit : hexDigit? ch with
  | none => exact Nat.succ_pos 15
  | some digit => exact (hexDigit?_cases hdigit).1

theorem lowerDigit_hexDigit {ch : Byte} (hhex : isHexDigit ch) :
    lowerDigit ((hexDigit? ch).getD 0) = toLower ch := by
  obtain ⟨digit, hdigit⟩ := Option.isSome_iff_exists.mp hhex
  rw [hdigit]
  exact (hexDigit?_cases hdigit).2

theorem isHexDigit_range {ch : Byte} (hhex : isHexDigit ch = true) :
    48 ≤ ch.toNat ∧ ch.toNat ≤ 57 ∨ 65 ≤ ch.toNat ∧ ch.toNat ≤ 70 ∨
      97 ≤ ch.toNat ∧ ch.toNat ≤ 102 := by
  unfold isHexDigit hexDigit? at hhex
  split_ifs at hhex with hdecimal hupper hlower
  · exact .inl hdecimal
  · exact .inr (.inl hupper)
  · exact .inr (.inr hlower)
  · cases hhex

/-- A digit is nothing that the library's conversions treat in another way. -/
theorem isHexDigit_plain {ch : Byte} (hhex : isHexDigit ch = true) :
    isSpace ch = false ∧ ch ∉ [43, 45, 120, 88] := by
  have hrange := isHexDigit_range hhex
  refine ⟨?_, fun hmem => ?_⟩
  · have h32 : ch ≠ 32 := by
      rintro rfl
      revert hrange
      decide
    have h13 : ¬ ch ≤ 13 := by
      rw [UInt8.le_iff_toNat_le]
      change ¬ ch.toNat ≤ 13
      omega
    unfold isSpace
    rw [decide_eq_false h32, decide_eq_false h13, Bool.and_false, Bool.or_false]
  · fin_cases hmem <;> revert hrange <;> decide

theorem hexDigits_plain {digits : Bytes} (hdigits : ∀ ch ∈ digits, isHexDigit ch = true) :
    digits.dropWhile isSpace = digits ∧ dropSign digits = digits ∧
      dropHexPrefix digits = digits ∧ digits.takeWhile isHexDigit = digits ∧
      digits.head? ≠ some 45 := by
  have hplain : ∀ ch ∈ digits, isSpace ch = false ∧ ch ∉ [43, 45, 120, 88] :=
    fun ch hch => isHexDigit_plain (hdigits ch hch)
  have hall : digits.takeWhile isHexDigit = digits := List.takeWhile_eq_self_iff.mpr hdigits
  cases digits with
  | nil => exact ⟨rfl, rfl, rfl, rfl, by simp⟩
  | cons ch rest =>
      obtain ⟨hspace, hsign⟩ := hplain ch List.mem_cons_self
      refine ⟨List.dropWhile_cons_of_neg (Bool.eq_false_iff.mp hspace), if_neg ?_, ?_, hall, ?_⟩
      · rintro (rfl | rfl) <;> exact hsign (by decide)
      · -- an `x` is no digit, so no text of digits begins like a number in C
        rcases rest with _ | ⟨x, _ | ⟨ch', rest⟩⟩
        · rfl
        · rfl
        · have hx := (hplain x (List.mem_cons_of_mem _ List.mem_cons_self)).2
          refine if_neg ?_
          rintro ⟨-, rfl | rfl, -⟩ <;> exact hx (by decide)
      · intro hhead
        obtain rfl := Option.some.inj hhead
        exact hsign (by decide)

theorem hexValue_lt (digits : Bytes) : hexValue digits < 16 ^ digits.length := by
  have hlt := Nat.ofDigits_lt_base_pow_length (b := 16)
    (l := digits.reverse.map fun ch => (hexDigit? ch).getD 0) (by decide) ?_
  · rwa [List.length_map, List.length_reverse] at hlt
  · intro digit hdigit
    obtain ⟨ch, -, rfl⟩ := List.mem_map.mp hdigit
    exact digit_lt ch

theorem hexValue_mark_lt {part : Bytes} (hlength : part.length ≤ 12) :
    hexValue (49 :: part) < 2 ^ 64 := by
  calc
    hexValue (49 :: part) < 16 ^ (49 :: part).length := hexValue_lt _
    _ ≤ 16 ^ 13 := Nat.pow_le_pow_right (by decide) (Nat.succ_le_succ hlength)
    _ < 2 ^ 64 := by decide

/-! ## The groups -/

theorem takeWhile_length_lt {part : Bytes} (hpart : ∃ ch ∈ part, isHexDigit ch = false) :
    (part.takeWhile isHexDigit).length < part.length := by
  refine lt_of_le_of_ne (List.takeWhile_prefix _).length_le fun hlength => ?_
  obtain ⟨ch, hch, hhex⟩ := hpart
  have hall := List.takeWhile_eq_self_iff.mp ((List.takeWhile_prefix _).eq_of_length hlength)
  rw [hall ch hch] at hhex
  cases hhex

/-- **The library routine reads a marked group up to the first character that is no digit.**
The mark keeps it from looking for spaces, signs and prefixes. -/
theorem stoull_mark {part : Bytes} (hlength : part.length ≤ 12) :
    stoull (49 :: part) =
      .ok (UInt64.ofNat (hexValue (49 :: part.takeWhile isHexDigit)),
        (part.takeWhile isHexDigit).length + 1) := by
  have hspace : (49 :: part).dropWhile isSpace = 49 :: part := rfl
  have hsign : dropSign (49 :: part) = 49 :: part := rfl
  have hprefix : dropHexPrefix (49 :: part) = 49 :: part := by
    match part with
    | [] | [_] | _ :: _ :: _ => rfl
  have hdigits : (49 :: part).takeWhile isHexDigit = 49 :: part.takeWhile isHexDigit := rfl
  have hshort : (part.takeWhile isHexDigit).length ≤ 12 :=
    (List.takeWhile_prefix _).length_le.trans hlength
  unfold stoull
  dsimp only
  rw [hspace, hsign, hprefix, hdigits, if_neg (by exact Bool.false_ne_true),
    if_neg (not_le.mpr (hexValue_mark_lt hshort)), if_neg (by simp), Nat.sub_self, Nat.zero_add,
    List.length_cons]

/-- The pieces of twelve characters, of which the last may be shorter. -/
def groups (hex : Bytes) : List Bytes :=
  if hex.length ≤ 12 then [hex] else hex.take 12 :: groups (hex.drop 12)
termination_by hex.length

theorem flatten_groups (hex : Bytes) : (groups hex).flatten = hex := by
  fun_induction groups hex with
  | case1 hex hshort => exact List.append_nil _
  | case2 hex hlong ih => rw [List.flatten_cons, ih, List.take_append_drop]

theorem length_of_mem_groups {hex part : Bytes} (hpart : part ∈ groups hex) : part.length ≤ 12 := by
  fun_induction groups hex with
  | case1 hex hshort =>
      obtain rfl := List.mem_singleton.mp hpart
      exact hshort
  | case2 hex hlong ih =>
      obtain rfl | hpart := List.mem_cons.mp hpart
      · exact List.length_take_le _ _
      · exact ih hpart

/-- The number that a group stands for behind its mark. -/
def groupNumber (part : Bytes) : UInt64 := UInt64.ofNat (hexValue (49 :: part))

/-- The numbers that a hexadecimal text is encoded by. -/
def hexNumbers (hex : Bytes) : List UInt64 :=
  if hex.isEmpty then [] else (groups hex).map groupNumber

theorem parseGroups_of_hex {parts : List Bytes} (hlength : ∀ part ∈ parts, part.length ≤ 12)
    (hhex : ∀ part ∈ parts, ∀ ch ∈ part, isHexDigit ch) :
    parseGroups parts = .ok (parts.map groupNumber) := by
  induction parts with
  | nil => rfl
  | cons part parts ih =>
      obtain ⟨hshort, hlength⟩ := List.forall_mem_cons.mp hlength
      obtain ⟨hpart, hhex⟩ := List.forall_mem_cons.mp hhex
      unfold parseGroups
      dsimp only
      rw [stoull_mark hshort, List.takeWhile_eq_self_iff.mpr hpart, ih hlength hhex]
      change (if part.length + 1 ≠ (49 :: part).length then _ else _) = _
      rw [List.length_cons, if_neg (not_not.mpr rfl)]
      rfl

theorem parseGroups_of_not_hex {parts : List Bytes} (hlength : ∀ part ∈ parts, part.length ≤ 12)
    (hhex : ∃ part ∈ parts, ∃ ch ∈ part, isHexDigit ch = false) :
    parseGroups parts = .error (.of (.invalidArgument "invalid hex")) := by
  induction parts with
  | nil =>
      obtain ⟨part, hpart, -⟩ := hhex
      exact absurd hpart List.not_mem_nil
  | cons part parts ih =>
      obtain ⟨hshort, hlength⟩ := List.forall_mem_cons.mp hlength
      unfold parseGroups
      dsimp only
      rw [stoull_mark hshort]
      change (if (part.takeWhile isHexDigit).length + 1 ≠ (49 :: part).length then _ else _) = _
      by_cases hpart : ∃ ch ∈ part, isHexDigit ch = false
      · have hless := takeWhile_length_lt hpart
        rw [List.length_cons, if_pos (by omega)]
        rfl
      · have hrest : ∃ part ∈ parts, ∃ ch ∈ part, isHexDigit ch = false := by
          obtain ⟨other, hother, hch⟩ := hhex
          obtain rfl | hother := List.mem_cons.mp hother
          · exact absurd hch hpart
          · exact ⟨other, hother, hch⟩
        have hpart : ∀ ch ∈ part, isHexDigit ch := by simpa using hpart
        rw [List.takeWhile_eq_self_iff.mpr hpart, List.length_cons, if_neg (not_not.mpr rfl),
          ih hlength hrest]
        rfl

/-- **Printing a group's number gives the group back.**  The mark is its first digit, so no zero
behind it is lost. -/
theorem formatHex_groupNumber {part : Bytes} (hlength : part.length ≤ 12)
    (hhex : ∀ ch ∈ part, isHexDigit ch) :
    formatHex (groupNumber part) = 49 :: part.map toLower := by
  have hvalue : (groupNumber part).toNat = hexValue (49 :: part) :=
    UInt64.toNat_ofNat_of_lt' (hexValue_mark_lt hlength)
  have hdigits : Nat.digits 16 (hexValue (49 :: part)) =
      (49 :: part).reverse.map fun ch => (hexDigit? ch).getD 0 := by
    refine Nat.digits_ofDigits 16 (by decide) _ ?_ ?_
    · intro digit hdigit
      obtain ⟨ch, -, rfl⟩ := List.mem_map.mp hdigit
      exact digit_lt ch
    · intro hne
      simp only [List.reverse_cons, List.map_append, List.map_cons, List.map_nil,
        List.getLast_concat]
      decide
  have hpos : groupNumber part ≠ 0 := by
    intro hzero
    rw [← hvalue, hzero] at hdigits
    simp at hdigits
  unfold formatHex
  rw [if_neg hpos, hvalue, hdigits, List.map_map, ← List.map_reverse, List.reverse_reverse,
    List.map_cons]
  refine congrArg₂ List.cons (by decide) (List.map_congr_left fun ch hch => ?_)
  exact lowerDigit_hexDigit (hhex ch hch)

theorem flatMap_formatHex {parts : List Bytes} (hlength : ∀ part ∈ parts, part.length ≤ 12)
    (hhex : ∀ part ∈ parts, ∀ ch ∈ part, isHexDigit ch) :
    ((parts.map groupNumber).flatMap fun n => (formatHex n).drop 1) =
      parts.flatten.map toLower := by
  induction parts with
  | nil => rfl
  | cons part parts ih =>
      obtain ⟨hshort, hlength⟩ := List.forall_mem_cons.mp hlength
      obtain ⟨hpart, hhex⟩ := List.forall_mem_cons.mp hhex
      rw [List.map_cons, List.flatMap_cons, ih hlength hhex, formatHex_groupNumber hshort hpart,
        List.drop_one, List.tail_cons, List.flatten_cons, List.map_append]

/-! ## The round trip -/

theorem groups_of_hex {hex : Bytes} (hhex : ∀ ch ∈ hex, isHexDigit ch) :
    ∀ part ∈ groups hex, ∀ ch ∈ part, isHexDigit ch := by
  intro part hpart ch hch
  refine hhex ch ?_
  rw [← flatten_groups hex]
  exact List.mem_flatten_of_mem hpart hch

theorem hexNumbers_ne_nil {hex : Bytes} (hne : hex ≠ []) : hexNumbers hex ≠ [] := by
  unfold hexNumbers
  rw [if_neg (List.isEmpty_iff.not.mpr hne)]
  intro hnil
  have hflatten := flatten_groups hex
  rw [List.map_eq_nil_iff.mp hnil] at hflatten
  exact hne hflatten.symm

variable {hs : Hashids} {maxSize : ℕ}

section Split

variable {splitByLength : ℕ → Bytes → List Bytes}
  (hgroups : ∀ text, text ≠ [] → splitByLength 12 text = groups text)
include hgroups

theorem encodeHex_of_hex {hex : Bytes} (hne : hex ≠ []) (hhex : ∀ ch ∈ hex, isHexDigit ch) :
    hs.encodeHex maxSize splitByLength hex =
      (hs.encode maxSize (hexNumbers hex)).mapError .of := by
  have hparse := parseGroups_of_hex (fun part hpart => length_of_mem_groups hpart)
    (groups_of_hex hhex)
  unfold encodeHex hexNumbers
  rw [if_neg (List.isEmpty_iff.not.mpr hne), if_neg (List.isEmpty_iff.not.mpr hne),
    hgroups hex hne, hparse]
  rfl

theorem encodeHex_of_not_hex {hex : Bytes} (hhex : ∃ ch ∈ hex, isHexDigit ch = false) :
    hs.encodeHex maxSize splitByLength hex = .error (.of (.invalidArgument "invalid hex")) := by
  obtain ⟨ch, hch, hnot⟩ := hhex
  have hne : hex ≠ [] := List.ne_nil_of_mem hch
  have hpart : ∃ part ∈ groups hex, ∃ ch ∈ part, isHexDigit ch = false := by
    rw [← flatten_groups hex] at hch
    obtain ⟨part, hpart, hch⟩ := List.mem_flatten.mp hch
    exact ⟨part, hpart, ch, hch, hnot⟩
  unfold encodeHex
  rw [if_neg (List.isEmpty_iff.not.mpr hne), hgroups hex hne,
    parseGroups_of_not_hex (fun part hpart => length_of_mem_groups hpart) hpart]
  rfl

end Split

theorem decodeHex_of_decode {split : Bytes → Bytes → List Bytes} {format : UInt64 → Bytes}
    (hformat : ∀ n, format n = formatHex n) {hex hashid : Bytes}
    (hne : hex ≠ []) (hhex : ∀ ch ∈ hex, isHexDigit ch) (hhashid : hashid ≠ [])
    (hdecode : hs.decode maxSize split hashid = .ok (hexNumbers hex)) :
    hs.decodeHex maxSize split format hashid = .ok (hex.map toLower) := by
  have hprint := flatMap_formatHex (fun part hpart => length_of_mem_groups hpart)
    (groups_of_hex hhex)
  rw [flatten_groups] at hprint
  obtain rfl : format = formatHex := funext hformat
  unfold decodeHex
  rw [if_neg (List.isEmpty_iff.not.mpr hhashid), hdecode]
  unfold hexNumbers
  rw [if_neg (List.isEmpty_iff.not.mpr hne), ← hprint]
  rfl

/-- **The round trip of hexadecimal texts**, of which every other text is kept out, unless the
first group begins with NUL or there is no room in a string. -/
theorem hex_round_trip_iff {split : Bytes → Bytes → List Bytes}
    (hsplit : ∀ delims text, split delims text = text.splitOnP (· ∈ delims))
    {splitByLength : ℕ → Bytes → List Bytes}
    (hgroups : ∀ text, text ≠ [] → splitByLength 12 text = groups text)
    {format : UInt64 → Bytes} (hformat : ∀ n, format n = formatHex n)
    {opts : Options} (hconstruct : construct opts = .ok hs) (maxSize : ℕ) (hex : Bytes) :
    ((hex ≠ [] → (∀ ch ∈ hex, isHexDigit ch) →
        ∃ hashid, hs.encodeHex maxSize splitByLength hex = .ok hashid ∧
          hs.decodeHex maxSize split format hashid = .ok (hex.map toLower)) ∧
      ((∃ ch ∈ hex, isHexDigit ch = false) →
        ∃ what, hs.encodeHex maxSize splitByLength hex = .error (.of (.invalidArgument what)))) ↔
      (hex ≠ [] → (∀ ch ∈ hex, isHexDigit ch) →
        ¬ hs.LeadsWithNul (hexNumbers hex) ∧ hs.Fits maxSize (hexNumbers hex)) := by
  have hstocked := stocked_of_construct hconstruct
  constructor
  · rintro ⟨htrip, -⟩ hne hhex
    obtain ⟨hashid, hencode, -⟩ := htrip hne hhex
    rw [encodeHex_of_hex hgroups hne hhex] at hencode
    rw [← encode_completes_iff hstocked (hexNumbers_ne_nil hne)]
    cases hplain : hs.encode maxSize (hexNumbers hex) with
    | ok hashid => exact ⟨hashid, rfl⟩
    | error failure =>
        rw [hplain] at hencode
        cases hencode
  · intro hencodes
    refine ⟨fun hne hhex => ?_, fun hhex => ⟨_, encodeHex_of_not_hex hgroups hhex⟩⟩
    obtain ⟨hashid, hencode⟩ :=
      (encode_completes_iff hstocked (hexNumbers_ne_nil hne)).mpr (hencodes hne hhex)
    have hdecode := decode_encode hsplit (valid_of_construct hconstruct) (hexNumbers_ne_nil hne)
      hencode
    refine ⟨hashid, ?_, decodeHex_of_decode hformat hne hhex ?_ hdecode⟩
    · rw [encodeHex_of_hex hgroups hne hhex, hencode]
      rfl
    · rintro rfl
      exact hexNumbers_ne_nil hne (Except.ok.inj hdecode).symm

/-- Thirteen digits make two groups, the second of which is a zero. -/
theorem hex_round_trip_iff_paddedHashids :
    ((ascii "00Fa000000000" ≠ [] → (∀ ch ∈ ascii "00Fa000000000", isHexDigit ch) →
        ∃ hashid, paddedHashids.encodeHex (2 ^ 62 - 1) (fun _ => groups) (ascii "00Fa000000000") =
            .ok hashid ∧
          paddedHashids.decodeHex (2 ^ 62 - 1) (fun delims text => text.splitOnP (· ∈ delims))
            formatHex hashid = .ok ((ascii "00Fa000000000").map toLower)) ∧
      ((∃ ch ∈ ascii "00Fa000000000", isHexDigit ch = false) →
        ∃ what, paddedHashids.encodeHex (2 ^ 62 - 1) (fun _ => groups) (ascii "00Fa000000000") =
          .error (.of (.invalidArgument what)))) ↔
      (ascii "00Fa000000000" ≠ [] → (∀ ch ∈ ascii "00Fa000000000", isHexDigit ch) →
        ¬ paddedHashids.LeadsWithNul (hexNumbers (ascii "00Fa000000000")) ∧
          paddedHashids.Fits (2 ^ 62 - 1) (hexNumbers (ascii "00Fa000000000"))) :=
  hex_round_trip_iff (fun _ _ => rfl) (fun _ _ => rfl) (fun _ => rfl)
    (show construct paddedOptions = .ok paddedHashids by decide) _ _

/-- The digit `b` stands for 27 behind its mark, whose leading digit is written as NUL. -/
theorem encodeHex_nul_undefined :
    construct ⟨[], ascii "abdegjklmnopqrvw" ++ [0], 20⟩ = .ok nulHashids ∧
      (∀ ch ∈ ascii "b", isHexDigit ch) ∧
      ¬ ∃ hashid, nulHashids.encodeHex (2 ^ 62 - 1) (fun _ => groups) (ascii "b") = .ok hashid ∧
        nulHashids.decodeHex (2 ^ 62 - 1) (fun delims text => text.splitOnP (· ∈ delims))
          formatHex hashid = .ok ((ascii "b").map toLower) := by
  have hundefined : nulHashids.encodeHex (2 ^ 62 - 1) (fun _ => groups) (ascii "b") =
      .error (.of .undefined) := by
    rw [encodeHex_of_hex (fun _ _ => rfl) (by decide) (by decide +kernel)]
    decide +kernel
  refine ⟨by decide +kernel, by decide +kernel, ?_⟩
  rintro ⟨hashid, hencode, -⟩
  rw [hundefined] at hencode
  cases hencode

end Eureka.Hashids
