import Eureka.Hashids.Hex

/-!
# Unescaping a request URI

`UnescapeURL` of `tcp_connection.cpp`.  The loop takes two characters behind
each `%` without a look at the end of the view, and the view is what a client
has sent.

* `unescapeLoop_encodes`: every percent-encoding is read back, whichever bytes
  it escapes and in whichever letters.
* `unescapesSafely_iff`: all reads are within the view exactly if two characters
  follow every `%` that the loop comes to.
-/

namespace Eureka.HttpServer

open Hashids

def percent : Byte := 37

/-- `strtoul` to base 16, of a text without a terminating zero. -/
def strtoul (str : Bytes) : UInt64 :=
  let text := (str.takeWhile (· ≠ 0)).dropWhile isSpace
  let digits := (dropHexPrefix (dropSign text)).takeWhile isHexDigit
  if 2 ^ 64 ≤ hexValue digits then -1
  else
    let num := UInt64.ofNat (hexValue digits)
    if text.head? = some 45 then -num else num

/-- The loop of `UnescapeURL`; a read at the end of the view or behind it has no result. -/
def unescapeLoop (url : Bytes) : Bytes → Option Bytes
  | [] => some url
  | ch :: rest =>
      if ch ≠ percent then unescapeLoop (url ++ [ch]) rest
      else
        match rest with
        | hex0 :: hex1 :: rest => unescapeLoop (url ++ [(strtoul [hex0, hex1]).toUInt8]) rest
        | _ => none

def unescapeURL (escapedUrl : Bytes) : Option Bytes := unescapeLoop [] escapedUrl

/-- The URL is a percent-encoding of the text: every byte stands for itself, unless it is a `%`, or
is escaped. -/
inductive Encodes : Bytes → Bytes → Prop
  | nil : Encodes [] []
  | plain {ch : Byte} {text url : Bytes} : ch ≠ percent → Encodes text url →
      Encodes (ch :: text) (ch :: url)
  | escaped {ch hex0 hex1 : Byte} {text url : Bytes} : hexDigit? hex0 = some (ch.toNat / 16) →
      hexDigit? hex1 = some (ch.toNat % 16) → Encodes text url →
      Encodes (ch :: text) (percent :: hex0 :: hex1 :: url)

/-- Two characters follow every `%` that is none of the two behind another one. -/
inductive WellEscaped : Bytes → Prop
  | nil : WellEscaped []
  | plain {ch : Byte} {url : Bytes} : ch ≠ percent → WellEscaped url → WellEscaped (ch :: url)
  | escaped (hex0 hex1 : Byte) {url : Bytes} : WellEscaped url →
      WellEscaped (percent :: hex0 :: hex1 :: url)

/-- The view is not left, and what it encodes is read back. -/
structure UnescapesSafely (escapedUrl : Bytes) : Prop where
  within : ∃ url, unescapeURL escapedUrl = some url
  reads : ∀ text, Encodes text escapedUrl → unescapeURL escapedUrl = some text

/-! ## Percent-encoding -/

theorem strtoul_hexDigits {hex0 hex1 : Byte} {high low : ℕ} (hhigh : hexDigit? hex0 = some high)
    (hlow : hexDigit? hex1 = some low) :
    strtoul [hex0, hex1] = UInt64.ofNat (high * 16 + low) := by
  have hdigits : ∀ ch ∈ [hex0, hex1], isHexDigit ch = true := by
    simp [isHexDigit, hhigh, hlow]
  have hnonzero : [hex0, hex1].takeWhile (· ≠ 0) = [hex0, hex1] := by
    refine List.takeWhile_eq_self_iff.mpr fun ch hch => ?_
    have hrange := isHexDigit_range (hdigits ch hch)
    simp only [ne_eq, decide_not, Bool.not_eq_true', decide_eq_false_iff_not]
    rintro rfl
    revert hrange
    decide
  have hvalue : hexValue [hex0, hex1] = high * 16 + low := by
    simp [hexValue, hhigh, hlow, Nat.ofDigits_cons]
    ring
  have hlt := hexValue_lt [hex0, hex1]
  obtain ⟨hspace, hsign, hprefix, hall, hpositive⟩ := hexDigits_plain hdigits
  unfold strtoul
  rw [hnonzero, hspace]
  dsimp only
  rw [hsign, hprefix, hall, if_neg (by simp at hlt; omega), if_neg hpositive, hvalue]

theorem toUInt8_strtoul {ch hex0 hex1 : Byte} (hhigh : hexDigit? hex0 = some (ch.toNat / 16))
    (hlow : hexDigit? hex1 = some (ch.toNat % 16)) : (strtoul [hex0, hex1]).toUInt8 = ch := by
  rw [strtoul_hexDigits hhigh hlow, Nat.div_add_mod']
  apply UInt8.toNat_inj.mp
  have hlt := ch.toNat_lt
  rw [UInt64.toNat_toUInt8, UInt64.toNat_ofNat']
  omega

theorem unescapeLoop_plain {ch : Byte} (hplain : ch ≠ percent) (url rest : Bytes) :
    unescapeLoop url (ch :: rest) = unescapeLoop (url ++ [ch]) rest := by
  rw [unescapeLoop.eq_def]
  exact if_pos hplain

theorem unescapeLoop_escaped (url : Bytes) (hex0 hex1 : Byte) (rest : Bytes) :
    unescapeLoop url (percent :: hex0 :: hex1 :: rest) =
      unescapeLoop (url ++ [(strtoul [hex0, hex1]).toUInt8]) rest := by
  show (if percent ≠ percent then _ else _) = _
  exact if_neg (not_not.mpr rfl)

theorem unescapeLoop_encodes {text escapedUrl : Bytes} (h : Encodes text escapedUrl)
    (url : Bytes) : unescapeLoop url escapedUrl = some (url ++ text) := by
  induction h generalizing url with
  | nil => exact congrArg some (List.append_nil url).symm
  | plain hplain _ ih =>
      rw [unescapeLoop_plain hplain, ih, List.append_assoc, List.singleton_append]
  | escaped hhigh hlow _ ih =>
      rw [unescapeLoop_escaped, toUInt8_strtoul hhigh hlow, ih, List.append_assoc,
        List.singleton_append]

/-! ## Where the loop stays within the view -/

theorem unescapeLoop_isSome_iff {escapedUrl : Bytes} (url : Bytes) :
    (unescapeLoop url escapedUrl).isSome ↔ WellEscaped escapedUrl := by
  fun_induction unescapeLoop url escapedUrl with
  | case1 url => exact iff_of_true rfl .nil
  | case2 url ch rest hplain ih =>
      rw [ih]
      constructor
      · exact .plain hplain
      · intro h
        cases h with
        | plain _ hrest => exact hrest
        | escaped => exact absurd rfl hplain
  | case3 url ch hpercent hex0 hex1 rest ih =>
      obtain rfl : ch = percent := not_not.mp hpercent
      rw [ih]
      constructor
      · exact .escaped hex0 hex1
      · intro h
        cases h with
        | plain hplain => exact absurd rfl hplain
        | escaped _ _ hrest => exact hrest
  | case4 url ch rest hpercent hshort =>
      refine iff_of_false (by simp) fun h => ?_
      cases h with
      | plain hplain => exact hpercent hplain
      | escaped hex0 hex1 => exact hshort _ _ _ rfl

/-- **`UnescapeURL` is safe exactly on the URIs whose escapes are complete.** -/
theorem unescapesSafely_iff (escapedUrl : Bytes) :
    UnescapesSafely escapedUrl ↔ WellEscaped escapedUrl := by
  have hwithin : (∃ url, unescapeURL escapedUrl = some url) ↔ WellEscaped escapedUrl := by
    rw [← Option.isSome_iff_exists]
    exact unescapeLoop_isSome_iff []
  constructor
  · intro h
    exact hwithin.mp h.within
  · intro h
    exact ⟨hwithin.mpr h, fun text htext => unescapeLoop_encodes htext []⟩

/-- A `%` at the end of the URI, and one in front of its last character. -/
theorem not_unescapesSafely :
    ¬ UnescapesSafely (ascii "/%") ∧ ¬ UnescapesSafely (ascii "/%4") := by
  constructor
  all_goals
    rintro ⟨⟨url, hurl⟩, -⟩
    cases hurl

example : unescapeURL (ascii "/a%20b%2525") = some (ascii "/a b%25") := by decide +kernel

end Eureka.HttpServer
