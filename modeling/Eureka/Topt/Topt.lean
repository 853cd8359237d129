import Mathlib
import Eureka.Bytes
import Eureka.Library.Endian

/-!
# Time based one time passwords

`generate_topt` of `topt/topt.cpp`.  The base32 decoder and HMAC-SHA1 come from
libraries and are parameters; what is done with their results is not.

A password is read off the digest by taking the four bytes from the offset that
its last byte names, as a number in network order.  By RFC 6238 the topmost bit
of this word is dropped and the rest is written with six digits.  The code
keeps the bit and writes no leading zeros, so there are two ways to go wrong:

* **The topmost bit.**  `2 ^ 31` is no multiple of `1000000`, so the bit always
  changes the remainder (`mod_eq_truncated_iff`).
* **The leading zeros.**  The text has less than six digits as soon as the
  remainder is below `100000` (`length_toDigits_eq_six_iff`).

`generateTopt_eq_iff` says that nothing else does.
-/

namespace Eureka.Topt

open Endian

/-- `secret_key`. -/
abbrev SecretKey := Vector Byte 20

/-- The `digest` array of `generate_topt`. -/
abbrev Digest := Vector Byte 20

def asciiToUpper (ch : Byte) : Byte :=
  if 'a'.toUInt8 ≤ ch ∧ ch ≤ 'z'.toUInt8 then 'A'.toUInt8 + ch - 'a'.toUInt8 else ch

/-- `decode_secret_key`; `base32` is the decoder of the library, which throws for
an invalid text. -/
def decodeSecretKey (base32 : Bytes → Except String SecretKey) (encoded : Bytes) :
    Except String SecretKey :=
  base32 ((encoded.filter (· ≠ ' '.toUInt8)).map asciiToUpper)

/-- `time_counter`, `seconds` after the epoch. -/
def timeCounter (seconds : ℤ) : ℕ := (seconds.tdiv 30 % 2 ^ 64).toNat

/-- `CalculateDigest`, on the bytes of the counter as they lie in memory. -/
def calculateDigest (endianness : Endianness) (hmacSha1 : SecretKey → Bytes → Digest)
    (seconds : ℤ) (secretKey : SecretKey) : Digest :=
  hmacSha1 secretKey (objectBytes endianness 8 (hostToNetwork endianness 8 (timeCounter seconds)))

namespace Digest

def offset (digest : Digest) : ℕ := (digest[19] &&& 0x0f).toNat

/-- The four consecutive bytes that start at `offset`. -/
def selected (digest : Digest) : Bytes := (digest.toList.drop digest.offset).take 4

/-- The code that is made of the digest. -/
def code (endianness : Endianness) (digest : Digest) : String :=
  let value := ofObjectBytes endianness digest.selected
  let value := networkToHost endianness 4 value
  toString (value % 1000000)

end Digest

def generateTopt (endianness : Endianness) (base32 : Bytes → Except String SecretKey)
    (hmacSha1 : SecretKey → Bytes → Digest) (seconds : ℤ) (encSecret : Bytes) :
    Except String String := do
  let secretKey ← decodeSecretKey base32 encSecret
  let digest := calculateDigest endianness hmacSha1 seconds secretKey
  return digest.code endianness

/-! ## The password of a digest -/

namespace Digest

/-- The selected bytes as a number in network order. -/
def word (digest : Digest) : ℕ := ofNetworkBytes digest.selected

/-- Dynamic truncation: the selected bytes without the topmost bit. -/
def truncated (digest : Digest) : ℕ := digest.word % 2 ^ 31

/-- The password, always of six digits. -/
def password (digest : Digest) : String :=
  String.ofList ((Nat.toDigits 10 (digest.truncated % 1000000)).leftpad 6 '0')

/-- The digests whose code is their password. -/
def Agrees (digest : Digest) : Prop := digest.word < 2 ^ 31 ∧ 100000 ≤ digest.word % 1000000

instance (digest : Digest) : Decidable digest.Agrees :=
  inferInstanceAs (Decidable (_ ∧ _))

variable (digest : Digest)

/-- The four bytes are within the digest. -/
theorem offset_add_le : digest.offset + 4 ≤ 20 := by
  have hand : digest.offset ≤ 15 := by
    unfold offset
    rw [UInt8.toNat_and]
    exact Nat.and_le_right
  omega

@[simp] theorem length_selected : digest.selected.length = 4 := by
  have hle := digest.offset_add_le
  unfold selected
  simp only [List.length_take, List.length_drop, Vector.length_toList]
  omega

theorem word_lt : digest.word < 2 ^ 32 := by
  have hlt := ofNetworkBytes_lt digest.selected
  rw [length_selected] at hlt
  exact hlt

/-- Whatever the host, the code is made of the word. -/
theorem code_eq (endianness : Endianness) :
    digest.code endianness = toString (digest.word % 1000000) := by
  have hword := networkToHost_ofObjectBytes endianness digest.selected
  rw [length_selected] at hword
  simp only [code]
  rw [hword, word]

end Digest

/-! ## Remainders and digits -/

/-- The topmost bit always shows in the remainder. -/
theorem mod_eq_truncated_iff {word : ℕ} (hword : word < 2 ^ 32) :
    word % 1000000 = word % 2 ^ 31 % 1000000 ↔ word < 2 ^ 31 := by
  have htop : (2 : ℕ) ^ 31 = 2147483648 := by norm_num
  have hwidth : (2 : ℕ) ^ 32 = 4294967296 := by norm_num
  rw [hwidth] at hword
  rw [htop]
  by_cases hlt : word < 2147483648
  · rw [Nat.mod_eq_of_lt hlt]
    exact iff_of_true rfl hlt
  · obtain ⟨rest, rfl⟩ := Nat.exists_eq_add_of_le' (not_lt.mp hlt)
    rw [Nat.add_mod_right, Nat.mod_eq_of_lt (b := 2147483648) (by omega)]
    refine iff_of_false (fun heq => ?_) hlt
    omega

theorem length_toDigits_eq_six_iff {n : ℕ} (hn : n < 1000000) :
    (Nat.toDigits 10 n).length = 6 ↔ 100000 ≤ n := by
  have hfive := Nat.length_toDigits_le_iff (n := n) (b := 10) (k := 5) (by decide) (by decide)
  have hsix := Nat.length_toDigits_le_iff (n := n) (b := 10) (k := 6) (by decide) (by decide)
  omega

/-- Zeros in front do not change the number that digits stand for. -/
theorem ofDigitChars_leftpad (width : ℕ) (digits : List Char) :
    Nat.ofDigitChars 10 (digits.leftpad width '0') 0 = Nat.ofDigitChars 10 digits 0 := by
  unfold List.leftpad
  generalize width - digits.length = zeros
  induction zeros with
  | zero => rfl
  | succ zeros ih =>
      rw [List.replicate_succ, List.cons_append]
      exact ih

theorem toDigits_eq_leftpad_iff {m n : ℕ} (hn : n < 1000000) (hm : m < 1000000) :
    Nat.toDigits 10 n = (Nat.toDigits 10 m).leftpad 6 '0' ↔ n = m ∧ 100000 ≤ n := by
  have hle : (Nat.toDigits 10 m).length ≤ 6 :=
    (Nat.length_toDigits_le_iff (by decide) (by decide)).mpr hm
  rw [← length_toDigits_eq_six_iff hn]
  constructor
  · intro heq
    refine ⟨?_, ?_⟩
    · calc n = Nat.ofDigitChars 10 (Nat.toDigits 10 n) 0 := Nat.ofDigitChars_ten_toDigits.symm
        _ = Nat.ofDigitChars 10 ((Nat.toDigits 10 m).leftpad 6 '0') 0 := by rw [heq]
        _ = Nat.ofDigitChars 10 (Nat.toDigits 10 m) 0 := ofDigitChars_leftpad 6 _
        _ = m := Nat.ofDigitChars_ten_toDigits
    · rw [heq, List.length_leftpad]
      omega
  · rintro ⟨rfl, hlength⟩
    unfold List.leftpad
    rw [hlength]
    rfl

theorem Digest.code_eq_password_iff (endianness : Endianness) (digest : Digest) :
    digest.code endianness = digest.password ↔ digest.Agrees := by
  have hword : digest.word % 1000000 < 1000000 := Nat.mod_lt _ (by decide)
  have htruncated : digest.truncated % 1000000 < 1000000 := Nat.mod_lt _ (by decide)
  rw [Digest.code_eq, Digest.password, Nat.toString_eq_ofList_toDigits, String.ofList_inj,
    toDigits_eq_leftpad_iff hword htruncated, Digest.truncated,
    mod_eq_truncated_iff digest.word_lt, Digest.Agrees]

/-! ## Generated codes -/

/-- **Codes are the passwords of RFC 6238 exactly for these digests.** -/
theorem generateTopt_eq_iff (endianness : Endianness) (base32 : Bytes → Except String SecretKey)
    (hmacSha1 : SecretKey → Bytes → Digest) (seconds : ℤ) (encSecret : Bytes) :
    generateTopt endianness base32 hmacSha1 seconds encSecret =
        (decodeSecretKey base32 encSecret).map
          (fun secretKey => (calculateDigest endianness hmacSha1 seconds secretKey).password) ↔
      ∀ secretKey, decodeSecretKey base32 encSecret = .ok secretKey →
        (calculateDigest endianness hmacSha1 seconds secretKey).Agrees := by
  unfold generateTopt
  cases decodeSecretKey base32 encSecret with
  | error reason => exact iff_of_true rfl fun _ heq => nomatch heq
  | ok secretKey =>
      have hcode := (calculateDigest endianness hmacSha1 seconds secretKey).code_eq_password_iff
        endianness
      constructor
      · intro heq key hkey
        obtain rfl := Except.ok.inj hkey
        exact hcode.mp (Except.ok.inj heq)
      · intro hagrees
        exact congrArg Except.ok (hcode.mpr (hagrees secretKey rfl))

/-- The digest of the counter `1` under the key of the RFC's test vectors. -/
def digestOne : Digest :=
  #v[117, 164, 138, 25, 212, 203, 225, 0, 100, 78, 138, 193, 57, 126, 234, 116, 122, 45, 51, 171]

/-- The digest of the counter `37037036` under the same key. -/
def digestLater : Digest :=
  #v[39, 140, 2, 229, 54, 16, 248, 76, 64, 189, 145, 53, 172, 212, 16, 16, 18, 65, 10, 20]

/-- HMAC-SHA1 under that key, for these two counters. -/
def sampleHmac (_ : SecretKey) (counter : Bytes) : Digest :=
  if counter = [0, 0, 0, 0, 0, 0, 0, 1] then digestOne else digestLater

/-- The key of the test vectors, `12345678901234567890`. -/
def sampleKey : SecretKey :=
  #v[49, 50, 51, 52, 53, 54, 55, 56, 57, 48, 49, 50, 51, 52, 53, 54, 55, 56, 57, 48]

/-- At second `59` the topmost bit is set, at second `1111111109` the remainder is small. -/
theorem generateTopt_ne_password :
    (generateTopt .little (fun _ => .ok sampleKey) sampleHmac 59 [] = .ok "770730" ∧
      (calculateDigest .little sampleHmac 59 sampleKey).password = "287082") ∧
    (generateTopt .little (fun _ => .ok sampleKey) sampleHmac 1111111109 [] = .ok "81804" ∧
      (calculateDigest .little sampleHmac 1111111109 sampleKey).password = "081804") :=
  ⟨⟨rfl, rfl⟩, rfl, rfl⟩

end Eureka.Topt
