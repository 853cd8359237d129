import Eureka.Bytes

/-!
# Hashids

`hashids.cpp`: integers are written as short texts over a salted alphabet.  The
characters of the options' alphabet are divided into the alphabet proper, the
separators between two numbers, and the guards around the text; every number is
written in an alphabet that is shuffled anew for it.

A function ends with a value, with one of the `std::invalid_argument` exceptions,
with the `std::length_error` of a string that would grow beyond `maxSize`, or not at
all: `undefined` stands for a division by zero, an access outside a string, and a loop
that never ends.  `maxSize` is `std::string::max_size()`, which every library chooses;
memory is never short.
-/

namespace Eureka

/-- `class hashids`. -/
structure Hashids where
  minLen : ℕ
  salt : Bytes
  alphabet : Bytes
  separators : Bytes
  guards : Bytes
deriving DecidableEq, Repr

namespace Hashids

/-- How a function can fail. -/
inductive Failure
  | invalidArgument (what : String)
  | lengthError
  | undefined
deriving DecidableEq, Repr

def baseSeparators : Bytes := ascii "cfhistuCFHISTU"

def defaultAlphabet : Bytes :=
  ascii "abcdefghijklmnopqrstuvwxyzABCDEFGHIJKLMNOPQRSTUVWXYZ1234567890"

/-! ## Shuffling -/

/-- `std::swap(str[i], str[j])`. -/
def swap (str : Bytes) (i j : ℕ) : Bytes :=
  (str.set i (str.getD j 0)).set j (str.getD i 0)

/-- The loop of `reorder`, from index `i` down. -/
def reorderLoop (salt : Bytes) : ℕ → ℕ → ℕ → Bytes → Bytes
  | 0, _, _, str => str
  | i + 1, saltIdx, sum, str =>
      let n := (salt.getD saltIdx 0).toNat
      let sum := sum + n
      let j := (saltIdx + (n + sum)) % (i + 1)
      reorderLoop salt i ((saltIdx + 1) % salt.length) sum (swap str (i + 1) j)

/-- `reorder`.  On an empty string the loop would start behind its end. -/
def reorder (salt str : Bytes) : Except Failure Bytes :=
  if salt.isEmpty then .ok str
  else if str.isEmpty then .error .undefined
  else .ok (reorderLoop salt (str.length - 1) 0 0 str)

/-- `make_alphabet_salt`. -/
def makeAlphabetSalt (lottery : Byte) (salt alphabet : Bytes) : Bytes :=
  let alphabetSalt := lottery :: salt.take (min (alphabet.length - 1) salt.length)
  alphabetSalt ++ alphabet.take (alphabet.length - alphabetSalt.length)

/-! ## Numbers -/

/-- The loop of `hash_number`, the last character first. -/
def hashDigits (alphabet : Bytes) (number : ℕ) : Except Failure Bytes :=
  match alphabet[number % alphabet.length]? with
  | none => .error .undefined
  | some ch =>
      let rest := number / alphabet.length
      if rest = 0 then .ok [ch]
      else if rest < number then (hashDigits alphabet rest).map fun hashed => ch :: hashed
      else .error .undefined
termination_by number

/-- `hash_number`. -/
def hashNumber (number : UInt64) (alphabet : Bytes) : Except Failure Bytes :=
  (hashDigits alphabet number.toNat).map List.reverse

/-- `unhash`; a character that is not found counts as `npos`. -/
def unhash (hashed alphabet : Bytes) : UInt64 :=
  hashed.foldl (fun num c =>
    num * UInt64.ofNat alphabet.length +
      match alphabet.idxOf? c with
      | none => UInt64.ofNat (2 ^ 64 - 1)
      | some pos => UInt64.ofNat pos) 0

/-! ## Padding -/

/-- Wraps the text in the two halves of the alphabet, and cuts it to the minimum
length if that makes it too long. -/
def padOnce (minLen mid : ℕ) (alphabet encoded : Bytes) : Bytes :=
  let encoded := alphabet.drop mid ++ encoded ++ alphabet.take mid
  if encoded.length > minLen then (encoded.drop ((encoded.length - minLen) / 2)).take minLen
  else encoded

/-- The loop of `ensure_minimum_length`. -/
def padLoop (maxSize minLen mid : ℕ) (alphabet encoded : Bytes) : Except Failure Bytes :=
  if minLen ≤ encoded.length then .ok encoded
  else
    match reorder alphabet alphabet with
    | .error failure => .error failure
    | .ok alphabet =>
        -- the two halves are put on before anything is cut
        if maxSize < encoded.length + alphabet.length then .error .lengthError
        else if encoded.length < (padOnce minLen mid alphabet encoded).length then
          padLoop maxSize minLen mid alphabet (padOnce minLen mid alphabet encoded)
        else
          .error .undefined
termination_by minLen - encoded.length

/-- The guard that the character of the text selects. -/
def guardFor (valueHash : UInt64) (guards : Bytes) (ch : Option Byte) : Except Failure Byte :=
  match ch.bind fun ch => guards[(valueHash + UInt64.ofNat ch.toNat).toNat % guards.length]? with
  | none => .error .undefined
  | some guard => .ok guard

/-- `ensure_minimum_length`; the guards take the text to the minimum length at most, for
which there is room. -/
def ensureMinimumLength (valueHash : UInt64) (maxSize minLen : ℕ)
    (prevAlphabet guards encoded : Bytes) : Except Failure Bytes := do
  let headGuard ← guardFor valueHash guards encoded[0]?
  let encoded := headGuard :: encoded
  if encoded.length ≥ minLen then
    return encoded
  let tailGuard ← guardFor valueHash guards encoded[2]?
  let encoded := encoded ++ [tailGuard]
  padLoop maxSize minLen (prevAlphabet.length / 2) prevAlphabet encoded

/-! ## The constructor -/

structure Options where
  salt : Bytes
  customAlphabet : Bytes
  minimumLength : ℕ
deriving DecidableEq, Repr

/-- Removes the separators and the characters that were seen before. -/
def removeSeen (separators : Bytes) : Bytes → Bytes → Bytes
  | _, [] => []
  | seen, ch :: rest =>
      if ch ∈ seen ∨ ch ∈ separators then removeSeen separators (ch :: seen) rest
      else ch :: removeSeen separators (ch :: seen) rest

/-- `ceil(size / 3.5)`; the division of `double`s is exact where its result is an
integer, and no other result is near enough to one to be rounded to it. -/
def minSepsCnt (size : ℕ) : ℕ := (2 * size + 6) / 7

/-- `ceil(size / 12.)`. -/
def guardsCnt (size : ℕ) : ℕ := (size + 11) / 12

def construct (opts : Options) : Except Failure Hashids := do
  let alphabet := if opts.customAlphabet.isEmpty then defaultAlphabet else opts.customAlphabet
  let separators := baseSeparators.filter (· ∈ alphabet)
  let alphabet := removeSeen separators [] alphabet
  if separators.length + alphabet.length < 16 then
    throw (.invalidArgument "Alphabet must contain at least 16 unique characters")
  let separators ← reorder opts.salt separators
  let delta := minSepsCnt alphabet.length - separators.length
  let separators := separators ++ alphabet.take delta
  let alphabet := alphabet.drop delta
  let alphabet ← reorder opts.salt alphabet
  let cnt := guardsCnt alphabet.length
  if alphabet.length < 3 then
    return ⟨opts.minimumLength, opts.salt, alphabet, separators.drop cnt, separators.take cnt⟩
  else
    return ⟨opts.minimumLength, opts.salt, alphabet.drop cnt, separators, alphabet.take cnt⟩

/-! ## `encode` -/

/-- The sum over the values from position `i` on. -/
def valueHashFrom (i : ℕ) (valueHash : UInt64) : List UInt64 → UInt64
  | [] => valueHash
  | value :: values =>
      valueHashFrom (i + 1) (valueHash + UInt64.ofNat (value.toNat % (i + 100))) values

def valueHash (values : List UInt64) : UInt64 := valueHashFrom 0 0 values

/-- The alphabet for the next number. -/
def nextAlphabet (hs : Hashids) (lottery : Byte) (alphabet : Bytes) : Except Failure Bytes :=
  reorder (makeAlphabetSalt lottery hs.salt alphabet) alphabet

/-- The separator behind the number at position `i`. -/
def separatorFor (hs : Hashids) (i : ℕ) (number : UInt64) (hashed : Bytes) : Except Failure Byte :=
  match hashed.head? with
  | none => .error .undefined
  | some first =>
      -- a NUL in front of the first number makes the divisor zero
      if first.toNat + i = 0 then .error .undefined
      else
        match hs.separators[number.toNat % (first.toNat + i) % hs.separators.length]? with
        | none => .error .undefined
        | some separator => .ok separator

/-- The loop of `encode` from position `i` on: the text, and the last alphabet. -/
def encodeLoop (hs : Hashids) (lottery : Byte) :
    ℕ → Bytes → List UInt64 → Except Failure (Bytes × Bytes)
  | _, alphabet, [] => .ok ([], alphabet)
  | i, alphabet, value :: values => do
      let alphabet ← hs.nextAlphabet lottery alphabet
      let hashed ← hashNumber value alphabet
      let separator ← hs.separatorFor i value hashed
      let (rest, alphabet) ← hs.encodeLoop lottery (i + 1) alphabet values
      return (hashed ++ separator :: rest, alphabet)

def encodedRatio : ℕ := 7

/-- The argument of `result.reserve`; the product is one of `size_t`s. -/
def reserved (hs : Hashids) (values : List UInt64) : ℕ :=
  max (values.length * encodedRatio % 2 ^ 64) hs.minLen

/-- `encode`. -/
def encode (hs : Hashids) (maxSize : ℕ) (values : List UInt64) : Except Failure Bytes :=
  if values.isEmpty then .ok []
  else
    match hs.alphabet[(valueHash values).toNat % hs.alphabet.length]? with
    | none => .error .undefined
    | some lottery =>
        if maxSize < hs.reserved values then .error .lengthError
        else do
          let (text, alphabet) ← hs.encodeLoop lottery 0 hs.alphabet values
          -- what the loop has appended
          if maxSize < (lottery :: text).length then
            throw .lengthError
          let result := (lottery :: text).dropLast
          if result.length < hs.minLen then
            ensureMinimumLength (valueHash values) maxSize hs.minLen alphabet hs.guards result
          else
            return result

/-! ## `decode` -/

/-- The loop of `decode`. -/
def decodeLoop (hs : Hashids) (lottery : Byte) :
    Bytes → List Bytes → Except Failure (List UInt64)
  | _, [] => .ok []
  | alphabet, hashed :: rest => do
      let alphabet ← hs.nextAlphabet lottery alphabet
      let nums ← hs.decodeLoop lottery alphabet rest
      return unhash hashed alphabet :: nums

/-- The part of a hash between the guards. -/
def guarded (parts : List Bytes) : Except Failure Bytes :=
  match parts with
  | [encoded] => .ok encoded
  | [_, encoded] => .ok encoded
  | [_, encoded, _] => .ok encoded
  | _ => .error (.invalidArgument "incorrect guarding characters")

/-- `decode`; `split` is `esl::strings::split` by any of the given characters. -/
def decode (hs : Hashids) (maxSize : ℕ) (split : Bytes → Bytes → List Bytes) (hashid : Bytes) :
    Except Failure (List UInt64) :=
  if hashid.isEmpty then .ok []
  else do
    let encoded ← guarded (split hs.guards hashid)
    match encoded with
    | [] => throw (.invalidArgument "no real data")
    | lottery :: encoded =>
        let nums ← hs.decodeLoop lottery hs.alphabet (split hs.separators encoded)
        let again ← hs.encode maxSize nums
        if again ≠ hashid then
          throw (.invalidArgument "hashid mismatched")
        return nums

end Hashids

end Eureka

/-!
## The three alphabets

`reorder` permutes (`reorder_perm`), so the alphabets stay what they are in
every shuffle.
-/

namespace Eureka.Hashids

theorem bind_eq_ok {α β : Type} {x : Except Failure α} {f : α → Except Failure β} {b : β} :
    x >>= f = .ok b ↔ ∃ a, x = .ok a ∧ f a = .ok b := by
  cases x with
  | error failure => exact ⟨nofun, fun ⟨a, ha, _⟩ => nomatch ha⟩
  | ok a =>
      refine ⟨fun hf => ⟨a, rfl, hf⟩, ?_⟩
      rintro ⟨a', ha, hf⟩
      obtain rfl := Except.ok.inj ha
      exact hf

theorem map_eq_ok {α β : Type} {x : Except Failure α} {f : α → β} {b : β} :
    x.map f = .ok b ↔ ∃ a, x = .ok a ∧ f a = b := by
  cases x with
  | error failure => exact ⟨nofun, fun ⟨a, ha, _⟩ => nomatch ha⟩
  | ok a =>
      refine ⟨fun hf => ⟨a, rfl, Except.ok.inj hf⟩, ?_⟩
      rintro ⟨a', ha, rfl⟩
      obtain rfl := Except.ok.inj ha
      rfl

/-! ## Shuffling permutes -/

theorem ne_nil_of_perm {str str' : Bytes} (hperm : str'.Perm str) (hstr : str ≠ []) :
    str' ≠ [] :=
  fun hnil => hstr (List.nil_perm.mp (hnil ▸ hperm))

theorem swap_perm {str : Bytes} {i j : ℕ} (hi : i < str.length) (hj : j < str.length) :
    (swap str i j).Perm str := by
  have hperm := List.set_set_perm hi hj
  rwa [← List.getD_eq_getElem str 0 hi, ← List.getD_eq_getElem str 0 hj] at hperm

theorem reorderLoop_perm (salt : Bytes) {i : ℕ} (saltIdx sum : ℕ) {str : Bytes}
    (hi : i < str.length) : (reorderLoop salt i saltIdx sum str).Perm str := by
  induction i generalizing saltIdx sum str with
  | zero => rfl
  | succ i ih =>
      have hj := Nat.mod_lt (saltIdx + ((salt.getD saltIdx 0).toNat +
        (sum + (salt.getD saltIdx 0).toNat))) (Nat.succ_pos i)
      have hswap := swap_perm hi (hj.trans hi)
      refine (ih _ _ ?_).trans hswap
      rw [hswap.length_eq]
      exact Nat.lt_of_succ_lt hi

/-- **`reorder` permutes the string.** -/
theorem reorder_perm {salt str str' : Bytes} (hreorder : reorder salt str = .ok str') :
    str'.Perm str := by
  unfold reorder at hreorder
  split_ifs at hreorder with hsalt hstr
  · obtain rfl := Except.ok.inj hreorder
    rfl
  · obtain rfl := Except.ok.inj hreorder
    refine reorderLoop_perm salt 0 0 (Nat.sub_lt ?_ Nat.one_pos)
    exact List.length_pos_iff.mpr fun hnil => hstr (List.isEmpty_iff.mpr hnil)

theorem nextAlphabet_perm {hs : Hashids} {lottery : Byte} {alphabet alphabet' : Bytes}
    (hnext : hs.nextAlphabet lottery alphabet = .ok alphabet') : alphabet'.Perm alphabet :=
  reorder_perm hnext

/-! ## The division of the alphabet -/

/-- The three alphabets are disjoint and without repetitions. -/
def Valid (hs : Hashids) : Prop := (hs.alphabet ++ (hs.separators ++ hs.guards)).Nodup

/-- The alphabet that the options give. -/
def Options.given (opts : Options) : Bytes :=
  if opts.customAlphabet.isEmpty then defaultAlphabet else opts.customAlphabet

end Eureka.Hashids
