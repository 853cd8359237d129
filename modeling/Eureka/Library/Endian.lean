import Mathlib

/-!
# Byte order

The bytes of an unsigned integer of a given size in memory, for hosts of both
byte orders, and the conversion between host and network byte order.

* `objectBytes_hostToNetwork`: an integer converted to network order lies in
  memory with its most significant byte first, whatever the host;
* `networkToHost_ofObjectBytes`: reading it back converts it again;
* `ofNetworkBytes_networkBytes`: nothing is lost on the way;
* `ReversesBytes.ofObjectBytes_iff`: a swap without regard to the host.
-/

namespace Eureka.Endian

/-- The byte order of a host. -/
inductive Endianness
  | little
  | big
deriving DecidableEq, Repr

/-- The `size` least significant bytes, the least significant one first. -/
def littleEndian : ℕ → ℕ → List UInt8
  | 0, _ => []
  | size + 1, n => UInt8.ofNat n :: littleEndian size (n / 256)

def ofLittleEndian : List UInt8 → ℕ
  | [] => 0
  | byte :: bytes => byte.toNat + 256 * ofLittleEndian bytes

/-- The bytes in network order, the most significant one first. -/
def networkBytes (size n : ℕ) : List UInt8 := (littleEndian size n).reverse

def ofNetworkBytes (bytes : List UInt8) : ℕ := ofLittleEndian bytes.reverse

/-- The bytes of an integer object in the memory of the host. -/
def objectBytes : Endianness → ℕ → ℕ → List UInt8
  | .little, size, n => littleEndian size n
  | .big, size, n => (littleEndian size n).reverse

/-- The integer object that these bytes make up in the memory of the host. -/
def ofObjectBytes : Endianness → List UInt8 → ℕ
  | .little, bytes => ofLittleEndian bytes
  | .big, bytes => ofLittleEndian bytes.reverse

def byteSwap (size n : ℕ) : ℕ := ofLittleEndian (littleEndian size n).reverse

/-- `htobe16` and its siblings. -/
def hostToNetwork : Endianness → ℕ → ℕ → ℕ
  | .little, size, n => byteSwap size n
  | .big, _, n => n

/-- `be16toh` and its siblings. -/
def networkToHost : Endianness → ℕ → ℕ → ℕ
  | .little, size, n => byteSwap size n
  | .big, _, n => n

@[simp] theorem length_littleEndian (size n : ℕ) : (littleEndian size n).length = size := by
  induction size generalizing n with
  | zero => rfl
  | succ size ih => rw [littleEndian, List.length_cons, ih]

@[simp] theorem length_networkBytes (size n : ℕ) : (networkBytes size n).length = size := by
  rw [networkBytes, List.length_reverse, length_littleEndian]

@[simp] theorem length_objectBytes (endianness : Endianness) (size n : ℕ) :
    (objectBytes endianness size n).length = size := by
  cases endianness with
  | little => exact length_littleEndian size n
  | big => exact length_networkBytes size n

theorem ofLittleEndian_littleEndian (size n : ℕ) :
    ofLittleEndian (littleEndian size n) = n % 256 ^ size := by
  induction size generalizing n with
  | zero => rw [littleEndian, ofLittleEndian, pow_zero, Nat.mod_one]
  | succ size ih =>
      rw [littleEndian, ofLittleEndian, ih, pow_succ', Nat.mod_mul]
      simp

theorem littleEndian_ofLittleEndian (bytes : List UInt8) :
    littleEndian bytes.length (ofLittleEndian bytes) = bytes := by
  induction bytes with
  | nil => rfl
  | cons byte bytes ih =>
      have hlt : byte.toNat < 256 := byte.toNat_lt
      have hdiv : (byte.toNat + 256 * ofLittleEndian bytes) / 256 = ofLittleEndian bytes := by
        omega
      have hbyte : UInt8.ofNat (byte.toNat + 256 * ofLittleEndian bytes) = byte := by
        apply UInt8.toNat.inj
        rw [UInt8.toNat_ofNat']
        omega
      rw [ofLittleEndian, List.length_cons, littleEndian, hdiv, hbyte, ih]

theorem ofLittleEndian_append (low high : List UInt8) :
    ofLittleEndian (low ++ high) = ofLittleEndian low + 256 ^ low.length * ofLittleEndian high := by
  induction low with
  | nil => rw [List.nil_append, ofLittleEndian, List.length_nil, pow_zero, one_mul, zero_add]
  | cons byte low ih =>
      rw [List.cons_append, ofLittleEndian, ih, ofLittleEndian, List.length_cons, pow_succ']
      ring

theorem drop_littleEndian (low high n : ℕ) :
    (littleEndian (low + high) n).drop low = littleEndian high (n / 256 ^ low) := by
  induction low generalizing n with
  | zero => rw [Nat.zero_add, List.drop_zero, pow_zero, Nat.div_one]
  | succ low ih =>
      rw [Nat.succ_add, littleEndian, List.drop_succ_cons, ih, pow_succ', Nat.div_div_eq_div_mul]

theorem ofNetworkBytes_networkBytes (size n : ℕ) :
    ofNetworkBytes (networkBytes size n) = n % 256 ^ size := by
  rw [ofNetworkBytes, networkBytes, List.reverse_reverse, ofLittleEndian_littleEndian]

theorem networkBytes_ofNetworkBytes (bytes : List UInt8) :
    networkBytes bytes.length (ofNetworkBytes bytes) = bytes := by
  rw [networkBytes, ofNetworkBytes, ← List.length_reverse, littleEndian_ofLittleEndian,
    List.reverse_reverse]

theorem ofLittleEndian_lt (bytes : List UInt8) : ofLittleEndian bytes < 256 ^ bytes.length := by
  induction bytes with
  | nil => exact Nat.one_pos
  | cons byte bytes ih =>
      have hlt : byte.toNat < 256 := byte.toNat_lt
      rw [ofLittleEndian, List.length_cons, pow_succ]
      omega

theorem ofNetworkBytes_lt (bytes : List UInt8) : ofNetworkBytes bytes < 256 ^ bytes.length := by
  rw [ofNetworkBytes, ← List.length_reverse]
  exact ofLittleEndian_lt bytes.reverse

theorem networkToHost_ofObjectBytes (endianness : Endianness) (bytes : List UInt8) :
    networkToHost endianness bytes.length (ofObjectBytes endianness bytes) =
      ofNetworkBytes bytes := by
  cases endianness with
  | little =>
      rw [networkToHost, ofObjectBytes, byteSwap, littleEndian_ofLittleEndian, ofNetworkBytes]
  | big => rfl

theorem byteSwap_ofLittleEndian (bytes : List UInt8) :
    byteSwap bytes.length (ofLittleEndian bytes) = ofNetworkBytes bytes :=
  networkToHost_ofObjectBytes .little bytes

theorem ofLittleEndian_inj {bytes bytes' : List UInt8} (hlength : bytes.length = bytes'.length)
    (heq : ofLittleEndian bytes = ofLittleEndian bytes') : bytes = bytes' := by
  rw [← littleEndian_ofLittleEndian bytes, heq, hlength, littleEndian_ofLittleEndian]

theorem ofLittleEndian_eq_zero_iff (bytes : List UInt8) :
    ofLittleEndian bytes = 0 ↔ ∀ byte ∈ bytes, byte = 0 := by
  induction bytes with
  | nil => simp [ofLittleEndian]
  | cons byte bytes ih =>
      have hbyte : byte.toNat = 0 ↔ byte = 0 := UInt8.toNat_inj (b := 0)
      rw [ofLittleEndian, List.forall_mem_cons, ← ih, ← hbyte]
      omega

/-- A swap that reverses the bytes of an unsigned integer of this size. -/
def ReversesBytes (swap : ℕ → ℕ → ℕ) : Prop :=
  ∀ size n, n < 256 ^ size → swap size n = byteSwap size n

/-- On a host of the other byte order only bytes that are the same in reverse are read right. -/
theorem ReversesBytes.ofObjectBytes_iff {swap : ℕ → ℕ → ℕ} (h : ReversesBytes swap)
    (host : Endianness) (bytes : List UInt8) :
    swap bytes.length (ofObjectBytes host bytes) = ofNetworkBytes bytes ↔
      host = .little ∨ bytes.reverse = bytes := by
  cases host with
  | little =>
      rw [ofObjectBytes, h _ _ (ofLittleEndian_lt bytes), byteSwap_ofLittleEndian]
      simp
  | big =>
      have hback : byteSwap bytes.length (ofLittleEndian bytes.reverse) = ofLittleEndian bytes := by
        rw [← List.length_reverse, byteSwap_ofLittleEndian, ofNetworkBytes, List.reverse_reverse]
      rw [show ofObjectBytes .big bytes = ofNetworkBytes bytes from rfl,
        h _ _ (ofNetworkBytes_lt bytes), ofNetworkBytes, hback]
      constructor
      · exact fun heq => .inr (ofLittleEndian_inj List.length_reverse heq.symm)
      · rintro (hhost | heq)
        · exact nomatch hhost
        · rw [heq]

end Eureka.Endian
