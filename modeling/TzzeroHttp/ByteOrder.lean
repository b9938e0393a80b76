import Mathlib

/-! Words in memory. A number below `256 ^ w` is a word of `w` bytes; a host stores it with the
least or with the most significant byte first, and its conversion to network order makes the
stored bytes big-endian on either host. -/
namespace TzzeroHttp.ByteOrder

def bigEndian : ℕ → ℕ → List UInt8
  | 0, _ => []
  | w + 1, n => bigEndian w (n / 256) ++ [UInt8.ofNat n]

def ofBigEndian (bytes : List UInt8) : ℕ := bytes.foldl (fun n byte => n * 256 + byte.toNat) 0

theorem ofBigEndian_concat (bytes : List UInt8) (byte : UInt8) :
    ofBigEndian (bytes ++ [byte]) = ofBigEndian bytes * 256 + byte.toNat := by
  simp [ofBigEndian]

@[simp] theorem length_bigEndian (w n : ℕ) : (bigEndian w n).length = w := by
  induction w generalizing n with
  | zero => rfl
  | succ w ih => simp [bigEndian, ih]

theorem ofBigEndian_bigEndian (w n : ℕ) : ofBigEndian (bigEndian w n) = n % 256 ^ w := by
  induction w generalizing n with
  | zero => simp [bigEndian, ofBigEndian, Nat.mod_one]
  | succ w ih =>
    have hlow : (UInt8.ofNat n).toNat = n % 256 := UInt8.toNat_ofNat'
    have hsplit : n % 256 ^ (w + 1) = n % 256 + 256 * (n / 256 % 256 ^ w) := by
      rw [pow_succ', Nat.mod_mul]
    rw [bigEndian, ofBigEndian_concat, ih, hlow, hsplit]
    ring

theorem bigEndian_ofBigEndian (bytes : List UInt8) :
    bigEndian bytes.length (ofBigEndian bytes) = bytes := by
  induction bytes using List.reverseRecOn with
  | nil => rfl
  | append_singleton bytes byte ih =>
    have hbyte : byte.toNat < 256 := byte.toNat_lt
    have hhigh : (ofBigEndian bytes * 256 + byte.toNat) / 256 = ofBigEndian bytes := by omega
    have hlow : UInt8.ofNat (ofBigEndian bytes * 256 + byte.toNat) = byte := by
      apply UInt8.toNat_inj.mp
      rw [UInt8.toNat_ofNat']
      omega
    rw [ofBigEndian_concat, List.length_append, List.length_singleton, bigEndian, hhigh, hlow, ih]

theorem ofBigEndian_lt (bytes : List UInt8) : ofBigEndian bytes < 256 ^ bytes.length := by
  have h := ofBigEndian_bigEndian bytes.length (ofBigEndian bytes)
  rw [bigEndian_ofBigEndian] at h
  rw [h]
  exact Nat.mod_lt _ (by positivity)

/-- The order in which a host stores the bytes of a word. -/
inductive Host
  | little
  | big
  deriving DecidableEq, Repr

namespace Host

def store : Host → ℕ → ℕ → List UInt8
  | .big, w, n => bigEndian w n
  | .little, w, n => (bigEndian w n).reverse

def load : Host → List UInt8 → ℕ
  | .big, bytes => ofBigEndian bytes
  | .little, bytes => ofBigEndian bytes.reverse

/-- Conversion of a word of `w` bytes between host and network order, the same both ways. -/
def network : Host → ℕ → ℕ → ℕ
  | .big, _, n => n
  | .little, w, n => ofBigEndian (bigEndian w n).reverse

variable (host : Host)

theorem network_lt {w n : ℕ} (h : n < 256 ^ w) : host.network w n < 256 ^ w := by
  cases host with
  | big => exact h
  | little => simpa [network] using ofBigEndian_lt (bigEndian w n).reverse

theorem load_lt (bytes : List UInt8) : host.load bytes < 256 ^ bytes.length := by
  cases host with
  | big => exact ofBigEndian_lt bytes
  | little => simpa [load] using ofBigEndian_lt bytes.reverse

theorem store_network (w n : ℕ) : host.store w (host.network w n) = bigEndian w n := by
  cases host with
  | big => rfl
  | little =>
    have h := bigEndian_ofBigEndian (bigEndian w n).reverse
    rw [List.length_reverse, length_bigEndian] at h
    rw [store, network, h, List.reverse_reverse]

theorem network_load (bytes : List UInt8) :
    host.network bytes.length (host.load bytes) = ofBigEndian bytes := by
  cases host with
  | big => rfl
  | little =>
    have h := bigEndian_ofBigEndian bytes.reverse
    rw [List.length_reverse] at h
    rw [network, load, h, List.reverse_reverse]

theorem load_bigEndian_lt (w n : ℕ) : host.load (bigEndian w n) < 256 ^ w := by
  simpa using host.load_lt (bigEndian w n)

theorem network_load_bigEndian {w n : ℕ} (h : n < 256 ^ w) :
    host.network w (host.load (bigEndian w n)) = n := by
  have hload := host.network_load (bigEndian w n)
  rw [length_bigEndian] at hload
  rw [hload, ofBigEndian_bigEndian, Nat.mod_eq_of_lt h]

end Host

end TzzeroHttp.ByteOrder
