import Mathlib

/-! Byte strings and the C-locale text functions the program takes from the standard
library: `isspace`, `::tolower`, `istream >> std::string`, `std::stoull` and
`std::to_string`. A `char` is the byte it stores. -/
namespace TzzeroHttp.ByteText

abbrev Bytes := List UInt8

def ascii (s : String) : Bytes := s.toList.map fun c => UInt8.ofNat c.toNat

def cr : UInt8 := 13
def lf : UInt8 := 10
def crlf : Bytes := [cr, lf]
def colon : UInt8 := 58

theorem cr_ne_lf : cr ≠ lf := by decide

/-- `isspace` in the C locale: space, \t, \n, \v, \f, \r. -/
def isSpace (c : UInt8) : Bool := c == 32 || (9 ≤ c && c ≤ 13)

def isBlank (c : UInt8) : Bool := c == 32 || c == 9

def isBlankOrEol (c : UInt8) : Bool := isBlank c || c == cr || c == lf

def isDigit (c : UInt8) : Bool := 48 ≤ c && c ≤ 57

def toLower (c : UInt8) : UInt8 := if 65 ≤ c && c ≤ 90 then c + 32 else c

/-- `std::transform(..., ::tolower)` over a whole string. -/
def lower (s : Bytes) : Bytes := s.map toLower

/-- `s.erase(s.find_last_not_of(set) + 1)`: with no such character the position is
`npos + 1 = 0` and everything goes. -/
def trimRight (p : UInt8 → Bool) (s : Bytes) : Bytes := s.rdropWhile p

/-- `s.erase(0, s.find_first_not_of(set))`: with no such character `npos` takes everything. -/
def trimLeft (p : UInt8 → Bool) (s : Bytes) : Bytes := s.dropWhile p

theorem trimRight_eq_self {p : UInt8 → Bool} {s : Bytes} (h : ∀ c ∈ s.getLast?, p c = false) :
    trimRight p s = s := by
  induction s using List.reverseRecOn with
  | nil => rfl
  | append_singleton s c ih =>
    rw [trimRight, List.rdropWhile_concat_neg]
    simp [h c (by simp)]

theorem trimLeft_eq_self {p : UInt8 → Bool} {s : Bytes} (h : ∀ c ∈ s.head?, p c = false) :
    trimLeft p s = s := by
  cases s with
  | nil => rfl
  | cons c s => simp [trimLeft, h c rfl]

theorem trim_of_no_blank {s : Bytes} (h : ∀ c ∈ s, isBlank c = false) :
    trimLeft isBlank (trimRight isBlank s) = s := by
  rw [trimRight_eq_self fun c hc => h c (List.mem_of_mem_getLast? hc),
    trimLeft_eq_self fun c hc => h c (List.mem_of_mem_head? hc)]

/-- One `iss >> word`: skip white space, take characters up to the next white space,
fail when there are none. The second component is what the stream still holds. -/
def extractWord (s : Bytes) : Option (Bytes × Bytes) :=
  let s := s.dropWhile isSpace
  match s.takeWhile (fun c => !isSpace c) with
  | [] => none
  | w => some (w, s.dropWhile fun c => !isSpace c)

def digitsValue (s : Bytes) : ℕ := s.foldl (fun n c => 10 * n + (c.toNat - 48)) 0

/-- `std::stoull(s)` in base ten; `none` is the exception (no digits, or out of range).
A minus sign is accepted and negates modulo 2^64, as `strtoull` does. -/
def stoull (s : Bytes) : Option ℕ :=
  let s := s.dropWhile isSpace
  let negative := s.head? == some 45
  let s := if negative || s.head? == some 43 then s.tail else s
  let ds := s.takeWhile isDigit
  if ds = [] then none
  else if 2 ^ 64 ≤ digitsValue ds then none
  else some (if negative then (2 ^ 64 - digitsValue ds) % 2 ^ 64 else digitsValue ds)

/-- `std::to_string` of an unsigned value. -/
def decimal (n : ℕ) : Bytes :=
  if n = 0 then [48] else (Nat.digits 10 n).reverse.map fun d => UInt8.ofNat (48 + d)

/-- `std::to_string` of an `int`, and `%d`. -/
def signedDecimal (z : ℤ) : Bytes := if z < 0 then ascii "-" ++ decimal z.natAbs else decimal z.toNat

example : stoull (ascii " +12, 7") = some 12 := by decide
example : stoull (ascii "-1") = some (2 ^ 64 - 1) := by decide
example : decimal 1905 = ascii "1905" := by decide

theorem digitsValue_reverse (ds : List ℕ) (h : ∀ d ∈ ds, d < 10) :
    digitsValue (ds.reverse.map fun d => UInt8.ofNat (48 + d)) = Nat.ofDigits 10 ds := by
  induction ds with
  | nil => rfl
  | cons d ds ih =>
    have hd : (UInt8.ofNat (48 + d)).toNat - 48 = d := by
      have := h d (by simp)
      simp only [UInt8.toNat_ofNat']
      omega
    have hi := ih fun e he => h e (by simp [he])
    simp only [digitsValue] at hi ⊢
    simp only [List.reverse_cons, List.map_append, List.map_singleton, List.foldl_append,
      List.foldl_cons, List.foldl_nil, hi, hd, Nat.ofDigits_cons]
    simp [Nat.add_comm]

theorem digitsValue_decimal (n : ℕ) : digitsValue (decimal n) = n := by
  unfold decimal
  split_ifs with hn
  · subst hn
    decide
  · rw [digitsValue_reverse _ fun d hd => Nat.digits_lt_base (by norm_num) hd]
    exact Nat.ofDigits_digits 10 n

theorem decimal_injective : Function.Injective decimal :=
  Function.LeftInverse.injective digitsValue_decimal

theorem decimal_isDigit {n : ℕ} {c : UInt8} (h : c ∈ decimal n) : isDigit c = true := by
  unfold decimal at h
  split_ifs at h with hn
  · rw [List.mem_singleton.mp h]
    rfl
  · obtain ⟨d, hd, rfl⟩ := List.mem_map.mp h
    have hlt : d < 10 := Nat.digits_lt_base (by norm_num) (List.mem_reverse.mp hd)
    interval_cases d <;> rfl

theorem decimal_length_le {n k : ℕ} (hk : 0 < k) (h : n < 10 ^ k) : (decimal n).length ≤ k := by
  unfold decimal
  split_ifs with hn
  · exact hk
  · rw [List.length_map, List.length_reverse]
    exact (Nat.digits_length_le_iff (by norm_num) n).mpr h

end TzzeroHttp.ByteText
