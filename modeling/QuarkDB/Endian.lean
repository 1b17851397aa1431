-- Numbers as bytes of a fixed width, least or most significant byte first, and
-- 64-bit signed numbers in two's complement.
import Mathlib

namespace Endian

/-- The low `n` bytes of a number, least significant first. -/
def toLittle : Nat → Nat → List UInt8
  | 0, _ => []
  | n + 1, v => UInt8.ofNat v :: toLittle n (v / 256)

/-- The number that bytes spell, least significant first. -/
def ofLittle : List UInt8 → Nat
  | [] => 0
  | b :: rest => b.toNat + 256 * ofLittle rest

theorem length_toLittle (n v : Nat) : (toLittle n v).length = n := by
  induction n generalizing v with
  | zero => rfl
  | succ n ih => simp only [toLittle, List.length_cons, ih]

theorem ofLittle_toLittle {n v : Nat} (h : v < 256 ^ n) : ofLittle (toLittle n v) = v := by
  induction n generalizing v with
  | zero => simp only [toLittle, ofLittle]; omega
  | succ n ih =>
    have hv : v / 256 < 256 ^ n := by
      rw [Nat.pow_succ] at h
      exact Nat.div_lt_of_lt_mul (by omega)
    simp only [toLittle, ofLittle, ih hv, UInt8.toNat_ofNat']
    omega

theorem ofLittle_append (bytes rest : List UInt8) :
    ofLittle (bytes ++ rest) = ofLittle bytes + 256 ^ bytes.length * ofLittle rest := by
  induction bytes with
  | nil => simp [ofLittle]
  | cons b bytes ih =>
    simp only [List.cons_append, ofLittle, ih, List.length_cons, pow_succ]
    ring

theorem ofLittle_lt (bytes : List UInt8) : ofLittle bytes < 256 ^ bytes.length := by
  induction bytes with
  | nil => simp [ofLittle]
  | cons b bytes ih =>
    have hb := b.toNat_lt
    simp only [ofLittle, List.length_cons, pow_succ]
    omega

/-! ## Signed numbers -/

/-- The number that a 64-bit word holds when it is read as a signed one. -/
def signed (x : Int) : Int := Int.bmod x (2 ^ 64)

theorem signed_of_fits {x : Int} (h1 : -2 ^ 63 ≤ x) (h2 : x < 2 ^ 63) : signed x = x := by
  unfold signed
  rw [Int.bmod_def]
  split <;> omega

/-- A number that a signed word holds. -/
def InWord (x : Int) : Prop := -2 ^ 63 ≤ x ∧ x < 2 ^ 63

instance (x : Int) : Decidable (InWord x) := inferInstanceAs (Decidable (_ ∧ _))

theorem inWord_signed (x : Int) : InWord (signed x) := by
  have h1 := Int.bmod_lt (x := x) (m := 2 ^ 64) (by decide)
  have h2 := Int.le_bmod (x := x) (m := 2 ^ 64) (by decide)
  unfold InWord signed
  omega

/-- Sums wrap around in the end or on the way. -/
theorem signed_add_signed (x y : Int) : signed (x + signed y) = signed (x + y) := by
  unfold signed
  rw [Int.add_bmod_bmod]

/-- What is added makes no difference if it wraps around to nothing. -/
theorem signed_add_eq_left_iff {x r : Int} : signed (x + r) = x ↔ InWord x ∧ 2 ^ 64 ∣ r := by
  constructor
  · intro h
    have hx : InWord x := by
      rw [← h]
      exact inWord_signed _
    refine ⟨hx, ?_⟩
    unfold signed at h
    rw [Int.bmod_def] at h
    omega
  · rintro ⟨hx, k, rfl⟩
    unfold signed
    rw [show (2 ^ 64 : Int) = ((2 ^ 64 : Nat) : Int) from rfl, Int.add_mul_bmod_self_left]
    exact signed_of_fits hx.1 hx.2

/-- The word that holds a signed number. -/
def word (x : Int) : Nat := (x % 2 ^ 64).toNat

theorem word_lt (x : Int) : word x < 256 ^ 8 := by
  unfold word
  omega

theorem signed_word {x : Int} (h1 : -2 ^ 63 ≤ x) (h2 : x < 2 ^ 63) : signed (word x) = x := by
  unfold signed word
  rw [Int.bmod_def]
  split <;> omega

/-- 8 bytes, most significant first. -/
def bigInt (x : Int) : List UInt8 := (toLittle 8 (word x)).reverse

def ofBigInt (bytes : List UInt8) : Int := signed (ofLittle bytes.reverse)

/-- 8 bytes, least significant first. -/
def littleInt (x : Int) : List UInt8 := toLittle 8 (word x)

def ofLittleInt (bytes : List UInt8) : Int := signed (ofLittle bytes)

@[simp] theorem length_littleInt (x : Int) : (littleInt x).length = 8 := length_toLittle 8 _

@[simp] theorem length_bigInt (x : Int) : (bigInt x).length = 8 := by
  unfold bigInt
  rw [List.length_reverse, length_toLittle]

theorem ofLittleInt_littleInt {x : Int} (h1 : -2 ^ 63 ≤ x) (h2 : x < 2 ^ 63) :
    ofLittleInt (littleInt x) = x := by
  unfold ofLittleInt littleInt
  rw [ofLittle_toLittle (word_lt x)]
  exact signed_word h1 h2

theorem ofBigInt_bigInt {x : Int} (h1 : -2 ^ 63 ≤ x) (h2 : x < 2 ^ 63) :
    ofBigInt (bigInt x) = x := by
  unfold ofBigInt bigInt
  rw [List.reverse_reverse]
  exact ofLittleInt_littleInt h1 h2

end Endian
