import Mathlib.Data.Nat.Bits
import Mathlib.Tactic.Ring

/-!
# Integers modulo a power of two

An integer of `n` bits is a natural number below `2 ^ n`, read as an unsigned number
or, through `signed`, as one in two's complement. The operations on it are defined by
their arithmetic; those that have no value at some operands are partial. Machine words
compute the same operations, for words of any width.
-/

namespace ModularInteger

/-- The number in two's complement. -/
def signed (n i : ℕ) : ℤ := if 2 * i < 2 ^ n then i else i - 2 ^ n

/-- The integer of `n` bits congruent to a number. -/
def ofInt (n : ℕ) (z : ℤ) : ℕ := (z % 2 ^ n).toNat

def bool (p : Bool) : ℕ := if p then 1 else 0

section Arithmetic

variable (n a b : ℕ)

def add : ℕ := (a + b) % 2 ^ n

def sub : ℕ := (a + 2 ^ n - b) % 2 ^ n

def mul : ℕ := a * b % 2 ^ n

def divU : Option ℕ := if b = 0 then none else some (a / b)

/-- The quotient rounded toward zero, if it is a number in two's complement. -/
def divS : Option ℕ :=
  if b = 0 then none
  else
    let q := (signed n a).tdiv (signed n b)
    if 2 * q = 2 ^ n then none else some (ofInt n q)

def remU : Option ℕ := if b = 0 then none else some (a - b * (a / b))

/-- The remainder has the sign of the dividend. -/
def remS : Option ℕ :=
  if b = 0 then none
  else some (ofInt n (signed n a - signed n b * (signed n a).tdiv (signed n b)))

end Arithmetic

section Bits

variable (n a b : ℕ)

def shl : ℕ := a * 2 ^ (b % n) % 2 ^ n

def shrU : ℕ := a / 2 ^ (b % n)

/-- The quotient of the number in two's complement, rounded down. -/
def shrS : ℕ := ofInt n (signed n a / 2 ^ (b % n))

def rotl : ℕ := a * 2 ^ (b % n) % 2 ^ n + a / 2 ^ (n - b % n)

def rotr : ℕ := a / 2 ^ (b % n) + a % 2 ^ (b % n) * 2 ^ (n - b % n)

/-- The number of zero bits above the highest one bit. -/
def clz : ℕ := ((List.range n).reverse.takeWhile fun i => !a.testBit i).length

/-- The number of zero bits below the lowest one bit. -/
def ctz : ℕ := ((List.range n).takeWhile fun i => !a.testBit i).length

def popcnt : ℕ := (List.range n).countP fun i => a.testBit i

/-- From `n` bits to `m` with the same number in two's complement. -/
def extendS (m : ℕ) : ℕ := ofInt m (signed n a)

end Bits

/-! ### Machine words -/

section Words

variable {w : ℕ}

theorem signed_toNat (x : BitVec w) : signed w x.toNat = x.toInt := by
  rw [signed, BitVec.toInt]
  push_cast
  rfl

/-- A word is given by its number in two's complement up to the modulus. -/
theorem toNat_eq_ofInt {x : BitVec w} {z : ℤ} (h : x.toInt = z.bmod (2 ^ w)) :
    x.toNat = ofInt w z := by
  have hx : x = BitVec.ofInt w z := by
    apply BitVec.eq_of_toInt_eq
    rw [h, BitVec.toInt_ofInt]
  rw [hx, BitVec.toNat_ofInt, ofInt]
  push_cast
  rfl

theorem toNat_eq_ofInt_toInt (x : BitVec w) : x.toNat = ofInt w x.toInt := by
  apply toNat_eq_ofInt
  rw [BitVec.toInt_bmod_cancel]

theorem toNat_add (x y : BitVec w) : (x + y).toNat = add w x.toNat y.toNat := BitVec.toNat_add x y

theorem toNat_sub (x y : BitVec w) : (x - y).toNat = sub w x.toNat y.toNat := by
  have hy := y.isLt
  rw [BitVec.toNat_sub, sub]
  congr 1
  omega

theorem toNat_mul (x y : BitVec w) : (x * y).toNat = mul w x.toNat y.toNat := BitVec.toNat_mul x y

theorem toNat_umod (x y : BitVec w) : (x % y).toNat = x.toNat - y.toNat * (x.toNat / y.toNat) := by
  rw [BitVec.toNat_umod]
  have h := Nat.div_add_mod x.toNat y.toNat
  omega

theorem toNat_sdiv (x y : BitVec w) :
    (x.sdiv y).toNat = ofInt w ((signed w x.toNat).tdiv (signed w y.toNat)) := by
  rw [signed_toNat, signed_toNat]
  exact toNat_eq_ofInt (BitVec.toInt_sdiv x y)

theorem toNat_srem (x y : BitVec w) :
    (x.srem y).toNat = ofInt w (signed w x.toNat -
      signed w y.toNat * (signed w x.toNat).tdiv (signed w y.toNat)) := by
  rw [signed_toNat, signed_toNat, ← Int.tmod_def, ← BitVec.toInt_srem]
  exact toNat_eq_ofInt_toInt _

/-- The only quotient that is too large is that of the smallest number by -1. -/
theorem tdiv_eq_two_pow (hw : 0 < w) (x y : BitVec w) :
    2 * (signed w x.toNat).tdiv (signed w y.toNat) = 2 ^ w ↔ x = BitVec.intMin w ∧ y = -1 := by
  rw [signed_toNat, signed_toNat]
  constructor
  · intro h
    by_contra hne
    have hq := BitVec.toInt_sdiv_of_ne_or_ne x y (by
      rw [← not_and_or]
      exact hne)
    have hlt := BitVec.two_mul_toInt_lt (x := x.sdiv y)
    omega
  · rintro ⟨rfl, rfl⟩
    have hone : (-1 : BitVec w).toInt = -1 := by
      rw [show (-1 : BitVec w) = BitVec.allOnes w from BitVec.neg_one_eq_allOnes,
        BitVec.toInt_allOnes, if_pos hw]
    rw [hone, BitVec.toInt_intMin_of_pos hw, Int.neg_tdiv_neg, Int.tdiv_one, ← pow_succ',
      Nat.sub_add_cancel hw]

theorem toNat_shl (x : BitVec w) (k : ℕ) : (x <<< (k % w)).toNat = shl w x.toNat k := by
  rw [BitVec.toNat_shiftLeft, Nat.shiftLeft_eq, shl]

theorem toNat_shrU (x : BitVec w) (k : ℕ) : (x >>> (k % w)).toNat = shrU w x.toNat k := by
  rw [BitVec.toNat_ushiftRight, Nat.shiftRight_eq_div_pow, shrU]

theorem toNat_shrS (x : BitVec w) (k : ℕ) :
    (x.sshiftRight (k % w)).toNat = shrS w x.toNat k := by
  rw [shrS, signed_toNat, toNat_eq_ofInt_toInt, BitVec.toInt_sshiftRight,
    Int.shiftRight_eq_div_pow]
  push_cast
  rfl

/-- What is shifted in from below does not meet what is shifted up. -/
theorem shiftLeft_or_of_lt (a b k : ℕ) (h : b < 2 ^ k) : a * 2 ^ k ||| b = a * 2 ^ k + b := by
  rw [← Nat.shiftLeft_eq]
  exact (Nat.shiftLeft_add_eq_or_of_lt h a).symm

theorem toNat_rotl (hw : 0 < w) (x : BitVec w) (k : ℕ) :
    (x.rotateLeft k).toNat = rotl w x.toNat k := by
  have hk := Nat.mod_lt k hw
  have hlow : x.toNat / 2 ^ (w - k % w) < 2 ^ (k % w) := by
    rw [Nat.div_lt_iff_lt_mul (Nat.two_pow_pos _), ← pow_add, Nat.add_sub_cancel' hk.le]
    exact x.isLt
  have hhigh : x.toNat * 2 ^ (k % w) % 2 ^ w = x.toNat % 2 ^ (w - k % w) * 2 ^ (k % w) := by
    rw [← Nat.mul_mod_mul_right, ← pow_add, Nat.sub_add_cancel hk.le]
  rw [BitVec.toNat_rotateLeft, Nat.shiftLeft_eq, Nat.shiftRight_eq_div_pow, rotl, hhigh,
    shiftLeft_or_of_lt _ _ _ hlow]

theorem toNat_rotr (hw : 0 < w) (x : BitVec w) (k : ℕ) :
    (x.rotateRight k).toNat = rotr w x.toNat k := by
  have hk := Nat.mod_lt k hw
  have hlow : x.toNat / 2 ^ (k % w) < 2 ^ (w - k % w) := by
    rw [Nat.div_lt_iff_lt_mul (Nat.two_pow_pos _), ← pow_add, Nat.sub_add_cancel hk.le]
    exact x.isLt
  have hhigh : x.toNat * 2 ^ (w - k % w) % 2 ^ w = x.toNat % 2 ^ (k % w) * 2 ^ (w - k % w) := by
    rw [← Nat.mul_mod_mul_right, ← pow_add, Nat.add_sub_cancel' hk.le]
  rw [BitVec.toNat_rotateRight, Nat.shiftLeft_eq, Nat.shiftRight_eq_div_pow, rotr, hhigh,
    Nat.or_comm, shiftLeft_or_of_lt _ _ _ hlow, Nat.add_comm]

/-- The bits counted from the top down, as the word counts them. -/
theorem cpopNatRec_eq_countP (x : BitVec w) (n acc : ℕ) :
    x.cpopNatRec n acc = acc + (List.range n).countP fun i => x.toNat.testBit i := by
  induction n generalizing acc with
  | zero => rfl
  | succ n ih =>
      rw [BitVec.cpopNatRec_succ, ih, List.range_succ, List.countP_append, List.countP_singleton]
      rw [← BitVec.getLsbD]
      cases x.getLsbD n
      · simp
      · simp
        omega

theorem toNat_popcnt (x : BitVec w) : x.cpop.toNat = popcnt w x.toNat := by
  rw [BitVec.toNat_cpop, cpopNatRec_eq_countP, Nat.zero_add, popcnt]

/-- A prefix of a list that ends where a condition fails, or with the list. -/
theorem length_takeWhile_eq {α : Type} {p : α → Bool} {l : List α} {k : ℕ} (hk : k ≤ l.length)
    (hlt : ∀ i (hi : i < k), p (l.get ⟨i, hi.trans_le hk⟩) = true)
    (hat : ∀ h : k < l.length, p (l.get ⟨k, h⟩) = false) : (l.takeWhile p).length = k := by
  induction l generalizing k with
  | nil => simpa using (Nat.le_zero.1 hk).symm
  | cons a l ih =>
      cases k with
      | zero =>
          have ha : p a = false := hat (Nat.zero_lt_succ _)
          simp [ha]
      | succ k =>
          have ha : p a = true := hlt 0 (Nat.zero_lt_succ _)
          rw [List.takeWhile_cons_of_pos ha, List.length_cons,
            ih (Nat.le_of_succ_le_succ hk) (fun i hi => hlt (i + 1) (Nat.succ_lt_succ hi))
              fun h => hat (Nat.succ_lt_succ h)]

theorem toNat_clz_zero : (0#w).clz.toNat = w := by
  rw [BitVec.clz_eq_iff_eq_zero.2 rfl]
  exact Nat.mod_eq_of_lt Nat.lt_two_pow_self

theorem toNat_ctz_zero : (0#w).ctz.toNat = w := by
  rw [BitVec.ctz_eq_reverse_clz, BitVec.reverse_eq_zero_iff.2 rfl, toNat_clz_zero]

theorem toNat_ctz (x : BitVec w) : x.ctz.toNat = ctz w x.toNat := by
  have hle : x.ctz.toNat ≤ w := by
    rw [BitVec.ctz_eq_reverse_clz]
    simpa [BitVec.le_def] using BitVec.clz_le (x := x.reverse)
  symm
  refine length_takeWhile_eq (by simpa using hle) (fun i hi => ?_) fun h => ?_
  · simpa [BitVec.getLsbD] using BitVec.getLsbD_false_of_lt_ctz hi
  · have hx : x ≠ 0#w := by
      rintro rfl
      rw [toNat_ctz_zero, List.length_range] at h
      exact h.false
    simpa [BitVec.getLsbD] using BitVec.getLsbD_true_ctz_of_ne_zero hx

theorem toNat_clz (x : BitVec w) : x.clz.toNat = clz w x.toNat := by
  have hle : x.clz.toNat ≤ w := by
    simpa [BitVec.le_def] using BitVec.clz_le (x := x)
  symm
  refine length_takeWhile_eq (by simpa using hle) (fun i hi => ?_) fun h => ?_
  · have hbit := Nat.testBit_lt_two_pow
      (BitVec.toNat_lt_two_pow_sub_clz.trans_le (Nat.pow_le_pow_right two_pos
        (show w - x.clz.toNat ≤ w - 1 - i by omega)))
    simpa using hbit
  · have hx : x ≠ 0#w := by
      rintro rfl
      rw [toNat_clz_zero, List.length_reverse, List.length_range] at h
      exact h.false
    rw [List.length_reverse, List.length_range] at h
    simpa [BitVec.getLsbD] using BitVec.getLsbD_true_clz_of_ne_zero (Nat.zero_lt_of_lt h) hx

theorem toNat_signExtend (x : BitVec w) {v : ℕ} (h : w ≤ v) :
    (x.signExtend v).toNat = extendS w x.toNat v := by
  rw [extendS, signed_toNat, toNat_eq_ofInt_toInt, BitVec.toInt_signExtend_of_le h]

end Words

end ModularInteger
