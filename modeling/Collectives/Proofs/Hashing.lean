import Mathlib.Algebra.Order.Ring.Abs
import Mathlib.Data.Int.ModEq
import Mathlib.Tactic.Linarith
import Mathlib.Tactic.Ring
import Collectives.Tag

/-!
# What the hash keeps apart

The hash takes strings of any length to words, so it cannot keep all of them apart.  But it does
so with numbers below `2 ^ 32`, from whatever word the hash starts (`Tag.hashCount_injOn`).

The multiplier is `2 ^ 40 + 435`.  In the low forty bits it is `435`: what a byte adds to the
hash, or takes from it, is below `256`, and then it is multiplied by `435`.  So after a few bytes
the difference of two hashes is a small multiple of `435` there (`Tag.Differ.absorb`), and no byte
makes up for such a difference unless it is zero (`Tag.Differ.absorb_inj`).  For four bytes the
differences stay below `2 ^ 40`, and the four bytes that follow are zero and lose nothing.
-/

namespace Collectives.Tag

/-! ## Taking in a byte -/

/-- What undoes the multiplier. -/
def primeInverse : UInt64 := 0xce965057aff6957b

theorem mul_prime_inj {x y : UInt64} : x * prime = y * prime ↔ x = y := by
  constructor
  · intro h
    have hinverse : prime * primeInverse = 1 := by decide +kernel
    calc x = x * prime * primeInverse := by rw [UInt64.mul_assoc, hinverse, UInt64.mul_one]
      _ = y * prime * primeInverse := by rw [h]
      _ = y := by rw [UInt64.mul_assoc, hinverse, UInt64.mul_one]
  · rintro rfl
    rfl

theorem absorb_left_inj {x y : UInt64} {b : UInt8} : absorb x b = absorb y b ↔ x = y := by
  rw [absorb, absorb, mul_prime_inj, UInt64.xor_left_inj]

/-- A byte touches the low eight bits only. -/
theorem toNat_xor_byte (x : UInt64) (b : UInt8) :
    ∃ e : ℤ, ((x ^^^ b.toUInt64).toNat : ℤ) = x.toNat + e ∧ |e| ≤ 255 := by
  have hhigh : (x.toNat ^^^ b.toNat) / 2 ^ 8 = x.toNat / 2 ^ 8 := by
    rw [Nat.xor_div_two_pow, Nat.div_eq_of_lt b.toNat_lt, Nat.xor_zero]
  refine ⟨((x ^^^ b.toUInt64).toNat : ℤ) - x.toNat, by ring, ?_⟩
  rw [UInt64.toNat_xor, UInt8.toNat_toUInt64, abs_le]
  omega

/-- In the low forty bits the multiplier is `435`. -/
theorem toNat_mul_prime (x : UInt64) : ((x * prime).toNat : ℤ) ≡ 435 * x.toNat [ZMOD 2 ^ 40] := by
  have hmod : (x * prime).toNat = x.toNat * 1099511628211 % 2 ^ 64 := by
    rw [UInt64.toNat_mul]
    rfl
  rw [hmod, Int.modEq_iff_dvd]
  omega

/-! ## Small differences -/

/-- In the low forty bits the words differ by a multiple of `435` that is small. -/
def Differ (bound : ℤ) (x y : UInt64) : Prop :=
  ∃ d : ℤ, (x.toNat : ℤ) ≡ y.toNat + d [ZMOD 2 ^ 40] ∧ 435 ∣ d ∧ |d| ≤ bound

variable {bound : ℤ} {x y : UInt64} {b c : UInt8}

theorem Differ.refl (x : UInt64) : Differ 0 x x := ⟨0, by rw [add_zero], dvd_zero _, by simp⟩

theorem Differ.absorb (h : Differ bound x y) (b c : UInt8) :
    Differ (435 * (bound + 510)) (absorb x b) (absorb y c) := by
  obtain ⟨d, hd, -, hbound⟩ := h
  obtain ⟨e, hx, he⟩ := toNat_xor_byte x b
  obtain ⟨f, hy, hf⟩ := toNat_xor_byte y c
  refine ⟨435 * (d + e - f), ?_, dvd_mul_right _ _, ?_⟩
  · have hxor : ((x ^^^ b.toUInt64).toNat : ℤ) ≡ (y ^^^ c.toUInt64).toNat + (d + e - f)
        [ZMOD 2 ^ 40] := by
      rw [hx, hy]
      calc (x.toNat : ℤ) + e ≡ y.toNat + d + e [ZMOD 2 ^ 40] := hd.add_right e
        _ = y.toNat + f + (d + e - f) := by ring
    calc ((Tag.absorb x b).toNat : ℤ) ≡ 435 * (x ^^^ b.toUInt64).toNat [ZMOD 2 ^ 40] :=
          toNat_mul_prime _
      _ ≡ 435 * ((y ^^^ c.toUInt64).toNat + (d + e - f)) [ZMOD 2 ^ 40] := hxor.mul_left 435
      _ = 435 * (y ^^^ c.toUInt64).toNat + 435 * (d + e - f) := by ring
      _ ≡ (Tag.absorb y c).toNat + 435 * (d + e - f) [ZMOD 2 ^ 40] :=
          (toNat_mul_prime _).symm.add_right _
  · rw [abs_le] at hbound he hf ⊢
    omega

/-- No byte makes up for such a difference. -/
theorem Differ.absorb_inj (h : Differ bound x y) (hbound : bound + 255 < 2 ^ 40)
    (heq : Tag.absorb x b = Tag.absorb y c) : x = y ∧ b = c := by
  have hxor : x ^^^ b.toUInt64 = y ^^^ c.toUInt64 := mul_prime_inj.1 heq
  have hbyte : x = y ^^^ (c ^^^ b).toUInt64 := by
    rw [UInt8.toUInt64_xor, ← UInt64.xor_assoc, ← hxor, UInt64.xor_assoc, UInt64.xor_self,
      UInt64.xor_zero]
  obtain ⟨d, hd, hdvd, hsmall⟩ := h
  obtain ⟨e, hx, he⟩ := toNat_xor_byte y (c ^^^ b)
  rw [← hbyte] at hx
  rw [abs_le] at hsmall he
  have hde : d - e = 0 := by
    refine Int.eq_zero_of_abs_lt_dvd (m := 2 ^ 40) ?_ (abs_lt.2 ⟨by omega, by omega⟩)
    have hdiff := Int.modEq_iff_dvd.1 hd
    rwa [hx, add_sub_add_left_eq_sub] at hdiff
  have hzero : e = 0 := by omega
  have hword : x = y := by
    rw [hzero, add_zero] at hx
    exact UInt64.toNat_inj.1 (Int.ofNat_inj.1 hx)
  refine ⟨hword, ?_⟩
  rw [hword, UInt64.xor_right_inj] at hxor
  exact UInt8.toNat_inj.1 (by simpa using congrArg UInt64.toNat hxor)

theorem Differ.nonneg (h : Differ bound x y) : 0 ≤ bound := by
  obtain ⟨d, -, -, hd⟩ := h
  exact (abs_nonneg d).trans hd

/-- As long as the differences stay small, short strings are kept apart. -/
theorem Differ.hash_inj (h : Differ bound x y) {bs cs : Bytes} (hlength : bs.length = cs.length)
    (hbound : 435 ^ bs.length * (bound + 512) ≤ 435 * 2 ^ 40) (heq : hash x bs = hash y cs) :
    x = y ∧ bs = cs := by
  induction bs generalizing x y bound cs with
  | nil =>
    obtain rfl := List.eq_nil_of_length_eq_zero hlength.symm
    exact ⟨heq, rfl⟩
  | cons b bs ih =>
    cases cs with
    | nil => cases hlength
    | cons c cs =>
      have hpos := h.nonneg
      have hpow : (1 : ℤ) ≤ 435 ^ bs.length := one_le_pow₀ (by norm_num)
      rw [List.length_cons, pow_succ, mul_comm _ (435 : ℤ), mul_assoc] at hbound
      have hrest : 435 ^ bs.length * (435 * (bound + 510) + 512) ≤ 435 * 2 ^ 40 := by
        refine le_trans ?_ hbound
        nlinarith
      obtain ⟨hword, hbytes⟩ := ih (h.absorb b c) (Nat.succ_inj.1 hlength) hrest heq
      obtain ⟨hxy, hbc⟩ := h.absorb_inj (by nlinarith) hword
      exact ⟨hxy, by rw [hbc, hbytes]⟩

/-! ## Counts -/

/-- A number below `2 ^ 32` is four bytes and four zeros. -/
theorem littleEndian_of_lt {n : ℕ} (hn : n < 2 ^ 32) :
    littleEndian 8 n = littleEndian 4 n ++ [0, 0, 0, 0] := by
  have hzero : n / 256 / 256 / 256 / 256 = 0 := by omega
  simp [littleEndian, hzero]

theorem hash_left_inj {bs : Bytes} : hash x bs = hash y bs ↔ x = y := by
  induction bs generalizing x y with
  | nil => rfl
  | cons b bs ih => rw [hash_cons, hash_cons, ih, absorb_left_inj]

/-- Numbers below `2 ^ 32` are kept apart, whatever was hashed before. -/
theorem hashCount_injOn (h : UInt64) : Set.InjOn (hashCount h) {n | n < 2 ^ 32} := by
  intro m hm n hn heq
  rw [hashCount, hashCount, littleEndian_of_lt hm, littleEndian_of_lt hn, hash_append, hash_append,
    hash_left_inj] at heq
  have hlength : (littleEndian 4 m).length = (littleEndian 4 n).length := by
    rw [length_littleEndian, length_littleEndian]
  have hbound : (435 : ℤ) ^ (littleEndian 4 m).length * (0 + 512) ≤ 435 * 2 ^ 40 := by
    rw [length_littleEndian]
    norm_num
  have hbytes := ((Differ.refl h).hash_inj hlength hbound heq).2
  have hword := congrArg ofLittleEndian hbytes
  rwa [ofLittleEndian_littleEndian, ofLittleEndian_littleEndian, Nat.mod_eq_of_lt,
    Nat.mod_eq_of_lt] at hword
  · exact hn
  · exact hm

theorem groupId_injOn (ranks : List UInt32) : Set.InjOn (groupId ranks) {n | n < 2 ^ 32} :=
  hashCount_injOn _

theorem ofSequence_injOn (id : UInt64) : Set.InjOn (ofSequence id) {n | n < 2 ^ 32} :=
  hashCount_injOn id

end Collectives.Tag
