/-!
# Machine-size arithmetic

Counts, lengths and indices are 64-bit words. An operation whose result does not fit,
a difference below zero and a remainder by zero have no value. Positions on a ring of
members are computed with these operations, so that "the member `k` places behind" is
known to be in range wherever it has a value.
-/

namespace Collectives.Index

/-- The first number that is not a word. -/
def limit : Nat := 1 <<< 64

/-- The sum, if it is a word. -/
def add? (a b : Nat) : Option Nat := if a + b < limit then some (a + b) else none

/-- The difference, if it is not negative. -/
def sub? (a b : Nat) : Option Nat := if b ≤ a then some (a - b) else none

/-- The product, if it is a word. -/
def mul? (a b : Nat) : Option Nat := if a * b < limit then some (a * b) else none

/-- The remainder, if the divisor is not zero. -/
def mod? (a b : Nat) : Option Nat := if b = 0 then none else some (a % b)

/-- The position `k` places before position `i` on a ring of `n`. -/
def behind? (n i k : Nat) : Option Nat := do
  let sum ← add? i n
  let place ← sub? sum k
  mod? place n

/-- The position `k` places after position `i` on a ring of `n`. -/
def ahead? (n i k : Nat) : Option Nat := do
  let place ← add? i k
  mod? place n

/-- The least `k` with `n ≤ 2 ^ k`. -/
def ceilLog2 (n : Nat) : Nat := if n ≤ 1 then 0 else Nat.log2 (n - 1) + 1

/-- The largest power of two that is at most `n`. -/
def floorPow2 (n : Nat) : Nat := 1 <<< Nat.log2 n

theorem behind?_eq {n i k : Nat} (hn : 0 < n) (hk : k ≤ i + n) (hfit : i + n < limit) :
    behind? n i k = some ((i + n - k) % n) := by
  have : n ≠ 0 := Nat.ne_of_gt hn
  simp [behind?, add?, sub?, mod?, hk, hfit, this]

theorem ahead?_eq {n i k : Nat} (hn : 0 < n) (hfit : i + k < limit) :
    ahead? n i k = some ((i + k) % n) := by
  have : n ≠ 0 := Nat.ne_of_gt hn
  simp [ahead?, add?, mod?, hfit, this]

/-- A position has a value only inside the ring. -/
theorem behind?_lt {n i k m : Nat} (h : behind? n i k = some m) : m < n := by
  simp only [behind?, mod?, Option.bind_eq_bind, Option.bind_eq_some_iff] at h
  obtain ⟨_, _, _, _, h⟩ := h
  split at h
  · cases h
  · cases h
    exact Nat.mod_lt _ (by omega)

theorem le_shiftLeft_ceilLog2 (n : Nat) : n ≤ 1 <<< ceilLog2 n := by
  rw [Nat.one_shiftLeft]
  unfold ceilLog2
  split
  · omega
  · have := Nat.lt_log2_self (n := n - 1)
    omega

theorem shiftLeft_lt_of_lt_ceilLog2 {n k : Nat} (hk : k < ceilLog2 n) : 1 <<< k < n := by
  unfold ceilLog2 at hk
  split at hk
  · omega
  · have hle : 2 ^ k ≤ n - 1 := Nat.le_trans (Nat.pow_le_pow_right (by decide) (by omega))
      (Nat.log2_self_le (by omega))
    rw [Nat.one_shiftLeft]
    omega

theorem floorPow2_le {n : Nat} (hn : 0 < n) : floorPow2 n ≤ n := by
  rw [floorPow2, Nat.one_shiftLeft]
  exact Nat.log2_self_le (Nat.ne_of_gt hn)

theorem lt_two_mul_floorPow2 (n : Nat) : n < 2 * floorPow2 n := by
  have := Nat.lt_log2_self (n := n)
  rw [Nat.pow_succ] at this
  rw [floorPow2, Nat.one_shiftLeft]
  omega

end Collectives.Index
