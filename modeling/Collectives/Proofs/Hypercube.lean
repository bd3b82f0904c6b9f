import Collectives.Proofs.Rounds
import Mathlib.Data.Nat.Bitwise

/-!
# Hypercubes

In recursive doubling the first `2 ^ l` members are the corners of a hypercube.  At distance
`2 ^ k` the partner of member `i` is `i ^^^ 2 ^ k`.  The members whose indices agree above bit
`k` are a block of `2 ^ k` consecutive ones, of which `blockStart k i` is the first.  Blocks of
partners are the two halves of a block of twice the size, and the lower partner is in the lower
half (`lower_or_upper`).

`Round.exchange` is the round in which partners at one distance exchange messages, and
`Round.fold` the one in which the members beyond the hypercube hand theirs to those inside.
-/

namespace Collectives

namespace Hypercube

/-- The first member of the block of `2 ^ k` members to which a member belongs. -/
def blockStart (k i : Nat) : Nat := i / 2 ^ k * 2 ^ k

@[simp] theorem blockStart_zero (i : Nat) : blockStart 0 i = i := by
  simp [blockStart]

theorem blockStart_of_lt {l i : Nat} (h : i < 2 ^ l) : blockStart l i = 0 := by
  rw [blockStart, Nat.div_eq_of_lt h, Nat.zero_mul]

theorem xor_lt {l k i : Nat} (hi : i < 2 ^ l) (hk : k < l) : i ^^^ 2 ^ k < 2 ^ l :=
  Nat.xor_lt_two_pow hi (Nat.pow_lt_pow_right (by decide) hk)

theorem xor_div (k i : Nat) : (i ^^^ 2 ^ k) / 2 ^ k = i / 2 ^ k ^^^ 1 := by
  rw [Nat.xor_div_two_pow, Nat.div_self (Nat.two_pow_pos k)]

/-- The block of the double size begins with the lower one of its halves. -/
theorem blockStart_succ (k i : Nat) : blockStart (k + 1) i = i / 2 ^ k / 2 * 2 * 2 ^ k := by
  rw [blockStart, Nat.div_div_eq_div_mul, ← Nat.pow_succ, Nat.mul_assoc, ← Nat.pow_succ']

/-- A member is in the lower half of a block and its partner is above it, in the upper half, or
the other way round. -/
theorem lower_or_upper (k i : Nat) :
    (i < i ^^^ 2 ^ k ∧ blockStart k i = blockStart (k + 1) i ∧
        blockStart k (i ^^^ 2 ^ k) = blockStart (k + 1) i + 2 ^ k) ∨
      (i ^^^ 2 ^ k < i ∧ blockStart k i = blockStart (k + 1) i + 2 ^ k ∧
        blockStart k (i ^^^ 2 ^ k) = blockStart (k + 1) i) := by
  have hdiv := xor_div k i
  rw [blockStart_succ]
  unfold blockStart
  rcases Nat.even_or_odd (i / 2 ^ k) with heven | hodd
  · have hhalf : i / 2 ^ k / 2 * 2 = i / 2 ^ k := Nat.div_mul_cancel heven.two_dvd
    rw [Nat.xor_one_of_even heven] at hdiv
    refine .inl ⟨?_, by rw [hhalf], by rw [hdiv, hhalf, Nat.succ_mul]⟩
    refine Nat.lt_of_div_lt_div (c := 2 ^ k) ?_
    rw [hdiv]
    exact Nat.lt_succ_self _
  · have hpos : 0 < i / 2 ^ k := by
      obtain ⟨q, hq⟩ := hodd
      omega
    have hhalf : i / 2 ^ k / 2 * 2 + 1 = i / 2 ^ k := Nat.div_two_mul_two_add_one_of_odd hodd
    rw [Nat.xor_one_of_odd hodd] at hdiv
    refine .inr ⟨?_, ?_, ?_⟩
    · refine Nat.lt_of_div_lt_div (c := 2 ^ k) ?_
      rw [hdiv]
      exact Nat.sub_lt hpos Nat.one_pos
    · rw [← Nat.succ_mul, Nat.succ_eq_add_one, hhalf]
    · rw [hdiv, ← hhalf, Nat.add_sub_cancel, hhalf]

/-- Of the two halves of the block of the double size the one is that of the member and the other
that of its partner. -/
theorem half_of_block {k c i : Nat} (h : blockStart (k + 1) c = blockStart (k + 1) i) :
    blockStart k c = blockStart k i ∨ blockStart k c = blockStart k (i ^^^ 2 ^ k) := by
  rcases lower_or_upper k i with ⟨-, hi, hp⟩ | ⟨-, hi, hp⟩ <;>
    rcases lower_or_upper k c with ⟨-, hc, -⟩ | ⟨-, hc, -⟩
  · exact .inl (by rw [hc, hi, h])
  · exact .inr (by rw [hc, hp, h])
  · exact .inr (by rw [hc, hp, h])
  · exact .inl (by rw [hc, hi, h])

/-- The member inside to which a member belongs: itself, or the one it is folded into. -/
def corner {n : Nat} (l : Nat) (i : Fin n) : Nat := if 2 ^ l ≤ i.val then i.val - 2 ^ l else i.val

theorem corner_lt {n l : Nat} (hn : n < 2 ^ (l + 1)) (i : Fin n) : corner l i < 2 ^ l := by
  rw [Nat.pow_succ] at hn
  have hi := i.isLt
  unfold corner
  split <;> omega

end Hypercube

/-! ## Rounds -/

namespace Round

variable {n : Nat}

/-- Partners at distance `2 ^ k` among the first `p` members exchange messages. -/
def exchange (p k : Nat) (hp : p ≤ n) (data : Fin n → Bytes) : Round n where
  sends i :=
    if h : i.val < p ∧ i.val ^^^ 2 ^ k < p then
      some (⟨i.val ^^^ 2 ^ k, h.2.trans_le hp⟩, data i)
    else none
  receives i :=
    if h : i.val < p ∧ i.val ^^^ 2 ^ k < p then
      some (⟨i.val ^^^ 2 ^ k, h.2.trans_le hp⟩, data ⟨i.val ^^^ 2 ^ k, h.2.trans_le hp⟩)
    else none
  matched i j m := by
    simp only [Option.dite_none_right_eq_some, Option.some_inj, Prod.mk.injEq]
    constructor
    · rintro ⟨h, rfl, rfl⟩
      have hback : (i.val ^^^ 2 ^ k) ^^^ 2 ^ k = i.val := Nat.xor_xor_cancel_right _ _
      refine ⟨⟨h.2, by rw [hback]; exact h.1⟩, Fin.ext hback, ?_⟩
      exact congrArg data (Fin.ext hback)
    · rintro ⟨h, rfl, rfl⟩
      have hback : (j.val ^^^ 2 ^ k) ^^^ 2 ^ k = j.val := Nat.xor_xor_cancel_right _ _
      exact ⟨⟨h.2, by rw [hback]; exact h.1⟩, Fin.ext hback, rfl⟩

/-- Each member from `p` on sends to the one `p` places before it. -/
def fold (p : Nat) (data : Fin n → Bytes) : Round n where
  sends i := if p ≤ i.val then some (⟨i.val - p, by omega⟩, data i) else none
  receives i := if h : i.val + p < n then some (⟨i.val + p, h⟩, data ⟨i.val + p, h⟩) else none
  matched i j m := by
    simp only [Option.ite_none_right_eq_some, Option.dite_none_right_eq_some, Option.some_inj,
      Prod.mk.injEq]
    constructor
    · rintro ⟨h, rfl, rfl⟩
      have hback : i.val - p + p = i.val := Nat.sub_add_cancel h
      refine ⟨by rw [hback]; exact i.isLt, Fin.ext hback, ?_⟩
      exact congrArg data (Fin.ext hback)
    · rintro ⟨h, rfl, rfl⟩
      exact ⟨Nat.le_add_left _ _, Fin.ext (Nat.add_sub_cancel _ _), rfl⟩

/-- The round with the messages in the opposite direction. -/
def flip (round : Round n) : Round n where
  sends := round.receives
  receives := round.sends
  matched i j m := (round.matched j i m).symm

end Round

namespace Team

variable (t : Team) {p k : Nat} (data : Fin t.size → Bytes) (plan : List (Round t.size))
  {i : Fin t.size}

theorem script_exchange_cons (hp : p ≤ t.size) (h : i.val < p ∧ i.val ^^^ 2 ^ k < p) :
    t.script (.exchange p k hp data :: plan) i =
      [.sent (t.rank ⟨i.val ^^^ 2 ^ k, h.2.trans_le hp⟩) (data i),
        .received (t.rank ⟨i.val ^^^ 2 ^ k, h.2.trans_le hp⟩)
          (data ⟨i.val ^^^ 2 ^ k, h.2.trans_le hp⟩)] ++ t.script plan i := by
  rw [script_cons, sendEvents, receiveEvents, Round.exchange]
  simp only [dif_pos h]
  rfl

/-- A member beyond the hypercube has no part in an exchange. -/
theorem script_exchange_of_le (hp : p ≤ t.size) (h : p ≤ i.val) :
    t.script (.exchange p k hp data :: plan) i = t.script plan i := by
  have hnone : ¬(i.val < p ∧ i.val ^^^ 2 ^ k < p) := fun hc => Nat.not_lt.2 h hc.1
  rw [script_cons, sendEvents, receiveEvents, Round.exchange]
  simp only [dif_neg hnone]
  rfl

theorem script_fold_of_lt (h : i.val < p) :
    t.script [.fold p data] i =
      if h : i.val + p < t.size then
        [.received (t.rank ⟨i.val + p, h⟩) (data ⟨i.val + p, h⟩)]
      else [] := by
  rw [script_cons, sendEvents, receiveEvents, Round.fold]
  simp only [if_neg (Nat.not_le.2 h)]
  split <;> rfl

theorem script_fold_of_le (h : p ≤ i.val) (hsize : t.size ≤ i.val + p) :
    t.script [.fold p data] i =
      [.sent (t.rank ⟨i.val - p, (Nat.sub_le _ _).trans_lt i.isLt⟩) (data i)] := by
  rw [script_cons, sendEvents, receiveEvents, Round.fold]
  simp only [if_pos h, dif_neg (Nat.not_lt.2 hsize)]
  rfl

theorem script_unfold_of_lt (h : i.val < p) :
    t.script [(Round.fold p data).flip] i =
      if h : i.val + p < t.size then
        [.sent (t.rank ⟨i.val + p, h⟩) (data ⟨i.val + p, h⟩)]
      else [] := by
  rw [script_cons, sendEvents, receiveEvents, Round.flip, Round.fold]
  simp only [if_neg (Nat.not_le.2 h)]
  split <;> rfl

theorem script_unfold_of_le (h : p ≤ i.val) (hsize : t.size ≤ i.val + p) :
    t.script [(Round.fold p data).flip] i =
      [.received (t.rank ⟨i.val - p, (Nat.sub_le _ _).trans_lt i.isLt⟩) (data i)] := by
  rw [script_cons, sendEvents, receiveEvents, Round.flip, Round.fold]
  simp only [if_pos h, dif_neg (Nat.not_lt.2 hsize)]
  rfl

end Team

end Collectives
