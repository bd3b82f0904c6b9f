import Collectives.Index
import Collectives.Proofs.Rounds
import Mathlib.Logic.Function.Basic

/-!
# Rings

The members of a team stand on a ring in the order of their local indices.  In a round on the
ring everyone sends to the next member and receives from the previous one (`Round.shift`).

In a pass of the ring each member keeps one slot for each member.  A slot has a home, and from
there its content travels once around the ring: the member `k` places past the home gets what
the member before it has and merges it with its own.  `carried c k` is what has become of slot
`c` after `k` places, and `held lead carried own k i` are the slots of member `i` after `k`
rounds, when the home of slot `c` is the member `lead` places before `c`.  `held_succ` says
that a round changes one slot of each member, and how.
-/

namespace Collectives

namespace RingOrder

variable {n : Nat}

/-- The member `k` places further on the ring. -/
def ahead (i : Fin n) (k : Nat) : Fin n := ⟨(i + k) % n, Nat.mod_lt _ i.pos⟩

/-- The member `k` places back on the ring, for `k` up to its length. -/
def behind (i : Fin n) (k : Nat) : Fin n := ⟨(i + n - k) % n, Nat.mod_lt _ i.pos⟩

/-- How many places one has to go back from `i` to come to `c`. -/
def gap (i c : Fin n) : Nat := (i + n - c) % n

theorem gap_lt (i c : Fin n) : gap i c < n := Nat.mod_lt _ i.pos

theorem val_ahead (i : Fin n) {k : Nat} (hk : k ≤ n) :
    (ahead i k).val = if i.val + k < n then i.val + k else i.val + k - n := by
  have hi := i.isLt
  show (i.val + k) % n = _
  split
  · next h => exact Nat.mod_eq_of_lt h
  · rw [Nat.mod_eq_sub_mod (by omega)]
    rcases Nat.lt_or_ge (i.val + k - n) n with h | h
    · exact Nat.mod_eq_of_lt h
    · omega

theorem val_ahead_one (i : Fin n) :
    (ahead i 1).val = if i.val + 1 = n then 0 else i.val + 1 := by
  have hi := i.isLt
  rw [val_ahead i i.pos]
  split <;> split <;> omega

theorem val_behind (i : Fin n) {k : Nat} (hk : k ≤ n) :
    (behind i k).val = if k ≤ i.val then i.val - k else i.val + n - k := by
  have hi := i.isLt
  show (i.val + n - k) % n = _
  split
  · have hsplit : i.val + n - k = i.val - k + n := by omega
    rw [hsplit, Nat.add_mod_right]
    exact Nat.mod_eq_of_lt (by omega)
  · exact Nat.mod_eq_of_lt (by omega)

theorem gap_eq (i c : Fin n) :
    gap i c = if c.val ≤ i.val then i.val - c.val else i.val + n - c.val :=
  val_behind i (Nat.le_of_lt c.isLt)

@[simp] theorem ahead_zero (i : Fin n) : ahead i 0 = i :=
  Fin.ext (Nat.mod_eq_of_lt i.isLt)

theorem ahead_ahead (i : Fin n) (k l : Nat) : ahead (ahead i k) l = ahead i (k + l) := by
  ext
  simp only [ahead, Nat.mod_add_mod, Nat.add_assoc]

@[simp] theorem behind_zero (i : Fin n) : behind i 0 = i := by
  ext
  simp [val_behind]

theorem behind_ahead (i : Fin n) {k : Nat} (hk : k ≤ n) : behind (ahead i k) k = i := by
  have hi := i.isLt
  ext
  rw [val_behind _ hk, val_ahead i hk]
  split <;> split <;> omega

theorem ahead_behind (i : Fin n) {k : Nat} (hk : k ≤ n) : ahead (behind i k) k = i := by
  have hi := i.isLt
  ext
  rw [val_ahead _ hk, val_behind i hk]
  split <;> split <;> omega

theorem behind_ahead_one (i : Fin n) : behind (ahead i 1) 1 = i := behind_ahead i i.pos

theorem ahead_behind_one (i : Fin n) : ahead (behind i 1) 1 = i := ahead_behind i i.pos

/-- Going back `k` places from the member before is going back `k + 1`. -/
theorem behind_behind_one (i : Fin n) {k : Nat} (hk : k < n) :
    behind (behind i 1) k = behind i (k + 1) := by
  have hi := i.isLt
  ext
  rw [val_behind _ (Nat.le_of_lt hk), val_behind _ i.pos, val_behind _ hk]
  split <;> split <;> split <;> omega

/-- The places ahead of the member before are those ahead, moved back by one. -/
theorem ahead_one_behind (i : Fin n) (k : Nat) :
    ahead (behind i 1) k = behind (ahead i k) 1 := by
  have h := congrArg (fun j => behind (ahead j k) 1) (ahead_behind_one i)
  simp only [ahead_ahead, Nat.add_comm 1 k] at h
  rw [← h, ← ahead_ahead, behind_ahead_one]

/-- The next member is as far back as one can go. -/
theorem gap_ahead_one (i : Fin n) : gap i (ahead i 1) = n - 1 := by
  have hi := i.isLt
  rw [gap_eq, val_ahead_one]
  split <;> split <;> omega

theorem gap_behind (i : Fin n) {k : Nat} (hk : k < n) : gap i (behind i k) = k := by
  have hi := i.isLt
  rw [gap_eq, val_behind i (Nat.le_of_lt hk)]
  split <;> split <;> omega

/-- A place ahead is as far back as it is ahead. -/
theorem gap_ahead (c : Fin n) {k : Nat} (hk : k < n) : gap (ahead c k) c = k := by
  have hc := c.isLt
  rw [gap_eq, val_ahead c (Nat.le_of_lt hk)]
  split <;> split <;> omega

theorem gap_behind_of_le {i c : Fin n} {k : Nat} (hk : k ≤ gap i c) :
    gap (behind i k) c = gap i c - k := by
  have hi := i.isLt
  have hc := c.isLt
  have hgap := gap_eq i c
  have hval := val_behind i (Nat.le_trans hk (Nat.le_of_lt (gap_lt i c)))
  rw [gap_eq]
  split at hgap <;> split at hval <;> split <;> omega

theorem gap_pos {i c : Fin n} : 0 < gap i c ↔ i ≠ c := by
  have hi := i.isLt
  have hc := c.isLt
  rw [gap_eq, Ne, Fin.ext_iff]
  split <;> omega

theorem behind_gap (i c : Fin n) : behind i (gap i c) = c := by
  have hi := i.isLt
  have hc := c.isLt
  ext
  rw [val_behind i (Nat.le_of_lt (gap_lt i c)), gap_eq]
  split <;> split <;> omega

/-- From `c` the way forward to `i` is as long as the way back from `i` to `c`. -/
theorem ahead_gap (i c : Fin n) : ahead c (gap i c) = i := by
  have hi := i.isLt
  have hc := c.isLt
  ext
  show (c.val + gap i c) % n = i.val
  rw [gap_eq]
  split
  · have hsum : c.val + (i.val - c.val) = i.val := by omega
    rw [hsum]
    exact Nat.mod_eq_of_lt hi
  · have hsum : c.val + (i.val + n - c.val) = i.val + n := by omega
    rw [hsum, Nat.add_mod_right]
    exact Nat.mod_eq_of_lt hi

/-! ## Positions as they are computed -/

theorem ahead?_eq (i : Fin n) {k : Nat} (hfit : i + k < Index.limit) :
    Index.ahead? n i k = some (ahead i k).val :=
  Index.ahead?_eq i.pos hfit

/-- The position `k` places back, computed from a number that stands for a member. -/
theorem behind?_eq {start k : Nat} (i : Fin n) (hstart : start % n = i) (hk : k ≤ n)
    (hfit : start + n < Index.limit) : Index.behind? n start k = some (behind i k).val := by
  rw [Index.behind?_eq i.pos (by omega) hfit, behind]
  have hsum : start + n - k = n * (start / n) + (i + n - k) := by
    have := Nat.div_add_mod start n
    omega
  rw [hsum, Nat.mul_add_mod]

end RingOrder

section

variable (t : Team) (i : Fin t.size)

/-- Positions on the ring are words, and so are the sums from which they are computed. -/
theorem Team.add_size_lt {k : Nat} (hk : k ≤ 1) : i.val + k + t.size < Index.limit := by
  have hle := t.size_le
  have hi := i.isLt
  have hlimit : 2 * UInt32.size < Index.limit := by decide
  omega

theorem Team.ahead?_one : Index.ahead? t.size i 1 = some (RingOrder.ahead i 1).val := by
  have hbound := t.add_size_lt i (Nat.le_refl 1)
  exact RingOrder.ahead?_eq i (by omega)

theorem Team.behind?_add {lead k : Nat} (hlead : lead ≤ 1) (hk : k ≤ t.size) :
    Index.behind? t.size (i + lead) k = some (RingOrder.behind (RingOrder.ahead i lead) k).val := by
  have hstart : (i.val + lead) % t.size = (RingOrder.ahead i lead).val := rfl
  exact RingOrder.behind?_eq _ hstart hk (t.add_size_lt i hlead)

theorem Team.behind?_val {k : Nat} (hk : k ≤ t.size) :
    Index.behind? t.size i k = some (RingOrder.behind i k).val := by
  have hback := t.behind?_add i (Nat.zero_le 1) hk
  rwa [RingOrder.ahead_zero] at hback

end

/-! ## Rounds on a ring -/

/-- The round in which everyone sends to the next member on the ring. -/
def Round.shift {n : Nat} (data : Fin n → Bytes) : Round n where
  sends i := some (RingOrder.ahead i 1, data i)
  receives i := some (RingOrder.behind i 1, data (RingOrder.behind i 1))
  matched i j d := by
    simp only [Option.some_inj, Prod.mk.injEq]
    constructor
    · rintro ⟨rfl, rfl⟩
      rw [RingOrder.behind_ahead_one]
      exact ⟨rfl, rfl⟩
    · rintro ⟨rfl, rfl⟩
      rw [RingOrder.ahead_behind_one]
      exact ⟨rfl, rfl⟩

theorem Team.script_shift_cons (t : Team) (data : Fin t.size → Bytes)
    (plan : List (Round t.size)) (i : Fin t.size) :
    t.script (.shift data :: plan) i =
      [.sent (t.rank (RingOrder.ahead i 1)) (data i),
        .received (t.rank (RingOrder.behind i 1)) (data (RingOrder.behind i 1))] ++
          t.script plan i :=
  t.script_cons _ _ _

/-! ## Passes of a ring -/

namespace RingOrder

variable {n : Nat} {α : Type}

/-- The rounds from `step` on, `m` of them. -/
def shifts (data : Nat → Fin n → Bytes) (step m : Nat) : List (Round n) :=
  (List.range' step m).map fun k => .shift (data k)

theorem shifts_succ (data : Nat → Fin n → Bytes) (step m : Nat) :
    shifts data step (m + 1) = .shift (data step) :: shifts data (step + 1) m := by
  rw [shifts, List.range'_succ, List.map_cons, shifts]

/-- Putting something into a slot. -/
theorem set_ofFn (slots : Fin n → α) (i : Fin n) (x : α) :
    (List.ofFn slots).set i x = List.ofFn (Function.update slots i x) := by
  refine List.ext_getElem (by simp) ?_
  intro k hk hk'
  rw [List.getElem_set, List.getElem_ofFn, List.getElem_ofFn]
  by_cases hik : i.val = k
  · subst hik
    rw [if_pos rfl, Function.update_self]
  · rw [if_neg hik, Function.update_of_ne fun h => hik (congrArg Fin.val h).symm]

/-- The slots of a member after `k` rounds. -/
def held (lead : Nat) (carried : Fin n → Nat → α) (own : Fin n → Fin n → α) (k : Nat)
    (i c : Fin n) : α :=
  if gap (ahead i lead) c ≤ k then carried c (gap (ahead i lead) c) else own i c

variable (lead : Nat) (carried : Fin n → Nat → α) (own : Fin n → Fin n → α)

/-- At first each member holds its own, when the content of a slot sets out as that of its
home. -/
theorem held_zero (h : ∀ i, carried (ahead i lead) 0 = own i (ahead i lead)) (i : Fin n) :
    held lead carried own 0 i = own i := by
  funext c
  unfold held
  split
  · next hgap =>
    have hc := behind_gap (ahead i lead) c
    rw [Nat.le_zero.1 hgap, behind_zero] at hc
    rw [Nat.le_zero.1 hgap, ← hc, h]
  · rfl

/-- In the end all that a member holds has been carried to it. -/
theorem held_last (i c : Fin n) :
    held lead carried own (n - 1) i c = carried c (gap (ahead i lead) c) :=
  if_pos (Nat.le_sub_one_of_lt (gap_lt _ _))

/-- What a member sends on is what was carried to it in the round before. -/
theorem held_behind (i : Fin n) {k : Nat} (hk : k < n) :
    held lead carried own k i (behind (ahead i lead) k) =
      carried (behind (ahead i lead) k) k := by
  rw [held, gap_behind _ hk, if_pos (Nat.le_refl k)]

/-- Until its round comes a slot is as it was. -/
theorem held_of_lt {i c : Fin n} {k : Nat} (h : k < gap (ahead i lead) c) :
    held lead carried own k i c = own i c :=
  if_neg (Nat.not_le_of_lt h)

/-- In a round one slot of each member changes, to what has been carried there. -/
theorem held_succ (i : Fin n) {k : Nat} (hk : k + 1 < n) :
    held lead carried own (k + 1) i =
      Function.update (held lead carried own k i) (behind (ahead i lead) (k + 1))
        (carried (behind (ahead i lead) (k + 1)) (k + 1)) := by
  funext c
  by_cases hc : c = behind (ahead i lead) (k + 1)
  · rw [hc, Function.update_self, held_behind lead carried own i hk]
  · have hgap : gap (ahead i lead) c ≠ k + 1 := by
      intro h
      exact hc (by rw [← h, behind_gap])
    have hle : gap (ahead i lead) c ≤ k + 1 ↔ gap (ahead i lead) c ≤ k := by omega
    rw [Function.update_of_ne hc, held, held]
    simp only [hle]

/-- The slot that a member receives in a round is the one that the member before it sends. -/
theorem slot_previous {lead : Nat} (i : Fin n) {k : Nat} (hk : k < n) :
    behind (ahead (behind i 1) lead) k = behind (ahead i lead) (k + 1) := by
  rw [ahead_one_behind, behind_behind_one _ hk]

end RingOrder

end Collectives
