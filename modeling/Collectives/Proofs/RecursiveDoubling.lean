import Collectives.Proofs.Allreduce
import Collectives.Proofs.Hypercube

/-!
# Recursive doubling

Under every schedule recursive doubling gives all members the value of one and the same tree
(`tree`).  A leaf is the buffer of a member inside the largest power of two, combined with that
of its partner beyond, if it has one (`leaf`).  A node combines two blocks of members, the lower
one on the left.  Nothing is assumed of the combine function.

After `k` exchanges each member inside has the value of the tree on its block of `2 ^ k`
members: of the two partners at the next distance, the lower one has the left half of the block
of both and the upper one the right half (`combine_values`).
-/

namespace Collectives.Allreduce

open Hypercube

variable {d : DataType} {t : Team} {n : Nat} (r : Reducer d) (x : Nat → Fin n → d.Elem)

/-! ## The tree -/

/-- What a member inside sets out with, among `size` members. -/
def leaf (size b : Nat) : Fin n → d.Elem :=
  if b < size - 2 ^ Nat.log2 size then
    fun j => r.combine (x b j) (x (b + 2 ^ Nat.log2 size) j)
  else x b

/-- The value of the tree on the `2 ^ k` members from `b` on. -/
def tree (leaf : Nat → Fin n → d.Elem) (b : Nat) : Nat → Fin n → d.Elem
  | 0 => leaf b
  | k + 1 => fun j => r.combine (tree leaf b k j) (tree leaf (b + 2 ^ k) k j)

/-- What a member has after `k` exchanges: the value of the tree on its block. -/
def blockValue (leaf : Nat → Fin n → d.Elem) (k i : Nat) : List d.Elem :=
  List.ofFn (tree r leaf (blockStart k i) k)

@[simp] theorem length_blockValue (leaf : Nat → Fin n → d.Elem) (k i : Nat) :
    (blockValue r leaf k i).length = n :=
  List.length_ofFn

theorem reduce_ofFn (a b : Fin n → d.Elem) :
    r.reduce (List.ofFn a) (List.ofFn b) = List.ofFn fun j => r.combine (a j) (b j) :=
  zipWith_ofFn _ _ _

/-- Both partners of an exchange come to the value on the block of both. -/
theorem combine_values (leaf : Nat → Fin n → d.Elem) (k i : Nat) :
    (if i ^^^ 2 ^ k < i then
        r.reduceRev (blockValue r leaf k i) (blockValue r leaf k (i ^^^ 2 ^ k))
      else r.reduce (blockValue r leaf k i) (blockValue r leaf k (i ^^^ 2 ^ k))) =
      blockValue r leaf (k + 1) i := by
  rcases lower_or_upper k i with ⟨hlt, hown, hpartner⟩ | ⟨hlt, hown, hpartner⟩
  · rw [if_neg (Nat.lt_asymm hlt), blockValue, blockValue, hown, hpartner, reduce_ofFn]
    rfl
  · rw [if_pos hlt, Reducer.reduceRev_eq_reduce, blockValue, blockValue, hown, hpartner,
      reduce_ofFn]
    rfl

/-! ## The parts of the program -/

theorem runs_recvBuffer (i j : Fin t.size) (xs : List d.Elem) {total : Nat}
    (h : xs.length * d.width = total) :
    (recvBuffer d (t.exchange i) j total).Runs [.received (t.rank j) (d.encode xs)]
      (.ret xs) := by
  have hlength : (d.encode xs).length = total := by rw [DataType.length_encode, h]
  have hruns := (t.runs_recvExact i j hlength).bind fun received =>
    .ofExcept (d.decode received)
  rwa [Program.ret_bind, DataType.decode_encode, Program.ofExcept_ok] at hruns

/-- The exchanges at the distances `2 ^ k`, `2 ^ (k + 1)`, …, `m` of them, among the first `p`
members. -/
def exchanges (leaf : Nat → Fin n → d.Elem) {size p : Nat} (hp : p ≤ size) (k m : Nat) :
    List (Round size) :=
  (List.range' k m).map fun k =>
    .exchange p k hp fun i => d.encode (blockValue r leaf k i)

theorem exchanges_succ (leaf : Nat → Fin n → d.Elem) {size p : Nat} (hp : p ≤ size)
    (k m : Nat) :
    exchanges r leaf hp k (m + 1) =
      .exchange p k hp (fun i => d.encode (blockValue r leaf k i)) ::
        exchanges r leaf hp (k + 1) m := by
  rw [exchanges, List.range'_succ, List.map_cons, exchanges]

theorem runs_doublingRounds (leaf : Nat → Fin n → d.Elem) {l total : Nat}
    (hl : 2 ^ l ≤ t.size) (htotal : n * d.width = total) (i : Fin t.size) (hi : i.val < 2 ^ l)
    (k m : Nat) (h : k + m ≤ l) :
    (doublingRounds (t.exchange i) r total (blockValue r leaf k i) k m).Runs
      (t.script (exchanges r leaf hl k m) i) (.ret (blockValue r leaf (k + m) i)) := by
  induction m generalizing k with
  | zero => exact .refl _
  | succ m ih =>
    have hpartner : i.val ^^^ 2 ^ k < 2 ^ l := xor_lt hi (by omega)
    have hlength : (d.encode (blockValue r leaf k (i.val ^^^ 2 ^ k))).length = total := by
      rw [DataType.length_encode, length_blockValue, htotal]
    have hround := (t.runs_sendRecv i ⟨_, hpartner.trans_le hl⟩ ⟨_, hpartner.trans_le hl⟩
      (d.encode (blockValue r leaf k i)) hlength).bind fun received => do
        let incoming ← .ofExcept (d.decode received)
        return if i.val ^^^ 2 ^ k < i.val then r.reduceRev (blockValue r leaf k i) incoming
          else r.reduce (blockValue r leaf k i) incoming
    rw [Program.ret_bind, DataType.decode_encode, Program.ofExcept_ok, Program.ret_bind,
      Program.pure_eq, combine_values] at hround
    have hrest := ih (k + 1) (by omega)
    rw [Nat.add_assoc, Nat.add_comm 1 m] at hrest
    have hscript := t.script_exchange_cons (fun i => d.encode (blockValue r leaf k i))
      (exchanges r leaf hl (k + 1) m) hl ⟨hi, hpartner⟩
    rw [exchanges_succ, hscript, doublingRounds, doublingRound, t.localRank_exchange,
      Nat.one_shiftLeft]
    exact hround.bind_ret hrest

/-- A member beyond the hypercube has no part in the exchanges. -/
theorem script_exchanges_of_le (leaf : Nat → Fin n → d.Elem) {p : Nat} (hp : p ≤ t.size)
    {i : Fin t.size} (hi : p ≤ i.val) (k m : Nat) :
    t.script (exchanges r leaf hp k m) i = [] := by
  induction m generalizing k with
  | zero => rfl
  | succ m ih => rw [exchanges_succ, t.script_exchange_of_le _ _ hp hi, ih]

/-! ## The whole program -/

/-- The result: the value of the tree on all members inside. -/
def treeValue (size : Nat) : List d.Elem :=
  List.ofFn (tree r (leaf r x size) 0 (Nat.log2 size))

/-- Folding in, the exchanges, and folding out. -/
def doublingPlan (t : Team) : List (Round t.size) :=
  [.fold (2 ^ Nat.log2 t.size) fun i => d.encode (List.ofFn (x i))] ++
    (exchanges r (leaf r x t.size) t.two_pow_log2_le 0 (Nat.log2 t.size) ++
      [(Round.fold (2 ^ Nat.log2 t.size) fun _ => d.encode (treeValue r x t.size)).flip])

theorem runs_foldIn {total : Nat} (htotal : n * d.width = total) (i : Fin t.size)
    (hi : i.val < 2 ^ Nat.log2 t.size) :
    (foldIn (t.exchange i) r total (2 ^ Nat.log2 t.size) (t.size - 2 ^ Nat.log2 t.size)
      (List.ofFn (x i))).Runs
        (t.script [.fold (2 ^ Nat.log2 t.size) fun i => d.encode (List.ofFn (x i))] i)
        (.ret (List.ofFn (leaf r x t.size i))) := by
  rw [foldIn_exchange, leaf]
  simp only [Nat.lt_sub_iff_add_lt]
  by_cases hpartner : i.val + 2 ^ Nat.log2 t.size < t.size
  · have hruns := (runs_recvBuffer i ⟨_, hpartner⟩ (List.ofFn (x (i.val + 2 ^ Nat.log2 t.size)))
      (by rw [List.length_ofFn, htotal])).bind fun incoming =>
        .ret (r.reduce (List.ofFn (x i)) incoming)
    rw [Program.ret_bind, reduce_ofFn] at hruns
    rw [if_pos hpartner, if_pos hpartner, t.script_fold_of_lt _ hi, dif_pos hpartner]
    exact hruns
  · rw [if_neg hpartner, if_neg hpartner, t.script_fold_of_lt _ hi, dif_neg hpartner]
    exact .refl _

theorem runs_foldOut (result : List d.Elem) (i : Fin t.size)
    (hi : i.val < 2 ^ Nat.log2 t.size) :
    (foldOut (t.exchange i) (2 ^ Nat.log2 t.size) (t.size - 2 ^ Nat.log2 t.size) result).Runs
      (t.script [(Round.fold (2 ^ Nat.log2 t.size) fun _ => d.encode result).flip] i)
      (.ret ()) := by
  rw [foldOut_exchange]
  by_cases hpartner : i.val + 2 ^ Nat.log2 t.size < t.size
  · rw [if_pos hpartner, t.script_unfold_of_lt _ hi, dif_pos hpartner]
    exact t.runs_send i ⟨_, hpartner⟩ (d.encode result)
  · rw [if_neg hpartner, t.script_unfold_of_lt _ hi, dif_neg hpartner]
    exact .refl _

theorem runs_inside {total : Nat} (htotal : n * d.width = total) (i : Fin t.size)
    (hi : i.val < 2 ^ Nat.log2 t.size) :
    (inside (t.exchange i) r total (2 ^ Nat.log2 t.size) (t.size - 2 ^ Nat.log2 t.size)
      (List.ofFn (x i))).Runs (t.script (doublingPlan r x t) i)
        (.ret (treeValue r x t.size)) := by
  have hrounds := runs_doublingRounds r (leaf r x t.size) t.two_pow_log2_le htotal i hi 0
    (Nat.log2 t.size) (Nat.le_of_eq (Nat.zero_add _))
  rw [blockValue, blockStart_zero, Nat.zero_add, blockValue, blockStart_of_lt hi] at hrounds
  have hout := (runs_foldOut (treeValue r x t.size) i hi).bind fun _ =>
    .ret (treeValue r x t.size)
  rw [inside, doublingPlan, t.script_append, t.script_append, t.size_exchange]
  exact (runs_foldIn r x htotal i hi).bind_ret (hrounds.bind_ret hout)

theorem runs_beyond {total : Nat} (htotal : n * d.width = total) (i : Fin t.size)
    (hi : 2 ^ Nat.log2 t.size ≤ i.val) :
    (beyond (t.exchange i) total (2 ^ Nat.log2 t.size) (List.ofFn (x i))).Runs
      (t.script (doublingPlan r x t) i) (.ret (treeValue r x t.size)) := by
  have hpartner : i.val - 2 ^ Nat.log2 t.size < t.size := (Nat.sub_le _ _).trans_lt i.isLt
  have hsub : Index.sub? i.val (2 ^ Nat.log2 t.size) = some (i.val - 2 ^ Nat.log2 t.size) :=
    if_pos hi
  have hsend := t.runs_send i ⟨_, hpartner⟩ (d.encode (List.ofFn (x i)))
  have hrecv := runs_recvBuffer i ⟨_, hpartner⟩ (treeValue r x t.size)
    (by rw [treeValue, List.length_ofFn, htotal])
  have hlast : t.size ≤ i.val + 2 ^ Nat.log2 t.size := by
    have hlt := t.lt_two_pow_log2_succ
    rw [Nat.pow_succ] at hlt
    omega
  rw [beyond, t.localRank_exchange, hsub, doublingPlan, t.script_append, t.script_append,
    script_exchanges_of_le _ _ _ hi, t.script_fold_of_le _ hi hlast,
    t.script_unfold_of_le _ hi hlast]
  exact hsend.bind_ret hrecv

/-- A single member and an empty buffer need no messages. -/
theorem doublingBuffer_eq_ret (h : t.size = 1 ∨ n = 0) (i : Fin t.size) :
    doublingBuffer (t.exchange i) r (List.ofFn (x i)) = .ret (List.ofFn (x i)) :=
  doublingBuffer_of_trivial t r i ((trivial_iff t (x i)).2 h)

theorem treeValue_of_trivial (h : t.size = 1 ∨ n = 0) (i : Fin t.size) :
    treeValue r x t.size = List.ofFn (x i) := by
  rcases h with hsize | rfl
  · have hi : i.val = 0 := by
      have hlt := i.isLt
      omega
    rw [hi, hsize]
    rfl
  · simp [treeValue]

theorem runs_doublingBuffer (hn : n * d.width < Index.limit) (h : ¬(t.size = 1 ∨ n = 0))
    (i : Fin t.size) :
    (doublingBuffer (t.exchange i) r (List.ofFn (x i))).Runs (t.script (doublingPlan r x t) i)
      (.ret (treeValue r x t.size)) := by
  have hreturn : ¬(t.size ≤ 1 ∨ List.ofFn (x i) = []) := by rwa [trivial_iff]
  have hfit : (List.ofFn (x i)).length * d.width < Index.limit := by rwa [List.length_ofFn]
  rw [doublingBuffer_exchange t r i hreturn hfit, List.length_ofFn]
  by_cases hi : 2 ^ Nat.log2 t.size ≤ i.val
  · rw [if_pos hi]
    exact runs_beyond r x rfl i hi
  · rw [if_neg hi]
    exact runs_inside r x rfl i (Nat.lt_of_not_le hi)

/-- A plan on which everyone ends with the value of the tree. -/
theorem exists_doublingPlan (t : Team) (hn : n * d.width < Index.limit) :
    ∃ plan : List (Round t.size), (¬(t.size = 1 ∨ n = 0) → plan = doublingPlan r x t) ∧
      ∀ i : Fin t.size, (doublingBuffer (t.exchange i) r (List.ofFn (x i))).Runs (t.script plan i)
        (.ret (treeValue r x t.size)) := by
  by_cases htrivial : t.size = 1 ∨ n = 0
  · refine ⟨[], fun h => absurd htrivial h, ?_⟩
    intro i
    rw [doublingBuffer_eq_ret r x htrivial, ← treeValue_of_trivial r x htrivial i]
    exact .refl _
  · exact ⟨doublingPlan r x t, fun _ => rfl, runs_doublingBuffer r x hn htrivial⟩

/-- Under every schedule all members of an allreduce by recursive doubling end with the value of
the tree.  So it is with any combine function, and in particular with the one that the operator
of a call stands for.  A single member and an empty buffer send nothing. -/
theorem delivers_doublingBuffer (t : Team) (r : Reducer d) {n : Nat} (x : Nat → Fin n → d.Elem)
    (hn : (payloadBytes n d).isOk) :
    ((t.run fun i => member doublingBuffer (t.exchange i) r (List.ofFn (x i))).Delivers
      fun _ : Fin t.size =>
        d.encode (List.ofFn (tree r (leaf r x t.size) 0 (Nat.log2 t.size)))) ∧
    (∀ op, Reducer.resolve d op = .ok r →
      (t.run fun i => recursiveDoubling d (t.job i op (List.ofFn (x i)))).Delivers
        fun _ : Fin t.size =>
          d.encode (List.ofFn (tree r (leaf r x t.size) 0 (Nat.log2 t.size)))) ∧
    (t.size = 1 ∨ n = 0 → ∀ i : Fin t.size,
      member doublingBuffer (t.exchange i) r (List.ofFn (x i)) =
        .ret (d.encode (List.ofFn (x i)))) := by
  have hdelivers : (t.run fun i =>
      member doublingBuffer (t.exchange i) r (List.ofFn (x i))).Delivers
        fun _ : Fin t.size => d.encode (treeValue r x t.size) := by
    obtain ⟨plan, -, hruns⟩ := exists_doublingPlan r x t (payloadBytes_isOk.1 hn)
    exact (realizes_member r (fun i => through_doublingBuffer _ r _) hruns).delivers
  refine ⟨hdelivers, ?_, ?_⟩
  · intro op hop
    simp only [recursiveDoubling, onWire_job hop]
    exact hdelivers
  · intro htrivial i
    rw [member, doublingBuffer_eq_ret r x htrivial]
    rfl

/-- The third of three members is folded into the first: the result is `(1 - 100) - 10`. -/
theorem delivers_doublingBuffer_trio :
    (payloadBytes 1 .int).isOk ∧
      (Team.trio.run fun i => member doublingBuffer (Team.trio.exchange i)
        (⟨.sum, fun a b => a - b⟩ : Reducer .int)
        (List.ofFn fun _ : Fin 1 => ((10 : Int32) ^ i.val))).Delivers
          fun _ : Fin 3 => DataType.int.encode [-109] := by
  have hfit : (payloadBytes 1 .int).isOk := by decide
  exact ⟨hfit, (delivers_doublingBuffer Team.trio (⟨.sum, fun a b => a - b⟩ : Reducer .int)
    (fun i _ => (10 : Int32) ^ i) hfit).1⟩

end Collectives.Allreduce
