import Collectives.Proofs.RecursiveDoubling
import Collectives.Proofs.RingAllreduce
import Mathlib.Algebra.BigOperators.Fin
import Mathlib.Algebra.Group.WithOne.Basic
import Mathlib.Data.Fintype.EquivFin

/-!
# Exact reductions

Integer arithmetic wraps, so it is associative and commutative at every width, and so are minimum,
maximum and the operators on truth values (`exact_of_resolve`).  With such an operator it makes no
difference in which order and with which brackets the elements of the members are combined.  The
fold around the ring that begins at any member and the tree of recursive doubling both come to the
product of the elements of all members (`coe_ringFold`, `coe_tree`), in the monoid that the
operator makes of the element type when an identity is put beside it.

So the two allreduce programs cannot be told apart by their results on these types, and the result
is the left fold over the members in the order of their local indices, or in any other
(`delivers_leftFold`).
-/

namespace Collectives

/-- The operator may be applied in any order and with any brackets. -/
structure Exact {α : Type} (combine : α → α → α) : Prop where
  assoc : Std.Associative combine
  comm : Std.Commutative combine

namespace Exact

/-- The maximum by comparison in a linear order, the way words have it. -/
theorem max_words {α : Type} [LE α] [DecidableLE α] [Std.IsLinearOrder α] [Max α]
    (h : ∀ a b : α, max a b = if a ≤ b then b else a) : Exact (max : α → α → α) := by
  have htotal : ∀ a b : α, a ≤ b ∨ b ≤ a := fun a b => Std.le_total
  have hleft : ∀ a b : α, b ≤ a → max a b = a := by
    intro a b hba
    rw [h]
    split
    · next hab => exact Std.le_antisymm hba hab
    · rfl
  have hright : ∀ a b : α, a ≤ b → max a b = b := by
    intro a b hab
    rw [h, if_pos hab]
  have : Std.LawfulOrderLeftLeaningMax α :=
    ⟨hleft, fun a b hba => hright a b ((htotal a b).resolve_right hba)⟩
  refine ⟨inferInstance, ⟨?_⟩⟩
  intro a b
  rcases htotal a b with hab | hba
  · rw [hright a b hab, hleft b a hab]
  · rw [hleft a b hba, hright b a hba]

/-- On all types but those of floating-point numbers the operators are exact. -/
theorem of_combiner {d : DataType} (hd : d.isFloat = false) {op : ReduceOp}
    {combine : d.Elem → d.Elem → d.Elem} (h : d.combiner op = some combine) : Exact combine := by
  cases d with
  | float | double => cases hd
  | int | int16 | long =>
    cases op with
    | sum | prod | min =>
      cases h
      exact ⟨inferInstance, inferInstance⟩
    | max =>
      cases h
      exact max_words fun _ _ => rfl
    | and | or => cases h
  | bool =>
    cases op with
    | and | or =>
      cases h
      exact ⟨inferInstance, inferInstance⟩
    | sum | prod | min | max => cases h

end Exact

namespace Reducer

variable {d : DataType}

theorem exact_of_resolve (hd : d.isFloat = false) {op : ReduceOp} {r : Reducer d}
    (hr : resolve d op = .ok r) : Exact r.combine := by
  unfold resolve at hr
  split at hr
  · next combine hcombine =>
    cases hr
    exact .of_combiner hd hcombine
  · cases hr

/-- The elements with an exact operator for their multiplication. -/
@[reducible] def commSemigroup (r : Reducer d) (h : Exact r.combine) : CommSemigroup d.Elem where
  mul := r.combine
  mul_assoc := h.assoc.assoc
  mul_comm := h.comm.comm

end Reducer

namespace Allreduce

open RingOrder

variable {d : DataType} {t : Team}

/-- The left fold over the elements of all members in the order of their local indices. -/
def leftFold (r : Reducer d) (x : Fin t.size → d.Elem) : d.Elem :=
  (List.ofFn x).tail.foldl r.combine (x ⟨0, t.size_pos⟩)

/-! ## Products -/

section

variable {r : Reducer d} (h : Exact r.combine) {n : Nat}

/-- A left fold is a product. -/
theorem coe_foldl (a : d.Elem) (xs : List d.Elem) :
    letI := r.commSemigroup h
    ((xs.foldl r.combine a : d.Elem) : WithOne d.Elem) =
      (a : WithOne d.Elem) * (xs.map WithOne.coe).prod := by
  let _ := r.commSemigroup h
  induction xs generalizing a with
  | nil => rw [List.foldl_nil, List.map_nil, List.prod_nil, mul_one]
  | cons x xs ih =>
    have hmul : r.combine a x = a * x := rfl
    rw [List.foldl_cons, ih, hmul, WithOne.coe_mul, mul_assoc, List.map_cons, List.prod_cons]

theorem coe_leftFold (x : Fin t.size → d.Elem) :
    letI := r.commSemigroup h
    ((leftFold r x : d.Elem) : WithOne d.Elem) = ∏ i, (x i : WithOne d.Elem) := by
  let _ := r.commSemigroup h
  have hne : List.ofFn x ≠ [] := by
    rw [Ne, List.ofFn_eq_nil_iff]
    exact Nat.ne_of_gt t.size_pos
  have hhead : (List.ofFn x).head hne = x ⟨0, t.size_pos⟩ := by
    rw [List.head_eq_getElem, List.getElem_ofFn]
  rw [leftFold, coe_foldl h, ← hhead, ← List.prod_cons,
    ← List.map_cons, List.cons_head_tail, List.map_ofFn,
    List.prod_ofFn]
  rfl

/-- The fold around the ring is a product over places. -/
theorem coe_ringFold (x : Fin t.size → Fin n → d.Elem) (c : Fin t.size) (k : Nat) (j : Fin n) :
    letI := r.commSemigroup h
    ((ringFold r x c k j : d.Elem) : WithOne d.Elem) =
      ∏ s ∈ Finset.range (k + 1), (x (ahead c s) j : WithOne d.Elem) := by
  let _ := r.commSemigroup h
  induction k with
  | zero =>
    rw [Finset.prod_range_one, ahead_zero]
    rfl
  | succ k ih =>
    have hmul : r.combine (ringFold r x c k j) (x (ahead c (k + 1)) j) =
        ringFold r x c k j * x (ahead c (k + 1)) j := rfl
    rw [ringFold_succ, hmul, WithOne.coe_mul, ih, ← Finset.prod_range_succ]

/-- So is the value of the tree on a block. -/
theorem coe_tree (leaf : Nat → Fin n → d.Elem) (b k : Nat) (j : Fin n) :
    letI := r.commSemigroup h
    ((tree r leaf b k j : d.Elem) : WithOne d.Elem) =
      ∏ s ∈ Finset.range (2 ^ k), (leaf (b + s) j : WithOne d.Elem) := by
  let _ := r.commSemigroup h
  induction k generalizing b with
  | zero =>
    rw [pow_zero, Finset.prod_range_one]
    rfl
  | succ k ih =>
    have hmul : tree r leaf b (k + 1) j = tree r leaf b k j * tree r leaf (b + 2 ^ k) k j := rfl
    rw [hmul, WithOne.coe_mul, ih, ih, pow_succ, Nat.mul_two, Finset.prod_range_add]
    simp only [Nat.add_assoc]

/-- The leaves hold the elements of those inside and of those that are folded into them. -/
theorem prod_leaf (x : Nat → Fin n → d.Elem) {size : Nat} (hsize : 0 < size) (j : Fin n) :
    letI := r.commSemigroup h
    ∏ s ∈ Finset.range (2 ^ Nat.log2 size), (leaf r x size s j : WithOne d.Elem) =
      ∏ s ∈ Finset.range size, (x s j : WithOne d.Elem) := by
  let _ := r.commSemigroup h
  have hle : 2 ^ Nat.log2 size ≤ size := Nat.log2_self_le (Nat.ne_of_gt hsize)
  have hlt : size < 2 ^ (Nat.log2 size + 1) := Nat.lt_log2_self
  generalize hp : 2 ^ Nat.log2 size = p at hle
  rw [Nat.pow_succ, hp] at hlt
  have hleaf : ∀ s, (leaf r x size s j : WithOne d.Elem) =
      x s j * if s < size - p then (x (p + s) j : WithOne d.Elem) else 1 := by
    intro s
    rw [leaf, hp]
    split
    · rw [Nat.add_comm p s]
      rfl
    · rw [mul_one]
  have hfolded : ∏ s ∈ Finset.range p,
      (if s < size - p then (x (p + s) j : WithOne d.Elem) else 1) =
        ∏ s ∈ Finset.range (size - p), (x (p + s) j : WithOne d.Elem) := by
    have hrange : (Finset.range p).filter (· < size - p) = Finset.range (size - p) := by
      ext s
      rw [Finset.mem_filter, Finset.mem_range, Finset.mem_range]
      omega
    rw [← Finset.prod_filter, hrange]
  simp only [hleaf]
  rw [Finset.prod_mul_distrib, hfolded, ← Finset.prod_range_add, Nat.add_sub_cancel' hle]

include h

/-- Once around the ring, from wherever it begins, every member comes once. -/
theorem ringFold_eq_leftFold (x : Fin t.size → Fin n → d.Elem) (c : Fin t.size) (j : Fin n) :
    ringFold r x c (t.size - 1) j = leftFold r fun i => x i j := by
  let _ := r.commSemigroup h
  have hbijective : Function.Bijective fun s : Fin t.size => ahead c s := by
    refine Finite.injective_iff_bijective.1 ?_
    intro s s' hs
    have hgap := congrArg (fun i => gap i c) hs
    simp only [gap_ahead c s.isLt, gap_ahead c s'.isLt] at hgap
    exact Fin.ext hgap
  refine WithOne.coe_injective ?_
  rw [coe_ringFold h, coe_leftFold h, Nat.sub_add_cancel t.size_pos, Finset.prod_range]
  exact hbijective.prod_comp fun i => (x i j : WithOne d.Elem)

/-- In the tree every member comes once. -/
theorem tree_eq_leftFold (x : Nat → Fin n → d.Elem) (j : Fin n) :
    tree r (leaf r x t.size) 0 (Nat.log2 t.size) j = leftFold r fun i : Fin t.size => x i j := by
  let _ := r.commSemigroup h
  refine WithOne.coe_injective ?_
  rw [coe_tree h, coe_leftFold h]
  simp only [Nat.zero_add]
  rw [prod_leaf h x t.size_pos, Finset.prod_range]

/-- The order of the members does not matter. -/
theorem leftFold_perm (x : Fin t.size → d.Elem) (σ : Equiv.Perm (Fin t.size)) :
    (leftFold r fun i => x (σ i)) = leftFold r x := by
  let _ := r.commSemigroup h
  refine WithOne.coe_injective ?_
  rw [coe_leftFold h, coe_leftFold h]
  exact Equiv.prod_comp σ fun i => (x i : WithOne d.Elem)

end

/-! ## Both programs -/

/-- On all types but those of floating-point numbers, and with every operator that the type
supports, under every schedule both allreduce programs give all members the same buffer: the left
fold, element by element, over the members in the order of their local indices.  In any other order
of the members the fold is the same. -/
theorem delivers_leftFold (t : Team) {d : DataType} (hd : d.isFloat = false) {op : ReduceOp}
    {r : Reducer d} (hr : Reducer.resolve d op = .ok r) {n : Nat}
    (x : Fin t.size → Fin n → d.Elem) (hn : (payloadBytes n d).isOk) :
    ((t.run fun i => ring d (t.job i op (List.ofFn (x i)))).Delivers
      fun _ : Fin t.size => d.encode (List.ofFn fun j => leftFold r fun i => x i j)) ∧
    ((t.run fun i => recursiveDoubling d (t.job i op (List.ofFn (x i)))).Delivers
      fun _ : Fin t.size => d.encode (List.ofFn fun j => leftFold r fun i => x i j)) ∧
    ∀ (σ : Equiv.Perm (Fin t.size)) (j : Fin n),
      (leftFold r fun i => x (σ i) j) = leftFold r fun i => x i j := by
  have hexact := Reducer.exact_of_resolve hd hr
  have hfit := payloadBytes_isOk.1 hn
  refine ⟨?_, ?_, fun σ j => leftFold_perm hexact (fun i => x i j) σ⟩
  · obtain ⟨result, plan, hspec, -, hruns⟩ := exists_ringPlan r x hfit
    have hresult : result = fun j => leftFold r fun i => x i j := by
      funext j
      obtain ⟨c, -, -, hc⟩ := hspec j
      rw [hc, ringFold_eq_leftFold hexact]
    rw [hresult] at hruns
    simp only [ring, onWire_job hr]
    exact (realizes_member r (fun i => through_ringBuffer _ r _) hruns).delivers
  · -- the leaves of the tree are numbered beyond the members
    obtain ⟨y, hy⟩ := t.exists_extension x
    have hresult : treeValue r y t.size = List.ofFn fun j => leftFold r fun i => x i j := by
      rw [treeValue]
      congr 1
      funext j
      simp only [tree_eq_leftFold hexact, hy]
    obtain ⟨plan, -, hruns⟩ := exists_doublingPlan r y t hfit
    simp only [hresult, hy] at hruns
    simp only [recursiveDoubling, onWire_job hr]
    exact (realizes_member r (fun i => through_doublingBuffer _ r _) hruns).delivers

/-- The sum of three numbers of 16 bits that wraps, and wraps back. -/
theorem delivers_leftFold_trio :
    DataType.int16.isFloat = false ∧ Reducer.resolve .int16 .sum = .ok ⟨.sum, (· + ·)⟩ ∧
      (payloadBytes 1 .int16).isOk ∧
      ((Team.trio.run fun i => ring .int16 (Team.trio.job i .sum
        (d := .int16) [(![32767, 3, -5] : Fin 3 → Int16) i])).Delivers
          fun _ : Fin 3 => DataType.int16.encode [32765]) ∧
      (Team.trio.run fun i => recursiveDoubling .int16 (Team.trio.job i .sum
        (d := .int16) [(![32767, 3, -5] : Fin 3 → Int16) i])).Delivers
          fun _ : Fin 3 => DataType.int16.encode [32765] := by
  have hr : Reducer.resolve .int16 .sum = .ok ⟨.sum, (· + ·)⟩ := rfl
  have hfit : (payloadBytes 1 .int16).isOk := by decide
  have h := delivers_leftFold Team.trio (d := .int16) rfl hr
    (fun i => fun _ : Fin 1 => (![32767, 3, -5] : Fin 3 → Int16) i) hfit
  exact ⟨rfl, hr, hfit, h.1, h.2.1⟩

end Allreduce

end Collectives
