import Collectives.ChunkLayout
import Mathlib.Algebra.GroupWithZero.Nat
import Mathlib.Data.List.OfFn

/-!
# Chunks

Chunk `k` of `count` elements in `parts` chunks lies between `bound count parts k` and
`bound count parts (k + 1)`.  The bounds start at 0, never decrease and end at `count`, so
every position lies in exactly one chunk (`existsUnique_within`) and the chunks of a buffer
put together are the buffer (`flatten_chunks`).  Cutting two buffers of the same length
commutes with combining them (`chunk_zipWith`).
-/

namespace Collectives

/-- A list of computations each of which gives a value gives the list of these values. -/
theorem mapM_eq_pure_map {m : Type → Type} [Monad m] [LawfulMonad m] {α β : Type}
    {f : α → m β} {g : α → β} {xs : List α} (h : ∀ x ∈ xs, f x = pure (g x)) :
    xs.mapM f = pure (xs.map g) := by
  induction xs with
  | nil => simp
  | cons x xs ih =>
    rw [List.mapM_cons, h x List.mem_cons_self, ih fun y hy => h y (List.mem_cons_of_mem _ hy)]
    simp

namespace ChunkLayout

variable {α β γ : Type}

/-- Where chunk `k` of `count` elements in `parts` chunks begins. -/
def bound (count parts k : Nat) : Nat := k * (count / parts) + min k (count % parts)

/-- The length of chunk `k` of `count` elements in `parts` chunks. -/
def chunkLength (count parts k : Nat) : Nat := bound count parts (k + 1) - bound count parts k

@[simp] theorem bound_zero (count parts : Nat) : bound count parts 0 = 0 := by
  simp [bound]

theorem bound_parts (count : Nat) {parts : Nat} (h : 0 < parts) :
    bound count parts parts = count := by
  have hmod := Nat.mod_lt count h
  rw [bound, Nat.min_eq_right (Nat.le_of_lt hmod), Nat.div_add_mod]

/-- The first `count % parts` chunks are one element longer than the others. -/
theorem bound_succ (count parts k : Nat) : bound count parts (k + 1) =
    bound count parts k + (count / parts + if k < count % parts then 1 else 0) := by
  rw [bound, bound, Nat.succ_mul]
  split <;> omega

theorem bound_le_succ (count parts k : Nat) :
    bound count parts k ≤ bound count parts (k + 1) := by
  rw [bound_succ]
  exact Nat.le_add_right _ _

theorem bound_mono (count parts : Nat) {k l : Nat} (h : k ≤ l) :
    bound count parts k ≤ bound count parts l := by
  induction h with
  | refl => exact Nat.le_refl _
  | step _ ih => exact ih.trans (bound_le_succ _ _ _)

theorem bound_le (count : Nat) {parts k : Nat} (h : k ≤ parts) (hparts : 0 < parts) :
    bound count parts k ≤ count := by
  have hle := bound_mono count parts h
  rwa [bound_parts count hparts] at hle

theorem bound_add_chunkLength (count parts k : Nat) :
    bound count parts k + chunkLength count parts k = bound count parts (k + 1) :=
  Nat.add_sub_cancel' (bound_le_succ count parts k)

theorem chunkLength_eq (count parts k : Nat) : chunkLength count parts k =
    count / parts + if k < count % parts then 1 else 0 := by
  rw [chunkLength, bound_succ, Nat.add_sub_cancel_left]

theorem chunkLength_le (count : Nat) {parts k : Nat} (h : k < parts) :
    chunkLength count parts k ≤ count := by
  have hle := bound_le count (k := k + 1) h (Nat.zero_lt_of_lt h)
  have hlength := bound_add_chunkLength count parts k
  omega

/-- All chunks together are as long as the buffer. -/
theorem sum_ofFn_chunkLength (count : Nat) {parts : Nat} (hparts : 0 < parts) :
    (List.ofFn fun k : Fin parts => chunkLength count parts k).sum = count := by
  have hinitial : ∀ n, (List.ofFn fun k : Fin n => chunkLength count parts k).sum =
      bound count parts n := by
    intro n
    induction n with
    | zero => simp
    | succ n ih =>
      rw [List.ofFn_succ_last, List.sum_append, List.sum_singleton]
      exact (congrArg (· + _) ih).trans (bound_add_chunkLength count parts n)
  rw [hinitial, bound_parts count hparts]

/-- A chunk fits where the whole buffer does. -/
theorem chunkLength_mul_lt {count width limit : Nat} (hfit : count * width < limit)
    {parts k : Nat} (h : k < parts) : chunkLength count parts k * width < limit :=
  (Nat.mul_le_mul_right width (chunkLength_le count h)).trans_lt hfit

/-! ## The layout as it is computed -/

theorem range?_ofCount (count : Nat) {parts k : Nat} (h : k < parts) :
    (ofCount count parts).range? k =
      some (bound count parts k, bound count parts (k + 1)) := by
  have hget : ∀ l, l < parts → (ofCount count parts).offsets[l]? = some (bound count parts l) := by
    intro l hl
    rw [ofCount, getElem?_offsetsFrom _ _ _ _ _ _ hl, bound]
    simp
  have hstop : (ofCount count parts).offsets[k + 1]?.getD (ofCount count parts).total =
      bound count parts (k + 1) := by
    rcases Nat.lt_or_ge (k + 1) parts with hlt | hge
    · rw [hget _ hlt, Option.getD_some]
    · have hlast : k + 1 = parts := by omega
      rw [List.getElem?_eq_none (by simpa [ofCount] using hge), Option.getD_none, hlast,
        bound_parts _ (by omega)]
      rfl
  rw [range?, hget k h, hstop]
  rfl

theorem lt_of_range? {count parts k : Nat} {range : Nat × Nat}
    (h : (ofCount count parts).range? k = some range) : k < parts := by
  refine Nat.lt_of_not_le ?_
  intro hle
  have hnone : (ofCount count parts).offsets[k]? = none :=
    List.getElem?_eq_none (by simpa [ofCount] using hle)
  rw [range?, hnone] at h
  cases h

theorem length?_ofCount (count : Nat) {parts k : Nat} (h : k < parts) :
    (ofCount count parts).length? k = some (chunkLength count parts k) := by
  rw [length?, range?_ofCount count h]
  rfl

/-! ## Where a position lies -/

/-- Chunk `k` contains position `j`. -/
def Within (layout : ChunkLayout) (k j : Nat) : Prop :=
  ∃ start stop, layout.range? k = some (start, stop) ∧ start ≤ j ∧ j < stop

theorem within_ofCount {count parts k j : Nat} :
    (ofCount count parts).Within k j ↔
      k < parts ∧ bound count parts k ≤ j ∧ j < bound count parts (k + 1) := by
  constructor
  · rintro ⟨start, stop, hrange, hstart, hstop⟩
    have hk := lt_of_range? hrange
    rw [range?_ofCount count hk] at hrange
    cases hrange
    exact ⟨hk, hstart, hstop⟩
  · rintro ⟨hk, hstart, hstop⟩
    exact ⟨_, _, range?_ofCount count hk, hstart, hstop⟩

/-- Every position lies in exactly one chunk. -/
theorem existsUnique_within {count parts j : Nat} (hparts : 0 < parts) (hj : j < count) :
    ∃ k, (ofCount count parts).Within k j ∧
      ∀ l, (ofCount count parts).Within l j → l = k := by
  have hfind : ∀ l, j < bound count parts l →
      ∃ k < l, bound count parts k ≤ j ∧ j < bound count parts (k + 1) := by
    intro l
    induction l with
    | zero => exact fun h => absurd h (by simp)
    | succ l ih =>
      intro h
      rcases Nat.lt_or_ge j (bound count parts l) with hlt | hge
      · obtain ⟨k, hk, hwithin⟩ := ih hlt
        exact ⟨k, by omega, hwithin⟩
      · exact ⟨l, Nat.lt_succ_self l, hge, h⟩
  obtain ⟨k, hk, hstart, hstop⟩ := hfind parts (by rwa [bound_parts count hparts])
  refine ⟨k, within_ofCount.2 ⟨hk, hstart, hstop⟩, ?_⟩
  intro l hl
  obtain ⟨-, hstart', hstop'⟩ := within_ofCount.1 hl
  rcases Nat.lt_trichotomy l k with hlt | heq | hgt
  · have hle : bound count parts (l + 1) ≤ bound count parts k := bound_mono _ _ hlt
    omega
  · exact heq
  · have hle : bound count parts (k + 1) ≤ bound count parts l := bound_mono _ _ hgt
    omega

/-! ## The chunks of a buffer -/

/-- Chunk `k` of a buffer of `count` elements. -/
def chunk (count parts k : Nat) (xs : List α) : List α :=
  (xs.drop (bound count parts k)).take (chunkLength count parts k)

theorem length_chunk {count parts k : Nat} {xs : List α} (hxs : xs.length = count)
    (h : k < parts) : (chunk count parts k xs).length = chunkLength count parts k := by
  have hle := bound_le count (k := k + 1) h (Nat.zero_lt_of_lt h)
  have hlength := bound_add_chunkLength count parts k
  rw [chunk, List.length_take, List.length_drop, hxs]
  omega

/-- Combining chunk by chunk is combining the buffers. -/
theorem chunk_zipWith (count parts k : Nat) (f : α → β → γ) (xs : List α) (ys : List β) :
    chunk count parts k (List.zipWith f xs ys) =
      List.zipWith f (chunk count parts k xs) (chunk count parts k ys) := by
  rw [chunk, List.drop_zipWith, List.take_zipWith]
  rfl

/-- Two buffers that agree within a chunk have the same chunk. -/
theorem chunk_congr {count parts k : Nat} {xs ys : List α}
    (h : ∀ j, bound count parts k ≤ j → j < bound count parts (k + 1) → xs[j]? = ys[j]?) :
    chunk count parts k xs = chunk count parts k ys := by
  have hlength := bound_add_chunkLength count parts k
  ext1 j
  rw [chunk, chunk, List.getElem?_take, List.getElem?_take]
  split
  · rw [List.getElem?_drop, List.getElem?_drop]
    exact h _ (by omega) (by omega)
  · rfl

/-- The chunks put together are the buffer. -/
theorem flatten_chunks {count parts : Nat} (hparts : 0 < parts) {xs : List α}
    (hxs : xs.length = count) :
    (List.ofFn fun k : Fin parts => chunk count parts k xs).flatten = xs := by
  have hinitial : ∀ n, (List.ofFn fun k : Fin n => chunk count parts k xs).flatten =
      xs.take (bound count parts n) := by
    intro n
    induction n with
    | zero => simp
    | succ n ih =>
      rw [List.ofFn_succ_last, List.flatten_append, List.flatten_singleton]
      rw [← bound_add_chunkLength, List.take_add, ← ih]
      rfl
  rw [hinitial, bound_parts count hparts, ← hxs, List.take_length]

theorem cut?_ofCount {count parts : Nat} {xs : List α} (hxs : xs.length = count) :
    (ofCount count parts).cut? xs =
      some (List.ofFn fun k : Fin parts => chunk count parts k xs) := by
  have hlength : (ofCount count parts).offsets.length = parts := by
    simp [ofCount]
  have hofFn : (List.ofFn fun k : Fin parts => chunk count parts k xs) =
      (List.range parts).map fun k => chunk count parts k xs := by
    ext1 k
    by_cases hk : k < parts <;> simp [hk]
  rw [cut?, hlength, hofFn]
  refine mapM_eq_pure_map ?_
  intro k hk
  have hlt := List.mem_range.1 hk
  have hle := bound_le count hlt (Nat.zero_lt_of_lt hlt)
  rw [range?_ofCount count hlt]
  exact if_pos ⟨bound_le_succ _ _ _, by rwa [hxs]⟩

end ChunkLayout

end Collectives
