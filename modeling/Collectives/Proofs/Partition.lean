import Collectives.Proofs.Layout

/-!
# Balanced partitions

The chunks of a layout are laid out in one pass: where a chunk begins is noted, its length is
formed, and the sum of both is where the next one begins.  No next one follows the last chunk,
which ends at the total that the layout keeps apart.  That the two agree is what makes the layout
a partition (`balanced_ofCount`): the chunks follow one another from 0 up to the end of the buffer
without a gap, and the first ones take one element more than the others.  Where there are more
chunks than elements the last chunks are empty, and lie at the end of the buffer.

`tallyFrom` is the same pass with a record of its sums.  Before chunk `i` the pass stands at
`bound count parts i`, so the largest sum is the last one, which is the length of the buffer.
-/

namespace Collectives

namespace ChunkLayout

/-! ## The sums of the pass -/

/-- Where chunks begin, as in `offsetsFrom`, and all sums that are formed on the way: for each
chunk its length and where the next one begins. -/
def tallyFrom (base extra i offset : Nat) : Nat → List Nat × List Nat
  | 0 => ([], [])
  | n + 1 =>
    let length := base + if i < extra then 1 else 0
    let next := offset + length
    let rest := tallyFrom base extra (i + 1) next n
    (offset :: rest.1, length :: next :: rest.2)

/-- Where the chunks of `count` elements in `parts` chunks begin, and all sums that this takes. -/
def tally (count parts : Nat) : List Nat × List Nat :=
  tallyFrom (count / parts) (count % parts) 0 0 parts

/-- The record leaves the pass as it is. -/
theorem tallyFrom_fst (base extra i offset n : Nat) :
    (tallyFrom base extra i offset n).1 = offsetsFrom base extra i offset n := by
  induction n generalizing i offset with
  | zero => rfl
  | succ n ih => rw [tallyFrom, offsetsFrom, ih, Nat.add_assoc]

/-- No sum goes beyond where the last chunk ends. -/
theorem le_bound_of_mem_tallyFrom {count parts i n sum : Nat}
    (h : sum ∈ (tallyFrom (count / parts) (count % parts) i (bound count parts i) n).2) :
    sum ≤ bound count parts (i + n) := by
  induction n generalizing i with
  | zero => cases h
  | succ n ih =>
    have hnext : bound count parts (i + 1) ≤ bound count parts (i + (n + 1)) :=
      bound_mono _ _ (by omega)
    -- the pass goes on from where the next chunk begins
    rw [tallyFrom, ← bound_succ, ← chunkLength_eq] at h
    rcases List.mem_cons.1 h with rfl | h
    · have hlength := bound_add_chunkLength count parts i
      omega
    rcases List.mem_cons.1 h with rfl | h
    · exact hnext
    · rw [Nat.add_comm n 1, ← Nat.add_assoc]
      exact ih h

/-- No sum exceeds the length of the buffer. -/
theorem le_of_mem_tally {count parts sum : Nat} (hparts : 0 < parts)
    (h : sum ∈ (tally count parts).2) : sum ≤ count := by
  have hstart : tally count parts =
      tallyFrom (count / parts) (count % parts) 0 (bound count parts 0) parts := by
    rw [tally, bound_zero]
  rw [hstart] at h
  have hle := le_bound_of_mem_tallyFrom h
  rwa [Nat.zero_add, bound_parts count hparts] at hle

/-! ## The chunks of a layout -/

/-- A layout of `count` elements in `parts` chunks that follow one another, of which the first
`count % parts` have one element more than the others. -/
structure Balanced (layout : ChunkLayout) (count parts : Nat) : Prop where
  /-- There are `parts` chunks. -/
  isSome_range? : ∀ i, (layout.range? i).isSome ↔ i < parts
  first : ∃ stop, layout.range? 0 = some (0, stop)
  last : ∃ start, layout.range? (parts - 1) = some (start, count)
  /-- A chunk begins where the one before it ends. -/
  adjacent : ∀ {i start stop start' stop'}, layout.range? i = some (start, stop) →
    layout.range? (i + 1) = some (start', stop') → start' = stop
  /-- No chunk ends before it begins, or beyond the buffer. -/
  inside : ∀ {i start stop}, layout.range? i = some (start, stop) → start ≤ stop ∧ stop ≤ count
  ordered : ∀ {i j start stop start' stop'}, i < j → layout.range? i = some (start, stop) →
    layout.range? j = some (start', stop') → stop ≤ start'
  /-- Every element lies in exactly one chunk. -/
  existsUnique_within : ∀ {j}, j < count → ∃! i, layout.Within i j
  length?_eq : ∀ {i}, i < parts →
    layout.length? i = some (count / parts + if i < count % parts then 1 else 0)

theorem range?_ofCount_eq_some {count parts i : Nat} {range : Nat × Nat} :
    (ofCount count parts).range? i = some range ↔
      i < parts ∧ range = (bound count parts i, bound count parts (i + 1)) := by
  constructor
  · intro h
    have hi := lt_of_range? h
    rw [range?_ofCount count hi] at h
    exact ⟨hi, (Option.some.inj h).symm⟩
  · rintro ⟨hi, rfl⟩
    exact range?_ofCount count hi

/-- The layout of a buffer is balanced, and the pass that lays it out forms no sum beyond the
length of the buffer. -/
theorem balanced_ofCount (count : Nat) {parts : Nat} (hparts : 0 < parts) :
    (ofCount count parts).Balanced count parts ∧
      (tally count parts).1 = (ofCount count parts).offsets ∧
      ∀ sum ∈ (tally count parts).2, sum ≤ count := by
  refine ⟨?_, tallyFrom_fst _ _ _ _ _, fun sum hsum => le_of_mem_tally hparts hsum⟩
  exact {
    isSome_range? := by
      intro i
      rw [Option.isSome_iff_exists]
      exact ⟨fun ⟨_, h⟩ => lt_of_range? h, fun hi => ⟨_, range?_ofCount count hi⟩⟩
    first := ⟨_, range?_ofCount_eq_some.2 ⟨hparts, by rw [bound_zero]⟩⟩
    last := by
      have hlast : bound count parts (parts - 1 + 1) = count := by
        rw [Nat.sub_add_cancel hparts, bound_parts count hparts]
      exact ⟨_, range?_ofCount_eq_some.2 ⟨Nat.sub_lt hparts Nat.one_pos, by rw [hlast]⟩⟩
    adjacent := by
      intro i start stop start' stop' h h'
      cases (range?_ofCount_eq_some.1 h).2
      cases (range?_ofCount_eq_some.1 h').2
      rfl
    inside := by
      intro i start stop h
      obtain ⟨hi, hrange⟩ := range?_ofCount_eq_some.1 h
      cases hrange
      exact ⟨bound_le_succ count parts i, bound_le count hi hparts⟩
    ordered := by
      intro i j start stop start' stop' hij h h'
      cases (range?_ofCount_eq_some.1 h).2
      cases (range?_ofCount_eq_some.1 h').2
      exact bound_mono count parts hij
    existsUnique_within := fun hj => ChunkLayout.existsUnique_within hparts hj
    length?_eq := by
      intro i hi
      rw [length?_ofCount count hi, chunkLength_eq] }

/-- Five chunks of two elements: three of them are empty, and lie at the end. -/
theorem balanced_ofCount_scarce : 0 < 5 ∧
    ((List.range 5).map (ofCount 2 5).range? =
      [some (0, 1), some (1, 2), some (2, 2), some (2, 2), some (2, 2)]) ∧
    (ofCount 2 5).Balanced 2 5 ∧
    (tally 2 5).1 = (ofCount 2 5).offsets ∧ ∀ sum ∈ (tally 2 5).2, sum ≤ 2 :=
  ⟨by decide, by decide, balanced_ofCount 2 (by decide)⟩

end ChunkLayout

end Collectives
