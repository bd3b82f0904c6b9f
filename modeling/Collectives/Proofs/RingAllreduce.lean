import Collectives.Proofs.Allreduce
import Collectives.Proofs.Layout
import Collectives.Proofs.Ring
import Mathlib.Data.Fin.VecNotation

/-!
# The ring allreduce

Under every schedule the ring gives all members the same buffer.  Element `j` of it, in chunk
`c`, is the left fold of the combine function over the elements `j` of members `c`, `c + 1`, …,
once around the ring (`ringFold`, `delivers_ringBuffer`).  Nothing is assumed of the combine
function.

Each pass is a pass of the ring as in `Collectives.Proofs.Ring`.  In the first one slot `c` has
its home at member `c` and takes up the chunk of each member it comes to; in the second one it
has its home where the first one has left it, and replaces what it finds.
-/

namespace Collectives.Allreduce

open RingOrder

variable {d : DataType}

/-! ## One round and one pass -/

theorem mergeChunk?_ofFn {n : Nat} (slots : Fin n → List d.Elem) (i : Fin n)
    {incoming : List d.Elem} (h : incoming.length = (slots i).length)
    (merge : List d.Elem → List d.Elem → List d.Elem) :
    mergeChunk? (List.ofFn slots) i incoming merge =
      some (List.ofFn (Function.update slots i (merge (slots i) incoming))) := by
  have hget : (List.ofFn slots)[i.val]? = some (slots i) := by simp
  rw [mergeChunk?, hget]
  show (if incoming.length = (slots i).length then _ else none) = _
  rw [if_pos h, set_ofFn]

variable {t : Team}

theorem runs_ringRound {layout : ChunkLayout}
    (merge : List d.Elem → List d.Elem → List d.Elem) (i out into : Fin t.size)
    (slots : Fin t.size → List d.Elem) (incoming : List d.Elem)
    (hlength : layout.length? into = some incoming.length)
    (hfit : incoming.length * d.width < Index.limit)
    (hslot : incoming.length = (slots into).length) :
    (ringRound (t.exchange i) layout merge (List.ofFn slots) out into).Runs
      [.sent (t.rank (ahead i 1)) (d.encode (slots out)),
        .received (t.rank (behind i 1)) (d.encode incoming)]
      (.ret (List.ofFn (Function.update slots into (merge (slots into) incoming)))) := by
  have hout : (List.ofFn slots)[out.val]? = some (slots out) := by simp
  have hexpected : Index.mul? incoming.length d.width = some (incoming.length * d.width) :=
    if_pos hfit
  have hexchange := t.runs_sendRecv i (ahead i 1) (behind i 1) (d.encode (slots out))
    (d.length_encode incoming)
  rw [ringRound, t.size_exchange, t.localRank_exchange, t.ahead?_one, t.behind?_val i i.pos, hout,
    hlength]
  simp only [Program.demand_some, Program.ret_bind, hexpected]
  have hrun := hexchange.bind fun received => do
    let incoming ← .ofExcept (d.decode received)
    .demand (mergeChunk? (List.ofFn slots) into incoming merge)
  simpa only [Program.ofExcept_ok, Program.ret_bind, mergeChunk?_ofFn slots into hslot,
    Program.demand_some, DataType.decode_encode] using hrun

/-- The rounds of one pass, where the slots are all of the lengths in the layout. -/
theorem runs_ringPass {layout : ChunkLayout} (merge : List d.Elem → List d.Elem → List d.Elem)
    {lead : Nat} (hlead : lead ≤ 1) {length : Fin t.size → Nat}
    (carried : Fin t.size → Nat → List d.Elem) (own : Fin t.size → Fin t.size → List d.Elem)
    (hlayout : ∀ c : Fin t.size, layout.length? c = some (length c))
    (hfit : ∀ c, length c * d.width < Index.limit)
    (hcarried : ∀ c k, (carried c k).length = length c)
    (hown : ∀ i c, (own i c).length = length c)
    (hmerge : ∀ i c k, gap (ahead i lead) c = k + 1 →
      merge (own i c) (carried c k) = carried c (k + 1))
    (i : Fin t.size) (step m : Nat) (h : step + m < t.size) :
    (ringPass (t.exchange i) layout merge (i + lead)
      (List.ofFn (held lead carried own step i)) step m).Runs
        (t.script (shifts (fun k i => d.encode (carried (behind (ahead i lead) k) k)) step m) i)
        (.ret (List.ofFn (held lead carried own (step + m) i))) := by
  induction m generalizing step with
  | zero => exact .refl _
  | succ m ih =>
    have hslot : held lead carried own step i (behind (ahead i lead) (step + 1)) =
        own i (behind (ahead i lead) (step + 1)) :=
      held_of_lt lead carried own (by rw [gap_behind _ (by omega)]; omega)
    have hround := runs_ringRound merge i (behind (ahead i lead) step)
      (behind (ahead i lead) (step + 1)) (held lead carried own step i)
      (carried (behind (ahead i lead) (step + 1)) step)
      (by rw [hcarried, hlayout]) (by rw [hcarried]; exact hfit _)
      (by rw [hslot, hcarried, hown])
    rw [hslot, hmerge i _ step (gap_behind _ (by omega)), ← held_succ lead carried own i (by omega),
      held_behind lead carried own i (by omega)] at hround
    have hrest := ih (step + 1) (by omega)
    rw [Nat.add_assoc, Nat.add_comm 1 m] at hrest
    rw [ringPass, t.size_exchange, t.behind?_add i hlead (by omega),
      t.behind?_add i hlead (by omega), shifts_succ, t.script_shift_cons,
      slot_previous i (by omega)]
    exact hround.bind_ret hrest

/-! ## What a chunk has become on its way -/

variable {n : Nat} (r : Reducer d) (x : Fin t.size → Fin n → d.Elem)

/-- The left fold over the elements of member `c` and the `k` members after it. -/
def ringFold (c : Fin t.size) (k : Nat) (j : Fin n) : d.Elem :=
  ((List.range k).map fun s => x (ahead c (s + 1)) j).foldl r.combine (x c j)

theorem ringFold_succ (c : Fin t.size) (k : Nat) (j : Fin n) :
    ringFold r x c (k + 1) j = r.combine (ringFold r x c k j) (x (ahead c (k + 1)) j) := by
  simp [ringFold, List.range_succ]

/-- Chunk `c` after `k` places in the first pass. -/
def combined (c : Fin t.size) (k : Nat) : List d.Elem :=
  ChunkLayout.chunk n t.size c (List.ofFn (ringFold r x c k))

/-- The chunks into which a member cuts its own buffer. -/
def ownChunk (i c : Fin t.size) : List d.Elem :=
  ChunkLayout.chunk n t.size c (List.ofFn (x i))

theorem length_combined (c : Fin t.size) (k : Nat) :
    (combined r x c k).length = ChunkLayout.chunkLength n t.size c :=
  ChunkLayout.length_chunk List.length_ofFn c.isLt

theorem length_ownChunk (i c : Fin t.size) :
    (ownChunk x i c).length = ChunkLayout.chunkLength n t.size c :=
  ChunkLayout.length_chunk List.length_ofFn c.isLt

/-- The member where a chunk comes to puts its own operand on the right. -/
theorem reduceRev_ownChunk {i c : Fin t.size} {k : Nat} (h : gap i c = k + 1) :
    r.reduceRev (ownChunk x i c) (combined r x c k) = combined r x c (k + 1) := by
  have hi : ahead c (k + 1) = i := by rw [← h, ahead_gap]
  have hfold : ringFold r x c (k + 1) = fun j => r.combine (ringFold r x c k j) (x i j) := by
    funext j
    rw [ringFold_succ, hi]
  rw [Reducer.reduceRev, combined, ownChunk, ← ChunkLayout.chunk_zipWith, zipWith_ofFn, combined,
    hfold]

/-! ## The whole program -/

/-- The two passes of a ring. -/
def ringPlan : List (Round t.size) :=
  shifts (fun k i => d.encode (combined r x (behind i k) k)) 0 (t.size - 1) ++
    shifts (fun k i => d.encode (combined r x (behind (ahead i 1) k) (t.size - 1))) 0
      (t.size - 1)

theorem runs_ringBuffer (hn : n * d.width < Index.limit) (h : ¬(t.size = 1 ∨ n = 0))
    (i : Fin t.size) :
    (ringBuffer (t.exchange i) r (List.ofFn (x i))).Runs (t.script (ringPlan r x) i)
      (.ret (List.ofFn fun c => combined r x c (t.size - 1)).flatten) := by
  have hlayout : ∀ c : Fin t.size, (ChunkLayout.ofCount n t.size).length? c =
      some (ChunkLayout.chunkLength n t.size c) := fun c => ChunkLayout.length?_ofCount n c.isLt
  have hfit : ∀ c : Fin t.size, ChunkLayout.chunkLength n t.size c * d.width < Index.limit :=
    fun c => ChunkLayout.chunkLength_mul_lt hn c.isLt
  have hreturn : ¬(t.size ≤ 1 ∨ List.ofFn (x i) = []) := by rwa [trivial_iff]
  have hpos := t.size_pos
  have hmerge : ∀ i c k, gap (ahead i 0) c = k + 1 →
      r.reduceRev (ownChunk x i c) (combined r x c k) = combined r x c (k + 1) := by
    intro i c k hgap
    rw [ahead_zero] at hgap
    exact reduceRev_ownChunk r x hgap
  -- the first pass leaves with each member what its slots have become on their way to it
  have hfirst := runs_ringPass r.reduceRev (Nat.zero_le 1) (combined r x) (ownChunk x) hlayout
    hfit (length_combined r x) (length_ownChunk x) hmerge i 0 (t.size - 1) (by omega)
  rw [held_zero _ _ _ fun i => by rw [ahead_zero]; rfl] at hfirst
  -- the second one sets out from there
  have hheld : ∀ i c, held 0 (combined r x) (ownChunk x) (t.size - 1) i c =
      combined r x c (gap i c) := by
    intro i c
    rw [held_last, ahead_zero]
  have hsecond := runs_ringPass (fun _ incoming => incoming) (Nat.le_refl 1)
    (fun c _ => combined r x c (t.size - 1))
    (held 0 (combined r x) (ownChunk x) (t.size - 1)) hlayout hfit
    (fun c _ => length_combined r x c _) (fun i c => by rw [hheld, length_combined])
    (fun _ _ _ _ => rfl) i 0 (t.size - 1) (by omega)
  rw [held_zero _ _ _ fun i => by rw [hheld, gap_ahead_one]] at hsecond
  rw [Nat.zero_add] at hfirst hsecond
  have hend : held 1 (fun c _ => combined r x c (t.size - 1))
      (held 0 (combined r x) (ownChunk x) (t.size - 1)) (t.size - 1) i =
        fun c => combined r x c (t.size - 1) := by
    funext c
    rw [held_last]
  rw [hend] at hsecond
  simp only [ahead_zero, Nat.add_zero] at hfirst
  rw [ringBuffer_exchange t r i hreturn, List.length_ofFn, ringPlan, t.script_append]
  exact hfirst.bind_ret (hsecond.bind fun chunks => .ret chunks.flatten)

/-- Each element lies in one chunk. -/
theorem exists_chunk (t : Team) {n : Nat} (j : Fin n) :
    ∃ c : Fin t.size, (ChunkLayout.ofCount n t.size).Within c j ∧
      ∀ k, (ChunkLayout.ofCount n t.size).Within k j → k = c := by
  obtain ⟨c, hc, hunique⟩ := ChunkLayout.existsUnique_within t.size_pos j.isLt
  exact ⟨⟨c, (ChunkLayout.within_ofCount.1 hc).1⟩, hc, hunique⟩

/-- In the end each chunk holds the folds that begin at the member with its number. -/
theorem combined_eq_chunk {owner : Fin n → Fin t.size}
    (h : ∀ (j : Fin n) (k : Nat), (ChunkLayout.ofCount n t.size).Within k j → k = owner j)
    (c : Fin t.size) :
    combined r x c (t.size - 1) = ChunkLayout.chunk n t.size c
      (List.ofFn fun j => ringFold r x (owner j) (t.size - 1) j) := by
  refine ChunkLayout.chunk_congr ?_
  intro j hstart hstop
  rcases Nat.lt_or_ge j n with hj | hj
  · have hc := h ⟨j, hj⟩ c (ChunkLayout.within_ofCount.2 ⟨c.isLt, hstart, hstop⟩)
    simp only [List.getElem?_ofFn, dif_pos hj, ← Fin.ext hc]
  · rw [List.getElem?_eq_none (by simpa using hj), List.getElem?_eq_none (by simpa using hj)]

/-- A single member has nothing to fold. -/
theorem ofFn_eq_of_trivial (owner : Fin n → Fin t.size) (h : t.size = 1 ∨ n = 0)
    (i : Fin t.size) :
    List.ofFn (x i) = List.ofFn fun j => ringFold r x (owner j) (t.size - 1) j := by
  congr 1
  funext j
  have hsize : t.size - 1 = 0 := by
    rcases h with hsize | rfl
    · omega
    · exact j.elim0
  have howner : owner j = i := by
    have hi := i.isLt
    have hj := (owner j).isLt
    exact Fin.ext (by omega)
  rw [hsize, howner]
  rfl

/-- A plan for the ring and the buffer with which all members end. -/
theorem exists_ringPlan (hn : n * d.width < Index.limit) :
    ∃ (result : Fin n → d.Elem) (plan : List (Round t.size)),
      (∀ j : Fin n, ∃ c : Fin t.size, (ChunkLayout.ofCount n t.size).Within c j ∧
        (∀ k, (ChunkLayout.ofCount n t.size).Within k j → k = c) ∧
        result j = ringFold r x c (t.size - 1) j) ∧
      (¬(t.size = 1 ∨ n = 0) → plan = ringPlan r x) ∧
      ∀ i, (ringBuffer (t.exchange i) r (List.ofFn (x i))).Runs (t.script plan i)
        (.ret (List.ofFn result)) := by
  choose owner hwithin hunique using fun j : Fin n => exists_chunk t j
  have hspec : ∀ j : Fin n, ∃ c : Fin t.size, (ChunkLayout.ofCount n t.size).Within c j ∧
      (∀ k, (ChunkLayout.ofCount n t.size).Within k j → k = c) ∧
      ringFold r x (owner j) (t.size - 1) j = ringFold r x c (t.size - 1) j :=
    fun j => ⟨owner j, hwithin j, hunique j, rfl⟩
  by_cases htrivial : t.size = 1 ∨ n = 0
  · refine ⟨_, [], hspec, fun h => absurd htrivial h, ?_⟩
    intro i
    rw [ringBuffer_of_trivial t r i ((trivial_iff t (x i)).2 htrivial),
      ofFn_eq_of_trivial r x owner htrivial i]
    exact .refl _
  · refine ⟨_, ringPlan r x, hspec, fun _ => rfl, ?_⟩
    intro i
    have hruns := runs_ringBuffer r x hn htrivial i
    simp only [combined_eq_chunk r x hunique] at hruns
    rwa [ChunkLayout.flatten_chunks t.size_pos List.length_ofFn] at hruns

/-- Under every schedule all members of a ring allreduce end with the same buffer.  Each of its
elements lies in one chunk, and is the left fold over the members once around the ring, from
the one with the number of that chunk.  So it is with any combine function, and in particular
with the one that the operator of a call stands for. -/
theorem delivers_ringBuffer (t : Team) (r : Reducer d) {n : Nat}
    (x : Fin t.size → Fin n → d.Elem) (hn : (payloadBytes n d).isOk) :
    ∃ result : Fin n → d.Elem,
      (∀ j : Fin n, ∃ c : Fin t.size, (ChunkLayout.ofCount n t.size).Within c j ∧
        (∀ k, (ChunkLayout.ofCount n t.size).Within k j → k = c) ∧
        result j = ((List.range (t.size - 1)).map fun s => x (ahead c (s + 1)) j).foldl
          r.combine (x c j)) ∧
      ((t.run fun i => member ringBuffer (t.exchange i) r (List.ofFn (x i))).Delivers
        fun _ : Fin t.size => d.encode (List.ofFn result)) ∧
      ∀ op, Reducer.resolve d op = .ok r →
        (t.run fun i => ring d (t.job i op (List.ofFn (x i)))).Delivers
          fun _ : Fin t.size => d.encode (List.ofFn result) := by
  obtain ⟨result, plan, hspec, -, hruns⟩ := exists_ringPlan r x (payloadBytes_isOk.1 hn)
  have hdelivers : (t.run fun i => member ringBuffer (t.exchange i) r (List.ofFn (x i))).Delivers
      fun _ : Fin t.size => d.encode (List.ofFn result) :=
    (realizes_member r (fun i => through_ringBuffer _ r _) hruns).delivers
  refine ⟨result, hspec, hdelivers, ?_⟩
  intro op hop
  simp only [ring, onWire_job hop]
  exact hdelivers

/-- Subtraction is neither associative nor commutative: one element is `(1 - 10) - 100`, the
other, one member further on, `(20 - 200) - 2`. -/
theorem delivers_ringBuffer_trio :
    (payloadBytes 2 .int).isOk ∧
      (Team.trio.run fun i => member ringBuffer (Team.trio.exchange i)
        (⟨.sum, fun a b => a - b⟩ : Reducer .int)
        (List.ofFn ((![![1, 2], ![10, 20], ![100, 200]] : Fin 3 → Fin 2 → Int32) i))).Delivers
          fun _ : Fin 3 => DataType.int.encode [-109, -182] := by
  have hfit : (payloadBytes 2 .int).isOk := by decide
  refine ⟨hfit, ?_⟩
  obtain ⟨result, hspec, hdelivers, -⟩ := delivers_ringBuffer Team.trio
    (⟨.sum, fun a b => a - b⟩ : Reducer .int)
    (![![1, 2], ![10, 20], ![100, 200]] : Fin 3 → Fin 2 → Int32) hfit
  have hfirst : result 0 = -109 := by
    obtain ⟨c, -, hunique, hc⟩ := hspec 0
    have h0 : (0 : Nat) = c := hunique 0 ⟨0, 1, by decide, by decide, by decide⟩
    obtain rfl : c = (0 : Fin 3) := Fin.ext h0.symm
    rw [hc]
    decide
  have hsecond : result 1 = -182 := by
    obtain ⟨c, -, hunique, hc⟩ := hspec 1
    have h1 : (1 : Nat) = c := hunique 1 ⟨1, 2, by decide, by decide, by decide⟩
    obtain rfl : c = (1 : Fin 3) := Fin.ext h1.symm
    rw [hc]
    decide
  have hresult : List.ofFn result = [-109, -182] := by
    rw [← hfirst, ← hsecond]
    simp
  rw [← hresult]
  exact hdelivers

end Collectives.Allreduce
