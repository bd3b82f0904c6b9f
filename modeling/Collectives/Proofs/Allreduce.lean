import Collectives.Allreduce
import Collectives.Proofs.Layout
import Collectives.Proofs.Rounds
import Mathlib.Data.Nat.Bitwise

/-!
# Allreduce programs

What the two allreduce programs have in common.  `Allreduce.member` carries one of them out
with a reducer that is already resolved, of which nothing is assumed; the program of a job is
of this form as soon as its parameters and its input are in order (`onWire_job`).

For a member of a team the programs are given by equations that are free of the bounds checks
(`ringBuffer_exchange`, `doublingBuffer_exchange`).

Whatever it is answered, a member communicates over its exchange only, and stops at the first
communication that fails (`through_ringBuffer`, `through_doublingBuffer`).
-/

namespace Collectives

/-- The call of a member with this operator and this buffer. -/
def Team.job (t : Team) {d : DataType} (i : Fin t.size) (op : ReduceOp)
    (buffer : List d.Elem) : Job where
  exchange := t.exchange i
  params := .allreduce op
  dtype := d
  count := buffer.length
  input := d.encode buffer

/-- There are members for all corners of the largest hypercube, and fewer than as many again. -/
theorem Team.two_pow_log2_le (t : Team) : 2 ^ Nat.log2 t.size ≤ t.size :=
  Nat.log2_self_le (Nat.ne_of_gt t.size_pos)

theorem Team.lt_two_pow_log2_succ (t : Team) : t.size < 2 ^ (Nat.log2 t.size + 1) :=
  Nat.lt_log2_self

namespace Allreduce

variable {d : DataType}

/-- Carries out a program for buffers of elements, and gives the result in wire form. -/
def member (program : Exchange → Reducer d → List d.Elem → Program (List d.Elem))
    (ex : Exchange) (r : Reducer d) (buffer : List d.Elem) : Program Bytes := do
  let result ← program ex r buffer
  return d.encode result

/-- The program of a call whose operator the type supports, and whose input is a whole number of
elements. -/
theorem onWire_eq {op : ReduceOp} {r : Reducer d} (hr : Reducer.resolve d op = .ok r)
    {algorithm : String} {job : Job} (hparams : job.params = .allreduce op) {buffer : List d.Elem}
    (hdecode : d.decode job.input = .ok buffer)
    (program : Exchange → Reducer d → List d.Elem → Program (List d.Elem)) :
    onWire d algorithm program job = member program job.exchange r buffer := by
  have hreducer : reducer d algorithm job.params = .ok r := by
    rw [hparams]
    exact hr
  rw [onWire, hreducer, hdecode]
  rfl

theorem onWire_job {op : ReduceOp} {r : Reducer d} (hr : Reducer.resolve d op = .ok r)
    {algorithm : String} {t : Team} {i : Fin t.size} {buffer : List d.Elem}
    (program : Exchange → Reducer d → List d.Elem → Program (List d.Elem)) :
    onWire d algorithm program (t.job i op buffer) = member program (t.exchange i) r buffer :=
  onWire_eq hr rfl (d.decode_encode buffer) program

theorem zipWith_ofFn {α β γ : Type} {n : Nat} (f : α → β → γ) (a : Fin n → α) (b : Fin n → β) :
    List.zipWith f (List.ofFn a) (List.ofFn b) = List.ofFn fun j => f (a j) (b j) := by
  refine List.ext_getElem (by simp) ?_
  intro k hk hk'
  simp

/-- What is received in the right size is a whole number of elements. -/
theorem decode_of_length {bytes : Bytes} {count : Nat} (h : bytes.length = count * d.width) :
    ∃ xs : List d.Elem, d.decode bytes = .ok xs ∧ xs.length = count := by
  refine ⟨d.readMany count bytes, ?_, d.length_readMany _ _⟩
  rw [DataType.decode, h, if_pos (Nat.mul_mod_left _ _), Nat.mul_div_cancel _ d.width_pos]

theorem length_reduce_of_eq (r : Reducer d) {count : Nat} {xs ys : List d.Elem}
    (hx : xs.length = count) (hy : ys.length = count) : (r.reduce xs ys).length = count := by
  rw [Reducer.length_reduce, hx, hy]
  exact Nat.min_self count

/-! ## The programs of a member of a team -/

section

variable (t : Team) (r : Reducer d) (i : Fin t.size) {buffer : List d.Elem}

/-- When the programs end at once, for a buffer of `n` elements. -/
theorem trivial_iff {n : Nat} (x : Fin n → d.Elem) :
    t.size ≤ 1 ∨ List.ofFn x = [] ↔ t.size = 1 ∨ n = 0 := by
  have hpos := t.size_pos
  rw [List.ofFn_eq_nil_iff]
  omega

theorem ringBuffer_of_trivial (h : t.size ≤ 1 ∨ buffer = []) :
    ringBuffer (t.exchange i) r buffer = .ret buffer := by
  rw [ringBuffer, t.size_exchange, if_pos h]
  rfl

/-- The chunks of the buffer go twice around the ring. -/
theorem ringBuffer_exchange (h : ¬(t.size ≤ 1 ∨ buffer = [])) :
    ringBuffer (t.exchange i) r buffer =
      ringPass (t.exchange i) (.ofCount buffer.length t.size) r.reduceRev i
          (List.ofFn fun c : Fin t.size => ChunkLayout.chunk buffer.length t.size c buffer) 0
          (t.size - 1) >>= fun chunks =>
        ringPass (t.exchange i) (.ofCount buffer.length t.size) (fun _ incoming => incoming)
            (i + 1) chunks 0 (t.size - 1) >>= fun chunks =>
          .ret chunks.flatten := by
  rw [ringBuffer, t.size_exchange, t.localRank_exchange, if_neg h]
  dsimp only
  rw [ChunkLayout.cut?_ofCount rfl]
  rfl

theorem doublingBuffer_of_trivial (h : t.size ≤ 1 ∨ buffer = []) :
    doublingBuffer (t.exchange i) r buffer = .ret buffer := by
  rw [doublingBuffer, t.size_exchange, if_pos h]
  rfl

theorem doublingBuffer_exchange (h : ¬(t.size ≤ 1 ∨ buffer = []))
    (hfit : buffer.length * d.width < Index.limit) :
    doublingBuffer (t.exchange i) r buffer =
      if 2 ^ Nat.log2 t.size ≤ i.val then
        beyond (t.exchange i) (buffer.length * d.width) (2 ^ Nat.log2 t.size) buffer
      else
        inside (t.exchange i) r (buffer.length * d.width) (2 ^ Nat.log2 t.size)
          (t.size - 2 ^ Nat.log2 t.size) buffer := by
  have htotal : Index.mul? buffer.length d.width = some (buffer.length * d.width) := if_pos hfit
  have hexcess : Index.sub? t.size (2 ^ Nat.log2 t.size) =
      some (t.size - 2 ^ Nat.log2 t.size) := if_pos t.two_pow_log2_le
  rw [doublingBuffer, t.size_exchange, t.localRank_exchange, if_neg h, htotal,
    Program.demand_some, Program.ret_bind, Index.floorPow2, Nat.one_shiftLeft]
  dsimp only
  rw [hexcess, Program.demand_some, Program.ret_bind]

theorem foldIn_exchange (total p : Nat) :
    foldIn (t.exchange i) r total p (t.size - p) buffer =
      if i.val + p < t.size then
        recvBuffer d (t.exchange i) (i + p) total >>= fun incoming =>
          .ret (r.reduce buffer incoming)
      else .ret buffer := by
  rw [foldIn, t.localRank_exchange]
  simp only [Nat.lt_sub_iff_add_lt, Program.pure_eq]

theorem foldOut_exchange (p : Nat) :
    foldOut (t.exchange i) p (t.size - p) buffer =
      if i.val + p < t.size then (t.exchange i).send (i + p) (d.encode buffer)
      else .ret () := by
  rw [foldOut, t.localRank_exchange]
  simp only [Nat.lt_sub_iff_add_lt, Program.pure_eq]

end

/-! ## Over the exchange only -/

variable (ex : Exchange) (r : Reducer d)

theorem through_ringRound (layout : ChunkLayout) (merge : List d.Elem → List d.Elem → List d.Elem)
    (chunks : List (List d.Elem)) (outIndex inIndex : Nat) :
    (ringRound ex layout merge chunks outIndex inIndex).Through ex := by
  refine (Program.Through.demand _).bind fun next => ?_
  refine (Program.Through.demand _).bind fun previous => ?_
  refine (Program.Through.demand _).bind fun outgoing => ?_
  refine (Program.Through.demand _).bind fun inLength => ?_
  refine (Program.Through.demand _).bind fun expected => ?_
  refine (ex.through_sendRecv _ _ _ _).bind fun received => ?_
  exact (Program.Through.ofExcept _).bind fun incoming => .demand _

theorem through_ringPass (layout : ChunkLayout) (merge : List d.Elem → List d.Elem → List d.Elem)
    (start n : Nat) (chunks : List (List d.Elem)) (step : Nat) :
    (ringPass ex layout merge start chunks step n).Through ex := by
  induction n generalizing chunks step with
  | zero => trivial
  | succ n ih =>
    refine (Program.Through.demand _).bind fun outIndex => ?_
    refine (Program.Through.demand _).bind fun inIndex => ?_
    exact (through_ringRound ex layout merge chunks _ _).bind fun chunks => ih chunks _

theorem through_ringBuffer (buffer : List d.Elem) : (ringBuffer ex r buffer).Through ex := by
  unfold ringBuffer
  split
  · trivial
  · refine (Program.Through.demand _).bind fun chunks => ?_
    refine (through_ringPass ex _ _ _ _ chunks 0).bind fun chunks => ?_
    exact (through_ringPass ex _ _ _ _ chunks 0).bind fun chunks => trivial

theorem through_recvBuffer (src total : Nat) : (recvBuffer d ex src total).Through ex :=
  (ex.through_recvExact src total).bind fun _ => .ofExcept _

theorem through_doublingRounds (total n : Nat) (buffer : List d.Elem) (k : Nat) :
    (doublingRounds ex r total buffer k n).Through ex := by
  induction n generalizing buffer k with
  | zero => trivial
  | succ n ih =>
    have hround : (doublingRound ex r total buffer k).Through ex := by
      refine (ex.through_sendRecv _ _ _ _).bind fun received => ?_
      exact (Program.Through.ofExcept _).bind fun incoming => trivial
    exact hround.bind fun buffer => ih buffer (k + 1)

theorem through_foldIn (total inner excess : Nat) (buffer : List d.Elem) :
    (foldIn ex r total inner excess buffer).Through ex := by
  unfold foldIn
  split
  · exact (through_recvBuffer ex _ total).bind fun incoming => trivial
  · trivial

theorem through_foldOut (inner excess : Nat) (buffer : List d.Elem) :
    (foldOut ex inner excess buffer).Through ex := by
  unfold foldOut
  split
  · exact ex.through_send _ _
  · trivial

theorem through_doublingBuffer (buffer : List d.Elem) :
    (doublingBuffer ex r buffer).Through ex := by
  unfold doublingBuffer
  split
  · trivial
  · refine (Program.Through.demand _).bind fun total => ?_
    refine (Program.Through.demand _).bind fun excess => ?_
    split
    · refine (Program.Through.demand _).bind fun partner => ?_
      exact (ex.through_send _ _).bind fun _ => through_recvBuffer ex partner total
    · refine (through_foldIn ex r total _ excess buffer).bind fun buffer => ?_
      refine (through_doublingRounds ex r total _ buffer 0).bind fun buffer => ?_
      exact (through_foldOut ex _ excess buffer).bind fun _ => trivial

theorem through_member {program : Exchange → Reducer d → List d.Elem → Program (List d.Elem)}
    {buffer : List d.Elem} (h : (program ex r buffer).Through ex) :
    (member program ex r buffer).Through ex :=
  h.bind fun _ => trivial

/-- When the programs for buffers all end with the same one along a plan, the members end with its
wire form. -/
theorem realizes_member {t : Team}
    {program : Exchange → Reducer d → List d.Elem → Program (List d.Elem)}
    {buffer : Fin t.size → List d.Elem} {plan : List (Round t.size)} {result : List d.Elem}
    (hthrough : ∀ i, (program (t.exchange i) r (buffer i)).Through (t.exchange i))
    (hruns : ∀ i, (program (t.exchange i) r (buffer i)).Runs (t.script plan i) (.ret result)) :
    t.Realizes plan (fun i => member program (t.exchange i) r (buffer i))
      fun _ => d.encode result where
  through i := through_member _ r (hthrough i)
  runs i := (hruns i).bind fun result => .ret (d.encode result)

end Allreduce

end Collectives
