import Collectives.Proofs.FirstFailure
import Collectives.Proofs.Lifecycle
import Collectives.Proofs.BuiltinCollectives
import Collectives.Proofs.Partition

/-!
# Robustness

An operation that was built with a built-in algorithm and started withstands any transport
(`Operation.robust`).  Its run never dies: no index is out of range, no two buffers of different
lengths are merged, no sum, difference or product leaves the words.  A result has as many elements
as were asked for, or announced; and an error is that of a communication, or says of an announced
count that it is too large.  A task of an executor that began with such a run stands accordingly,
under every schedule (`Operation.Stands`).

In some places the programs compute without a check of their own: in the layout of the chunks, in a
few sums, and where recursive doubling merges two buffers.  There a check would always succeed
(`Operation.Guards`).
-/

namespace Collectives

/-! ## Layouts with checks -/

namespace ChunkLayout

/-- Where chunks begin, with every sum checked. -/
def offsetsFrom? (base extra i offset : Nat) : Nat → Option (List Nat)
  | 0 => some []
  | n + 1 => do
    let length ← Index.add? base (if i < extra then 1 else 0)
    let next ← Index.add? offset length
    let rest ← offsetsFrom? base extra (i + 1) next n
    return offset :: rest

/-- The layout of `count` elements in `parts` chunks, with every sum and the divisor checked. -/
def ofCount? (count parts : Nat) : Option ChunkLayout := do
  let extra ← Index.mod? count parts
  let offsets ← offsetsFrom? (count / parts) extra 0 0 parts
  return ⟨offsets, count⟩

/-- No check fails where all sums are words. -/
theorem offsetsFrom?_eq {base extra i offset n : Nat}
    (h : ∀ sum ∈ (tallyFrom base extra i offset n).2, sum < Index.limit) :
    offsetsFrom? base extra i offset n = some (offsetsFrom base extra i offset n) := by
  induction n generalizing i offset with
  | zero => rfl
  | succ n ih =>
    rw [tallyFrom] at h
    obtain ⟨hlength, h⟩ := List.forall_mem_cons.1 h
    obtain ⟨hnext, h⟩ := List.forall_mem_cons.1 h
    rw [offsetsFrom?, Index.add?, if_pos hlength, Option.bind_eq_bind, Option.bind_some, Index.add?,
      if_pos hnext, Option.bind_eq_bind, Option.bind_some, ih h, offsetsFrom, ← Nat.add_assoc]
    rfl

/-- No check fails for a buffer whose length is a word. -/
theorem ofCount?_eq {count parts : Nat} (hparts : 0 < parts) (hcount : count < Index.limit) :
    ofCount? count parts = some (ofCount count parts) := by
  have hoffsets := offsetsFrom?_eq (n := parts) fun _ hsum =>
    Nat.lt_of_le_of_lt (le_of_mem_tally hparts hsum) hcount
  rw [ofCount?, Index.mod?, if_neg (Nat.ne_of_gt hparts), Option.bind_eq_bind, Option.bind_some,
    hoffsets]
  rfl

end ChunkLayout

/-! ## Merges with checks -/

/-- What is done with a value matters only for the values that the first part may give. -/
theorem Program.Abides.bind_congr {t : Team} {α β : Type}
    {post : List Bytes → Except Error α → Prop}
    {agenda : List Bytes → List (Act t.size)} {p : Program α} {f g : α → Program β}
    (hp : p.Abides t post agenda) (h : ∀ heard a, post heard (.ok a) → f a = g a) :
    p >>= f = p >>= g := by
  induction hp with
  | ret ha => exact h [] _ ha
  | fail => rfl
  | @send post agenda dest data next _ hfailed ih =>
    rw [send_bind, send_bind]
    congr 1
    funext answer
    cases answer with
    | error cause =>
      rw [hfailed]
      rfl
    | ok => exact ih h
  | @recv post agenda src size next _ hsize hfailed ih =>
    rw [recv_bind, recv_bind]
    congr 1
    funext answer
    cases answer with
    | error cause =>
      rw [hfailed]
      rfl
    | ok data =>
      by_cases hdata : data.length = size
      · exact ih data hdata fun heard => h (data :: heard)
      · rw [hsize data hdata]
        rfl

namespace Allreduce

open Hypercube

variable {d : DataType}

/-- Merges a buffer with an incoming one, which has to be of the same length. -/
def merge? (merge : List d.Elem → List d.Elem → List d.Elem) (mine incoming : List d.Elem) :
    Option (List d.Elem) :=
  if incoming.length = mine.length then some (merge mine incoming) else none

/-- As `foldIn`, with the lengths checked. -/
def strictFoldIn (ex : Exchange) (r : Reducer d) (total inner excess : Nat)
    (buffer : List d.Elem) : Program (List d.Elem) :=
  if ex.localRank < excess then do
    let incoming ← recvBuffer d ex (ex.localRank + inner) total
    .demand (merge? r.reduce buffer incoming)
  else return buffer

/-- As `doublingRound`, with the lengths checked. -/
def strictRound (ex : Exchange) (r : Reducer d) (total : Nat) (buffer : List d.Elem) (k : Nat) :
    Program (List d.Elem) := do
  let partner := ex.localRank ^^^ (1 <<< k)
  let received ← ex.sendRecv partner (d.encode buffer) partner total
  let incoming ← .ofExcept (d.decode received)
  .demand (merge? (if partner < ex.localRank then r.reduceRev else r.reduce) buffer incoming)

/-- As `doublingRounds`, with the lengths checked. -/
def strictRounds (ex : Exchange) (r : Reducer d) (total : Nat) (buffer : List d.Elem) (k : Nat) :
    Nat → Program (List d.Elem)
  | 0 => return buffer
  | n + 1 => do
    let buffer ← strictRound ex r total buffer k
    strictRounds ex r total buffer (k + 1) n

/-- As `inside`, with the lengths checked. -/
def strictInside (ex : Exchange) (r : Reducer d) (total inner excess : Nat)
    (buffer : List d.Elem) : Program (List d.Elem) := do
  let buffer ← strictFoldIn ex r total inner excess buffer
  let buffer ← strictRounds ex r total buffer 0 (Nat.log2 ex.size)
  foldOut ex inner excess buffer
  return buffer

/-- As `doublingBuffer`, with the lengths checked. -/
def strictBuffer (ex : Exchange) (r : Reducer d) (buffer : List d.Elem) :
    Program (List d.Elem) := do
  if ex.size ≤ 1 ∨ buffer = [] then return buffer
  let total ← .demand (Index.mul? buffer.length d.width)
  let inner := Index.floorPow2 ex.size
  let excess ← .demand (Index.sub? ex.size inner)
  if inner ≤ ex.localRank then beyond ex total inner buffer
  else strictInside ex r total inner excess buffer

variable {t : Team} (r : Reducer d) {count : Nat} {buffer : List d.Elem}

theorem strictFoldIn_eq {l : Nat} {i : Fin t.size} (hbuffer : buffer.length = count) :
    strictFoldIn (t.exchange i) r (count * d.width) (2 ^ l) (t.size - 2 ^ l) buffer =
      foldIn (t.exchange i) r (count * d.width) (2 ^ l) (t.size - 2 ^ l) buffer := by
  rw [strictFoldIn, foldIn, t.localRank_exchange]
  by_cases hpartner : i.val < t.size - 2 ^ l
  · have hrecv : (recvBuffer d (t.exchange i) (i.val + 2 ^ l) (count * d.width)).Abides t
        (Gives fun xs => xs.length = count) _ :=
      abides_recvBuffer i ⟨_, Nat.add_lt_of_lt_sub hpartner⟩
    rw [if_pos hpartner, if_pos hpartner]
    refine hrecv.bind_congr fun _ incoming hincoming => ?_
    have hlength : incoming.length = count := hincoming
    rw [merge?, if_pos (hlength.trans hbuffer.symm)]
    rfl
  · rw [if_neg hpartner, if_neg hpartner]

theorem strictRound_eq {l : Nat} (hl : 2 ^ l ≤ t.size) {i : Fin t.size} (hi : i.val < 2 ^ l)
    {k : Nat} (hk : k < l) (hbuffer : buffer.length = count) :
    strictRound (t.exchange i) r (count * d.width) buffer k =
      doublingRound (t.exchange i) r (count * d.width) buffer k := by
  have hpartner := val_partner ((xor_lt hi hk).trans_le hl)
  have hexchange := t.abides_sendRecv i (partner i k) (partner i k) (d.encode buffer)
    (count * d.width)
  rw [hpartner] at hexchange
  rw [strictRound, doublingRound, t.localRank_exchange, Nat.one_shiftLeft]
  refine hexchange.bind_congr fun _ received hreceived => ?_
  obtain ⟨incoming, hdecode, hincoming⟩ := decode_of_length hreceived
  rw [hdecode]
  show Program.demand (merge? _ buffer incoming) = .ret _
  rw [merge?, if_pos (hincoming.trans hbuffer.symm)]
  split <;> rfl

theorem strictRounds_eq {l : Nat} (hl : 2 ^ l ≤ t.size) {i : Fin t.size} (hi : i.val < 2 ^ l)
    (k m : Nat) (h : k + m ≤ l) (hbuffer : buffer.length = count) :
    strictRounds (t.exchange i) r (count * d.width) buffer k m =
      doublingRounds (t.exchange i) r (count * d.width) buffer k m := by
  induction m generalizing k buffer with
  | zero => rfl
  | succ m ih =>
    have hk : k < l := by omega
    rw [strictRounds, doublingRounds, strictRound_eq r hl hi hk hbuffer]
    exact (abides_doublingRound r hl hi hk hbuffer).bind_congr fun _ buffer' hbuffer' =>
      ih (k + 1) (by omega) hbuffer'

/-- Recursive doubling merges buffers of the same length only. -/
theorem strictBuffer_eq (i : Fin t.size) (hfit : buffer.length * d.width < Index.limit) :
    strictBuffer (t.exchange i) r buffer = doublingBuffer (t.exchange i) r buffer := by
  have htotal : Index.mul? buffer.length d.width = some (buffer.length * d.width) := if_pos hfit
  have hexcess : Index.sub? t.size (2 ^ Nat.log2 t.size) =
      some (t.size - 2 ^ Nat.log2 t.size) := if_pos t.two_pow_log2_le
  rw [strictBuffer, doublingBuffer, t.size_exchange, t.localRank_exchange, htotal,
    Index.floorPow2, Nat.one_shiftLeft]
  dsimp only [Program.demand_some, Program.ret_bind]
  rw [hexcess]
  dsimp only [Program.demand_some, Program.ret_bind]
  by_cases hi : 2 ^ Nat.log2 t.size ≤ i.val
  · rw [if_pos hi, if_pos hi]
  · have hinside : strictInside (t.exchange i) r (buffer.length * d.width) (2 ^ Nat.log2 t.size)
        (t.size - 2 ^ Nat.log2 t.size) buffer =
          inside (t.exchange i) r (buffer.length * d.width) (2 ^ Nat.log2 t.size)
            (t.size - 2 ^ Nat.log2 t.size) buffer := by
      rw [strictInside, inside, strictFoldIn_eq r rfl, t.size_exchange]
      refine (abides_foldIn r rfl).bind_congr fun _ own hown => ?_
      rw [strictRounds_eq r t.two_pow_log2_le (Nat.lt_of_not_le hi) 0 _
        (Nat.le_of_eq (Nat.zero_add _)) hown]
    rw [if_neg hi, if_neg hi, hinside]

end Allreduce

/-! ## What an operation may end with -/

namespace Operation

variable (op : Operation)

/-- The number of elements of a result: what was declared, and in an allgatherv what all members
have announced. -/
def total (heard : List Bytes) : Nat :=
  match op.params with
  | .allgatherv => ∑ c, Allgatherv.announced op.exchange.place op.count heard c
  | _ => op.count

/-- The errors with which a run may end, given what it has encountered. -/
inductive Admits (log : List Encounter) : Error → Prop where
  /-- A send to a member has failed. -/
  | notSent {dest : Rank} {data : Bytes} {cause : Error} (hdest : dest ∈ op.exchange.group.ranks)
      (h : .sent dest data (.error cause) ∈ log) :
      Admits log (.collectiveFailed op.kind.name dest cause.message)
  /-- A receive from a member has failed. -/
  | notReceived {src : Rank} {cause : Error} (hsrc : src ∈ op.exchange.group.ranks)
      (h : .received src (.error cause) ∈ log) :
      Admits log (.collectiveFailed op.kind.name src cause.message)
  /-- A message of a member was not of the size that it should have been. -/
  | size {src : Rank} {data : Bytes} {expected : Nat} (hsrc : src ∈ op.exchange.group.ranks)
      (h : .received src (.ok data) ∈ log) (hsize : data.length ≠ expected) :
      Admits log (.unexpectedMessageSize src expected data.length)
  /-- Some member has announced a word of elements, but more than a word of bytes. -/
  | overflow (hparams : op.params = .allgatherv) (c : Fin op.exchange.team.size)
      (hcount : Allgatherv.announced op.exchange.place op.count (heard log) c < Index.limit)
      (hbig : Index.limit ≤
        Allgatherv.announced op.exchange.place op.count (heard log) c * op.dtype.width) :
      Admits log (.countOverflow (Allgatherv.announced op.exchange.place op.count (heard log) c)
        op.dtype)

/-- Where the programs compute without a check of their own, a check would succeed. -/
structure Guards : Prop where
  /-- Whatever is divided, it is divided by the number of members. -/
  divisor : op.exchange.size ≠ 0
  /-- The number of rounds of a ring. -/
  rounds : Index.sub? op.exchange.size 1 = some (op.exchange.size - 1)
  /-- Where the second pass of a ring starts. -/
  start : Index.add? op.exchange.localRank 1 = some (op.exchange.localRank + 1)
  /-- The position in a chain after that of the member. -/
  following : ∀ root position, Broadcast.position? op.exchange root = some position →
    Index.add? position 1 = some (position + 1)
  /-- The partner beyond the power of two, for those who have one. -/
  partner : op.exchange.localRank < op.exchange.size - Index.floorPow2 op.exchange.size →
    op.exchange.localRank + Index.floorPow2 op.exchange.size < op.exchange.size
  /-- The distances of recursive doubling. -/
  distance : ∀ k ≤ Nat.log2 op.exchange.size, 1 <<< k ≤ Index.floorPow2 op.exchange.size
  /-- The power of two, and the next one, from which it may be computed. -/
  power : 2 * Index.floorPow2 op.exchange.size < Index.limit
  /-- The layout of the chunks. -/
  layout : ChunkLayout.ofCount? op.count op.exchange.size =
    some (.ofCount op.count op.exchange.size)
  /-- The lengths of the buffers that recursive doubling merges. -/
  merges : ∀ (r : Reducer op.dtype) (buffer : List op.dtype.Elem),
    buffer.length * op.dtype.width < Index.limit →
      Allreduce.strictBuffer op.exchange r buffer = Allreduce.doublingBuffer op.exchange r buffer

/-- How a task that began with the run of a job can stand: it is under way, or it has ended with the
elements that it should have or with an error of those that are admitted.  It has not died. -/
inductive Stands (job : Job) : Status → Prop where
  | running {log : List Encounter} {p : Program Bytes}
      (h : (op.implementation.run job).Meets log p) : Stands job (.running p)
  | value {log : List Encounter} {bytes : Bytes} {xs : List op.dtype.Elem}
      (h : (op.implementation.run job).Meets log (.ret bytes))
      (hdecode : op.dtype.decode bytes = .ok xs) (hlength : xs.length = op.total (heard log)) :
      Stands job (.finished (.ok bytes))
  | error {log : List Encounter} {error : Error}
      (h : (op.implementation.run job).Meets log (.fail error)) (hadmits : op.Admits log error) :
      Stands job (.finished (.error error))

/-- The run of a job of an operation, whatever the transport answers. -/
structure Withstands (job : Job) : Prop where
  /-- It does not die. -/
  alive : ∀ log, ¬(op.implementation.run job).Meets log .crash
  /-- A result has exactly the elements that it should have, and the counts that were announced
  are words. -/
  exact : ∀ log bytes, (op.implementation.run job).Meets log (.ret bytes) →
    (∃ xs, op.dtype.decode bytes = .ok xs ∧ xs.length = op.total (heard log)) ∧
      (op.params = .allgatherv →
        ∀ c, Allgatherv.announced op.exchange.place op.count (heard log) c < Index.limit)
  /-- An error is that of a communication, or says of a count that it is too large. -/
  admits : ∀ log error, (op.implementation.run job).Meets log (.fail error) →
    op.Admits log error
  /-- So it is with a task of any executor, among any others and under every schedule. -/
  executed : ∀ {σ : Type} [Transport σ] (e₀ e : Executor σ) (k : TaskId),
    e₀.status? k = some (.running (op.implementation.run job)) → e₀.Reaches e →
      ∃ s, e.status? k = some s ∧ op.Stands job s
  guards : op.Guards

variable {op}

/-- A run that comes to nothing but such ends stands so wherever it has come to. -/
theorem stands_of_stems {job : Job}
    (halive : ∀ log, ¬(op.implementation.run job).Meets log .crash)
    (hexact : ∀ log bytes, (op.implementation.run job).Meets log (.ret bytes) →
      ∃ xs, op.dtype.decode bytes = .ok xs ∧ xs.length = op.total (heard log))
    (hadmits : ∀ log error, (op.implementation.run job).Meets log (.fail error) →
      op.Admits log error)
    {s : Status} (h : s.Stems (op.implementation.run job)) : op.Stands job s := by
  cases h with
  | running h => exact .running h
  | @finished log outcome h =>
    cases outcome with
    | ok bytes =>
      obtain ⟨xs, hdecode, hlength⟩ := hexact log bytes h
      exact .value h hdecode hlength
    | error error => exact .error h (hadmits log error h)
  | @crashed log h => exact absurd h (halive log)

theorem guards (hcount : op.count < Index.limit) : op.Guards := by
  have hsize := op.exchange.team.size_le
  have hlimit : 2 * UInt32.size < Index.limit := by decide
  have hpos : 0 < op.exchange.size := op.exchange.team.size_pos
  have hsum : op.exchange.localRank + 1 + op.exchange.size < Index.limit :=
    op.exchange.team.add_size_lt op.exchange.place (Nat.le_refl 1)
  have hfloor := Index.floorPow2_le hpos
  refine ⟨Nat.ne_of_gt hpos, if_pos hpos, if_pos (by omega), ?_, ?_, ?_, ?_,
    ChunkLayout.ofCount?_eq hpos hcount, ?_⟩
  · intro root position hposition
    have hlt := Index.behind?_lt hposition
    exact if_pos (by omega)
  · intro hpartner
    omega
  · intro k hk
    rw [Index.floorPow2, Nat.one_shiftLeft, Nat.one_shiftLeft]
    exact Nat.pow_le_pow_right (by decide) hk
  · have hle : op.exchange.size ≤ UInt32.size := hsize
    omega
  · intro r buffer hfit
    exact Allreduce.strictBuffer_eq r op.exchange.place hfit

/-- The job that is set going when these bytes are staged. -/
def job (op : Operation) (own : Bytes) : Job :=
  ⟨op.exchange, op.params, op.dtype, op.count, own⟩

/-- The number of bytes that are staged: as many as declared, or none where the input plays no
part. -/
def stagedBytes (op : Operation) : Nat :=
  if op.ignoresInput then 0 else op.count * op.dtype.width

theorem length_of_stage {d : DataType} {input : Option (List d.Elem)} {job : Job}
    (h : op.stage d input = .ok job) : job.input.length = op.stagedBytes := by
  have htype : d = op.dtype := by
    obtain ⟨_, -, hrest⟩ := exists_of_bind_eq_ok h
    obtain ⟨_, hcheck, -⟩ := exists_of_bind_eq_ok hrest
    exact checkType_eq_ok.1 hcheck
  subst htype
  unfold stagedBytes
  cases hignored : op.ignoresInput with
  | false =>
    obtain ⟨xs, -, hxs, hjob⟩ := of_stage h hignored
    rw [hjob, if_neg Bool.false_ne_true, DataType.length_encode, hxs]
  | true =>
    have hinput := (job_of_stage h).2
    unfold stageInput at hinput
    rw [hignored, if_pos rfl, Except.ok.injEq] at hinput
    rw [if_pos rfl, ← hinput]
    rfl

section

variable {own : Bytes}

theorem bounded_job (hfit : op.count * op.dtype.width < Index.limit)
    (hown : own.length = op.stagedBytes) : (op.job own).Bounded := by
  refine ⟨op.dtype.lt_of_mul_width_lt hfit, ?_⟩
  show own.length < Index.limit
  rw [hown, stagedBytes]
  split <;> omega

/-- A result has the elements that it should have. -/
theorem exact_of_ends (hown : own.length = op.stagedBytes) {heard : List Bytes} {bytes : Bytes}
    (h : (op.job own).Ends heard (.ok bytes)) :
    bytes.length = op.total heard * op.dtype.width ∧
      (op.params = .allgatherv →
        ∀ c, Allgatherv.announced op.exchange.place op.count heard c < Index.limit) := by
  unfold Job.Ends job at h
  unfold total
  unfold stagedBytes ignoresInput at hown
  cases hparams : op.params with
  | broadcast root =>
    simp only [hparams] at h hown ⊢
    refine ⟨h ?_, nofun⟩
    intro hroot
    rw [hown, if_neg]
    simpa using hroot.symm
  | allreduce reduction =>
    simp only [hparams] at h hown ⊢
    exact ⟨h.trans (hown.trans (if_neg Bool.false_ne_true)), nofun⟩
  | allgatherv =>
    simp only [hparams] at h hown ⊢
    rw [if_neg Bool.false_ne_true] at hown
    cases h with
    | complete hcounts hsum =>
      refine ⟨?_, fun _ => hcounts⟩
      rw [hsum, Finset.sum_mul]
      refine Finset.sum_congr rfl fun c _ => ?_
      unfold Allgatherv.segmentSize Allgatherv.announced
      split
      · exact hown
      · rfl

/-- The error of an attempt that has failed names the member with which it failed. -/
theorem admits_of_failure (hname : op.exchange.operation = op.kind.name) {log : List Encounter}
    {last : Encounter} {act : Act op.exchange.team.size} {error : Error} (hlast : last ∈ log)
    (hattempts : last.Attempts op.exchange.team act)
    (h : last.failure? op.exchange.team act = some error) : op.Admits log error := by
  have hoperation : op.exchange.team.operation = op.kind.name := hname
  cases last with
  | sent dest data answer =>
    cases act with
    | recv => cases hattempts
    | send j size =>
      have hdest : dest ∈ op.exchange.group.ranks := hattempts.1 ▸ op.exchange.team.rank_mem j
      cases answer with
      | ok => cases h
      | error cause =>
        cases h
        rw [hoperation]
        exact .notSent hdest hlast
  | received src answer =>
    cases act with
    | send => cases hattempts
    | recv j size =>
      have hsrc : src ∈ op.exchange.group.ranks :=
        (show src = op.exchange.team.rank j from hattempts) ▸ op.exchange.team.rank_mem j
      cases answer with
      | error cause =>
        cases h
        rw [hoperation]
        exact .notReceived hsrc hlast
      | ok data =>
        rw [Encounter.failure?] at h
        split at h
        · cases h
        · next hsize =>
          cases h
          exact .size hsrc hlast hsize

/-- The only error that a run makes on its own is that a count is too large. -/
theorem admits_of_ends (hfit : op.count * op.dtype.width < Index.limit)
    (hreduces : ∀ reduction, op.params = .allreduce reduction →
      ∃ r buffer, Reducer.resolve op.dtype reduction = .ok r ∧
        op.dtype.decode own = .ok buffer)
    {log : List Encounter} {error : Error} (h : (op.job own).Ends (heard log) (.error error)) :
    op.Admits log error := by
  unfold Job.Ends job at h
  cases hparams : op.params with
  | broadcast root =>
    simp only [hparams] at h
    exact absurd hfit h
  | allreduce reduction =>
    simp only [hparams] at h
    exact absurd (hreduces reduction hparams) h
  | allgatherv =>
    simp only [hparams] at h
    cases h with
    | overflow c hcount hbig => exact .overflow hparams c hcount hbig

/-- What is staged for an allreduce can be decoded, and its elements can be reduced. -/
theorem reduces_of_builtin {name : AlgorithmName} {reduction : ReduceOp}
    (hparams : op.params = .allreduce reduction)
    (hbuiltin : Registry.builtin.resolve ⟨op.kind, op.dtype, name⟩ = .ok op.implementation)
    (hvalid : op.implementation.validate op.params = .ok ())
    (hown : own.length = op.stagedBytes) :
    ∃ r buffer, Reducer.resolve op.dtype reduction = .ok r ∧
      op.dtype.decode own = .ok buffer := by
  have hkind : op.kind = .allreduce := by
    rw [Operation.kind, hparams]
    rfl
  have hreads : op.ignoresInput = false := by
    unfold ignoresInput
    rw [hparams]
  rw [hkind] at hbuiltin
  rw [hparams] at hvalid
  rw [stagedBytes, hreads, if_neg Bool.false_ne_true] at hown
  obtain ⟨r, hr⟩ := Allreduce.exists_reducer (Registry.of_resolve_builtin hbuiltin) hvalid
  obtain ⟨buffer, hbuffer, -⟩ := Allreduce.decode_of_length hown
  exact ⟨r, buffer, hr, hbuffer⟩

end

/-- Whatever the transport answers, the run of an operation that was built with a built-in algorithm
and started does not die, gives the elements that it should give, and fails with the error of a
communication only, or because a count that was announced is too large. -/
theorem robust {c : Communicator} {registry : Registry} {group : Group} {sequence : Nat}
    {request : Request} {name : AlgorithmName} {d : DataType} {input : Option (List d.Elem)}
    {job : Job} (hbuild : c.build registry group sequence request = .ok op)
    (hbuiltin : Registry.builtin.resolve ⟨op.kind, op.dtype, name⟩ = .ok op.implementation)
    (hstage : op.stage d input = .ok job) : op.Withstands job := by
  obtain ⟨hroot, hfit, hvalid, hname⟩ := Communicator.accepted_of_build hbuild
  have hown := length_of_stage hstage
  obtain ⟨own, rfl⟩ : ∃ own, job = op.job own := ⟨job.input, (job_of_stage hstage).1⟩
  have habides : (op.implementation.run (op.job own)).Abides op.exchange.team (op.job own).Ends
      ((op.job own).agenda name) := by
    refine Job.abides ?_ hroot (bounded_job hfit hown)
    exact hbuiltin
  have halive : ∀ log, ¬(op.implementation.run (op.job own)).Meets log .crash :=
    fun log => habides.not_meets_crash
  have hexact : ∀ log bytes, (op.implementation.run (op.job own)).Meets log (.ret bytes) →
      (∃ xs, op.dtype.decode bytes = .ok xs ∧ xs.length = op.total (heard log)) ∧
        (op.params = .allgatherv →
          ∀ c, Allgatherv.announced op.exchange.place op.count (heard log) c < Index.limit) := by
    intro log bytes hm
    obtain ⟨hbytes, hcounts⟩ := exact_of_ends hown (habides.of_meets_ret hm).1
    exact ⟨Allreduce.decode_of_length hbytes, hcounts⟩
  have hadmits : ∀ log error, (op.implementation.run (op.job own)).Meets log (.fail error) →
      op.Admits log error := by
    intro log error hm
    rcases habides.of_meets_fail hm with hends | ⟨before, last, act, rfl, -, hattempts, hfailure⟩
    · refine admits_of_ends hfit (fun reduction hparams => ?_) hends
      exact reduces_of_builtin hparams hbuiltin hvalid hown
    · exact admits_of_failure hname (by simp) hattempts hfailure
  refine ⟨halive, hexact, hadmits, ?_, guards (op.dtype.lt_of_mul_width_lt hfit)⟩
  intro σ _ e₀ e k hk hreaches
  obtain ⟨s, hs, hstems⟩ := Executor.stems_of_reaches hk hreaches
  have hvalues := fun log bytes hm => (hexact log bytes hm).1
  exact ⟨s, hs, stands_of_stems halive hvalues hadmits hstems⟩

/-- In a group of the ranks 2, 0 and 1, rank 2 announces more than a word of bytes to rank 0. -/
theorem robust_trio :
    let c : Communicator := ⟨⟨0, 3, by decide⟩, .standard, .empty⟩
    let op : Operation := ⟨.allgatherv, .int, 1, .ring, .ringAllgatherv,
      ⟨Team.trio.group (1 : Fin 3), .ofSequence 7 0, "allgatherv"⟩, .idle⟩
    let job : Job := ⟨op.exchange, .allgatherv, .int, 1, [7, 0, 0, 0]⟩
    let one : Bytes := [1, 0, 0, 0, 0, 0, 0, 0]
    let huge : Bytes := [0, 0, 0, 0, 0, 0, 0, 128]
    let log : List Encounter := [.sent 1 one (.ok ()), .received 2 (.ok huge),
      .sent 1 huge (.ok ()), .received 2 (.ok one)]
    c.build .builtin (Team.trio.group (1 : Fin 3)) 0 ⟨.allgatherv, .int, 1, none⟩ = .ok op ∧
      Registry.builtin.resolve ⟨op.kind, op.dtype, .ring⟩ = .ok op.implementation ∧
      op.stage .int (some [7]) = .ok job ∧ op.Withstands job ∧
      (op.implementation.run job).Meets log (.fail (.countOverflow (2 ^ 63) .int)) ∧
      op.Admits log (.countOverflow (2 ^ 63) .int) := by
  intro c op job one huge log
  have hbuild : c.build .builtin (Team.trio.group (1 : Fin 3)) 0 ⟨.allgatherv, .int, 1, none⟩ =
      .ok op := rfl
  have hbuiltin : Registry.builtin.resolve ⟨op.kind, op.dtype, .ring⟩ = .ok op.implementation := rfl
  have hstage : op.stage .int (some [7]) = .ok job := rfl
  have hmeets : (op.implementation.run job).Meets log (.fail (.countOverflow (2 ^ 63) .int)) := by
    cbv
    refine .sent (.received ?_)
    cbv
    refine .sent (.received ?_)
    cbv
    exact .refl _
  have hwithstands := robust hbuild hbuiltin hstage
  exact ⟨hbuild, hbuiltin, hstage, hwithstands, hmeets, hwithstands.admits log _ hmeets⟩

end Operation

end Collectives
