import Collectives.Communicator
import Collectives.Proofs.DoublingAgenda
import Collectives.Proofs.CollectiveAgendas

/-!
# The first failure

For every job there is an agenda (`Job.agenda`), by which the member that carries it out with a
built-in algorithm abides, whatever the transport answers (`Job.abides`).  So in all of them the
first communication that fails is the last one, and the run ends with an error that names the
collective and the rank with which the communication failed (`stops_at_first_failure`).
-/

namespace Collectives

/-! ## The team of an exchange -/

namespace Exchange

variable (ex : Exchange)

/-- The members of the group that an exchange is a view of. -/
def team : Team where
  world := UInt32.size
  ranks := ex.group.ranks
  nonempty := List.ne_nil_of_length_pos (Nat.zero_lt_of_lt ex.group.localRank_lt)
  nodup := ex.group.nodup
  inWorld r _ := r.toNat_lt
  id := ex.group.id
  tag := ex.tag
  operation := ex.operation

/-- The member whose view it is. -/
def place : Fin ex.team.size := ⟨ex.group.localRank, ex.group.localRank_lt⟩

end Exchange

/-! ## The agenda of a job -/

namespace Job

variable (job : Job)

/-- The numbers of a job are words. -/
structure Bounded : Prop where
  count : job.count < Index.limit
  input : job.input.length < Index.limit

/-- What the member attempts in a broadcast: nothing where there are no elements. -/
def broadcastActs (name : AlgorithmName) (root : Fin job.exchange.team.size) :
    List (Act job.exchange.team.size) :=
  if job.count = 0 then []
  else match name with
    | .linear => Broadcast.chainActs root job.exchange.place job.input.length
        (job.count * job.dtype.width)
    | _ => Broadcast.flatActs root job.exchange.place job.input.length
        (job.count * job.dtype.width)

/-- What the member attempts in an allreduce: it has as many elements as there are in its input. -/
def allreduceActs (name : AlgorithmName) : List (Act job.exchange.team.size) :=
  match name with
  | .ring => RingOrder.ringAgenda job.dtype.width (fun _ => job.input.length / job.dtype.width)
      job.exchange.place
  | _ => Hypercube.doublingAgenda (Nat.log2 job.exchange.team.size) job.dtype.width
      (fun _ => job.input.length / job.dtype.width) job.exchange.place

/-- What the member attempts, given what it has heard. -/
def agenda (name : AlgorithmName) (heard : List Bytes) : List (Act job.exchange.team.size) :=
  match job.params with
  | .broadcast root =>
    if h : root < job.exchange.team.size then job.broadcastActs name ⟨root, h⟩ else []
  | .allreduce _ => job.allreduceActs name
  | .allgatherv => Allgatherv.gatherActs job.exchange.place job.input.length job.dtype.width
      job.count heard

/-- How a run can end of its own, when no communication has failed: with a result of this size, or
with an error where something was wrong from the beginning. -/
def Ends (heard : List Bytes) (outcome : Except Error Bytes) : Prop :=
  match job.params with
  | .broadcast root => GivesIf (job.count * job.dtype.width < Index.limit)
      (Broadcast.Full root job.exchange.localRank job.input (job.count * job.dtype.width)) heard
      outcome
  | .allreduce op => GivesIf (∃ r buffer, Reducer.resolve job.dtype op = .ok r ∧
        job.dtype.decode job.input = .ok buffer)
      (fun data => data.length = job.input.length) heard outcome
  | .allgatherv => Allgatherv.Ends job.exchange.place job.input.length job.count job.dtype heard
      outcome

end Job

/-! ## Whoever carries out a job abides by its agenda -/

namespace Allreduce

variable {d : DataType}

/-- What can be decoded is a whole number of elements. -/
theorem length_of_decode {bytes : Bytes} {xs : List d.Elem} (h : d.decode bytes = .ok xs) :
    bytes.length = xs.length * d.width := by
  unfold DataType.decode at h
  split at h
  · next hmod =>
    cases h
    rw [DataType.length_readMany]
    exact (Nat.div_mul_cancel (Nat.dvd_of_mod_eq_zero hmod)).symm
  · cases h

/-- The program for a buffer is that of a call, as soon as the operator and the input are in
order. -/
theorem abides_onWire {t : Team} {algorithm : String}
    (program : Exchange → Reducer d → List d.Elem → Program (List d.Elem))
    (acts : Nat → List (Act t.size)) (i : Fin t.size) (op : ReduceOp) (count : Nat) {input : Bytes}
    (hinput : input.length < Index.limit)
    (hprogram : ∀ (r : Reducer d) (buffer : List d.Elem), buffer.length * d.width < Index.limit →
      (program (t.exchange i) r buffer).Abides t (Gives fun xs => xs.length = buffer.length)
        fun _ => acts buffer.length) :
    (onWire d algorithm program ⟨t.exchange i, .allreduce op, d, count, input⟩).Abides t
      (GivesIf (∃ r buffer, Reducer.resolve d op = .ok r ∧ d.decode input = .ok buffer)
        fun data => data.length = input.length)
      fun _ => acts (input.length / d.width) := by
  cases hr : Reducer.resolve d op with
  | error e =>
    have hfail : onWire d algorithm program ⟨t.exchange i, .allreduce op, d, count, input⟩ =
        .fail e := by
      rw [onWire, reducer, hr]
      rfl
    rw [hfail]
    refine .fail ?_
    rintro ⟨r, buffer, hresolved, -⟩
    cases hresolved
  | ok r =>
    cases hbuffer : d.decode input with
    | error e =>
      have hfail : onWire d algorithm program ⟨t.exchange i, .allreduce op, d, count, input⟩ =
          .fail e := by
        rw [onWire, reducer, hr, hbuffer]
        rfl
      rw [hfail]
      refine .fail ?_
      rintro ⟨r, buffer, -, hdecode⟩
      cases hdecode
    | ok buffer =>
      have hlength := length_of_decode hbuffer
      have hcount : input.length / d.width = buffer.length := by
        rw [hlength, Nat.mul_div_cancel _ d.width_pos]
      rw [onWire_eq hr rfl hbuffer, hcount]
      have hmember : (member program (t.exchange i) r buffer).Abides t
          (Gives fun data => data.length = input.length) fun _ => acts buffer.length := by
        refine (hprogram r buffer (hlength ▸ hinput)).gives_bind_ret fun xs hxs => ⟨_, rfl, ?_⟩
        rw [DataType.length_encode, hxs, hlength]
      exact hmember.mono fun _ _ h => h.givesIf _ fun _ => id

end Allreduce

/-- The built-in algorithms that have an element type. -/
theorem Registry.mem_builtinFor {kind : Kind} {d : DataType} {name : AlgorithmName}
    {algorithm : Algorithm} (h : builtin.resolve ⟨kind, d, name⟩ = .ok algorithm) :
    (⟨kind, d, name⟩, algorithm) ∈ builtinFor d := by
  obtain ⟨d', -, hmem⟩ := List.mem_flatMap.1 (mem_of_resolve h)
  have hd : d = d' := by
    simp only [builtinFor, List.mem_cons, Prod.mk.injEq, AlgorithmKey.mk.injEq, List.not_mem_nil,
      or_false] at hmem
    rcases hmem with h | h | h | h | h <;> exact h.1.2.1
  rwa [← hd] at hmem

/-- Whatever the transport answers, a built-in algorithm abides by the agenda of its job. -/
theorem Job.abides {job : Job} {name : AlgorithmName} {algorithm : Algorithm}
    (hbuiltin : Registry.builtin.resolve ⟨job.params.kind, job.dtype, name⟩ = .ok algorithm)
    (hroot : Operation.checkRoot job.exchange.group job.params = .ok ())
    (hbounded : job.Bounded) :
    (algorithm.run job).Abides job.exchange.team job.Ends (job.agenda name) := by
  obtain ⟨ex, params, d, count, input⟩ := job
  have hmem := Registry.mem_builtinFor hbuiltin
  simp only [Registry.builtinFor, List.mem_cons, Prod.mk.injEq, AlgorithmKey.mk.injEq,
    List.not_mem_nil, or_false, true_and] at hmem
  cases params with
  | broadcast root =>
    have hlt : root < ex.team.size := by
      by_contra hge
      have hrefused := hroot.symm.trans (if_neg hge)
      cases hrefused
    obtain ⟨root, rfl⟩ : ∃ r : Fin ex.team.size, root = r := ⟨⟨root, hlt⟩, rfl⟩
    have hagenda : agenda ⟨ex, .broadcast root, d, count, input⟩ name =
        fun _ => broadcastActs ⟨ex, .broadcast root, d, count, input⟩ name root :=
      funext fun _ => dif_pos root.isLt
    rw [hagenda]
    rcases hmem with ⟨⟨-, rfl⟩, rfl⟩ | ⟨⟨-, rfl⟩, rfl⟩ | ⟨⟨⟨⟩, -⟩, -⟩ | ⟨⟨⟨⟩, -⟩, -⟩ | ⟨⟨⟨⟩, -⟩, -⟩
    · exact Broadcast.abides_sendToAll root ex.place input count
    · exact Broadcast.abides_linear root ex.place input count
  | allreduce op =>
    rcases hmem with ⟨⟨⟨⟩, -⟩, -⟩ | ⟨⟨⟨⟩, -⟩, -⟩ | ⟨⟨⟨⟩, -⟩, -⟩ | ⟨⟨-, rfl⟩, rfl⟩ | ⟨⟨-, rfl⟩, rfl⟩
    · exact Allreduce.abides_onWire Allreduce.ringBuffer
        (fun n => RingOrder.ringAgenda d.width (fun _ => n) ex.place) ex.place op count
        hbounded.input fun r _ hfit => Allreduce.abides_ringBuffer r hfit ex.place
    · exact Allreduce.abides_onWire Allreduce.doublingBuffer
        (fun n => Hypercube.doublingAgenda (Nat.log2 ex.team.size) d.width (fun _ => n) ex.place)
        ex.place op count hbounded.input
        fun r _ hfit => Allreduce.abides_doublingBuffer r hfit ex.place
  | allgatherv =>
    rcases hmem with ⟨⟨⟨⟩, -⟩, -⟩ | ⟨⟨⟨⟩, -⟩, -⟩ | ⟨⟨-, rfl⟩, rfl⟩ | ⟨⟨⟨⟩, -⟩, -⟩ | ⟨⟨⟨⟩, -⟩, -⟩
    exact Allgatherv.abides_ring ex.place input hbounded.count

/-- What has been checked of an operation when it is made; it is known by the name of its kind. -/
theorem Operation.accepted_of_create {group : Group} {sequence : Nat} {request : Request}
    {name : AlgorithmName} {algorithm : Algorithm} {op : Operation}
    (h : Operation.create group sequence request name algorithm = .ok op) :
    checkRoot op.exchange.group op.params = .ok () ∧ op.count * op.dtype.width < Index.limit ∧
      op.implementation.validate op.params = .ok () ∧ op.exchange.operation = op.kind.name := by
  obtain ⟨hroot, hfit, hvalid⟩ := of_create h
  obtain ⟨_, -, h⟩ := exists_of_bind_eq_ok h
  obtain ⟨_, -, h⟩ := exists_of_bind_eq_ok h
  obtain ⟨_, -, h⟩ := exists_of_bind_eq_ok h
  cases h
  exact ⟨hroot, payloadBytes_isOk.1 hfit, hvalid, rfl⟩

theorem Communicator.accepted_of_build {c : Communicator} {registry : Registry} {group : Group}
    {sequence : Nat} {request : Request} {op : Operation}
    (h : c.build registry group sequence request = .ok op) :
    Operation.checkRoot op.exchange.group op.params = .ok () ∧
      op.count * op.dtype.width < Index.limit ∧
      op.implementation.validate op.params = .ok () ∧ op.exchange.operation = op.kind.name := by
  obtain ⟨_, -, h⟩ := exists_of_bind_eq_ok h
  obtain ⟨_, -, h⟩ := exists_of_bind_eq_ok h
  obtain ⟨_, -, h⟩ := exists_of_bind_eq_ok h
  exact Operation.accepted_of_create h

/-- Whatever the transport answers, a member that carries out a built-in algorithm or a barrier
attempts the acts of its agenda, one after the other, and none after the first one that fails.  The
run then ends with the error of that act, which names the collective and the rank of the member with
which the act failed: either with what the transport said, or with the size that a message should
have had and the size that it has.  Where no act fails, a barrier ends without an error, and a job
as it should (`Job.Ends`). -/
theorem stops_at_first_failure :
    (∀ (job : Job) (name : AlgorithmName) (algorithm : Algorithm),
      Registry.builtin.resolve ⟨job.params.kind, job.dtype, name⟩ = .ok algorithm →
      Operation.checkRoot job.exchange.group job.params = .ok () → job.Bounded →
        (algorithm.run job).StopsAlong job.exchange.team job.Ends (job.agenda name)) ∧
    (∀ ex : Exchange, (Barrier.enter ex).StopsAlong ex.team (Gives fun _ => True) fun _ =>
      Barrier.strideActs ex.place 0 (Index.ceilLog2 ex.size)) ∧
    ∀ (c : Communicator) (group : Group) (sequence : Nat),
      (∀ registry request op, c.build registry group sequence request = .ok op →
        op.exchange.operation = op.kind.name) ∧
      ∀ ex, c.barrier group sequence = .ok ex → ex.operation = "barrier" := by
  refine ⟨?_, ?_, ?_⟩
  · intro job name algorithm hbuiltin hroot hbounded
    exact (Job.abides hbuiltin hroot hbounded).stopsAlong
  · intro ex
    exact (Barrier.abides_enter ex.place).stopsAlong
  · intro c group sequence
    constructor
    · intro registry request op h
      exact (Communicator.accepted_of_build h).2.2.2
    · intro ex h
      obtain ⟨_, -, h⟩ := exists_of_bind_eq_ok h
      cases h
      rfl

/-- The root of a flat broadcast in a group of the ranks 2, 0 and 1 gets its message through to
rank 0, but not to rank 1. -/
theorem stops_at_first_failure_trio :
    let job : Job := ⟨⟨Team.trio.group (0 : Fin 3), 1, "broadcast"⟩, .broadcast 0, .int, 1,
      [7, 0, 0, 0]⟩
    let error : Error := .collectiveFailed "broadcast" 1 (Error.peerDisconnected 1).message
    Registry.builtin.resolve ⟨.broadcast, .int, .sendToAll⟩ = .ok .sendToAll ∧
      Operation.checkRoot job.exchange.group job.params = .ok () ∧ job.Bounded ∧
      (Broadcast.sendToAll job).Meets
        [.sent 0 [7, 0, 0, 0] (.ok ()), .sent 1 [7, 0, 0, 0] (.error (.peerDisconnected 1))]
        (.fail error) ∧
      ∀ after q, (Broadcast.sendToAll job).Meets
        ([.sent 0 [7, 0, 0, 0] (.ok ())] ++
          .sent 1 [7, 0, 0, 0] (.error (.peerDisconnected 1)) :: after) q →
        after = [] ∧ q = .fail error := by
  intro job error
  have hbuiltin : Registry.builtin.resolve ⟨.broadcast, .int, .sendToAll⟩ = .ok .sendToAll := rfl
  have hroot : Operation.checkRoot job.exchange.group job.params = .ok () := rfl
  have hbounded : job.Bounded := ⟨by decide, by decide⟩
  refine ⟨hbuiltin, hroot, hbounded, .sent (.sent (.refl _)), ?_⟩
  intro after q hm
  exact (stops_at_first_failure.1 job .sendToAll .sendToAll hbuiltin hroot hbounded).stops _ _ after
    q (.send (2 : Fin 3) 4) error hm rfl rfl

end Collectives
