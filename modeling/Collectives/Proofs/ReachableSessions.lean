import Collectives.Proofs.Requests

/-!
# Reachable sessions

A session is used through calls: groups and operations are built, operations are started, waited
for and closed, barriers are entered, communicators are let go.  In between, tasks take steps, in
any order.  `Reachable` collects the sessions to which this can lead.  A call may be refused, too;
then it changes nothing.

To the tasks and the network, all of this is a run with faults (`Reachable.faultyRun`): a call
starts at most one task, and it gives up the task of an operation that is closed or replaced.
-/

namespace Collectives

variable {σ : Type}

/-- The task may be started: it is an assigned one, and no other has its rank and its tag. -/
def Executor.Admits (assigned : Rank → Tag → Program Bytes → Prop) (e : Executor σ) (rank : Rank)
    (tag : Tag) (program : Program Bytes) : Prop :=
  assigned rank tag program ∧ ∀ task ∈ e.tasks, ¬(task.rank = rank ∧ task.tag = tag)

namespace Session

/-- The session after a call that has this result. -/
def after (s : Session σ) (result : Except Refusal (Session σ)) : Session σ :=
  result.toOption.getD s

/-! ## What calls and steps lead to -/

variable [Transport σ] {assigned : Rank → Tag → Program Bytes → Prop} {network : σ}

/-- The sessions to which calls can lead, while the tasks that were assigned take steps. -/
inductive Reachable (assigned : Rank → Tag → Program Bytes → Prop) (network : σ) :
    Session σ → Prop where
  | begun (registry : Registry) (communicators : List Communicator) :
      Reachable assigned network (ofCommunicators network registry communicators)
  | grouped {s : Session σ} (h : Reachable assigned network s) (rank : Rank) (name : String)
      (list : Option (List Rank)) : Reachable assigned network (s.after (s.group rank name list))
  | shared {s : Session σ} (h : Reachable assigned network s) (name other : String) :
      Reachable assigned network (s.after (s.share name other))
  | built {s : Session σ} (h : Reachable assigned network s) (rank : Rank) (groupName name : String)
      (request : Except Error Request) :
      Reachable assigned network (s.after (s.build rank groupName name request))
  | started {s : Session σ} (h : Reachable assigned network s) (name : String) (d : DataType)
      (input : Option (List d.Elem)) (inRuntime : Bool)
      (hassigned : ∀ op job, s.operations.get? name = some op → op.stage d input = .ok job →
        inRuntime = true →
          s.executor.Admits assigned op.rank op.exchange.tag (op.implementation.run job)) :
      Reachable assigned network (s.after (s.start name d input inRuntime))
  | waited {s : Session σ} (h : Reachable assigned network s) (name : String) (d : DataType) :
      Reachable assigned network (s.after ((s.wait name d).map Prod.snd))
  | closed {s : Session σ} (h : Reachable assigned network s) (name : String) :
      Reachable assigned network (s.after (s.close name))
  | departed {s : Session σ} (h : Reachable assigned network s) (rank : Rank) :
      Reachable assigned network (s.after (s.dropCommunicator rank))
  | entered {s : Session σ} (h : Reachable assigned network s) (rank : Rank)
      (groupName name : String)
      (hassigned : ∀ c id shared exchange, s.communicators.get? rank = some c →
        s.findGroup groupName = .ok (id, shared) →
        c.barrier shared.group shared.drawn = .ok exchange →
        s.executor.Admits assigned exchange.group.rank exchange.tag (Barrier.pass exchange)) :
      Reachable assigned network (s.after (s.barrier rank groupName name))
  | settled {s : Session σ} (h : Reachable assigned network s) : Reachable assigned network s.settle
  | stepped {s : Session σ} (h : Reachable assigned network s) (k : TaskId) :
      Reachable assigned network { s with executor := (s.executor.step k).2 }

section

variable {s s' : Session σ}

theorem faultyRun_drop (h : Executor.FaultyRun assigned network s.executor) (name : String) :
    Executor.FaultyRun assigned network (s.drop name).executor := by
  obtain hkept | ⟨_, task, -, -, hgiven⟩ := s.executor_drop name
  · rwa [hkept]
  · rw [hgiven]
    exact h.aborted task

theorem faultyRun_releaseDeparted (h : Executor.FaultyRun assigned network s.executor) :
    Executor.FaultyRun assigned network s.releaseDeparted.executor :=
  List.foldlRecOn _ _ h fun _ he rank _ => he.released rank

theorem faultyRun_settle (h : Executor.FaultyRun assigned network s.executor) :
    Executor.FaultyRun assigned network s.settle.executor :=
  .of_reaches h s.executor.reaches_settle

theorem faultyRun_of_build {rank : Rank} {groupName name : String} {request : Except Error Request}
    (h : Executor.FaultyRun assigned network s.executor)
    (hs : s.build rank groupName name request = .ok s') :
    Executor.FaultyRun assigned network s'.executor := by
  obtain ⟨c, id, shared, r, op, -, -, -, -, rfl⟩ := of_build hs
  refine faultyRun_releaseDeparted ?_
  have hdrawn : Executor.FaultyRun assigned network (s.draw id).executor := h
  exact faultyRun_drop hdrawn name

theorem faultyRun_of_close {name : String} (h : Executor.FaultyRun assigned network s.executor)
    (hs : s.close name = .ok s') : Executor.FaultyRun assigned network s'.executor := by
  obtain rfl := of_close hs
  exact faultyRun_settle (faultyRun_releaseDeparted (faultyRun_drop h name))

theorem faultyRun_of_dropCommunicator {rank : Rank}
    (h : Executor.FaultyRun assigned network s.executor)
    (hs : s.dropCommunicator rank = .ok s') : Executor.FaultyRun assigned network s'.executor := by
  obtain rfl := of_dropCommunicator hs
  exact faultyRun_releaseDeparted h

theorem faultyRun_of_barrier {rank : Rank} {groupName name : String}
    (h : Executor.FaultyRun assigned network s.executor)
    (hassigned : ∀ c id shared exchange, s.communicators.get? rank = some c →
      s.findGroup groupName = .ok (id, shared) →
      c.barrier shared.group shared.drawn = .ok exchange →
      s.executor.Admits assigned exchange.group.rank exchange.tag (Barrier.pass exchange))
    (hs : s.barrier rank groupName name = .ok s') :
    Executor.FaultyRun assigned network s'.executor := by
  obtain ⟨c, id, shared, hc, hgroup, ⟨e, -, rfl⟩ | ⟨exchange, hexchange, rfl⟩⟩ := of_barrier hs
  · exact h
  · obtain ⟨hp, hnew⟩ := hassigned c id shared exchange hc hgroup hexchange
    exact .requeued (.of_reaches (h.started hp hnew) (Executor.reaches_run _ _)) _

/-- A call that is refused changes nothing. -/
theorem faultyRun_after {result : Except Refusal (Session σ)}
    (h : Executor.FaultyRun assigned network s.executor)
    (hs : ∀ s', result = .ok s' → Executor.FaultyRun assigned network s'.executor) :
    Executor.FaultyRun assigned network (s.after result).executor := by
  cases result with
  | error refusal => exact h
  | ok s' => exact hs s' rfl

end

/-- What calls and steps do to the executor is a run with faults. -/
theorem Reachable.faultyRun {s : Session σ} (h : Reachable assigned network s) :
    Executor.FaultyRun assigned network s.executor := by
  induction h with
  | begun registry communicators => exact .begun
  | grouped h rank name list ih =>
    refine faultyRun_after ih fun s' hs => ?_
    obtain ⟨c, group, c', -, -, rfl⟩ := of_group hs
    exact ih
  | shared h name other ih =>
    refine faultyRun_after ih fun s' hs => ?_
    obtain ⟨id, -, rfl⟩ := of_share hs
    exact ih
  | built h rank groupName name request ih =>
    exact faultyRun_after ih fun s' hs => faultyRun_of_build ih hs
  | started h name d input inRuntime hassigned ih =>
    refine faultyRun_after ih fun s' hs => ?_
    obtain ⟨op, job, hop, hjob, hruntime, rfl⟩ := of_start hs
    obtain ⟨hp, hnew⟩ := hassigned op job hop hjob hruntime
    exact (ih.started hp hnew).requeued _
  | waited h name d ih =>
    refine faultyRun_after ih fun s' hs => ?_
    obtain ⟨⟨waited, s''⟩, hwait, rfl⟩ := exists_of_map_eq_ok hs
    obtain ⟨op, task, -, -, ⟨-, -, rfl⟩ | ⟨result, -, -, rfl⟩⟩ := of_wait hwait
    · exact ih
    · exact ih
  | closed h name ih => exact faultyRun_after ih fun s' hs => faultyRun_of_close ih hs
  | departed h rank ih => exact faultyRun_after ih fun s' hs => faultyRun_of_dropCommunicator ih hs
  | entered h rank groupName name hassigned ih =>
    exact faultyRun_after ih fun s' hs => faultyRun_of_barrier ih hassigned hs
  | settled h ih => exact faultyRun_settle ih
  | stepped h k ih => exact ih.stepped k

end Session

end Collectives
