import Collectives.Executor

/-!
# Schedules

A schedule is any order in which the tasks of an executor take their steps.  `Reaches`
collects the states to which some schedule leads: any task may be asked to step at any
time, also one that can only wait, and the queue of those whose turn is to come counts for
nothing.  The executor's own order is one of these (`reaches_settle`), and none of them takes
steps forever (`wellFounded_steps`).

Recording the traffic changes nothing: a schedule on a recorded network and the same
schedule on the network go through the same states (`step_forget`, `exists_of_forget`).
-/

namespace Collectives

namespace Recorded

variable {σ : Type} [Transport σ]

/-- A send is answered, and done, as on the network itself. -/
theorem send_network (r : Recorded σ) (own dest : Rank) (tag : Tag) (data : Bytes) :
    Transport.send r.network own dest tag data =
      ((Transport.send r own dest tag data).1, (Transport.send r own dest tag data).2.network) := by
  simp only [Transport.send]
  split <;> simp only [Recorded.note, *]

/-- A receive is answered, and done, as on the network itself. -/
theorem receive_network (r : Recorded σ) (own src : Rank) (tag : Tag) :
    Transport.receive r.network own src tag =
      ((Transport.receive r own src tag).1, (Transport.receive r own src tag).2.network) := by
  simp only [Transport.receive]
  split <;> simp only [Recorded.note, *]

end Recorded

namespace Executor

variable {σ : Type}

section

variable [Transport σ]

/-- The states to which an executor comes when its tasks take their steps in any order. -/
inductive Reaches (e₀ : Executor σ) : Executor σ → Prop where
  | refl : Reaches e₀ e₀
  | step {e : Executor σ} (h : Reaches e₀ e) (i : TaskId) : Reaches e₀ (e.step i).2
  /-- The queue may be changed in any way. -/
  | requeue {e : Executor σ} (h : Reaches e₀ e) (ready : List TaskId) :
      Reaches e₀ { e with ready }

/-- No task has a step to take. -/
def Stuck (e : Executor σ) : Prop := ∀ i, (e.step i).1 = false

/-- No schedule takes steps forever. -/
theorem wellFounded_steps :
    WellFounded fun e' e : Executor σ => ∃ i, (e.step i).1 = true ∧ (e.step i).2 = e' := by
  refine Subrelation.wf ?_ (InvImage.wf statuses wellFounded_advances)
  rintro e' e ⟨i, hi, rfl⟩
  exact advances_of_step hi

theorem Reaches.trans {e₀ e e' : Executor σ} (h : Reaches e₀ e) (h' : Reaches e e') :
    Reaches e₀ e' := by
  induction h' with
  | refl => exact h
  | step _ i ih => exact ih.step i
  | requeue _ ready ih => exact ih.requeue ready

/-- A turn of one task is a schedule. -/
theorem reaches_run (e : Executor σ) (i : TaskId) : Reaches e (e.run i) := by
  fun_induction run e i with
  | case1 e e' h ih =>
    have hstep : Reaches e (e.step i).2 := .step .refl i
    rw [h] at hstep
    exact hstep.trans ih
  | case2 e e' h =>
    have hstep : Reaches e (e.step i).2 := .step .refl i
    rwa [h] at hstep

/-- The order in which the executor itself lets its tasks run is a schedule. -/
theorem reaches_settle (e : Executor σ) : Reaches e e.settle := by
  fun_induction settle e with
  | case1 e h => exact .refl
  | case2 e i rest h ih =>
    have hturn : Reaches e { e with ready := rest } := .requeue .refl rest
    exact (hturn.trans (reaches_run _ i)).trans ih

end

/-! ## Recording changes nothing -/

/-- The executor on the network itself, without the log. -/
def forget (e : Executor (Recorded σ)) : Executor σ where
  network := e.network.network
  tasks := e.tasks
  ready := e.ready
  observations := e.observations
  released := e.released

variable [Transport σ]

/-- What a step does to the network does not depend on the log. -/
theorem move_forget (r : Recorded σ) (rank : Rank) (tag : Tag) (p : Program Bytes) :
    move r.network rank tag p =
      { move r rank tag p with network := (move r rank tag p).network.network } := by
  cases p with
  | ret | fail | crash | report => rfl
  | send dest data next => rw [move, Recorded.send_network, move]
  | recv src next =>
    rw [move, Recorded.receive_network, move]
    rcases Transport.receive r rank src tag with ⟨_ | answer, network⟩ <;> rfl

theorem forget_closeIdle (e : Executor (Recorded σ)) (rank : Rank) :
    (e.closeIdle rank).forget = e.forget.closeIdle rank := by
  have hidle : (decide (rank ∈ e.forget.released) && !e.forget.isBusy rank) =
      (decide (rank ∈ e.released) && !e.isBusy rank) := rfl
  rw [closeIdle, closeIdle, hidle]
  cases (decide (rank ∈ e.released) && !e.isBusy rank) <;> rfl

theorem step_forget (e : Executor (Recorded σ)) (i : TaskId) :
    e.forget.step i = ((e.step i).1, (e.step i).2.forget) := by
  have htasks : e.forget.tasks[i]? = e.tasks[i]? := rfl
  simp only [step, htasks]
  cases e.tasks[i]? with
  | none => rfl
  | some task =>
    simp only
    cases task.status with
    | running p =>
      have hm := move_forget e.network task.rank task.tag p
      change move e.forget.network task.rank task.tag p = _ at hm
      simp only [hm]
      split
      · rw [forget_closeIdle]
        rfl
      · rfl
    | aborting =>
      simp only [forget_closeIdle]
      rfl
    | finished | crashed | aborted => rfl

/-- Every state that a schedule leads to is that of the same schedule with a log. -/
theorem exists_of_forget {e₀ : Executor (Recorded σ)} {e : Executor σ}
    (h : Reaches e₀.forget e) : ∃ e', Reaches e₀ e' ∧ e'.forget = e := by
  induction h with
  | refl => exact ⟨e₀, .refl, rfl⟩
  | step _ i ih =>
    obtain ⟨e', he', rfl⟩ := ih
    refine ⟨(e'.step i).2, he'.step i, ?_⟩
    rw [step_forget]
  | requeue _ ready ih =>
    obtain ⟨e', he', rfl⟩ := ih
    exact ⟨{ e' with ready }, he'.requeue ready, rfl⟩

end Executor

end Collectives
