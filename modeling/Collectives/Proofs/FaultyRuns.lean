import Collectives.Proofs.Schedule

/-!
# Runs with faults

A schedule lets tasks take their steps.  In a run with faults anything else may happen to them as
well: tasks are started one by one, or never, any of them may be given up at any moment, and the
endpoint of any rank may be closed at any moment, whether or not someone still needs it.

`FaultyRun` collects the states to which this can lead, from a network on which nothing has
happened.  Which program may be started, at which rank and under which tag, is assigned beforehand;
no two tasks ever share both rank and tag.  Schedules are runs in which nothing goes wrong
(`FaultyRun.of_reaches`), and recording the traffic changes nothing (`FaultyRun.exists_of_forget`).
-/

namespace Collectives.Executor

variable {σ : Type} {assigned : Rank → Tag → Program Bytes → Prop}

section

variable [Transport σ] {network : σ}

/-- The states to which the tasks that are assigned can come. -/
inductive FaultyRun (assigned : Rank → Tag → Program Bytes → Prop) (network : σ) :
    Executor σ → Prop where
  | begun : FaultyRun assigned network { network }
  /-- A task that is assigned is started. -/
  | started {e : Executor σ} {rank : Rank} {tag : Tag} {program : Program Bytes}
      (h : FaultyRun assigned network e) (hassigned : assigned rank tag program)
      (hnew : ∀ task ∈ e.tasks, ¬(task.rank = rank ∧ task.tag = tag)) :
      FaultyRun assigned network (e.add rank tag program).2
  | stepped {e : Executor σ} (h : FaultyRun assigned network e) (k : TaskId) :
      FaultyRun assigned network (e.step k).2
  /-- The queue may be changed in any way. -/
  | requeued {e : Executor σ} (h : FaultyRun assigned network e) (ready : List TaskId) :
      FaultyRun assigned network { e with ready }
  /-- A task is given up, and its tag abandoned. -/
  | aborted {e : Executor σ} (h : FaultyRun assigned network e) (k : TaskId) :
      FaultyRun assigned network (e.abort k)
  /-- An endpoint is to be closed as soon as no task of its rank is left. -/
  | released {e : Executor σ} (h : FaultyRun assigned network e) (rank : Rank) :
      FaultyRun assigned network (e.release rank)
  /-- An endpoint is closed at once. -/
  | closed {e : Executor σ} (h : FaultyRun assigned network e) (rank : Rank) :
      FaultyRun assigned network { e with network := Transport.close e.network rank }

/-- Lets tasks take steps, one after the other. -/
def steps (e : Executor σ) (ks : List TaskId) : Executor σ := ks.foldl (fun e k => (e.step k).2) e

theorem reaches_steps (e : Executor σ) (ks : List TaskId) : e.Reaches (e.steps ks) := by
  induction ks generalizing e with
  | nil => exact .refl
  | cons k ks ih => exact (Reaches.refl.step k).trans (ih _)

/-- Any schedule may follow on a run with faults. -/
theorem FaultyRun.of_reaches {e₀ e : Executor σ} (h : FaultyRun assigned network e₀)
    (he : e₀.Reaches e) : FaultyRun assigned network e := by
  induction he with
  | refl => exact h
  | step _ k ih => exact ih.stepped k
  | requeue _ ready ih => exact ih.requeued ready

theorem FaultyRun.steps {e : Executor σ} (h : FaultyRun assigned network e) (ks : List TaskId) :
    FaultyRun assigned network (e.steps ks) := h.of_reaches (e.reaches_steps ks)

end

/-! ## What becomes of tasks -/

variable [Transport σ]

/-- A step leads one task on, or none. -/
theorem tasks_step (e : Executor σ) (k : TaskId) :
    (e.step k).2.tasks = e.tasks ∨ ∃ task s, e.tasks[k]? = some task ∧ s.Precedes task.status ∧
      (e.step k).2.tasks = e.tasks.set k { task with status := s } := by
  unfold step
  cases e.tasks[k]? with
  | none => exact .inl rfl
  | some task =>
    dsimp only
    cases hs : task.status with
    | running p =>
      dsimp only
      split
      · next hm => exact .inr ⟨task, _, rfl, hs ▸ precedes_of_moved _ _ _ hm, rfl⟩
      · exact .inl rfl
    | aborting => exact .inr ⟨task, .aborted, rfl, hs ▸ .aborted, rfl⟩
    | finished | crashed | aborted => exact .inl rfl

/-- To give up a task concerns no other, and no task that has no program before it. -/
theorem tasks_abort (e : Executor σ) (k : TaskId) :
    (e.abort k).tasks = e.tasks ∨ ∃ task, e.tasks[k]? = some task ∧
      (e.abort k).tasks = e.tasks.set k { task with status := .aborting } := by
  unfold abort
  cases e.tasks[k]? with
  | none => exact .inl rfl
  | some task =>
    dsimp only
    split
    · exact .inr ⟨task, rfl, rfl⟩
    · exact .inl rfl

/-! ## Recording changes nothing -/

theorem forget_abort (e : Executor (Recorded σ)) (k : TaskId) :
    (e.abort k).forget = e.forget.abort k := by
  have htasks : e.forget.tasks[k]? = e.tasks[k]? := rfl
  simp only [abort, htasks]
  cases e.tasks[k]? with
  | none => rfl
  | some task =>
    dsimp only
    cases task.status.isRunning <;> rfl

theorem forget_release (e : Executor (Recorded σ)) (rank : Rank) :
    (e.release rank).forget = e.forget.release rank :=
  forget_closeIdle _ rank

/-- Every state of a run is that of the same run with a log. -/
theorem FaultyRun.exists_of_forget {network : σ} {e : Executor σ}
    (h : FaultyRun assigned network e) :
    ∃ e' : Executor (Recorded σ), FaultyRun assigned { network } e' ∧ e'.forget = e := by
  induction h with
  | begun => exact ⟨_, .begun, rfl⟩
  | started _ hassigned hnew ih =>
    obtain ⟨e', he', rfl⟩ := ih
    exact ⟨_, he'.started hassigned hnew, rfl⟩
  | stepped _ k ih =>
    obtain ⟨e', he', rfl⟩ := ih
    exact ⟨_, he'.stepped k, by rw [step_forget]⟩
  | requeued _ ready ih =>
    obtain ⟨e', he', rfl⟩ := ih
    exact ⟨_, he'.requeued ready, rfl⟩
  | aborted _ k ih =>
    obtain ⟨e', he', rfl⟩ := ih
    exact ⟨_, he'.aborted k, forget_abort e' k⟩
  | released _ rank ih =>
    obtain ⟨e', he', rfl⟩ := ih
    exact ⟨_, he'.released rank, forget_release e' rank⟩
  | closed _ rank ih =>
    obtain ⟨e', he', rfl⟩ := ih
    exact ⟨_, he'.closed rank, rfl⟩

end Collectives.Executor
