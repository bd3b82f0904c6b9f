import Collectives.Task

/-!
# The executor

All tasks of a session run on one thread. A task whose turn has come runs until it has
to wait for a message; a message that arrives for a waiting task puts it at the end of
the queue of those whose turn is to come. `step` is one step of one task and `settle`
lets tasks run until the queue is empty.

Nothing here depends on the order in which the tasks take their turns: `step` may be
applied to any task at any time, so every schedule is a sequence of steps. That
settling comes to an end holds for every transport, because each step leads some task
to a part of its program and a turn without a step shortens the queue.

An endpoint may outlive everything but the tasks that use it: once it is released it is
closed as soon as no task of its rank is left.
-/

namespace Collectives

/-- One of the statuses in a list takes a step: the list before it is on the right. -/
inductive Advances : List Status → List Status → Prop where
  | head {s t : Status} (rest : List Status) (h : s.Precedes t) :
      Advances (s :: rest) (t :: rest)
  | tail (s : Status) {xs ys : List Status} (h : Advances xs ys) :
      Advances (s :: xs) (s :: ys)

theorem Advances.set {xs : List Status} {i : Nat} {s t : Status} (hi : xs[i]? = some t)
    (h : s.Precedes t) : Advances (xs.set i s) xs := by
  induction xs generalizing i with
  | nil => simp at hi
  | cons x xs ih =>
    cases i with
    | zero =>
      rw [List.getElem?_cons_zero, Option.some_inj] at hi
      subst hi
      exact .head xs h
    | succ i =>
      rw [List.getElem?_cons_succ] at hi
      exact .tail x (ih hi)

theorem wellFounded_advances : WellFounded Advances := by
  refine ⟨fun xs => ?_⟩
  induction xs with
  | nil => exact ⟨_, fun _ h => by cases h⟩
  | cons s xs ih =>
    induction Status.wellFounded_precedes.apply s generalizing xs with
    | intro s _ ihs =>
      induction ih with
      | intro xs hxs ihxs =>
        refine ⟨_, fun ys h => ?_⟩
        cases h with
        | head _ h => exact ihs _ h xs ⟨_, hxs⟩
        | tail _ h => exact ihxs _ h

/-- How much the tasks still have before them. -/
structure Remaining where
  statuses : List Status

/-- Less is before the tasks after one or more steps. -/
instance : WellFoundedRelation Remaining where
  rel a b := Relation.TransGen Advances a.statuses b.statuses
  wf := InvImage.wf Remaining.statuses wellFounded_advances.transGen

/-- A task, by its position among all that were ever started. -/
abbrev TaskId := Nat

/-- The tasks of a session, the world they communicate in, and what they reported. -/
structure Executor (σ : Type) where
  network : σ
  tasks : List Task := []
  /-- The tasks whose turn is to come, in order. -/
  ready : List TaskId := []
  /-- What the tasks of each rank reported, earliest first. -/
  observations : List (Rank × Observation) := []
  /-- The endpoints that nothing but the tasks of their rank keeps open. -/
  released : List Rank := []

namespace Executor

variable {σ : Type}

/-- The statuses of all tasks. -/
def statuses (e : Executor σ) : List Status := e.tasks.map (·.status)

/-- How far a task has come. -/
def status? (e : Executor σ) (i : TaskId) : Option Status := (e.tasks[i]?).map (·.status)

/-- Whether a task of a rank is not over. -/
def isBusy (e : Executor σ) (rank : Rank) : Bool :=
  e.tasks.any fun t => t.rank = rank && !t.status.isOver

/-- The tasks, other than `i`, that wait for a message from one rank to another under a
tag and whose turn is not to come anyway. -/
def waiting (e : Executor σ) (i : TaskId) (src dest : Rank) (tag : Tag) : List TaskId :=
  (List.range e.tasks.length).filter fun j =>
    j ≠ i && j ∉ e.ready && e.tasks[j]?.any fun t =>
      t.rank = dest && t.tag = tag && t.status.awaits? = some src

variable [Transport σ]

/-- Closes the endpoint of a rank if it is released and no task needs it any more. -/
def closeIdle (e : Executor σ) (rank : Rank) : Executor σ :=
  { e with
    network :=
      if rank ∈ e.released && !e.isBusy rank then Transport.close e.network rank
      else e.network }

/-- Carries out the step that a task has taken. -/
def apply (e : Executor σ) (i : TaskId) (task : Task) (m : Move σ) : Executor σ :=
  let e' := { e with
    network := m.network
    tasks := e.tasks.set i { task with status := m.status }
    observations := e.observations ++ m.observed.toList.map fun o => (task.rank, o) }
  let awakened := m.reached.toList.flatMap fun dest => e'.waiting i task.rank dest task.tag
  { e' with ready := e'.ready ++ awakened }

/-- Lets a task take one step. Says whether there was one to take; asking for a message
that is not there counts as none. -/
def step (e : Executor σ) (i : TaskId) : Bool × Executor σ :=
  match e.tasks[i]? with
  | none => (false, e)
  | some task =>
    match task.status with
    | .running p =>
      let m := move e.network task.rank task.tag p
      if m.moved then (true, (e.apply i task m).closeIdle task.rank)
      else (false, { e with network := m.network })
    | .aborting =>
      let tasks := e.tasks.set i { task with status := .aborted }
      (true, { e with tasks }.closeIdle task.rank)
    | _ => (false, e)

theorem advances_of_step {e : Executor σ} {i : TaskId} (h : (e.step i).1 = true) :
    Advances (e.step i).2.statuses e.statuses := by
  unfold step at h ⊢
  split at h
  · cases h
  next task htask =>
    have hi : e.statuses[i]? = some task.status := by simp [statuses, htask]
    have key : ∀ s : Status, s.Precedes task.status →
        Advances ((e.tasks.set i { task with status := s }).map (·.status)) e.statuses := by
      intro s hs
      rw [List.map_set]
      exact .set hi hs
    simp only at h ⊢
    split at h
    · next p hp =>
      by_cases hm : (move e.network task.rank task.tag p).moved = true
      · rw [if_pos hm]
        exact key _ (hp ▸ precedes_of_moved _ _ _ hm)
      · rw [if_neg hm] at h
        cases h
    · next hp => exact key _ (hp ▸ .aborted)
    · cases h

theorem step_of_not_moved {e : Executor σ} {i : TaskId} (h : (e.step i).1 = false) :
    (e.step i).2.statuses = e.statuses ∧ (e.step i).2.ready = e.ready := by
  unfold step at h ⊢
  split at h
  · exact ⟨rfl, rfl⟩
  · simp only at h ⊢
    split at h
    · split at h
      · cases h
      next hm => rw [if_neg hm]; exact ⟨rfl, rfl⟩
    · cases h
    · exact ⟨rfl, rfl⟩

/-- Lets a task run until it has to wait or comes to its end. -/
def run (e : Executor σ) (i : TaskId) : Executor σ :=
  match _h : e.step i with
  | (true, e') => e'.run i
  | (false, e') => e'
termination_by Remaining.mk e.statuses
decreasing_by
  have := advances_of_step (e := e) (i := i) (by rw [_h])
  rw [_h] at this
  exact .single this

theorem run_eq (e : Executor σ) (i : TaskId) :
    e.run i = if (e.step i).1 then (e.step i).2.run i else (e.step i).2 := by
  rw [run]
  split <;> simp_all

/-- A turn leads some task on, or leaves the tasks and the queue as they were. -/
theorem run_progress (e : Executor σ) (i : TaskId) :
    Relation.TransGen Advances (e.run i).statuses e.statuses ∨
      (e.run i).statuses = e.statuses ∧ (e.run i).ready = e.ready := by
  induction h : Remaining.mk e.statuses using WellFounded.induction
    (WellFoundedRelation.wf (α := Remaining)) generalizing e with
  | _ r ih =>
    subst h
    rw [run_eq]
    split
    · next hm =>
      have hs := advances_of_step hm
      rcases ih _ (.single hs) _ rfl with h | h
      · exact .inl (h.tail hs)
      · exact .inl (h.1 ▸ .single hs)
    · next hm => exact .inr (step_of_not_moved (Bool.not_eq_true _ ▸ hm))

/-- Lets the tasks take their turns until the queue is empty. -/
def settle (e : Executor σ) : Executor σ :=
  match _h : e.ready with
  | [] => e
  | i :: rest => ({ e with ready := rest }.run i).settle
termination_by (Remaining.mk e.statuses, e.ready.length)
decreasing_by
  rcases run_progress { e with ready := rest } i with h | ⟨hs, hr⟩
  · exact Prod.Lex.left _ _ h
  · rw [hs, hr, _h]
    exact Prod.Lex.right _ (Nat.lt_succ_self _)

/-- Adds a task, whose turn is not to come yet. -/
def add (e : Executor σ) (rank : Rank) (tag : Tag) (program : Program Bytes) :
    TaskId × Executor σ :=
  (e.tasks.length, { e with tasks := e.tasks ++ [⟨rank, tag, .running program⟩] })

/-- Puts a task at the end of the queue. -/
def enqueue (e : Executor σ) (i : TaskId) : Executor σ := { e with ready := e.ready ++ [i] }

/-- Starts a task; its turn is to come after those of all others. -/
def spawn (e : Executor σ) (rank : Rank) (tag : Tag) (program : Program Bytes) :
    TaskId × Executor σ :=
  let (i, e) := e.add rank tag program
  (i, e.enqueue i)

/-- Starts a task by letting it run at once; its next turn is to come after those of all
others, also of those that its messages have reached. -/
def launch (e : Executor σ) (rank : Rank) (tag : Tag) (program : Program Bytes) :
    TaskId × Executor σ :=
  let (i, e) := e.add rank tag program
  (i, (e.run i).enqueue i)

/-- Gives a task up. If its program is still under way, its tag is abandoned at once and
the task is gone when its turn comes. -/
def abort (e : Executor σ) (i : TaskId) : Executor σ :=
  match e.tasks[i]? with
  | none => e
  | some task =>
    if task.status.isRunning then
      { e with
        network := Transport.abandon e.network task.rank task.tag
        tasks := e.tasks.set i { task with status := .aborting }
        ready := if i ∈ e.ready then e.ready else e.ready ++ [i] }
    else e

/-- From now on only the tasks of a rank keep its endpoint open. -/
def release (e : Executor σ) (rank : Rank) : Executor σ :=
  { e with released := rank :: e.released }.closeIdle rank

@[simp] theorem settle_ready (e : Executor σ) : e.settle.ready = [] := by
  fun_induction settle e with
  | case1 e h => exact h
  | case2 e i rest h ih => exact ih

end Executor

end Collectives
