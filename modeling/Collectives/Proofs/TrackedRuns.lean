import Collectives.Proofs.StepEffects
import Collectives.Proofs.FaultyRuns
import Mathlib.Data.List.Nodup

/-!
# Runs by rank and tag

In a run no two tasks share both rank and tag, so a state may be described by saying how far the
task of each rank under each tag has come: this is the roll.  `TrackedRun` describes the runs on a
recorded mesh in this way.  Tasks come onto the roll, take steps, are given up and vanish, and
endpoints are closed (`Executor.FaultyRun.tracked`).

In all of this the mesh stays orderly (`TrackedRun.orderly`).  What is on its way to a rank that
may still receive under a tag is exactly what was sent to it and not received, whether its task
is under way or not started yet, whoever has been given up and whatever endpoint was closed.
And nobody, at any time, has received anything that was not sent.
-/

namespace Collectives

/-! ## Rolls -/

/-- How far the task of each rank under each tag has come, where there is one. -/
abbrev Roll := Rank → Tag → Option Status

namespace Roll

/-- Enters how far a task has come. -/
def set (roll : Roll) (own : Rank) (tag : Tag) (s : Status) : Roll := fun rank other =>
  if rank = own ∧ other = tag then some s else roll rank other

variable (roll : Roll) {own rank : Rank} {tag other : Tag} {s : Status}

@[simp] theorem set_self : roll.set own tag s own tag = some s := if_pos ⟨rfl, rfl⟩

theorem set_of_ne (h : ¬(rank = own ∧ other = tag)) :
    roll.set own tag s rank other = roll rank other := if_neg h

variable {roll}

theorem eq_none_of_set (h : roll.set own tag s rank other = none) :
    ¬(rank = own ∧ other = tag) ∧ roll rank other = none := by
  by_cases hkey : rank = own ∧ other = tag
  · obtain ⟨rfl, rfl⟩ := hkey
    rw [set_self] at h
    cases h
  · rw [set_of_ne roll hkey] at h
    exact ⟨hkey, h⟩

theorem set_eq_self (h : roll own tag = some s) : roll.set own tag s = roll := by
  funext rank other
  by_cases hkey : rank = own ∧ other = tag
  · obtain ⟨rfl, rfl⟩ := hkey
    rw [set_self, h]
  · exact set_of_ne roll hkey

/-- The roll of a list of tasks. -/
def ofTasks (tasks : List Task) : Roll := fun rank tag =>
  (tasks.find? fun task => task.rank = rank ∧ task.tag = tag).map (·.status)

variable {tasks : List Task} {task : Task} {k : TaskId}

theorem ofTasks_cons (task : Task) (tasks : List Task) (rank : Rank) (tag : Tag) :
    ofTasks (task :: tasks) rank tag =
      if rank = task.rank ∧ tag = task.tag then some task.status
      else ofTasks tasks rank tag := by
  by_cases h : task.rank = rank ∧ task.tag = tag
  · obtain ⟨rfl, rfl⟩ := h
    simp [ofTasks]
  · have h' : ¬(rank = task.rank ∧ tag = task.tag) := fun hc => h ⟨hc.1.symm, hc.2.symm⟩
    rw [if_neg h', ofTasks, List.find?_cons_of_neg (by simpa using h), ofTasks]

theorem ofTasks_append (hnew : ∀ other ∈ tasks, ¬(other.rank = own ∧ other.tag = tag)) :
    ofTasks (tasks ++ [⟨own, tag, s⟩]) = (ofTasks tasks).set own tag s := by
  funext rank other
  induction tasks with
  | nil => exact ofTasks_cons _ _ _ _
  | cons task tasks ih =>
    rw [List.forall_mem_cons] at hnew
    rw [List.cons_append, ofTasks_cons, ih hnew.2]
    by_cases hkey : rank = own ∧ other = tag
    · obtain ⟨rfl, rfl⟩ := hkey
      rw [set_self, set_self, if_neg fun hc => hnew.1 ⟨hc.1.symm, hc.2.symm⟩]
    · rw [set_of_ne _ hkey, set_of_ne _ hkey, ofTasks_cons]

/-- No two of the tasks share both rank and tag. -/
def Distinct (tasks : List Task) : Prop := (tasks.map fun task => (task.rank, task.tag)).Nodup

theorem keys_set (hk : tasks[k]? = some task) (s : Status) :
    (tasks.set k { task with status := s }).map (fun task => (task.rank, task.tag)) =
      tasks.map fun task => (task.rank, task.tag) := by
  obtain ⟨hlt, rfl⟩ := List.getElem?_eq_some_iff.1 hk
  rw [List.map_set]
  refine List.ext_getElem (by simp) ?_
  intro j hj hj'
  rw [List.getElem_set]
  split
  · next hkj =>
    subst hkj
    rw [List.getElem_map]
  · rfl

theorem Distinct.set (h : Distinct tasks) (hk : tasks[k]? = some task) (s : Status) :
    Distinct (tasks.set k { task with status := s }) := by
  rwa [Distinct, keys_set hk]

theorem Distinct.append (h : Distinct tasks)
    (hnew : ∀ other ∈ tasks, ¬(other.rank = own ∧ other.tag = tag)) :
    Distinct (tasks ++ [⟨own, tag, s⟩]) := by
  rw [Distinct, List.map_append, List.nodup_append]
  refine ⟨h, List.nodup_singleton _, ?_⟩
  rintro _ ha _ hb rfl
  obtain ⟨other, hother, heq⟩ := List.mem_map.1 ha
  rw [List.map_singleton, List.mem_singleton, ← heq, Prod.mk.injEq] at hb
  exact hnew other hother hb

theorem Distinct.not_cons (h : Distinct (task :: tasks)) {other : Task} (hother : other ∈ tasks) :
    ¬(other.rank = task.rank ∧ other.tag = task.tag) := by
  rintro ⟨hrank, htag⟩
  rw [Distinct, List.map_cons, List.nodup_cons] at h
  exact h.1 (List.mem_map.2 ⟨other, hother, Prod.ext hrank htag⟩)

theorem ofTasks_eq_some (h : Distinct tasks) (hk : tasks[k]? = some task) :
    ofTasks tasks task.rank task.tag = some task.status := by
  induction tasks generalizing k with
  | nil => cases hk
  | cons head tasks ih =>
    rw [ofTasks_cons]
    cases k with
    | zero =>
      obtain rfl : head = task := Option.some_inj.1 hk
      exact if_pos ⟨rfl, rfl⟩
    | succ k =>
      rw [List.getElem?_cons_succ] at hk
      rw [if_neg (h.not_cons (List.mem_of_getElem? hk))]
      exact ih (List.Nodup.of_cons h) hk

theorem ofTasks_set (h : Distinct tasks) (hk : tasks[k]? = some task) (s : Status) :
    ofTasks (tasks.set k { task with status := s }) = (ofTasks tasks).set task.rank task.tag s := by
  funext rank tag
  induction tasks generalizing k with
  | nil => cases hk
  | cons head tasks ih =>
    cases k with
    | zero =>
      obtain rfl : head = task := Option.some_inj.1 hk
      rw [List.set_cons_zero, ofTasks_cons]
      by_cases hkey : rank = head.rank ∧ tag = head.tag
      · obtain ⟨rfl, rfl⟩ := hkey
        rw [set_self, if_pos ⟨rfl, rfl⟩]
      · rw [set_of_ne _ hkey, ofTasks_cons, if_neg hkey, if_neg hkey]
    | succ k =>
      rw [List.getElem?_cons_succ] at hk
      have hne := h.not_cons (List.mem_of_getElem? hk)
      rw [List.set_cons_succ, ofTasks_cons, ih (List.Nodup.of_cons h) hk]
      by_cases hkey : rank = task.rank ∧ tag = task.tag
      · obtain ⟨rfl, rfl⟩ := hkey
        rw [if_neg hne, set_self, set_self]
      · rw [set_of_ne _ hkey, set_of_ne _ hkey, ofTasks_cons]

theorem ofTasks_eq_none :
    ofTasks tasks own tag = none ↔ (own, tag) ∉ tasks.map fun task => (task.rank, task.tag) := by
  rw [ofTasks, Option.map_eq_none_iff, List.find?_eq_none]
  simp

/-- Whatever is on the roll is the status of a task. -/
theorem exists_of_ofTasks (h : ofTasks tasks own tag = some s) :
    ∃ k : TaskId, tasks[k]? = some ⟨own, tag, s⟩ := by
  obtain ⟨task, hfind, rfl⟩ := Option.map_eq_some_iff.1 h
  obtain ⟨k, hk⟩ := List.getElem?_of_mem (List.mem_of_find?_eq_some hfind)
  have hkey := List.find?_some hfind
  rw [decide_eq_true_eq] at hkey
  obtain ⟨rfl, rfl⟩ := hkey
  exact ⟨k, hk⟩

end Roll

/-! ## Tracked runs -/

variable {assigned : Rank → Tag → Program Bytes → Prop} {size : Nat}

/-- The rolls and the meshes to which a run can come, in a world of some size. -/
inductive TrackedRun (assigned : Rank → Tag → Program Bytes → Prop) (size : Nat) :
    Roll → Recorded Mesh → Prop where
  | begun : TrackedRun assigned size (fun _ _ => none) { network := .ofSize size }
  | started {roll : Roll} {r : Recorded Mesh} {own : Rank} {tag : Tag} {p : Program Bytes}
      (h : TrackedRun assigned size roll r) (hassigned : assigned own tag p)
      (hnew : roll own tag = none) : TrackedRun assigned size (roll.set own tag (.running p)) r
  | acted {roll : Roll} {r r' : Recorded Mesh} {own : Rank} {tag : Tag} {p : Program Bytes}
      {new : List Event} {s : Status} (h : TrackedRun assigned size roll r)
      (hp : roll own tag = some (.running p)) (heffect : StepEffect r own tag p new s r') :
      TrackedRun assigned size (roll.set own tag s) r'
  | abandoned {roll : Roll} {r : Recorded Mesh} {own : Rank} {tag : Tag} {p : Program Bytes}
      (h : TrackedRun assigned size roll r) (hp : roll own tag = some (.running p)) :
      TrackedRun assigned size (roll.set own tag .aborting) (Transport.abandon r own tag)
  | vanished {roll : Roll} {r : Recorded Mesh} {own : Rank} {tag : Tag}
      (h : TrackedRun assigned size roll r) (hp : roll own tag = some .aborting) :
      TrackedRun assigned size (roll.set own tag .aborted) r
  | closed {roll : Roll} {r : Recorded Mesh} (h : TrackedRun assigned size roll r) (own : Rank) :
      TrackedRun assigned size roll (Transport.close r own)

namespace Executor

/-- The roll of the tasks of an executor. -/
def roll {σ : Type} (e : Executor σ) : Roll := .ofTasks e.tasks

/-- The roll and the mesh of the state are those of a run. -/
structure Tracked (assigned : Rank → Tag → Program Bytes → Prop) (size : Nat)
    (e : Executor (Recorded Mesh)) : Prop where
  distinct : Roll.Distinct e.tasks
  run : TrackedRun assigned size e.roll e.network

namespace Tracked

variable {e : Executor (Recorded Mesh)}

theorem closeIdle (h : e.Tracked assigned size) (rank : Rank) :
    (e.closeIdle rank).Tracked assigned size := by
  refine ⟨h.distinct, ?_⟩
  show TrackedRun assigned size e.roll (e.closeIdle rank).network
  unfold Executor.closeIdle
  dsimp only
  split
  · exact h.run.closed rank
  · exact h.run

/-- Another status of a task is entered on the roll. -/
theorem set (h : e.Tracked assigned size) {k : TaskId} {task : Task} (hk : e.tasks[k]? = some task)
    {e' : Executor (Recorded Mesh)} {s : Status}
    (htasks : e'.tasks = e.tasks.set k { task with status := s })
    (hc : TrackedRun assigned size (e.roll.set task.rank task.tag s) e'.network) :
    e'.Tracked assigned size := by
  constructor
  · rw [htasks]
    exact h.distinct.set hk s
  · rwa [roll, htasks, Roll.ofTasks_set h.distinct hk]

theorem step (h : e.Tracked assigned size) (k : TaskId) : (e.step k).2.Tracked assigned size := by
  unfold Executor.step
  cases hk : e.tasks[k]? with
  | none => exact h
  | some task =>
    have hroll : e.roll task.rank task.tag = some task.status := Roll.ofTasks_eq_some h.distinct hk
    dsimp only
    cases hs : task.status with
    | running p =>
      rw [hs] at hroll
      obtain ⟨new, heffect⟩ := stepEffect_move e.network task.rank task.tag p
      have hacted := h.run.acted hroll heffect
      dsimp only
      split
      · exact (h.set hk rfl hacted).closeIdle task.rank
      · next hm =>
        refine ⟨h.distinct, ?_⟩
        rw [status_of_not_moved _ _ _ (Bool.not_eq_true _ ▸ hm), Roll.set_eq_self hroll] at hacted
        exact hacted
    | aborting =>
      rw [hs] at hroll
      have hset : Tracked assigned size
          { e with tasks := e.tasks.set k { task with status := .aborted } } :=
        h.set hk rfl (h.run.vanished hroll)
      exact hset.closeIdle task.rank
    | finished | crashed | aborted => exact h

theorem abort (h : e.Tracked assigned size) (k : TaskId) : (e.abort k).Tracked assigned size := by
  unfold Executor.abort
  cases hk : e.tasks[k]? with
  | none => exact h
  | some task =>
    have hroll : e.roll task.rank task.tag = some task.status := Roll.ofTasks_eq_some h.distinct hk
    dsimp only
    cases hs : task.status with
    | running p =>
      rw [hs] at hroll
      exact h.set hk rfl (h.run.abandoned hroll)
    | finished | crashed | aborting | aborted => exact h

end Tracked

/-- Every run on a recorded mesh can be tracked. -/
theorem FaultyRun.tracked {e : Executor (Recorded Mesh)}
    (h : FaultyRun assigned { network := .ofSize size } e) : e.Tracked assigned size := by
  induction h with
  | begun => exact ⟨List.nodup_nil, .begun⟩
  | @started e rank tag program _ hassigned hnew ih =>
    have hnone : e.roll rank tag = none := by
      rw [roll, Roll.ofTasks_eq_none]
      simpa using hnew
    refine ⟨ih.distinct.append hnew, ?_⟩
    have hroll : (e.add rank tag program).2.roll = e.roll.set rank tag (.running program) :=
      Roll.ofTasks_append hnew
    rw [hroll]
    exact ih.run.started hassigned hnone
  | stepped _ k ih => exact ih.step k
  | requeued _ ready ih => exact ⟨ih.distinct, ih.run⟩
  | aborted _ k ih => exact ih.abort k
  | @released e _ rank ih =>
    have hreleased : Tracked assigned size { e with released := rank :: e.released } :=
      ⟨ih.distinct, ih.run⟩
    exact hreleased.closeIdle rank
  | closed _ rank ih => exact ⟨ih.distinct, ih.run.closed rank⟩

/-- The task of a rank under a tag has a step to take. -/
def Moves {σ : Type} [Transport σ] (e : Executor σ) (own : Rank) (tag : Tag) : Prop :=
  ∃ k s, e.tasks[k]? = some ⟨own, tag, s⟩ ∧ (e.step k).1 = true

/-- A program that is not at its end and has no step to take waits for a message that is not
there. -/
theorem waits_of_not_moves {e : Executor (Recorded Mesh)} {own : Rank} {tag : Tag}
    (hs : ¬e.Moves own tag) {p : Program Bytes} (hp : e.roll own tag = some (.running p)) :
    ∃ src next, p = .recv src next ∧
      (own.toNat < e.network.network.size ∧ src.toNat < e.network.network.size) ∧
      e.network.network.queue src own tag = [] := by
  obtain ⟨k, hk⟩ := Roll.exists_of_ofTasks hp
  have hmoved : (e.step k).1 = false := Bool.eq_false_iff.2 fun h => hs ⟨k, _, hk, h⟩
  have hstep : (e.step k).1 = (move e.network own tag p).moved := by
    rw [Executor.step, hk]
    dsimp only
    cases (move e.network own tag p).moved <;> rfl
  rw [hstep] at hmoved
  exact waits_of_not_moved hmoved

end Executor

/-! ## Order on the mesh -/

/-- A task that may still receive: it is under way, or it has not been started yet. -/
inductive Expectant : Option Status → Prop where
  | absent : Expectant none
  | running (p : Program Bytes) : Expectant (some (.running p))

theorem Expectant.of_set {roll : Roll} {own rank : Rank} {tag other : Tag} {s : Status}
    (hown : Expectant (roll own tag)) (h : Expectant (roll.set own tag s rank other)) :
    Expectant (roll rank other) ∧ (rank = own ∧ other = tag → ∃ q, s = .running q) := by
  by_cases hkey : rank = own ∧ other = tag
  · obtain ⟨rfl, rfl⟩ := hkey
    rw [Roll.set_self] at h
    cases h with
    | running p => exact ⟨hown, fun _ => ⟨p, rfl⟩⟩
  · rw [Roll.set_of_ne _ hkey] at h
    exact ⟨h, fun hc => absurd hc hkey⟩

/-- What holds of a mesh, and of the histories of the tasks on it, whatever has happened. -/
structure Orderly (size : Nat) (roll : Roll) (r : Recorded Mesh) : Prop where
  size_eq : r.network.size = size
  /-- Nothing happens under a tag at a rank before the task is started. -/
  silent : ∀ {rank : Rank} {tag : Tag}, roll rank tag = none → r.events rank tag = []
  keeps : ∀ {rank : Rank} {tag : Tag}, Expectant (roll rank tag) → r.network.Keeps rank tag
  conserved : ∀ {rank : Rank} {tag : Tag}, Expectant (roll rank tag) →
    ∀ src, r.Conserved src rank tag
  consumed : ∀ (rank : Rank) (tag : Tag) (src : Rank),
    messagesFrom src (r.events rank tag) <+: messagesTo rank (r.events src tag)

namespace Orderly

variable {roll : Roll} {r r' : Recorded Mesh} {own : Rank} {tag : Tag} {p : Program Bytes}
  {s : Status} {new : List Event}

theorem begun (size : Nat) : Orderly size (fun _ _ => none) { network := .ofSize size } := by
  refine ⟨Mesh.size_ofSize size, fun _ => rfl, fun _ => Mesh.keeps_ofSize _ _ _, ?_, ?_⟩
  · intro rank tag _ src
    show [] = [] ++ (Mesh.ofSize size).queue src rank tag
    rw [Mesh.queue_ofSize, List.append_nil]
  · intro rank tag src
    exact List.prefix_rfl

theorem started (h : Orderly size roll r) (hnew : roll own tag = none) (p : Program Bytes) :
    Orderly size (roll.set own tag (.running p)) r := by
  have hown : Expectant (roll own tag) := by
    rw [hnew]
    exact .absent
  refine ⟨h.size_eq, ?_, fun hrank => h.keeps (hown.of_set hrank).1,
    fun hrank => h.conserved (hown.of_set hrank).1, h.consumed⟩
  intro rank other hnone
  exact h.silent (Roll.eq_none_of_set hnone).2

theorem acted (h : Orderly size roll r) (hp : roll own tag = some (.running p))
    (heffect : StepEffect r own tag p new s r') : Orderly size (roll.set own tag s) r' := by
  have hown : Expectant (roll own tag) := by
    rw [hp]
    exact .running p
  have hconserved : ∀ {rank : Rank} {other : Tag}, Expectant (roll.set own tag s rank other) →
      ∀ src, r'.Conserved src rank other := by
    intro rank other hrank src
    obtain ⟨hbefore, hrunning⟩ := hown.of_set hrank
    exact heffect.conserved (h.conserved hbefore src) (h.keeps hbefore) hrunning
  refine ⟨heffect.size_eq.trans h.size_eq, ?_, ?_, hconserved, ?_⟩
  · intro rank other hnone
    obtain ⟨hkey, hnone⟩ := Roll.eq_none_of_set hnone
    rw [heffect.events_eq, if_neg hkey]
    exact h.silent hnone
  · intro rank other hrank
    unfold Mesh.Keeps
    rw [heffect.gate_eq]
    exact h.keeps (hown.of_set hrank).1
  · intro rank other src
    -- a task that goes on has received what its channel says, any other only what it had before
    by_cases hrunning : (rank = own ∧ other = tag) ∧ ∃ q, s = .running q
    · obtain ⟨⟨rfl, rfl⟩, q, rfl⟩ := hrunning
      rw [hconserved (by rw [Roll.set_self]; exact .running q) src]
      exact List.prefix_append _ _
    · exact heffect.consumed (fun hkey q hq => hrunning ⟨hkey, q, hq⟩) (h.consumed rank other src)

theorem abandoned (h : Orderly size roll r) (hp : roll own tag = some (.running p)) :
    Orderly size (roll.set own tag .aborting) (Transport.abandon r own tag) := by
  have hown : Expectant (roll own tag) := by
    rw [hp]
    exact .running p
  have hother : ∀ {rank : Rank} {other : Tag},
      Expectant (roll.set own tag .aborting rank other) →
        Expectant (roll rank other) ∧ ¬(rank = own ∧ other = tag) := by
    intro rank other hrank
    obtain ⟨hbefore, hrunning⟩ := hown.of_set hrank
    refine ⟨hbefore, ?_⟩
    intro hkey
    obtain ⟨q, hq⟩ := hrunning hkey
    cases hq
  have hquiet : Event.IsQuiet .abandoned := trivial
  refine ⟨(Mesh.size_abandon _ _ _).trans h.size_eq, ?_, ?_, ?_, ?_⟩
  · intro rank other hnone
    obtain ⟨hkey, hnone⟩ := Roll.eq_none_of_set hnone
    exact (Recorded.events_note _ _ _ _ _ _ _).trans ((if_neg hkey).trans (h.silent hnone))
  · intro rank other hrank
    exact (h.keeps (hother hrank).1).abandon (hother hrank).2
  · intro rank other hrank src
    exact (h.conserved (hother hrank).1 src).abandon (hother hrank).2
  · intro rank other src
    show messagesFrom src ((r.note _ own tag .abandoned).events rank other) <+:
      messagesTo rank ((r.note _ own tag .abandoned).events src other)
    rw [Recorded.messagesFrom_note, Recorded.messagesTo_note, hquiet.messagesFrom_eq,
      hquiet.messagesTo_eq, ite_self, ite_self, List.append_nil, List.append_nil]
    exact h.consumed rank other src

theorem vanished (h : Orderly size roll r) (hp : roll own tag = some .aborting) :
    Orderly size (roll.set own tag .aborted) r := by
  have hbefore : ∀ {rank : Rank} {other : Tag},
      Expectant (roll.set own tag .aborted rank other) → Expectant (roll rank other) := by
    intro rank other hrank
    by_cases hkey : rank = own ∧ other = tag
    · obtain ⟨rfl, rfl⟩ := hkey
      rw [Roll.set_self] at hrank
      cases hrank
    · rwa [Roll.set_of_ne _ hkey] at hrank
  refine ⟨h.size_eq, ?_, fun hrank => h.keeps (hbefore hrank),
    fun hrank => h.conserved (hbefore hrank), h.consumed⟩
  intro rank other hnone
  exact h.silent (Roll.eq_none_of_set hnone).2

theorem closed (h : Orderly size roll r) (own : Rank) :
    Orderly size roll (Transport.close r own) :=
  ⟨(Mesh.size_close _ _).trans h.size_eq, h.silent, fun hrank => (h.keeps hrank).close own,
    fun hrank src => (h.conserved hrank src).close own, h.consumed⟩

end Orderly

/-- Whatever happens, the mesh stays orderly. -/
theorem TrackedRun.orderly {roll : Roll} {r : Recorded Mesh} (h : TrackedRun assigned size roll r) :
    Orderly size roll r := by
  induction h with
  | begun => exact .begun size
  | started _ _ hnew ih => exact ih.started hnew _
  | acted _ hp heffect ih => exact ih.acted hp heffect
  | abandoned _ hp ih => exact ih.abandoned hp
  | vanished _ hp ih => exact ih.vanished hp
  | closed _ own ih => exact ih.closed own

/-- Nothing comes onto the roll that was not assigned. -/
theorem TrackedRun.exists_assigned {roll : Roll} {r : Recorded Mesh}
    (h : TrackedRun assigned size roll r) :
    ∀ {rank : Rank} {tag : Tag}, roll rank tag ≠ none → ∃ p, assigned rank tag p := by
  have hset : ∀ {roll : Roll} {own rank : Rank} {other tag : Tag} {s : Status},
      (∃ p, assigned own other p) → (roll rank tag ≠ none → ∃ p, assigned rank tag p) →
        roll.set own other s rank tag ≠ none → ∃ p, assigned rank tag p := by
    intro roll own rank other tag s hown hbefore hne
    by_cases hkey : rank = own ∧ tag = other
    · obtain ⟨rfl, rfl⟩ := hkey
      exact hown
    · rw [Roll.set_of_ne _ hkey] at hne
      exact hbefore hne
  induction h with
  | begun => exact fun hne => absurd rfl hne
  | started _ hp _ ih => exact hset ⟨_, hp⟩ ih
  | acted _ hp _ ih => exact hset (ih (by rw [hp]; exact nofun)) ih
  | abandoned _ hp ih => exact hset (ih (by rw [hp]; exact nofun)) ih
  | vanished _ hp ih => exact hset (ih (by rw [hp]; exact nofun)) ih
  | closed _ _ ih => exact ih

end Collectives
