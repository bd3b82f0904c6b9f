import Collectives.Proofs.ReachableSessions

/-!
# Calls

What can be asked of a session is data, and so is a history: a list of calls, each carried out on
what the ones before have left.  Two of the calls are no requests of a user, they let tasks go on:
`settle` until none can, `step` by one step of any task, so histories have schedules in them.

* `evolves_call`: what any call does to the tasks, each of which is given up only by a call that
  lets go of its operation.
* `keys_calls`: tasks are only ever added, and keep their rank and tag.
* `reachable_calls`: a history in which no two tasks share both leads to a reachable session.
-/

namespace Collectives

/-- What can be asked of a session. -/
inductive Call where
  | group (rank : Rank) (name : String) (list : Option (List Rank))
  | share (name other : String)
  | build (rank : Rank) (groupName name : String) (request : Except Error Request)
  | start (name : String) (d : DataType) (input : Option (List d.Elem)) (inRuntime : Bool)
  | wait (name : String) (d : DataType)
  | close (name : String)
  | dropCommunicator (rank : Rank)
  | barrier (rank : Rank) (groupName name : String)
  /-- Lets all tasks go on until none can. -/
  | settle
  /-- Lets one task take a step. -/
  | step (k : TaskId)

/-- The call lets go of the operation under a name, or puts another in its place. -/
def Call.LetsGo (name : String) : Call → Prop
  | .close n => n = name
  | .build _ _ n _ => n = name
  | _ => False

namespace Executor

variable {σ : Type}

/-! ## What becomes of tasks -/

/-- The rank and the tag of each task. -/
def keys (e : Executor σ) : List (Rank × Tag) := e.tasks.map fun task => (task.rank, task.tag)

theorem keys_eq_of_set {e e' : Executor σ} {k : TaskId} {task : Task} {s : Status}
    (hk : e.tasks[k]? = some task)
    (htasks : e'.tasks = e.tasks.set k { task with status := s }) : e'.keys = e.keys := by
  rw [keys, htasks, Roll.keys_set hk, keys]

@[simp] theorem keys_spawn (e : Executor σ) (rank : Rank) (tag : Tag) (p : Program Bytes) :
    (e.spawn rank tag p).2.keys = e.keys ++ [(rank, tag)] :=
  List.map_append

/-- A task may be started when no two tasks share both rank and tag afterwards. -/
theorem admits_of_nodup {e : Executor σ} {rank : Rank} {tag : Tag} (program : Program Bytes)
    (h : (e.keys ++ [(rank, tag)]).Nodup) :
    e.Admits (fun _ _ _ => True) rank tag program := by
  refine ⟨trivial, ?_⟩
  rintro task htask ⟨rfl, rfl⟩
  have hmem : (task.rank, task.tag) ∈ e.keys := List.mem_map_of_mem htask
  exact List.disjoint_of_nodup_append h hmem (List.mem_singleton_self _)

variable [Transport σ]

@[simp] theorem keys_step (e : Executor σ) (k : TaskId) : (e.step k).2.keys = e.keys := by
  rcases e.tasks_step k with htasks | ⟨task, s, hk, -, htasks⟩
  · rw [keys, htasks, keys]
  · exact keys_eq_of_set hk htasks

@[simp] theorem keys_abort (e : Executor σ) (k : TaskId) : (e.abort k).keys = e.keys := by
  rcases e.tasks_abort k with htasks | ⟨task, hk, htasks⟩
  · rw [keys, htasks, keys]
  · exact keys_eq_of_set hk htasks

theorem Reaches.keys_eq {e₀ e : Executor σ} (h : e₀.Reaches e) : e.keys = e₀.keys := by
  induction h with
  | refl => rfl
  | step _ i ih => rw [keys_step, ih]
  | requeue _ ready ih => exact ih

/-- To close endpoints is nothing to the tasks. -/
@[simp] theorem tasks_releases (e : Executor σ) (ranks : List Rank) :
    (ranks.foldl Executor.release e).tasks = e.tasks := by
  induction ranks generalizing e with
  | nil => rfl
  | cons rank ranks ih => exact ih _

@[simp] theorem keys_launch (e : Executor σ) (rank : Rank) (tag : Tag) (p : Program Bytes) :
    (e.launch rank tag p).2.keys = e.keys ++ [(rank, tag)] :=
  (reaches_run _ _).keys_eq.trans List.map_append

/-- The task that is launched comes after all others. -/
theorem exists_of_launch (e : Executor σ) (rank : Rank) (tag : Tag) (p : Program Bytes) :
    ∃ s, (e.launch rank tag p).2.tasks[e.tasks.length]? = some ⟨rank, tag, s⟩ := by
  have hlength : e.tasks.length = e.keys.length := (List.length_map _).symm
  have hkey : (e.launch rank tag p).2.keys[e.tasks.length]? = some (rank, tag) := by
    rw [keys_launch, hlength, List.getElem?_concat_length]
  rw [keys, List.getElem?_map] at hkey
  obtain ⟨⟨rank', tag', s⟩, htask, heq⟩ := Option.map_eq_some_iff.1 hkey
  cases heq
  exact ⟨s, htask⟩

/-- What calls lead to: tasks are added and take steps, the queue is changed, endpoints are
released, and of all tasks only these are given up. -/
inductive Evolves (given : TaskId → Prop) (e : Executor σ) : Executor σ → Prop where
  | refl : Evolves given e e
  | add {e' : Executor σ} (h : Evolves given e e') (rank : Rank) (tag : Tag)
      (p : Program Bytes) : Evolves given e (e'.add rank tag p).2
  | step {e' : Executor σ} (h : Evolves given e e') (k : TaskId) :
      Evolves given e (e'.step k).2
  | requeue {e' : Executor σ} (h : Evolves given e e') (ready : List TaskId) :
      Evolves given e { e' with ready }
  | abort {e' : Executor σ} (h : Evolves given e e') {k : TaskId} (hk : given k) :
      Evolves given e (e'.abort k)
  | release {e' : Executor σ} (h : Evolves given e e') (rank : Rank) :
      Evolves given e (e'.release rank)

namespace Evolves

variable {given : TaskId → Prop} {e e' e'' : Executor σ}

theorem reaches (h : e.Evolves given e') (he : e'.Reaches e'') : e.Evolves given e'' := by
  induction he with
  | refl => exact h
  | step _ k ih => exact ih.step k
  | requeue _ ready ih => exact ih.requeue ready

theorem releases (h : e.Evolves given e') (ranks : List Rank) :
    e.Evolves given (ranks.foldl Executor.release e') :=
  List.foldlRecOn _ _ h fun _ he rank _ => he.release rank

theorem keys_isPrefix (h : e.Evolves given e') : e.keys <+: e'.keys := by
  induction h with
  | refl => exact List.prefix_rfl
  | @add e' _ rank tag p ih =>
    have hkeys : (e'.add rank tag p).2.keys = e'.keys ++ [(rank, tag)] := List.map_append
    rw [hkeys]
    exact ih.trans (List.prefix_append _ _)
  | step _ k ih => rwa [keys_step]
  | requeue _ ready ih => exact ih
  | abort _ hk ih => rwa [keys_abort]
  | release _ rank ih => exact ih

end Evolves

end Executor

namespace Session

variable {σ : Type}

/-! ## Histories -/

variable [Transport σ]

/-- What a call comes to. -/
def perform (s : Session σ) : Call → Except Refusal (Session σ)
  | .group rank name list => s.group rank name list
  | .share name other => s.share name other
  | .build rank groupName name request => s.build rank groupName name request
  | .start name d input inRuntime => s.start name d input inRuntime
  | .wait name d => (s.wait name d).map Prod.snd
  | .close name => s.close name
  | .dropCommunicator rank => s.dropCommunicator rank
  | .barrier rank groupName name => s.barrier rank groupName name
  | .settle => .ok s.settle
  | .step k => .ok { s with executor := (s.executor.step k).2 }

/-- The session after a call. -/
def call (s : Session σ) (c : Call) : Session σ := s.after (s.perform c)

/-- The session after a history. -/
def calls (s : Session σ) (history : List Call) : Session σ := history.foldl call s

@[simp] theorem calls_nil (s : Session σ) : s.calls [] = s := rfl

@[simp] theorem calls_cons (s : Session σ) (c : Call) (history : List Call) :
    s.calls (c :: history) = (s.call c).calls history := rfl

theorem calls_append (s : Session σ) (history later : List Call) :
    s.calls (history ++ later) = (s.calls history).calls later :=
  List.foldl_append

theorem call_of_ok {s s' : Session σ} {c : Call} (h : s.perform c = .ok s') : s.call c = s' := by
  rw [call, h]
  rfl

/-- A call that is refused changes nothing. -/
theorem call_of_error {s : Session σ} {c : Call} {refusal : Refusal}
    (h : s.perform c = .error refusal) : s.call c = s := by
  rw [call, h]
  rfl

/-- What holds before a call and is kept by it when it goes through holds afterwards. -/
theorem call_induction {P : Session σ → Prop} {s : Session σ} {c : Call} (h : P s)
    (hok : ∀ s', s.perform c = .ok s' → P s') : P (s.call c) := by
  cases hs : s.perform c with
  | error refusal => rwa [call_of_error hs]
  | ok s' =>
    rw [call_of_ok hs]
    exact hok s' hs

/-- A process that has the communicator of one rank only, of a world of some size. -/
def ofRank (rank : Rank) (world : UInt32) : Session Mesh :=
  ofCommunicators (.ofSize world.toNat) .builtin ((Context.create rank world).toOption.toList.map
    fun context => { context, config := .standard })

/-! ## What calls do to tasks -/

section

variable (s : Session σ)

/-- The call lets go of an operation that is under way as this task. -/
def GivesUp (c : Call) (k : TaskId) : Prop :=
  ∃ name op, c.LetsGo name ∧ s.operations.get? name = some op ∧ op.phase = .started k

theorem evolves_drop {c : Call} {name : String} (hc : c.LetsGo name) :
    s.executor.Evolves (s.GivesUp c) (s.drop name).executor := by
  obtain hkept | ⟨op, task, hop, hphase, hgiven⟩ := s.executor_drop name
  · rw [hkept]
    exact .refl
  · rw [hgiven]
    exact .abort .refl ⟨name, op, hc, hop, hphase⟩

/-- Whatever is asked, no task is given up but that of an operation that is let go of. -/
theorem evolves_call (c : Call) : s.executor.Evolves (s.GivesUp c) (s.call c).executor := by
  refine call_induction (P := fun s' => s.executor.Evolves (s.GivesUp c) s'.executor) .refl ?_
  intro s' h
  cases c with
  | group rank name list =>
    obtain ⟨c, group, c', -, -, rfl⟩ := of_group h
    exact .refl
  | share name other =>
    obtain ⟨id, -, rfl⟩ := of_share h
    exact .refl
  | build rank groupName name request =>
    obtain ⟨c, id, shared, r, op, -, -, -, -, rfl⟩ := of_build h
    exact .releases ((s.draw id).evolves_drop (c := .build rank groupName name request) rfl) _
  | start name d input inRuntime =>
    obtain ⟨op, job, -, -, -, rfl⟩ := of_start h
    exact .requeue (.add .refl _ _ _) _
  | wait name d =>
    obtain ⟨⟨waited, s''⟩, hwait, rfl⟩ := exists_of_map_eq_ok h
    obtain ⟨op, task, -, -, ⟨-, -, rfl⟩ | ⟨result, -, -, rfl⟩⟩ := of_wait hwait
    · exact .refl
    · exact .refl
  | close name =>
    obtain rfl := of_close h
    have hdrop := s.evolves_drop (c := .close name) rfl
    exact .reaches (.releases hdrop _) (Executor.reaches_settle _)
  | dropCommunicator rank =>
    obtain rfl := of_dropCommunicator h
    exact .releases .refl _
  | barrier rank groupName name =>
    obtain ⟨c, id, shared, -, -, ⟨e, -, rfl⟩ | ⟨exchange, -, rfl⟩⟩ := of_barrier h
    · exact .refl
    · exact .requeue (.reaches (.add .refl _ _ _) (Executor.reaches_run _ _)) _
  | settle =>
    cases h
    exact .reaches .refl (Executor.reaches_settle _)
  | step k =>
    cases h
    exact .step .refl k

/-- Whatever is asked, tasks are only added, and keep their rank and tag. -/
theorem keys_call (c : Call) : s.executor.keys <+: (s.call c).executor.keys :=
  (s.evolves_call c).keys_isPrefix

theorem keys_calls (history : List Call) :
    s.executor.keys <+: (s.calls history).executor.keys := by
  induction history generalizing s with
  | nil => exact List.prefix_rfl
  | cons c history ih => exact (s.keys_call c).trans (ih _)

end

/-! ## Histories lead to reachable sessions -/

/-- Where no two tasks share both rank and tag afterwards, a call leads to a reachable session. -/
theorem Reachable.call {network : σ} {s : Session σ} (h : s.Reachable (fun _ _ _ => True) network)
    (c : Call) (hdistinct : Roll.Distinct (s.call c).executor.tasks) :
    (s.call c).Reachable (fun _ _ _ => True) network := by
  cases c with
  | group rank name list => exact h.grouped rank name list
  | share name other => exact h.shared name other
  | build rank groupName name request => exact h.built rank groupName name request
  | start name d input inRuntime =>
    refine h.started name d input inRuntime ?_
    rintro op job hop hjob rfl
    refine Executor.admits_of_nodup _ ?_
    have hcall := call_of_ok (c := .start name d input true) (start_eq_ok hop hjob)
    have hkeys := s.executor.keys_spawn op.rank op.exchange.tag (op.implementation.run job)
    rw [hcall] at hdistinct
    exact hkeys ▸ hdistinct
  | wait name d => exact h.waited name d
  | close name => exact h.closed name
  | dropCommunicator rank => exact h.departed rank
  | barrier rank groupName name =>
    refine h.entered rank groupName name ?_
    intro c id shared exchange hc hgroup hexchange
    refine Executor.admits_of_nodup _ ?_
    have hcall := call_of_ok (c := .barrier rank groupName name)
      (barrier_eq_ok hc hgroup hexchange)
    have hkeys := s.executor.keys_launch exchange.group.rank exchange.tag (Barrier.pass exchange)
    rw [hcall] at hdistinct
    exact hkeys ▸ hdistinct
  | settle => exact h.settled
  | step k => exact h.stepped k

/-- A history in which no two tasks share both rank and tag leads to a reachable session. -/
theorem reachable_calls (network : σ) (registry : Registry) (communicators : List Communicator)
    (history : List Call)
    (hdistinct : Roll.Distinct
      ((ofCommunicators network registry communicators).calls history).executor.tasks) :
    ((ofCommunicators network registry communicators).calls history).Reachable
      (fun _ _ _ => True) network := by
  induction history using List.reverseRecOn with
  | nil => exact .begun registry communicators
  | append_singleton history c ih =>
    rw [calls_append, calls_cons, calls_nil] at hdistinct ⊢
    refine (ih ?_).call c hdistinct
    exact List.Nodup.sublist (keys_call (Session.calls _ history) c).sublist hdistinct

end Session

end Collectives
