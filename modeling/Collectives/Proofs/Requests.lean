import Collectives.Session
import Collectives.Proofs.Barrier

/-!
# What requests do

A request of a user goes through or is refused, and when it goes through it does one thing.
`of_group`, … , `of_barrier` say once for each request what has been in order then, and which
session comes of it; whatever is kept by requests is proved from these.
-/

namespace Collectives

theorem bind_of_eq_ok {ε α β : Type} {x : Except ε α} {a : α} {f : α → Except ε β}
    (h : x = .ok a) : x >>= f = f a := by
  rw [h]
  rfl

theorem exists_of_map_eq_ok {ε α β : Type} {x : Except ε α} {f : α → β} {b : β}
    (h : x.map f = .ok b) : ∃ a, x = .ok a ∧ f a = b := by
  cases x with
  | error e => cases h
  | ok a =>
    cases h
    exact ⟨a, rfl, rfl⟩

/-! ## What is built -/

theorem Group.of_create {c : Context} {list : List Rank} {generation : Nat} {group : Group}
    (h : Group.create c list generation = .ok group) :
    group.id = Tag.groupId (Group.distinct list) generation := by
  unfold Group.create at h
  dsimp only at h
  split at h
  · cases h
  · split at h
    · cases h
    · split at h
      · cases h
        rfl
      · cases h

/-- What is built begins idle, on the next tag of its group. -/
theorem Operation.eq_of_create {group : Group} {sequence : Nat} {request : Request}
    {name : AlgorithmName} {algorithm : Algorithm} {op : Operation}
    (h : Operation.create group sequence request name algorithm = .ok op) :
    op.phase = .idle ∧ op.exchange.group = group ∧ op.exchange.tag = group.tag sequence := by
  obtain ⟨_, -, h⟩ := exists_of_bind_eq_ok h
  obtain ⟨_, -, h⟩ := exists_of_bind_eq_ok h
  obtain ⟨_, -, h⟩ := exists_of_bind_eq_ok h
  cases h
  exact ⟨rfl, rfl, rfl⟩

namespace Communicator

variable {c c' : Communicator} {group : Group}

/-- The group is the next one on its list, and no other list counts it. -/
theorem of_group {list : List Rank} (h : c.group list = .ok (group, c')) :
    group.id = Tag.groupId (Group.distinct list) (c.generation (Group.distinct list)) ∧
      ∀ ranks, c'.generation ranks =
        c.generation ranks + if Group.distinct list = ranks then 1 else 0 := by
  obtain ⟨group', hcreate, h⟩ := exists_of_bind_eq_ok h
  cases h
  refine ⟨Group.of_create hcreate, ?_⟩
  intro ranks
  rw [generation, Table.get?_insert]
  by_cases hranks : ranks = Group.distinct list
  · subst hranks
    rw [if_pos rfl, if_pos rfl]
    rfl
  · rw [if_neg hranks, if_neg fun heq => hranks heq.symm]
    rfl

theorem of_build {registry : Registry} {sequence : Nat} {request : Request} {op : Operation}
    (h : c.build registry group sequence request = .ok op) :
    op.phase = .idle ∧ op.exchange.group = group ∧ op.exchange.tag = group.tag sequence := by
  obtain ⟨_, -, h⟩ := exists_of_bind_eq_ok h
  obtain ⟨_, -, h⟩ := exists_of_bind_eq_ok h
  obtain ⟨_, -, h⟩ := exists_of_bind_eq_ok h
  exact Operation.eq_of_create h

theorem of_barrier {sequence : Nat} {exchange : Exchange}
    (h : c.barrier group sequence = .ok exchange) :
    exchange.group = group ∧ exchange.tag = group.tag sequence := by
  obtain ⟨_, -, h⟩ := exists_of_bind_eq_ok h
  cases h
  exact ⟨rfl, rfl⟩

end Communicator

namespace Session

variable {σ : Type}

theorem find_eq_ok {κ ν : Type} [DecidableEq κ] {table : Table κ ν} {key : κ} {what : Missing}
    {value : ν} (h : find table key what = .ok value) : table.get? key = some value := by
  unfold find at h
  split at h
  · next heq =>
    cases h
    exact heq
  · cases h

theorem orRefuse_eq_ok {α : Type} {result : Except Error α} {a : α} (h : orRefuse result = .ok a) :
    result = .ok a := by
  cases result with
  | error e => cases h
  | ok a' =>
    cases h
    rfl

/-! ## What is asked of a session -/

section

variable {s s' : Session σ} {rank : Rank} {name other groupName : String}

theorem findGroup_eq_ok {id : GroupId} {shared : SharedGroup}
    (h : s.findGroup name = .ok (id, shared)) :
    s.groups.get? name = some id ∧ s.pool[id]? = some shared := by
  obtain ⟨id', hid, h⟩ := exists_of_bind_eq_ok h
  split at h
  · next shared' hshared =>
    cases h
    exact ⟨find_eq_ok hid, hshared⟩
  · cases h

theorem of_group {list : Option (List Rank)} (h : s.group rank name list = .ok s') :
    ∃ c group c', s.communicators.get? rank = some c ∧
      c.group (list.getD c.context.allRanks) = .ok (group, c') ∧
      s' = { s with
        communicators := s.communicators.insert rank c'
        pool := s.pool ++ [{ group }]
        groups := s.groups.insert name s.pool.length } := by
  obtain ⟨c, hc, h⟩ := exists_of_bind_eq_ok h
  obtain ⟨⟨group, c'⟩, hgroup, h⟩ := exists_of_bind_eq_ok h
  cases h
  exact ⟨c, group, c', find_eq_ok hc, orRefuse_eq_ok hgroup, rfl⟩

theorem of_share (h : s.share name other = .ok s') :
    ∃ id, s.groups.get? name = some id ∧
      s' = { s with groups := s.groups.insert other id } := by
  obtain ⟨⟨id, shared⟩, hgroup, h⟩ := exists_of_bind_eq_ok h
  cases h
  exact ⟨id, (findGroup_eq_ok hgroup).1, rfl⟩

theorem of_start {d : DataType} {input : Option (List d.Elem)} {inRuntime : Bool}
    (h : s.start name d input inRuntime = .ok s') :
    ∃ op job, s.operations.get? name = some op ∧ op.stage d input = .ok job ∧ inRuntime = true ∧
      s' = { s with
        executor := (s.executor.spawn op.rank op.exchange.tag (op.implementation.run job)).2
        operations := s.operations.insert name
          { op with phase := .started s.executor.tasks.length } } := by
  obtain ⟨op, hop, h⟩ := exists_of_bind_eq_ok h
  obtain ⟨job, hjob, h⟩ := exists_of_bind_eq_ok h
  obtain ⟨_, hruntime, h⟩ := exists_of_bind_eq_ok h
  cases h
  refine ⟨op, job, find_eq_ok hop, orRefuse_eq_ok hjob, ?_, rfl⟩
  cases inRuntime with
  | true => rfl
  | false => cases hruntime

/-- An operation starts where nothing stands in its way. -/
theorem start_eq_ok {d : DataType} {input : Option (List d.Elem)} {op : Operation} {job : Job}
    (hop : s.operations.get? name = some op) (hjob : op.stage d input = .ok job) :
    s.start name d input true = .ok { s with
      executor := (s.executor.spawn op.rank op.exchange.tag (op.implementation.run job)).2
      operations := s.operations.insert name
        { op with phase := .started s.executor.tasks.length } } := by
  rw [start, find, hop]
  refine (bind_of_eq_ok rfl).trans ?_
  rw [hjob]
  rfl

theorem of_wait {d : DataType} {waited : Waited d} (h : s.wait name d = .ok (waited, s')) :
    ∃ op task, s.operations.get? name = some op ∧ op.awaited d = .ok task ∧
      (((s.executor.status? task).bind (Operation.result? d task) = none ∧ waited = .pending ∧
          s' = s) ∨
        ∃ result, (s.executor.status? task).bind (Operation.result? d task) = some result ∧
          waited = .delivered result ∧ s' = { s with
            operations := s.operations.insert name { op with phase := .completed } }) := by
  obtain ⟨op, hop, h⟩ := exists_of_bind_eq_ok h
  obtain ⟨task, htask, h⟩ := exists_of_bind_eq_ok h
  refine ⟨op, task, find_eq_ok hop, orRefuse_eq_ok htask, ?_⟩
  split at h
  · next hresult =>
    cases h
    exact .inl ⟨hresult, rfl, rfl⟩
  · next result hresult =>
    cases h
    exact .inr ⟨result, hresult, rfl, rfl⟩

variable [Transport σ]

theorem of_build {request : Except Error Request}
    (h : s.build rank groupName name request = .ok s') :
    ∃ c id shared r op, s.communicators.get? rank = some c ∧
      s.findGroup groupName = .ok (id, shared) ∧ request = .ok r ∧
      c.build s.registry shared.group shared.drawn r = .ok op ∧
      s' = releaseDeparted { (s.draw id).drop name with
        operations := ((s.draw id).drop name).operations.insert name op } := by
  obtain ⟨c, hc, h⟩ := exists_of_bind_eq_ok h
  obtain ⟨⟨id, shared⟩, hgroup, h⟩ := exists_of_bind_eq_ok h
  obtain ⟨r, hr, h⟩ := exists_of_bind_eq_ok h
  obtain ⟨op, hop, h⟩ := exists_of_bind_eq_ok h
  cases h
  exact ⟨c, id, shared, r, op, find_eq_ok hc, hgroup, orRefuse_eq_ok hr, orRefuse_eq_ok hop, rfl⟩

theorem of_close (h : s.close name = .ok s') :
    s' = (s.drop name).releaseDeparted.settle := by
  obtain ⟨op, -, h⟩ := exists_of_bind_eq_ok h
  cases h
  rfl

theorem of_dropCommunicator (h : s.dropCommunicator rank = .ok s') :
    s' = releaseDeparted { s with
      communicators := s.communicators.erase rank
      departed := rank :: s.departed } := by
  obtain ⟨c, -, h⟩ := exists_of_bind_eq_ok h
  cases h
  rfl

theorem of_barrier (h : s.barrier rank groupName name = .ok s') :
    ∃ c id shared, s.communicators.get? rank = some c ∧
      s.findGroup groupName = .ok (id, shared) ∧
      ((∃ e, c.barrier shared.group shared.drawn = .error e ∧
          s' = { s with barriers := s.barriers.insert name (.error e) }) ∨
        ∃ exchange, c.barrier shared.group shared.drawn = .ok exchange ∧
          s' = { s.draw id with
            executor := (s.executor.launch exchange.group.rank exchange.tag
              (Barrier.pass exchange)).2
            barriers := s.barriers.insert name (.ok s.executor.tasks.length) }) := by
  obtain ⟨c, hc, h⟩ := exists_of_bind_eq_ok h
  obtain ⟨⟨id, shared⟩, hgroup, h⟩ := exists_of_bind_eq_ok h
  refine ⟨c, id, shared, find_eq_ok hc, hgroup, ?_⟩
  dsimp only at h
  split at h
  · next e he =>
    cases h
    exact .inl ⟨e, he, rfl⟩
  · next exchange hexchange =>
    cases h
    exact .inr ⟨exchange, hexchange, rfl⟩

/-- A barrier is entered where the communicator's rank is that of the group. -/
theorem barrier_eq_ok {c : Communicator} {id : GroupId} {shared : SharedGroup}
    {exchange : Exchange} (hc : s.communicators.get? rank = some c)
    (hgroup : s.findGroup groupName = .ok (id, shared))
    (hexchange : c.barrier shared.group shared.drawn = .ok exchange) :
    s.barrier rank groupName name = .ok { s.draw id with
      executor := (s.executor.launch exchange.group.rank exchange.tag
        (Barrier.pass exchange)).2
      barriers := s.barriers.insert name (.ok s.executor.tasks.length) } := by
  rw [barrier, find, hc]
  refine (bind_of_eq_ok rfl).trans ((bind_of_eq_ok hgroup).trans ?_)
  dsimp only
  rw [hexchange]
  rfl

end

/-! ## Letting go -/

variable [Transport σ]

theorem get?_drop (s : Session σ) (name other : String) :
    (s.drop name).operations.get? other =
      if other = name then none else s.operations.get? other := by
  unfold drop
  split
  · next hnone =>
    split
    · next heq => rw [heq, hnone]
    · rfl
  · exact Table.get?_erase _ _ _

theorem executor_drop_of_started {s : Session σ} {name : String} {op : Operation} {task : TaskId}
    (hop : s.operations.get? name = some op) (hphase : op.phase = .started task) :
    (s.drop name).executor = s.executor.abort task := by
  unfold drop
  rw [hop]
  dsimp only
  rw [hphase]

/-- To let go of an operation gives up its task if it has one, and is nothing to the tasks
otherwise. -/
theorem executor_drop (s : Session σ) (name : String) :
    (s.drop name).executor = s.executor ∨
      ∃ op task, s.operations.get? name = some op ∧ op.phase = .started task ∧
        (s.drop name).executor = s.executor.abort task := by
  cases hop : s.operations.get? name with
  | none =>
    unfold drop
    rw [hop]
    exact .inl rfl
  | some op =>
    cases hphase : op.phase with
    | idle | completed =>
      unfold drop
      rw [hop]
      dsimp only
      rw [hphase]
      exact .inl rfl
    | started task =>
      exact .inr ⟨op, task, rfl, hphase, executor_drop_of_started hop hphase⟩

theorem pool_drop (s : Session σ) (name : String) : (s.drop name).pool = s.pool := by
  unfold drop
  split <;> rfl

theorem communicators_drop (s : Session σ) (name : String) :
    (s.drop name).communicators = s.communicators := by
  unfold drop
  split <;> rfl

end Session

end Collectives
