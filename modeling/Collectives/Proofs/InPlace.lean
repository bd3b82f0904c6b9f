import Collectives.Proofs.Calls

/-!
# Calls that work in place

A call of a session is a function that yields the next session or a refusal, so a call that is
refused has no session to leave behind.  Whoever works on a session in place has one: `InPlace` is
made of checks, which read the session and may refuse, and of acts, which change it, and what was
changed stays changed when a later check refuses.

`Call.inPlace` is each call once more as it works in place, with its checks and its acts in the
order in which they are made: a group is counted when it was created, a tag is drawn when everything
else is in order, an operation is started when its task was.  No check comes after an act.  So both
forms are the same (`Session.exec_inPlace`), and a call that is refused leaves the session as it was
(`Session.exec_of_refused`).
-/

namespace Collectives

namespace Session

/-- What works on a session in place. -/
abbrev InPlace (σ : Type) := ExceptT Refusal (StateM (Session σ))

variable {σ α β γ δ : Type}

namespace InPlace

/-- What it comes to, and the session that it leaves. -/
def exec (m : InPlace σ α) (s : Session σ) : Except Refusal α × Session σ := StateT.run m.run s

/-- Reads the session, and refuses or goes on. -/
def check (f : Session σ → Except Refusal α) : InPlace σ α := ExceptT.mk fun s => (f s, s)

/-- Finds what a table of the session holds under a name. -/
def lookUp {κ ν : Type} [DecidableEq κ] (table : Session σ → Table κ ν) (key : κ)
    (what : Missing) : InPlace σ ν :=
  check fun s => find (table s) key what

/-- Makes a check that does not depend on the session. -/
def require (result : Except Error α) : InPlace σ α := check fun _ => orRefuse result

/-- Reads the session. -/
def read (f : Session σ → α) : InPlace σ α := f <$> get

/-- Changes the session. -/
def act (f : Session σ → Session σ) : InPlace σ Unit := modify f

section

variable {s : Session σ} {k : α → InPlace σ β} {value : γ → β × Session σ}

/-- What comes next begins with the session that was left, unless there was a refusal. -/
theorem exec_bind (m : InPlace σ α) : (m >>= k).exec s = match m.exec s with
    | (.ok a, s') => (k a).exec s'
    | (.error refusal, s') => (.error refusal, s') := by
  unfold exec
  rw [ExceptT.run_bind, StateT.run_bind]
  rcases StateT.run m.run s with ⟨_ | _, s'⟩ <;> rfl

/-- It comes to what a function comes to, and where that is refused it leaves the session as it
was. -/
def Follows (m : InPlace σ β) (s : Session σ) (result : Except Refusal γ)
    (value : γ → β × Session σ) : Prop :=
  m.exec s = match result with
    | .ok c => (.ok (value c).1, (value c).2)
    | .error refusal => (.error refusal, s)

/-- A check may refuse as long as nothing was changed. -/
theorem Follows.check {f : Session σ → Except Refusal α} {g : α → Except Refusal γ}
    (h : ∀ a, (k a).Follows s (g a) value) : Follows (check f >>= k) s (f s >>= g) value := by
  have hexec : (InPlace.check f).exec s = (f s, s) := rfl
  unfold Follows
  rw [exec_bind, hexec]
  cases f s with
  | error refusal => rfl
  | ok a => exact h a

/-- So may a check that is a part of a check. -/
theorem Follows.require {x : Except Error α} {f : α → Except Error δ} {g : δ → Except Refusal γ}
    (h : ∀ a, (k a).Follows s (orRefuse (f a) >>= g) value) :
    Follows (require x >>= k) s (orRefuse (x >>= f) >>= g) value := by
  have hbind : orRefuse (x >>= f) = orRefuse x >>= fun a => orRefuse (f a) := by
    cases x <;> rfl
  rw [hbind, bind_assoc]
  exact .check h

/-- What it comes to may be ignored. -/
theorem Follows.ignore {m : InPlace σ β} {result : Except Refusal γ}
    (h : m.Follows s result value) : Follows (m >>= fun _ => pure ()) s
      (result.map fun c => (value c).2) fun s' => ((), s') := by
  unfold Follows at h ⊢
  rw [exec_bind, h]
  cases result <;> rfl

end

/-! ## The calls -/

/-- A group is counted when it was created. -/
def group (rank : Rank) (name : String) (list : Option (List Rank)) : InPlace σ Unit := do
  let c ← lookUp communicators rank .communicator
  let list := list.getD c.context.allRanks
  let ranks := Group.distinct list
  let generation := c.generation ranks
  let group ← require (Group.create c.context list generation)
  act fun s =>
    let counted := { c with generations := c.generations.insert ranks (generation + 1) }
    { s with communicators := s.communicators.insert rank counted }
  act fun s => { s with
    pool := s.pool ++ [{ group }]
    groups := s.groups.insert name s.pool.length }

def share (name other : String) : InPlace σ Unit := do
  let (id, _) ← check fun s => s.findGroup name
  act fun s => { s with groups := s.groups.insert other id }

variable [Transport σ]

/-- A tag is drawn when everything else is in order. -/
def build (rank : Rank) (groupName name : String) (request : Except Error Request) :
    InPlace σ Unit := do
  let c ← lookUp communicators rank .communicator
  let (id, shared) ← check fun s => s.findGroup groupName
  let request ← require request
  require (c.checkMember shared.group)
  let kind := request.params.kind
  let algorithm := request.algorithm.getD (c.config.default kind)
  let implementation ←
    check fun s => orRefuse (s.registry.resolve ⟨kind, request.dtype, algorithm⟩)
  require (Communicator.checkOperator request.params request.dtype)
  require (Operation.checkRoot shared.group request.params)
  let _ ← require (payloadBytes request.count request.dtype)
  require (implementation.validate request.params)
  act fun s => s.draw id
  act fun s => s.drop name
  act fun s =>
    let op : Operation := {
      params := request.params
      dtype := request.dtype
      count := request.count
      algorithm
      implementation
      exchange := ⟨shared.group, shared.group.tag shared.drawn, kind.name⟩ }
    { s with operations := s.operations.insert name op }
  act releaseDeparted

/-- An operation is started when its task was. -/
def start (name : String) (d : DataType) (input : Option (List d.Elem)) (inRuntime : Bool) :
    InPlace σ Unit := do
  let op ← lookUp operations name .operation
  require op.checkIdle
  require (op.checkType d)
  let input ← require (op.stageInput d input)
  require (checkRuntime inRuntime)
  let job : Job := ⟨op.exchange, op.params, op.dtype, op.count, input⟩
  let task ← read fun s => s.executor.tasks.length
  act fun s => { s with
    executor := (s.executor.spawn op.rank op.exchange.tag (op.implementation.run job)).2 }
  act fun s => { s with
    operations := s.operations.insert name { op with phase := .started task } }

/-- An operation is completed when its task is over. -/
def wait (name : String) (d : DataType) : InPlace σ (Waited d) := do
  let op ← lookUp operations name .operation
  let task ← require (op.awaited d)
  match ← read fun s => (s.executor.status? task).bind (Operation.result? d task) with
  | none => return .pending
  | some result =>
    act fun s => { s with operations := s.operations.insert name { op with phase := .completed } }
    return .delivered result

def close (name : String) : InPlace σ Unit := do
  let _ ← lookUp operations name .operation
  act fun s => s.drop name
  act releaseDeparted
  act settle

def dropCommunicator (rank : Rank) : InPlace σ Unit := do
  let _ ← lookUp communicators rank .communicator
  act fun s => { s with communicators := s.communicators.erase rank }
  act fun s => { s with departed := rank :: s.departed }
  act releaseDeparted

/-- A tag is drawn when it is known that the barrier can be entered. -/
def barrier (rank : Rank) (groupName name : String) : InPlace σ Unit := do
  let c ← lookUp communicators rank .communicator
  let (id, shared) ← check fun s => s.findGroup groupName
  match c.checkMember shared.group with
  | .error e => act fun s => { s with barriers := s.barriers.insert name (.error e) }
  | .ok () =>
    let exchange : Exchange := ⟨shared.group, shared.group.tag shared.drawn, "barrier"⟩
    act fun s => s.draw id
    let task ← read fun s => s.executor.tasks.length
    act fun s => { s with
      executor := (s.executor.launch exchange.group.rank exchange.tag (Barrier.pass exchange)).2 }
    act fun s => { s with barriers := s.barriers.insert name (.ok task) }

/-! ## Both forms are the same -/

section

variable (s : Session σ) (rank : Rank) (name other groupName : String)

omit [Transport σ] in
theorem follows_group (list : Option (List Rank)) :
    (group rank name list).Follows s (s.group rank name list) fun s' => ((), s') := by
  refine .check fun c => ?_
  rw [Communicator.group]
  exact .require fun _ => rfl

omit [Transport σ] in
theorem follows_share :
    (share name other).Follows s (s.share name other) fun s' => ((), s') :=
  .check fun _ => rfl

theorem follows_build (request : Except Error Request) :
    (build rank groupName name request).Follows s (s.build rank groupName name request)
      fun s' => ((), s') := by
  refine .check fun c => .check fun (id, shared) => .check fun request => ?_
  dsimp only
  rw [Communicator.build]
  refine .require fun _ => .require fun implementation => .require fun _ => ?_
  rw [Operation.create]
  exact .require fun _ => .require fun _ => .require fun _ => rfl

omit [Transport σ] in
theorem follows_start (d : DataType) (input : Option (List d.Elem)) (inRuntime : Bool) :
    (start name d input inRuntime).Follows s (s.start name d input inRuntime)
      fun s' => ((), s') := by
  refine .check fun op => ?_
  rw [Operation.stage]
  exact .require fun _ => .require fun _ => .require fun _ => .check fun _ => rfl

omit [Transport σ] in
theorem follows_wait (d : DataType) : (wait name d).Follows s (s.wait name d) id := by
  refine .check fun op => .check fun task => ?_
  have hread : ∀ f : Session σ → Option (Except Error (List d.Elem)),
      (read f).exec s = (.ok (f s), s) := fun _ => rfl
  unfold Follows
  rw [exec_bind, hread]
  dsimp only
  cases (s.executor.status? task).bind (Operation.result? d task) with
  | none => rfl
  | some result => rfl

theorem follows_close : (close name).Follows s (s.close name) fun s' => ((), s') :=
  .check fun _ => rfl

theorem follows_dropCommunicator :
    (dropCommunicator rank).Follows s (s.dropCommunicator rank) fun s' => ((), s') :=
  .check fun _ => rfl

theorem follows_barrier : (barrier rank groupName name).Follows s (s.barrier rank groupName name)
    fun s' => ((), s') := by
  refine .check fun c => .check fun (id, shared) => ?_
  dsimp only
  rw [Communicator.barrier]
  cases c.checkMember shared.group with
  | error e => rfl
  | ok => rfl

end

end InPlace

end Session

open Session in
/-- The call as it works in place. -/
def Call.inPlace {σ : Type} [Transport σ] : Call → InPlace σ Unit
  | .group rank name list => InPlace.group rank name list
  | .share name other => InPlace.share name other
  | .build rank groupName name request => InPlace.build rank groupName name request
  | .start name d input inRuntime => InPlace.start name d input inRuntime
  | .wait name d => do let _ ← InPlace.wait name d
  | .close name => InPlace.close name
  | .dropCommunicator rank => InPlace.dropCommunicator rank
  | .barrier rank groupName name => InPlace.barrier rank groupName name
  | .settle => InPlace.act Session.settle
  | .step k => InPlace.act fun s => { s with executor := (s.executor.step k).2 }

namespace Session

variable {σ : Type} [Transport σ]

/-- In place a call comes to the same, and leaves the same session. -/
theorem exec_inPlace (s : Session σ) (c : Call) :
    c.inPlace.exec s = ((s.perform c).map fun _ => (), s.call c) := by
  have hsame : ∀ {m : InPlace σ Unit} {result : Except Refusal (Session σ)},
      m.Follows s result (fun s' => ((), s')) →
        m.exec s = (result.map fun _ => (), s.after result) := by
    intro m result h
    rw [h]
    cases result <;> rfl
  cases c with
  | group rank name list => exact hsame (InPlace.follows_group s rank name list)
  | share name other => exact hsame (InPlace.follows_share s name other)
  | build rank groupName name request =>
    exact hsame (InPlace.follows_build s rank name groupName request)
  | start name d input inRuntime => exact hsame (InPlace.follows_start s name d input inRuntime)
  | wait name d => exact hsame (InPlace.follows_wait s name d).ignore
  | close name => exact hsame (InPlace.follows_close s name)
  | dropCommunicator rank => exact hsame (InPlace.follows_dropCommunicator s rank)
  | barrier rank groupName name => exact hsame (InPlace.follows_barrier s rank name groupName)
  | settle => rfl
  | step k => rfl

/-- A call that is refused leaves the session as it was, also where it works in place. -/
theorem exec_of_refused {s : Session σ} {c : Call} {refusal : Refusal}
    (h : s.perform c = .error refusal) : c.inPlace.exec s = (.error refusal, s) := by
  rw [exec_inPlace, h, call_of_error h]
  rfl

end Session

end Collectives
