import Collectives.Proofs.Ledger

/-!
# Releases

What becomes of the tag of an operation that was started and that nobody holds any more.  Until it
is let go of, an operation that was started has its task, or its task has come to its end
(`Session.Held`).  Who lets go of it gives the task up if it is still under way, so afterwards it
is not under way in any case.

Then the ledger tells what was made of the tag (`Session.released_once`).  By itself or by being
given up, a task releases its tag once, after all its messages.  A task that dies is the exception:
it has ended by itself without retiring its tag, and who closes its operation finds it over and
abandons nothing, so the tag is never released (`Session.not_released_of_crash`).
-/

namespace Collectives

theorem exists_of_isOk {ε α : Type} {x : Except ε α} (h : x.isOk = true) : ∃ a, x = .ok a := by
  cases x with
  | error e => cases h
  | ok a => exact ⟨a, rfl⟩

/-! ## Tasks that are not under way -/

/-- The calls of a task that is not under way any more: messages, and then one release, unless it
has died. -/
inductive Status.Leaves : Status → List TransportCall → Prop where
  | retired (outcome : Except Error Bytes) {messages : List TransportCall}
      (h : ∀ d ∈ messages, d.isMessage = true) :
      Leaves (.finished outcome) (messages ++ [.retire])
  | abandoned {s : Status} (hup : s.IsGivenUp) {messages : List TransportCall}
      (h : ∀ d ∈ messages, d.isMessage = true) : Leaves s (messages ++ [.abandon])
  | crashed {messages : List TransportCall} (h : ∀ d ∈ messages, d.isMessage = true) :
      Leaves .crashed messages

theorem Status.Fits.leaves {s : Status} {calls : List TransportCall} (h : s.Fits calls)
    (hover : s.isRunning = false) : s.Leaves calls := by
  obtain ⟨messages, hall, rfl⟩ := h
  cases s with
  | running p => cases hover
  | finished outcome => exact .retired outcome hall
  | crashed =>
    rw [Status.release, List.append_nil]
    exact .crashed hall
  | aborting => exact .abandoned (s := .aborting) trivial hall
  | aborted => exact .abandoned (s := .aborted) trivial hall

namespace Status

theorem Becomes.isRunning_eq_false {s s' : Status} (h : s.Becomes s')
    (hs : s.isRunning = false) : s'.isRunning = false := by
  induction h with
  | refl => exact hs
  | tail _ hstep ih =>
    cases hstep with
    | running | finished | crashed => cases ih
    | aborted => rfl

end Status

namespace Executor

variable {σ : Type} {e e' e'' : Executor σ} {t : TaskId}

/-- The task is there, and not under way. -/
def Ceased (e : Executor σ) (t : TaskId) : Prop :=
  ∃ task, e.tasks[t]? = some task ∧ task.status.isRunning = false

theorem Spares.ceased (h : e.Spares e' t) (ht : e.Ceased t) : e'.Ceased t := by
  obtain ⟨task, htask, hover⟩ := ht
  obtain ⟨s, hbecomes, htask'⟩ := h task htask
  exact ⟨_, htask', hbecomes.isRunning_eq_false hover⟩

/-- A task that has left an outcome is not under way. -/
theorem ceased_of_result {d : DataType} {result : Except Error (List d.Elem)}
    (h : (e.status? t).bind (Operation.result? d t) = some result) : e.Ceased t := by
  obtain ⟨status, hstatus, hleft⟩ := Option.bind_eq_some_iff.1 h
  obtain ⟨task, htask, rfl⟩ := Option.map_eq_some_iff.1 hstatus
  refine ⟨task, htask, ?_⟩
  cases hrunning : task.status with
  | running p =>
    rw [hrunning] at hleft
    cases hleft
  | finished | crashed | aborting | aborted => rfl

variable [Transport σ]

/-- Whoever is given up, a task that is not under way stays so. -/
theorem Ceased.abort (ht : e.Ceased t) (k : TaskId) : (e.abort k).Ceased t := by
  by_cases hk : k = t
  · subst hk
    obtain ⟨task, htask, hover⟩ := ht
    rcases e.tasks_abort k with htasks | ⟨task', htask', htasks⟩
    · exact ⟨task, htasks ▸ htask, hover⟩
    · have hlt := (List.getElem?_eq_some_iff.1 htask').1
      exact ⟨{ task' with status := .aborting },
        by rw [htasks, List.getElem?_set_self hlt], rfl⟩
  · exact (spares_abort e hk).ceased ht

theorem Evolves.ceased {given : TaskId → Prop} (h : e.Evolves given e') (ht : e.Ceased t) :
    e'.Ceased t := by
  induction h with
  | refl => exact ht
  | add _ rank tag p ih => exact (Spares.of_append rfl).ceased ih
  | step _ k ih => exact (spares_step _ k t).ceased ih
  | requeue _ ready ih => exact ih
  | @abort _ _ k _ ih => exact ih.abort k
  | release _ rank ih => exact (Spares.of_tasks_eq rfl).ceased ih

/-- A task that is given up is not under way. -/
theorem ceased_abort {task : Task} (htask : e.tasks[t]? = some task) : (e.abort t).Ceased t := by
  have hlt := (List.getElem?_eq_some_iff.1 htask).1
  unfold Executor.abort
  rw [htask]
  dsimp only
  cases hrunning : task.status.isRunning with
  | true => exact ⟨{ task with status := .aborting }, List.getElem?_set_self hlt, rfl⟩
  | false => exact ⟨task, htask, hrunning⟩

end Executor

namespace Session

variable {σ : Type} [Transport σ] {s s' : Session σ} {name : String} {op : Operation}
  {t : TaskId} {c : Call}

/-! ## Who holds a task -/

omit [Transport σ] in
theorem ceased_of_tasks_eq {e e' : Executor σ} (htasks : e'.tasks = e.tasks) (ht : e.Ceased t) :
    e'.Ceased t := (Executor.Spares.of_tasks_eq htasks).ceased ht

/-- Whatever is asked, a task that is not under way stays so. -/
theorem ceased_call (ht : s.executor.Ceased t) (c : Call) : (s.call c).executor.Ceased t :=
  (s.evolves_call c).ceased ht

theorem ceased_calls (ht : s.executor.Ceased t) (history : List Call) :
    (s.calls history).executor.Ceased t := by
  induction history generalizing s with
  | nil => exact ht
  | cons c history ih => exact ih (ceased_call ht c)

/-- The task is that of the operation under the name, or it is not under way. -/
def Held (s : Session σ) (name : String) (t : TaskId) : Prop :=
  (∃ op, s.operations.get? name = some op ∧ op.phase = .started t) ∨ s.executor.Ceased t

/-- Who lets go of an operation leaves its task not under way. -/
theorem Apart.ceased_drop (h : s.Apart) (hheld : s.Held name t) :
    (s.drop name).executor.Ceased t := by
  rcases hheld with ⟨op, hop, hphase⟩ | ht
  · obtain ⟨status, htask, -⟩ := h.attended hop hphase
    rw [executor_drop_of_started hop hphase]
    exact Executor.ceased_abort htask
  · obtain hkept | ⟨_, task, -, -, hgiven⟩ := s.executor_drop name
    · rwa [hkept]
    · rw [hgiven]
      exact ht.abort task

/-- A task is not under way when its operation was let go of. -/
theorem Apart.ceased_call (h : s.Apart) (hheld : s.Held name t) (hc : c.LetsGo name)
    (hs : s.perform c = .ok s') : s'.executor.Ceased t := by
  cases c with
  | close n =>
    obtain rfl : n = name := hc
    obtain rfl := of_close hs
    exact ((Executor.reaches_settle _).spares t).ceased
      (ceased_of_tasks_eq (Executor.tasks_releases _ _) (h.ceased_drop hheld))
  | build rank groupName n request =>
    obtain rfl : n = name := hc
    obtain ⟨c, place, shared, r, op, -, -, -, -, rfl⟩ := of_build hs
    have hdraw : (s.draw place).Apart := h.frame id fun _ _ => .of_tasks_eq rfl
    exact ceased_of_tasks_eq (Executor.tasks_releases _ _) (hdraw.ceased_drop hheld)
  | group | share | start | wait | dropCommunicator | barrier | settle | step => exact hc.elim

/-- An operation keeps its task until it is let go of, or until the task has come to its end and
its outcome is delivered. -/
theorem Apart.held_call (h : s.Apart) (hheld : s.Held name t) (c : Call) :
    (s.call c).Held name t := by
  by_cases hc : c.LetsGo name
  · exact call_induction (P := fun s' => s'.Held name t) hheld fun _ hs =>
      .inr (h.ceased_call hheld hc hs)
  · rcases hheld with ⟨op, hop, hphase⟩ | ht
    · obtain ⟨phase, hop', hmove, hover⟩ := moved hop hc
      rw [hphase] at hmove
      cases hmove with
      | stay => exact .inl ⟨_, hop', rfl⟩
      | complete =>
        obtain ⟨d, result, hresult⟩ := hover t hphase nofun
        exact .inr ((h.spares_call hop hphase hc).ceased (Executor.ceased_of_result hresult))
    · exact .inr (Session.ceased_call ht c)

theorem Apart.held_calls (h : s.Apart) (hheld : s.Held name t) (history : List Call) :
    (s.calls history).Held name t := by
  induction history generalizing s with
  | nil => exact hheld
  | cons c history ih => exact ih (h.call c) (h.held_call hheld c)

/-! ## One release -/

omit [Transport σ] in
/-- A task keeps its rank and tag. -/
theorem key_of_prefix {e e' : Executor σ} (h : e.keys <+: e'.keys) {rank : Rank} {tag : Tag}
    (hkey : e.keys[t]? = some (rank, tag)) {task : Task} (htask : e'.tasks[t]? = some task) :
    task.rank = rank ∧ task.tag = tag := by
  obtain ⟨rest, hrest⟩ := h
  have hlt := (List.getElem?_eq_some_iff.1 hkey).1
  have hkey' : e'.keys[t]? = some (rank, tag) := by
    rw [← hrest, List.getElem?_append_left hlt, hkey]
  rw [Executor.keys, List.getElem?_map, htask, Option.map_some, Option.some_inj,
    Prod.mk.injEq] at hkey'
  exact hkey'

omit [Transport σ] in
/-- An operation that is started holds a task of its rank and tag. -/
theorem held_of_start {d : DataType} {input : Option (List d.Elem)} {inRuntime : Bool}
    (hop : s.operations.get? name = some op) (hstart : s.start name d input inRuntime = .ok s') :
    s'.Held name s.executor.tasks.length ∧
      s'.executor.keys[s.executor.tasks.length]? = some (op.rank, op.exchange.tag) := by
  obtain ⟨op', job, hop', hjob, -, rfl⟩ := of_start hstart
  obtain rfl : op = op' := Option.some_inj.1 (hop.symm.trans hop')
  have hlength : s.executor.tasks.length = s.executor.keys.length := (List.length_map _).symm
  refine ⟨.inl ⟨_, Table.get?_insert_self _ _ _, rfl⟩, ?_⟩
  rw [Executor.keys_spawn, hlength, List.getElem?_concat_length]

/-- On any network and with any algorithms, whatever is asked of a session before and afterwards,
and whenever in the course of its task an operation that was started is let go of: then its task is
not under way any more, and of all entries of the ledger, each of which is some task's, those of
this task are messages and then one release, which is to retire the tag where the task has ended by
itself and to abandon it where the task was given up.  Only a task that has died releases nothing.
If no other task has its rank and tag, these are all the calls of the rank under the tag. -/
theorem released_once {network : σ} {registry : Registry} {communicators : List Communicator}
    {before : List Call} {s s' s'' : Session (Ledger σ)} {d : DataType}
    {input : Option (List d.Elem)} {inRuntime : Bool}
    (hs : s = (ofCommunicators ⟨network, []⟩ registry communicators).calls before)
    (hop : s.operations.get? name = some op)
    (hstart : s.start name d input inRuntime = .ok s')
    (history : List Call) (hc : c.LetsGo name) (hclose : (s'.calls history).perform c = .ok s'')
    (later : List Call) :
    ∃ trace status, (s''.calls later).executor.Attributed trace ∧
      (s''.calls later).executor.tasks[s.executor.tasks.length]? =
        some ⟨op.rank, op.exchange.tag, status⟩ ∧
      status.Leaves (callsOf trace s.executor.tasks.length) ∧
      ((∀ (k : TaskId) (other : Task), (s''.calls later).executor.tasks[k]? = some other →
          other.rank = op.rank → other.tag = op.exchange.tag → k = s.executor.tasks.length) →
        (s''.calls later).executor.network.calls op.rank op.exchange.tag =
          callsOf trace s.executor.tasks.length) := by
  -- All calls together are one history.
  have hwhole : s''.calls later = (ofCommunicators (⟨network, []⟩ : Ledger σ) registry
      communicators).calls
        (before ++ .start name d input inRuntime :: (history ++ c :: later)) := by
    rw [calls_append, calls_cons, calls_append, calls_cons, ← hs,
      call_of_ok (c := .start name d input inRuntime) hstart, call_of_ok hclose]
  obtain ⟨trace, htrace⟩ := exists_attributed network registry communicators
    (before ++ .start name d input inRuntime :: (history ++ c :: later))
  rw [← hwhole] at htrace
  have hs' : s'.Apart := by
    rw [← call_of_ok (c := .start name d input inRuntime) hstart, hs]
    exact ((Apart.begun _ registry communicators).calls before).call _
  obtain ⟨hheld, hkey⟩ := held_of_start hop hstart
  have hceased := (hs'.calls history).ceased_call (hs'.held_calls hheld history) hc hclose
  obtain ⟨task, htask, hover⟩ := ceased_calls hceased later
  have hkeys : s'.executor.keys <+: (s''.calls later).executor.keys := by
    have hprefix := s'.keys_calls (history ++ c :: later)
    rwa [calls_append, calls_cons, call_of_ok hclose] at hprefix
  obtain ⟨hrank, htag⟩ := key_of_prefix hkeys hkey htask
  have hfull : task = ⟨op.rank, op.exchange.tag, task.status⟩ := by
    rw [← hrank, ← htag]
  refine ⟨trace, task.status, htrace, hfull ▸ htask, (htrace.fits htask).leaves hover, ?_⟩
  intro halone
  rw [← hrank, ← htag]
  refine (htrace.callsOf_eq htask ?_).symm
  rw [hrank, htag]
  exact halone

/-- A process that has the communicator of one rank only, with a ledger. -/
def audited (rank : Rank) (world : UInt32) (registry : Registry) : Session (Ledger Mesh) :=
  ofCommunicators ⟨.ofSize world.toNat, []⟩ registry
    ((Context.create rank world).toOption.toList.map
      fun context => { context, config := .standard })

/-- A member of a pair has built a broadcast from the other one. -/
def listener : Session (Ledger Mesh) :=
  (audited 1 2 .builtin).calls
    [.group 1 "pair" none, .build 1 "pair" "message" (.ok ⟨.broadcast 0, .int, 1, some .linear⟩)]

/-- It waits in vain for the message, and closes the operation. -/
def waitInVain : List Call := [.settle, .wait "message" .int]

/-- All that it asks is the message, once, and then to abandon the tag. -/
theorem released_once_listener :
    ∃ op s' s'', listener.operations.get? "message" = some op ∧
      listener.start "message" .int none true = .ok s' ∧
      (s'.calls waitInVain).perform (.close "message") = .ok s'' ∧
      (s''.calls [.settle]).executor.network.calls op.rank op.exchange.tag =
        [.receive 0, .abandon] ∧
      ∃ trace status, (s''.calls [.settle]).executor.Attributed trace ∧
        (s''.calls [.settle]).executor.tasks[0]? = some ⟨op.rank, op.exchange.tag, status⟩ ∧
        status.Leaves (callsOf trace 0) ∧ callsOf trace 0 = [.receive 0, .abandon] := by
  have hcalls : (listener.operations.get? "message").map (fun op =>
      (listener.calls (.start "message" .int none true :: (waitInVain ++
        [.close "message", .settle]))).executor.network.calls op.rank op.exchange.tag) =
        some [.receive 0, .abandon] := by cbv
  have hlength : (listener.calls (.start "message" .int none true ::
      (waitInVain ++ [.close "message", .settle]))).executor.tasks.length = 1 := by cbv
  obtain ⟨op, hop, hcalls⟩ := Option.map_eq_some_iff.1 hcalls
  obtain ⟨s', hstart⟩ : ∃ s', listener.start "message" .int none true = .ok s' :=
    exists_of_isOk (by cbv)
  have hclosing : ((listener.calls (.start "message" .int none true :: waitInVain)).perform
      (.close "message")).isOk = true := by cbv
  obtain ⟨s'', hclose⟩ := exists_of_isOk hclosing
  rw [calls_cons, call_of_ok (c := .start "message" .int none true) hstart] at hcalls hlength hclose
  rw [calls_append, calls_cons, call_of_ok hclose] at hcalls hlength
  obtain ⟨trace, status, htrace, htask, hleaves, halone⟩ :=
    released_once (s := listener) (by rfl) hop hstart waitInVain (c := .close "message") rfl hclose
      [.settle]
  have hzero : listener.executor.tasks.length = 0 := by cbv
  rw [hzero] at htask hleaves halone
  refine ⟨op, s', s'', hop, hstart, hclose, hcalls, trace, status, htrace, htask, hleaves, ?_⟩
  rw [← hcalls]
  refine (halone ?_).symm
  intro k other hother _ _
  have hlt := (List.getElem?_eq_some_iff.1 hother).1
  rw [hlength] at hlt
  exact Nat.lt_one_iff.1 hlt

/-- A process on its own has built an allgatherv with an algorithm that dies. -/
def crashing : Session (Ledger Mesh) :=
  (audited 0 1 (Registry.builtin.register ⟨.allgatherv, .int, .sendToAll⟩
    { run := fun _ => .crash })).calls
      [.group 0 "self" none, .build 0 "self" "gather" (.ok ⟨.allgatherv, .int, 1, some .sendToAll⟩)]

/-- The tag of an operation whose algorithm dies is neither retired nor abandoned, though it was
started, waited for and closed, and all tasks have come to their end. -/
theorem not_released_of_crash :
    (crashing.start "gather" .int (some [7]) true).isOk = true ∧
      ((crashing.calls [.start "gather" .int (some [7]) true, .settle,
        .wait "gather" .int]).perform (.close "gather")).isOk = true ∧
      (crashing.calls [.start "gather" .int (some [7]) true, .settle, .wait "gather" .int,
        .close "gather", .settle]).executor.tasks.length = 1 ∧
      (crashing.calls [.start "gather" .int (some [7]) true, .settle, .wait "gather" .int,
        .close "gather", .settle]).executor.isBusy 0 = false ∧
      (crashing.calls [.start "gather" .int (some [7]) true, .settle, .wait "gather" .int,
        .close "gather", .settle]).executor.network.entries = [] := by
  refine ⟨?_, ?_, ?_, ?_, ?_⟩
  all_goals cbv

end Session

end Collectives
