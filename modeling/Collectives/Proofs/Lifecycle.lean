import Mathlib
import Collectives.Proofs.InPlace
import Collectives.Proofs.OwnTasks

/-!
# The life of an operation

An operation is idle, then started, then completed (`Phase.Moves`), whatever is asked of the
session around it and whatever its task and others do meanwhile.  The task of a started operation
is its own (`Session.Apart`), so what it has come to stays as it is until it is collected.

`Status.HandsOut` says what a task that is over hands out, and so what waiting for it delivers.
`Lawful` says what can be asked of an operation at one moment, and `lifecycle` that this is so at
every moment of its life, in which it is started once at most and its outcome delivered once at
most.
-/

namespace Collectives

/-! ## What a task hands out -/

namespace Status

/-- What a task that is over hands out to those who wait for elements of this type: the bytes that
its program ended with, as elements; the error that its program ended with; or, if its program died
or it was given up, that the task has failed, and why. -/
inductive HandsOut (t : TaskId) (d : DataType) : Status → Except Error (List d.Elem) → Prop where
  | value (data : Bytes) : HandsOut t d (.finished (.ok data)) (d.decode data)
  | error (e : Error) : HandsOut t d (.finished (.error e)) (.error e)
  | crashed : HandsOut t d .crashed (.error (.transport "collective task failed"
      (some ("task " ++ toString t ++ " panicked"))))
  | aborted : HandsOut t d .aborted (.error (.transport "collective task failed"
      (some ("task " ++ toString t ++ " was cancelled"))))

theorem HandsOut.isOver {s : Status} {t : TaskId} {d : DataType}
    {result : Except Error (List d.Elem)} (h : s.HandsOut t d result) : s.isOver = true := by
  cases h <;> rfl

end Status

/-! ## The stages -/

namespace Phase

/-- An operation moves by one stage at most. -/
inductive Moves : Phase → Phase → Prop where
  | stay (phase : Phase) : Moves phase phase
  | start (task : TaskId) : Moves .idle (.started task)
  | complete (task : TaskId) : Moves (.started task) .completed

/-- The second phase is what the first one can become in time. -/
def Becomes : Phase → Phase → Prop := Relation.ReflTransGen Moves

theorem Becomes.of_completed {phase : Phase} (h : completed.Becomes phase) :
    phase = .completed := by
  induction h with
  | refl => rfl
  | tail _ hmove ih =>
    subst ih
    cases hmove with
    | stay => rfl

/-- Once started, an operation is started with this task until it is completed. -/
theorem Becomes.of_started {task : TaskId} {phase : Phase} (h : (started task).Becomes phase) :
    phase = .started task ∨ phase = .completed := by
  induction h with
  | refl => exact .inl rfl
  | tail _ hmove ih =>
    rcases ih with rfl | rfl
    · cases hmove with
      | stay => exact .inl rfl
      | complete => exact .inr rfl
    · cases hmove with
      | stay => exact .inr rfl

end Phase

namespace Operation

variable {op : Operation} {d : DataType}

theorem checkIdle_eq_ok : op.checkIdle = .ok () ↔ op.phase = .idle := by
  unfold checkIdle
  cases op.phase <;> simp

theorem checkType_eq_ok : op.checkType d = .ok () ↔ d = op.dtype := by
  unfold checkType
  split <;> simp_all

/-- The input plays no part in a broadcast of another member, and in nothing else. -/
theorem ignoresInput_iff : op.ignoresInput = true ↔
    ∃ root, op.params = .broadcast root ∧ root ≠ op.exchange.localRank := by
  unfold ignoresInput
  cases op.params <;> simp

theorem exists_stageInput {input : Option (List d.Elem)} :
    (∃ bytes, op.stageInput d input = .ok bytes) ↔
      (∃ root, op.params = .broadcast root ∧ root ≠ op.exchange.localRank) ∨
        ∃ xs, input = some xs ∧ xs.length = op.count := by
  rw [← ignoresInput_iff]
  unfold stageInput
  cases op.ignoresInput with
  | true => simp
  | false =>
    cases input with
    | none => simp
    | some xs => by_cases h : xs.length = op.count <;> simp [h]

/-- What has to be in order for an operation to be started. -/
theorem exists_stage {input : Option (List d.Elem)} :
    (∃ job, op.stage d input = .ok job) ↔ op.phase = .idle ∧ d = op.dtype ∧
      ((∃ root, op.params = .broadcast root ∧ root ≠ op.exchange.localRank) ∨
        ∃ xs, input = some xs ∧ xs.length = op.count) := by
  rw [← checkIdle_eq_ok, ← checkType_eq_ok, ← exists_stageInput]
  constructor
  · rintro ⟨job, h⟩
    obtain ⟨_, hidle, h⟩ := exists_of_bind_eq_ok h
    obtain ⟨_, htype, h⟩ := exists_of_bind_eq_ok h
    obtain ⟨bytes, hinput, -⟩ := exists_of_bind_eq_ok h
    exact ⟨hidle, htype, bytes, hinput⟩
  · rintro ⟨hidle, htype, bytes, hinput⟩
    refine ⟨⟨op.exchange, op.params, op.dtype, op.count, bytes⟩, ?_⟩
    rw [stage, hidle, htype, hinput]
    rfl

theorem awaited_eq_ok {task : TaskId} :
    op.awaited d = .ok task ↔ op.phase = .started task ∧ d = op.dtype := by
  unfold awaited checkType
  cases op.phase with
  | idle => simp
  | completed => simp
  | started t => by_cases h : d = op.dtype <;> simp [h, Except.map]

/-- The result of a task is what it hands out. -/
theorem result?_eq_some {task : TaskId} {status : Status} {result : Except Error (List d.Elem)} :
    result? d task status = some result ↔ status.HandsOut task d result := by
  constructor
  · intro h
    cases status with
    | running | aborting => cases h
    | crashed =>
      cases h
      exact .crashed
    | aborted =>
      cases h
      exact .aborted
    | finished outcome =>
      cases outcome with
      | ok data =>
        cases h
        exact .value data
      | error e =>
        cases h
        exact .error e
  · rintro (_ | _ | _ | _) <;> rfl

/-- A task has left a result when it is over. -/
theorem isSome_result? (d : DataType) (task : TaskId) (status : Status) :
    (result? d task status).isSome = status.isOver := by
  cases status with
  | running | crashed | aborting | aborted => rfl
  | finished outcome => cases outcome <;> rfl

end Operation

namespace Session

variable {σ : Type} [Transport σ] {s s' : Session σ} {name : String} {op : Operation} {t : TaskId}

/-! ## One call -/

/-- The operation under a name has moved by one stage at most, and it has been completed only if its
task had left an outcome. -/
def Moved (s : Session σ) (name : String) (op : Operation) (s' : Session σ) : Prop :=
  ∃ phase, s'.operations.get? name = some { op with phase } ∧ op.phase.Moves phase ∧
    ∀ t, op.phase = .started t → phase ≠ .started t →
      ∃ d result, (s.executor.status? t).bind (Operation.result? d t) = some result

omit [Transport σ] in
theorem Moved.of_stay (h : s'.operations.get? name = some op) : s.Moved name op s' :=
  ⟨op.phase, h, .stay _, fun _ hphase hne => absurd hphase hne⟩

/-- Whoever does not let go of an operation moves it by one stage at most. -/
theorem moved (hop : s.operations.get? name = some op) {c : Call} (hc : ¬c.LetsGo name) :
    s.Moved name op (s.call c) := by
  have hstay : s.Moved name op s := .of_stay hop
  refine call_induction (P := s.Moved name op) hstay ?_
  intro s' hs
  cases c with
  | group rank n list =>
    obtain ⟨c, group, c', -, -, rfl⟩ := of_group hs
    exact hstay
  | share n other =>
    obtain ⟨place, -, rfl⟩ := of_share hs
    exact hstay
  | build rank groupName n request =>
    obtain ⟨c, place, shared, r, op', -, -, -, -, rfl⟩ := of_build hs
    have hne : name ≠ n := fun heq => hc heq.symm
    refine .of_stay ?_
    show (((s.draw place).drop n).operations.insert n op').get? name = _
    rw [Table.get?_insert, if_neg hne, get?_drop, if_neg hne]
    exact hop
  | start n d input inRuntime =>
    obtain ⟨op', job, hop', hjob, -, rfl⟩ := of_start hs
    by_cases hn : name = n
    · subst hn
      obtain rfl : op = op' := Option.some_inj.1 (hop.symm.trans hop')
      have hidle := (Operation.exists_stage.1 ⟨job, hjob⟩).1
      refine ⟨_, Table.get?_insert_self _ _ _, hidle ▸ .start _, ?_⟩
      intro t hphase
      cases hidle.symm.trans hphase
    · refine .of_stay ?_
      rw [Table.get?_insert, if_neg hn]
      exact hop
  | wait n d =>
    obtain ⟨⟨waited, s''⟩, hwait, rfl⟩ := exists_of_map_eq_ok hs
    obtain ⟨op', task, hop', htask, ⟨-, -, rfl⟩ | ⟨result, hresult, -, rfl⟩⟩ := of_wait hwait
    · exact hstay
    · by_cases hn : name = n
      · subst hn
        obtain rfl : op = op' := Option.some_inj.1 (hop.symm.trans hop')
        have hstarted := (Operation.awaited_eq_ok.1 htask).1
        refine ⟨_, Table.get?_insert_self _ _ _, hstarted ▸ .complete _, ?_⟩
        intro t hphase _
        obtain rfl : task = t := Phase.started.inj (hstarted.symm.trans hphase)
        exact ⟨d, result, hresult⟩
      · refine .of_stay ?_
        show (s.operations.insert n { op' with phase := .completed }).get? name = _
        rw [Table.get?_insert, if_neg hn]
        exact hop
  | close n =>
    obtain rfl := of_close hs
    have hne : name ≠ n := fun heq => hc heq.symm
    refine .of_stay ?_
    show (s.drop n).operations.get? name = _
    rw [get?_drop, if_neg hne]
    exact hop
  | dropCommunicator rank =>
    obtain rfl := of_dropCommunicator hs
    exact hstay
  | barrier rank groupName n =>
    obtain ⟨c, place, shared, -, -, ⟨e, -, rfl⟩ | ⟨exchange, -, rfl⟩⟩ := of_barrier hs
    · exact hstay
    · exact hstay
  | settle =>
    cases hs
    exact hstay
  | step k =>
    cases hs
    exact hstay

theorem follows (hop : s.operations.get? name = some op) {c : Call} (hc : ¬c.LetsGo name) :
    ∃ phase, (s.call c).operations.get? name = some { op with phase } ∧ op.phase.Moves phase := by
  obtain ⟨phase, hop', hmove, -⟩ := moved hop hc
  exact ⟨phase, hop', hmove⟩

omit [Transport σ] in
/-- Nothing but an operation that is not in order, or the missing runtime, keeps it from being
started. -/
theorem exists_start (hop : s.operations.get? name = some op) {d : DataType}
    {input : Option (List d.Elem)} {inRuntime : Bool} :
    (∃ s', s.start name d input inRuntime = .ok s') ↔ op.phase = .idle ∧ d = op.dtype ∧
      ((∃ root, op.params = .broadcast root ∧ root ≠ op.exchange.localRank) ∨
        ∃ xs, input = some xs ∧ xs.length = op.count) ∧
      inRuntime = true := by
  constructor
  · rintro ⟨s', hs⟩
    obtain ⟨op', job, hop', hjob, hruntime, -⟩ := of_start hs
    obtain rfl : op = op' := Option.some_inj.1 (hop.symm.trans hop')
    obtain ⟨hidle, htype, hinput⟩ := Operation.exists_stage.1 ⟨job, hjob⟩
    exact ⟨hidle, htype, hinput, hruntime⟩
  · rintro ⟨hidle, htype, hinput, rfl⟩
    obtain ⟨job, hjob⟩ := Operation.exists_stage.2 ⟨hidle, htype, hinput⟩
    exact ⟨_, start_eq_ok hop hjob⟩

/-- What can be asked of an operation at one moment, and what comes of it. -/
structure Lawful (s : Session σ) (name : String) (op : Operation) : Prop where
  /-- Other calls than those that let go of the operation move it by one stage at most, and keep
  all else of it. -/
  moves : ∀ c : Call, ¬c.LetsGo name →
    ∃ phase, (s.call c).operations.get? name = some { op with phase } ∧ op.phase.Moves phase
  /-- What it takes to start it.  Only in a broadcast of another member any input will do. -/
  starts : ∀ (d : DataType) (input : Option (List d.Elem)) (inRuntime : Bool),
    (∃ s', s.start name d input inRuntime = .ok s') ↔ op.phase = .idle ∧ d = op.dtype ∧
      ((∃ root, op.params = .broadcast root ∧ root ≠ op.exchange.localRank) ∨
        ∃ xs, input = some xs ∧ xs.length = op.count) ∧ inRuntime = true
  /-- To start it in vain changes nothing and sends nothing, also in place. -/
  unstarted : ∀ (d : DataType) (input : Option (List d.Elem)) (inRuntime : Bool)
    (refusal : Refusal), s.start name d input inRuntime = .error refusal →
      s.call (.start name d input inRuntime) = s ∧
        (Call.start name d input inRuntime).inPlace.exec s = (.error refusal, s)
  /-- A started operation has its task, which is not given up. -/
  attended : ∀ t, op.phase = .started t → ∃ status,
    s.executor.tasks[t]? = some ⟨op.rank, op.exchange.tag, status⟩ ∧ ¬status.IsGivenUp
  notStarted : op.phase = .idle → ∀ d, s.wait name d = .error (.failed (.notStarted op.kind))
  alreadyCompleted : op.phase = .completed →
    ∀ d, s.wait name d = .error (.failed (.alreadyCompleted op.kind))
  /-- To wait in vain, for too short a time or with another type, changes nothing, also in place. -/
  undelivered : ∀ d, (∀ result s', s.wait name d ≠ .ok (.delivered result, s')) →
    s.call (.wait name d) = s ∧ ((Call.wait name d).inPlace.exec s).2 = s
  mistyped : ∀ t d, op.phase = .started t → d ≠ op.dtype →
    s.wait name d = .error (.failed (.dtypeMismatch op.dtype d))
  /-- As long as the task is under way, waiting leaves everything as it was. -/
  pending : ∀ t status, op.phase = .started t → s.executor.status? t = some status →
    status.isOver = false → s.wait name op.dtype = .ok (.pending, s)
  /-- What is delivered is what the task hands out, be it an error, and completes the operation. -/
  delivered : ∀ d result s', s.wait name d = .ok (.delivered result, s') →
    d = op.dtype ∧ s'.operations.get? name = some { op with phase := .completed } ∧
      s'.executor = s.executor ∧ ∃ t status, op.phase = .started t ∧
        s.executor.status? t = some status ∧ status.isOver = true ∧ status.HandsOut t d result
  /-- When the task is over, waiting with the operation's own type delivers what it hands out. -/
  collected : ∀ t status, op.phase = .started t → s.executor.status? t = some status →
    status.isOver = true → ∃ result s', s.wait name op.dtype = .ok (.delivered result, s') ∧
      status.HandsOut t op.dtype result
  /-- An operation is finished when waiting for it delivers, or has delivered. -/
  finished : s.isFinished op = true ↔ op.phase = .completed ∨
    ∃ result s', s.wait name op.dtype = .ok (.delivered result, s')

omit [Transport σ] in
/-- What waiting for a started operation with its own type comes to. -/
theorem wait_of_started (hop : s.operations.get? name = some op) (hphase : op.phase = .started t) :
    s.wait name op.dtype =
      match (s.executor.status? t).bind (Operation.result? op.dtype t) with
      | none => .ok (.pending, s)
      | some result => .ok (.delivered result, { s with
          operations := s.operations.insert name { op with phase := .completed } }) := by
  rw [wait, find, hop]
  refine (bind_of_eq_ok rfl).trans ?_
  rw [Operation.awaited_eq_ok.2 ⟨hphase, rfl⟩]
  refine (bind_of_eq_ok rfl).trans ?_
  cases (s.executor.status? t).bind (Operation.result? op.dtype t) <;> rfl

omit [Transport σ] in
theorem wait_of_isOver {status : Status} (hop : s.operations.get? name = some op)
    (hphase : op.phase = .started t) (hstatus : s.executor.status? t = some status)
    (hover : status.isOver = true) :
    ∃ result s', s.wait name op.dtype = .ok (.delivered result, s') ∧
      status.HandsOut t op.dtype result := by
  rw [← Operation.isSome_result? op.dtype t] at hover
  obtain ⟨result, hresult⟩ := Option.isSome_iff_exists.1 hover
  rw [wait_of_started hop hphase, hstatus, Option.bind_some, hresult]
  exact ⟨_, _, rfl, Operation.result?_eq_some.1 hresult⟩

omit [Transport σ] in
theorem wait_of_not_isOver {status : Status} (hop : s.operations.get? name = some op)
    (hphase : op.phase = .started t) (hstatus : s.executor.status? t = some status)
    (hover : status.isOver = false) : s.wait name op.dtype = .ok (.pending, s) := by
  rw [← Operation.isSome_result? op.dtype t, Option.isSome_eq_false_iff,
    Option.isNone_iff_eq_none] at hover
  rw [wait_of_started hop hphase, hstatus, Option.bind_some, hover]

omit [Transport σ] in
theorem wait_of_error (hop : s.operations.get? name = some op) {d : DataType} {e : Error}
    (h : op.awaited d = .error e) : s.wait name d = .error (.failed e) := by
  rw [wait, find, hop]
  refine (bind_of_eq_ok rfl).trans ?_
  rw [h]
  rfl

omit [Transport σ] in
theorem isFinished_iff (hop : s.operations.get? name = some op) :
    s.isFinished op = true ↔ op.phase = .completed ∨
      ∃ result s', s.wait name op.dtype = .ok (.delivered result, s') := by
  unfold isFinished
  cases hphase : op.phase with
  | idle =>
    have hwait : s.wait name op.dtype = .error (.failed (.notStarted op.kind)) :=
      wait_of_error hop (by rw [Operation.awaited, hphase])
    simp [hwait]
  | completed => simp
  | started t =>
    rw [wait_of_started hop hphase]
    dsimp only
    cases hstatus : s.executor.status? t with
    | none => simp
    | some status =>
      have hresult := Operation.isSome_result? op.dtype t status
      cases hr : Operation.result? op.dtype t status with
      | none =>
        rw [hr] at hresult
        simp [hr, ← hresult]
      | some result =>
        rw [hr] at hresult
        simp [hr, ← hresult]

/-- At every moment the laws hold. -/
theorem Apart.lawful (h : s.Apart) (hop : s.operations.get? name = some op) :
    s.Lawful name op where
  moves c hc := follows hop hc
  starts d input inRuntime := exists_start hop
  unstarted d input inRuntime refusal hs :=
    have hperform : s.perform (.start name d input inRuntime) = .error refusal := hs
    ⟨call_of_error hperform, exec_of_refused hperform⟩
  attended t := h.attended hop
  notStarted hphase d := wait_of_error hop (by rw [Operation.awaited, hphase])
  alreadyCompleted hphase d := wait_of_error hop (by rw [Operation.awaited, hphase])
  mistyped := by
    intro t d hphase htype
    refine wait_of_error hop ?_
    rw [Operation.awaited, hphase]
    dsimp only
    rw [Operation.checkType, if_neg htype]
    rfl
  pending t status hphase hstatus hover := wait_of_not_isOver hop hphase hstatus hover
  undelivered := by
    intro d hvain
    rw [exec_inPlace, and_self]
    cases hs : s.perform (.wait name d) with
    | error refusal => exact call_of_error hs
    | ok s' =>
      obtain ⟨⟨waited, s''⟩, hwait, rfl⟩ := exists_of_map_eq_ok hs
      rw [call_of_ok hs]
      obtain ⟨op', task, -, -, ⟨-, -, rfl⟩ | ⟨result, -, rfl, rfl⟩⟩ := of_wait hwait
      · rfl
      · exact absurd hwait (hvain _ _)
  delivered := by
    intro d result s' hs
    obtain ⟨op', task, hop', htask, ⟨-, hpending, -⟩ | ⟨result', hresult, heq, rfl⟩⟩ := of_wait hs
    · cases hpending
    · obtain rfl : op = op' := Option.some_inj.1 (hop.symm.trans hop')
      obtain rfl : result = result' := Waited.delivered.inj heq
      obtain ⟨hphase, htype⟩ := Operation.awaited_eq_ok.1 htask
      obtain ⟨status, hstatus, hleft⟩ := Option.bind_eq_some_iff.1 hresult
      have hhanded := Operation.result?_eq_some.1 hleft
      exact ⟨htype, Table.get?_insert_self _ _ _, rfl, task, status, hphase, hstatus,
        hhanded.isOver, hhanded⟩
  collected t status hphase hstatus hover := wait_of_isOver hop hphase hstatus hover
  finished := isFinished_iff hop

/-! ## A whole life -/

/-- The call starts the operation. -/
def Starts (s : Session σ) (name : String) (c : Call) : Prop :=
  ∃ d input inRuntime s', c = .start name d input inRuntime ∧
    s.start name d input inRuntime = .ok s'

/-- The call collects the outcome of the operation. -/
def Delivers (s : Session σ) (name : String) (c : Call) : Prop :=
  ∃ d result s', c = .wait name d ∧ s.wait name d = .ok (.delivered result, s')

variable {c c' : Call} {history later : List Call}

theorem phase_calls (hop : s.operations.get? name = some op)
    (hheld : ∀ c ∈ history, ¬c.LetsGo name) :
    ∃ phase, (s.calls history).operations.get? name = some { op with phase } ∧
      op.phase.Becomes phase := by
  induction history generalizing s op with
  | nil => exact ⟨op.phase, hop, .refl⟩
  | cons c history ih =>
    rw [List.forall_mem_cons] at hheld
    obtain ⟨phase, hphase, hmove⟩ := follows hop hheld.1
    obtain ⟨phase', hphase', hbecomes⟩ := ih hphase hheld.2
    exact ⟨phase', hphase', .head hmove hbecomes⟩

/-- As long as an operation is started its task is spared. -/
theorem Apart.spares_calls (h : s.Apart) (hop : s.operations.get? name = some op)
    (hphase : op.phase = .started t) (hheld : ∀ c ∈ history, ¬c.LetsGo name)
    (hnow : (s.calls history).operations.get? name = some { op with phase := .started t }) :
    s.executor.Spares (s.calls history).executor t := by
  induction history generalizing s op with
  | nil => exact .of_tasks_eq rfl
  | cons c history ih =>
    rw [List.forall_mem_cons] at hheld
    obtain ⟨phase, hop', hmove⟩ := follows hop hheld.1
    obtain ⟨phase', hlast, hbecomes⟩ := phase_calls hop' hheld.2
    have hstarted : phase = .started t := by
      -- what is completed now would be completed at the end
      rcases Phase.Becomes.of_started (.single (hphase ▸ hmove)) with heq | rfl
      · exact heq
      · rw [hbecomes.of_completed] at hlast
        cases hlast.symm.trans hnow
    subst hstarted
    exact (h.spares_call hop hphase hheld.1).trans (ih (h.call c) hop' rfl hheld.2 hnow)

theorem Starts.exists_started (h : s.Starts name c) (hop : s.operations.get? name = some op) :
    op.phase = .idle ∧
      ∃ t, (s.call c).operations.get? name = some { op with phase := .started t } := by
  obtain ⟨d, input, inRuntime, s', rfl, hs⟩ := h
  have hidle := ((exists_start hop).1 ⟨s', hs⟩).1
  obtain ⟨op', job, hop', -, -, rfl⟩ := of_start hs
  obtain rfl : op = op' := Option.some_inj.1 (hop.symm.trans hop')
  rw [call_of_ok (c := .start name d input inRuntime) hs]
  exact ⟨hidle, _, Table.get?_insert_self _ _ _⟩

theorem Delivers.completed (h : s.Delivers name c) (hop : s.operations.get? name = some op) :
    op.phase ≠ .completed ∧
      (s.call c).operations.get? name = some { op with phase := .completed } := by
  obtain ⟨d, result, s', rfl, hs⟩ := h
  obtain ⟨op', task, hop', htask, ⟨-, hpending, -⟩ | ⟨result', -, -, rfl⟩⟩ := of_wait hs
  · cases hpending
  · obtain rfl : op = op' := Option.some_inj.1 (hop.symm.trans hop')
    have hperform : s.perform (.wait name d) = .ok _ := congrArg (Except.map Prod.snd) hs
    rw [call_of_ok hperform, (Operation.awaited_eq_ok.1 htask).1]
    exact ⟨nofun, Table.get?_insert_self _ _ _⟩

/-- What was started once is not started again. -/
theorem Starts.not_again (h : s.Starts name c) (hop : s.operations.get? name = some op)
    (hheld : ∀ c ∈ later, ¬c.LetsGo name) : ¬((s.call c).calls later).Starts name c' := by
  intro hagain
  obtain ⟨-, t, hstarted⟩ := h.exists_started hop
  obtain ⟨phase, hphase, hbecomes⟩ := phase_calls hstarted hheld
  obtain rfl : phase = .idle := (hagain.exists_started hphase).1
  rcases hbecomes.of_started with heq | heq <;> cases heq

/-- What was delivered once is not delivered again. -/
theorem Delivers.not_again (h : s.Delivers name c) (hop : s.operations.get? name = some op)
    (hheld : ∀ c ∈ later, ¬c.LetsGo name) : ¬((s.call c).calls later).Delivers name c' := by
  intro hagain
  obtain ⟨-, hcompleted⟩ := h.completed hop
  obtain ⟨phase, hphase, hbecomes⟩ := phase_calls hcompleted hheld
  exact (hagain.completed hphase).1 hbecomes.of_completed

/-- Whatever is asked of a session, and in whatever order tasks take their steps: an operation that
nobody lets go of stays as it was built but for its phase, which goes from idle to started and from
started to completed; the laws hold at every moment; what its task has come to stays as it is until
it is collected; and the operation is started once at most, and its outcome delivered once at
most. -/
theorem lifecycle {network : σ} {registry : Registry} {communicators : List Communicator}
    {before : List Call} (hs : s = (ofCommunicators network registry communicators).calls before)
    (hop : s.operations.get? name = some op) (history : List Call)
    (hheld : ∀ c ∈ history, ¬c.LetsGo name) :
    (∃ phase, (s.calls history).operations.get? name = some { op with phase } ∧
      op.phase.Becomes phase ∧ (s.calls history).Lawful name { op with phase } ∧
      ∀ t status, op.phase = .started t → phase = .started t →
        s.executor.status? t = some status → status.isOver = true →
          (s.calls history).executor.status? t = some status) ∧
    ∀ earlier c later c' rest, history = earlier ++ c :: (later ++ c' :: rest) →
      ¬((s.calls earlier).Starts name c ∧ (s.calls (earlier ++ c :: later)).Starts name c') ∧
      ¬((s.calls earlier).Delivers name c ∧
        (s.calls (earlier ++ c :: later)).Delivers name c') := by
  have h : s.Apart := hs ▸ (Apart.begun network registry communicators).calls before
  constructor
  · obtain ⟨phase, hphase, hbecomes⟩ := phase_calls hop hheld
    refine ⟨phase, hphase, hbecomes, (h.calls history).lawful hphase, ?_⟩
    rintro t status hstarted rfl hstatus hover
    exact (h.spares_calls hop hstarted hheld hphase).status?_eq hstatus hover
  · rintro earlier c later c' rest rfl
    rw [List.forall_mem_append, List.forall_mem_cons, List.forall_mem_append] at hheld
    obtain ⟨hearlier, -, hlater, -⟩ := hheld
    obtain ⟨phase, hphase, -⟩ := phase_calls hop hearlier
    rw [calls_append, calls_cons]
    exact ⟨fun ⟨hfirst, hagain⟩ => hfirst.not_again hphase hlater hagain,
      fun ⟨hfirst, hagain⟩ => hfirst.not_again hphase hlater hagain⟩

/-- A member of a pair builds a broadcast from itself. -/
def announced : Session Mesh :=
  (ofRank 0 2).calls
    [.group 0 "pair" none, .build 0 "pair" "message" (.ok ⟨.broadcast 0, .int, 1, some .linear⟩)]

/-- It tries to start it with two numbers, starts it with one, and waits too early, and then with
another type. -/
def attempts : List Call :=
  [.start "message" .int (some [5, 6]) true, .start "message" .int (some [5]) true,
    .wait "message" .int, .settle, .wait "message" .float]

/-- The next one to wait gets the number that was sent, and then there is nothing more to wait
for. -/
theorem lifecycle_message : ∃ op s', announced.operations.get? "message" = some op ∧
    op.phase = .idle ∧
    (announced.calls attempts).wait "message" .int = .ok (.delivered (.ok [5]), s') ∧
    s'.operations.get? "message" = some { op with phase := .completed } ∧
    ∀ d, s'.wait "message" d = .error (.failed (.alreadyCompleted op.kind)) := by
  have hidle : (announced.operations.get? "message").map (fun op => (op.phase, op.dtype)) =
      some (.idle, .int) := by cbv
  have hstarted : ((announced.calls attempts).operations.get? "message").map (·.phase) =
      some (.started 0) := by cbv
  have hstatus : (announced.calls attempts).executor.status? 0 =
      some (.finished (.ok [5, 0, 0, 0])) := by cbv
  obtain ⟨⟨params, dtype, count, algorithm, implementation, exchange, phase⟩, hop, heq⟩ :=
    Option.map_eq_some_iff.1 hidle
  obtain ⟨rfl, rfl⟩ : phase = .idle ∧ dtype = .int := Prod.mk.inj heq
  obtain ⟨⟨phase, hnow, -, hlawful, -⟩, -⟩ :=
    lifecycle (s := announced) rfl hop attempts (by simp [attempts, Call.LetsGo])
  obtain rfl : phase = .started 0 := by
    rw [hnow] at hstarted
    exact Option.some_inj.1 hstarted
  obtain ⟨result, s', hwait, hhanded⟩ := hlawful.collected 0 _ rfl hstatus rfl
  have hdecode : DataType.int.decode [5, 0, 0, 0] = .ok [5] := by rfl
  obtain rfl : result = .ok [5] := by
    cases hhanded
    exact hdecode
  obtain ⟨-, hcompleted, -⟩ := hlawful.delivered _ _ _ hwait
  have hcall : announced.calls (attempts ++ [.wait "message" .int]) = s' := by
    have hperform : (announced.calls attempts).perform (.wait "message" .int) = .ok s' :=
      congrArg (Except.map Prod.snd) hwait
    rw [calls_append, calls_cons, calls_nil, call_of_ok hperform]
  obtain ⟨⟨phase, hlast, -, hlawful', -⟩, -⟩ :=
    lifecycle (s := announced) rfl hop (attempts ++ [.wait "message" .int])
      (by simp [attempts, Call.LetsGo])
  rw [hcall] at hlast hlawful'
  obtain rfl : phase = .completed := by
    rw [hcompleted] at hlast
    cases hlast
    rfl
  exact ⟨_, s', hop, rfl, hwait, hcompleted, hlawful'.alreadyCompleted rfl⟩

end Session

end Collectives
