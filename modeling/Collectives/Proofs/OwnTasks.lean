import Mathlib.Logic.Relation
import Collectives.Proofs.Calls
import Collectives.Proofs.Openness

/-!
# To each operation its own task

The task of a started operation is its own: no two operations have one task, and only who lets go of
an operation gives its task up (`Session.Apart`).  Any other call spares the task
(`Executor.Spares`): it may go on, and what is over stays as it is.  So once the task of an
operation is over its outcome stays as it is until the operation is let go of
(`Session.Apart.spares_call`).
-/

namespace Collectives

/-! ## What becomes of one task -/

namespace Status

/-- The second status is what the first one can become in time. -/
def Becomes : Status → Status → Prop := Relation.ReflTransGen fun s s' => s'.Precedes s

/-- What is over stays as it is. -/
theorem Becomes.eq_of_isOver {s s' : Status} (h : s.Becomes s') (hover : s.isOver = true) :
    s' = s := by
  induction h with
  | refl => rfl
  | tail _ hstep ih =>
    subst ih
    cases hstep with
    | running | finished | crashed | aborted => cases hover

/-- A task is not given up by going on. -/
theorem Becomes.not_isGivenUp {s s' : Status} (h : s.Becomes s') (hkept : ¬s.IsGivenUp) :
    ¬s'.IsGivenUp := by
  induction h with
  | refl => exact hkept
  | tail _ hstep ih =>
    cases hstep with
    | running | finished | crashed => exact id
    | aborted => exact absurd trivial ih

end Status

namespace Executor

variable {σ : Type} {e e' e'' : Executor σ} {t : TaskId}

/-- Between the two states the task has gone on, or stayed as it was; it was not given up. -/
def Spares (e e' : Executor σ) (t : TaskId) : Prop :=
  ∀ task, e.tasks[t]? = some task →
    ∃ s, task.status.Becomes s ∧ e'.tasks[t]? = some { task with status := s }

namespace Spares

theorem of_tasks_eq (h : e'.tasks = e.tasks) : e.Spares e' t := by
  intro task htask
  exact ⟨task.status, .refl, by rw [h, htask]⟩

theorem trans (h : e.Spares e' t) (h' : e'.Spares e'' t) : e.Spares e'' t := by
  intro task htask
  obtain ⟨s, hs, htask'⟩ := h task htask
  obtain ⟨s', hs', htask''⟩ := h' _ htask'
  exact ⟨s', Relation.ReflTransGen.trans hs hs', htask''⟩

/-- Another task may be changed in any way. -/
theorem of_set {k : TaskId} {task : Task} (h : e'.tasks = e.tasks.set k task) (hne : k ≠ t) :
    e.Spares e' t := by
  intro other hother
  exact ⟨other.status, .refl, by rw [h, List.getElem?_set_ne hne, hother]⟩

theorem of_append {tasks : List Task} (h : e'.tasks = e.tasks ++ tasks) : e.Spares e' t := by
  intro task htask
  have hlt := (List.getElem?_eq_some_iff.1 htask).1
  exact ⟨task.status, .refl, by rw [h, List.getElem?_append_left hlt, htask]⟩

/-- What is over stays as it is. -/
theorem status?_eq {s : Status} (h : e.Spares e' t) (hs : e.status? t = some s)
    (hover : s.isOver = true) : e'.status? t = some s := by
  obtain ⟨task, htask, rfl⟩ := Option.map_eq_some_iff.1 hs
  obtain ⟨s, hbecomes, htask'⟩ := h task htask
  rw [status?, htask', hbecomes.eq_of_isOver hover]
  rfl

end Spares

variable [Transport σ]

theorem spares_step (e : Executor σ) (k t : TaskId) : e.Spares (e.step k).2 t := by
  rcases e.tasks_step k with htasks | ⟨task, s, hk, hs, htasks⟩
  · exact .of_tasks_eq htasks
  · by_cases hkt : k = t
    · subst hkt
      intro other hother
      obtain rfl : task = other := Option.some_inj.1 (hk.symm.trans hother)
      have hlt := (List.getElem?_eq_some_iff.1 hk).1
      exact ⟨s, .single hs, by rw [htasks, List.getElem?_set_self hlt]⟩
    · exact .of_set htasks hkt

theorem Reaches.spares (h : e.Reaches e') (t : TaskId) : e.Spares e' t := by
  induction h with
  | refl => exact .of_tasks_eq rfl
  | step _ k ih => exact ih.trans (spares_step _ k t)
  | requeue _ ready ih => exact ih.trans (.of_tasks_eq rfl)

theorem spares_abort (e : Executor σ) {k t : TaskId} (hne : k ≠ t) : e.Spares (e.abort k) t := by
  rcases e.tasks_abort k with htasks | ⟨task, -, htasks⟩
  · exact .of_tasks_eq htasks
  · exact .of_set htasks hne

/-- A task is spared where it is not given up. -/
theorem Evolves.spares {given : TaskId → Prop} (h : e.Evolves given e') (ht : ¬given t) :
    e.Spares e' t := by
  induction h with
  | refl => exact .of_tasks_eq rfl
  | add _ rank tag p ih => exact ih.trans (.of_append rfl)
  | step _ k ih => exact ih.trans (spares_step _ k t)
  | requeue _ ready ih => exact ih.trans (.of_tasks_eq rfl)
  | @abort _ _ k hk ih => exact ih.trans (spares_abort _ fun heq => ht (heq ▸ hk))
  | release _ rank ih => exact ih.trans (.of_tasks_eq rfl)

theorem spares_launch (e : Executor σ) (rank : Rank) (tag : Tag) (p : Program Bytes) (t : TaskId) :
    e.Spares (e.launch rank tag p).2 t := by
  have hadd : e.Spares (e.add rank tag p).2 t := .of_append rfl
  exact (hadd.trans ((reaches_run _ _).spares t)).trans (.of_tasks_eq rfl)

end Executor

namespace Session

variable {σ : Type} {s s' : Session σ} {name other : String} {op op' : Operation} {t : TaskId}

/-! ## To each operation its own task -/

/-- Every started operation has a task that is not given up, and no two have the same. -/
structure Apart (s : Session σ) : Prop where
  attended : ∀ {name : String} {op : Operation} {t : TaskId},
    s.operations.get? name = some op → op.phase = .started t →
      ∃ status, s.executor.tasks[t]? = some ⟨op.rank, op.exchange.tag, status⟩ ∧
        ¬status.IsGivenUp
  single : ∀ {name other : String} {op op' : Operation} {t : TaskId},
    s.operations.get? name = some op → op.phase = .started t →
      s.operations.get? other = some op' → op'.phase = .started t → name = other

namespace Apart

theorem begun (network : σ) (registry : Registry) (communicators : List Communicator) :
    (ofCommunicators network registry communicators).Apart :=
  ⟨nofun, nofun⟩

/-- Operations may go, as long as the tasks of those that stay are spared. -/
theorem frame (h : s.Apart)
    (hops : ∀ {name op}, s'.operations.get? name = some op → s.operations.get? name = some op)
    (hspares : ∀ {name op t}, s'.operations.get? name = some op → op.phase = .started t →
      s.executor.Spares s'.executor t) : s'.Apart where
  attended := by
    intro name op t hop hphase
    obtain ⟨status, htask, hkept⟩ := h.attended (hops hop) hphase
    obtain ⟨status', hbecomes, htask'⟩ := hspares hop hphase _ htask
    exact ⟨status', htask', hbecomes.not_isGivenUp hkept⟩
  single hop hphase hop' hphase' := h.single (hops hop) hphase (hops hop') hphase'

/-- An operation that is not under way has no task to share. -/
theorem insert (h : s.Apart) (name : String) (hphase : ∀ t, op.phase ≠ .started t) :
    Apart { s with operations := s.operations.insert name op } := by
  have hold : ∀ {other : String} {op' : Operation} {t : TaskId},
      (s.operations.insert name op).get? other = some op' → op'.phase = .started t →
        s.operations.get? other = some op' := by
    intro other op' t hop' hstarted
    rw [Table.get?_insert] at hop'
    split at hop'
    · cases hop'
      exact absurd hstarted (hphase t)
    · exact hop'
  exact ⟨fun hop hstarted => h.attended (hold hop hstarted) hstarted,
    fun hop hstarted hop' hstarted' =>
      h.single (hold hop hstarted) hstarted (hold hop' hstarted') hstarted'⟩

/-- An operation that is started gets a task of its own. -/
theorem start (h : s.Apart) (name : String) (op : Operation) (p : Program Bytes) :
    Apart { s with
      executor := (s.executor.spawn op.rank op.exchange.tag p).2
      operations := s.operations.insert name
        { op with phase := .started s.executor.tasks.length } } := by
  have hold : ∀ {other : String} {op' : Operation} {t : TaskId},
      s.operations.get? other = some op' → op'.phase = .started t →
        t < s.executor.tasks.length := by
    intro other op' t hop' hphase
    obtain ⟨status, htask, -⟩ := h.attended hop' hphase
    exact (List.getElem?_eq_some_iff.1 htask).1
  constructor
  · intro other op' t hop' hphase
    rw [Table.get?_insert] at hop'
    split at hop'
    · cases hop'
      cases hphase
      exact ⟨.running p, List.getElem?_concat_length, id⟩
    · obtain ⟨status, htask, hkept⟩ := h.attended hop' hphase
      exact ⟨status, by rw [← htask]; exact List.getElem?_append_left (hold hop' hphase), hkept⟩
  · intro other other' op₁ op₂ t h₁ hphase₁ h₂ hphase₂
    rw [Table.get?_insert] at h₁ h₂
    split at h₁ <;> split at h₂
    · next heq heq' => rw [heq, heq']
    · cases h₁
      cases hphase₁
      exact absurd (hold h₂ hphase₂) (Nat.lt_irrefl _)
    · cases h₂
      cases hphase₂
      exact absurd (hold h₁ hphase₁) (Nat.lt_irrefl _)
    · exact h.single h₁ hphase₁ h₂ hphase₂

end Apart

variable [Transport σ]

namespace Apart

/-- To let go of one operation spares the tasks of the others. -/
theorem spares_drop (h : s.Apart) (hop : s.operations.get? other = some op)
    (hphase : op.phase = .started t) (hne : other ≠ name) :
    s.executor.Spares (s.drop name).executor t := by
  obtain hkept | ⟨op', task, hop', hphase', hgiven⟩ := s.executor_drop name
  · rw [hkept]
    exact .of_tasks_eq rfl
  · rw [hgiven]
    refine Executor.spares_abort _ ?_
    rintro rfl
    exact hne (h.single hop hphase hop' hphase')

theorem drop (h : s.Apart) (name : String) : (s.drop name).Apart := by
  have hops : ∀ {other : String} {op : Operation}, (s.drop name).operations.get? other = some op →
      other ≠ name ∧ s.operations.get? other = some op := by
    intro other op hop
    rw [get?_drop] at hop
    split at hop
    · cases hop
    · next hne => exact ⟨hne, hop⟩
  exact h.frame (fun hop => (hops hop).2) fun hop hphase =>
    h.spares_drop (hops hop).2 hphase (hops hop).1

theorem releaseDeparted (h : s.Apart) : s.releaseDeparted.Apart :=
  h.frame id fun _ _ => .of_tasks_eq (Executor.tasks_releases _ _)

theorem settle (h : s.Apart) : s.settle.Apart :=
  h.frame id fun _ _ => (Executor.reaches_settle _).spares _

/-- Whatever is asked, each started operation has a task of its own. -/
theorem call (h : s.Apart) (c : Call) : (s.call c).Apart := by
  refine call_induction h ?_
  intro s' hs
  cases c with
  | group rank name list =>
    obtain ⟨c, group, c', -, -, rfl⟩ := of_group hs
    exact h.frame id fun _ _ => .of_tasks_eq rfl
  | share name other =>
    obtain ⟨id', -, rfl⟩ := of_share hs
    exact h.frame id fun _ _ => .of_tasks_eq rfl
  | build rank groupName name request =>
    obtain ⟨c, place, shared, r, op, -, -, -, hop, rfl⟩ := of_build hs
    have hdraw : (s.draw place).Apart := h.frame id fun _ _ => .of_tasks_eq rfl
    refine ((hdraw.drop name).insert name ?_).releaseDeparted
    rw [(Communicator.of_build hop).1]
    exact fun _ => nofun
  | start name d input inRuntime =>
    obtain ⟨op, job, -, -, -, rfl⟩ := of_start hs
    exact h.start name op _
  | wait name d =>
    obtain ⟨⟨waited, s''⟩, hwait, rfl⟩ := exists_of_map_eq_ok hs
    obtain ⟨op, task, -, -, ⟨-, -, rfl⟩ | ⟨result, -, -, rfl⟩⟩ := of_wait hwait
    · exact h
    · exact h.insert name fun _ => nofun
  | close name =>
    obtain rfl := of_close hs
    exact (h.drop name).releaseDeparted.settle
  | dropCommunicator rank =>
    obtain rfl := of_dropCommunicator hs
    have hgone : Apart { s with
        communicators := s.communicators.erase rank
        departed := rank :: s.departed } := h.frame id fun _ _ => .of_tasks_eq rfl
    exact hgone.releaseDeparted
  | barrier rank groupName name =>
    obtain ⟨c, place, shared, -, -, ⟨e, -, rfl⟩ | ⟨exchange, -, rfl⟩⟩ := of_barrier hs
    · exact h.frame id fun _ _ => .of_tasks_eq rfl
    · exact h.frame id fun _ _ => Executor.spares_launch _ _ _ _ _
  | settle =>
    cases hs
    exact h.settle
  | step k =>
    cases hs
    exact h.frame id fun _ _ => Executor.spares_step _ _ _

theorem calls (h : s.Apart) (history : List Call) : (s.calls history).Apart := by
  induction history generalizing s with
  | nil => exact h
  | cons c history ih => exact ih (h.call c)

/-- Whoever does not let go of a started operation spares its task. -/
theorem spares_call (h : s.Apart) (hop : s.operations.get? name = some op)
    (hphase : op.phase = .started t) {c : Call} (hc : ¬c.LetsGo name) :
    s.executor.Spares (s.call c).executor t := by
  refine (s.evolves_call c).spares ?_
  rintro ⟨n, op', hn, hop', hphase'⟩
  obtain rfl := h.single hop hphase hop' hphase'
  exact hc hn

end Apart

end Session

end Collectives
