import Collectives.Proofs.StepEffects

/-!
# Coherent states

A state of an executor on a recorded mesh is coherent when every task has come to where its
history leads and every channel on which a task can still receive is conserved.  One step of
any task keeps a state coherent (`Coherent.step`), so under every schedule all states are
(`Coherent.reaches`).  No algorithm is mentioned here: the programs of the tasks are
arbitrary, except that they address open mailboxes only.

`Turn` says once what one step of one task can do; everything else is read off it.
-/

namespace Collectives

/-! ## One turn of one task -/

section Turn

variable {r : Recorded Mesh} {own : Rank} {tag : Tag} {p : Program Bytes}

/-- What a step makes of the program of a task and of the network, and what it adds to the
history of the task, where every mailbox that the program addresses is open. -/
inductive Turn (r : Recorded Mesh) (own : Rank) (tag : Tag) :
    Program Bytes → List Event → Status → Recorded Mesh → Prop where
  | ended (outcome : Except Error Bytes) :
      Turn r own tag (.ofExcept outcome) [.retired] (.finished outcome)
        (Transport.retire r own tag)
  | crashed : Turn r own tag .crash [] .crashed r
  | reported (entry : Observation) (next : Program Bytes) :
      Turn r own tag (.report entry next) [] (.running next) r
  | sent {dest : Rank} (data : Bytes) (next : Except Error Unit → Program Bytes)
      (hdest : r.network.Open dest) :
      Turn r own tag (.send dest data next) [.sent dest data] (.running (next (.ok ())))
        (Transport.send r own dest tag data).2
  | received {src : Rank} (next : Except Error Bytes → Program Bytes) {data : Bytes}
      {rest : List Bytes} (hown : r.network.Open own) (hsrc : r.network.Open src)
      (hq : r.network.queue src own tag = data :: rest) :
      Turn r own tag (.recv src next) [.received src data] (.running (next (.ok data)))
        (Transport.receive r own src tag).2
  | waiting {src : Rank} (next : Except Error Bytes → Program Bytes)
      (hown : r.network.Open own) (hsrc : r.network.Open src)
      (hq : r.network.queue src own tag = []) :
      Turn r own tag (.recv src next) [] (.running (.recv src next))
        (Transport.receive r own src tag).2

theorem turn_move (tag : Tag) (hown : r.network.Open own) (hp : p.Among r.network.Open) :
    ∃ new, Turn r own tag p new (move r own tag p).status (move r own tag p).network := by
  cases p with
  | ret value => exact ⟨_, .ended (.ok value)⟩
  | fail error => exact ⟨_, .ended (.error error)⟩
  | crash => exact ⟨_, .crashed⟩
  | report entry next => exact ⟨_, .reported entry next⟩
  | send dest data next =>
    obtain ⟨tags, hg⟩ := hp.1
    refine ⟨[.sent dest data], ?_⟩
    rw [move, Recorded.send_of_gate hg]
    have hturn : Turn r own tag (.send dest data next) _ _ _ := Turn.sent data next hp.1
    rwa [Recorded.send_of_gate hg] at hturn
  | recv src next =>
    have hsrc := hp.1
    rcases hq : r.network.queue src own tag with _ | ⟨data, rest⟩
    · refine ⟨[], ?_⟩
      have hturn := Turn.waiting next hown hsrc hq
      rw [Recorded.receive_of_queue_nil hown.lt_size hsrc.lt_size hq] at hturn
      rwa [move, Recorded.receive_of_queue_nil hown.lt_size hsrc.lt_size hq]
    · refine ⟨[.received src data], ?_⟩
      have hturn := Turn.received next hown hsrc hq
      rw [Recorded.receive_of_queue_cons hown.lt_size hsrc.lt_size hq] at hturn
      rwa [move, Recorded.receive_of_queue_cons hown.lt_size hsrc.lt_size hq]

namespace Turn

variable {new : List Event} {s : Status} {r' : Recorded Mesh}

/-- A turn is the effect of a step at an open mailbox. -/
theorem stepEffect (h : Turn r own tag p new s r') : StepEffect r own tag p new s r' := by
  cases h with
  | ended outcome => exact .ended outcome
  | crashed => exact .crashed
  | reported entry next => exact .reported entry next
  | sent data next hdest => exact .sent data next hdest
  | received next hown hsrc hq => exact .received next hown.lt_size hsrc.lt_size hq
  | waiting next hown hsrc hq => exact .waiting next hown.lt_size hsrc.lt_size hq

theorem not_refused (h : Turn r own tag p new s r') (dest : Rank) (data : Bytes) :
    new ≠ [.sendFailed dest data] := by
  cases h <;> exact nofun

theorem lt_size {src : Rank} {next : Except Error Bytes → Program Bytes}
    (h : Turn r own tag (.recv src next) new s r') :
    own.toNat < r.network.size ∧ src.toNat < r.network.size := by
  generalize hp : Program.recv src next = p at h
  cases h with
  | ended outcome => cases outcome <;> cases hp
  | crashed | reported | sent => cases hp
  | received next hown hsrc hq =>
    cases hp
    exact ⟨hown.lt_size, hsrc.lt_size⟩
  | waiting next hown hsrc hq =>
    cases hp
    exact ⟨hown.lt_size, hsrc.lt_size⟩

theorem open_eq (h : Turn r own tag p new s r') : r'.network.Open = r.network.Open := by
  unfold Mesh.Open
  rw [h.stepEffect.gate_eq]

theorem accepts_eq (h : Turn r own tag p new s r') :
    r'.network.Accepts = r.network.Accepts := by
  unfold Mesh.Accepts
  rw [h.stepEffect.gate_eq]

/-- The task comes to where its longer history leads. -/
theorem after (h : Turn r own tag p new s r') {p₀ : Program Bytes} {history : List Event}
    (hp : p₀.Runs history p) : s.After p₀ (history ++ new) := by
  have hstep : ∀ {new q}, p.Runs new q → p₀.Runs (history ++ new) q := fun hq => hp.trans hq
  cases h with
  | ended outcome => exact .finished hp
  | crashed => exact .crashed (hstep (.refl _))
  | reported entry next => exact .running (hstep (.report (.refl _)))
  | sent data next _ => exact .running (hstep (.sent (.refl _)))
  | received next _ _ _ => exact .running (hstep (.received (.refl _)))
  | waiting next _ _ _ => exact .running (hstep (.refl _))

theorem among {peer : Rank → Prop} (h : Turn r own tag p new s r') (hp : p.Among peer)
    {q : Program Bytes} (hq : s = .running q) : q.Among peer := by
  cases h with
  | ended | crashed => cases hq
  | reported entry next =>
    cases hq
    exact hp
  | sent data next _ =>
    cases hq
    exact hp.2 _
  | received next _ _ _ =>
    cases hq
    exact hp.2 _
  | waiting next _ _ _ =>
    cases hq
    exact hp

end Turn

end Turn

/-! ## Coherent states of an executor -/

namespace Executor

/-- A step of a task with a program still before it moves that program on. -/
theorem step_running {σ : Type} [Transport σ] {e : Executor σ} {k : TaskId} {task : Task}
    {p : Program Bytes} (hk : e.tasks[k]? = some task) (hp : task.status = .running p)
    (hr : e.released = []) :
    (e.step k).1 = (move e.network task.rank task.tag p).moved ∧
      (e.step k).2.tasks =
        e.tasks.set k { task with status := (move e.network task.rank task.tag p).status } ∧
      (e.step k).2.network = (move e.network task.rank task.tag p).network ∧
      (e.step k).2.released = [] := by
  cases hm : (move e.network task.rank task.tag p).moved with
  | true => simp [step, hk, hp, hm, apply, closeIdle, hr]
  | false =>
    have hstatus := status_of_not_moved e.network task.rank task.tag hm
    obtain ⟨hlt, hget⟩ := List.getElem?_eq_some_iff.1 hk
    have hset : e.tasks.set k { task with status := .running p } = e.tasks := by
      rw [← hp, ← hget, List.set_getElem_self]
    simp [step, hk, hp, hm, hr, hstatus, hset]

/-- Every task has come to where its history leads, given the program with which it began,
and every channel on which it can still receive is conserved. -/
structure Coherent (origin : TaskId → Program Bytes) (e : Executor (Recorded Mesh)) :
    Prop where
  /-- No endpoint waits to be closed. -/
  kept : e.released = []
  /-- No two tasks share both rank and tag. -/
  alone : ∀ {j k : TaskId} {s t : Task}, e.tasks[j]? = some s → e.tasks[k]? = some t →
    s.rank = t.rank → s.tag = t.tag → j = k
  after : ∀ {k : TaskId} {t : Task}, e.tasks[k]? = some t →
    t.status.After (origin k) (e.network.events t.rank t.tag)
  among : ∀ {k : TaskId} {t : Task} {p : Program Bytes}, e.tasks[k]? = some t →
    t.status = .running p → p.Among e.network.network.Open
  accepts : ∀ {k : TaskId} {t : Task} {p : Program Bytes}, e.tasks[k]? = some t →
    t.status = .running p → e.network.network.Accepts t.rank t.tag
  conserved : ∀ {k : TaskId} {t : Task} {p : Program Bytes}, e.tasks[k]? = some t →
    t.status = .running p → ∀ src, e.network.Conserved src t.rank t.tag
  /-- Nothing was received that was not sent, also by those that have come to their end. -/
  consumed : ∀ {k : TaskId} {t : Task}, e.tasks[k]? = some t → ∀ src,
    messagesFrom src (e.network.events t.rank t.tag) <+:
      messagesTo t.rank (e.network.events src t.tag)

/-- Replacing the task at one place. -/
theorem getElem?_set_task {tasks : List Task} {j k : TaskId} {s t : Task}
    (h : (tasks.set k t)[j]? = some s) : (j = k ∧ s = t) ∨ (j ≠ k ∧ tasks[j]? = some s) := by
  by_cases hjk : j = k
  · subst hjk
    obtain ⟨hlt, hget⟩ := List.getElem?_eq_some_iff.1 h
    rw [List.getElem_set_self] at hget
    exact .inl ⟨rfl, hget.symm⟩
  · rw [List.getElem?_set_ne fun h => hjk h.symm] at h
    exact .inr ⟨hjk, h⟩

namespace Coherent

variable {origin : TaskId → Program Bytes} {e : Executor (Recorded Mesh)}

/-- A step leaves everything as it is, or it is a turn of the task. -/
theorem step_cases (h : e.Coherent origin) (k : TaskId) :
    (e.step k).2 = e ∨
      ∃ (task : Task) (p : Program Bytes) (new : List Event) (s : Status),
        e.tasks[k]? = some task ∧ task.status = .running p ∧
        (e.step k).2.tasks = e.tasks.set k { task with status := s } ∧
        (e.step k).2.released = [] ∧
        Turn e.network task.rank task.tag p new s (e.step k).2.network := by
  cases hk : e.tasks[k]? with
  | none => exact .inl (by simp [Executor.step, hk])
  | some task =>
    cases hp : task.status with
    | finished | crashed | aborted => exact .inl (by simp [Executor.step, hk, hp])
    | aborting => exact absurd hp (h.after hk).ne_aborting
    | running p =>
      obtain ⟨-, htasks, hnet, hreleased⟩ := step_running hk hp h.kept
      obtain ⟨new, hturn⟩ := turn_move task.tag (h.accepts hk hp).open (h.among hk hp)
      rw [← hnet] at hturn
      exact .inr ⟨task, p, new, _, rfl, hp, htasks, hreleased, hturn⟩

/-- A step of one task is none of another. -/
theorem step_of_ne (h : e.Coherent origin) {j k : TaskId} {t : Task} (hjk : j ≠ k)
    (ht : e.tasks[j]? = some t) :
    (e.step k).2.tasks[j]? = some t ∧
      (e.step k).2.network.events t.rank t.tag = e.network.events t.rank t.tag := by
  rcases h.step_cases k with heq | ⟨task, p, new, s, hk, hp, htasks, -, hturn⟩
  · rw [heq]
    exact ⟨ht, rfl⟩
  · have hne : ¬(t.rank = task.rank ∧ t.tag = task.tag) :=
      fun heq => hjk (h.alone ht hk heq.1 heq.2)
    rw [htasks, hturn.stepEffect.events_eq, if_neg hne, List.getElem?_set_ne hjk.symm]
    exact ⟨ht, rfl⟩

theorem step (h : e.Coherent origin) (k : TaskId) : (e.step k).2.Coherent origin := by
  rcases h.step_cases k with heq | ⟨task, p, new, s, hk, hp, htasks, hreleased, hturn⟩
  · rwa [heq]
  have hacc := h.accepts hk hp
  have hold : ∀ {j : TaskId} {t : Task}, (e.step k).2.tasks[j]? = some t →
      ∃ s : Task, e.tasks[j]? = some s ∧ s.rank = t.rank ∧ s.tag = t.tag := by
    intro j t ht
    rw [htasks] at ht
    rcases getElem?_set_task ht with ⟨rfl, rfl⟩ | ⟨-, ht⟩
    · exact ⟨task, hk, rfl, rfl⟩
    · exact ⟨t, ht, rfl, rfl⟩
  have hother : ∀ {j : TaskId} {t : Task}, j ≠ k → e.tasks[j]? = some t →
      ¬(t.rank = task.rank ∧ t.tag = task.tag) :=
    fun hjk ht heq => hjk (h.alone ht hk heq.1 heq.2)
  have hafter := h.after hk
  rw [hp] at hafter
  have hconserved : ∀ {j : TaskId} {t : Task} {q : Program Bytes},
      (e.step k).2.tasks[j]? = some t → t.status = .running q →
      ∀ src, (e.step k).2.network.Conserved src t.rank t.tag := by
    intro j t q ht hq src
    rw [htasks] at ht
    rcases getElem?_set_task ht with ⟨rfl, rfl⟩ | ⟨hjk, ht⟩
    · exact hturn.stepEffect.conserved (h.conserved hk hp src) hacc.keeps fun _ => ⟨q, hq⟩
    · exact hturn.stepEffect.conserved (h.conserved ht hq src) (h.accepts ht hq).keeps
        fun heq => absurd heq (hother hjk ht)
  refine ⟨hreleased, ?_, ?_, ?_, ?_, hconserved, ?_⟩
  · intro j l s t hs ht hrank htag
    obtain ⟨s', hs', hsr, hst⟩ := hold hs
    obtain ⟨t', ht', htr, htt⟩ := hold ht
    exact h.alone hs' ht' (by rw [hsr, htr, hrank]) (by rw [hst, htt, htag])
  · intro j t ht
    rw [htasks] at ht
    rw [hturn.stepEffect.events_eq]
    rcases getElem?_set_task ht with ⟨rfl, rfl⟩ | ⟨hjk, ht⟩
    · rw [if_pos ⟨rfl, rfl⟩]
      exact hturn.after hafter.runs
    · rw [if_neg (hother hjk ht)]
      exact h.after ht
  · intro j t q ht hq
    rw [htasks] at ht
    rw [hturn.open_eq]
    rcases getElem?_set_task ht with ⟨rfl, rfl⟩ | ⟨-, ht⟩
    · exact hturn.among (h.among hk hp) hq
    · exact h.among ht hq
  · intro j t q ht hq
    rw [htasks] at ht
    rw [hturn.accepts_eq]
    rcases getElem?_set_task ht with ⟨rfl, rfl⟩ | ⟨-, ht⟩
    · exact hacc
    · exact h.accepts ht hq
  · intro j t ht src
    cases hq : t.status with
    | running q =>
      rw [hconserved ht hq src]
      exact List.prefix_append _ _
    | finished | crashed | aborting | aborted =>
      have hover : ∀ q, t.status ≠ .running q := by
        intro q
        rw [hq]
        exact nofun
      rw [htasks] at ht
      rcases getElem?_set_task ht with ⟨rfl, rfl⟩ | ⟨hjk, ht⟩
      · exact hturn.stepEffect.consumed (fun _ => hover) (h.consumed hk src)
      · exact hturn.stepEffect.consumed (fun heq => absurd heq (hother hjk ht)) (h.consumed ht src)

/-- When no task has a step to take, a program that is not at its end waits for a message
that is not there. -/
theorem waits_of_stuck (h : e.Coherent origin) (hs : e.Stuck) {k : TaskId} {t : Task}
    {p : Program Bytes} (hk : e.tasks[k]? = some t) (hp : t.status = .running p) :
    ∃ src next, p = .recv src next ∧ e.network.network.queue src t.rank t.tag = [] := by
  have hmoved := hs k
  rw [(step_running hk hp h.kept).1] at hmoved
  obtain ⟨src, next, hrecv, -, hq⟩ := waits_of_not_moved hmoved
  exact ⟨src, next, hrecv, hq⟩

theorem requeue (h : e.Coherent origin) (ready : List TaskId) :
    Coherent origin { e with ready } :=
  ⟨h.kept, h.alone, h.after, h.among, h.accepts, h.conserved, h.consumed⟩

/-- Every schedule goes through coherent states only. -/
theorem reaches {e₀ : Executor (Recorded Mesh)} (h : e₀.Coherent origin)
    (he : e₀.Reaches e) : e.Coherent origin := by
  induction he with
  | refl => exact h
  | step _ k ih => exact ih.step k
  | requeue _ ready ih => exact ih.requeue ready

end Coherent

end Executor

end Collectives
