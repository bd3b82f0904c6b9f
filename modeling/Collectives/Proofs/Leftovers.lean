import Mathlib
import Collectives.Proofs.Calls
import Collectives.Proofs.Channels

/-!
# What stays in the mailboxes

A task that ends by itself retires its tag, one that is given up abandons it, and messages under an
abandoned tag are dropped.  An operation that is closed before it was started does neither: it has
no task, and nobody abandons its tag.  So all that its peers send under it stays
(`TrackedRun.channel?_of_absent`).  And what comes after a task has retired stays as well, where the
task has ended with an error before it took everything; a task that dies releases nothing at all.

Nothing else stays (`leftovers`): when no task has died, and each rank was given up under each tag
or has taken all that was sent to it, all mailboxes are empty in the end.  That an operation which
was closed unstarted does leave something behind is shown by two ranks of which one sends to the
other (`not_always_empty`).
-/

namespace Collectives

theorem Table.entries_eq_nil {κ ν : Type} [DecidableEq κ] {t : Table κ ν}
    (h : ∀ k, t.get? k = none) : t.entries = [] := by
  obtain ⟨entries⟩ := t
  cases entries with
  | nil => rfl
  | cons e entries =>
    have hnone := h e.1
    simp [get?] at hnone

/-- How the queue of a channel that is not empty tells the channel. -/
theorem Mesh.channel?_of_filled {mesh : Mesh} {src dest : Rank} {tag : Tag}
    (h : mesh.channel? src dest tag ≠ some []) :
    mesh.channel? src dest tag =
      if mesh.queue src dest tag = [] then none else some (mesh.queue src dest tag) := by
  rw [queue_eq_channel?]
  cases hchannel : mesh.channel? src dest tag with
  | none => simp
  | some queued =>
    have hne : queued ≠ [] := fun heq => h (heq ▸ hchannel)
    simp [hne]

/-- Where all tasks are over none has a step to take. -/
theorem Executor.step_of_isOver {σ : Type} [Transport σ] {e : Executor σ}
    (h : ∀ task ∈ e.tasks, task.status.isOver = true) (k : TaskId) : (e.step k).1 = false := by
  unfold step
  cases hk : e.tasks[k]? with
  | none => rfl
  | some task =>
    have hover := h task (List.mem_of_getElem? hk)
    dsimp only
    cases hs : task.status with
    | finished | crashed | aborted => rfl
    | running | aborting =>
      rw [hs] at hover
      cases hover

section

variable {assigned : Rank → Tag → Program Bytes → Prop} {size : Nat} {roll : Roll}
  {r : Recorded Mesh}
  {dest : Rank} {tag : Tag}

/-- What is sent to a rank without a task under the tag stays: all of it. -/
theorem TrackedRun.channel?_of_absent (h : TrackedRun assigned size roll r)
    (hdest : roll dest tag = none)
    (src : Rank) :
    r.network.channel? src dest tag =
      if messagesTo dest (r.events src tag) = [] then none
      else some (messagesTo dest (r.events src tag)) := by
  have habsent : Expectant (roll dest tag) := hdest ▸ .absent
  have hvacant : Vacant (roll dest tag) := hdest ▸ .absent
  have hall : messagesTo dest (r.events src tag) = r.network.queue src dest tag := by
    have hconserved := h.orderly.conserved habsent src
    rwa [Recorded.Conserved, h.orderly.silent hdest] at hconserved
  rw [hall]
  exact Mesh.channel?_of_filled (h.tidy.filled hvacant src)

/-- Where a task has come to its end by itself, nothing stays but what it has not taken. -/
theorem TrackedRun.channel?_of_finished (h : TrackedRun assigned size roll r)
    {outcome : Except Error Bytes} (hdest : roll dest tag = some (.finished outcome)) {src : Rank}
    {queued : List Bytes} (hqueued : r.network.channel? src dest tag = some queued) :
    queued ≠ [] ∧ (messagesFrom src (r.events dest tag)).length + queued.length ≤
      (messagesTo dest (r.events src tag)).length := by
  have hvacant : Vacant (roll dest tag) := hdest ▸ .finished outcome
  have hbounded := h.tidy.bounded src dest tag
  rw [Mesh.queue_eq_channel?, hqueued] at hbounded
  refine ⟨?_, hbounded⟩
  rintro rfl
  exact h.tidy.filled hvacant src hqueued

end

namespace Session

/-- No task is under way any more: each has ended, died, or been given up. -/
def AllOver (s : Session (Recorded Mesh)) : Prop :=
  ∀ task ∈ s.executor.tasks, ¬task.status.isRunning

/-- Why there is still a channel from one rank to another under a tag. -/
inductive Leftover (s : Session (Recorded Mesh)) (src dest : Rank) (tag : Tag)
    (queued : List Bytes) : Prop where
  /-- The operation of the receiver was never started, and nothing of what was sent is gone. -/
  | unstarted (hnone : s.executor.roll dest tag = none) (hne : queued ≠ [])
      (hall : queued = messagesTo dest (s.executor.network.events src tag))
  /-- The task of the receiver has ended before it took everything. -/
  | untaken (outcome : Except Error Bytes)
      (hended : s.executor.roll dest tag = some (.finished outcome)) (hne : queued ≠ [])
      (hbound : (messagesFrom src (s.executor.network.events dest tag)).length + queued.length ≤
        (messagesTo dest (s.executor.network.events src tag)).length)
  /-- The task of the receiver has died, and has released nothing. -/
  | died (hdied : s.executor.roll dest tag = some .crashed)

variable {s : Session (Recorded Mesh)} {assigned : Rank → Tag → Program Bytes → Prop} {size : Nat}

/-- Every way in which an operation may have ended: who was given up has no channel any more. -/
theorem leftover_of_channel (h : TrackedRun assigned size s.executor.roll s.executor.network)
    (hover : s.AllOver) {src dest : Rank} {tag : Tag} {queued : List Bytes}
    (hchannel : s.executor.network.network.channel? src dest tag = some queued) :
    s.Leftover src dest tag queued := by
  cases hroll : s.executor.roll dest tag with
  | none =>
    have habsent := h.channel?_of_absent hroll src
    rw [hchannel] at habsent
    split at habsent
    · cases habsent
    · next hne =>
      obtain rfl := Option.some_inj.1 habsent
      exact .unstarted hroll hne rfl
  | some status =>
    obtain ⟨k, hk⟩ := Roll.exists_of_ofTasks hroll
    have hstatus := hover _ (List.mem_of_getElem? hk)
    have hdropped : status.IsGivenUp → s.Leftover src dest tag queued := by
      intro hup
      rw [(h.tidy.dropped ⟨status, hroll, hup⟩).no_channel] at hchannel
      cases hchannel
    cases status with
    | running p => exact absurd rfl hstatus
    | finished outcome =>
      obtain ⟨hne, hbound⟩ := h.channel?_of_finished hroll hchannel
      exact .untaken outcome hroll hne hbound
    | crashed => exact .died hroll
    | aborting => exact hdropped trivial
    | aborted => exact hdropped trivial

/-- Where no task has died, and each rank was given up or has taken everything, nothing is left. -/
theorem not_leftover (h : TrackedRun assigned size s.executor.roll s.executor.network)
    {src dest : Rank} {tag : Tag} {queued : List Bytes}
    (hlive : s.executor.roll dest tag ≠ some .crashed)
    (htaken : s.executor.roll.GivenUp dest tag ∨
      messagesTo dest (s.executor.network.events src tag) =
        messagesFrom src (s.executor.network.events dest tag)) :
    ¬s.Leftover src dest tag queued := by
  intro hleft
  cases hleft with
  | unstarted hnone hne hall =>
    rcases htaken with hup | htaken
    · exact Roll.not_givenUp_of_none hnone hup
    · rw [hall, htaken, h.orderly.silent hnone] at hne
      exact hne rfl
  | untaken outcome hended hne hbound =>
    rcases htaken with hup | htaken
    · exact (Roll.givenUp_iff hended).1 hup
    · have hpos := List.length_pos_iff.2 hne
      rw [htaken] at hbound
      omega
  | died hdied => exact hlive hdied

/-- Where no two tasks share rank and tag, and none is under way any more: what a mailbox still
holds was sent to a rank that never started its operation, and then it is all that was sent there,
or it was left by a task that ended before it took everything, or died.  So where none has died, all
mailboxes are empty when each rank was given up under each tag or has taken all that was sent to
it. -/
theorem leftovers {registry : Registry} {communicators : List Communicator} {history : List Call}
    (hs : s = calls (ofCommunicators { network := .ofSize size } registry communicators) history)
    (hdistinct : Roll.Distinct s.executor.tasks) (hover : s.AllOver) :
    (∀ dest box src tag queued, s.executor.network.network.mailbox? dest = some box →
      box.channels.get? (src, tag) = some queued → s.Leftover src dest tag queued) ∧
    ((∀ dest tag, s.executor.roll dest tag ≠ some .crashed) →
      (∀ src dest tag, s.executor.roll.GivenUp dest tag ∨
        messagesTo dest (s.executor.network.events src tag) =
          messagesFrom src (s.executor.network.events dest tag)) →
      ∀ dest box, s.executor.network.network.mailbox? dest = some box →
        box.channels.entries = []) := by
  have hreachable : s.Reachable (fun _ _ _ => True) { network := .ofSize size } := by
    subst hs
    exact reachable_calls _ _ _ _ hdistinct
  have h := hreachable.faultyRun.tracked.run
  have hheld : ∀ dest box src tag queued, s.executor.network.network.mailbox? dest = some box →
      box.channels.get? (src, tag) = some queued → s.Leftover src dest tag queued := by
    intro dest box src tag queued hbox hqueued
    refine leftover_of_channel h hover ?_
    rw [Mesh.channel?, hbox, Option.bind_some, hqueued]
  refine ⟨hheld, ?_⟩
  intro hlive htaken dest box hbox
  refine Table.entries_eq_nil ?_
  rintro ⟨src, tag⟩
  cases hqueued : box.channels.get? (src, tag) with
  | none => rfl
  | some queued =>
    have hleft := hheld dest box src tag queued hbox hqueued
    exact absurd hleft (not_leftover h (hlive dest tag) (htaken src dest tag))

/-- Two ranks; one sends its broadcast and the other closes its own without having started it. -/
def forsaken : Session (Recorded Mesh) :=
  calls (ofCommunicators { network := .ofSize 2 } .builtin
      [⟨⟨0, 2, by decide⟩, .standard, .empty⟩, ⟨⟨1, 2, by decide⟩, .standard, .empty⟩])
    [.group 0 "here" none, .group 1 "there" none,
      .build 0 "here" "sent" (.ok ⟨.broadcast 0, .int, 1, some .linear⟩),
      .build 1 "there" "idle" (.ok ⟨.broadcast 0, .int, 1, some .linear⟩),
      .start "sent" .int (some [7]) true, .settle, .wait "sent" .int, .close "idle", .close "sent"]

theorem tasks_forsaken : forsaken.executor.tasks =
    [⟨0, .ofSequence (Tag.groupId [0, 1] 0) 0, .finished (.ok [7, 0, 0, 0])⟩] := by
  cbv

theorem mailbox_forsaken : forsaken.executor.network.network.mailbox? 1 =
    some { channels := ⟨[((0, .ofSequence (Tag.groupId [0, 1] 0) 0), [[7, 0, 0, 0]])]⟩ } := by
  cbv

/-- The message is still there, as one that nobody will ever take. -/
theorem leftovers_forsaken :
    forsaken.Leftover 0 1 (.ofSequence (Tag.groupId [0, 1] 0) 0) [[7, 0, 0, 0]] := by
  have hdistinct : Roll.Distinct forsaken.executor.tasks := by
    rw [tasks_forsaken]
    exact List.nodup_singleton _
  have hover : forsaken.AllOver := by
    rw [AllOver, tasks_forsaken, List.forall_mem_singleton]
    exact nofun
  exact (leftovers (s := forsaken) rfl hdistinct hover).1 1 _ 0 _ _ mailbox_forsaken
    (by decide +kernel)

/-- Although all operations are closed, nothing can go on and all communicators are there, a mailbox
need not be empty. -/
theorem not_always_empty : ¬∀ (world : Nat) (registry : Registry)
    (communicators : List Communicator) (history : List Call) (s : Session (Recorded Mesh)),
    s = calls (ofCommunicators { network := .ofSize world } registry communicators) history →
    (∀ k, (s.executor.step k).1 = false) → s.operations.entries = [] →
    (∀ name task, s.barriers.get? name = some (.ok task) →
      (s.executor.status? task).any Status.isOver) →
    (∀ c ∈ communicators, (s.communicators.get? c.rank).isSome) →
    ∀ dest box, s.executor.network.network.mailbox? dest = some box →
      box.channels.entries = [] := by
  intro hall
  have hstuck : ∀ k, (forsaken.executor.step k).1 = false := by
    refine Executor.step_of_isOver ?_
    rw [tasks_forsaken]
    simp [Status.isOver]
  have hclosed : forsaken.operations.entries = [] := by cbv
  have hbarriers : forsaken.barriers = .empty := by cbv
  have hfirst : (forsaken.communicators.get? 0).isSome := by cbv
  have hsecond : (forsaken.communicators.get? 1).isSome := by cbv
  have hempty := hall 2 .builtin _ _ forsaken rfl hstuck hclosed (by simp [hbarriers])
    (List.forall_mem_cons.2 ⟨hfirst, List.forall_mem_singleton.2 hsecond⟩) 1 _ mailbox_forsaken
  cases hempty

end Session

end Collectives
