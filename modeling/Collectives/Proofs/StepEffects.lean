import Collectives.Proofs.Conservation

/-!
# The effect of a step

What one step of one task can do to a recorded mesh, whatever state the mesh is in.  A send may
be refused, because the endpoint of the other rank is closed, and then nothing but the log
changes.  A receive is answered by a message that is there, or it waits; only where one of the
two ranks does not exist is it answered with an error.

`StepEffect` says this once, with what the step adds to the history of the task, and every step has
one of these effects (`stepEffect_move`).  No step opens or closes a mailbox (`StepEffect.gate_eq`),
none touches the history of another task (`StepEffect.events_eq`), and all of them keep the channels
conserved on which a task can still receive (`StepEffect.conserved`).
-/

namespace Collectives

namespace Mesh

variable (mesh : Mesh) (own peer : Rank) (tag : Tag)

@[simp] theorem size_send (data : Bytes) : (mesh.send own peer tag data).2.size = mesh.size := by
  unfold send
  split
  · rfl
  · split
    · exact size_update _ _ _
    · rfl

@[simp] theorem size_receive : (mesh.receive own peer tag).2.size = mesh.size := by
  unfold receive
  split
  · rfl
  · rfl
  · exact size_update _ _ _

@[simp] theorem size_retire : (mesh.retire own tag).size = mesh.size := size_update _ _ _

@[simp] theorem size_abandon : (mesh.abandon own tag).size = mesh.size := size_update _ _ _

@[simp] theorem size_close : (mesh.close own).size = mesh.size := size_update _ _ _

end Mesh

namespace Recorded

variable {r : Recorded Mesh} {own : Rank} {tag : Tag}

theorem send_of_refused {dest : Rank} {data : Bytes} {cause : Error}
    (h : r.network.send own dest tag data = (.error cause, r.network)) :
    Transport.send r own dest tag data =
      (.error cause, r.note r.network own tag (.sendFailed dest data)) := by
  simp only [Transport.send, h]

theorem receive_of_no_rank {src : Rank} {cause : Error}
    (h : r.network.receive own src tag = (some (.error cause), r.network)) :
    Transport.receive r own src tag = (some (.error cause), r) := by
  simp only [Transport.receive, h]

/-- What receiving does to the mesh does not depend on the log. -/
theorem network_receive (r : Recorded Mesh) (own src : Rank) (tag : Tag) :
    (Transport.receive r own src tag).2.network = (r.network.receive own src tag).2 :=
  (congrArg Prod.snd (r.receive_network own src tag)).symm

end Recorded

variable {r : Recorded Mesh} {own : Rank} {tag : Tag} {p : Program Bytes}

/-- What a step makes of the program of a task and of the network, and what it adds to the
history of the task. -/
inductive StepEffect (r : Recorded Mesh) (own : Rank) (tag : Tag) :
    Program Bytes → List Event → Status → Recorded Mesh → Prop where
  | ended (outcome : Except Error Bytes) :
      StepEffect r own tag (.ofExcept outcome) [.retired] (.finished outcome)
        (Transport.retire r own tag)
  | crashed : StepEffect r own tag .crash [] .crashed r
  | reported (entry : Observation) (next : Program Bytes) :
      StepEffect r own tag (.report entry next) [] (.running next) r
  | sent {dest : Rank} (data : Bytes) (next : Except Error Unit → Program Bytes)
      (hdest : r.network.Open dest) :
      StepEffect r own tag (.send dest data next) [.sent dest data] (.running (next (.ok ())))
        (Transport.send r own dest tag data).2
  | refused {dest : Rank} (data : Bytes) (next : Except Error Unit → Program Bytes)
      (cause : Error)
      (hrefused : r.network.send own dest tag data = (.error cause, r.network)) :
      StepEffect r own tag (.send dest data next) [.sendFailed dest data]
        (.running (next (.error cause))) (r.note r.network own tag (.sendFailed dest data))
  | received {src : Rank} (next : Except Error Bytes → Program Bytes) {data : Bytes}
      {rest : List Bytes} (hown : own.toNat < r.network.size)
      (hsrc : src.toNat < r.network.size) (hq : r.network.queue src own tag = data :: rest) :
      StepEffect r own tag (.recv src next) [.received src data] (.running (next (.ok data)))
        (Transport.receive r own src tag).2
  | unanswered {src : Rank} (next : Except Error Bytes → Program Bytes) (cause : Error)
      (hnone : ¬(own.toNat < r.network.size ∧ src.toNat < r.network.size))
      (hcause : r.network.receive own src tag = (some (.error cause), r.network)) :
      StepEffect r own tag (.recv src next) [] (.running (next (.error cause))) r
  | waiting {src : Rank} (next : Except Error Bytes → Program Bytes)
      (hown : own.toNat < r.network.size) (hsrc : src.toNat < r.network.size)
      (hq : r.network.queue src own tag = []) :
      StepEffect r own tag (.recv src next) [] (.running (.recv src next))
        (Transport.receive r own src tag).2

theorem stepEffect_move (r : Recorded Mesh) (own : Rank) (tag : Tag) (p : Program Bytes) :
    ∃ new, StepEffect r own tag p new (move r own tag p).status (move r own tag p).network := by
  cases p with
  | ret value => exact ⟨_, .ended (.ok value)⟩
  | fail error => exact ⟨_, .ended (.error error)⟩
  | crash => exact ⟨_, .crashed⟩
  | report entry next => exact ⟨_, .reported entry next⟩
  | send dest data next =>
    rcases r.network.open_or_refused own dest tag data with hopen | ⟨cause, hrefused⟩
    · obtain ⟨tags, hg⟩ := hopen
      refine ⟨[.sent dest data], ?_⟩
      rw [move, Recorded.send_of_gate hg]
      have heffect : StepEffect r own tag (.send dest data next) _ _ _ := .sent data next ⟨tags, hg⟩
      rwa [Recorded.send_of_gate hg] at heffect
    · refine ⟨[.sendFailed dest data], ?_⟩
      rw [move, Recorded.send_of_refused hrefused]
      exact .refused data next cause hrefused
  | recv src next =>
    by_cases hranks : own.toNat < r.network.size ∧ src.toNat < r.network.size
    · obtain ⟨hown, hsrc⟩ := hranks
      rcases hq : r.network.queue src own tag with _ | ⟨data, rest⟩
      · refine ⟨[], ?_⟩
        have heffect := StepEffect.waiting next hown hsrc hq
        rw [Recorded.receive_of_queue_nil hown hsrc hq] at heffect
        rwa [move, Recorded.receive_of_queue_nil hown hsrc hq]
      · refine ⟨[.received src data], ?_⟩
        have heffect := StepEffect.received next hown hsrc hq
        rw [Recorded.receive_of_queue_cons hown hsrc hq] at heffect
        rwa [move, Recorded.receive_of_queue_cons hown hsrc hq]
    · obtain ⟨cause, hcause⟩ := Mesh.receive_of_no_rank tag hranks
      refine ⟨[], ?_⟩
      rw [move, Recorded.receive_of_no_rank hcause]
      exact .unanswered next cause hranks hcause

/-- A program that cannot move waits for a message that is not there, from a rank that exists. -/
theorem waits_of_not_moved (hm : (move r own tag p).moved = false) :
    ∃ src next, p = .recv src next ∧
      (own.toNat < r.network.size ∧ src.toNat < r.network.size) ∧
      r.network.queue src own tag = [] := by
  cases p with
  | ret | fail | crash | report | send => cases hm
  | recv src next =>
    by_cases hranks : own.toNat < r.network.size ∧ src.toNat < r.network.size
    · refine ⟨src, next, rfl, hranks, ?_⟩
      rcases hq : r.network.queue src own tag with _ | ⟨data, rest⟩
      · rfl
      · rw [move, Recorded.receive_of_queue_cons hranks.1 hranks.2 hq] at hm
        cases hm
    · obtain ⟨cause, hcause⟩ := Mesh.receive_of_no_rank tag hranks
      rw [move, Recorded.receive_of_no_rank hcause] at hm
      cases hm

namespace StepEffect

variable {new : List Event} {s : Status} {r' : Recorded Mesh}

theorem gate_eq (h : StepEffect r own tag p new s r') : r'.network.gate = r.network.gate := by
  cases h with
  | ended => exact Mesh.gate_retire _ _ _
  | crashed | reported | refused | unanswered => rfl
  | sent data next hdest =>
    obtain ⟨tags, hg⟩ := hdest
    rw [Recorded.send_of_gate hg]
    exact Mesh.gate_send _ _ _ _ _
  | received | waiting => rw [Recorded.network_receive, Mesh.gate_receive]

theorem size_eq (h : StepEffect r own tag p new s r') : r'.network.size = r.network.size := by
  cases h with
  | ended => exact Mesh.size_retire _ _ _
  | crashed | reported | refused | unanswered => rfl
  | sent data next hdest =>
    obtain ⟨tags, hg⟩ := hdest
    rw [Recorded.send_of_gate hg]
    exact Mesh.size_send _ _ _ _ _
  | received | waiting => rw [Recorded.network_receive, Mesh.size_receive]

/-- Only the history of the task itself becomes longer. -/
theorem events_eq (h : StepEffect r own tag p new s r') (rank : Rank) (other : Tag) :
    r'.events rank other =
      if rank = own ∧ other = tag then r.events rank other ++ new
      else r.events rank other := by
  have hsame : ∀ r' : Recorded Mesh, r'.log = r.log →
      r'.events rank other =
        if rank = own ∧ other = tag then r.events rank other ++ []
        else r.events rank other := by
    intro r' hlog
    rw [List.append_nil, ite_self, Recorded.events, hlog]
    rfl
  cases h with
  | ended | refused => exact Recorded.events_note _ _ _ _ _ _ _
  | crashed | reported | unanswered => exact hsame _ rfl
  | sent data next hdest =>
    obtain ⟨tags, hg⟩ := hdest
    rw [Recorded.send_of_gate hg]
    exact Recorded.events_note _ _ _ _ _ _ _
  | received next hown hsrc hq =>
    rw [Recorded.receive_of_queue_cons hown hsrc hq]
    exact Recorded.events_note _ _ _ _ _ _ _
  | waiting next hown hsrc hq =>
    rw [Recorded.receive_of_queue_nil hown hsrc hq]
    exact hsame _ rfl

theorem events_prefix (h : StepEffect r own tag p new s r') (rank : Rank) (other : Tag) :
    r.events rank other <+: r'.events rank other := by
  rw [h.events_eq]
  split
  · exact List.prefix_append _ _
  · exact List.prefix_rfl

/-- Every channel on which a task can still receive stays conserved. -/
theorem conserved (h : StepEffect r own tag p new s r') {src target : Rank} {other : Tag}
    (hc : r.Conserved src target other) (hto : r.network.Keeps target other)
    (hk : target = own ∧ other = tag → ∃ q, s = .running q) :
    r'.Conserved src target other := by
  cases h with
  | ended outcome =>
    refine hc.retire ?_
    intro hown
    obtain ⟨q, hq⟩ := hk hown
    cases hq
  | crashed | reported | unanswered => exact hc
  | sent data next hdest => exact hc.send hdest hto data
  | refused data next cause => exact hc.note_quiet trivial rfl
  | received next hown hsrc hq => exact hc.receive hown hsrc hq
  | waiting next hown hsrc hq => exact hc.ask hown hsrc hq

/-- The last step of a task receives nothing. -/
theorem messagesFrom_eq_nil (h : StepEffect r own tag p new s r') (hs : ∀ q, s ≠ .running q)
    (src : Rank) : messagesFrom src new = [] := by
  cases h with
  | ended | crashed => rfl
  | reported | sent | refused | received | unanswered | waiting => exact absurd rfl (hs _)

/-- A task that is over has received nothing in its last step, and others may go on sending. -/
theorem consumed (h : StepEffect r own tag p new s r') {rank src : Rank} {other : Tag}
    (hs : rank = own ∧ other = tag → ∀ q, s ≠ .running q)
    (hc : messagesFrom src (r.events rank other) <+: messagesTo rank (r.events src other)) :
    messagesFrom src (r'.events rank other) <+: messagesTo rank (r'.events src other) := by
  refine List.IsPrefix.trans ?_ (messagesTo_mono rank (h.events_prefix src other))
  rw [h.events_eq]
  split
  · next hown =>
    rw [messagesFrom_append, h.messagesFrom_eq_nil (hs hown), List.append_nil]
    exact hc
  · exact hc

end StepEffect

end Collectives
