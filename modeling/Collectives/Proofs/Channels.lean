import Collectives.Proofs.Openness

/-!
# Channels

Which channels exist at a rank, and how much waits in them, when anything may have happened before.
A channel comes into being with a message in it or because a task asks for one.  So a rank that has
no task under a tag, or one that has ended, has no channel for the tag that is empty
(`Tidy.filled`); a rank whose task was given up has none at all, and drops what is sent to it
(`Tidy.dropped`); and never does more wait than was sent and not received (`Tidy.bounded`).

Together this tells when a channel is gone: it is enough that everything that was sent was received
(`Tidy.no_channel`).
-/

namespace Collectives

/-! ## The channels of a mesh -/

theorem Mailbox.get?_accept (box : Mailbox) (key other : ChannelKey) (data : Bytes) :
    (box.accept key data).channels.get? other =
      if other = key ∧ key.2 ∉ box.abandoned then some (box.queue key ++ [data])
      else box.channels.get? other := by
  unfold accept
  by_cases htag : key.2 ∈ box.abandoned
  · rw [if_pos htag, if_neg fun h => h.2 htag]
  · rw [if_neg htag, Table.get?_insert]
    simp [htag]

namespace Mesh

/-- What waits in the channel from one rank to another under a tag, if there is such a channel. -/
def channel? (mesh : Mesh) (src dest : Rank) (tag : Tag) : Option (List Bytes) :=
  (mesh.mailbox? dest).bind fun box => box.channels.get? (src, tag)

variable (mesh : Mesh) (own src dest peer : Rank) (tag other : Tag)

theorem queue_eq_channel? : mesh.queue src dest tag = (mesh.channel? src dest tag).getD [] := by
  unfold queue channel?
  cases mesh.mailbox? dest <;> rfl

theorem channel?_update (rank : Rank) (f : Mailbox → Mailbox) :
    (mesh.update rank f).channel? src dest tag =
      if rank = dest then (mesh.mailbox? dest).bind fun box => (f box).channels.get? (src, tag)
      else mesh.channel? src dest tag := by
  rw [channel?, mailbox?_update]
  by_cases h : rank = dest
  · rw [if_pos h, if_pos h]
    cases mesh.mailbox? dest <;> rfl
  · rw [if_neg h, if_neg h]
    rfl

/-- A message that is let in and not dropped waits in its channel, and touches no other. -/
theorem channel?_send {tags : List Tag} (h : mesh.gate dest = some (true, tags)) (data : Bytes)
    (target : Rank) :
    (mesh.send own dest tag data).2.channel? src target other =
      if (src = own ∧ target = dest ∧ other = tag) ∧ tag ∉ tags then
        some (mesh.queue own dest tag ++ [data])
      else mesh.channel? src target other := by
  obtain ⟨box, hbox, hg⟩ := Option.map_eq_some_iff.1 h
  rw [Prod.mk.injEq] at hg
  obtain ⟨hopen, rfl⟩ := hg
  have hsend : (mesh.send own dest tag data).2 = mesh.update dest (·.accept (own, tag) data) := by
    simp only [send, hbox, hopen, if_true]
  rw [hsend, channel?_update]
  by_cases hd : dest = target
  · subst hd
    rw [if_pos rfl, channel?, queue, hbox]
    simp only [Option.bind_some, Mailbox.get?_accept, Prod.mk.injEq, true_and]
  · have hne : ¬((src = own ∧ target = dest ∧ other = tag) ∧ tag ∉ box.abandoned) :=
      fun hc => hd hc.1.2.1.symm
    rw [if_neg hd, if_neg hne]

/-- Receiving touches channels at the receiver and under the tag only. -/
theorem channel?_receive_of_ne (h : ¬(dest = own ∧ other = tag)) :
    (mesh.receive own peer tag).2.channel? src dest other = mesh.channel? src dest other := by
  unfold receive
  cases mesh.mailbox? peer with
  | none => rfl
  | some box =>
    cases hown : mesh.mailbox? own with
    | none => rfl
    | some box' =>
      show (mesh.update own fun _ => (box'.take (peer, tag)).2).channel? src dest other = _
      rw [channel?_update]
      by_cases hd : own = dest
      · subst hd
        have hkey : (src, other) ≠ (peer, tag) := fun heq => h ⟨rfl, (Prod.mk.inj heq).2⟩
        rw [if_pos rfl, channel?, hown, Option.bind_some, Option.bind_some, Mailbox.take,
          Table.get?_insert, if_neg hkey]
      · rw [if_neg hd]

/-- Giving up a tag removes its channels at one rank. -/
theorem channel?_retire :
    (mesh.retire own tag).channel? src dest other =
      if dest = own ∧ other = tag then none else mesh.channel? src dest other := by
  rw [retire, channel?_update]
  by_cases hd : own = dest
  · subst hd
    rw [if_pos rfl, channel?]
    cases mesh.mailbox? own with
    | none => simp
    | some box => by_cases ht : other = tag <;> simp [Mailbox.retire, ht]
  · rw [if_neg hd, if_neg fun h => hd h.1.symm]

theorem channel?_abandon :
    (mesh.abandon own tag).channel? src dest other =
      (mesh.retire own tag).channel? src dest other := by
  rw [abandon, retire, channel?_update, channel?_update]
  rfl

theorem channel?_close : (mesh.close own).channel? src dest tag = mesh.channel? src dest tag := by
  rw [close, channel?_update]
  split <;> rfl

end Mesh

/-! ## Messages that are dropped -/

/-- Messages to the rank under the tag are dropped, and there is no channel for any. -/
structure Mesh.Drops (mesh : Mesh) (dest : Rank) (tag : Tag) : Prop where
  abandoned : ∀ g, mesh.gate dest = some g → tag ∈ g.2
  no_channel : ∀ src, mesh.channel? src dest tag = none

namespace Mesh.Drops

variable {mesh : Mesh} {own dest : Rank} {tag other : Tag}

/-- A message that is dropped is accepted and changes nothing. -/
theorem send_eq (h : mesh.Drops dest tag) (hopen : mesh.Open dest) (own : Rank) (data : Bytes) :
    mesh.send own dest tag data = (.ok (), mesh) := by
  obtain ⟨box, hbox, hisOpen⟩ := open_iff.1 hopen
  have htag : tag ∈ box.abandoned := h.abandoned (box.isOpen, box.abandoned) (by
    rw [gate, hbox, Option.map_some])
  have hsame : mesh.update dest (·.accept (own, tag) data) = mesh := by
    refine congrArg Mesh.mk (List.ext_getElem? ?_)
    intro k
    rw [List.getElem?_modify]
    split
    · next hk =>
      subst hk
      have hget : mesh.mailboxes[dest.toNat]? = some box := hbox
      rw [hget, Option.map_eq_map, Option.map_some, Mailbox.accept_abandoned htag]
    · exact id_map _
  rw [send, hbox]
  dsimp only
  rw [if_pos hisOpen, hsame]

/-- Whoever abandons a tag drops its messages from now on. -/
theorem of_abandon (mesh : Mesh) (own : Rank) (tag : Tag) :
    (mesh.abandon own tag).Drops own tag := by
  constructor
  · intro g hg
    rw [gate, abandon, mailbox?_update, if_pos rfl, Option.map_map] at hg
    obtain ⟨box, -, rfl⟩ := Option.map_eq_some_iff.1 hg
    show tag ∈ tag :: box.abandoned
    exact List.mem_cons_self
  · intro src
    rw [channel?_abandon, channel?_retire, if_pos ⟨rfl, rfl⟩]

theorem abandon (h : mesh.Drops dest tag) (own : Rank) (other : Tag) :
    (mesh.abandon own other).Drops dest tag := by
  constructor
  · intro g hg
    rw [gate, Mesh.abandon, mailbox?_update] at hg
    split at hg
    · rw [Option.map_map] at hg
      obtain ⟨box, hbox, rfl⟩ := Option.map_eq_some_iff.1 hg
      refine List.mem_cons_of_mem other (h.abandoned (box.isOpen, box.abandoned) ?_)
      rw [gate, hbox, Option.map_some]
    · exact h.abandoned g hg
  · intro src
    rw [channel?_abandon, channel?_retire, h.no_channel, ite_self]

theorem close (h : mesh.Drops dest tag) (own : Rank) : (mesh.close own).Drops dest tag := by
  constructor
  · intro g hg
    rw [gate, Mesh.close, mailbox?_update] at hg
    split at hg
    · rw [Option.map_map] at hg
      obtain ⟨box, hbox, rfl⟩ := Option.map_eq_some_iff.1 hg
      exact h.abandoned (box.isOpen, box.abandoned) (by rw [gate, hbox, Option.map_some])
    · exact h.abandoned g hg
  · intro src
    rw [channel?_close, h.no_channel]

end Mesh.Drops

/-! ## What steps do to channels -/

namespace StepEffect

variable {r r' : Recorded Mesh} {own src dest : Rank} {tag other : Tag} {p : Program Bytes}
  {new : List Event} {s : Status}

/-- A step of another task leaves a channel as it is, or puts a message into it, unless the
messages of this tag are dropped there. -/
theorem channel?_of_ne (h : StepEffect r own tag p new s r') (hne : ¬(dest = own ∧ other = tag)) :
    r'.network.channel? src dest other = r.network.channel? src dest other ∨
      ¬(∀ g, r.network.gate dest = some g → other ∈ g.2) ∧
        ∃ data, r'.network.channel? src dest other =
          some (r.network.queue src dest other ++ [data]) := by
  cases h with
  | ended outcome => exact .inl ((Mesh.channel?_retire ..).trans (if_neg hne))
  | crashed | reported | refused | unanswered => exact .inl rfl
  | @sent target data next hdest =>
    obtain ⟨tags, hg⟩ := hdest
    have hchannel := r.network.channel?_send own src target tag other hg data dest
    rw [Recorded.send_of_gate hg]
    simp only [Recorded.note, hchannel]
    split
    · next hkey =>
      obtain ⟨⟨rfl, rfl, rfl⟩, htag⟩ := hkey
      exact .inr ⟨fun hall => htag (hall _ hg), data, rfl⟩
    · exact .inl rfl
  | received | waiting =>
    rw [Recorded.network_receive]
    exact .inl (Mesh.channel?_receive_of_ne _ _ _ _ _ _ _ hne)

/-- The last step of a task that ends by itself removes its channels. -/
theorem channel?_of_finished {outcome : Except Error Bytes}
    (h : StepEffect r own tag p new (.finished outcome) r') :
    r'.network.channel? src own tag = none := by
  cases h with
  | ended outcome => exact (Mesh.channel?_retire ..).trans (if_pos ⟨rfl, rfl⟩)

theorem drops (h : StepEffect r own tag p new s r') (hd : r.network.Drops dest other)
    (hne : ¬(dest = own ∧ other = tag)) : r'.network.Drops dest other := by
  constructor
  · rw [h.gate_eq]
    exact hd.abandoned
  · intro src
    rcases h.channel?_of_ne hne with heq | ⟨hkept, -⟩
    · rw [heq, hd.no_channel]
    · exact absurd hd.abandoned hkept

theorem not_givenUp (h : StepEffect r own tag p new s r') : ¬s.IsGivenUp := by
  cases h <;> exact id

/-- A step adds no more to a queue than it sends, and takes out what it receives. -/
theorem length_queue_le (h : StepEffect r own tag p new s r') (src dest : Rank) (other : Tag) :
    (r'.network.queue src dest other).length +
        (if dest = own ∧ other = tag then (messagesFrom src new).length else 0) ≤
      (r.network.queue src dest other).length +
        if src = own ∧ other = tag then (messagesTo dest new).length else 0 := by
  cases h with
  | ended outcome =>
    show ((r.network.retire own tag).queue src dest other).length + _ ≤ _
    rw [Mesh.queue_retire]
    split <;> simp
  | crashed | reported | unanswered => simp
  | @refused target data next cause =>
    have hquiet : Event.IsQuiet (.sendFailed target data) := trivial
    rw [hquiet.messagesFrom_eq, hquiet.messagesTo_eq, List.length_nil, ite_self, ite_self]
    exact Nat.le_refl _
  | @sent target data next hdest =>
    obtain ⟨tags, hg⟩ := hdest
    have hqueue : (r.network.send own target tag data).2.queue src dest other = _ :=
      Mesh.queue_send_of_gate hg src dest other
    rw [Recorded.send_of_gate hg]
    simp only [Recorded.note, hqueue]
    split
    · next hkey =>
      obtain ⟨rfl, rfl, rfl, -⟩ := hkey
      simp
    · simp
  | @received peer next data rest hown hsrc hq =>
    rw [Recorded.network_receive, Mesh.queue_receive hown hsrc]
    by_cases hkey : src = peer ∧ dest = own ∧ other = tag
    · obtain ⟨rfl, rfl, rfl⟩ := hkey
      simp [hq]
    · rw [if_neg hkey]
      by_cases hown' : dest = own ∧ other = tag
      · have hpeer : peer ≠ src := fun heq => hkey ⟨heq.symm, hown'⟩
        simp [hpeer]
      · simp [hown']
  | waiting next hown hsrc hq =>
    rw [Recorded.network_receive, Mesh.queue_receive hown hsrc]
    split
    · next hkey =>
      obtain ⟨rfl, rfl, rfl⟩ := hkey
      simp [hq]
    · simp

end StepEffect

/-! ## Which channels there are -/

/-- Under the tag the rank has no task, or one that has ended. -/
inductive Vacant : Option Status → Prop where
  | absent : Vacant none
  | finished (outcome : Except Error Bytes) : Vacant (some (.finished outcome))

/-- What holds of the channels of a mesh, whatever has happened. -/
structure Tidy (roll : Roll) (r : Recorded Mesh) : Prop where
  filled : ∀ {dest : Rank} {tag : Tag}, Vacant (roll dest tag) →
    ∀ src, r.network.channel? src dest tag ≠ some []
  dropped : ∀ {dest : Rank} {tag : Tag}, roll.GivenUp dest tag → r.network.Drops dest tag
  bounded : ∀ (src dest : Rank) (tag : Tag),
    (messagesFrom src (r.events dest tag)).length + (r.network.queue src dest tag).length ≤
      (messagesTo dest (r.events src tag)).length

namespace Tidy

variable {assigned : Rank → Tag → Program Bytes → Prop} {size : Nat} {roll : Roll}
  {r r' : Recorded Mesh} {own : Rank} {tag : Tag} {p : Program Bytes} {s : Status}
  {new : List Event}

theorem begun (size : Nat) : Tidy (fun _ _ => none) { network := .ofSize size } := by
  refine ⟨?_, ?_, ?_⟩
  · intro dest tag _ src hchannel
    have hbox : (Mesh.ofSize size).channel? src dest tag = none := by
      unfold Mesh.channel? Mesh.mailbox? Mesh.ofSize
      rw [List.getElem?_replicate]
      split <;> rfl
    rw [hbox] at hchannel
    cases hchannel
  · rintro dest tag ⟨s, hs, -⟩
    cases hs
  · intro src dest tag
    show 0 + ((Mesh.ofSize size).queue src dest tag).length ≤ 0
    rw [Mesh.queue_ofSize]
    exact Nat.le_refl 0

/-- Another task on the roll is as vacant, or as given up, as it was. -/
theorem entered (h : Tidy roll r) (hvacant : ¬Vacant (some s))
    (hup : s.IsGivenUp → roll.GivenUp own tag) : Tidy (roll.set own tag s) r := by
  refine ⟨?_, ?_, h.bounded⟩
  · intro dest other hdest
    refine h.filled ?_
    by_cases hkey : dest = own ∧ other = tag
    · obtain ⟨rfl, rfl⟩ := hkey
      rw [Roll.set_self] at hdest
      exact absurd hdest hvacant
    · rwa [Roll.set_of_ne _ hkey] at hdest
  · intro dest other hdest
    refine h.dropped ?_
    by_cases hkey : dest = own ∧ other = tag
    · obtain ⟨rfl, rfl⟩ := hkey
      exact hup ((Roll.givenUp_iff (Roll.set_self _)).1 hdest)
    · rwa [Roll.GivenUp, Roll.set_of_ne _ hkey] at hdest

/-- Where all that was sent was received, nothing waits. -/
theorem queue_eq_nil (h : Tidy roll r) {src dest : Rank}
    (hall : messagesTo dest (r.events src tag) = messagesFrom src (r.events dest tag)) :
    r.network.queue src dest tag = [] := by
  have hbounded := h.bounded src dest tag
  rw [hall] at hbounded
  exact List.eq_nil_of_length_eq_zero (by omega)

theorem acted (h : Tidy roll r) (heffect : StepEffect r own tag p new s r') :
    Tidy (roll.set own tag s) r' := by
  refine ⟨?_, ?_, ?_⟩
  · intro dest other hdest src
    by_cases hkey : dest = own ∧ other = tag
    · obtain ⟨rfl, rfl⟩ := hkey
      rw [Roll.set_self] at hdest
      cases hdest with
      | finished outcome =>
        rw [heffect.channel?_of_finished]
        exact nofun
    · rw [Roll.set_of_ne _ hkey] at hdest
      rcases heffect.channel?_of_ne hkey with heq | ⟨-, data, heq⟩
      · rw [heq]
        exact h.filled hdest src
      · rw [heq]
        simp
  · intro dest other hdest
    by_cases hkey : dest = own ∧ other = tag
    · obtain ⟨rfl, rfl⟩ := hkey
      exact absurd ((Roll.givenUp_iff (Roll.set_self _)).1 hdest) heffect.not_givenUp
    · rw [Roll.GivenUp, Roll.set_of_ne _ hkey] at hdest
      exact heffect.drops (h.dropped hdest) hkey
  · intro src dest other
    have hbefore := h.bounded src dest other
    have hqueue := heffect.length_queue_le src dest other
    have hfrom : (messagesFrom src (r'.events dest other)).length =
        (messagesFrom src (r.events dest other)).length +
          if dest = own ∧ other = tag then (messagesFrom src new).length else 0 := by
      rw [heffect.events_eq]
      split <;> simp
    have hto : (messagesTo dest (r'.events src other)).length =
        (messagesTo dest (r.events src other)).length +
          if src = own ∧ other = tag then (messagesTo dest new).length else 0 := by
      rw [heffect.events_eq]
      split <;> simp
    omega

theorem abandoned (h : Tidy roll r) (own : Rank) (tag : Tag) :
    Tidy (roll.set own tag .aborting) (Transport.abandon r own tag) := by
  have hquiet : Event.IsQuiet .abandoned := trivial
  refine ⟨?_, ?_, ?_⟩
  · intro dest other hdest src
    have hkey : ¬(dest = own ∧ other = tag) := by
      rintro ⟨rfl, rfl⟩
      rw [Roll.set_self] at hdest
      cases hdest
    rw [Roll.set_of_ne _ hkey] at hdest
    show (r.network.abandon own tag).channel? src dest other ≠ some []
    rw [Mesh.channel?_abandon, Mesh.channel?_retire, if_neg hkey]
    exact h.filled hdest src
  · intro dest other hdest
    by_cases hkey : dest = own ∧ other = tag
    · obtain ⟨rfl, rfl⟩ := hkey
      exact .of_abandon r.network dest other
    · rw [Roll.GivenUp, Roll.set_of_ne _ hkey] at hdest
      exact (h.dropped hdest).abandon own tag
  · intro src dest other
    have hle : ((r.network.abandon own tag).queue src dest other).length ≤
        (r.network.queue src dest other).length := by
      rw [Mesh.queue_abandon, Mesh.queue_retire]
      split <;> simp
    show (messagesFrom src ((r.note _ own tag .abandoned).events dest other)).length +
      ((r.network.abandon own tag).queue src dest other).length ≤
        (messagesTo dest ((r.note _ own tag .abandoned).events src other)).length
    rw [Recorded.messagesFrom_note, Recorded.messagesTo_note, hquiet.messagesFrom_eq,
      hquiet.messagesTo_eq, ite_self, ite_self, List.append_nil, List.append_nil]
    exact Nat.le_trans (Nat.add_le_add_left hle _) (h.bounded src dest other)

theorem closed (h : Tidy roll r) (own : Rank) : Tidy roll (Transport.close r own) := by
  refine ⟨?_, fun hdest => (h.dropped hdest).close own, ?_⟩
  · intro dest other hdest src
    show (r.network.close own).channel? src dest other ≠ some []
    rw [Mesh.channel?_close]
    exact h.filled hdest src
  · intro src dest other
    show (messagesFrom src (r.events dest other)).length +
      ((r.network.close own).queue src dest other).length ≤ _
    rw [Mesh.queue_close]
    exact h.bounded src dest other

/-- A rank without a task under way has no channel for a tag when it has received all that was
sent to it. -/
theorem no_channel (h : Tidy roll r) {src dest : Rank} (hdest : Vacant (roll dest tag))
    (hall : messagesTo dest (r.events src tag) = messagesFrom src (r.events dest tag)) :
    r.network.channel? src dest tag = none := by
  have hempty := h.queue_eq_nil hall
  rw [Mesh.queue_eq_channel?] at hempty
  rcases hchannel : r.network.channel? src dest tag with _ | queued
  · rfl
  · rw [hchannel] at hempty
    obtain rfl : queued = [] := hempty
    exact absurd hchannel (h.filled hdest src)

end Tidy

/-- Whatever happens, the channels stay tidy. -/
theorem TrackedRun.tidy {assigned : Rank → Tag → Program Bytes → Prop} {size : Nat} {roll : Roll}
    {r : Recorded Mesh} (h : TrackedRun assigned size roll r) : Tidy roll r := by
  induction h with
  | begun => exact .begun size
  | started _ _ _ ih => exact ih.entered nofun False.elim
  | acted _ _ heffect ih => exact ih.acted heffect
  | abandoned _ _ ih => exact ih.abandoned _ _
  | vanished _ hp ih => exact ih.entered nofun fun _ => ⟨_, hp, trivial⟩
  | closed _ own ih => exact ih.closed own

end Collectives
