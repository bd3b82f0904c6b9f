import Collectives.Proofs.History
import Collectives.Proofs.Schedule

/-!
# Conservation of messages

On a recorded mesh the queue between two ranks under a tag holds exactly what the one has
sent to the other and the other has not received yet: `Recorded.Conserved`.  This is kept
by every send and every receive, and by retiring any other tag or rank.

Whatever else happens, a message goes to the end of one queue and comes from the front of one.
What decides whether it is let in and kept is the gate of the mailbox: whether the mailbox is
open, and which tags it drops.
-/

namespace Collectives

/-! ## What lets messages into a mailbox -/

namespace Mesh

/-- Whether the mailbox of a rank lets messages in, and the tags whose messages it drops. -/
def gate (mesh : Mesh) (rank : Rank) : Option (Bool × List Tag) :=
  (mesh.mailbox? rank).map fun box => (box.isOpen, box.abandoned)

theorem gate_update {mesh : Mesh} {rank : Rank} {f : Mailbox → Mailbox}
    (hf : ∀ box, mesh.mailbox? rank = some box →
      (f box).isOpen = box.isOpen ∧ (f box).abandoned = box.abandoned) :
    (mesh.update rank f).gate = mesh.gate := by
  funext other
  rw [gate, gate, mailbox?_update]
  by_cases h : rank = other
  · subst h
    cases hbox : mesh.mailbox? rank with
    | none => simp
    | some box => simp [hf box hbox]
  · rw [if_neg h]

theorem gate_send (mesh : Mesh) (own dest : Rank) (tag : Tag) (data : Bytes) :
    (mesh.send own dest tag data).2.gate = mesh.gate := by
  unfold send
  cases mesh.mailbox? dest with
  | none => rfl
  | some box =>
    simp only
    split
    · refine gate_update ?_
      intro box _
      unfold Mailbox.accept
      split <;> exact ⟨rfl, rfl⟩
    · rfl

theorem gate_receive (mesh : Mesh) (own src : Rank) (tag : Tag) :
    (mesh.receive own src tag).2.gate = mesh.gate := by
  unfold receive
  cases mesh.mailbox? src with
  | none => rfl
  | some from? =>
    cases hbox : mesh.mailbox? own with
    | none => rfl
    | some box =>
      refine gate_update ?_
      intro box' hbox'
      rw [hbox, Option.some_inj] at hbox'
      rw [← hbox']
      exact ⟨rfl, rfl⟩

theorem gate_retire (mesh : Mesh) (own : Rank) (tag : Tag) :
    (mesh.retire own tag).gate = mesh.gate :=
  gate_update fun _ _ => ⟨rfl, rfl⟩

theorem gate_ofSize {size : Nat} {rank : Rank} (h : rank.toNat < size) :
    (ofSize size).gate rank = some (true, []) := by
  simp [gate, mailbox?, ofSize, h]

/-- There is a mailbox for each rank below the size, and for no other. -/
theorem lt_size_of_gate {mesh : Mesh} {rank : Rank} {g : Bool × List Tag}
    (h : mesh.gate rank = some g) : rank.toNat < mesh.size := by
  refine Nat.lt_of_not_le ?_
  intro hle
  have hnone : mesh.mailbox? rank = none := List.getElem?_eq_none hle
  rw [gate, hnone] at h
  cases h

/-- Messages to the rank are let in. -/
def Open (mesh : Mesh) (rank : Rank) : Prop := ∃ tags, mesh.gate rank = some (true, tags)

/-- Messages to the rank under the tag are let in and kept. -/
def Accepts (mesh : Mesh) (rank : Rank) (tag : Tag) : Prop :=
  ∃ tags, mesh.gate rank = some (true, tags) ∧ tag ∉ tags

theorem Open.lt_size {mesh : Mesh} {rank : Rank} (h : mesh.Open rank) :
    rank.toNat < mesh.size := by
  obtain ⟨tags, h⟩ := h
  exact lt_size_of_gate h

theorem Accepts.open {mesh : Mesh} {rank : Rank} {tag : Tag} (h : mesh.Accepts rank tag) :
    mesh.Open rank := by
  obtain ⟨tags, h, _⟩ := h
  exact ⟨tags, h⟩

/-- What is let in under the tag at the rank is kept, also where nothing is let in any more. -/
def Keeps (mesh : Mesh) (rank : Rank) (tag : Tag) : Prop :=
  ∀ g, mesh.gate rank = some g → tag ∉ g.2

theorem Accepts.keeps {mesh : Mesh} {rank : Rank} {tag : Tag} (h : mesh.Accepts rank tag) :
    mesh.Keeps rank tag := by
  obtain ⟨tags, h, htag⟩ := h
  intro g hg
  rw [h, Option.some_inj] at hg
  rwa [← hg]

theorem Keeps.abandon {mesh : Mesh} {own rank : Rank} {tag other : Tag}
    (h : mesh.Keeps rank other) (hne : ¬(rank = own ∧ other = tag)) :
    (mesh.abandon own tag).Keeps rank other := by
  intro g hg
  rw [gate, Mesh.abandon, mailbox?_update] at hg
  by_cases hown : own = rank
  · subst hown
    rw [if_pos rfl, Option.map_map] at hg
    obtain ⟨box, hbox, rfl⟩ := Option.map_eq_some_iff.1 hg
    have hother : other ∉ box.abandoned := h (box.isOpen, box.abandoned) (by rw [gate, hbox]; rfl)
    show other ∉ tag :: box.abandoned
    rw [List.mem_cons]
    rintro (rfl | hmem)
    · exact hne ⟨rfl, rfl⟩
    · exact hother hmem
  · rw [if_neg hown] at hg
    exact h g hg

theorem Keeps.close {mesh : Mesh} {rank : Rank} {tag : Tag} (h : mesh.Keeps rank tag)
    (own : Rank) : (mesh.close own).Keeps rank tag := by
  intro g hg
  rw [gate, Mesh.close, mailbox?_update] at hg
  by_cases hown : own = rank
  · rw [if_pos hown, Option.map_map] at hg
    obtain ⟨box, hbox, rfl⟩ := Option.map_eq_some_iff.1 hg
    exact h (box.isOpen, box.abandoned) (by rw [gate, hbox]; rfl)
  · rw [if_neg hown] at hg
    exact h g hg

theorem keeps_ofSize (size : Nat) (rank : Rank) (tag : Tag) : (ofSize size).Keeps rank tag := by
  intro g hg
  rw [gate, mailbox?, ofSize, List.getElem?_replicate] at hg
  split at hg
  · cases hg
    exact List.not_mem_nil
  · cases hg

/-- A send to a mailbox that is open is let in. -/
theorem send_fst_of_gate {mesh : Mesh} {dest : Rank} (own : Rank) (tag : Tag) (data : Bytes)
    {tags : List Tag} (h : mesh.gate dest = some (true, tags)) :
    (mesh.send own dest tag data).1 = .ok () := by
  obtain ⟨box, hbox, hg⟩ := Option.map_eq_some_iff.1 h
  rw [Prod.mk.injEq] at hg
  simp [send, hbox, hg.1]

/-- A send is let in by an open mailbox, or it is refused and nothing has happened. -/
theorem open_or_refused (mesh : Mesh) (own dest : Rank) (tag : Tag) (data : Bytes) :
    mesh.Open dest ∨ ∃ cause, mesh.send own dest tag data = (.error cause, mesh) := by
  unfold send
  cases hbox : mesh.mailbox? dest with
  | none => exact .inr ⟨_, rfl⟩
  | some box =>
    cases hopen : box.isOpen with
    | true => exact .inl ⟨box.abandoned, by rw [gate, hbox, Option.map_some, hopen]⟩
    | false => exact .inr ⟨_, if_neg (Bool.eq_false_iff.1 hopen)⟩

/-- A receive by a rank from a rank of which one does not exist is answered with an error. -/
theorem receive_of_no_rank {mesh : Mesh} {own src : Rank} (tag : Tag)
    (h : ¬(own.toNat < mesh.size ∧ src.toNat < mesh.size)) :
    ∃ cause, mesh.receive own src tag = (some (.error cause), mesh) := by
  unfold receive
  cases hsrc : mesh.mailbox? src with
  | none => exact ⟨_, rfl⟩
  | some box =>
    cases hown : mesh.mailbox? own with
    | none => exact ⟨_, rfl⟩
    | some box' =>
      exact absurd ⟨(List.getElem?_eq_some_iff.1 hown).1, (List.getElem?_eq_some_iff.1 hsrc).1⟩ h

/-- A message goes to the end of one queue, unless its tag is dropped there. -/
theorem queue_send_of_gate {mesh : Mesh} {own dest : Rank} {tag : Tag} {data : Bytes}
    {tags : List Tag} (h : mesh.gate dest = some (true, tags)) (src target : Rank)
    (other : Tag) :
    (mesh.send own dest tag data).2.queue src target other =
      if src = own ∧ target = dest ∧ other = tag ∧ tag ∉ tags then
        mesh.queue own dest tag ++ [data]
      else mesh.queue src target other := by
  obtain ⟨box, hbox, hg⟩ := Option.map_eq_some_iff.1 h
  rw [Prod.mk.injEq] at hg
  obtain ⟨hopen, rfl⟩ := hg
  by_cases htag : tag ∈ box.abandoned
  · have hsame : (mesh.send own dest tag data).2.queue src target other =
        mesh.queue src target other := by
      simp only [send, hbox, hopen, if_true, queue_update]
      cases hto : mesh.mailbox? target with
      | none => simp [queue, hto]
      | some box' =>
        by_cases hd : dest = target
        · subst hd
          rw [hbox, Option.some_inj] at hto
          subst hto
          have haccept : box.accept (own, tag) data = box := Mailbox.accept_abandoned htag data
          simp [queue, hbox, haccept]
        · simp [queue, hto, hd]
    rw [hsame, if_neg fun hc => hc.2.2.2 htag]
  · rw [queue_send hbox hopen htag]
    simp only [htag, not_false_eq_true, and_true]

end Mesh

/-! ## Recorded meshes -/

namespace Recorded

theorem events_note {σ : Type} (r : Recorded σ) (network : σ) (own rank : Rank)
    (tag other : Tag) (event : Event) :
    (r.note network own tag event).events rank other =
      if rank = own ∧ other = tag then r.events rank other ++ [event]
      else r.events rank other := by
  simp only [events, note, List.reverse_cons, List.filterMap_append]
  by_cases h : own = rank ∧ tag = other
  · obtain ⟨rfl, rfl⟩ := h
    simp
  · rw [if_neg fun hc => h ⟨hc.1.symm, hc.2.symm⟩]
    simp [h]

/-- The queue between two ranks holds what was sent and not yet received. -/
def Conserved (r : Recorded Mesh) (src dest : Rank) (tag : Tag) : Prop :=
  messagesTo dest (r.events src tag) =
    messagesFrom src (r.events dest tag) ++ r.network.queue src dest tag

variable {r : Recorded Mesh} {own : Rank} {tag : Tag}

theorem send_of_gate {dest : Rank} {tags : List Tag}
    (h : r.network.gate dest = some (true, tags)) (data : Bytes) :
    Transport.send r own dest tag data =
      (.ok (), r.note (r.network.send own dest tag data).2 own tag (.sent dest data)) := by
  have hok := Mesh.send_fst_of_gate own tag data h
  simp only [Transport.send]
  rcases hs : r.network.send own dest tag data with ⟨answer, network⟩
  rw [hs] at hok
  subst hok
  rfl

theorem receive_of_queue_cons {src : Rank} {data : Bytes} {rest : List Bytes}
    (hown : own.toNat < r.network.size) (hsrc : src.toNat < r.network.size)
    (hq : r.network.queue src own tag = data :: rest) :
    Transport.receive r own src tag =
      (some (.ok data),
        r.note (r.network.receive own src tag).2 own tag (.received src data)) := by
  have hfst := Mesh.receive_fst tag hown hsrc
  rw [hq] at hfst
  simp only [Transport.receive]
  rcases hr : r.network.receive own src tag with ⟨answer, network⟩
  rw [hr] at hfst
  subst hfst
  rfl

theorem receive_of_queue_nil {src : Rank} (hown : own.toNat < r.network.size)
    (hsrc : src.toNat < r.network.size) (hq : r.network.queue src own tag = []) :
    Transport.receive r own src tag =
      (none, { r with network := (r.network.receive own src tag).2 }) := by
  have hfst := Mesh.receive_fst tag hown hsrc
  rw [hq] at hfst
  simp only [Transport.receive]
  rcases hr : r.network.receive own src tag with ⟨answer, network⟩
  rw [hr] at hfst
  subst hfst
  rfl

theorem messagesTo_note (network : Mesh) (event : Event) (dest rank : Rank) (other : Tag) :
    messagesTo dest ((r.note network own tag event).events rank other) =
      messagesTo dest (r.events rank other) ++
        if rank = own ∧ other = tag then messagesTo dest [event] else [] := by
  rw [events_note]
  split <;> simp

theorem messagesFrom_note (network : Mesh) (event : Event) (src rank : Rank) (other : Tag) :
    messagesFrom src ((r.note network own tag event).events rank other) =
      messagesFrom src (r.events rank other) ++
        if rank = own ∧ other = tag then messagesFrom src [event] else [] := by
  rw [events_note]
  split <;> simp

namespace Conserved

variable {src target : Rank} {other : Tag}

theorem send {dest : Rank} (hc : r.Conserved src target other) (hdest : r.network.Open dest)
    (hto : r.network.Keeps target other) (data : Bytes) :
    (Transport.send r own dest tag data).2.Conserved src target other := by
  obtain ⟨tags, hg⟩ := hdest
  rw [send_of_gate hg]
  unfold Conserved at hc ⊢
  rw [messagesTo_note, messagesFrom_note, hc, note, Mesh.queue_send_of_gate hg]
  by_cases hown : src = own ∧ other = tag
  · obtain ⟨rfl, rfl⟩ := hown
    by_cases hd : dest = target
    · subst hd
      have hother : other ∉ tags := hto _ hg
      simp [hother]
    · have hd' : target ≠ dest := fun h => hd h.symm
      simp [hd, hd']
  · have hq : ¬(src = own ∧ target = dest ∧ other = tag ∧ tag ∉ tags) :=
      fun h => hown ⟨h.1, h.2.2.1⟩
    simp [hown, hq]

theorem receive {peer : Rank} {data : Bytes} {rest : List Bytes}
    (hc : r.Conserved src target other) (hown : own.toNat < r.network.size)
    (hpeer : peer.toNat < r.network.size) (hq : r.network.queue peer own tag = data :: rest) :
    (Transport.receive r own peer tag).2.Conserved src target other := by
  rw [receive_of_queue_cons hown hpeer hq]
  unfold Conserved at hc ⊢
  rw [messagesTo_note, messagesFrom_note, hc, note, Mesh.queue_receive hown hpeer]
  by_cases htarget : target = own ∧ other = tag
  · obtain ⟨rfl, rfl⟩ := htarget
    by_cases hs : peer = src
    · subst hs
      simp [hq]
    · have hs' : src ≠ peer := fun h => hs h.symm
      simp [hs, hs']
  · simp [htarget]

/-- Asking in vain for a message changes no queue. -/
theorem ask {peer : Rank} (hc : r.Conserved src target other)
    (hown : own.toNat < r.network.size) (hpeer : peer.toNat < r.network.size)
    (hq : r.network.queue peer own tag = []) :
    (Transport.receive r own peer tag).2.Conserved src target other := by
  rw [receive_of_queue_nil hown hpeer hq]
  have hsame : (r.network.receive own peer tag).2.queue src target other =
      r.network.queue src target other := by
    rw [Mesh.queue_receive hown hpeer]
    split
    · next h =>
      obtain ⟨rfl, rfl, rfl⟩ := h
      rw [hq]
      rfl
    · rfl
  exact hc.trans (by rw [hsame]; rfl)

/-- An event that is no message changes nothing, if it leaves the queue as it was. -/
theorem note_quiet {event : Event} {network : Mesh} (hc : r.Conserved src target other)
    (hquiet : event.IsQuiet)
    (hqueue : network.queue src target other = r.network.queue src target other) :
    (r.note network own tag event).Conserved src target other := by
  unfold Conserved at hc ⊢
  rw [messagesTo_note, messagesFrom_note, hc, hquiet.messagesTo_eq, hquiet.messagesFrom_eq,
    ite_self, ite_self, List.append_nil, List.append_nil]
  exact congrArg _ hqueue.symm

theorem retire (hc : r.Conserved src target other) (hk : ¬(target = own ∧ other = tag)) :
    (Transport.retire r own tag).Conserved src target other :=
  hc.note_quiet trivial ((Mesh.queue_retire ..).trans (if_neg hk))

theorem abandon (hc : r.Conserved src target other) (hk : ¬(target = own ∧ other = tag)) :
    (Transport.abandon r own tag).Conserved src target other :=
  hc.note_quiet trivial ((Mesh.queue_abandon ..).trans ((Mesh.queue_retire ..).trans (if_neg hk)))

theorem close (hc : r.Conserved src target other) (own : Rank) :
    (Transport.close r own).Conserved src target other :=
  hc.trans (congrArg _ (Mesh.queue_close r.network own src target other).symm)

end Conserved

end Recorded

end Collectives
