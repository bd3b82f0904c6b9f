import Collectives.Transport.Mailbox

/-!
# The in-process mesh

A mailbox for each rank, and every rank can send to every other and to itself. A send
is refused when there is no such rank, and when its mailbox was closed; otherwise it is
done at once. A receive that finds no message has no answer yet.

## What a mesh means

`queue src dest tag` is the list of messages on their way from one rank to another
under a tag, oldest first. A send that is let in and not dropped adds to the end of one
queue (`queue_send`), a receive takes from the front of one (`queue_receive`), and
giving up a tag empties the queues of that tag at one rank (`queue_retire`). No
operation touches a queue of another source, destination or tag.
-/

namespace Collectives

/-- The mailboxes of all ranks. -/
structure Mesh where
  mailboxes : List Mailbox

namespace Mesh

/-- The mesh of `size` ranks, all open and without messages. -/
def ofSize (size : Nat) : Mesh := ⟨List.replicate size {}⟩

/-- The number of ranks. -/
def size (mesh : Mesh) : Nat := mesh.mailboxes.length

/-- The mailbox of a rank. -/
def mailbox? (mesh : Mesh) (rank : Rank) : Option Mailbox := mesh.mailboxes[rank.toNat]?

/-- Changes the mailbox of a rank. -/
def update (mesh : Mesh) (rank : Rank) (f : Mailbox → Mailbox) : Mesh :=
  ⟨mesh.mailboxes.modify rank.toNat f⟩

/-- The messages on their way from one rank to another under a tag, oldest first. -/
def queue (mesh : Mesh) (src dest : Rank) (tag : Tag) : List Bytes :=
  match mesh.mailbox? dest with
  | some box => box.queue (src, tag)
  | none => []

/-- The complaint that there is no such rank. -/
def noRank (mesh : Mesh) (rank : Rank) : Error :=
  .invalidRank rank (UInt32.ofNat mesh.size)

/-- Sends a message from one rank to another. -/
def send (mesh : Mesh) (own dest : Rank) (tag : Tag) (data : Bytes) :
    Except Error Unit × Mesh :=
  match mesh.mailbox? dest with
  | none => (.error (mesh.noRank dest), mesh)
  | some box =>
    if box.isOpen then (.ok (), mesh.update dest (·.accept (own, tag) data))
    else (.error (.peerDisconnected dest), mesh)

/-- Takes the oldest message from a source under a tag, if one is there. -/
def receive (mesh : Mesh) (own src : Rank) (tag : Tag) :
    Option (Except Error Bytes) × Mesh :=
  match mesh.mailbox? src, mesh.mailbox? own with
  | none, _ => (some (.error (mesh.noRank src)), mesh)
  | _, none => (some (.error (mesh.noRank own)), mesh)
  | some _, some box =>
    let (message, box) := box.take (src, tag)
    (message.map .ok, mesh.update own fun _ => box)

/-- Gives up what a rank keeps for a tag. -/
def retire (mesh : Mesh) (own : Rank) (tag : Tag) : Mesh :=
  mesh.update own (·.retire tag)

/-- Gives up what a rank keeps for a tag, now and from now on. -/
def abandon (mesh : Mesh) (own : Rank) (tag : Tag) : Mesh :=
  mesh.update own (·.abandon tag)

/-- Closes the mailbox of a rank. -/
def close (mesh : Mesh) (own : Rank) : Mesh := mesh.update own (·.close)

@[simp] theorem size_update (mesh : Mesh) (rank : Rank) (f : Mailbox → Mailbox) :
    (mesh.update rank f).size = mesh.size := by
  simp [size, update]

theorem mailbox?_update (mesh : Mesh) (rank other : Rank) (f : Mailbox → Mailbox) :
    (mesh.update rank f).mailbox? other =
      if rank = other then (mesh.mailbox? other).map f else mesh.mailbox? other := by
  simp only [mailbox?, update, List.getElem?_modify, ← UInt32.toNat_inj]
  split <;> simp

@[simp] theorem size_ofSize (size : Nat) : (ofSize size).size = size := by
  simp [Mesh.size, ofSize]

@[simp] theorem queue_ofSize (size : Nat) (src dest : Rank) (tag : Tag) :
    (ofSize size).queue src dest tag = [] := by
  simp only [queue, mailbox?, ofSize, List.getElem?_replicate]
  split
  next box h =>
    split at h
    · cases h
      rfl
    · cases h
  · rfl

theorem queue_update (mesh : Mesh) (rank src dest : Rank) (tag : Tag) (f : Mailbox → Mailbox) :
    (mesh.update rank f).queue src dest tag =
      match mesh.mailbox? dest with
      | some box => if rank = dest then (f box).queue (src, tag) else box.queue (src, tag)
      | none => [] := by
  simp only [queue, mailbox?_update]
  by_cases h : rank = dest
  · cases mesh.mailbox? dest <;> simp [h]
  · simp [h]

/-- A message that is let in goes to the end of one queue and no other. -/
theorem queue_send {mesh : Mesh} {own dest : Rank} {tag : Tag} {data : Bytes} {box : Mailbox}
    (hbox : mesh.mailbox? dest = some box) (hopen : box.isOpen = true)
    (htag : tag ∉ box.abandoned) (src target : Rank) (other : Tag) :
    (mesh.send own dest tag data).2.queue src target other =
      if src = own ∧ target = dest ∧ other = tag then mesh.queue own dest tag ++ [data]
      else mesh.queue src target other := by
  simp only [send, hbox, hopen, if_true, queue_update]
  by_cases h : dest = target
  · subst h
    have := box.queue_accept (own, tag) (src, other) data htag
    simp [hbox, queue, this]
  · have h' : target ≠ dest := fun e => h e.symm
    cases hto : mesh.mailbox? target <;> simp [queue, h, h', hto]

/-- A receive is answered by the oldest message of one queue, which it takes out. -/
theorem receive_fst {mesh : Mesh} {own src : Rank} (tag : Tag)
    (hown : own.toNat < mesh.size) (hsrc : src.toNat < mesh.size) :
    (mesh.receive own src tag).1 = ((mesh.queue src own tag).head?).map .ok := by
  simp [receive, mailbox?, queue, List.getElem?_eq_getElem (l := mesh.mailboxes) hown,
    List.getElem?_eq_getElem (l := mesh.mailboxes) hsrc]

theorem queue_receive {mesh : Mesh} {own src : Rank} {tag : Tag}
    (hown : own.toNat < mesh.size) (hsrc : src.toNat < mesh.size) (peer target : Rank)
    (other : Tag) :
    (mesh.receive own src tag).2.queue peer target other =
      if peer = src ∧ target = own ∧ other = tag then (mesh.queue src own tag).tail
      else mesh.queue peer target other := by
  obtain ⟨box, hbox⟩ : ∃ box, mesh.mailbox? own = some box :=
    ⟨_, List.getElem?_eq_getElem hown⟩
  obtain ⟨box', hbox'⟩ : ∃ box, mesh.mailbox? src = some box :=
    ⟨_, List.getElem?_eq_getElem hsrc⟩
  simp only [receive, hbox, hbox', queue_update]
  by_cases h : own = target
  · subst h
    have := box.queue_take (src, tag) (peer, other)
    simp [hbox, queue, this]
  · have h' : target ≠ own := fun e => h e.symm
    cases hto : mesh.mailbox? target <;> simp [queue, h, h', hto]

/-- Giving up a tag empties the queues of that tag at one rank. -/
theorem queue_retire (mesh : Mesh) (own src dest : Rank) (tag other : Tag) :
    (mesh.retire own tag).queue src dest other =
      if dest = own ∧ other = tag then [] else mesh.queue src dest other := by
  simp only [retire, queue_update]
  by_cases h : own = dest
  · subst h
    cases hbox : mesh.mailbox? own <;> simp [queue, hbox, Mailbox.queue_retire]
  · have h' : dest ≠ own := fun e => h e.symm
    cases hbox : mesh.mailbox? dest <;> simp [queue, h, h', hbox]

/-- Abandoning a tag does to the queues what retiring it does. -/
theorem queue_abandon (mesh : Mesh) (own src dest : Rank) (tag other : Tag) :
    (mesh.abandon own tag).queue src dest other = (mesh.retire own tag).queue src dest other := by
  simp [abandon, retire, queue_update]

/-- What was delivered to a mailbox before it was closed stays there. -/
@[simp] theorem queue_close (mesh : Mesh) (own src dest : Rank) (tag : Tag) :
    (mesh.close own).queue src dest tag = mesh.queue src dest tag := by
  simp only [close, queue_update, Mailbox.queue_close, ite_self]
  rfl

end Mesh

end Collectives
