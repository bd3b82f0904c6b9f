import Collectives.Exchange
import Collectives.Table

/-!
# Mailboxes

The incoming side of one rank: one first-in first-out channel for each source and tag.
A channel comes into being when it is first touched, by a message or by a receiver, and
stays until its tag is retired or abandoned. Messages under an abandoned tag are
accepted and dropped. `queue` is what a mailbox means: the messages that wait under a
key, oldest first.
-/

namespace Collectives

/-- What tells the channels of a mailbox apart: source and tag. -/
abbrev ChannelKey := Rank × Tag

/-- The incoming side of one rank. -/
structure Mailbox where
  /-- Whether messages can still be delivered here. -/
  isOpen : Bool := true
  /-- The channels that exist, with their waiting messages, oldest first. -/
  channels : Table ChannelKey (List Bytes) := .empty
  /-- The tags whose messages are dropped. -/
  abandoned : List Tag := []

namespace Mailbox

/-- The messages that wait under a key, oldest first. -/
def queue (box : Mailbox) (key : ChannelKey) : List Bytes :=
  (box.channels.get? key).getD []

/-- Takes in a message, or drops it when its tag was abandoned. -/
def accept (box : Mailbox) (key : ChannelKey) (data : Bytes) : Mailbox :=
  if key.2 ∈ box.abandoned then box
  else { box with channels := box.channels.insert key (box.queue key ++ [data]) }

/-- Takes out the oldest message under a key. The channel exists afterwards. -/
def take (box : Mailbox) (key : ChannelKey) : Option Bytes × Mailbox :=
  let queue := box.queue key
  (queue.head?, { box with channels := box.channels.insert key queue.tail })

/-- Removes the channels of a tag, with what waits in them. -/
def retire (box : Mailbox) (tag : Tag) : Mailbox :=
  { box with channels := box.channels.filterKeys (·.2 ≠ tag) }

/-- Removes the channels of a tag and drops its messages from now on. -/
def abandon (box : Mailbox) (tag : Tag) : Mailbox :=
  { box.retire tag with abandoned := tag :: box.abandoned }

/-- Lets no further message in. What was delivered stays. -/
def close (box : Mailbox) : Mailbox := { box with isOpen := false }

theorem queue_accept (box : Mailbox) (key other : ChannelKey) (data : Bytes)
    (h : key.2 ∉ box.abandoned) :
    (box.accept key data).queue other =
      if other = key then box.queue key ++ [data] else box.queue other := by
  by_cases hk : other = key <;> simp [accept, h, queue, Table.get?_insert, hk]

theorem accept_abandoned {box : Mailbox} {key : ChannelKey} (h : key.2 ∈ box.abandoned)
    (data : Bytes) : box.accept key data = box := by
  simp [accept, h]

@[simp] theorem take_fst (box : Mailbox) (key : ChannelKey) :
    (box.take key).1 = (box.queue key).head? := rfl

theorem queue_take (box : Mailbox) (key other : ChannelKey) :
    (box.take key).2.queue other =
      if other = key then (box.queue key).tail else box.queue other := by
  by_cases hk : other = key <;> simp [take, queue, Table.get?_insert, hk]

theorem queue_retire (box : Mailbox) (tag : Tag) (key : ChannelKey) :
    (box.retire tag).queue key = if key.2 = tag then [] else box.queue key := by
  by_cases h : key.2 = tag <;> simp [retire, queue, h]

@[simp] theorem queue_abandon (box : Mailbox) (tag : Tag) (key : ChannelKey) :
    (box.abandon tag).queue key = (box.retire tag).queue key := rfl

@[simp] theorem queue_close (box : Mailbox) (key : ChannelKey) :
    box.close.queue key = box.queue key := rfl

end Mailbox

end Collectives
