import Collectives.Transport.Mesh

/-!
# Transports

What a program needs of the world around it: to send, to receive, and to give up what is
kept for a tag. A transport answers a send at once; a receive it may leave unanswered,
to be asked again later. The in-process mesh is the main instance; `Recorded` keeps a
log of the traffic of any other.
-/

namespace Collectives

/-- Something that happened at an endpoint. -/
inductive Event where
  | sent (dest : Rank) (data : Bytes)
  | sendFailed (dest : Rank) (data : Bytes)
  | received (src : Rank) (data : Bytes)
  | retired
  | abandoned
  deriving DecidableEq, Repr

/-- A state of the world in which ranks exchange messages. -/
class Transport (σ : Type) where
  /-- Sends a message from one rank to another. -/
  send : σ → Rank → Rank → Tag → Bytes → Except Error Unit × σ
  /-- Receives at one rank the next message from another; there may be no answer yet. -/
  receive : σ → Rank → Rank → Tag → Option (Except Error Bytes) × σ
  /-- Gives up what a rank keeps for a tag. -/
  retire : σ → Rank → Tag → σ
  /-- Gives up what a rank keeps for a tag while others may still send under it. -/
  abandon : σ → Rank → Tag → σ
  /-- Closes the endpoint of a rank. -/
  close : σ → Rank → σ
  /-- What abandoning a tag looks like at the endpoint: where late messages are not told
  apart, it is retiring it. -/
  abandonEvent : σ → Event := fun _ => .abandoned

instance : Transport Mesh where
  send := Mesh.send
  receive := Mesh.receive
  retire := Mesh.retire
  abandon := Mesh.abandon
  close := Mesh.close

/-- An event with the rank where and the tag under which it happened. -/
structure LogEntry where
  rank : Rank
  tag : Tag
  event : Event
  deriving DecidableEq, Repr

/-- A transport with a log of its traffic. -/
structure Recorded (σ : Type) where
  network : σ
  /-- What happened, latest first. -/
  log : List LogEntry := []

namespace Recorded

variable {σ : Type}

/-- Adds an entry to the log. -/
def note (r : Recorded σ) (network : σ) (rank : Rank) (tag : Tag) (event : Event) :
    Recorded σ :=
  ⟨network, ⟨rank, tag, event⟩ :: r.log⟩

/-- The events at a rank under a tag, earliest first. -/
def events (r : Recorded σ) (rank : Rank) (tag : Tag) : List Event :=
  r.log.reverse.filterMap fun e => if e.rank = rank ∧ e.tag = tag then some e.event else none

/-- The tags under which something happened at a rank, in ascending order. -/
def tags (r : Recorded σ) (rank : Rank) : List Tag :=
  ((r.log.filter (·.rank = rank)).map (·.tag)).eraseDups.mergeSort fun s t => s ≤ t

variable [Transport σ]

instance : Transport (Recorded σ) where
  send r own dest tag data :=
    match Transport.send r.network own dest tag data with
    | (.ok (), network) => (.ok (), r.note network own tag (.sent dest data))
    | (.error e, network) => (.error e, r.note network own tag (.sendFailed dest data))
  receive r own src tag :=
    match Transport.receive r.network own src tag with
    | (some (.ok data), network) =>
      (some (.ok data), r.note network own tag (.received src data))
    | (answer, network) => (answer, { r with network })
  retire r own tag := r.note (Transport.retire r.network own tag) own tag .retired
  abandon r own tag :=
    r.note (Transport.abandon r.network own tag) own tag (Transport.abandonEvent r.network)
  close r own := { r with network := Transport.close r.network own }

end Recorded

end Collectives
