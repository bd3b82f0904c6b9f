import Collectives.Transport.Mesh

/-!
# Endpoints with pending receives

The endpoints of a mesh as whoever holds them uses them directly: a receive can be left
pending while other calls go on. Receives that wait on one channel are answered in the
order in which they began. A pending receive keeps its endpoint open and keeps the
channel it began on: when the tag of that channel is given up, it still gets what was
in the channel, and with nothing left there it finds its peer gone.
-/

namespace Collectives

/-- The answer to a receive. -/
abbrev Answer := Except Error Bytes

/-- How far a pending receive has come. -/
inductive ReceiveState where
  /-- It waits on a channel of the mailbox. -/
  | waiting
  /-- Its channel was given up; this answer is what was left for it. -/
  | detached (answer : Answer)
  | answered (answer : Answer)

/-- A receive that was begun. -/
structure Receive where
  /-- The name under which the answer is asked for, until another receive takes it. -/
  name : Option String
  own : Rank
  src : Rank
  tag : Tag
  state : ReceiveState := .waiting

/-- Whether the receive still holds on to its endpoint. -/
def Receive.isPending (r : Receive) : Bool :=
  match r.state with
  | .answered _ => false
  | _ => true

/-- The endpoints of a mesh that are still held, and the receives begun at them. -/
structure Endpoints where
  mesh : Mesh
  held : List Rank
  receives : List Receive := []

namespace Endpoints

/-- All endpoints of a fresh mesh. -/
def ofSize (size : Nat) : Endpoints :=
  ⟨.ofSize size, (List.range size).map UInt32.ofNat, []⟩

/-- Whether an endpoint is still held. -/
def has (e : Endpoints) (own : Rank) : Bool := own ∈ e.held

/-- Whether a receive is pending at an endpoint. -/
def isAwaited (e : Endpoints) (own : Rank) : Bool :=
  e.receives.any fun r => r.own = own && r.isPending

/-- Closes the endpoint of a rank if nothing holds it any more. -/
def closeIdle (e : Endpoints) (own : Rank) : Endpoints :=
  if e.has own || e.isAwaited own then e else { e with mesh := e.mesh.close own }

/-- Answers one receive, if it can be answered. -/
def answer (mesh : Mesh) (r : Receive) : Receive × Mesh :=
  match r.state with
  | .answered _ => (r, mesh)
  | .detached a => ({ r with state := .answered a }, mesh)
  | .waiting =>
    match mesh.receive r.own r.src r.tag with
    | (some a, mesh) => ({ r with state := .answered a }, mesh)
    | (none, mesh) => (r, mesh)

/-- Detaches one receive from its channel: the oldest message there is its answer, or
else that its peer is gone. -/
def detach (own : Rank) (tag : Tag) (mesh : Mesh) (r : Receive) : Receive × Mesh :=
  match r.state with
  | .waiting =>
    if r.own = own ∧ r.tag = tag then
      match mesh.receive r.own r.src r.tag with
      | (some a, mesh) => ({ r with state := .detached a }, mesh)
      | (none, mesh) => ({ r with state := .detached (.error (.peerDisconnected r.src)) }, mesh)
    else (r, mesh)
  | _ => (r, mesh)

/-- Treats the receives one after the other, in the order in which they began. -/
def each (f : Mesh → Receive → Receive × Mesh) (mesh : Mesh) :
    List Receive → List Receive × Mesh
  | [] => ([], mesh)
  | r :: rest =>
    let (r, mesh) := f mesh r
    let (rest, mesh) := each f mesh rest
    (r :: rest, mesh)

/-- Answers every receive that can be answered and lets go of its endpoint. -/
def settle (e : Endpoints) : Endpoints :=
  let (receives, mesh) := each answer e.mesh e.receives
  (e.receives.map (·.own)).foldl closeIdle { e with mesh, receives }

/-- Sends a message. -/
def send (e : Endpoints) (own dest : Rank) (tag : Tag) (data : Bytes) :
    Except Error Unit × Endpoints :=
  let (result, mesh) := e.mesh.send own dest tag data
  (result, { e with mesh })

/-- Receives at once, or not at all. -/
def receive (e : Endpoints) (own src : Rank) (tag : Tag) : Option Answer × Endpoints :=
  let e := e.settle
  let (result, mesh) := e.mesh.receive own src tag
  (result, { e with mesh })

/-- Begins a receive under a name. -/
def begin (e : Endpoints) (own src : Rank) (tag : Tag) (name : String) : Endpoints :=
  let earlier := e.receives.map fun r =>
    if r.name = some name then { r with name := none } else r
  let begun : Receive := { name := some name, own, src, tag }
  settle { e with receives := earlier ++ [begun] }

/-- Gives up what a rank keeps for a tag. -/
def retire (e : Endpoints) (own : Rank) (tag : Tag) : Endpoints :=
  let (receives, mesh) := each (detach own tag) e.mesh e.receives
  { e with receives, mesh := mesh.retire own tag }

/-- Gives up what a rank keeps for a tag, now and from now on. -/
def abandon (e : Endpoints) (own : Rank) (tag : Tag) : Endpoints :=
  let (receives, mesh) := each (detach own tag) e.mesh e.receives
  { e with receives, mesh := mesh.abandon own tag }

/-- Lets go of an endpoint. -/
def drop (e : Endpoints) (own : Rank) : Endpoints :=
  { e with held := e.held.filter (· ≠ own) }.closeIdle own

/-- The receive under a name: that there is none, that it is pending, or its answer,
which is given out once. -/
def collect (e : Endpoints) (name : String) : Option (Option Answer) × Endpoints :=
  let e := e.settle
  match e.receives.find? (·.name = some name) with
  | none => (none, e)
  | some r =>
    match r.state with
    | .answered a =>
      (some (some a), { e with receives := e.receives.filter (·.name ≠ some name) })
    | _ => (some none, e)

end Endpoints

end Collectives
