import Collectives.Session

/-!
# Blocking clients

A blocking client makes each call as if all its members made it side by side and waits
until they are through. All members belong to one group, built when the client is made.
A collective that some member could not start is not waited for: the operations of the
others are given up.
-/

namespace Collectives

/-- The members of one group, each with a communicator of its own. -/
structure Blocking where
  session : Session Mesh
  /-- Each member's rank and the name of its group. -/
  members : List (Rank × String)

/-- A member's part in a collective. -/
structure Part (d : DataType) where
  count : Nat
  input : Option (List d.Elem)

namespace Blocking

/-- The name under which things of member `i` are kept. -/
def nameOf (i : Nat) : String := toString i

/-- The call of a session that must not name anything that is missing. -/
def insist {α : Type} (result : Except Refusal α) : Except Error α :=
  match result with
  | .ok a => .ok a
  | .error (.failed e) => .error e
  | .error (.missing _) => .error (.transport "no such member" none)

/-- Lets every rank of a list, by default every rank, build the group of these ranks. -/
def join (session : Session Mesh) (world : UInt32) (list : Option (List Rank)) :
    Except Error Blocking := do
  let ranks := list.getD ((List.range world.toNat).map UInt32.ofNat)
  let members := ranks.mapIdx fun i rank => (rank, nameOf i)
  let session ← members.foldlM (fun s (rank, name) => insist (s.group rank name list)) session
  return { session, members }

/-- Makes a call that, when it fails, leaves the session as it was. -/
def attempt (s : Session Mesh) (result : Except Refusal (Session Mesh)) :
    Except Error Unit × Session Mesh :=
  match insist result with
  | .ok s => (.ok (), s)
  | .error e => (.error e, s)

/-- One call for each member, in order. -/
def callEach {α : Type} (call : Session Mesh → α → Except Error Unit × Session Mesh)
    (s : Session Mesh) : List α → List (Except Error Unit) × Session Mesh
  | [] => ([], s)
  | a :: rest =>
    let (result, s) := call s a
    let (results, s) := callEach call s rest
    (result :: results, s)

/-- Every member passes a barrier. -/
def barrier (b : Blocking) : List (Except Error Unit) × Blocking :=
  let enter (s : Session Mesh) (member : Rank × String) :=
    attempt s (s.barrier member.1 member.2 member.2)
  let s := (callEach enter b.session b.members).2.settle
  let outcomes := b.members.map fun (_, name) =>
    match s.barrierOutcome name with
    | .ok (some outcome) => outcome
    | _ => .error (.transport "barrier is still waiting" none)
  (outcomes, { b with session := s })

/-- What came of a collective: that every member started and its result, or what every
member's call to start it gave. -/
inductive Outcome (d : DataType) where
  | results (values : List (Except Error (List d.Elem)))
  | notStarted (calls : List (Except Error Unit))

/-- Every member carries out its part in a collective. -/
def call (b : Blocking) (d : DataType) (params : Params) (algorithm : Option AlgorithmName)
    (parts : List (Part d)) : Outcome d × Blocking :=
  let start (s : Session Mesh) (member : (Rank × String) × Part d) :=
    let ((rank, name), part) := member
    match attempt s (s.build rank name name (.ok ⟨params, d, part.count, algorithm⟩)) with
    | (.ok (), s) => attempt s (s.start name d part.input true)
    | failed => failed
  let (calls, s) := callEach start b.session (b.members.zip parts)
  let finish (s : Session Mesh) : Session Mesh :=
    b.members.foldl (fun s (_, name) => s.drop name) s |>.settle
  if calls.all Except.isOk then
    let s := s.settle
    let values := b.members.map fun (_, name) =>
      match s.wait name d with
      | .ok (.delivered result, _) => result
      | _ => .error (.transport "operation is still waiting" none)
    (.results values, { b with session := finish s })
  else
    (.notStarted calls, { b with session := finish s })

end Blocking

end Collectives
