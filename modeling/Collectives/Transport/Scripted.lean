import Collectives.Transport.Basic

/-!
# Scripted transports

A transport for one rank on its own: what its peers send is fixed in advance, whatever
the tag, and sends to some of them fail. When the messages of a peer are used up, a
receive from it fails, or is never answered.
-/

namespace Collectives

/-- What becomes of a receive for which there is no message left. -/
inductive WhenEmpty where
  | disconnect
  | block
  deriving DecidableEq, Repr

/-- Answers that are fixed in advance. -/
structure Scripted where
  /-- What each peer sends, in order. -/
  incoming : Table Rank (List Bytes) := .empty
  /-- The peers to which sends fail, with the reason. -/
  failing : Table Rank String := .empty
  whenEmpty : WhenEmpty := .disconnect

instance : Transport Scripted where
  send s _ dest _ _ :=
    match s.failing.get? dest with
    | some reason => (.error (.transport reason none), s)
    | none => (.ok (), s)
  receive s _ src _ :=
    match s.incoming.get? src, s.whenEmpty with
    | some (data :: rest), _ =>
      (some (.ok data), { s with incoming := s.incoming.insert src rest })
    | _, .disconnect => (some (.error (.peerDisconnected src)), s)
    | _, .block => (none, s)
  retire s _ _ := s
  abandon s _ _ := s
  close s _ := s
  abandonEvent _ := .retired

end Collectives
