import Collectives.Messaging

/-!
# Barrier

A dissemination barrier: in round `k` every member signals the member `2 ^ k` places
ahead of it and waits for the one `2 ^ k` places behind. After `⌈log₂ size⌉` rounds a
member has heard, directly or through others, from every member of the group.
-/

namespace Collectives.Barrier

/-- One round, over the given distance. -/
def round (ex : Exchange) (distance : Nat) : Program Unit := do
  let dest ← .demand (Index.ahead? ex.size ex.localRank distance)
  let src ← .demand (Index.behind? ex.size ex.localRank distance)
  let _ ← ex.sendRecv dest [] src 0
  return ()

/-- The rounds `k`, `k + 1`, … , `n` of them. -/
def rounds (ex : Exchange) (k : Nat) : Nat → Program Unit
  | 0 => return ()
  | n + 1 => do
    round ex (1 <<< k)
    rounds ex (k + 1) n

/-- What one member does to pass the barrier. -/
def enter (ex : Exchange) : Program Unit :=
  rounds ex 0 (Index.ceilLog2 ex.size)

end Collectives.Barrier
