import Collectives.Registry

/-!
# Probes

An algorithm that carries out a list of steps given for each rank and reports what came
of every one of them. An error is reported and the steps go on; at the end the result is
the member's own input. A step may delegate to another algorithm, which then runs on
the same exchange.

## A probe within a probe

The algorithm that a step delegates to may be the probe itself, which then begins its
steps anew, with the delegated job in place of its own. Each round is over only when the
one within it is, so such a probe goes on for as long as its steps find messages to
receive. A round that waits for nothing would be followed by another one for ever, and
a program has an end; `maxNesting` is where the probe dies instead.
-/

namespace Collectives

namespace Probe

/-- A collective that a probe carries out within its own. -/
structure Delegation where
  key : AlgorithmKey
  params : Params
  dtype : DataType
  count : Nat
  input : Bytes

/-- One step of a probe. Peers are local indices. -/
inductive Step where
  /-- Reports the job. -/
  | job
  | send (dest : Nat) (data : Bytes)
  | recv (src : Nat)
  | recvExact (src expected : Nat)
  | sendRecv (dest : Nat) (data : Bytes) (src expected : Nat)
  /-- A delegation that could not even be read is an error like any other. -/
  | delegate (delegation : Except Error Delegation)
  /-- Ends with this result. -/
  | finish (data : Bytes)
  /-- Ends with the most recent error; without one, the program dies. -/
  | fail
  | crash

/-- The collective that a delegation asks for. -/
def runDelegation (registry : Registry) (exchange : Exchange)
    (delegation : Except Error Delegation) : Program Bytes := do
  let d ← .ofExcept delegation
  let algorithm ← .ofExcept (registry.resolve d.key)
  algorithm.run ⟨exchange, d.params, d.dtype, d.count, d.input⟩

/-- What a step does that communicates and gives something to report. -/
def act (registry : Registry) (ex : Exchange) : Step → Program Observation
  | .send dest data => do
    ex.send dest data
    return .sent
  | .recv src => .received <$> ex.recv src
  | .recvExact src expected => .received <$> ex.recvExact src expected
  | .sendRecv dest data src expected => .received <$> ex.sendRecv dest data src expected
  | .delegate delegation => .received <$> runDelegation registry ex delegation
  | .job | .finish _ | .fail | .crash => .crash

/-- Carries out the steps; `latest` is the most recent error. -/
def play (registry : Registry) (job : Job) (latest : Option Error) : List Step → Program Bytes
  | [] => return job.input
  | .job :: rest => .report (.job job) (play registry job latest rest)
  | .finish data :: _ => return data
  | .fail :: _ => do
    let error ← .demand latest
    .fail error
  | .crash :: _ => .crash
  | step :: rest => do
    match ← (act registry job.exchange step).attempt with
    | .ok observation => .report observation (play registry job latest rest)
    | .error error => .report (.failed error) (play registry job (some error) rest)

/-- The algorithm that carries out the steps given for the rank it runs at. -/
def algorithm (registry : Registry) (steps : Rank → List Step) : Algorithm where
  run job := play registry job none (steps job.exchange.group.rank)

/-- How deep a probe may be nested in itself. -/
def maxNesting : Nat := 1000

end Probe

namespace Registry

/-- Registers one algorithm for allgatherv under the name `sendToAll`, for every element
type. -/
def withProbe (r : Registry) (algorithm : Algorithm) : Registry :=
  DataType.all.foldl (fun r d => r.register ⟨.allgatherv, d, .sendToAll⟩ algorithm) r

/-- The built-in algorithms and a probe that is nested in itself at most `depth` times. -/
def nested (steps : Rank → List Probe.Step) (depth : Nat) : Registry :=
  builtin.withProbe {
    run := fun job =>
      match depth with
      | 0 => .crash
      | depth + 1 => (Probe.algorithm (nested steps depth) steps).run job }

/-- The built-in algorithms and a probe. -/
def probed (steps : Rank → List Probe.Step) : Registry := nested steps Probe.maxNesting

end Registry

end Collectives
