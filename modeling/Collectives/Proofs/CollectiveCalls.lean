import Collectives.Communicator
import Collectives.Proofs.BuiltinCollectives

/-!
# Calls that go together

The members of a team call the same collective, each from its own view of the group
(`CollectiveCall`).  The programs are those that the built-in registry has for it, on the jobs that
the members' operations stage (`CollectiveCall.program`).

Each of the five built-in algorithms has a plan for every such call, which the programs realize
(`CollectiveCall.exists_plan`).  So, whichever members are missing or lost and whatever endpoints
are closed, a member that ends with a value ends with the one that it would have ended with if
nothing had gone wrong.  Where a member needs the contributions of all others, it does not end with
a value at all before everyone has come (`CollectiveCall.crash_safe`).
-/

namespace Collectives

/-! ## Programs that realize a plan -/

namespace Team.Realizes

variable {t : Team} {plan : List (Round t.size)} {program : Fin t.size → Program Bytes}
  {result : Fin t.size → Bytes} {e : Executor Mesh} {i : Fin t.size} {data : Bytes}

/-- Whatever happens, nobody ends with another value than the planned one. -/
theorem eq_of_finished (h : t.Realizes plan program result) (he : t.FaultyRun program e)
    (hi : e.roll (t.rank i) t.tag = some (.finished (.ok data))) : data = result i := by
  obtain ⟨e', he', rfl⟩ := Executor.FaultyRun.exists_of_forget he
  obtain ⟨done, -, hdone⟩ := TracedFaultyRun.exists_underway he' h
  exact ((hdone i).2.2 data hi).1

/-- Where everyone hears from everyone else, nobody ends with a value before all have started. -/
theorem started_of_finished (h : t.Realizes plan program result)
    (hheard : ∀ i j, i ≠ j → Heard plan i j) (he : t.FaultyRun program e)
    (hi : e.roll (t.rank i) t.tag = some (.finished (.ok data))) (j : Fin t.size) :
    e.roll (t.rank j) t.tag ≠ none := by
  obtain ⟨e', he', rfl⟩ := Executor.FaultyRun.exists_of_forget he
  exact (h.begun_of_finished hheard he' hi j).1

end Team.Realizes

/-! ## Collective calls -/

/-- A collective call of all members of a team.  Each of them has made its operation from its own
view of the group, and has an input with which it may start; they agree on everything but, in an
allgatherv, on the count. -/
structure CollectiveCall (t : Team) where
  /-- The number of the operation on the group. -/
  sequence : Nat
  params : Params
  dtype : DataType
  name : AlgorithmName
  algorithm : Algorithm
  count : Fin t.size → Nat
  input : Fin t.size → Option (List dtype.Elem)
  /-- What each member sets going when it starts. -/
  job : Fin t.size → Job
  resolved : Registry.builtin.resolve ⟨params.kind, dtype, name⟩ = .ok algorithm
  created : ∀ i, Operation.create (t.group i) sequence ⟨params, dtype, count i, some name⟩ name
    algorithm = .ok (t.operationOf i params dtype (count i) name algorithm)
  staged : ∀ i, (t.operationOf i params dtype (count i) name algorithm).stage dtype (input i) =
    .ok (job i)
  agreed : params = .allgatherv ∨ ∀ i j, count i = count j

namespace CollectiveCall

variable {t : Team} (c : CollectiveCall t)

/-- What a member does when it has started. -/
def program (i : Fin t.size) : Program Bytes := c.algorithm.run (c.job i)

/-- The collective that the members carry out, with what they have staged of their inputs. -/
def collective : BuiltinCollective t where
  params := c.params
  dtype := c.dtype
  name := c.name
  algorithm := c.algorithm
  count := c.count
  input i := (c.job i).input
  resolved := c.resolved
  valid := (Operation.of_create (c.created ⟨0, t.size_pos⟩)).2.2
  rooted i := (Operation.of_create (c.created i)).1
  fits i := (Operation.of_create (c.created i)).2.1
  agreed := c.agreed
  declared i hroot := by
    have hown : (t.operationOf i c.params c.dtype (c.count i) c.name c.algorithm).ignoresInput =
        false := by
      unfold Operation.ignoresInput
      dsimp only [Team.operationOf]
      cases hparams : c.params with
      | broadcast root =>
        have hi : root = (t.exchange i).localRank := hroot root hparams
        exact decide_eq_false (not_not_intro hi)
      | allreduce op => rfl
      | allgatherv => rfl
    obtain ⟨xs, -, hlength, hjob⟩ := Operation.of_stage (c.staged i) hown
    rw [hjob, DataType.length_encode, hlength]
    rfl

/-- Whether a member waits for what all others contribute. -/
def NeedsAll (i : Fin t.size) : Prop := c.collective.NeedsAll i

theorem program_collective : c.collective.program = c.program :=
  funext fun i => congrArg c.algorithm.run (Operation.job_of_stage (c.staged i)).1.symm

/-- Every collective call has a plan, on which those who need all hear from all. -/
theorem exists_plan : ∃ plan result, t.Realizes plan c.program result ∧
    ((∃ i, c.NeedsAll i) → ∀ i j, i ≠ j → Heard plan i j) := by
  rw [← c.program_collective]
  exact c.collective.exists_plan

/-- When nothing goes wrong the members end with their results.  Whatever goes wrong, a member that
ends with a value ends with the same one; and if it needs all others, then all have started. -/
theorem crash_safe (c : CollectiveCall t) :
    ∃ result : Fin t.size → Bytes, (t.run c.program).Delivers result ∧
      ∀ e, t.FaultyRun c.program e → ∀ i data,
        e.roll (t.rank i) t.tag = some (.finished (.ok data)) →
          data = result i ∧ (c.NeedsAll i → ∀ j, e.roll (t.rank j) t.tag ≠ none) := by
  obtain ⟨plan, result, hrealizes, hheard⟩ := c.exists_plan
  refine ⟨result, hrealizes.delivers, ?_⟩
  intro e he i data hi
  exact ⟨hrealizes.eq_of_finished he hi,
    fun hneeds => hrealizes.started_of_finished (hheard ⟨i, hneeds⟩) he hi⟩

/-- Three members in their first operation. -/
def summingTrio : Team := { Team.trio with tag := .ofSequence 7 0 }

/-- They add up a number of each by recursive doubling. -/
def sum : CollectiveCall summingTrio where
  sequence := 0
  params := .allreduce .sum
  dtype := .int
  name := .recursiveDoubling
  algorithm := .recursiveDoubling .int
  count _ := 1
  input := fun i : Fin 3 => some [(![1, 10, 100] : Fin 3 → Int32) i]
  job := fun i : Fin 3 =>
    summingTrio.job (d := .int) i .sum [(![1, 10, 100] : Fin 3 → Int32) i]
  resolved := rfl
  created _ := rfl
  staged _ := rfl
  agreed := .inr fun _ _ => rfl

/-- The third member is given up, and its endpoint closed, when it has handed its number to the
first one, which then cannot give the result back. -/
def lostMember : Executor Mesh :=
  let begun : Executor Mesh := { network := .ofSize 3 }
  let first := (begun.add 2 summingTrio.tag (sum.program 0)).2
  let second := (first.add 0 summingTrio.tag (sum.program 1)).2
  let third := (second.add 1 summingTrio.tag (sum.program 2)).2
  let lost := (third.steps [2]).abort 2
  { lost with network := Transport.close lost.network 1 }.steps [0, 0, 1, 1, 1, 0, 0, 0, 2]

theorem faultyRun_lostMember : summingTrio.FaultyRun sum.program lostMember := by
  refine .steps (.closed (.aborted (.steps (.started (.started (.started .begun ?_ ?_) ?_ ?_)
    ?_ ?_) _) 2) 1) _
  · exact ⟨(0 : Fin 3), rfl, rfl, rfl⟩
  · decide
  · exact ⟨(1 : Fin 3), rfl, rfl, rfl⟩
  · decide
  · exact ⟨(2 : Fin 3), rfl, rfl, rfl⟩
  · decide

/-- The first member fails and the third is gone, but what the second has ended with is the sum. -/
theorem crash_safe_trio :
    lostMember.roll 1 summingTrio.tag = some .aborted ∧
      (∃ error, lostMember.roll 2 summingTrio.tag = some (.finished (.error error))) ∧
      lostMember.roll 0 summingTrio.tag = some (.finished (.ok (DataType.int.encode [111]))) ∧
      ∃ result : Fin 3 → Bytes, (summingTrio.run sum.program).Delivers result ∧
        result 1 = DataType.int.encode [111] ∧
        ∀ j : Fin 3, lostMember.roll (summingTrio.rank j) summingTrio.tag ≠ none := by
  have hended : lostMember.roll 0 summingTrio.tag =
      some (.finished (.ok (DataType.int.encode [111]))) := by rfl
  obtain ⟨result, hdelivers, hsafe⟩ := crash_safe sum
  obtain ⟨hresult, hstarted⟩ := hsafe lostMember faultyRun_lostMember (1 : Fin 3) _ hended
  have hneeds : sum.NeedsAll (1 : Fin 3) := Nat.one_ne_zero
  exact ⟨by rfl, ⟨_, by rfl⟩, hended, result, hdelivers, hresult.symm, hstarted hneeds⟩

end CollectiveCall

end Collectives
