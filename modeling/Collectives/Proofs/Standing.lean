import Collectives.Proofs.TrackedRuns
import Collectives.Proofs.Rounds

/-!
# Members that stop

A plan is what the members of a team do when nothing goes wrong.  In a run with faults they may also
not be started at all, be given up at any moment, or send to an endpoint that was closed.
`Standing` says how a member can stand in spite of this: it was not started, it is on its script, or
it met a mishap on the way, and then it receives and sends nothing more.  A member whose program
stops at the first communication that fails stands in one of these ways, because the messages that
it takes are still those of the plan (`Team.standing`).

So what the members have done is always a part of the plan in which everything that was received
was sent (`Underway`), and those that have ended with a value have ended with that of the plan
(`Team.exists_underway`).  Where all members were started and none has met a mishap, nobody is
stuck (`Team.moves_of_no_mishap`).
-/

namespace Collectives

/-- Something that does not happen as long as all endpoints are open and nobody is given up. -/
def Event.IsMishap : Event → Prop
  | .sendFailed .. | .abandoned => True
  | .sent .. | .received .. | .retired => False

theorem Event.IsMishap.isQuiet {event : Event} (h : event.IsMishap) : event.IsQuiet := by
  cases event with
  | sent | received | retired => exact h.elim
  | sendFailed | abandoned => trivial

/-- The task was given up, or its program ends with an error. -/
inductive Status.IsLost : Status → Prop where
  | failing (error : Error) : IsLost (.running (.fail error))
  | failed (error : Error) : IsLost (.finished (.error error))
  | aborting : IsLost .aborting
  | aborted : IsLost .aborted

/-! ## One member -/

/-- How a member can stand whose program stops at the first communication that fails, with its
history. -/
inductive Standing (ex : Exchange) (script : List Event) (result : Bytes) :
    Option Status → List Event → Prop where
  | absent : Standing ex script result none []
  | steady {s : Status} {history : List Event} (h : Progress script result s history)
      (hthrough : ∀ p, s = .running p → p.Through ex) :
      Standing ex script result (some s) history
  | lost {s : Status} {done later : List Event} {mishap : Event} (hs : s.IsLost)
      (hdone : done <+: script) (hmishap : mishap.IsMishap)
      (hlater : ∀ event ∈ later, event.IsQuiet) :
      Standing ex script result (some s) (done ++ mishap :: later)

theorem StepEffect.through {r r' : Recorded Mesh} {own : Rank} {tag : Tag} {p q : Program Bytes}
    {new : List Event} {s : Status} {ex : Exchange} (h : StepEffect r own tag p new s r')
    (hp : p.Through ex) (hq : s = .running q) : q.Through ex := by
  cases h with
  | ended | crashed => cases hq
  | reported entry next =>
    cases hq
    exact hp
  | sent data next _ =>
    cases hq
    exact hp.2.2
  | refused data next cause =>
    cases hq
    rw [hp.2.1]
    trivial
  | received next _ _ _ =>
    cases hq
    exact hp.2.2 _
  | unanswered next cause _ =>
    cases hq
    rw [hp.2.1]
    trivial
  | waiting next _ _ _ =>
    cases hq
    exact hp

namespace Standing

variable {ex : Exchange} {script history new : List Event} {result : Bytes} {s : Status}
  {p : Program Bytes}

/-- A history that is quiet from some place on has no messages from there on. -/
theorem messages_eq {done later : List Event} (hlater : ∀ event ∈ later, event.IsQuiet)
    (rank : Rank) :
    messagesTo rank (done ++ later) = messagesTo rank done ∧
      messagesFrom rank (done ++ later) = messagesFrom rank done := by
  induction later using List.reverseRecOn with
  | nil => simp
  | append_singleton later event ih =>
    have hevent : event.IsQuiet := hlater event (by simp)
    obtain ⟨hto, hfrom⟩ := ih fun other hother => hlater other (by simp [hother])
    rw [← List.append_assoc, messagesTo_append, messagesFrom_append, hevent.messagesTo_eq,
      hevent.messagesFrom_eq, List.append_nil, List.append_nil]
    exact ⟨hto, hfrom⟩

/-- What a member has done of its script, and what it has ended with. -/
theorem exists_done {status : Option Status} (h : Standing ex script result status history) :
    ∃ done, done <+: script ∧ done <+: history ∧
      (∀ rank, messagesTo rank history = messagesTo rank done ∧
        messagesFrom rank history = messagesFrom rank done) ∧
      (status = none → done = []) ∧
      ∀ data, status = some (.finished (.ok data)) → data = result ∧ done = script := by
  cases h with
  | absent => exact ⟨[], List.nil_prefix, List.nil_prefix, fun _ => ⟨rfl, rfl⟩, fun _ => rfl, nofun⟩
  | steady h _ =>
    cases h with
    | running hs _ =>
      exact ⟨history, ⟨_, hs.symm⟩, List.prefix_rfl, fun _ => ⟨rfl, rfl⟩, nofun, nofun⟩
    | finished =>
      refine ⟨script, List.prefix_rfl, List.prefix_append _ _, ?_, nofun, ?_⟩
      · refine messages_eq ?_
        simp [Event.IsQuiet]
      · intro data hdata
        cases hdata
        exact ⟨rfl, rfl⟩
  | @lost s done later mishap hs hdone hmishap hlater =>
    refine ⟨done, hdone, List.prefix_append _ _, ?_, nofun, ?_⟩
    · refine messages_eq ?_
      intro event hevent
      rcases List.mem_cons.1 hevent with rfl | hevent
      · exact hmishap.isQuiet
      · exact hlater event hevent
    · intro data hdata
      cases hdata
      cases hs

/-- Whatever a member has sent is the beginning of what its script has it send. -/
theorem sends_of_script {status : Option Status} (h : Standing ex script result status history)
    (dest : Rank) : messagesTo dest history <+: messagesTo dest script := by
  obtain ⟨done, hdone, -, hmessages, -, -⟩ := h.exists_done
  rw [(hmessages dest).1]
  exact messagesTo_mono dest hdone

theorem acted {r r' : Recorded Mesh} {own : Rank} {tag : Tag}
    (h : Standing ex script result (some (.running p)) history)
    (heffect : StepEffect r own tag p new s r') (hown : own.toNat < r.network.size)
    (hmembers : ∀ src ∈ ex.group.ranks, src.toNat < r.network.size)
    (hq : ∀ src data rest, r.network.queue src own tag = data :: rest →
      ∀ data' rest', script = history ++ .received src data' :: rest' → data = data') :
    Standing ex script result (some s) (history ++ new) := by
  cases h with
  | steady h hthrough =>
    have hp := hthrough p rfl
    by_cases hrefused : ∃ dest data, new = [.sendFailed dest data]
    · obtain ⟨dest, data, rfl⟩ := hrefused
      cases h with
      | running hs _ =>
        cases heffect with
        | refused data next cause =>
          rw [hp.2.1]
          exact .lost (.failing _) ⟨_, hs.symm⟩ trivial nofun
    · refine .steady
        (h.stepEffect heffect (fun dest data hnew => hrefused ⟨dest, data, hnew⟩) ?_ hq) ?_
      · rintro src next rfl
        exact ⟨hown, hmembers src hp.1⟩
      · intro q hs
        exact heffect.through hp hs
  | @lost _ done later mishap hs hdone hmishap hlater =>
    cases hs with
    | failing error =>
      -- all that is left to it is to end with its error
      have hend : new = [.retired] ∧ s = .finished (.error error) := by
        generalize hp : Program.fail error = p at heffect
        cases heffect with
        | ended outcome =>
          cases outcome with
          | ok value => cases hp
          | error e =>
            cases hp
            exact ⟨rfl, rfl⟩
        | crashed | reported | sent | refused | received | unanswered | waiting => cases hp
      obtain ⟨rfl, rfl⟩ := hend
      rw [List.append_assoc, List.cons_append]
      refine .lost (.failed error) hdone hmishap ?_
      intro event hevent
      rcases List.mem_append.1 hevent with hevent | hevent
      · exact hlater event hevent
      · rw [List.mem_singleton.1 hevent]
        trivial

theorem abandoned (h : Standing ex script result (some (.running p)) history) :
    Standing ex script result (some .aborting) (history ++ [.abandoned]) := by
  cases h with
  | steady h _ =>
    cases h with
    | running hs _ => exact .lost .aborting ⟨_, hs.symm⟩ trivial nofun
  | lost hs hdone hmishap hlater =>
    rw [List.append_assoc, List.cons_append]
    refine .lost .aborting hdone hmishap ?_
    intro event hevent
    rcases List.mem_append.1 hevent with hevent | hevent
    · exact hlater event hevent
    · rw [List.mem_singleton.1 hevent]
      trivial

theorem vanished (h : Standing ex script result (some .aborting) history) :
    Standing ex script result (some .aborted) history := by
  cases h with
  | steady h _ => cases h
  | lost _ hdone hmishap hlater => exact .lost .aborted hdone hmishap hlater

/-- A member that was started and has met no mishap is on its script. -/
theorem progress_of_no_mishap (h : Standing ex script result (some s) history)
    (hclean : ∀ event ∈ history, ¬event.IsMishap) : Progress script result s history := by
  cases h with
  | steady h _ => exact h
  | lost _ _ hmishap _ => exact absurd hmishap (hclean _ (by simp))

end Standing

/-! ## All members -/

/-- Each member has done a part of its script, and has received nothing that was not sent. -/
structure Underway (t : Team) (plan : List (Round t.size)) (done : Fin t.size → List Event) :
    Prop where
  begun : ∀ i, done i <+: t.script plan i
  matched : ∀ i j, messagesFrom (t.rank j) (done i) <+: messagesTo (t.rank i) (done j)

namespace Team

/-- Each member, at its rank and under the tag of the team, with its program. -/
def Assigned (t : Team) (program : Fin t.size → Program Bytes) (rank : Rank) (tag : Tag)
    (p : Program Bytes) : Prop :=
  ∃ i, rank = t.rank i ∧ tag = t.tag ∧ p = program i

/-- The states of a mesh to which the members of a team can come: each may be started once or
never, take steps, and be given up, and endpoints may be closed. -/
def FaultyRun (t : Team) (program : Fin t.size → Program Bytes) : Executor Mesh → Prop :=
  Executor.FaultyRun (t.Assigned program) (.ofSize t.world)

/-- The same on a mesh with a log. -/
def TracedFaultyRun (t : Team) (program : Fin t.size → Program Bytes) :
    Executor (Recorded Mesh) → Prop :=
  Executor.FaultyRun (t.Assigned program) { network := .ofSize t.world }

variable {t : Team} {plan : List (Round t.size)} {program : Fin t.size → Program Bytes}
  {result : Fin t.size → Bytes} {assigned : Rank → Tag → Program Bytes → Prop} {roll : Roll}
  {r : Recorded Mesh}

/-- However a run goes in which only the members use the tag of the team, each member stands
in one of the ways in which a member can. -/
theorem standing (h : TrackedRun assigned t.world roll r)
    (hassigned : ∀ {rank p}, assigned rank t.tag p → ∃ i, rank = t.rank i ∧ p = program i)
    (hrealizes : t.Realizes plan program result) (i : Fin t.size) :
    Standing (t.exchange i) (t.script plan i) (result i) (roll (t.rank i) t.tag)
      (r.events (t.rank i) t.tag) := by
  induction h generalizing i with
  | begun => exact .absent
  | @started roll r own tag p h hp hnew ih =>
    by_cases hkey : t.rank i = own ∧ t.tag = tag
    · obtain ⟨rfl, rfl⟩ := hkey
      obtain ⟨j, hj, rfl⟩ := hassigned hp
      obtain rfl := t.rank_injective hj
      rw [Roll.set_self, h.orderly.silent hnew]
      refine .steady (.running rfl (hrealizes.runs i)) ?_
      rintro _ ⟨⟩
      exact hrealizes.through i
    · rw [Roll.set_of_ne _ hkey]
      exact ih i
  | @acted roll r r' own tag p new s h hp heffect ih =>
    rw [heffect.events_eq]
    by_cases hkey : t.rank i = own ∧ t.tag = tag
    · obtain ⟨rfl, rfl⟩ := hkey
      have hi := ih i
      rw [hp] at hi
      have hsize : ∀ rank ∈ t.ranks, rank.toNat < r.network.size := by
        rw [h.orderly.size_eq]
        exact t.inWorld
      rw [Roll.set_self, if_pos ⟨rfl, rfl⟩]
      refine hi.acted heffect (hsize _ (t.rank_mem i)) hsize ?_
      intro src data rest hq data' rest' hs
      have hmem : .received src data' ∈ t.script plan i := by rw [hs]; simp
      obtain ⟨j, rfl⟩ := t.exists_of_received_mem_script hmem
      have hexpectant : Expectant (roll (t.rank i) t.tag) := by
        rw [hp]
        exact .running p
      have hsent := h.orderly.conserved hexpectant (t.rank j)
      rw [Recorded.Conserved, hq] at hsent
      exact data_eq_of_planned hs ((ih j).sends_of_script (t.rank i)) hsent
    · rw [Roll.set_of_ne _ hkey, if_neg hkey]
      exact ih i
  | @abandoned roll r own tag p h hp ih =>
    have hevents : (Transport.abandon r own tag).events (t.rank i) t.tag = _ :=
      Recorded.events_note r _ own (t.rank i) tag t.tag .abandoned
    rw [hevents]
    by_cases hkey : t.rank i = own ∧ t.tag = tag
    · obtain ⟨rfl, rfl⟩ := hkey
      have hi := ih i
      rw [hp] at hi
      rw [Roll.set_self, if_pos ⟨rfl, rfl⟩]
      exact hi.abandoned
    · rw [Roll.set_of_ne _ hkey, if_neg hkey]
      exact ih i
  | @vanished roll r own tag h hp ih =>
    by_cases hkey : t.rank i = own ∧ t.tag = tag
    · obtain ⟨rfl, rfl⟩ := hkey
      have hi := ih i
      rw [hp] at hi
      rw [Roll.set_self]
      exact hi.vanished
    · rw [Roll.set_of_ne _ hkey]
      exact ih i
  | closed h own ih => exact ih i

/-- However the run goes, what the members have done is a part of the plan, and those that
have ended with a value have ended with that of the plan, having done all of it. -/
theorem exists_underway (h : TrackedRun assigned t.world roll r)
    (hassigned : ∀ {rank p}, assigned rank t.tag p → ∃ i, rank = t.rank i ∧ p = program i)
    (hrealizes : t.Realizes plan program result) :
    ∃ done, Underway t plan done ∧ ∀ i, done i <+: r.events (t.rank i) t.tag ∧
      (roll (t.rank i) t.tag = none → done i = []) ∧
      ∀ data, roll (t.rank i) t.tag = some (.finished (.ok data)) →
        data = result i ∧ done i = t.script plan i := by
  choose done hbegun hhistory hmessages hnone hend using
    fun i => (standing h hassigned hrealizes i).exists_done
  refine ⟨done, ⟨hbegun, ?_⟩, fun i => ⟨hhistory i, hnone i, hend i⟩⟩
  intro i j
  rw [← (hmessages i _).2, ← (hmessages j _).1]
  exact h.orderly.consumed (t.rank i) t.tag (t.rank j)

/-- Where all members were started and none has met a mishap, some member has a step to take as
long as not all have ended with their results. -/
theorem moves_of_no_mishap {e : Executor (Recorded Mesh)} (h : e.Tracked assigned t.world)
    (hassigned : ∀ {rank p}, assigned rank t.tag p → ∃ i, rank = t.rank i ∧ p = program i)
    (hrealizes : t.Realizes plan program result)
    (hstarted : ∀ i, e.roll (t.rank i) t.tag ≠ none)
    (hclean : ∀ i, ∀ event ∈ e.network.events (t.rank i) t.tag, ¬event.IsMishap)
    (hunfinished : ∃ i, e.roll (t.rank i) t.tag ≠ some (.finished (.ok (result i)))) :
    ∃ i, e.Moves (t.rank i) t.tag := by
  by_contra hnone
  choose status hstatus using fun i => Option.ne_none_iff_exists'.1 (hstarted i)
  have hprogress : ∀ i, Progress (t.script plan i) (result i) (status i)
      (e.network.events (t.rank i) t.tag) := by
    intro i
    have hi := standing h.run hassigned hrealizes i
    rw [hstatus] at hi
    exact hi.progress_of_no_mishap (hclean i)
  obtain ⟨i, hi⟩ := hunfinished
  refine hi ?_
  rw [hstatus, finished_of_waits hprogress ?_ i]
  intro i p hp
  have hroll := hstatus i
  rw [hp] at hroll
  obtain ⟨src, next, rfl, -, hq⟩ := Executor.waits_of_not_moves (fun h => hnone ⟨i, h⟩) hroll
  refine ⟨src, next, rfl, ?_⟩
  rintro j rfl
  have hexpectant : Expectant (e.roll (t.rank i) t.tag) := by
    rw [hroll]
    exact .running _
  have hsent := h.run.orderly.conserved hexpectant (t.rank j)
  rwa [Recorded.Conserved, hq, List.append_nil] at hsent

/-- The members alone use the tag of the team. -/
theorem Assigned.exists_member {rank : Rank} {p : Program Bytes}
    (h : t.Assigned program rank t.tag p) : ∃ i, rank = t.rank i ∧ p = program i := by
  obtain ⟨i, hrank, -, hp⟩ := h
  exact ⟨i, hrank, hp⟩

/-- That everyone is started at once is the beginning of a run. -/
theorem faultyRun_tasks {σ : Type} [Transport σ] (network : σ) :
    Executor.FaultyRun (t.Assigned program) network { network, tasks := t.tasks program } := by
  have hstarted : ∀ m ≤ t.size, Executor.FaultyRun (t.Assigned program) network
      { network, tasks := (t.tasks program).take m } := by
    intro m hm
    induction m with
    | zero => exact .begun
    | succ m ih =>
      have hget := t.getElem?_tasks program ⟨m, hm⟩
      obtain ⟨hlt, hm'⟩ := List.getElem?_eq_some_iff.1 hget
      have htake : (t.tasks program).take (m + 1) =
          (t.tasks program).take m ++ [⟨t.rank ⟨m, hm⟩, t.tag, .running (program ⟨m, hm⟩)⟩] := by
        rw [← hm', List.take_append_getElem hlt]
      rw [htake]
      refine .started (ih (Nat.le_of_succ_le hm)) ⟨⟨m, hm⟩, rfl, rfl, rfl⟩ ?_
      rintro task htask ⟨hrank, -⟩
      obtain ⟨k, hk⟩ := List.getElem?_of_mem htask
      rw [List.getElem?_take] at hk
      split at hk
      · next hkm =>
        obtain ⟨i, rfl, rfl⟩ := t.exists_of_getElem?_tasks hk
        have him := congrArg Fin.val (t.rank_injective hrank)
        exact absurd him (Nat.ne_of_lt hkm)
      · cases hk
  have hall := hstarted t.size (Nat.le_refl _)
  have hlength : (t.tasks program).length = t.size := List.length_ofFn
  rwa [← hlength, List.take_length] at hall

namespace TracedFaultyRun

variable {e : Executor (Recorded Mesh)}

theorem tracked (h : t.TracedFaultyRun program e) : e.Tracked (t.Assigned program) t.world :=
  Executor.FaultyRun.tracked h

theorem exists_underway (h : t.TracedFaultyRun program e)
    (hrealizes : t.Realizes plan program result) :
    ∃ done, Underway t plan done ∧ ∀ i, done i <+: e.network.events (t.rank i) t.tag ∧
      (e.roll (t.rank i) t.tag = none → done i = []) ∧
      ∀ data, e.roll (t.rank i) t.tag = some (.finished (.ok data)) →
        data = result i ∧ done i = t.script plan i :=
  Team.exists_underway h.tracked.run Assigned.exists_member hrealizes

end TracedFaultyRun

end Team

end Collectives
