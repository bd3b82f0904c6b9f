import Collectives.Proofs.Team
import Mathlib.Data.List.Induction

/-!
# Rounds

A failure-free collective goes in rounds.  In a round every member sends at most one message
and then receives at most one, and what one sends is what the other receives (`Round.matched`).
A plan is a list of rounds; the script of a member is what the plan has it do.

Members do not go through the rounds together: any number of rounds may lie between two of
them, with the messages in between on their way.  Still, when the program of each member runs
to its result along its script, the results are delivered under every schedule
(`Team.delivers_of_plan`):

* nobody leaves the plan (`OnPlan.step`), because what a member has received from another is
  the beginning of what the plan has that one send, so the next message is the planned one;
* nobody is stuck in it (`OnPlan.finished_of_stuck`), because once all members have completed
  the rounds before, each can send in the next one, and then each can receive
  (`Halted.passed_succ`).

Programs that in addition stop at the first communication that fails are `Realizes`.
-/

namespace Collectives

/-- Who sends what to whom in one round. -/
structure Round (n : Nat) where
  /-- The message that a member sends, and to whom. -/
  sends : Fin n → Option (Fin n × Bytes)
  /-- The message that a member receives, and from whom. -/
  receives : Fin n → Option (Fin n × Bytes)
  matched : ∀ i j data, sends i = some (j, data) ↔ receives j = some (i, data)

namespace Team

variable (t : Team)

/-- What a member sends in a round. -/
def sendEvents (round : Round t.size) (i : Fin t.size) : List Event :=
  (round.sends i).toList.map fun m => .sent (t.rank m.1) m.2

/-- What a member receives in a round. -/
def receiveEvents (round : Round t.size) (i : Fin t.size) : List Event :=
  (round.receives i).toList.map fun m => .received (t.rank m.1) m.2

/-- What a plan has a member do. -/
def script (plan : List (Round t.size)) (i : Fin t.size) : List Event :=
  plan.flatMap fun round => t.sendEvents round i ++ t.receiveEvents round i

@[simp] theorem script_nil (i : Fin t.size) : t.script [] i = [] := rfl

theorem script_cons (round : Round t.size) (plan : List (Round t.size)) (i : Fin t.size) :
    t.script (round :: plan) i =
      t.sendEvents round i ++ t.receiveEvents round i ++ t.script plan i :=
  List.flatMap_cons

@[simp] theorem script_append (plan plan' : List (Round t.size)) (i : Fin t.size) :
    t.script (plan ++ plan') i = t.script plan i ++ t.script plan' i :=
  List.flatMap_append

/-- A script up to a round, what is sent and received in it, and what comes after it. -/
theorem script_round (before after : List (Round t.size)) (round : Round t.size)
    (i : Fin t.size) :
    t.script (before ++ round :: after) i = t.script before i ++
      (t.sendEvents round i ++ (t.receiveEvents round i ++ t.script after i)) := by
  rw [script_append, script_cons, List.append_assoc]

theorem sendEvents_of_some {round : Round t.size} {i j : Fin t.size} {data : Bytes}
    (h : round.sends i = some (j, data)) : t.sendEvents round i = [.sent (t.rank j) data] := by
  rw [sendEvents, h]
  rfl

theorem sendEvents_of_none {round : Round t.size} {i : Fin t.size} (h : round.sends i = none) :
    t.sendEvents round i = [] := by
  rw [sendEvents, h]
  rfl

theorem receiveEvents_of_some {round : Round t.size} {i j : Fin t.size} {data : Bytes}
    (h : round.receives i = some (j, data)) :
    t.receiveEvents round i = [.received (t.rank j) data] := by
  rw [receiveEvents, h]
  rfl

theorem receiveEvents_of_none {round : Round t.size} {i : Fin t.size}
    (h : round.receives i = none) : t.receiveEvents round i = [] := by
  rw [receiveEvents, h]
  rfl

theorem messagesTo_sendEvents (round : Round t.size) (i j : Fin t.size) :
    messagesTo (t.rank j) (t.sendEvents round i) =
      (((round.sends i).filter fun m => m.1 = j).map Prod.snd).toList := by
  unfold sendEvents
  cases round.sends i with
  | none => rfl
  | some m => by_cases h : m.1 = j <;> simp [h, Option.filter]

theorem messagesFrom_receiveEvents (round : Round t.size) (i j : Fin t.size) :
    messagesFrom (t.rank i) (t.receiveEvents round j) =
      (((round.receives j).filter fun m => m.1 = i).map Prod.snd).toList := by
  unfold receiveEvents
  cases round.receives j with
  | none => rfl
  | some m => by_cases h : m.1 = i <;> simp [h, Option.filter]

@[simp] theorem messagesTo_receiveEvents (dest : Rank) (round : Round t.size)
    (i : Fin t.size) : messagesTo dest (t.receiveEvents round i) = [] := by
  unfold receiveEvents
  cases round.receives i <;> rfl

@[simp] theorem messagesFrom_sendEvents (src : Rank) (round : Round t.size)
    (i : Fin t.size) : messagesFrom src (t.sendEvents round i) = [] := by
  unfold sendEvents
  cases round.sends i <;> rfl

theorem filter_sends_eq (round : Round t.size) (i j : Fin t.size) :
    ((round.sends i).filter fun m => m.1 = j).map Prod.snd =
      ((round.receives j).filter fun m => m.1 = i).map Prod.snd := by
  ext data
  simp only [Option.map_eq_some_iff, Option.filter_eq_some_iff, decide_eq_true_eq, Prod.exists]
  constructor
  · rintro ⟨j', data', ⟨hs, rfl⟩, rfl⟩
    exact ⟨i, data', ⟨(round.matched _ _ _).1 hs, rfl⟩, rfl⟩
  · rintro ⟨i', data', ⟨hr, rfl⟩, rfl⟩
    exact ⟨j, data', ⟨(round.matched _ _ _).2 hr, rfl⟩, rfl⟩

/-- A plan has one member send to another what it has the other receive from the one. -/
theorem messagesTo_script (plan : List (Round t.size)) (i j : Fin t.size) :
    messagesTo (t.rank j) (t.script plan i) = messagesFrom (t.rank i) (t.script plan j) := by
  induction plan with
  | nil => rfl
  | cons round plan ih =>
    rw [script_cons, script_cons]
    simp only [messagesTo_append, messagesFrom_append, messagesTo_receiveEvents,
      messagesFrom_sendEvents, List.append_nil, List.nil_append]
    rw [messagesTo_sendEvents, messagesFrom_receiveEvents, filter_sends_eq, ih]

/-- The next message on the way to a member is the one that the plan has it receive, if the plan
has the sender send what it has sent. -/
theorem data_eq_of_planned {t : Team} {plan : List (Round t.size)} {i j : Fin t.size}
    {history later sent : List Event} {data data' : Bytes} {queued : List Bytes}
    (hs : t.script plan i = history ++ .received (t.rank j) data' :: later)
    (hbegun : messagesTo (t.rank i) sent <+: messagesTo (t.rank i) (t.script plan j))
    (hsent : messagesTo (t.rank i) sent = messagesFrom (t.rank j) history ++ data :: queued) :
    data = data' := by
  have hplanned := t.messagesTo_script plan j i
  rw [hs, messagesFrom_append, messagesFrom_received, if_pos rfl] at hplanned
  rw [hplanned, hsent, List.prefix_append_right_inj] at hbegun
  exact (List.cons_prefix_cons.1 hbegun).1

/-- A plan has members send to members and receive from members, and nothing else. -/
theorem of_mem_script {plan : List (Round t.size)} {i : Fin t.size} {event : Event}
    (h : event ∈ t.script plan i) :
    ∃ j data, event = .sent (t.rank j) data ∨ event = .received (t.rank j) data := by
  obtain ⟨round, -, h⟩ := List.mem_flatMap.1 h
  rcases List.mem_append.1 h with h | h
  · obtain ⟨m, -, rfl⟩ := List.mem_map.1 h
    exact ⟨m.1, m.2, .inl rfl⟩
  · obtain ⟨m, -, rfl⟩ := List.mem_map.1 h
    exact ⟨m.1, m.2, .inr rfl⟩

theorem exists_of_received_mem_script {plan : List (Round t.size)} {i : Fin t.size}
    {src : Rank} {data : Bytes} (h : .received src data ∈ t.script plan i) :
    ∃ j, src = t.rank j := by
  obtain ⟨j, data', heq | heq⟩ := t.of_mem_script h
  · cases heq
  · cases heq
    exact ⟨j, rfl⟩

end Team

/-! ## One member on its script -/

/-- How far a member can have come that follows a script to its result. -/
inductive Progress (script : List Event) (result : Bytes) : Status → List Event → Prop where
  | running {p : Program Bytes} {history rest : List Event} (hs : script = history ++ rest)
      (hp : p.Runs rest (.ret result)) : Progress script result (.running p) history
  | finished : Progress script result (.finished (.ok result)) (script ++ [.retired])

namespace Progress

variable {script history new : List Event} {result : Bytes} {s : Status}

/-- A member on its script is under way, with the rest of the script before it, or it has
ended with its result. -/
theorem running_or_finished (h : Progress script result s history) :
    (∃ p rest, s = .running p ∧ script = history ++ rest ∧ p.Runs rest (.ret result)) ∨
      s = .finished (.ok result) := by
  cases h with
  | running hs hp => exact .inl ⟨_, _, rfl, hs, hp⟩
  | finished => exact .inr rfl

/-- Whatever a member has sent is the beginning of what its script has it send. -/
theorem messagesTo_mono (h : Progress script result s history) (dest : Rank) :
    messagesTo dest history <+: messagesTo dest script := by
  cases h with
  | running hs hp => exact Collectives.messagesTo_mono dest ⟨_, hs.symm⟩
  | finished =>
    have hscript : messagesTo dest (script ++ [.retired]) = messagesTo dest script := by
      rw [messagesTo_append, messagesTo_retired, messagesTo_nil, List.append_nil]
    exact ⟨[], by rw [List.append_nil, hscript]⟩

/-- A step keeps to the script, when no send is refused and no receive is answered with an error,
and the message that is taken is the one in the script. -/
theorem stepEffect {r r' : Recorded Mesh} {own : Rank} {tag : Tag} {p : Program Bytes}
    (h : Progress script result (.running p) history) (heffect : StepEffect r own tag p new s r')
    (hnew : ∀ dest data, new ≠ [.sendFailed dest data])
    (hranks : ∀ src next, p = .recv src next →
      own.toNat < r.network.size ∧ src.toNat < r.network.size)
    (hq : ∀ src data rest, r.network.queue src own tag = data :: rest →
      ∀ data' rest', script = history ++ .received src data' :: rest' → data = data') :
    Progress script result s (history ++ new) := by
  cases h with
  | @running _ _ rest hs hp =>
    cases heffect with
    | ended outcome =>
      cases outcome with
      | error e => cases hp
      | ok value =>
        obtain ⟨rfl, hv⟩ := hp.of_ret
        cases hv
        rw [List.append_nil] at hs
        rw [← hs]
        exact .finished
    | crashed => cases hp
    | reported entry next =>
      cases hp with
      | report hp => exact .running (by rwa [List.append_nil]) hp
    | sent data next hdest =>
      cases hp with
      | sent hp => exact .running (by rw [hs, List.append_assoc]; rfl) hp
    | refused data next cause => exact absurd rfl (hnew _ data)
    | received next hown hsrc hqueue =>
      cases hp with
      | received hp =>
        obtain rfl := hq _ _ _ hqueue _ _ hs
        exact .running (by rw [hs, List.append_assoc]; rfl) hp
    | unanswered next cause hnone => exact absurd (hranks _ next rfl) hnone
    | waiting next hown hsrc hqueue => exact .running (by rwa [List.append_nil]) hp

/-- A member that has come to some place of its script has passed it, or what follows is
still before it. -/
theorem passed_or_next (h : Progress script result s history) {a b : List Event}
    {event : Event} (hs : script = a ++ event :: b) (ha : a <+: history) :
    a ++ [event] <+: history ∨
      history = a ∧ ∃ p, s = .running p ∧ p.Runs (event :: b) (.ret result) := by
  cases h with
  | @running p _ rest hscript hp =>
    obtain ⟨c, rfl⟩ := ha
    rw [hs, List.append_assoc, List.append_cancel_left_eq] at hscript
    cases c with
    | nil =>
      rw [List.nil_append] at hscript
      rw [← hscript] at hp
      exact .inr ⟨List.append_nil a, p, rfl, hp⟩
    | cons x c =>
      rw [List.cons_append, List.cons.injEq] at hscript
      rw [hscript.1]
      exact .inl ⟨c, by simp⟩
  | finished =>
    rw [hs]
    exact .inl ⟨b ++ [.retired], by simp⟩

/-- A member that has passed all of its script has come to its end, unless it has its end before
it. -/
theorem finished_of_passed (h : Progress script result s history) (hall : script <+: history)
    (hwaits : ∀ p, s = .running p → ∃ src next, p = .recv src next) :
    s = .finished (.ok result) := by
  rcases h.running_or_finished with ⟨p, rest, rfl, hscript, hp⟩ | rfl
  · exfalso
    obtain ⟨src, next, rfl⟩ := hwaits p rfl
    have hle := hall.length_le
    rw [hscript, List.length_append] at hle
    cases hp with
    | received hp =>
      rw [List.length_cons] at hle
      omega
  · rfl

end Progress

/-! ## Nobody can go on by itself -/

namespace Team

variable {t : Team} {plan : List (Round t.size)} {history : Fin t.size → List Event}

/-- No member can go on by itself: one that has come to some place of its script has passed it,
or it waits there for a message that was not sent. -/
def Halted (t : Team) (plan : List (Round t.size)) (history : Fin t.size → List Event) : Prop :=
  ∀ (i : Fin t.size) (a b : List Event) (event : Event), t.script plan i = a ++ event :: b →
    a <+: history i → a ++ [event] <+: history i ∨
      ∃ j data, event = .received (t.rank j) data ∧
        messagesTo (t.rank i) (history j) = messagesFrom (t.rank j) a

namespace Halted

section

variable {before after : List (Round t.size)} {round : Round t.size}

/-- A member that has completed the rounds before has sent its message. -/
theorem sent (h : t.Halted plan history) (hplan : plan = before ++ round :: after)
    {i : Fin t.size} (hbefore : t.script before i <+: history i) :
    t.script before i ++ t.sendEvents round i <+: history i := by
  have hi := t.script_round before after round i
  rw [← hplan] at hi
  rcases hsends : round.sends i with _ | ⟨j, data⟩
  · rwa [t.sendEvents_of_none hsends, List.append_nil]
  · rw [t.sendEvents_of_some hsends, List.singleton_append] at hi
    rw [t.sendEvents_of_some hsends]
    rcases h i _ _ _ hi hbefore with hpassed | ⟨j', data', hwaits, -⟩
    · exact hpassed
    · cases hwaits

/-- All members have completed a round, if all have completed those before it: first they have
all sent, and then they have all received. -/
theorem passed_succ (h : t.Halted plan history) (hplan : plan = before ++ round :: after)
    (hbefore : ∀ i, t.script before i <+: history i) (i : Fin t.size) :
    t.script (before ++ [round]) i <+: history i := by
  have hsent := fun i => h.sent hplan (hbefore i)
  have hi := t.script_round before after round i
  rw [← hplan, ← List.append_assoc] at hi
  rw [script_append, script_cons, script_nil, List.append_nil, ← List.append_assoc]
  rcases hreceives : round.receives i with _ | ⟨j, data⟩
  · rw [t.receiveEvents_of_none hreceives, List.append_nil]
    exact hsent i
  · rw [t.receiveEvents_of_some hreceives, List.singleton_append] at hi
    rw [t.receiveEvents_of_some hreceives]
    rcases h i _ _ _ hi (hsent i) with hpassed | ⟨j', data', hwaits, hempty⟩
    · exact hpassed
    · -- the sender has sent this message, and it is one more than were received
      rw [Event.received.injEq, rank_inj] at hwaits
      obtain ⟨rfl, rfl⟩ := hwaits
      exfalso
      have hsends := (round.matched j i data).2 hreceives
      have hle := (messagesTo_mono (t.rank i) (hsent j)).length_le
      rw [hempty, messagesFrom_append, messagesFrom_sendEvents, List.append_nil,
        ← t.messagesTo_script, messagesTo_append, t.sendEvents_of_some hsends,
        messagesTo_sent, if_pos rfl, messagesTo_nil, List.length_append,
        List.length_singleton] at hle
      omega

end

/-- Where no member can go on by itself, all have come to the end of the plan. -/
theorem passed (h : t.Halted plan history) (i : Fin t.size) : t.script plan i <+: history i := by
  have hpassed : ∀ before after, plan = before ++ after →
      ∀ i, t.script before i <+: history i := by
    intro before
    induction before using List.reverseRecOn with
    | nil => exact fun _ _ _ => List.nil_prefix
    | append_singleton before round ih =>
      intro after hplan
      rw [List.append_assoc] at hplan
      exact h.passed_succ hplan (ih _ hplan)
  exact hpassed plan [] (List.append_nil plan).symm i

end Halted

variable {result : Fin t.size → Bytes} {status : Fin t.size → Status}

/-- When all members are on their scripts, and those that have not ended wait for messages that
were not sent, no member can go on by itself. -/
theorem Halted.of_waits
    (hprogress : ∀ i, Progress (t.script plan i) (result i) (status i) (history i))
    (hwaits : ∀ i p, status i = .running p → ∃ src next, p = .recv src next ∧
      ∀ j, src = t.rank j →
        messagesTo (t.rank i) (history j) = messagesFrom (t.rank j) (history i)) :
    t.Halted plan history := by
  intro i a b event hscript ha
  rcases (hprogress i).passed_or_next hscript ha with hpassed | ⟨hevents, p, hp, hruns⟩
  · exact .inl hpassed
  · obtain ⟨src, next, rfl, hsent⟩ := hwaits i p hp
    cases hruns with
    | @received _ data _ _ _ _ =>
      have hmem : .received src data ∈ t.script plan i := by rw [hscript]; simp
      obtain ⟨j, rfl⟩ := exists_of_received_mem_script t hmem
      refine .inr ⟨j, data, rfl, ?_⟩
      rw [hsent j rfl, hevents]

/-- So there are none that have not ended. -/
theorem finished_of_waits
    (hprogress : ∀ i, Progress (t.script plan i) (result i) (status i) (history i))
    (hwaits : ∀ i p, status i = .running p → ∃ src next, p = .recv src next ∧
      ∀ j, src = t.rank j →
        messagesTo (t.rank i) (history j) = messagesFrom (t.rank j) (history i))
    (i : Fin t.size) : status i = .finished (.ok (result i)) := by
  refine (hprogress i).finished_of_passed ((Halted.of_waits hprogress hwaits).passed i) ?_
  intro p hp
  obtain ⟨src, next, heq, -⟩ := hwaits i p hp
  exact ⟨src, next, heq⟩

end Team

/-! ## All members on their scripts -/

namespace Team

variable {t : Team} {plan : List (Round t.size)} {program : Fin t.size → Program Bytes}
  {result : Fin t.size → Bytes} {e : Executor (Recorded Mesh)}

/-- The state is coherent and every member has come to some place of its script. -/
structure OnPlan (t : Team) (plan : List (Round t.size)) (program : Fin t.size → Program Bytes)
    (result : Fin t.size → Bytes) (e : Executor (Recorded Mesh)) : Prop where
  coherent : e.Coherent (t.origin program)
  progress : ∀ i : Fin t.size, ∃ s, e.tasks[i.val]? = some ⟨t.rank i, t.tag, s⟩ ∧
    Progress (t.script plan i) (result i) s (e.network.events (t.rank i) t.tag)

namespace OnPlan

theorem traced (hamong : ∀ i, (program i).Among (· ∈ t.ranks))
    (hruns : ∀ i, (program i).Runs (t.script plan i) (.ret (result i))) :
    t.OnPlan plan program result (t.traced program) :=
  ⟨coherent_traced hamong, fun i => ⟨_, t.getElem?_tasks program i, .running rfl (hruns i)⟩⟩

/-- The message that a member takes is the one that the plan has it receive. -/
theorem data_eq (h : t.OnPlan plan program result e) {i : Fin t.size} {p : Program Bytes}
    (hi : e.tasks[i.val]? = some ⟨t.rank i, t.tag, .running p⟩) {src : Rank}
    {data data' : Bytes} {queued : List Bytes} {later : List Event}
    (hq : e.network.network.queue src (t.rank i) t.tag = data :: queued)
    (hs : t.script plan i =
      e.network.events (t.rank i) t.tag ++ .received src data' :: later) : data = data' := by
  have hmem : .received src data' ∈ t.script plan i := by rw [hs]; simp
  obtain ⟨j, rfl⟩ := exists_of_received_mem_script t hmem
  have hsent := h.coherent.conserved hi rfl (t.rank j)
  rw [Recorded.Conserved, hq] at hsent
  obtain ⟨s, -, hprogress⟩ := h.progress j
  exact data_eq_of_planned hs (hprogress.messagesTo_mono (t.rank i)) hsent

theorem step (h : t.OnPlan plan program result e) (k : TaskId) :
    t.OnPlan plan program result (e.step k).2 := by
  refine ⟨h.coherent.step k, ?_⟩
  intro i
  obtain ⟨s, hi, hprogress⟩ := h.progress i
  by_cases hik : i.val = k
  · subst hik
    rcases h.coherent.step_cases i with heq | ⟨task, p, new, s', hk, hp, htasks, -, hturn⟩
    · rw [heq]
      exact ⟨s, hi, hprogress⟩
    · rw [hi, Option.some_inj] at hk
      subst hk
      cases hp
      refine ⟨s', ?_, ?_⟩
      · rw [htasks, List.getElem?_set_self (List.getElem?_eq_some_iff.1 hi).1]
      · rw [hturn.stepEffect.events_eq, if_pos ⟨rfl, rfl⟩]
        refine hprogress.stepEffect hturn.stepEffect hturn.not_refused ?_
          fun src data rest hq data' rest' hs =>
          h.data_eq hi hq hs
        rintro src next rfl
        exact hturn.lt_size
  · obtain ⟨htask, hevents⟩ := h.coherent.step_of_ne hik hi
    exact ⟨s, htask, by rwa [hevents]⟩

/-- Every schedule keeps all members on their scripts. -/
theorem reaches {e₀ : Executor (Recorded Mesh)} (h : t.OnPlan plan program result e₀)
    (he : e₀.Reaches e) : t.OnPlan plan program result e := by
  induction he with
  | refl => exact h
  | step _ k ih => exact ih.step k
  | requeue _ ready ih => exact ⟨ih.coherent.requeue ready, ih.progress⟩

/-- A member that is under way has done a part of its script, and has come to where that part
leads its program. -/
theorem runs_of_running (h : t.OnPlan plan program result e) {i : Fin t.size}
    {p : Program Bytes} (hp : e.status? i = some (.running p)) :
    (program i).Runs (e.network.events (t.rank i) t.tag) p ∧
      e.network.events (t.rank i) t.tag <+: t.script plan i := by
  obtain ⟨s, hi, hprogress⟩ := h.progress i
  rw [Executor.status?, hi, Option.map_some, Option.some_inj] at hp
  obtain rfl : s = .running p := hp
  have hafter := (h.coherent.after hi).runs
  rw [t.origin_val] at hafter
  rcases hprogress.running_or_finished with ⟨_, rest, -, hscript, -⟩ | hfinished
  · exact ⟨hafter, rest, hscript.symm⟩
  · cases hfinished

/-! ## Nobody is stuck -/

/-- In a stuck state every member has come to its end. -/
theorem finished_of_stuck (h : t.OnPlan plan program result e) (hs : e.Stuck)
    (i : Fin t.size) : e.status? i = some (.finished (.ok (result i))) := by
  choose status htask hprogress using h.progress
  rw [Executor.status?, htask, finished_of_waits hprogress ?_ i]
  · rfl
  · intro i p hp
    have hi := htask i
    rw [hp] at hi
    obtain ⟨src, next, rfl, hq⟩ := h.coherent.waits_of_stuck hs hi rfl
    refine ⟨src, next, rfl, ?_⟩
    rintro j rfl
    have hsent := h.coherent.conserved hi rfl (t.rank j)
    rwa [Recorded.Conserved, hq, List.append_nil] at hsent

end OnPlan

/-- When the program of each member runs to its result along its script, the results are
delivered under every schedule. -/
theorem delivers_traced (hamong : ∀ i, (program i).Among (· ∈ t.ranks))
    (hruns : ∀ i, (program i).Runs (t.script plan i) (.ret (result i))) :
    (t.traced program).Delivers result := by
  refine .of_live ?_ ?_
  · intro e he i
    obtain ⟨s, hget, hprogress⟩ := ((OnPlan.traced hamong hruns).reaches he).progress i
    rw [Executor.status?, hget]
    rcases hprogress.running_or_finished with ⟨p, -, rfl, -, -⟩ | rfl
    · exact .inl ⟨p, rfl⟩
    · exact .inr rfl
  · intro e he hunfinished
    obtain ⟨i, hi⟩ := hunfinished
    by_contra hnone
    have hstuck : e.Stuck := by
      intro k
      exact Bool.eq_false_iff.2 fun hk => hnone ⟨k, hk⟩
    exact hi (((OnPlan.traced hamong hruns).reaches he).finished_of_stuck hstuck i)

theorem delivers_of_plan (hamong : ∀ i, (program i).Among (· ∈ t.ranks))
    (hruns : ∀ i, (program i).Runs (t.script plan i) (.ret (result i))) :
    (t.run program).Delivers result := by
  rw [← t.forget_traced]
  exact (delivers_traced hamong hruns).forget

/-- The programs of the members follow a plan, and each of them stops at the first communication
that fails. -/
structure Realizes (t : Team) (plan : List (Round t.size))
    (program : Fin t.size → Program Bytes) (result : Fin t.size → Bytes) : Prop where
  through : ∀ i, (program i).Through (t.exchange i)
  runs : ∀ i, (program i).Runs (t.script plan i) (.ret (result i))

theorem Realizes.delivers (h : t.Realizes plan program result) :
    (t.run program).Delivers result :=
  delivers_of_plan (fun i => (h.through i).among) h.runs

end Team

end Collectives
