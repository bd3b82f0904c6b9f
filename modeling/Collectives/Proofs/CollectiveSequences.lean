import Collectives.Probe
import Collectives.Proofs.CollectiveCalls

/-!
# Several collectives in turn

A custom algorithm may carry out several collectives, one after the other, on the exchange of its
own operation.  All their messages then go under one tag, and no message says to which collective
it belongs; members may be several collectives apart.

What keeps the collectives apart is that each of them has a plan.  When the programs of the members
are made of the same collectives in turn (`Program.InTurn`), they run along the plans of these one
after the other, and however far each member has come, its history falls into the parts that belong
to the single collectives, so that what was received in one of them was sent in it
(`Underway.split`).  So each collective ends at each member as if it were the only one
(`BuiltinCollective.keeps_apart`).
-/

namespace Collectives

/-! ## Programs made of parts -/

namespace Program

variable {α β γ : Type}

theorem Runs.attempt {p q : Program α} {h : List Event} (hp : p.Runs h q) :
    p.attempt.Runs h q.attempt := by
  induction hp with
  | refl p => exact .refl _
  | report _ ih => exact .report ih
  | sent _ ih => exact .sent ih
  | received _ ih => exact .received ih

theorem Among.attempt {peer : Rank → Prop} {p : Program α} (hp : p.Among peer) :
    p.attempt.Among peer := by
  induction p with
  | ret | fail | crash => trivial
  | report entry next ih => exact ih hp
  | send dest data next ih => exact ⟨hp.1, fun answer => ih answer (hp.2 answer)⟩
  | recv src next ih => exact ⟨hp.1, fun answer => ih answer (hp.2 answer)⟩

/-- Going on from a program whose value is only passed on. -/
theorem attempt_map_bind (g : α → β) (p : Program α) (f : Except Error β → Program γ) :
    (g <$> p).attempt >>= f = p.attempt >>= fun r => f (r.map g) := by
  induction p with
  | ret | fail | crash => rfl
  | report entry next ih => exact congrArg (report entry) ih
  | send dest data next ih => exact congrArg (send dest data) (funext ih)
  | recv src next ih => exact congrArg (recv src) (funext ih)

/-- The program is made of parts that are carried out in turn.  It breaks off when a part fails, or
it goes on in some other way.  What comes next may depend on how the parts before have ended; it is
as it should be where they have ended with their results. -/
inductive InTurn {κ : Type} (part : κ → Program Bytes) (result : κ → Bytes) :
    List κ → Program Bytes → Bytes → Prop where
  | done (value : Bytes) : InTurn part result [] (.ret value) value
  | reported {ms : List κ} {p : Program Bytes} {value : Bytes} (entry : Observation)
      (h : InTurn part result ms p value) : InTurn part result ms (.report entry p) value
  | bound {m : κ} {ms : List κ} {next : Bytes → Program Bytes} {value : Bytes}
      (h : InTurn part result ms (next (result m)) value) :
      InTurn part result (m :: ms) (part m >>= next) value
  | attempted {m : κ} {ms : List κ} {next : Except Error Bytes → Program Bytes} {value : Bytes}
      (h : InTurn part result ms (next (.ok (result m))) value) :
      InTurn part result (m :: ms) ((part m).attempt >>= next) value

/-- Such a program runs along the histories of its parts. -/
theorem InTurn.runs {κ : Type} {part : κ → Program Bytes} {result : κ → Bytes} {ms : List κ}
    {p : Program Bytes} {value : Bytes} (h : InTurn part result ms p value)
    {history : κ → List Event} (hpart : ∀ m, (part m).Runs (history m) (.ret (result m))) :
    p.Runs (ms.flatMap history) (.ret value) := by
  induction h with
  | done value => exact .refl _
  | reported entry _ ih => exact .report ih
  | bound _ ih =>
    rw [List.flatMap_cons]
    exact (hpart _).bind_ret ih
  | attempted _ ih =>
    rw [List.flatMap_cons]
    exact (hpart _).attempt.bind_ret ih

/-- A run to somewhere can be interrupted anywhere before. -/
theorem Runs.exists_of_append {p q : Program α} {h h' : List Event} (hr : p.Runs (h ++ h') q) :
    ∃ r, p.Runs h r := by
  generalize hwhole : h ++ h' = whole at hr
  induction hr generalizing h with
  | refl p =>
    obtain ⟨rfl, -⟩ := List.append_eq_nil_iff.1 hwhole
    exact ⟨p, .refl p⟩
  | report _ ih =>
    obtain ⟨r, hr⟩ := ih hwhole
    exact ⟨r, .report hr⟩
  | @sent dest data next history q _ ih =>
    cases h with
    | nil => exact ⟨_, .refl _⟩
    | cons event h =>
      rw [List.cons_append, List.cons.injEq] at hwhole
      obtain ⟨rfl, hwhole⟩ := hwhole
      obtain ⟨r, hr⟩ := ih hwhole
      exact ⟨r, .sent hr⟩
  | @received src data next history q _ ih =>
    cases h with
    | nil => exact ⟨_, .refl _⟩
    | cons event h =>
      rw [List.cons_append, List.cons.injEq] at hwhole
      obtain ⟨rfl, hwhole⟩ := hwhole
      obtain ⟨r, hr⟩ := ih hwhole
      exact ⟨r, .received hr⟩

end Program

/-! ## Histories made of parts -/

/-- A part of two scripts is a part of the first, or all of the first and a part of the second. -/
theorem exists_cut {history script script' : List Event} (h : history <+: script ++ script') :
    ∃ first rest, history = first ++ rest ∧ first <+: script ∧ rest <+: script' ∧
      (rest ≠ [] → first = script) := by
  rcases List.prefix_or_prefix_of_prefix h (List.prefix_append script script') with
    hle | ⟨rest, rfl⟩
  · exact ⟨history, [], (List.append_nil _).symm, hle, List.nil_prefix, absurd rfl⟩
  · exact ⟨script, rest, rfl, List.prefix_rfl, (List.prefix_append_right_inj _).1 h, fun _ => rfl⟩

section

variable {t : Team} {plan plan' : List (Round t.size)} {done : Fin t.size → List Event}

/-- What the members have done of two plans falls into what they have done of each.  A member goes
on to the second plan only when it has done all of the first; but another may still be there. -/
theorem Underway.split (h : Underway t (plan ++ plan') done) :
    ∃ first rest, done = (fun i => first i ++ rest i) ∧ Underway t plan first ∧
      Underway t plan' rest ∧ ∀ i, rest i ≠ [] → first i = t.script plan i := by
  have hcut : ∀ i, ∃ first rest, done i = first ++ rest ∧ first <+: t.script plan i ∧
      rest <+: t.script plan' i ∧ (rest ≠ [] → first = t.script plan i) := by
    intro i
    have hi := h.begun i
    rw [t.script_append] at hi
    exact exists_cut hi
  choose first rest hdone hfirst hrest hcomplete using hcut
  have hmatched : ∀ i j,
      messagesFrom (t.rank j) (first i) ++ messagesFrom (t.rank j) (rest i) <+:
        messagesTo (t.rank i) (first j) ++ messagesTo (t.rank i) (rest j) := by
    intro i j
    have hij := h.matched i j
    rwa [hdone, hdone, messagesFrom_append, messagesTo_append] at hij
  refine ⟨first, rest, funext hdone, ⟨hfirst, ?_⟩, ⟨hrest, ?_⟩, hcomplete⟩
  · intro i j
    have hij := (List.prefix_append _ _).trans (hmatched i j)
    by_cases hj : rest j = []
    · rwa [hj, messagesTo_nil, List.append_nil] at hij
    · -- all of the first plan was sent, and no more than that is received in it
      refine List.prefix_of_prefix_length_le hij (List.prefix_append _ _) ?_
      rw [hcomplete j hj, t.messagesTo_script plan j i]
      exact (messagesFrom_mono _ (hfirst i)).length_le
  · intro i j
    by_cases hi : rest i = []
    · rw [hi, messagesFrom_nil]
      exact List.nil_prefix
    · have hij := hmatched i j
      rw [hcomplete i hi, ← t.messagesTo_script plan j i] at hij
      by_cases hj : rest j = []
      · have hle := hij.length_le
        have hsent := (messagesTo_mono (t.rank i) (hfirst j)).length_le
        rw [hj, messagesTo_nil, List.append_nil, List.length_append] at hle
        have hnone : messagesFrom (t.rank j) (rest i) = [] :=
          List.eq_nil_of_length_eq_zero (by omega)
        rw [hnone]
        exact List.nil_prefix
      · rw [hcomplete j hj] at hij
        exact (List.prefix_append_right_inj _).1 hij

variable {program : Fin t.size → Program Bytes} {result : Fin t.size → Bytes}
  {e : Executor (Recorded Mesh)}

/-- What the members have done, where all are on their scripts. -/
theorem Team.OnPlan.exists_underway (h : t.OnPlan plan program result e) :
    ∃ done, Underway t plan done ∧ ∀ i,
      (e.network.events (t.rank i) t.tag = done i ∨
        e.network.events (t.rank i) t.tag = done i ++ [.retired]) ∧
      (e.status? i = some (.finished (.ok (result i))) → done i = t.script plan i) := by
  have hmember : ∀ i, ∃ done, done <+: t.script plan i ∧
      (e.network.events (t.rank i) t.tag = done ∨
        e.network.events (t.rank i) t.tag = done ++ [.retired]) ∧
      (e.status? i = some (.finished (.ok (result i))) → done = t.script plan i) := by
    intro i
    obtain ⟨s, hi, hprogress⟩ := h.progress i
    rw [Executor.status?, hi]
    generalize e.network.events (t.rank i) t.tag = history at hprogress
    cases hprogress with
    | running hs hp =>
      refine ⟨_, ⟨_, hs.symm⟩, .inl rfl, ?_⟩
      intro hfinished
      cases hfinished
    | finished => exact ⟨_, List.prefix_rfl, .inr rfl, fun _ => rfl⟩
  choose done hbegun hevents hended using hmember
  refine ⟨done, ⟨hbegun, ?_⟩, fun i => ⟨hevents i, hended i⟩⟩
  intro i j
  obtain ⟨s, hi, -⟩ := h.progress i
  have hconsumed := h.coherent.consumed hi (t.rank j)
  have hfrom : messagesFrom (t.rank j) (e.network.events (t.rank i) t.tag) =
      messagesFrom (t.rank j) (done i) := by
    rcases hevents i with heq | heq <;> simp [heq]
  have hto : messagesTo (t.rank i) (e.network.events (t.rank j) t.tag) =
      messagesTo (t.rank i) (done j) := by
    rcases hevents j with heq | heq <;> simp [heq]
  rwa [hfrom, hto] at hconsumed

end

/-! ## Collectives in turn -/

namespace BuiltinCollective

variable {t : Team}

/-- The histories of the members are made of those of the collectives.  In each of them every
member does what it does for this collective, and receives only what was sent for it.  A member that
has gone on, or has come to its end, has ended the collective with its result. -/
inductive Apart (t : Team) (result : BuiltinCollective t → Fin t.size → Bytes)
    (ended : Fin t.size → Prop) :
    List (BuiltinCollective t) → (Fin t.size → List Event) → Prop where
  | nil : Apart t result ended [] fun _ => []
  | cons {m : BuiltinCollective t} {ms : List (BuiltinCollective t)}
      {first rest : Fin t.size → List Event}
      (begun : ∀ i, ∃ p, (m.program i).Runs (first i) p)
      (complete : ∀ i, rest i ≠ [] ∨ ended i →
        (m.program i).Runs (first i) (.ret (result m i)))
      (matched : ∀ i j,
        messagesFrom (t.rank j) (first i) <+: messagesTo (t.rank i) (first j))
      (h : Apart t result ended ms rest) :
      Apart t result ended (m :: ms) fun i => first i ++ rest i

/-- What the members have done of the plans of the collectives. -/
theorem Apart.of_underway {plan : BuiltinCollective t → List (Round t.size)}
    {result : BuiltinCollective t → Fin t.size → Bytes} {ended : Fin t.size → Prop}
    (hruns : ∀ (m : BuiltinCollective t) i,
      (m.program i).Runs (t.script (plan m) i) (.ret (result m i)))
    {ms : List (BuiltinCollective t)} {done : Fin t.size → List Event}
    (h : Underway t (ms.flatMap plan) done)
    (hended : ∀ i, ended i → done i = t.script (ms.flatMap plan) i) :
    Apart t result ended ms done := by
  induction ms generalizing done with
  | nil =>
    have hnone : done = fun _ => [] := funext fun i => List.prefix_nil.1 (h.begun i)
    rw [hnone]
    exact .nil
  | cons m ms ih =>
    rw [List.flatMap_cons] at h hended
    obtain ⟨first, rest, rfl, hfirst, hrest, hcomplete⟩ := h.split
    have hboth : ∀ i, ended i →
        first i = t.script (plan m) i ∧ rest i = t.script (ms.flatMap plan) i := by
      intro i hi
      have hall : first i ++ rest i = t.script (plan m) i ++ t.script (ms.flatMap plan) i := by
        rw [← t.script_append]
        exact hended i hi
      have hlength := congrArg List.length hall
      rw [List.length_append, List.length_append] at hlength
      have hle := (hrest.begun i).length_le
      have heq : first i = t.script (plan m) i :=
        (hfirst.begun i).eq_of_length_le (by omega)
      rw [heq, List.append_cancel_left_eq] at hall
      exact ⟨heq, hall⟩
    refine .cons ?_ ?_ hfirst.matched (ih hrest fun i hi => (hboth i hi).2)
    · intro i
      obtain ⟨later, hlater⟩ := hfirst.begun i
      have hi := hruns m i
      rw [← hlater] at hi
      exact hi.exists_of_append
    · intro i hi
      have heq : first i = t.script (plan m) i :=
        hi.elim (hcomplete i) fun hend => (hboth i hend).1
      rw [heq]
      exact hruns m i

/-! ## Probes that delegate -/

section

variable (m : BuiltinCollective t) {i : Fin t.size} {job : Job}

/-- What a probe of a member asks for. -/
def delegation (i : Fin t.size) : Probe.Delegation :=
  ⟨⟨m.params.kind, m.dtype, m.name⟩, m.params, m.dtype, m.count i, m.input i⟩

theorem among_program (i : Fin t.size) : (m.program i).Among (· ∈ t.ranks) := by
  obtain ⟨plan, result, hrealizes, -⟩ := m.exists_plan
  exact (hrealizes.through i).among

/-- A probe that delegates the collective carries it out before it takes its other steps. -/
theorem play_delegate (hjob : job.exchange = t.exchange i) (latest : Option Error)
    (steps : List Probe.Step) :
    Probe.play .builtin job latest (.delegate (.ok (m.delegation i)) :: steps) =
      (m.program i).attempt >>= fun
        | .ok data => .report (.received data) (Probe.play .builtin job latest steps)
        | .error error => .report (.failed error) (Probe.play .builtin job (some error) steps) := by
  have hact : Probe.act .builtin (t.exchange i) (.delegate (.ok (m.delegation i))) =
      .received <$> m.program i := by
    show Observation.received <$> (Program.ofExcept (Registry.builtin.resolve _) >>= _) = _
    rw [delegation, m.resolved]
    rfl
  rw [Probe.play, hjob, hact, Program.attempt_map_bind]
  · refine congrArg (_ >>= ·) (funext fun r => ?_)
    cases r <;> rfl
  all_goals exact nofun

/-- A probe that delegates nothing but collectives carries them out in turn. -/
theorem inTurn_play {result : BuiltinCollective t → Fin t.size → Bytes}
    (hjob : job.exchange = t.exchange i) (latest : Option Error) (ms : List (BuiltinCollective t)) :
    Program.InTurn (fun m : BuiltinCollective t => m.program i) (fun m => result m i) ms
      (Probe.play .builtin job latest (ms.map fun m => .delegate (.ok (m.delegation i))))
      job.input := by
  induction ms with
  | nil => exact .done _
  | cons m ms ih =>
    rw [List.map_cons, m.play_delegate hjob]
    exact .attempted (.reported _ ih)

theorem among_play (hjob : job.exchange = t.exchange i) (latest : Option Error)
    (ms : List (BuiltinCollective t)) :
    (Probe.play .builtin job latest (ms.map fun m => .delegate (.ok (m.delegation i)))).Among
      (· ∈ t.ranks) := by
  induction ms generalizing latest with
  | nil => trivial
  | cons m ms ih =>
    rw [List.map_cons, m.play_delegate hjob]
    refine (m.among_program i).attempt.bind ?_
    rintro (error | data)
    · exact ih (some error)
    · exact ih latest

end

/-- When the members carry out the same collectives in turn, under every schedule each of them ends
at each member with the result that it has when it is carried out alone, and no message of one
collective is received in another. -/
theorem keeps_apart (t : Team) : ∃ result : BuiltinCollective t → Fin t.size → Bytes,
    (∀ m, (t.run m.program).Delivers (result m)) ∧
    ∀ (ms : List (BuiltinCollective t)) (custom : Fin t.size → Program Bytes)
      (value : Fin t.size → Bytes),
      (∀ i, (custom i).Among (· ∈ t.ranks)) →
      (∀ i, Program.InTurn (fun m : BuiltinCollective t => m.program i) (fun m => result m i) ms
        (custom i) (value i)) →
      (t.run custom).Delivers value ∧
      ∀ e, (t.traced custom).Reaches e → ∃ done,
        Apart t result (fun i => e.status? i = some (.finished (.ok (value i)))) ms done ∧
        ∀ i, e.network.events (t.rank i) t.tag = done i ∨
          e.network.events (t.rank i) t.tag = done i ++ [.retired] := by
  choose plan result hrealizes _ using fun m : BuiltinCollective t => m.exists_plan
  refine ⟨result, fun m => (hrealizes m).delivers, ?_⟩
  intro ms custom value hamong hturn
  have hruns : ∀ i, (custom i).Runs (t.script (ms.flatMap plan) i) (.ret (value i)) := by
    intro i
    have hscript : t.script (ms.flatMap plan) i = ms.flatMap fun m => t.script (plan m) i :=
      List.flatMap_assoc
    rw [hscript]
    exact (hturn i).runs fun m => (hrealizes m).runs i
  refine ⟨Team.delivers_of_plan hamong hruns, ?_⟩
  intro e he
  obtain ⟨done, hunderway, hdone⟩ := ((Team.OnPlan.traced hamong hruns).reaches he).exists_underway
  exact ⟨done, .of_underway (fun m => (hrealizes m).runs) hunderway fun i => (hdone i).2,
    fun i => (hdone i).1⟩

/-- Three members are told a number by the first of them. -/
def tell : BuiltinCollective CollectiveCall.summingTrio where
  params := .broadcast 0
  dtype := .int
  name := .sendToAll
  algorithm := .sendToAll
  count _ := 1
  input i := if i = 0 then DataType.int.encode [5] else []
  resolved := rfl
  valid := rfl
  rooted _ := rfl
  fits _ := rfl
  agreed := .inr fun _ _ => rfl
  declared := by
    intro (i : Fin 3) hroot
    have hi : i = 0 := (Fin.ext (hroot 0 rfl)).symm
    subst hi
    rfl

/-- They are told it twice, and then they add up their numbers. -/
def tellingTwice : List (BuiltinCollective CollectiveCall.summingTrio) :=
  [tell, tell, CollectiveCall.sum.collective]

/-- The probe of a member that delegates all of this. -/
def probe (i : Fin 3) : Program Bytes :=
  Probe.play .builtin (CollectiveCall.sum.collective.job i) none
    (tellingTwice.map fun m => .delegate (.ok (m.delegation i)))

/-- The first member has told its number twice when the others have not begun. -/
def ahead : Executor (Recorded Mesh) :=
  (CollectiveCall.summingTrio.traced probe).steps [0, 0, 0, 0, 0, 0]

/-- What it has done falls into parts of the three collectives, and in the end all come through. -/
theorem keeps_apart_trio :
    ahead.network.events 0 CollectiveCall.summingTrio.tag = [] ∧
      ahead.network.events 2 CollectiveCall.summingTrio.tag = [.sent 0 [5, 0, 0, 0],
        .sent 1 [5, 0, 0, 0], .sent 0 [5, 0, 0, 0], .sent 1 [5, 0, 0, 0]] ∧
      (CollectiveCall.summingTrio.run probe).Delivers
        (fun i : Fin 3 => DataType.int.encode [(![1, 10, 100] : Fin 3 → Int32) i]) ∧
      ∃ result done, Apart CollectiveCall.summingTrio result
        (fun i : Fin 3 => ahead.status? i =
          some (.finished (.ok (DataType.int.encode [(![1, 10, 100] : Fin 3 → Int32) i]))))
        tellingTwice done ∧
        done (0 : Fin 3) = ahead.network.events 2 CollectiveCall.summingTrio.tag := by
  have hevents : ahead.network.events 2 CollectiveCall.summingTrio.tag = [.sent 0 [5, 0, 0, 0],
      .sent 1 [5, 0, 0, 0], .sent 0 [5, 0, 0, 0], .sent 1 [5, 0, 0, 0]] := by rfl
  obtain ⟨result, -, hturns⟩ := keeps_apart CollectiveCall.summingTrio
  obtain ⟨hdelivers, hparts⟩ := hturns tellingTwice probe _
    (fun i => among_play rfl none tellingTwice) fun i => inTurn_play rfl none tellingTwice
  obtain ⟨done, hapart, hhistory⟩ := hparts ahead (Executor.reaches_steps _ _)
  refine ⟨by rfl, hevents, hdelivers, result, done, hapart, ?_⟩
  rcases hhistory (0 : Fin 3) with heq | heq
  · exact heq.symm
  · have hlast := congrArg List.getLast? (hevents.symm.trans heq)
    rw [List.getLast?_concat] at hlast
    cases hlast

end BuiltinCollective

end Collectives
