import Collectives.Proofs.Team

/-!
# Agendas

An agenda is what a member sends and receives as far as sizes go: a list of messages to and from
members, each of a known size.  A program follows an agenda when it goes through it whatever the
contents of the messages are, and fails with an error of the transport at the first message of
another size (`Program.Follows`).

The agendas of the members need not fit together.  Whatever the schedule, each member has worked
off a part of its agenda, and the sizes that it has received are the first of those that the
sender has sent (`Consistent`).  So a member that can never work off all of its agenda never
ends with a value (`Team.withholds_of_incomplete`).
-/

namespace Collectives

/-- A message of a known size, to or from a member. -/
inductive Act (n : Nat) where
  | send (dest : Fin n) (size : Nat)
  | recv (src : Fin n) (size : Nat)

section

variable {n : Nat}

/-- The sizes of what an agenda sends to a member, in order. -/
def sizesTo (dest : Fin n) (acts : List (Act n)) : List Nat :=
  acts.filterMap fun
    | .send j size => if j = dest then some size else none
    | .recv _ _ => none

/-- The sizes of what an agenda receives from a member, in order. -/
def sizesFrom (src : Fin n) (acts : List (Act n)) : List Nat :=
  acts.filterMap fun
    | .send _ _ => none
    | .recv j size => if j = src then some size else none

@[simp] theorem sizesTo_nil (dest : Fin n) : sizesTo dest [] = [] := rfl

@[simp] theorem sizesFrom_nil (src : Fin n) : sizesFrom src [] = [] := rfl

@[simp] theorem sizesTo_send (dest j : Fin n) (size : Nat) (acts : List (Act n)) :
    sizesTo dest (.send j size :: acts) =
      if j = dest then size :: sizesTo dest acts else sizesTo dest acts := by
  by_cases h : j = dest <;> simp [sizesTo, h]

@[simp] theorem sizesTo_recv (dest j : Fin n) (size : Nat) (acts : List (Act n)) :
    sizesTo dest (.recv j size :: acts) = sizesTo dest acts := rfl

@[simp] theorem sizesFrom_send (src j : Fin n) (size : Nat) (acts : List (Act n)) :
    sizesFrom src (.send j size :: acts) = sizesFrom src acts := rfl

@[simp] theorem sizesFrom_recv (src j : Fin n) (size : Nat) (acts : List (Act n)) :
    sizesFrom src (.recv j size :: acts) =
      if j = src then size :: sizesFrom src acts else sizesFrom src acts := by
  by_cases h : j = src <;> simp [sizesFrom, h]

theorem sizesTo_mono (dest : Fin n) {acts acts' : List (Act n)} (h : acts <+: acts') :
    sizesTo dest acts <+: sizesTo dest acts' :=
  h.filterMap _

theorem sizesFrom_mono (src : Fin n) {acts acts' : List (Act n)} (h : acts <+: acts') :
    sizesFrom src acts <+: sizesFrom src acts' :=
  h.filterMap _

theorem mem_sizesTo {dest : Fin n} {acts : List (Act n)} {size : Nat} :
    size ∈ sizesTo dest acts ↔ .send dest size ∈ acts := by
  induction acts with
  | nil => simp
  | cons act acts ih =>
    cases act with
    | send j s =>
      rw [sizesTo_send]
      by_cases h : j = dest
      · simp [h, ih]
      · have h' : dest ≠ j := fun heq => h heq.symm
        simp [h, h', ih]
    | recv j s => simp [ih]

theorem mem_sizesFrom {src : Fin n} {acts : List (Act n)} {size : Nat} :
    size ∈ sizesFrom src acts ↔ .recv src size ∈ acts := by
  induction acts with
  | nil => simp
  | cons act acts ih =>
    cases act with
    | send j s => simp [ih]
    | recv j s =>
      rw [sizesFrom_recv]
      by_cases h : j = src
      · simp [h, ih]
      · have h' : src ≠ j := fun heq => h heq.symm
        simp [h, h', ih]

/-- Each member has worked off a part of its agenda, and the sizes that it has received are the
first of those that were sent to it. -/
structure Consistent (agenda done : Fin n → List (Act n)) : Prop where
  begun : ∀ i, done i <+: agenda i
  matched : ∀ i j, sizesFrom j (done i) <+: sizesTo i (done j)

/-- What has been received has been sent. -/
theorem Consistent.send_mem {agenda done : Fin n → List (Act n)} (hc : Consistent agenda done)
    {i j : Fin n} {size : Nat} (h : .recv j size ∈ done i) : .send i size ∈ done j :=
  mem_sizesTo.1 ((hc.matched i j).subset (mem_sizesFrom.2 h))

end

/-! ## Programs that follow an agenda -/

/-- An error of the transport. -/
def Program.Refuses {α : Type} (p : Program α) : Prop :=
  ∃ error, p = .fail error ∧ error.category = .transport

/-- The program works off the agenda and ends with a value as required, or it fails with an
error of the transport at a message of another size than the agenda says. -/
inductive Program.Follows (t : Team) {α : Type} (post : α → Prop) :
    List (Act t.size) → Program α → Prop where
  | ret {a : α} (h : post a) : Follows t post [] (.ret a)
  | send {dest : Fin t.size} {data : Bytes} {next : Except Error Unit → Program α}
      {acts : List (Act t.size)} (h : Follows t post acts (next (.ok ()))) :
      Follows t post (.send dest data.length :: acts) (.send (t.rank dest) data next)
  | recv {src : Fin t.size} {size : Nat} {next : Except Error Bytes → Program α}
      {acts : List (Act t.size)}
      (h : ∀ data : Bytes, data.length = size → Follows t post acts (next (.ok data)))
      (hsize : ∀ data : Bytes, data.length ≠ size → (next (.ok data)).Refuses) :
      Follows t post (.recv src size :: acts) (.recv (t.rank src) next)

/-! ## Agendas and histories -/

/-- The history is that of a member that has worked off these acts, but for a message of a wrong
size that may be at its end. -/
structure Performed (t : Team) (done : List (Act t.size)) (history : List Event) : Prop where
  sent : ∀ j, (messagesTo (t.rank j) history).map List.length = sizesTo j done
  received : ∀ j, sizesFrom j done <+: (messagesFrom (t.rank j) history).map List.length

namespace Performed

variable {t : Team} {done : List (Act t.size)} {history : List Event}

theorem nil (t : Team) : Performed t [] [] :=
  ⟨fun _ => rfl, fun _ => List.prefix_rfl⟩

theorem cons_sent (h : Performed t done history) (dest : Fin t.size) (data : Bytes) :
    Performed t (.send dest data.length :: done) (.sent (t.rank dest) data :: history) := by
  refine ⟨?_, h.received⟩
  intro j
  rw [messagesTo_sent, sizesTo_send]
  by_cases hj : dest = j
  · rw [if_pos hj, if_pos (congrArg t.rank hj), List.map_cons, h.sent]
  · rw [if_neg hj, if_neg fun heq => hj (t.rank_injective heq), h.sent]

theorem cons_received (h : Performed t done history) (src : Fin t.size) (data : Bytes) :
    Performed t (.recv src data.length :: done) (.received (t.rank src) data :: history) := by
  refine ⟨h.sent, ?_⟩
  intro j
  rw [messagesFrom_received, sizesFrom_recv]
  by_cases hj : src = j
  · rw [if_pos hj, if_pos (congrArg t.rank hj), List.map_cons, List.prefix_cons_inj]
    exact h.received j
  · rw [if_neg hj, if_neg fun heq => hj (t.rank_injective heq)]
    exact h.received j

/-- A message of a wrong size is not one that the agenda has received. -/
theorem refused (t : Team) (src : Rank) (data : Bytes) : Performed t [] [.received src data] :=
  ⟨fun _ => rfl, fun _ => List.nil_prefix⟩

theorem retired (h : Performed t done history) : Performed t done (history ++ [.retired]) := by
  constructor
  · intro j
    rw [messagesTo_append, messagesTo_retired, messagesTo_nil, List.append_nil]
    exact h.sent j
  · intro j
    rw [messagesFrom_append, messagesFrom_retired, messagesFrom_nil, List.append_nil]
    exact h.received j

end Performed

/-- A program on its agenda has worked off a part of it and goes on with the rest, or it has met
a message of a wrong size. -/
theorem Program.Follows.of_runs {t : Team} {α : Type} {post : α → Prop}
    {agenda : List (Act t.size)} {p q : Program α} (h : p.Follows t post agenda)
    {history : List Event} (hr : p.Runs history q) :
    ∃ done rest, agenda = done ++ rest ∧ Performed t done history ∧
      (q.Follows t post rest ∨ q.Refuses) := by
  induction h generalizing history with
  | ret h =>
    obtain ⟨rfl, rfl⟩ := hr.of_ret
    exact ⟨[], [], rfl, .nil t, .inl (.ret h)⟩
  | @send dest data next acts h ih =>
    cases hr with
    | refl => exact ⟨[], _, rfl, .nil t, .inl (.send h)⟩
    | sent hr =>
      obtain ⟨done, rest, rfl, hdone, hq⟩ := ih hr
      exact ⟨_ :: done, rest, rfl, hdone.cons_sent dest data, hq⟩
  | @recv src size next acts h hsize ih =>
    cases hr with
    | refl => exact ⟨[], _, rfl, .nil t, .inl (.recv h hsize)⟩
    | @received _ data _ _ _ hr =>
      by_cases hdata : data.length = size
      · obtain ⟨done, rest, rfl, hdone, hq⟩ := ih data hdata hr
        subst hdata
        exact ⟨_ :: done, rest, rfl, hdone.cons_received src data, hq⟩
      · obtain ⟨error, hnext, herror⟩ := hsize data hdata
        rw [hnext] at hr
        cases hr
        exact ⟨[], _, rfl, .refused t _ data, .inr ⟨error, rfl, herror⟩⟩

/-- A task of which nothing is to be expected but that it waits or fails with an error of the
transport. -/
def Executor.Withholds {σ : Type} [Transport σ] (e₀ : Executor σ) (k : TaskId) : Prop :=
  ∀ e, e₀.Reaches e → (∃ p, e.status? k = some (.running p)) ∨
    ∃ error, e.status? k = some (.finished (.error error)) ∧ error.category = .transport

namespace Team

variable {t : Team} {program : Fin t.size → Program Bytes} {e : Executor (Recorded Mesh)}
  {agenda : Fin t.size → List (Act t.size)} {post : Bytes → Prop}

/-- What a member can have done of its agenda, and how far it has come. -/
theorem exists_performed (h : e.Coherent (t.origin program))
    (hfollows : ∀ i, (program i).Follows t post (agenda i)) {i : Fin t.size} {s : Status}
    (hi : e.tasks[i.val]? = some ⟨t.rank i, t.tag, s⟩) :
    ∃ done, done <+: agenda i ∧ Performed t done (e.network.events (t.rank i) t.tag) ∧
      ((∃ p, s = .running p) ∨ (∃ error, s = .finished (.error error) ∧
        error.category = .transport) ∨ done = agenda i) := by
  have hafter := h.after hi
  rw [t.origin_val] at hafter
  generalize e.network.events (t.rank i) t.tag = history at hafter ⊢
  cases hafter with
  | @running _ p hr =>
    obtain ⟨done, rest, heq, hdone, -⟩ := (hfollows i).of_runs hr
    exact ⟨done, ⟨rest, heq.symm⟩, hdone, .inl ⟨p, rfl⟩⟩
  | @finished history outcome hr =>
    obtain ⟨done, rest, heq, hdone, hq⟩ := (hfollows i).of_runs hr
    refine ⟨done, ⟨rest, heq.symm⟩, hdone.retired, .inr ?_⟩
    rcases hq with hq | ⟨error, hq, herror⟩
    · cases outcome with
      | error error => cases hq
      | ok value =>
        cases hq
        exact .inr (by rw [heq, List.append_nil])
    · cases outcome with
      | ok value => cases hq
      | error error' =>
        cases hq
        exact .inl ⟨error, rfl, herror⟩
  | crashed hr =>
    obtain ⟨done, rest, -, -, hq⟩ := (hfollows i).of_runs hr
    rcases hq with hq | ⟨error, hq, -⟩ <;> cases hq

/-- In every state that a schedule leads to, what the members have done of their agendas is
consistent. -/
theorem exists_consistent (hamong : ∀ i, (program i).Among (· ∈ t.ranks))
    (hfollows : ∀ i, (program i).Follows t post (agenda i))
    (he : (t.traced program).Reaches e) :
    ∃ done, Consistent agenda done ∧ ∀ i : Fin t.size, (∃ p, e.status? i = some (.running p)) ∨
      (∃ error, e.status? i = some (.finished (.error error)) ∧ error.category = .transport) ∨
      done i = agenda i := by
  obtain ⟨hcoherent, htasks⟩ := reaches_traced hamong he
  have hperformed : ∀ i, ∃ done, done <+: agenda i ∧
      Performed t done (e.network.events (t.rank i) t.tag) ∧
      ((∃ p, e.status? i = some (.running p)) ∨
        (∃ error, e.status? i = some (.finished (.error error)) ∧
          error.category = .transport) ∨ done = agenda i) := by
    intro i
    obtain ⟨s, hi⟩ := htasks i
    have hstatus : e.status? i = some s := by rw [Executor.status?, hi, Option.map_some]
    obtain ⟨done, hbegun, hdone, hs⟩ := exists_performed hcoherent hfollows hi
    simp only [hstatus, Option.some_inj]
    exact ⟨done, hbegun, hdone, hs⟩
  choose done hbegun hdone hstatus using hperformed
  refine ⟨done, ⟨hbegun, ?_⟩, hstatus⟩
  intro i j
  obtain ⟨s, hi⟩ := htasks i
  rw [← (hdone j).sent i]
  exact ((hdone i).received j).trans ((hcoherent.consumed hi (t.rank j)).map List.length)

/-- A member that cannot have worked off all of its agenda never ends with a value. -/
theorem withholds_of_incomplete (hamong : ∀ i, (program i).Among (· ∈ t.ranks))
    (hfollows : ∀ i, (program i).Follows t post (agenda i)) {i : Fin t.size}
    (h : ∀ done, Consistent agenda done → done i ≠ agenda i) : (t.run program).Withholds i := by
  intro e he
  rw [← t.forget_traced] at he
  obtain ⟨e', he', rfl⟩ := Executor.exists_of_forget he
  obtain ⟨done, hconsistent, hstatus⟩ := exists_consistent hamong hfollows he'
  rcases hstatus i with hrunning | hfailed | hdone
  · exact .inl hrunning
  · exact .inr hfailed
  · exact absurd hdone (h done hconsistent)

end Team

end Collectives
