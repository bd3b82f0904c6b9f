import Collectives.Task

/-!
# Histories

The history of a member is the list of what happened at its endpoint under one tag,
earliest first.  `messagesTo` and `messagesFrom` read off it what went to a rank and what
came from one.

* `Program.Runs`: what becomes of a program when its sends and receives are those of a
  history and none of them fails.  A history leaves a program no choice, so a run to a
  value can be cut anywhere (`Program.Runs.tail`) and the value is determined
  (`Program.Runs.ret_unique`).
* `Status.After`: how far a task has come that began with a given program.
* `Program.Among`: the ranks with which a program communicates, whatever it is answered.
-/

namespace Collectives

namespace Event

/-- The message, where the event is that it was sent to the given rank. -/
def sentTo? (dest : Rank) : Event → Option Bytes
  | .sent d data => if d = dest then some data else none
  | _ => none

/-- The message, where the event is that it was received from the given rank. -/
def receivedFrom? (src : Rank) : Event → Option Bytes
  | .received s data => if s = src then some data else none
  | _ => none

end Event

/-- The messages that a history sends to a rank, in order. -/
def messagesTo (dest : Rank) (history : List Event) : List Bytes :=
  history.filterMap (Event.sentTo? dest)

/-- The messages that a history receives from a rank, in order. -/
def messagesFrom (src : Rank) (history : List Event) : List Bytes :=
  history.filterMap (Event.receivedFrom? src)

@[simp] theorem messagesTo_nil (dest : Rank) : messagesTo dest [] = [] := rfl

@[simp] theorem messagesFrom_nil (src : Rank) : messagesFrom src [] = [] := rfl

@[simp] theorem messagesTo_append (dest : Rank) (h h' : List Event) :
    messagesTo dest (h ++ h') = messagesTo dest h ++ messagesTo dest h' :=
  List.filterMap_append

@[simp] theorem messagesFrom_append (src : Rank) (h h' : List Event) :
    messagesFrom src (h ++ h') = messagesFrom src h ++ messagesFrom src h' :=
  List.filterMap_append

@[simp] theorem messagesTo_sent (dest d : Rank) (data : Bytes) (h : List Event) :
    messagesTo dest (.sent d data :: h) =
      if d = dest then data :: messagesTo dest h else messagesTo dest h := by
  by_cases hd : d = dest <;> simp [messagesTo, Event.sentTo?, hd]

@[simp] theorem messagesTo_received (dest s : Rank) (data : Bytes) (h : List Event) :
    messagesTo dest (.received s data :: h) = messagesTo dest h := rfl

@[simp] theorem messagesTo_retired (dest : Rank) (h : List Event) :
    messagesTo dest (.retired :: h) = messagesTo dest h := rfl

@[simp] theorem messagesFrom_received (src s : Rank) (data : Bytes) (h : List Event) :
    messagesFrom src (.received s data :: h) =
      if s = src then data :: messagesFrom src h else messagesFrom src h := by
  by_cases hs : s = src <;> simp [messagesFrom, Event.receivedFrom?, hs]

@[simp] theorem messagesFrom_sent (src d : Rank) (data : Bytes) (h : List Event) :
    messagesFrom src (.sent d data :: h) = messagesFrom src h := rfl

@[simp] theorem messagesFrom_retired (src : Rank) (h : List Event) :
    messagesFrom src (.retired :: h) = messagesFrom src h := rfl

/-- Neither a message that was sent nor one that was received. -/
def Event.IsQuiet : Event → Prop
  | .sent .. | .received .. => False
  | .sendFailed .. | .retired | .abandoned => True

theorem Event.IsQuiet.messagesTo_eq {event : Event} (h : event.IsQuiet) (dest : Rank) :
    messagesTo dest [event] = [] := by
  cases event <;> first | exact h.elim | rfl

theorem Event.IsQuiet.messagesFrom_eq {event : Event} (h : event.IsQuiet) (src : Rank) :
    messagesFrom src [event] = [] := by
  cases event <;> first | exact h.elim | rfl

theorem mem_messagesTo {dest : Rank} {history : List Event} {data : Bytes} :
    data ∈ messagesTo dest history ↔ .sent dest data ∈ history := by
  induction history with
  | nil => simp
  | cons event history ih =>
    cases event with
    | sent d other =>
      rw [messagesTo_sent]
      by_cases h : d = dest
      · simp [h, ih]
      · have h' : dest ≠ d := fun heq => h heq.symm
        simp [h, h', ih]
    | received | sendFailed | retired | abandoned =>
      show data ∈ messagesTo dest history ↔ _
      rw [ih, List.mem_cons]
      exact ⟨.inr, fun h => h.resolve_left nofun⟩

theorem messagesTo_mono (dest : Rank) {h h' : List Event} (hh : h <+: h') :
    messagesTo dest h <+: messagesTo dest h' :=
  hh.filterMap _

theorem messagesFrom_mono (src : Rank) {h h' : List Event} (hh : h <+: h') :
    messagesFrom src h <+: messagesFrom src h' :=
  hh.filterMap _

namespace Program

variable {α β : Type}

/-! ## Runs without failures -/

/-- With the sends and receives of a history, none of which fails, the first program
becomes the second.  Reports leave no trace in a history. -/
inductive Runs : Program α → List Event → Program α → Prop where
  | refl (p : Program α) : Runs p [] p
  | report {entry : Observation} {next q : Program α} {history : List Event}
      (h : Runs next history q) : Runs (.report entry next) history q
  | sent {dest : Rank} {data : Bytes} {next : Except Error Unit → Program α}
      {history : List Event} {q : Program α} (h : Runs (next (.ok ())) history q) :
      Runs (.send dest data next) (.sent dest data :: history) q
  | received {src : Rank} {data : Bytes} {next : Except Error Bytes → Program α}
      {history : List Event} {q : Program α} (h : Runs (next (.ok data)) history q) :
      Runs (.recv src next) (.received src data :: history) q

namespace Runs

theorem trans {p q r : Program α} {h h' : List Event} (hp : p.Runs h q) (hq : q.Runs h' r) :
    p.Runs (h ++ h') r := by
  induction hp with
  | refl p => exact hq
  | report _ ih => exact .report (ih hq)
  | sent _ ih => exact .sent (ih hq)
  | received _ ih => exact .received (ih hq)

theorem bind {p q : Program α} {h : List Event} (hp : p.Runs h q) (f : α → Program β) :
    (p >>= f).Runs h (q >>= f) := by
  induction hp with
  | refl p => exact .refl _
  | report _ ih => exact .report ih
  | sent _ ih => exact .sent ih
  | received _ ih => exact .received ih

/-- The parts of a program run one after the other. -/
theorem bind_ret {p : Program α} {a : α} {f : α → Program β} {h h' : List Event}
    {q : Program β} (hp : p.Runs h (.ret a)) (hf : (f a).Runs h' q) :
    (p >>= f).Runs (h ++ h') q :=
  (hp.bind f).trans hf

/-- A value does nothing more. -/
theorem of_ret {a : α} {h : List Event} {q : Program α} (hr : (ret a).Runs h q) :
    h = [] ∧ q = .ret a := by
  cases hr
  exact ⟨rfl, rfl⟩

/-- What is left of a run to a value after a part of it. -/
theorem tail {p q : Program α} {h rest : List Event} {a : α} (hp : p.Runs h q)
    (hr : p.Runs (h ++ rest) (.ret a)) : q.Runs rest (.ret a) := by
  induction hp with
  | refl p => exact hr
  | @report entry next q history _ ih =>
    generalize history ++ rest = whole at hr ih
    cases hr with
    | report hr => exact ih hr
  | sent _ ih =>
    cases hr with
    | sent hr => exact ih hr
  | received _ ih =>
    cases hr with
    | received hr => exact ih hr

/-- Of two histories that lead a program to a value none is the longer one, and the
values agree. -/
theorem ret_unique {p : Program α} {h h' : List Event} {a b : α} (hp : p.Runs h (.ret a))
    (hq : p.Runs h' (.ret b)) (hh : h <+: h') : h = h' ∧ a = b := by
  obtain ⟨rest, rfl⟩ := hh
  obtain ⟨rfl, hab⟩ := (hp.tail hq).of_ret
  cases hab
  exact ⟨(List.append_nil h).symm, rfl⟩

/-- A program made of two parts is still in the first, or in the second with the value
that the first has ended with. -/
theorem of_bind {p : Program α} {f : α → Program β} {h : List Event} {q : Program β}
    (hr : (p >>= f).Runs h q) :
    (∃ p', p.Runs h p' ∧ q = p' >>= f) ∨
      ∃ h₁ h₂ a, h = h₁ ++ h₂ ∧ p.Runs h₁ (.ret a) ∧ (f a).Runs h₂ q := by
  induction p generalizing h with
  | ret a => exact .inr ⟨[], h, a, rfl, .refl _, hr⟩
  | fail e =>
    cases hr
    exact .inl ⟨.fail e, .refl _, rfl⟩
  | crash =>
    cases hr
    exact .inl ⟨.crash, .refl _, rfl⟩
  | report entry next ih =>
    rw [report_bind] at hr
    cases hr with
    | refl => exact .inl ⟨_, .refl _, rfl⟩
    | report hr =>
      rcases ih hr with ⟨p', hp', rfl⟩ | ⟨h₁, h₂, a, rfl, h1, h2⟩
      · exact .inl ⟨p', .report hp', rfl⟩
      · exact .inr ⟨h₁, h₂, a, rfl, .report h1, h2⟩
  | send dest data next ih =>
    rw [send_bind] at hr
    cases hr with
    | refl => exact .inl ⟨_, .refl _, rfl⟩
    | sent hr =>
      rcases ih _ hr with ⟨p', hp', rfl⟩ | ⟨h₁, h₂, a, rfl, h1, h2⟩
      · exact .inl ⟨p', .sent hp', rfl⟩
      · exact .inr ⟨_ :: h₁, h₂, a, rfl, .sent h1, h2⟩
  | recv src next ih =>
    rw [recv_bind] at hr
    cases hr with
    | refl => exact .inl ⟨_, .refl _, rfl⟩
    | received hr =>
      rcases ih _ hr with ⟨p', hp', rfl⟩ | ⟨h₁, h₂, a, rfl, h1, h2⟩
      · exact .inl ⟨p', .received hp', rfl⟩
      · exact .inr ⟨_ :: h₁, h₂, a, rfl, .received h1, h2⟩

end Runs

/-! ## The ranks that a program addresses -/

/-- Whatever it is answered, the program communicates with these ranks only. -/
def Among (peer : Rank → Prop) : Program α → Prop
  | ret _ | fail _ | crash => True
  | report _ next => next.Among peer
  | send dest _ next => peer dest ∧ ∀ answer, (next answer).Among peer
  | recv src next => peer src ∧ ∀ answer, (next answer).Among peer

namespace Among

variable {peer : Rank → Prop}

theorem mono {peer' : Rank → Prop} (h : ∀ r, peer r → peer' r) {p : Program α}
    (hp : p.Among peer) : p.Among peer' := by
  induction p with
  | ret | fail | crash => trivial
  | report entry next ih => exact ih hp
  | send dest data next ih => exact ⟨h _ hp.1, fun answer => ih answer (hp.2 answer)⟩
  | recv src next ih => exact ⟨h _ hp.1, fun answer => ih answer (hp.2 answer)⟩

theorem bind {p : Program α} {f : α → Program β} (hp : p.Among peer)
    (hf : ∀ a, (f a).Among peer) : (p >>= f).Among peer := by
  induction p with
  | ret a => exact hf a
  | fail | crash => trivial
  | report entry next ih => exact ih hp
  | send dest data next ih => exact ⟨hp.1, fun answer => ih answer (hp.2 answer)⟩
  | recv src next ih => exact ⟨hp.1, fun answer => ih answer (hp.2 answer)⟩

end Among

end Program

/-! ## How far a task has come -/

/-- How far a task can have come that began with a given program and has this history.
A program that ended by itself has retired its tag. -/
inductive Status.After (p₀ : Program Bytes) : Status → List Event → Prop where
  | running {history : List Event} {p : Program Bytes} (h : p₀.Runs history p) :
      After p₀ (.running p) history
  | finished {history : List Event} {outcome : Except Error Bytes}
      (h : p₀.Runs history (.ofExcept outcome)) :
      After p₀ (.finished outcome) (history ++ [.retired])
  | crashed {history : List Event} (h : p₀.Runs history .crash) : After p₀ .crashed history

theorem Status.After.ne_aborting {p₀ : Program Bytes} {history : List Event} {s : Status}
    (h : s.After p₀ history) : s ≠ .aborting := by
  rintro rfl
  cases h

theorem Status.After.runs {p₀ p : Program Bytes} {history : List Event}
    (h : (Status.running p).After p₀ history) : p₀.Runs history p := by
  cases h with
  | running h => exact h

end Collectives
