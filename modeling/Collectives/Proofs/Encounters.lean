import Collectives.Proofs.Agenda
import Collectives.Proofs.FaultyRuns
import Mathlib.Data.List.Forall2

/-!
# Encounters

A transport may answer as it likes: a send succeeds or fails, a receive yields any bytes or an
error.  `Program.Meets` says where a program can come to, and what it encounters on its way, each
attempt to send or to receive with its answer.  Whatever the transport is, the tasks of an executor
come to nothing else (`Executor.stems_of_reaches`).

A program abides by an agenda when it attempts nothing but what is on the agenda, in this order, and
ends at the first attempt that fails, with the error that blames the member it failed with
(`Program.Abides`).  What is on the agenda may depend on the messages that have been received before
it, since a member may learn from these what to expect next.
-/

namespace Collectives

/-- What a program attempts, and what it is answered. -/
inductive Encounter where
  | sent (dest : Rank) (data : Bytes) (answer : Except Error Unit)
  | received (src : Rank) (answer : Except Error Bytes)

/-- The messages that were received, in order. -/
def heard (log : List Encounter) : List Bytes :=
  log.filterMap fun
    | .received _ (.ok data) => some data
    | _ => none

@[simp] theorem heard_nil : heard [] = [] := rfl

@[simp] theorem heard_sent (dest : Rank) (data : Bytes) (answer : Except Error Unit)
    (log : List Encounter) : heard (.sent dest data answer :: log) = heard log := rfl

@[simp] theorem heard_received (src : Rank) (data : Bytes) (log : List Encounter) :
    heard (.received src (.ok data) :: log) = data :: heard log := rfl

/-- With these encounters the first program becomes the second.  Nothing is assumed of the
answers. -/
inductive Program.Meets {α : Type} : Program α → List Encounter → Program α → Prop where
  | refl (p : Program α) : Meets p [] p
  | report {entry : Observation} {next q : Program α} {log : List Encounter}
      (h : Meets next log q) : Meets (.report entry next) log q
  | sent {dest : Rank} {data : Bytes} {next : Except Error Unit → Program α}
      {answer : Except Error Unit} {log : List Encounter} {q : Program α}
      (h : Meets (next answer) log q) :
      Meets (.send dest data next) (.sent dest data answer :: log) q
  | received {src : Rank} {next : Except Error Bytes → Program α}
      {answer : Except Error Bytes} {log : List Encounter} {q : Program α}
      (h : Meets (next answer) log q) : Meets (.recv src next) (.received src answer :: log) q

namespace Program.Meets

variable {α : Type}

theorem trans {p q r : Program α} {log log' : List Encounter} (hp : p.Meets log q)
    (hq : q.Meets log' r) : p.Meets (log ++ log') r := by
  induction hp with
  | refl p => exact hq
  | report _ ih => exact .report (ih hq)
  | sent _ ih => exact .sent (ih hq)
  | received _ ih => exact .received (ih hq)

end Program.Meets

/-! ## Every transport -/

/-- What can become of a task that begins with a program, with some encounters. -/
inductive Status.Stems (p : Program Bytes) : Status → Prop where
  | running {log : List Encounter} {q : Program Bytes} (h : p.Meets log q) : Stems p (.running q)
  | finished {log : List Encounter} {outcome : Except Error Bytes}
      (h : p.Meets log (.ofExcept outcome)) : Stems p (.finished outcome)
  | crashed {log : List Encounter} (h : p.Meets log .crash) : Stems p .crashed

section

variable {σ : Type} [Transport σ]

theorem stems_move (network : σ) (rank : Rank) (tag : Tag) {p q : Program Bytes}
    {log : List Encounter} (h : p.Meets log q) : (move network rank tag q).status.Stems p := by
  cases q with
  | ret value =>
    have hm : p.Meets log (.ofExcept (.ok value)) := h
    exact .finished hm
  | fail error =>
    have hm : p.Meets log (.ofExcept (.error error)) := h
    exact .finished hm
  | crash => exact .crashed h
  | report entry next => exact .running (h.trans (.report (.refl next)))
  | send dest data next => exact .running (h.trans (.sent (.refl _)))
  | recv src next =>
    simp only [move]
    split
    · exact .running (h.trans (.received (.refl _)))
    · exact .running h

namespace Executor

variable {e₀ e : Executor σ} {p : Program Bytes} {k : TaskId} {s : Status}

/-- Whichever task takes a step, a task is still what can become of it. -/
theorem stems_step (hk : e.status? k = some s) (hs : s.Stems p) (j : TaskId) :
    ∃ s', (e.step j).2.status? k = some s' ∧ s'.Stems p := by
  obtain ⟨task, htask, rfl⟩ := Option.map_eq_some_iff.1 hk
  by_cases hjk : j = k
  · subst hjk
    have hlt := (List.getElem?_eq_some_iff.1 htask).1
    unfold step
    rw [htask]
    dsimp only
    cases hstatus : task.status with
    | running q =>
      rw [hstatus] at hs
      cases hs with
      | running h =>
        dsimp only
        split
        · refine ⟨_, ?_, stems_move e.network task.rank task.tag h⟩
          show Option.map _ (e.tasks.set j _)[j]? = _
          rw [List.getElem?_set_self hlt]
          rfl
        · exact ⟨.running q, hstatus ▸ hk, .running h⟩
    | aborting =>
      rw [hstatus] at hs
      cases hs
    | finished | crashed | aborted => exact ⟨_, hk, hs⟩
  · refine ⟨task.status, ?_, hs⟩
    rcases e.tasks_step j with htasks | ⟨other, s, -, -, htasks⟩
    · rw [status?, htasks, htask]
      rfl
    · rw [status?, htasks, List.getElem?_set_ne hjk, htask]
      rfl

/-- Whatever the transport is, and in whatever order the tasks take their steps, a task comes only
to where some encounters lead it. -/
theorem stems_of_reaches (hk : e₀.status? k = some (.running p)) (h : e₀.Reaches e) :
    ∃ s, e.status? k = some s ∧ s.Stems p := by
  induction h with
  | refl => exact ⟨_, hk, .running (.refl p)⟩
  | step _ j ih =>
    obtain ⟨s, hs, hstems⟩ := ih
    exact stems_step hs hstems j
  | requeue _ ready ih => exact ih

end Executor

end

/-! ## Acts that are attempted -/

namespace Encounter

variable {t : Team}

/-- The attempt is that of this act, whatever the answer. -/
def Attempts (t : Team) : Encounter → Act t.size → Prop
  | .sent dest data _, .send j size => dest = t.rank j ∧ data.length = size
  | .received src _, .recv j _ => src = t.rank j
  | .sent .., .recv .. | .received .., .send .. => False

/-- The error with which an act fails that is answered like this, if it fails.  A message is to be
of the size that the act says. -/
def failure? (t : Team) : Encounter → Act t.size → Option Error
  | .sent dest _ (.error cause), _ => some (.collectiveFailed t.operation dest cause.message)
  | .received src (.error cause), _ => some (.collectiveFailed t.operation src cause.message)
  | .received src (.ok data), .recv _ size =>
    if data.length = size then none
    else some (.unexpectedMessageSize src size data.length)
  | .sent _ _ (.ok ()), _ | .received _ (.ok _), .send .. => none

/-- The act was attempted, and did not fail. -/
def Fulfils (t : Team) (encounter : Encounter) (act : Act t.size) : Prop :=
  encounter.Attempts t act ∧ encounter.failure? t act = none

theorem fulfils_sent (j : Fin t.size) (data : Bytes) :
    (sent (t.rank j) data (.ok ())).Fulfils t (.send j data.length) := ⟨⟨rfl, rfl⟩, rfl⟩

theorem fulfils_received (j : Fin t.size) (data : Bytes) :
    (received (t.rank j) (.ok data)).Fulfils t (.recv j data.length) := ⟨rfl, if_pos rfl⟩

end Encounter

/-- The error with which a communication with a member ends that the transport has refused. -/
def Team.failed (t : Team) (j : Fin t.size) (cause : Error) : Error :=
  .collectiveFailed t.operation (t.rank j) cause.message

/-! ## Programs that abide by an agenda -/

/-- Whatever it is answered, the program attempts what is on the agenda, and the first attempt that
fails ends it with the error that blames the member.  Otherwise it ends as required: with a value
only when it has worked off the agenda, with an error of its own at any time.  Agenda and end may
depend on what the program has heard. -/
inductive Program.Abides (t : Team) {α : Type} :
    (List Bytes → Except Error α → Prop) → (List Bytes → List (Act t.size)) → Program α → Prop where
  | ret {post : List Bytes → Except Error α → Prop} {a : α} (h : post [] (.ok a)) :
      Abides t post (fun _ => []) (.ret a)
  | fail {post : List Bytes → Except Error α → Prop} {agenda : List Bytes → List (Act t.size)}
      {error : Error} (h : post [] (.error error)) : Abides t post agenda (.fail error)
  | send {post : List Bytes → Except Error α → Prop} {agenda : List Bytes → List (Act t.size)}
      {dest : Fin t.size} {data : Bytes} {next : Except Error Unit → Program α}
      (h : Abides t post agenda (next (.ok ())))
      (hfailed : ∀ cause, next (.error cause) = .fail (t.failed dest cause)) :
      Abides t post (fun heard => .send dest data.length :: agenda heard)
        (.send (t.rank dest) data next)
  | recv {post : List Bytes → Except Error α → Prop} {agenda : List Bytes → List (Act t.size)}
      {src : Fin t.size} {size : Nat} {next : Except Error Bytes → Program α}
      (h : ∀ data : Bytes, data.length = size →
        Abides t (fun heard => post (data :: heard)) (fun heard => agenda (data :: heard))
          (next (.ok data)))
      (hsize : ∀ data : Bytes, data.length ≠ size →
        next (.ok data) = .fail (.unexpectedMessageSize (t.rank src) size data.length))
      (hfailed : ∀ cause, next (.error cause) = .fail (t.failed src cause)) :
      Abides t post (fun heard => .recv src size :: agenda heard) (.recv (t.rank src) next)

/-- A program ends with a value as required, whatever it has heard, and with no error of its own. -/
def Gives {α : Type} (post : α → Prop) (_ : List Bytes) : Except Error α → Prop
  | .ok a => post a
  | .error _ => False

/-- A program ends with a value as required, and with an error of its own only where a condition is
not met. -/
def GivesIf {α : Type} (condition : Prop) (post : α → Prop) (_ : List Bytes) :
    Except Error α → Prop
  | .ok a => post a
  | .error _ => ¬condition

theorem Gives.givesIf {α : Type} {post post' : α → Prop} {heard : List Bytes}
    {outcome : Except Error α} (h : Gives post heard outcome) (condition : Prop)
    (hpost : ∀ a, post a → post' a) : GivesIf condition post' heard outcome := by
  cases outcome with
  | error e => cases h
  | ok a => exact hpost a h

namespace Program.Abides

variable {t : Team} {α β : Type} {post : List Bytes → Except Error α → Prop}
  {agenda : List Bytes → List (Act t.size)} {p : Program α}

theorem mono {post' : List Bytes → Except Error α → Prop} (hp : p.Abides t post agenda)
    (h : ∀ heard outcome, post heard outcome → post' heard outcome) :
    p.Abides t post' agenda := by
  induction hp generalizing post' with
  | ret ha => exact .ret (h _ _ ha)
  | fail he => exact .fail (h _ _ he)
  | send _ hfailed ih => exact .send (ih h) hfailed
  | recv _ hsize hfailed ih =>
    exact .recv (fun data hdata => ih data hdata fun heard => h (data :: heard)) hsize hfailed

/-- What the second part has before it may depend on what the first part has heard. -/
theorem bind {post' : List Bytes → Except Error β → Prop}
    {agenda' : List Bytes → List (Act t.size)} {f : α → Program β} (hp : p.Abides t post agenda)
    (hf : ∀ heard a, post heard (.ok a) → (f a).Abides t (fun more => post' (heard ++ more))
      fun more => agenda' (heard ++ more))
    (hfail : ∀ heard error, post heard (.error error) → post' heard (.error error)) :
    (p >>= f).Abides t post' fun heard => agenda heard ++ agenda' heard := by
  induction hp generalizing post' agenda' with
  | ret ha => exact hf [] _ ha
  | fail he => exact .fail (hfail [] _ he)
  | @send post agenda dest data next _ hfailed ih =>
    refine .send (ih hf hfail) ?_
    intro cause
    rw [hfailed]
    rfl
  | @recv post agenda src size next _ hsize hfailed ih =>
    refine .recv ?_ ?_ ?_
    · intro data hdata
      exact ih data hdata (fun heard => hf (data :: heard)) fun heard => hfail (data :: heard)
    · intro data hdata
      rw [hsize data hdata]
      rfl
    · intro cause
      rw [hfailed]
      rfl

/-- What comes after the agenda attempts nothing. -/
theorem bind_ret {post' : List Bytes → Except Error β → Prop} {f : α → Program β}
    (hp : p.Abides t post agenda)
    (hf : ∀ heard a, post heard (.ok a) → ∃ b, f a = .ret b ∧ post' heard (.ok b))
    (hfail : ∀ heard error, post heard (.error error) → post' heard (.error error)) :
    (p >>= f).Abides t post' agenda := by
  have hbind : (p >>= f).Abides t post' fun heard => agenda heard ++ [] := by
    refine hp.bind (fun heard a ha => ?_) hfail
    obtain ⟨b, hb, hpost⟩ := hf heard a ha
    rw [hb]
    refine .ret ?_
    rwa [List.append_nil]
  simpa only [List.append_nil] using hbind

/-! ### Agendas that do not depend on messages -/

section

variable {give : α → Prop} {acts : List (Act t.size)}

theorem gives_bind {give' : β → Prop} {acts' : List (Act t.size)} {f : α → Program β}
    (hp : p.Abides t (Gives give) fun _ => acts)
    (hf : ∀ a, give a → (f a).Abides t (Gives give') fun _ => acts') :
    (p >>= f).Abides t (Gives give') fun _ => acts ++ acts' :=
  hp.bind (fun _ a ha => hf a ha) fun _ _ => id

theorem gives_bind_ret {give' : β → Prop} {f : α → Program β}
    (hp : p.Abides t (Gives give) fun _ => acts)
    (hf : ∀ a, give a → ∃ b, f a = .ret b ∧ give' b) :
    (p >>= f).Abides t (Gives give') fun _ => acts :=
  hp.bind_ret (fun _ a ha => hf a ha) fun _ _ => id

theorem follows_of_const (hp : p.Abides t post agenda) (hagenda : ∀ heard, agenda heard = acts)
    (hpost : ∀ heard outcome, post heard outcome → ∃ a, outcome = .ok a ∧ give a) :
    p.Follows t give acts := by
  induction hp generalizing acts with
  | ret h =>
    obtain ⟨a, heq, ha⟩ := hpost _ _ h
    cases heq
    rw [← hagenda []]
    exact .ret ha
  | fail h =>
    obtain ⟨a, heq, -⟩ := hpost _ _ h
    cases heq
  | @send post agenda dest data next _ _ ih =>
    rw [← hagenda []]
    refine .send (ih ?_ hpost)
    intro heard
    exact (List.cons_inj_right _).1 ((hagenda heard).trans (hagenda []).symm)
  | @recv post agenda src size next _ hsize _ ih =>
    rw [← hagenda []]
    refine .recv (fun data hdata => ih data hdata ?_ fun heard => hpost (data :: heard)) ?_
    · intro heard
      exact (List.cons_inj_right _).1 ((hagenda (data :: heard)).trans (hagenda []).symm)
    · intro data hdata
      exact ⟨_, hsize data hdata, rfl⟩

/-- A program that abides by an agenda follows it. -/
theorem follows (hp : p.Abides t (Gives give) fun _ => acts) : p.Follows t give acts := by
  refine hp.follows_of_const (fun _ => rfl) ?_
  rintro heard (error | a) h
  · cases h
  · exact ⟨a, rfl, h⟩

end

/-! ### What such a program encounters -/

variable {log : List Encounter} {q : Program α}

/-- Either all that was attempted was fulfilled and the rest of the agenda is still ahead, or the
last attempt failed. -/
theorem of_meets (hp : p.Abides t post agenda) (hm : p.Meets log q) :
    (∃ done rest, (∀ more, agenda (heard log ++ more) = done ++ rest more) ∧
      List.Forall₂ (Encounter.Fulfils t) log done ∧
      q.Abides t (fun more => post (heard log ++ more)) rest) ∨
    ∃ before last done act rest error, log = before ++ [last] ∧
      agenda (heard log) = done ++ act :: rest ∧
      List.Forall₂ (Encounter.Fulfils t) before done ∧ last.Attempts t act ∧
      last.failure? t act = some error ∧ q = .fail error := by
  induction hp generalizing log with
  | @ret post a h =>
    cases hm
    exact .inl ⟨[], _, fun _ => rfl, .nil, .ret h⟩
  | @fail post agenda error h =>
    cases hm
    exact .inl ⟨[], _, fun _ => rfl, .nil, .fail h⟩
  | @send post agenda dest data next h hfailed ih =>
    cases hm with
    | refl => exact .inl ⟨[], _, fun _ => rfl, .nil, .send h hfailed⟩
    | @sent _ _ _ answer log _ hm =>
      cases answer with
      | error cause =>
        rw [hfailed] at hm
        cases hm
        exact .inr ⟨[], _, [], _, _, _, rfl, rfl, .nil, ⟨rfl, rfl⟩, rfl, rfl⟩
      | ok answer =>
        rcases ih hm with ⟨done, rest, hrest, hdone, hq⟩ |
          ⟨before, last, done, act, rest, error, rfl, hrest, hdone, hlast⟩
        · refine .inl ⟨_ :: done, rest, ?_, .cons (Encounter.fulfils_sent dest data) hdone, hq⟩
          intro more
          exact congrArg (List.cons _) (hrest more)
        · exact .inr ⟨_ :: before, last, _ :: done, act, rest, error, rfl,
            congrArg (List.cons _) hrest, .cons (Encounter.fulfils_sent dest data) hdone, hlast⟩
  | @recv post agenda src size next h hsize hfailed ih =>
    cases hm with
    | refl => exact .inl ⟨[], _, fun _ => rfl, .nil, .recv h hsize hfailed⟩
    | @received _ _ answer log _ hm =>
      cases answer with
      | error cause =>
        rw [hfailed] at hm
        cases hm
        exact .inr ⟨[], _, [], _, _, _, rfl, rfl, .nil, rfl, rfl, rfl⟩
      | ok data =>
        by_cases hdata : data.length = size
        · have hfulfils := Encounter.fulfils_received src data
          rw [hdata] at hfulfils
          rcases ih data hdata hm with ⟨done, rest, hrest, hdone, hq⟩ |
            ⟨before, last, done, act, rest, error, rfl, hrest, hdone, hlast⟩
          · refine .inl ⟨_ :: done, rest, ?_, .cons hfulfils hdone, hq⟩
            intro more
            exact congrArg (List.cons _) (hrest more)
          · exact .inr ⟨_ :: before, last, _ :: done, act, rest, error, rfl,
              congrArg (List.cons _) hrest, .cons hfulfils hdone, hlast⟩
        · rw [hsize data hdata] at hm
          cases hm
          exact .inr ⟨[], _, [], _, _, _, rfl, rfl, .nil, rfl, if_neg hdata, rfl⟩

theorem not_meets_crash (hp : p.Abides t post agenda) : ¬p.Meets log .crash := by
  intro hm
  rcases hp.of_meets hm with ⟨_, _, _, _, hq⟩ | ⟨_, _, _, _, _, _, _, _, _, _, _, hq⟩
  · cases hq
  · cases hq

/-- A program that ends with a value has worked off its agenda. -/
theorem of_meets_ret {a : α} (hp : p.Abides t post agenda) (hm : p.Meets log (.ret a)) :
    post (heard log) (.ok a) ∧ List.Forall₂ (Encounter.Fulfils t) log (agenda (heard log)) := by
  rcases hp.of_meets hm with ⟨done, rest, hrest, hdone, hq⟩ | ⟨_, _, _, _, _, _, _, _, _, _, _, hq⟩
  · cases hq with
    | ret h =>
      have hall := hrest []
      rw [List.append_nil] at h hall
      rw [hall, List.append_nil]
      exact ⟨h, hdone⟩
  · cases hq

/-- An error is that of the last attempt, or one of the program's own. -/
theorem of_meets_fail {error : Error} (hp : p.Abides t post agenda)
    (hm : p.Meets log (.fail error)) :
    post (heard log) (.error error) ∨
      ∃ before last act, log = before ++ [last] ∧
        (agenda (heard log))[before.length]? = some act ∧ last.Attempts t act ∧
        last.failure? t act = some error := by
  rcases hp.of_meets hm with ⟨done, rest, -, -, hq⟩ |
    ⟨before, last, done, act, rest, error', rfl, hrest, hdone, hlast, hfailure, hq⟩
  · cases hq with
    | fail h =>
      rw [List.append_nil] at h
      exact .inl h
  · cases hq
    refine .inr ⟨before, last, act, rfl, ?_, hlast, hfailure⟩
    rw [hrest, hdone.length_eq, List.getElem?_append_right (Nat.le_refl _), Nat.sub_self]
    rfl

end Program.Abides

/-! ## Stopping at the first failure -/

/-- Whatever a program is answered, it attempts nothing but what is on the agenda, in this order;
the first attempt that fails is the last one, and its error is the outcome.  Where none fails, the
program ends as required. -/
structure Program.StopsAlong (t : Team) {α : Type} (post : List Bytes → Except Error α → Prop)
    (agenda : List Bytes → List (Act t.size)) (p : Program α) : Prop where
  /-- The attempts are those of the first acts of the agenda. -/
  attempts : ∀ log q, p.Meets log q →
    ∃ acts, acts <+: agenda (heard log) ∧ List.Forall₂ (Encounter.Attempts t) log acts
  /-- After an attempt that has failed there is no other, and the program has ended with the error
  of the attempt. -/
  stops : ∀ before last after q act error, p.Meets (before ++ last :: after) q →
    (agenda (heard (before ++ last :: after)))[before.length]? = some act →
    last.failure? t act = some error → after = [] ∧ q = .fail error
  /-- The outcome is a value only if the whole agenda was fulfilled. -/
  completes : ∀ log a, p.Meets log (.ret a) →
    post (heard log) (.ok a) ∧ List.Forall₂ (Encounter.Fulfils t) log (agenda (heard log))
  /-- The outcome is an error only if the last attempt has failed, or something else was wrong. -/
  fails : ∀ log error, p.Meets log (.fail error) →
    post (heard log) (.error error) ∨
      ∃ before last act, log = before ++ [last] ∧
        (agenda (heard log))[before.length]? = some act ∧ last.Attempts t act ∧
        last.failure? t act = some error

theorem rel_of_forall₂ {α β : Type} {R : α → β → Prop} {before after : List α} {x : α}
    {ys zs : List β} {y : β} (h : List.Forall₂ R (before ++ x :: after) ys) (hys : ys <+: zs)
    (hy : zs[before.length]? = some y) : R x y := by
  obtain ⟨rest, rfl⟩ := hys
  induction before generalizing ys with
  | nil =>
    cases h with
    | cons hxy _ =>
      cases hy
      exact hxy
  | cons z before ih =>
    cases h with
    | cons _ h => exact ih h hy

theorem Program.Abides.stopsAlong {t : Team} {α : Type}
    {agenda : List Bytes → List (Act t.size)} {p : Program α}
    {post : List Bytes → Except Error α → Prop} (hp : p.Abides t post agenda) :
    p.StopsAlong t post agenda where
  attempts log q hm := by
    rcases hp.of_meets hm with ⟨done, rest, hrest, hdone, -⟩ |
      ⟨before, last, done, act, rest, error, rfl, hrest, hdone, hlast, -⟩
    · have hall := hrest []
      rw [List.append_nil] at hall
      exact ⟨done, ⟨rest [], hall.symm⟩, hdone.imp fun _ _ h => h.1⟩
    · have hprefix : done ++ [act] <+: done ++ act :: rest :=
        ⟨rest, List.append_assoc done [act] rest⟩
      refine ⟨done ++ [act], hrest ▸ hprefix, ?_⟩
      exact List.rel_append (hdone.imp fun _ _ h => h.1) (.cons hlast .nil)
  stops before last after q act error hm hact hfailure := by
    -- what is followed by another attempt was fulfilled
    have hfulfilled : ∀ {init done},
        List.Forall₂ (Encounter.Fulfils t) (before ++ last :: init) done →
        ¬done <+: agenda (heard (before ++ last :: after)) := by
      intro init done hdone hprefix
      have hnone := (rel_of_forall₂ hdone hprefix hact).2
      rw [hfailure] at hnone
      cases hnone
    rcases hp.of_meets hm with ⟨done, rest, hrest, hdone, -⟩ |
      ⟨before', last', done, act', rest, error', hlog, hrest, hdone, -, hfailure', hq⟩
    · have hall := hrest []
      rw [List.append_nil] at hall
      exact absurd ⟨rest [], hall.symm⟩ (hfulfilled hdone)
    · rcases List.eq_nil_or_concat after with rfl | ⟨init, x, rfl⟩
      · obtain ⟨rfl, hlast⟩ := List.append_inj' hlog rfl
        cases hlast
        rw [hrest, hdone.length_eq, List.getElem?_append_right (Nat.le_refl _),
          Nat.sub_self] at hact
        cases hact
        rw [hfailure, Option.some_inj] at hfailure'
        exact ⟨rfl, hq.trans (congrArg _ hfailure'.symm)⟩
      · rw [List.concat_eq_append, ← List.cons_append, ← List.append_assoc] at hlog
        obtain ⟨rfl, -⟩ := List.append_inj' hlog rfl
        exact absurd ⟨act' :: rest, hrest.symm⟩ (hfulfilled hdone)
  completes log a hm := hp.of_meets_ret hm
  fails log error hm := hp.of_meets_fail hm

/-! ## The messages of an agenda -/

/-- A program ends with the one message that it has heard, which is of the expected size. -/
def Relays (expected : Nat) (heard : List Bytes) (outcome : Except Error Bytes) : Prop :=
  ∃ data, data.length = expected ∧ heard = [data] ∧ outcome = .ok data

theorem Relays.gives {expected : Nat} {heard : List Bytes} {outcome : Except Error Bytes}
    (h : Relays expected heard outcome) :
    Gives (fun data => data.length = expected) heard outcome := by
  obtain ⟨data, hdata, -, rfl⟩ := h
  exact hdata

namespace Team

variable {t : Team}

theorem abides_send (i j : Fin t.size) (data : Bytes) :
    ((t.exchange i).send j data).Abides t (Gives fun _ => True)
      fun _ => [.send j data.length] := by
  rw [Exchange.send_of_peer (t.peer_exchange i j)]
  exact .send (.ret trivial) fun cause => rfl

theorem relays_recvExact (i j : Fin t.size) (expected : Nat) :
    ((t.exchange i).recvExact j expected).Abides t (Relays expected)
      fun _ => [.recv j expected] := by
  rw [Exchange.recvExact_of_peer (t.peer_exchange i j)]
  refine .recv ?_ ?_ fun cause => rfl
  · intro data hdata
    show (if data.length = expected then Program.ret data else _).Abides t _ _
    rw [if_pos hdata]
    exact .ret ⟨data, hdata, rfl, rfl⟩
  · intro data hdata
    exact if_neg hdata

theorem relays_sendRecv (i j k : Fin t.size) (data : Bytes) (expected : Nat) :
    ((t.exchange i).sendRecv j data k expected).Abides t (Relays expected)
      fun _ => [.send j data.length, .recv k expected] := by
  rw [Exchange.sendRecv, Exchange.send_of_peer (t.peer_exchange i j)]
  exact .send (relays_recvExact i k expected) fun cause => rfl

theorem abides_recvExact (i j : Fin t.size) (expected : Nat) :
    ((t.exchange i).recvExact j expected).Abides t (Gives fun data => data.length = expected)
      fun _ => [.recv j expected] :=
  (relays_recvExact i j expected).mono fun _ _ => Relays.gives

theorem abides_sendRecv (i j k : Fin t.size) (data : Bytes) (expected : Nat) :
    ((t.exchange i).sendRecv j data k expected).Abides t
      (Gives fun data => data.length = expected)
      fun _ => [.send j data.length, .recv k expected] :=
  (relays_sendRecv i j k data expected).mono fun _ _ => Relays.gives

end Team

end Collectives
