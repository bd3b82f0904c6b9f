import Collectives.Program
import Collectives.Transport.Basic

/-!
# Tasks

A task is a program under way: the rank and the tag it communicates with, and how far
it has come. `move` lets a program take one step. A program that ends by itself, with a
value or an error, retires its tag; one that dies does not. Every step leads to a part
of the program, so no task goes on for ever: `Status.wellFounded_precedes`.
-/

namespace Collectives

namespace Program

/-- The programs that a program can become by one step. -/
inductive Continues {α : Type} : Program α → Program α → Prop where
  | report (entry : Observation) (next : Program α) : Continues next (.report entry next)
  | send (dest : Rank) (data : Bytes) (next : Except Error Unit → Program α)
      (answer : Except Error Unit) : Continues (next answer) (.send dest data next)
  | recv (src : Rank) (next : Except Error Bytes → Program α)
      (answer : Except Error Bytes) : Continues (next answer) (.recv src next)

theorem wellFounded_continues {α : Type} :
    WellFounded (Continues : Program α → Program α → Prop) := by
  refine ⟨fun p => ?_⟩
  induction p with
  | ret | fail | crash => exact ⟨_, fun _ h => by cases h⟩
  | report entry next ih => exact ⟨_, fun _ h => by cases h; exact ih⟩
  | send dest data next ih => exact ⟨_, fun _ h => by cases h; exact ih _⟩
  | recv src next ih => exact ⟨_, fun _ h => by cases h; exact ih _⟩

end Program

/-- How far a task has come. -/
inductive Status where
  | running (program : Program Bytes)
  /-- The program ended by itself. -/
  | finished (outcome : Except Error Bytes)
  /-- The program died. -/
  | crashed
  /-- The task was given up; what it holds is let go when its turn comes. -/
  | aborting
  | aborted

namespace Status

/-- The source from which a task would receive next. -/
def awaits? : Status → Option Rank
  | running (.recv src _) => some src
  | _ => none

/-- Whether the task has come to its end, one way or another. -/
def isOver : Status → Bool
  | running _ | aborting => false
  | _ => true

/-- Whether the task has its program still before it. -/
def isRunning : Status → Bool
  | running _ => true
  | _ => false

/-- The statuses that a status can become by one step. -/
inductive Precedes : Status → Status → Prop where
  | running {p q : Program Bytes} (h : p.Continues q) : Precedes (running p) (running q)
  | finished (outcome : Except Error Bytes) (q : Program Bytes) :
      Precedes (finished outcome) (running q)
  | crashed (q : Program Bytes) : Precedes crashed (running q)
  | aborted : Precedes aborted aborting

theorem wellFounded_precedes : WellFounded Precedes := by
  have ended : ∀ s : Status, s.isOver → Acc Precedes s := by
    intro s hs
    refine ⟨_, fun t h => ?_⟩
    cases h <;> simp [isOver] at hs
  refine ⟨fun s => ?_⟩
  cases s with
  | running p =>
    induction Program.wellFounded_continues.apply p with
    | intro p _ ih =>
      refine ⟨_, fun t h => ?_⟩
      cases h with
      | running h => exact ih _ h
      | finished => exact ended _ rfl
      | crashed => exact ended _ rfl
  | aborting => exact ⟨_, fun t h => by cases h; exact ended _ rfl⟩
  | finished => exact ended _ rfl
  | crashed => exact ended _ rfl
  | aborted => exact ended _ rfl

end Status

/-- What comes of letting a program take one step. -/
structure Move (σ : Type) where
  /-- Whether there was a step to take. -/
  moved : Bool
  status : Status
  network : σ
  /-- What the program reported. -/
  observed : Option Observation := none
  /-- The rank that was sent a message. -/
  reached : Option Rank := none

/-- Lets the program of a rank take one step, its messages under the given tag. -/
def move {σ : Type} [Transport σ] (network : σ) (rank : Rank) (tag : Tag) :
    Program Bytes → Move σ
  | .ret value => ⟨true, .finished (.ok value), Transport.retire network rank tag, none, none⟩
  | .fail error => ⟨true, .finished (.error error), Transport.retire network rank tag, none, none⟩
  | .crash => ⟨true, .crashed, network, none, none⟩
  | .report entry next => ⟨true, .running next, network, some entry, none⟩
  | .send dest data next =>
    let (answer, network) := Transport.send network rank dest tag data
    ⟨true, .running (next answer), network, none, if answer.isOk then some dest else none⟩
  | .recv src next =>
    match Transport.receive network rank src tag with
    | (some answer, network) => ⟨true, .running (next answer), network, none, none⟩
    | (none, network) => ⟨false, .running (.recv src next), network, none, none⟩

section

variable {σ : Type} [Transport σ] (network : σ) (rank : Rank) (tag : Tag)

theorem precedes_of_moved {p : Program Bytes} (h : (move network rank tag p).moved = true) :
    (move network rank tag p).status.Precedes (.running p) := by
  cases p with
  | ret | fail => exact .finished _ _
  | crash => exact .crashed _
  | report entry next => exact .running (.report entry next)
  | send dest data next => exact .running (.send dest data next _)
  | recv src next =>
    simp only [move] at h ⊢
    split at h
    · exact .running (.recv src next _)
    · cases h

theorem status_of_not_moved {p : Program Bytes}
    (h : (move network rank tag p).moved = false) :
    (move network rank tag p).status = .running p := by
  cases p with
  | ret | fail | crash | report | send => cases h
  | recv src next =>
    simp only [move] at h ⊢
    split at h
    · cases h
    · rfl

end

/-- A program under way. -/
structure Task where
  rank : Rank
  tag : Tag
  status : Status

end Collectives
