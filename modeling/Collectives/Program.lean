import Collectives.Exchange

/-!
# Member programs

What one member does in a collective is a tree: it sends, it receives, and what it does
next depends on the answers. A program is data, so one and the same program can be run
on an in-process mesh, against scripted answers, or reasoned about under every order of
events. It ends with a value, with an error, or by dying without either; on the way it
may report observations.

Sends are answered at once, with or without an error. A receive is answered when a
message is there, or with an error. An error that is answered can be handled; `attempt`
does so for a whole program.
-/

namespace Collectives

/-- What a program reports about itself. -/
inductive Observation where
  /-- The job that is being carried out. -/
  | job (job : Job)
  /-- A message was sent. -/
  | sent
  /-- A message was received, or a collective carried out within another gave a result. -/
  | received (data : Bytes)
  /-- Something failed, and the program goes on. -/
  | failed (error : Error)

/-- What one member does, up to the value it ends with. -/
inductive Program (α : Type) where
  | ret (value : α)
  | fail (error : Error)
  /-- The end of a program that breaks off without a value or an error. -/
  | crash
  | report (entry : Observation) (next : Program α)
  | send (dest : Rank) (data : Bytes) (next : Except Error Unit → Program α)
  | recv (src : Rank) (next : Except Error Bytes → Program α)

namespace Program

variable {α β : Type}

/-- Goes on from the value that a program ends with. -/
protected def bind : Program α → (α → Program β) → Program β
  | ret a, f => f a
  | fail e, _ => fail e
  | crash, _ => crash
  | report entry next, f => report entry (next.bind f)
  | send dest data next, f => send dest data fun r => (next r).bind f
  | recv src next, f => recv src fun r => (next r).bind f

instance : Monad Program where
  pure := ret
  bind := Program.bind

/-- Runs a program to its end and gives its error, if any, as a value. -/
def attempt : Program α → Program (Except Error α)
  | ret a => ret (.ok a)
  | fail e => ret (.error e)
  | crash => crash
  | report entry next => report entry next.attempt
  | send dest data next => send dest data fun r => (next r).attempt
  | recv src next => recv src fun r => (next r).attempt

/-- Ends with the value or the error of a computation that does not communicate. -/
def ofExcept : Except Error α → Program α
  | .ok a => ret a
  | .error e => fail e

/-- A value that has to be there; a program without it dies. -/
def demand : Option α → Program α
  | some a => ret a
  | none => crash

@[simp] theorem pure_eq (a : α) : (pure a : Program α) = ret a := rfl

@[simp] theorem ret_bind (a : α) (f : α → Program β) : ret a >>= f = f a := rfl

@[simp] theorem fail_bind (e : Error) (f : α → Program β) : fail e >>= f = fail e := rfl

@[simp] theorem crash_bind (f : α → Program β) : crash >>= f = crash := rfl

@[simp] theorem report_bind (entry : Observation) (p : Program α) (f : α → Program β) :
    report entry p >>= f = report entry (p >>= f) := rfl

@[simp] theorem send_bind (dest : Rank) (data : Bytes) (next : Except Error Unit → Program α)
    (f : α → Program β) :
    send dest data next >>= f = send dest data fun r => next r >>= f := rfl

@[simp] theorem recv_bind (src : Rank) (next : Except Error Bytes → Program α)
    (f : α → Program β) :
    recv src next >>= f = recv src fun r => next r >>= f := rfl

theorem bind_ret (p : Program α) : p >>= ret = p := by
  induction p with
  | ret a => rfl
  | fail e => rfl
  | crash => rfl
  | report entry next ih => rw [report_bind, ih]
  | send dest data next ih => rw [send_bind]; exact congrArg _ (funext ih)
  | recv src next ih => rw [recv_bind]; exact congrArg _ (funext ih)

protected theorem bind_assoc {γ : Type} (p : Program α) (f : α → Program β)
    (g : β → Program γ) : p >>= f >>= g = p >>= fun a => f a >>= g := by
  induction p with
  | ret a => rfl
  | fail e => rfl
  | crash => rfl
  | report entry next ih => simp only [report_bind, ih]
  | send dest data next ih => simp only [send_bind, ih]
  | recv src next ih => simp only [recv_bind, ih]

instance : LawfulMonad Program :=
  LawfulMonad.mk' Program bind_ret (fun _ _ => rfl) Program.bind_assoc

@[simp] theorem attempt_ret (a : α) : (ret a).attempt = ret (.ok a) := rfl

@[simp] theorem attempt_fail (e : Error) : (fail e : Program α).attempt = ret (.error e) := rfl

@[simp] theorem ofExcept_ok (a : α) : ofExcept (.ok a) = ret a := rfl

@[simp] theorem ofExcept_error (e : Error) : (ofExcept (.error e) : Program α) = fail e := rfl

@[simp] theorem demand_some (a : α) : demand (some a) = ret a := rfl

@[simp] theorem demand_none : (demand none : Program α) = crash := rfl

end Program

end Collectives
