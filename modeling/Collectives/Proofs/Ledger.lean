import Collectives.Proofs.Lifecycle

/-!
# Ledgers

A ledger is a transport that keeps a list of the calls that are made of it under a tag: sends and
receives, also those that fail or find nothing, and what gives the tag up.  Every entry is some
task's, and the entries of one task are messages, followed by what it made of its tag when it came
to its end (`Executor.Attributed`).  A task that ended by itself has retired the tag, one that was
given up has had it abandoned, and one that died has done neither (`Status.release`).

This is kept by whatever an executor does, and by all calls of a session
(`Session.exists_attributed`).
-/

namespace Collectives

/-! ## Entries -/

/-- What is asked of a transport under a tag. -/
inductive TransportCall where
  | send (dest : Rank) (data : Bytes)
  | receive (src : Rank)
  | retire
  | abandon
  deriving DecidableEq

/-- Whether a message is sent or asked for. -/
def TransportCall.isMessage : TransportCall → Bool
  | .send _ _ | .receive _ => true
  | .retire | .abandon => false

/-- What is asked, with the rank and the tag. -/
structure Entry where
  rank : Rank
  tag : Tag
  call : TransportCall
  deriving DecidableEq

/-- A transport with all that was asked of it under a tag, earliest first. -/
structure Ledger (σ : Type) where
  network : σ
  entries : List Entry := []

namespace Ledger

variable {σ : Type}

/-- What a rank has asked under a tag, earliest first. -/
def calls (l : Ledger σ) (rank : Rank) (tag : Tag) : List TransportCall :=
  l.entries.filterMap fun e => if e.rank = rank ∧ e.tag = tag then some e.call else none

variable [Transport σ]

instance : Transport (Ledger σ) where
  send l own dest tag data :=
    ((Transport.send l.network own dest tag data).1,
      ⟨(Transport.send l.network own dest tag data).2,
        l.entries ++ [⟨own, tag, .send dest data⟩]⟩)
  receive l own src tag :=
    ((Transport.receive l.network own src tag).1,
      ⟨(Transport.receive l.network own src tag).2, l.entries ++ [⟨own, tag, .receive src⟩]⟩)
  retire l own tag := ⟨Transport.retire l.network own tag, l.entries ++ [⟨own, tag, .retire⟩]⟩
  abandon l own tag := ⟨Transport.abandon l.network own tag, l.entries ++ [⟨own, tag, .abandon⟩]⟩
  close l own := { l with network := Transport.close l.network own }

end Ledger

/-- What a task that has come so far has made of its tag. -/
def Status.release : Status → List TransportCall
  | .finished _ => [.retire]
  | .aborting | .aborted => [.abandon]
  | .running _ | .crashed => []

/-- What a task that has come so far can have asked: messages, and nothing after it has made
something of its tag. -/
def Status.Fits (s : Status) (calls : List TransportCall) : Prop :=
  ∃ messages, (∀ d ∈ messages, d.isMessage = true) ∧ calls = messages ++ s.release

theorem Status.Fits.message {p q : Program Bytes} {calls : List TransportCall} {d : TransportCall}
    (h : (running p).Fits calls) (hd : d.isMessage = true) : (running q).Fits (calls ++ [d]) := by
  obtain ⟨messages, hall, rfl⟩ := h
  refine ⟨messages ++ [d], ?_, by simp [release]⟩
  intro d' hd'
  rcases List.mem_append.1 hd' with hd' | hd'
  · exact hall d' hd'
  · rwa [List.mem_singleton.1 hd']

/-- What is running can come to any end. -/
theorem Status.Fits.release {p : Program Bytes} {calls : List TransportCall}
    (h : (running p).Fits calls) (s : Status) : s.Fits (calls ++ s.release) := by
  obtain ⟨messages, hall, rfl⟩ := h
  exact ⟨messages, hall, by simp [Status.release]⟩

/-- What a task asks by going on fits how far it comes by that. -/
theorem exists_entries_move {σ : Type} [Transport σ] (l : Ledger σ) (rank : Rank) (tag : Tag)
    (p : Program Bytes) :
    ∃ new : List TransportCall,
      (move l rank tag p).network.entries = l.entries ++ new.map (fun d => ⟨rank, tag, d⟩) ∧
        ∀ calls, (Status.running p).Fits calls →
          (move l rank tag p).status.Fits (calls ++ new) := by
  cases p with
  | ret value => exact ⟨[.retire], rfl, fun _ h => h.release (.finished (.ok value))⟩
  | fail error => exact ⟨[.retire], rfl, fun _ h => h.release (.finished (.error error))⟩
  | crash => exact ⟨[], (List.append_nil _).symm, fun _ h => h.release .crashed⟩
  | report entry next =>
    exact ⟨[], (List.append_nil _).symm, fun calls h => (List.append_nil calls).symm ▸ h⟩
  | send dest data next => exact ⟨[.send dest data], rfl, fun _ h => h.message rfl⟩
  | recv src next =>
    refine ⟨[.receive src], ?_⟩
    unfold move
    dsimp only [Transport.receive]
    cases (Transport.receive l.network rank src tag).1 with
    | none => exact ⟨rfl, fun _ h => h.message rfl⟩
    | some answer => exact ⟨rfl, fun _ h => h.message rfl⟩

/-! ## Whose entries they are -/

/-- The calls of one task, earliest first. -/
def callsOf (trace : List (TaskId × Entry)) (t : TaskId) : List TransportCall :=
  trace.filterMap fun (k, e) => if k = t then some e.call else none

theorem callsOf_append (trace : List (TaskId × Entry)) (k t : TaskId) (rank : Rank) (tag : Tag)
    (new : List TransportCall) :
    callsOf (trace ++ new.map fun d => (k, ⟨rank, tag, d⟩)) t =
      if k = t then callsOf trace t ++ new else callsOf trace t := by
  rw [callsOf, List.filterMap_append, List.filterMap_map]
  by_cases h : k = t
  · simp [h, callsOf]
  · simp [h, callsOf]

namespace Executor

variable {σ : Type}

/-- The entries of the ledger are those of the tasks, each under its rank and tag, and those of one
task fit how far it has come. -/
structure Attributed (e : Executor (Ledger σ)) (trace : List (TaskId × Entry)) : Prop where
  entries_eq : trace.map Prod.snd = e.network.entries
  owned : ∀ {k : TaskId} {entry : Entry}, (k, entry) ∈ trace →
    ∃ task, e.tasks[k]? = some task ∧ entry.rank = task.rank ∧ entry.tag = task.tag
  fits : ∀ {k : TaskId} {task : Task}, e.tasks[k]? = some task →
    task.status.Fits (callsOf trace k)

namespace Attributed

variable {e e' : Executor (Ledger σ)} {trace : List (TaskId × Entry)} {k t : TaskId}
  {task : Task}

theorem of_eq (h : e.Attributed trace) (htasks : e'.tasks = e.tasks)
    (hentries : e'.network.entries = e.network.entries) : e'.Attributed trace := by
  refine ⟨hentries ▸ h.entries_eq, ?_, ?_⟩
  · rw [htasks]
    exact h.owned
  · rw [htasks]
    exact h.fits

/-- A task that alone has its rank and tag has made all entries under them. -/
theorem callsOf_eq (h : e.Attributed trace) (htask : e.tasks[t]? = some task)
    (halone : ∀ k other, e.tasks[k]? = some other → other.rank = task.rank →
      other.tag = task.tag → k = t) :
    callsOf trace t = e.network.calls task.rank task.tag := by
  rw [Ledger.calls, ← h.entries_eq, List.filterMap_map, callsOf]
  refine List.filterMap_congr ?_
  rintro ⟨k, entry⟩ hmem
  obtain ⟨other, hother, hrank, htag⟩ := h.owned hmem
  by_cases hk : k = t
  · subst hk
    obtain rfl : task = other := Option.some_inj.1 (htask.symm.trans hother)
    simp [hrank, htag]
  · have hne : ¬(entry.rank = task.rank ∧ entry.tag = task.tag) := by
      rintro ⟨hr, ht⟩
      exact hk (halone k other hother (hrank ▸ hr) (htag ▸ ht))
    simp [hk, hne]

/-- One task goes on, and asks something or nothing. -/
theorem act (h : e.Attributed trace) (htask : e.tasks[k]? = some task) {s : Status}
    (new : List TransportCall)
    (htasks : ∀ t, e'.tasks[t]? = if k = t then some { task with status := s } else e.tasks[t]?)
    (hentries : e'.network.entries =
      e.network.entries ++ new.map fun d => ⟨task.rank, task.tag, d⟩)
    (hfits : s.Fits (callsOf trace k ++ new)) :
    e'.Attributed (trace ++ new.map fun d => (k, ⟨task.rank, task.tag, d⟩)) := by
  refine ⟨?_, ?_, ?_⟩
  · rw [hentries, List.map_append, h.entries_eq, List.map_map]
    rfl
  · intro t entry hmem
    rw [htasks]
    rcases List.mem_append.1 hmem with hmem | hmem
    · obtain ⟨other, hother, hkey⟩ := h.owned hmem
      by_cases hk : k = t
      · subst hk
        obtain rfl : task = other := Option.some_inj.1 (htask.symm.trans hother)
        exact ⟨_, if_pos rfl, hkey⟩
      · exact ⟨other, (if_neg hk).trans hother, hkey⟩
    · obtain ⟨d, -, heq⟩ := List.mem_map.1 hmem
      cases heq
      exact ⟨_, if_pos rfl, rfl, rfl⟩
  · intro t other hother
    rw [htasks] at hother
    rw [callsOf_append]
    split at hother
    · next hk =>
      subst hk
      cases hother
      rw [if_pos rfl]
      exact hfits
    · next hk =>
      rw [if_neg hk]
      exact h.fits hother

theorem getElem?_set (htask : e.tasks[k]? = some task) (task' : Task) (t : TaskId) :
    (e.tasks.set k task')[t]? = if k = t then some task' else e.tasks[t]? := by
  have hlt := (List.getElem?_eq_some_iff.1 htask).1
  by_cases hk : k = t
  · subst hk
    rw [if_pos rfl, List.getElem?_set_self hlt]
  · rw [if_neg hk, List.getElem?_set_ne hk]

/-- A new task has asked nothing yet. -/
theorem add (h : e.Attributed trace) (rank : Rank) (tag : Tag) (p : Program Bytes) :
    (e.add rank tag p).2.Attributed trace := by
  have hlt : ∀ {k : TaskId} {entry : Entry}, (k, entry) ∈ trace → k < e.tasks.length := by
    intro k entry hmem
    obtain ⟨task, htask, -⟩ := h.owned hmem
    exact (List.getElem?_eq_some_iff.1 htask).1
  refine ⟨h.entries_eq, ?_, ?_⟩
  · intro k entry hmem
    obtain ⟨task, htask, hkey⟩ := h.owned hmem
    exact ⟨task, (List.getElem?_append_left (hlt hmem)).trans htask, hkey⟩
  · intro k task htask
    rcases Nat.lt_trichotomy k e.tasks.length with hk | rfl | hk
    · exact h.fits ((List.getElem?_append_left hk).symm.trans htask)
    · obtain rfl : ⟨rank, tag, .running p⟩ = task :=
        Option.some_inj.1 (List.getElem?_concat_length.symm.trans htask)
      have hnone : callsOf trace e.tasks.length = [] := by
        refine List.filterMap_eq_nil_iff.2 ?_
        rintro ⟨k, entry⟩ hmem
        exact if_neg (Nat.ne_of_lt (hlt hmem))
      exact ⟨[], nofun, hnone⟩
    · have hnone : (e.add rank tag p).2.tasks[k]? = none :=
        List.getElem?_eq_none (by simpa [Executor.add] using Nat.succ_le_of_lt hk)
      rw [hnone] at htask
      cases htask

end Attributed

variable [Transport σ]

/-- To close endpoints is no entry. -/
theorem entries_closeIdle (e : Executor (Ledger σ)) (rank : Rank) :
    (e.closeIdle rank).network.entries = e.network.entries := by
  unfold closeIdle
  dsimp only
  split <;> rfl

/-- Somebody has made each entry, and nobody more than fits. -/
def Accounted (e : Executor (Ledger σ)) : Prop := ∃ trace, e.Attributed trace

namespace Accounted

variable {e e' : Executor (Ledger σ)}

omit [Transport σ] in
theorem of_eq (h : e.Accounted) (htasks : e'.tasks = e.tasks)
    (hentries : e'.network.entries = e.network.entries) : e'.Accounted := by
  obtain ⟨trace, h⟩ := h
  exact ⟨trace, h.of_eq htasks hentries⟩

theorem closeIdle (h : e.Accounted) (rank : Rank) : (e.closeIdle rank).Accounted :=
  h.of_eq rfl (entries_closeIdle e rank)

theorem step (h : e.Accounted) (k : TaskId) : (e.step k).2.Accounted := by
  obtain ⟨trace, h⟩ := h
  unfold Executor.step
  cases htask : e.tasks[k]? with
  | none => exact ⟨trace, h⟩
  | some task =>
    have hfits := h.fits htask
    dsimp only
    cases hstatus : task.status with
    | finished | crashed | aborted => exact ⟨trace, h⟩
    | aborting =>
      rw [hstatus] at hfits
      have hgone : Accounted { e with tasks := e.tasks.set k { task with status := .aborted } } :=
        ⟨_, h.act htask [] (Attributed.getElem?_set htask _) (List.append_nil _).symm
          ((List.append_nil (callsOf trace k)).symm ▸ hfits)⟩
      exact hgone.closeIdle task.rank
    | running p =>
      rw [hstatus] at hfits
      obtain ⟨new, hentries, hmove⟩ := exists_entries_move e.network task.rank task.tag p
      dsimp only
      split
      · have happlied : (e.apply k task (move e.network task.rank task.tag p)).Accounted :=
          ⟨_, h.act htask new (Attributed.getElem?_set htask _) hentries (hmove _ hfits)⟩
        exact happlied.closeIdle task.rank
      · next hmoved =>
        -- The task has asked in vain, and stays as it is.
        have hsame := status_of_not_moved e.network task.rank task.tag (Bool.eq_false_iff.2 hmoved)
        refine ⟨_, h.act htask new (s := task.status) ?_ hentries ?_⟩
        · intro t
          split
          · next hk => exact hk ▸ htask
          · rfl
        · rw [hstatus, ← hsame]
          exact hmove _ hfits

/-- A task that is given up has its tag abandoned, if it has not come to its end before. -/
theorem abort (h : e.Accounted) (k : TaskId) : (e.abort k).Accounted := by
  obtain ⟨trace, h⟩ := h
  unfold Executor.abort
  cases htask : e.tasks[k]? with
  | none => exact ⟨trace, h⟩
  | some task =>
    have hfits := h.fits htask
    dsimp only
    cases hstatus : task.status with
    | running p =>
      rw [hstatus] at hfits
      exact ⟨_, h.act htask [.abandon] (Attributed.getElem?_set htask _) rfl
        (hfits.release .aborting)⟩
    | finished | crashed | aborting | aborted => exact ⟨trace, h⟩

theorem evolves {given : TaskId → Prop} (h : e.Accounted) (he : e.Evolves given e') :
    e'.Accounted := by
  induction he with
  | refl => exact h
  | add _ rank tag p ih =>
    obtain ⟨trace, ih⟩ := ih
    exact ⟨trace, ih.add rank tag p⟩
  | step _ k ih => exact ih.step k
  | requeue _ ready ih => exact ih.of_eq rfl rfl
  | @abort _ _ k _ ih => exact ih.abort k
  | @release e' _ rank ih =>
    have hreleased : Accounted { e' with released := rank :: e'.released } := ih.of_eq rfl rfl
    exact hreleased.closeIdle rank

end Accounted

end Executor

/-! ## Sessions -/

namespace Session

variable {σ : Type} [Transport σ] {s : Session (Ledger σ)}

/-- Whatever is asked of a session, every entry is some task's. -/
theorem accounted_call (h : s.executor.Accounted) (c : Call) : (s.call c).executor.Accounted :=
  h.evolves (s.evolves_call c)

/-- Whatever has been asked of a session, every entry of its ledger is some task's. -/
theorem exists_attributed (network : σ) (registry : Registry) (communicators : List Communicator)
    (history : List Call) :
    ∃ trace, ((ofCommunicators (⟨network, []⟩ : Ledger σ) registry communicators).calls
      history).executor.Attributed trace := by
  have hbegun : (ofCommunicators (⟨network, []⟩ : Ledger σ) registry
      communicators).executor.Accounted := ⟨[], rfl, nofun, nofun⟩
  generalize ofCommunicators (⟨network, []⟩ : Ledger σ) registry communicators = s at hbegun
  induction history generalizing s with
  | nil => exact hbegun
  | cons c history ih => exact ih _ (accounted_call hbegun c)

end Session

end Collectives
