import Collectives.Proofs.Standing

/-!
# Open endpoints

A member meets a mishap only for one of two reasons: it was given up itself, or the endpoint of a
rank that it sends to was closed (`TrackedRun.caused`).  What closes an endpoint is never undone, so
where all endpoints are open at the end of a run they were open all the time, and who was not
given up has met no mishap (`TrackedRun.no_mishap`).

An executor that has released no endpoint closes none by itself, so its steps keep everything open
(`Executor.StaysOpen.step`).
-/

namespace Collectives

namespace Mesh

theorem open_iff {mesh : Mesh} {rank : Rank} :
    mesh.Open rank ↔ ∃ box, mesh.mailbox? rank = some box ∧ box.isOpen = true := by
  constructor
  · rintro ⟨tags, h⟩
    obtain ⟨box, hbox, hg⟩ := Option.map_eq_some_iff.1 h
    exact ⟨box, hbox, (Prod.mk.inj hg).1⟩
  · rintro ⟨box, hbox, hopen⟩
    exact ⟨box.abandoned, by rw [gate, hbox, Option.map_some, hopen]⟩

theorem open_abandon {mesh : Mesh} {own rank : Rank} {tag : Tag} :
    (mesh.abandon own tag).Open rank ↔ mesh.Open rank := by
  rw [open_iff, open_iff, abandon, mailbox?_update]
  by_cases h : own = rank
  · rw [if_pos h]
    cases mesh.mailbox? rank with
    | none => simp
    | some box => simp [Mailbox.abandon, Mailbox.retire]
  · rw [if_neg h]

/-- Closing an endpoint opens none. -/
theorem Open.of_close {mesh : Mesh} {own rank : Rank} (h : (mesh.close own).Open rank) :
    mesh.Open rank := by
  rw [open_iff, close, mailbox?_update] at h
  obtain ⟨box, hbox, hopen⟩ := h
  by_cases hown : own = rank
  · rw [if_pos hown] at hbox
    obtain ⟨box', -, rfl⟩ := Option.map_eq_some_iff.1 hbox
    cases hopen
  · rw [if_neg hown] at hbox
    exact open_iff.2 ⟨box, hbox, hopen⟩

theorem not_open_close {mesh : Mesh} {own : Rank} : ¬(mesh.close own).Open own := by
  rw [open_iff, close, mailbox?_update, if_pos rfl]
  rintro ⟨box, hbox, hopen⟩
  obtain ⟨box', -, rfl⟩ := Option.map_eq_some_iff.1 hbox
  cases hopen

/-- A send that is refused was to an endpoint that is not open. -/
theorem not_open_of_refused {mesh mesh' : Mesh} {own dest : Rank} {tag : Tag} {data : Bytes}
    {cause : Error} (h : mesh.send own dest tag data = (.error cause, mesh')) :
    ¬mesh.Open dest := by
  rintro ⟨tags, hg⟩
  have hok := send_fst_of_gate own tag data hg
  rw [h] at hok
  cases hok

/-- Every rank of the world lets messages in. -/
def AllOpen (mesh : Mesh) : Prop := ∀ rank : Rank, rank.toNat < mesh.size → mesh.Open rank

theorem AllOpen.of_close {mesh : Mesh} {own : Rank} (h : (mesh.close own).AllOpen) :
    mesh.AllOpen := by
  intro rank hrank
  exact (h rank (by rwa [size_close])).of_close

/-- Whether all ranks let messages in can be read off the mailboxes. -/
theorem allOpen_of_mailboxes {mesh : Mesh} (h : ∀ box ∈ mesh.mailboxes, box.isOpen = true) :
    mesh.AllOpen := by
  intro rank hrank
  have hbox : mesh.mailbox? rank = some mesh.mailboxes[rank.toNat] := List.getElem?_eq_getElem hrank
  exact open_iff.2 ⟨_, hbox, h _ (List.getElem_mem hrank)⟩

end Mesh

theorem StepEffect.open_iff {r r' : Recorded Mesh} {own : Rank} {tag : Tag} {p : Program Bytes}
    {new : List Event} {s : Status} (h : StepEffect r own tag p new s r') (rank : Rank) :
    r'.network.Open rank ↔ r.network.Open rank := by
  rw [Mesh.Open, Mesh.Open, h.gate_eq]

theorem StepEffect.allOpen_iff {r r' : Recorded Mesh} {own : Rank} {tag : Tag} {p : Program Bytes}
    {new : List Event} {s : Status} (h : StepEffect r own tag p new s r') :
    r'.network.AllOpen ↔ r.network.AllOpen := by
  simp only [Mesh.AllOpen, h.size_eq, h.open_iff]

/-! ## Members that were given up -/

/-- The task was given up, whether or not its turn has come since. -/
def Status.IsGivenUp : Status → Prop
  | .aborting | .aborted => True
  | .running _ | .finished _ | .crashed => False

instance : DecidablePred Status.IsGivenUp
  | .aborting | .aborted => .isTrue trivial
  | .running _ | .finished _ | .crashed => .isFalse id

/-- The task of a rank under a tag was given up. -/
def Roll.GivenUp (roll : Roll) (rank : Rank) (tag : Tag) : Prop :=
  ∃ s, roll rank tag = some s ∧ s.IsGivenUp

namespace Roll

variable {roll : Roll} {own rank : Rank} {tag other : Tag} {s : Status}

theorem givenUp_iff (h : roll rank tag = some s) : roll.GivenUp rank tag ↔ s.IsGivenUp := by
  constructor
  · rintro ⟨s', hs', hup⟩
    rw [h, Option.some_inj] at hs'
    rwa [hs']
  · intro hup
    exact ⟨s, h, hup⟩

theorem not_givenUp_of_running {p : Program Bytes} (h : roll rank tag = some (.running p)) :
    ¬roll.GivenUp rank tag := fun hup => (givenUp_iff h).1 hup

theorem exists_running_of_any (h : (roll rank tag).any Status.isRunning) :
    ∃ p, roll rank tag = some (.running p) := by
  cases hs : roll rank tag with
  | none =>
    rw [hs] at h
    cases h
  | some s =>
    rw [hs] at h
    cases s with
    | running p => exact ⟨p, rfl⟩
    | finished | crashed | aborting | aborted => cases h

theorem not_givenUp_of_none (h : roll rank tag = none) : ¬roll.GivenUp rank tag := by
  rintro ⟨s, hs, -⟩
  rw [h] at hs
  cases hs

theorem not_givenUp_of_tasks {tasks : List Task}
    (h : ∀ task ∈ tasks, ¬task.status.IsGivenUp) : ¬(ofTasks tasks).GivenUp rank tag := by
  rintro ⟨s, hs, hup⟩
  obtain ⟨k, hk⟩ := exists_of_ofTasks hs
  exact h _ (List.mem_of_getElem? hk) hup

/-- Who is given up stays given up, whatever is entered for others. -/
theorem GivenUp.set (h : roll.GivenUp rank other) (hown : roll.GivenUp own tag → s.IsGivenUp) :
    (roll.set own tag s).GivenUp rank other := by
  by_cases hkey : rank = own ∧ other = tag
  · obtain ⟨rfl, rfl⟩ := hkey
    exact ⟨s, set_self _, hown h⟩
  · obtain ⟨s', hs', hup⟩ := h
    exact ⟨s', (set_of_ne _ hkey).trans hs', hup⟩

end Roll

/-! ## Why mishaps happen -/

/-- Every mishap under a tag has its cause, and the programs under way go on to communicate with
their peers only. -/
structure Caused (tag : Tag) (peer : Rank → Prop) (roll : Roll) (r : Recorded Mesh) : Prop where
  among : ∀ {rank : Rank} {p : Program Bytes}, roll rank tag = some (.running p) → p.Among peer
  refused : ∀ {rank dest : Rank} {data : Bytes}, .sendFailed dest data ∈ r.events rank tag →
    peer dest ∧ ¬r.network.Open dest
  abandoned : ∀ {rank : Rank}, .abandoned ∈ r.events rank tag → roll.GivenUp rank tag

theorem StepEffect.among {r r' : Recorded Mesh} {own : Rank} {tag : Tag} {p q : Program Bytes}
    {new : List Event} {peer : Rank → Prop} (h : StepEffect r own tag p new (.running q) r')
    (hp : p.Among peer) : q.Among peer := by
  cases h with
  | reported entry next => exact hp
  | sent data next hdest => exact hp.2 _
  | refused data next cause _ => exact hp.2 _
  | received next hown hsrc hq => exact hp.2 _
  | unanswered next cause hnone _ => exact hp.2 _
  | waiting next hown hsrc hq => exact hp

/-- A step is a mishap only if it sends to a peer whose endpoint is not open. -/
theorem StepEffect.mishap_caused {r r' : Recorded Mesh} {own : Rank} {tag : Tag} {p : Program Bytes}
    {new : List Event} {s : Status} {peer : Rank → Prop} (h : StepEffect r own tag p new s r')
    (hp : p.Among peer) {event : Event} (hevent : event ∈ new) (hmishap : event.IsMishap) :
    ∃ dest data, event = .sendFailed dest data ∧ peer dest ∧ ¬r.network.Open dest := by
  cases h with
  | ended | sent | received =>
    rw [List.mem_singleton.1 hevent] at hmishap
    exact hmishap.elim
  | crashed | reported | unanswered | waiting => cases hevent
  | refused data next cause hrefused =>
    exact ⟨_, _, List.mem_singleton.1 hevent, hp.1, Mesh.not_open_of_refused hrefused⟩

namespace Caused

variable {tag other : Tag} {peer : Rank → Prop} {roll : Roll} {r r' : Recorded Mesh} {own : Rank}
  {p : Program Bytes} {s : Status} {new : List Event}

/-- Where the history of the tag is as it was, it is enough that what is entered on the roll is
a program among the peers. -/
theorem set (h : Caused tag peer roll r) (hown : roll.GivenUp own other → s.IsGivenUp)
    (hs : tag = other → ∀ q, s = .running q → q.Among peer) :
    Caused tag peer (roll.set own other s) r := by
  refine ⟨?_, h.refused, fun hevent => (h.abandoned hevent).set hown⟩
  intro rank q hq
  by_cases hkey : rank = own ∧ tag = other
  · obtain ⟨rfl, rfl⟩ := hkey
    rw [Roll.set_self, Option.some_inj] at hq
    exact hs rfl q hq
  · rw [Roll.set_of_ne _ hkey] at hq
    exact h.among hq

theorem acted (h : Caused tag peer roll r) (hp : roll own other = some (.running p))
    (heffect : StepEffect r own other p new s r') : Caused tag peer (roll.set own other s) r' := by
  have hset : Caused tag peer (roll.set own other s) r := by
    refine h.set (fun hup => absurd hup (Roll.not_givenUp_of_running hp)) ?_
    rintro rfl q rfl
    exact heffect.among (h.among hp)
  have hevents : ∀ {rank : Rank} {event : Event}, event ∈ r'.events rank tag →
      event ∈ r.events rank tag ∨ (rank = own ∧ tag = other) ∧ event ∈ new := by
    intro rank event hevent
    rw [heffect.events_eq] at hevent
    split at hevent
    · next hkey => exact (List.mem_append.1 hevent).imp_right fun hnew => ⟨hkey, hnew⟩
    · exact .inl hevent
  have hcaused : ∀ {rank : Rank} {event : Event}, (rank = own ∧ tag = other) ∧ event ∈ new →
      event.IsMishap →
        ∃ dest data, event = .sendFailed dest data ∧ peer dest ∧ ¬r.network.Open dest := by
    rintro rank event ⟨⟨rfl, rfl⟩, hnew⟩ hmishap
    exact heffect.mishap_caused (h.among hp) hnew hmishap
  refine ⟨hset.among, ?_, ?_⟩
  · intro rank dest data hevent
    rw [heffect.open_iff]
    rcases hevents hevent with hbefore | hnew
    · exact h.refused hbefore
    · obtain ⟨dest', data', heq, hpeer, hopen⟩ := hcaused hnew trivial
      cases heq
      exact ⟨hpeer, hopen⟩
  · intro rank hevent
    rcases hevents hevent with hbefore | hnew
    · exact hset.abandoned hbefore
    · obtain ⟨dest, data, heq, -⟩ := hcaused hnew trivial
      cases heq

theorem given_up (h : Caused tag peer roll r) (hp : roll own other = some (.running p)) :
    Caused tag peer (roll.set own other .aborting) (Transport.abandon r own other) := by
  have hset : Caused tag peer (roll.set own other .aborting) r :=
    h.set (fun _ => trivial) fun _ => nofun
  have hevents : ∀ rank, (Transport.abandon r own other).events rank tag =
      if rank = own ∧ tag = other then r.events rank tag ++ [.abandoned]
      else r.events rank tag :=
    fun rank => Recorded.events_note r _ own rank other tag .abandoned
  refine ⟨hset.among, ?_, ?_⟩
  · intro rank dest data hevent
    have hbefore : .sendFailed dest data ∈ r.events rank tag := by
      rw [hevents] at hevent
      split at hevent
      · simpa using hevent
      · exact hevent
    exact ⟨(h.refused hbefore).1, fun hopen => (h.refused hbefore).2 (Mesh.open_abandon.1 hopen)⟩
  · intro rank hevent
    rw [hevents] at hevent
    split at hevent
    · next hkey =>
      obtain ⟨rfl, rfl⟩ := hkey
      exact ⟨.aborting, Roll.set_self _, trivial⟩
    · exact hset.abandoned hevent

end Caused

section

variable {assigned : Rank → Tag → Program Bytes → Prop} {size : Nat} {roll : Roll}
  {r : Recorded Mesh} {tag : Tag} {peer : Rank → Prop}

/-- Whatever happens, every mishap under a tag whose programs communicate with peers only has one
of the two causes. -/
theorem TrackedRun.caused (h : TrackedRun assigned size roll r)
    (hassigned : ∀ {rank p}, assigned rank tag p → p.Among peer) : Caused tag peer roll r := by
  induction h with
  | begun => exact ⟨nofun, nofun, nofun⟩
  | started _ hp hnew ih =>
    refine ih.set (fun hup => absurd hup (Roll.not_givenUp_of_none hnew)) ?_
    rintro rfl q ⟨⟩
    exact hassigned hp
  | acted _ hp heffect ih => exact ih.acted hp heffect
  | abandoned _ hp ih => exact ih.given_up hp
  | vanished _ hp ih => exact ih.set (fun _ => trivial) fun _ => nofun
  | closed _ own ih =>
    refine ⟨ih.among, ?_, ih.abandoned⟩
    intro rank dest data hevent
    obtain ⟨hpeer, hopen⟩ := ih.refused hevent
    exact ⟨hpeer, fun hclosed => hopen hclosed.of_close⟩

/-- Where all endpoints are open, who was not given up has met no mishap. -/
theorem TrackedRun.no_mishap (h : TrackedRun assigned size roll r)
    (hassigned : ∀ {rank p}, assigned rank tag p → p.Among (·.toNat < size))
    (hopen : r.network.AllOpen)
    {rank : Rank} (hkept : ¬roll.GivenUp rank tag) :
    ∀ event ∈ r.events rank tag, ¬event.IsMishap := by
  intro event hevent hmishap
  have hcaused := h.caused hassigned
  cases event with
  | sent | received | retired => exact hmishap
  | sendFailed dest data =>
    obtain ⟨hdest, hclosed⟩ := hcaused.refused hevent
    exact hclosed (hopen dest (by rwa [h.orderly.size_eq]))
  | abandoned => exact hkept (hcaused.abandoned hevent)

end

/-! ## Executors that close nothing -/

namespace Executor

/-- Every endpoint is open, and none is to be closed when its tasks are over. -/
structure StaysOpen (e : Executor (Recorded Mesh)) : Prop where
  unreleased : e.released = []
  allOpen : e.network.network.AllOpen

theorem closeIdle_of_unreleased {σ : Type} [Transport σ] {e : Executor σ} (h : e.released = [])
    (rank : Rank) : e.closeIdle rank = e := by
  have hidle : (decide (rank ∈ e.released) && !e.isBusy rank) = false := by simp [h]
  rw [closeIdle, hidle]
  rfl

variable {assigned : Rank → Tag → Program Bytes → Prop} {size : Nat} {e : Executor (Recorded Mesh)}

theorem StaysOpen.step (h : e.StaysOpen) (k : TaskId) : (e.step k).2.StaysOpen := by
  unfold Executor.step
  cases e.tasks[k]? with
  | none => exact h
  | some task =>
    dsimp only
    cases task.status with
    | running p =>
      obtain ⟨new, heffect⟩ := stepEffect_move e.network task.rank task.tag p
      have hopen := heffect.allOpen_iff.2 h.allOpen
      dsimp only
      split
      · rw [closeIdle_of_unreleased (by exact h.unreleased)]
        exact ⟨h.unreleased, hopen⟩
      · exact ⟨h.unreleased, hopen⟩
    | aborting =>
      dsimp only
      rw [closeIdle_of_unreleased (by exact h.unreleased)]
      exact ⟨h.unreleased, h.allOpen⟩
    | finished | crashed | aborted => exact h

/-- A step enters the next status of one task on the roll, or none. -/
theorem Tracked.roll_step (h : e.Tracked assigned size) (k : TaskId) :
    (e.step k).2.roll = e.roll ∨ ∃ own tag s s', e.roll own tag = some s ∧ s'.Precedes s ∧
      (e.step k).2.roll = e.roll.set own tag s' := by
  rcases e.tasks_step k with htasks | ⟨task, s, hk, hs, htasks⟩
  · exact .inl (congrArg Roll.ofTasks htasks)
  · refine .inr ⟨_, _, _, s, Roll.ofTasks_eq_some h.distinct hk, hs, ?_⟩
    rw [roll, htasks, Roll.ofTasks_set h.distinct hk, roll]

/-- A step starts no task and gives none up. -/
theorem Tracked.step_kept (h : e.Tracked assigned size) (k : TaskId) {rank : Rank} {tag : Tag}
    (hstarted : e.roll rank tag ≠ none) (hkept : ¬e.roll.GivenUp rank tag) :
    (e.step k).2.roll rank tag ≠ none ∧ ¬(e.step k).2.roll.GivenUp rank tag := by
  rcases h.roll_step k with heq | ⟨own, other, s, s', hs, hprecedes, heq⟩
  · rw [heq]
    exact ⟨hstarted, hkept⟩
  · rw [heq]
    by_cases hkey : rank = own ∧ tag = other
    · obtain ⟨rfl, rfl⟩ := hkey
      rw [Roll.givenUp_iff hs] at hkept
      rw [Roll.givenUp_iff (Roll.set_self _), Roll.set_self]
      refine ⟨nofun, ?_⟩
      cases hprecedes with
      | running | finished | crashed => exact id
      | aborted => exact fun _ => hkept trivial
    · rw [Roll.GivenUp, Roll.set_of_ne _ hkey]
      exact ⟨hstarted, hkept⟩

end Executor

end Collectives
