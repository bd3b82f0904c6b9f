import Collectives.Proofs.Openness

/-!
# Schedules do not matter

Let every rank have a program for every tag, whatever these programs do: they may let what they
receive decide what they do next, address ranks that do not exist, and go on after errors.  As long
as all endpoints are open and nobody is given up, it does not matter in which order the tasks are
started and take their steps.  Any two runs in which the same tasks were started and nobody has a
step left to take have the same histories, and every task stands where it stands in the other
(`Executor.schedule_independent`).

A history leaves a program no choice (`Status.Leads.tail`), since on an open mesh a refusal says
only that there is no such rank.  So it is enough that histories agree.  The history of a task in
one run is the beginning of its history in any other that has come to rest
(`FaultFreeRun.events_prefix`): what it receives next was sent, the sender has sent it in the other
run as well, and a task does not rest while a message waits for it.
-/

namespace Collectives

namespace Mesh

variable {mesh mesh' : Mesh} {own src dest : Rank} {tag : Tag} {cause : Error}

/-- On an open mesh only sends to ranks that do not exist are refused. -/
theorem noRank_of_refused {data : Bytes} (hopen : mesh.AllOpen)
    (h : mesh.send own dest tag data = (.error cause, mesh')) :
    ¬dest.toNat < mesh.size ∧ cause = .invalidRank dest (UInt32.ofNat mesh.size) := by
  have hnone : ¬dest.toNat < mesh.size := fun hlt => not_open_of_refused h (hopen dest hlt)
  have hbox : mesh.mailbox? dest = none := List.getElem?_eq_none (Nat.not_lt.1 hnone)
  rw [send, hbox] at h
  cases h
  exact ⟨hnone, rfl⟩

/-- Closing the endpoint of a rank that does not exist does nothing. -/
theorem close_of_no_rank (h : ¬own.toNat < mesh.size) : mesh.close own = mesh := by
  have hmodify := List.modify_eq_self (f := (·.close)) (l := mesh.mailboxes) (Nat.not_lt.1 h)
  rw [close, update, hmodify]

/-- A receive that is answered with an error is told which rank does not exist. -/
theorem noRank_of_unanswered
    (h : mesh.receive own src tag = (some (.error cause), mesh')) :
    cause = .invalidRank (if src.toNat < mesh.size then own else src) (UInt32.ofNat mesh.size) := by
  unfold receive at h
  cases hsrc : mesh.mailbox? src with
  | none =>
    have hlt : ¬src.toNat < mesh.size := Nat.not_lt.2 (List.getElem?_eq_none_iff.1 hsrc)
    rw [hsrc] at h
    cases h
    rw [if_neg hlt]
    rfl
  | some box =>
    have hlt : src.toNat < mesh.size := (List.getElem?_eq_some_iff.1 hsrc).1
    rw [if_pos hlt]
    cases hown : mesh.mailbox? own with
    | none =>
      rw [hsrc, hown] at h
      cases h
      rfl
    | some box' =>
      rw [hsrc, hown] at h
      cases hhead : (box'.queue (src, tag)).head? with
      | none => simp [hhead] at h
      | some data => simp [hhead] at h

end Mesh

/-! ## Where a history leads -/

namespace Status

variable {size : Nat} {own : Rank} {s s' t : Status} {h h' : List Event}

/-- On an open mesh of some size, a task of this rank that does what is in the history comes from
the first status to the second. -/
inductive Leads (size : Nat) (own : Rank) : Status → List Event → Status → Prop where
  | refl (s : Status) : Leads size own s [] s
  | returned (value : Bytes) :
      Leads size own (.running (.ret value)) [.retired] (.finished (.ok value))
  | failed (error : Error) :
      Leads size own (.running (.fail error)) [.retired] (.finished (.error error))
  | crashed : Leads size own (.running .crash) [] .crashed
  | reported {entry : Observation} {next : Program Bytes} {h : List Event} {s : Status}
      (hs : Leads size own (.running next) h s) :
      Leads size own (.running (.report entry next)) h s
  | sent {dest : Rank} {data : Bytes} {next : Except Error Unit → Program Bytes} {h : List Event}
      {s : Status} (hdest : dest.toNat < size)
      (hs : Leads size own (.running (next (.ok ()))) h s) :
      Leads size own (.running (.send dest data next)) (.sent dest data :: h) s
  | refused {dest : Rank} {data : Bytes} {next : Except Error Unit → Program Bytes}
      {h : List Event} {s : Status} (hdest : ¬dest.toNat < size)
      (hs : Leads size own (.running (next (.error (.invalidRank dest (UInt32.ofNat size))))) h s) :
      Leads size own (.running (.send dest data next)) (.sendFailed dest data :: h) s
  | received {src : Rank} {data : Bytes} {next : Except Error Bytes → Program Bytes}
      {h : List Event} {s : Status} (hranks : own.toNat < size ∧ src.toNat < size)
      (hs : Leads size own (.running (next (.ok data))) h s) :
      Leads size own (.running (.recv src next)) (.received src data :: h) s
  | unanswered {src : Rank} {next : Except Error Bytes → Program Bytes} {h : List Event}
      {s : Status} (hranks : ¬(own.toNat < size ∧ src.toNat < size))
      (hs : Leads size own (.running (next (.error (.invalidRank
        (if src.toNat < size then own else src) (UInt32.ofNat size))))) h s) :
      Leads size own (.running (.recv src next)) h s

/-- The task is over, or it waits for a message from a rank that exists. -/
inductive Rests (size : Nat) (own : Rank) : Status → Prop where
  | waiting {src : Rank} (next : Except Error Bytes → Program Bytes)
      (hranks : own.toNat < size ∧ src.toNat < size) : Rests size own (.running (.recv src next))
  | finished (outcome : Except Error Bytes) : Rests size own (.finished outcome)
  | crashed : Rests size own .crashed

namespace Leads

theorem trans (hs : Leads size own s h s') (ht : Leads size own s' h' t) :
    Leads size own s (h ++ h') t := by
  induction hs with
  | refl s => exact ht
  | returned value =>
    cases ht with
    | refl => exact .returned value
  | failed error =>
    cases ht with
    | refl => exact .failed error
  | crashed =>
    cases ht with
    | refl => exact .crashed
  | reported _ ih => exact .reported (ih ht)
  | sent hdest _ ih => exact .sent hdest (ih ht)
  | refused hdest _ ih => exact .refused hdest (ih ht)
  | received hranks _ ih => exact .received hranks (ih ht)
  | unanswered hranks _ ih => exact .unanswered hranks (ih ht)

/-- From where the beginning of a history leads, the rest of it leads on to where the whole
leads, if that is where the task comes to rest. -/
theorem tail (hs : Leads size own s h s') (ht : Leads size own s (h ++ h') t)
    (hrest : t.Rests size own) : Leads size own s' h' t := by
  induction hs with
  | refl s => exact ht
  | returned value =>
    cases ht with
    | returned => exact .refl _
  | failed error =>
    cases ht with
    | failed => exact .refl _
  | crashed =>
    cases ht with
    | refl => cases hrest
    | crashed => exact .refl _
  | @reported entry next h s' _ ih =>
    generalize h ++ h' = whole at ih ht
    cases ht with
    | refl => cases hrest
    | reported ht => exact ih ht
  | sent hdest _ ih =>
    cases ht with
    | sent _ ht => exact ih ht
  | refused hdest _ ih =>
    cases ht with
    | refused _ ht => exact ih ht
  | received hranks _ ih =>
    cases ht with
    | received _ ht => exact ih ht
    | unanswered hnone _ => exact absurd hranks hnone
  | @unanswered src next h s' hnone _ ih =>
    generalize h ++ h' = whole at ih ht
    cases ht with
    | refl =>
      cases hrest with
      | waiting _ hranks => exact absurd hranks hnone
    | received hranks _ => exact absurd hranks hnone
    | unanswered _ ht => exact ih ht

/-- No history makes a task given up. -/
theorem not_givenUp (hs : Leads size own s h s') (hkept : ¬s.IsGivenUp) : ¬s'.IsGivenUp := by
  induction hs with
  | refl s => exact hkept
  | returned | failed | crashed => exact id
  | reported _ ih | sent _ _ ih | refused _ _ ih | received _ _ ih | unanswered _ _ ih =>
    exact ih id

/-- A history leads to one place of rest only. -/
theorem rests_unique (hs : Leads size own s h s') (ht : Leads size own s h t)
    (hs' : s'.Rests size own) (ht' : t.Rests size own) : s' = t := by
  have hnil : Leads size own s' [] t := by
    refine hs.tail ?_ ht'
    rwa [List.append_nil]
  cases hs' with
  | waiting next hranks =>
    cases hnil with
    | refl => rfl
    | unanswered hnone _ => exact absurd hranks hnone
  | finished outcome =>
    cases hnil
    rfl
  | crashed =>
    cases hnil
    rfl

end Leads

end Status

theorem StepEffect.leads {r r' : Recorded Mesh} {own : Rank} {tag : Tag} {p : Program Bytes}
    {new : List Event} {s : Status} (h : StepEffect r own tag p new s r')
    (hopen : r.network.AllOpen) : Status.Leads r.network.size own (.running p) new s := by
  cases h with
  | ended outcome =>
    cases outcome with
    | ok value => exact .returned value
    | error error => exact .failed error
  | crashed => exact .crashed
  | reported entry next => exact .reported (.refl _)
  | sent data next hdest => exact .sent hdest.lt_size (.refl _)
  | refused data next cause hrefused =>
    obtain ⟨hnone, rfl⟩ := Mesh.noRank_of_refused hopen hrefused
    exact .refused hnone (.refl _)
  | received next hown hsrc hq => exact .received ⟨hown, hsrc⟩ (.refl _)
  | unanswered next cause hnone hcause =>
    obtain rfl := Mesh.noRank_of_unanswered hcause
    exact .unanswered hnone (.refl _)
  | waiting next hown hsrc hq => exact .refl _

/-! ## Runs without faults -/

section

variable {program : Rank → Tag → Program Bytes} {size : Nat} {roll roll' : Roll}
  {r r' : Recorded Mesh} {rank : Rank} {tag : Tag} {s : Status}

/-- The rolls and the meshes to which the tasks of a family of programs come while all endpoints
are open and nobody is given up. -/
inductive FaultFreeRun (program : Rank → Tag → Program Bytes) (size : Nat) :
    Roll → Recorded Mesh → Prop where
  | begun : FaultFreeRun program size (fun _ _ => none) { network := .ofSize size }
  | started {roll : Roll} {r : Recorded Mesh} {own : Rank} {tag : Tag}
      (h : FaultFreeRun program size roll r) (hnew : roll own tag = none) :
      FaultFreeRun program size (roll.set own tag (.running (program own tag))) r
  | acted {roll : Roll} {r r' : Recorded Mesh} {own : Rank} {tag : Tag} {p : Program Bytes}
      {new : List Event} {s : Status} (h : FaultFreeRun program size roll r)
      (hopen : r.network.AllOpen) (hp : roll own tag = some (.running p))
      (heffect : StepEffect r own tag p new s r') :
      FaultFreeRun program size (roll.set own tag s) r'

/-- Where all endpoints are open and nobody is given up, this was so all the time. -/
theorem TrackedRun.faultFreeRun
    (h : TrackedRun (fun rank tag p => p = program rank tag) size roll r)
    (hopen : r.network.AllOpen) (hkept : ∀ rank tag, ¬roll.GivenUp rank tag) :
    FaultFreeRun program size roll r := by
  induction h with
  | begun => exact .begun
  | started h hassigned hnew ih =>
    subst hassigned
    refine .started (ih hopen ?_) hnew
    intro rank tag hup
    exact hkept rank tag (hup.set fun hown => absurd hown (Roll.not_givenUp_of_none hnew))
  | acted h hp heffect ih =>
    have hbefore := heffect.allOpen_iff.1 hopen
    refine .acted (ih hbefore ?_) hbefore hp heffect
    intro rank tag hup
    exact hkept rank tag (hup.set fun hown => absurd hown (Roll.not_givenUp_of_running hp))
  | abandoned h hp => exact absurd ⟨_, Roll.set_self _, trivial⟩ (hkept _ _)
  | vanished h hp => exact absurd ⟨_, Roll.set_self _, trivial⟩ (hkept _ _)
  | @closed roll r h own ih =>
    -- only an endpoint that does not exist can have been closed
    have hnone : ¬own.toNat < r.network.size := by
      intro hlt
      exact Mesh.not_open_close (hopen own (by rwa [← Mesh.size_close r.network own] at hlt))
    have hsame : Transport.close r own = r := by
      show { r with network := r.network.close own } = r
      rw [Mesh.close_of_no_rank hnone]
    rw [hsame]
    exact ih hopen.of_close hkept

namespace FaultFreeRun

theorem orderly (h : FaultFreeRun program size roll r) : Orderly size roll r := by
  induction h with
  | begun => exact .begun size
  | started _ hnew ih => exact ih.started hnew _
  | acted _ _ hp heffect ih => exact ih.acted hp heffect

/-- The history of a task leads from its program to where it stands. -/
theorem leads (h : FaultFreeRun program size roll r) (hs : roll rank tag = some s) :
    Status.Leads size rank (.running (program rank tag)) (r.events rank tag) s := by
  induction h generalizing rank tag s with
  | begun => cases hs
  | @started roll r own other h hnew ih =>
    by_cases hkey : rank = own ∧ tag = other
    · obtain ⟨rfl, rfl⟩ := hkey
      rw [Roll.set_self, Option.some_inj] at hs
      rw [h.orderly.silent hnew, ← hs]
      exact .refl _
    · rw [Roll.set_of_ne _ hkey] at hs
      exact ih hs
  | @acted roll r r' own other p new s' h hopen hp heffect ih =>
    rw [heffect.events_eq]
    by_cases hkey : rank = own ∧ tag = other
    · obtain ⟨rfl, rfl⟩ := hkey
      rw [Roll.set_self, Option.some_inj] at hs
      have hnew := heffect.leads hopen
      rw [h.orderly.size_eq, hs] at hnew
      rw [if_pos ⟨rfl, rfl⟩]
      exact (ih hp).trans hnew
    · rw [Roll.set_of_ne _ hkey] at hs
      rw [if_neg hkey]
      exact ih hs

end FaultFreeRun

/-- Whoever is under way waits for a message that is not there. -/
def Resting (roll : Roll) (r : Recorded Mesh) : Prop :=
  ∀ {rank : Rank} {tag : Tag} {p : Program Bytes}, roll rank tag = some (.running p) →
    ∃ src next, p = .recv src next ∧
      (rank.toNat < r.network.size ∧ src.toNat < r.network.size) ∧
      r.network.queue src rank tag = []

namespace FaultFreeRun

theorem rests (h : FaultFreeRun program size roll r) (hrest : Resting roll r)
    (hs : roll rank tag = some s) : s.Rests size rank := by
  have hkept := (h.leads hs).not_givenUp id
  cases s with
  | running p =>
    obtain ⟨src, next, rfl, hranks, -⟩ := hrest hs
    rw [h.orderly.size_eq] at hranks
    exact .waiting next hranks
  | finished outcome => exact .finished outcome
  | crashed => exact .crashed
  | aborting | aborted => exact absurd trivial hkept

section

variable {own src : Rank} {p : Program Bytes} {data data' : Bytes} {queued : List Bytes}

/-- What is queued in one run was sent in another one, in which at least as much was sent. -/
theorem sent_of_queue (h : FaultFreeRun program size roll r) (hp : roll own tag = some (.running p))
    (hq : r.network.queue src own tag = data :: queued)
    (hsent : r.events src tag <+: r'.events src tag) :
    messagesFrom src (r.events own tag) ++ data :: queued <+:
      messagesTo own (r'.events src tag) := by
  have hexpectant : Expectant (roll own tag) := by
    rw [hp]
    exact .running _
  have hconserved := h.orderly.conserved hexpectant src
  rw [Recorded.Conserved, hq] at hconserved
  rw [← hconserved]
  exact messagesTo_mono own hsent

/-- In a run that has come to rest nobody waits for a message that was sent. -/
theorem not_waiting (h : FaultFreeRun program size roll r) (hresting : Resting roll r)
    (hto : messagesFrom src (r.events own tag) ++ data :: queued <+:
      messagesTo own (r.events src tag)) (next : Except Error Bytes → Program Bytes) :
    roll own tag ≠ some (.running (.recv src next)) := by
  intro hs
  obtain ⟨src', next', heq, -, hqueue⟩ := hresting hs
  cases heq
  have hexpectant : Expectant (roll own tag) := by
    rw [hs]
    exact .running _
  have hconserved := h.orderly.conserved hexpectant src
  rw [Recorded.Conserved, hqueue, List.append_nil] at hconserved
  have hle := hto.length_le
  rw [hconserved, List.length_append, List.length_cons] at hle
  omega

/-- The message that is received next is the one that was sent next. -/
theorem received_eq (h : FaultFreeRun program size roll r) {before later : List Event}
    (hevents : before ++ .received src data' :: later = r.events own tag)
    (hto : messagesFrom src before ++ data :: queued <+: messagesTo own (r.events src tag)) :
    data = data' := by
  have hconsumed := h.orderly.consumed own tag src
  rw [← hevents, messagesFrom_append, messagesFrom_received, if_pos rfl] at hconsumed
  obtain ⟨after, hafter⟩ := hto
  obtain ⟨after', hafter'⟩ := hconsumed
  rw [← hafter, List.append_assoc, List.append_assoc, List.append_cancel_left_eq,
    List.cons_append, List.cons_append, List.cons.injEq] at hafter'
  exact hafter'.1.symm

end

/-- What is done next in one run is done next in another that has the same behind it, and more of
what others have sent, before it comes to rest. -/
theorem new_prefix {own : Rank} {p : Program Bytes} {new rest : List Event}
    (h : FaultFreeRun program size roll r) (hopen : r.network.AllOpen)
    (hp : roll own tag = some (.running p)) {r₁ : Recorded Mesh}
    (heffect : StepEffect r own tag p new s r₁)
    (h' : FaultFreeRun program size roll' r') (hresting : Resting roll' r') {s' : Status}
    (hs' : roll' own tag = some s') (hsent : ∀ src, r.events src tag <+: r'.events src tag)
    (hevents : r.events own tag ++ rest = r'.events own tag) : new <+: rest := by
  have hrests := h'.rests hresting hs'
  have hleads : Status.Leads size own (.running p) rest s' := by
    refine (h.leads hp).tail ?_ hrests
    rw [hevents]
    exact h'.leads hs'
  have hsize := h.orderly.size_eq
  cases heffect with
  | ended outcome =>
    cases outcome with
    | ok value =>
      cases hleads with
      | refl => cases hrests
      | returned => exact List.prefix_rfl
    | error e =>
      cases hleads with
      | refl => cases hrests
      | failed => exact List.prefix_rfl
  | crashed | reported | unanswered | waiting => exact List.nil_prefix
  | sent data next hdest =>
    have hlt := hdest.lt_size
    rw [hsize] at hlt
    cases hleads with
    | refl => cases hrests
    | sent _ _ => exact ⟨_, rfl⟩
    | refused hnone _ => exact absurd hlt hnone
  | refused data next cause hrefused =>
    obtain ⟨hnone, -⟩ := Mesh.noRank_of_refused hopen hrefused
    rw [hsize] at hnone
    cases hleads with
    | refl => cases hrests
    | sent hlt _ => exact absurd hlt hnone
    | refused _ _ => exact ⟨_, rfl⟩
  | @received src next data queued hown hsrc hq =>
    have hto := h.sent_of_queue hp hq (hsent src)
    rw [hsize] at hown hsrc
    cases hleads with
    | refl =>
      -- there it would wait for a message that is on its way
      rw [List.append_nil] at hevents
      rw [hevents] at hto
      exact absurd hs' (h'.not_waiting hresting hto next)
    | received _ _ =>
      rw [h'.received_eq hevents hto]
      exact ⟨_, rfl⟩
    | unanswered hnone _ => exact absurd ⟨hown, hsrc⟩ hnone

/-- The history of a task in any run is the beginning of its history in a run that has come to
rest, if all tasks of the one were started in the other as well. -/
theorem events_prefix (h : FaultFreeRun program size roll r)
    (h' : FaultFreeRun program size roll' r') (hresting : Resting roll' r')
    (hstarted : ∀ rank tag, roll' rank tag = none → roll rank tag = none) (rank : Rank)
    (tag : Tag) : r.events rank tag <+: r'.events rank tag := by
  induction h generalizing rank tag with
  | begun => exact List.nil_prefix
  | started _ hnew ih =>
    exact ih (fun rank tag hnone => (Roll.eq_none_of_set (hstarted rank tag hnone)).2) rank tag
  | @acted roll r r₁ own other p new s h hopen hp heffect ih =>
    have hbefore :=
      ih fun rank tag hnone => (Roll.eq_none_of_set (hstarted rank tag hnone)).2
    rw [heffect.events_eq]
    by_cases hkey : rank = own ∧ tag = other
    · obtain ⟨rfl, rfl⟩ := hkey
      have hne : roll' rank tag ≠ none := by
        intro hnone
        have hset := hstarted rank tag hnone
        rw [Roll.set_self] at hset
        cases hset
      obtain ⟨s', hs'⟩ := Option.ne_none_iff_exists'.1 hne
      obtain ⟨rest, hevents⟩ := hbefore rank tag
      rw [if_pos ⟨rfl, rfl⟩, ← hevents, List.prefix_append_right_inj]
      exact h.new_prefix hopen hp heffect h' hresting hs' (fun src => hbefore src tag) hevents
    · rw [if_neg hkey]
      exact hbefore rank tag

end FaultFreeRun

end

/-! ## Runs to the end -/

namespace Executor

variable {program : Rank → Tag → Program Bytes} {size : Nat} {e e' : Executor (Recorded Mesh)}

/-- When no task has a step to take, whoever is under way waits. -/
theorem Stuck.resting (h : e.Stuck) : Resting e.roll e.network := by
  intro rank tag p hp
  refine waits_of_not_moves ?_ hp
  rintro ⟨k, s, -, hk⟩
  rw [h k] at hk
  cases hk

/-- The tasks that were started, in whatever order, have taken steps until none of them can take
another.  All endpoints have stayed open, and nobody was given up. -/
structure RunsOut (program : Rank → Tag → Program Bytes) (size : Nat)
    (e : Executor (Recorded Mesh)) : Prop where
  faultyRun : FaultyRun (fun rank tag p => p = program rank tag) { network := .ofSize size } e
  allOpen : e.network.network.AllOpen
  kept : ∀ rank tag, ¬e.roll.GivenUp rank tag
  stuck : e.Stuck

theorem RunsOut.faultFreeRun (h : e.RunsOut program size) :
    FaultFreeRun program size e.roll e.network :=
  h.faultyRun.tracked.run.faultFreeRun h.allOpen h.kept

/-- Whatever the programs are, when the same tasks are started they end in the same way in whatever
order they are started and take their steps: with the same value, the same error, or waiting in the
same place, and with the same history. -/
theorem schedule_independent (h : e.RunsOut program size) (h' : e'.RunsOut program size)
    (hstarted : ∀ rank tag, e.roll rank tag = none ↔ e'.roll rank tag = none) :
    e.roll = e'.roll ∧
      ∀ rank tag, e.network.events rank tag = e'.network.events rank tag := by
  have hevents : ∀ rank tag, e.network.events rank tag = e'.network.events rank tag := by
    intro rank tag
    have hle := h.faultFreeRun.events_prefix h'.faultFreeRun h'.stuck.resting
      (fun rank tag => (hstarted rank tag).2) rank tag
    have hge := h'.faultFreeRun.events_prefix h.faultFreeRun h.stuck.resting
      (fun rank tag => (hstarted rank tag).1) rank tag
    exact hle.eq_of_length_le hge.length_le
  refine ⟨?_, hevents⟩
  funext rank tag
  rcases hs : e.roll rank tag with _ | s
  · exact ((hstarted rank tag).1 hs).symm
  · rcases hs' : e'.roll rank tag with _ | s'
    · rw [(hstarted rank tag).2 hs'] at hs
      cases hs
    · have hleads := h.faultFreeRun.leads hs
      rw [hevents] at hleads
      exact congrArg some (hleads.rests_unique (h'.faultFreeRun.leads hs')
        (h.faultFreeRun.rests h.stuck.resting hs) (h'.faultFreeRun.rests h'.stuck.resting hs'))

/-- Of three members the first goes on after it has addressed a member that does not exist, and the
last waits for what nobody sends. -/
def errand (ex : Exchange) : Program Bytes :=
  match ex.localRank with
  | 0 => do
    let _ ← (ex.send 3 []).attempt
    ex.send 1 [1]
    ex.send 1 [2]
    ex.recv 1
  | 1 => do
    let first ← ex.recv 0
    let second ← ex.recv 0
    ex.send 0 (first ++ second)
    return []
  | _ => ex.recv 0

/-- The errands of the three ranks, the same under every tag. -/
def errands (rank : Rank) (_ : Tag) : Program Bytes :=
  errand (Team.trio.exchange (if rank = 2 then 0 else if rank = 0 then 1 else 2))

/-- The three ranks are started in this order, and then their tasks take steps. -/
def errandsRun (ranks : List Rank) (schedule : List TaskId) : Executor (Recorded Mesh) :=
  let begun : Executor (Recorded Mesh) := { network := { network := .ofSize 3 } }
  (ranks.foldl (fun e rank => (e.add rank 1 (errands rank 1)).2) begun).steps schedule

theorem faultyRun_errandsRun (a b c : Rank) (hab : a ≠ b) (hac : a ≠ c) (hbc : b ≠ c)
    (schedule : List TaskId) :
    FaultyRun (fun rank tag p => p = errands rank tag) { network := .ofSize 3 }
      (errandsRun [a, b, c] schedule) := by
  refine .steps (.started (.started (.started .begun rfl ?_) rfl ?_) rfl ?_) schedule
  · simp
  · simpa [add] using hab
  · simpa [add] using ⟨hac, hbc⟩

/-- The first member gets what it has sent to the second one, and the third waits, whoever comes
first. -/
theorem schedule_independent_trio :
    let e := errandsRun [2, 0, 1] [0, 0, 0, 0, 1, 1, 1, 1, 0, 0]
    let e' := errandsRun [1, 0, 2] [0, 1, 2, 2, 1, 2, 2, 1, 1, 1, 2, 2, 2]
    e.roll 2 1 = some (.finished (.ok [1, 2])) ∧ (∃ p, e.roll 1 1 = some (.running p)) ∧
      e.network.events 2 1 =
        [.sent 0 [1], .sent 0 [2], .received 0 [1, 2], .retired] ∧
      e.roll = e'.roll ∧ ∀ rank tag, e.network.events rank tag = e'.network.events rank tag := by
  intro e e'
  have h : e.RunsOut errands 3 := by
    refine ⟨faultyRun_errandsRun 2 0 1 (by decide) (by decide) (by decide) _,
      Mesh.allOpen_of_mailboxes (by decide), fun _ _ => Roll.not_givenUp_of_tasks (by decide), ?_⟩
    rintro (_ | _ | _ | _) <;> rfl
  have h' : e'.RunsOut errands 3 := by
    refine ⟨faultyRun_errandsRun 1 0 2 (by decide) (by decide) (by decide) _,
      Mesh.allOpen_of_mailboxes (by decide), fun _ _ => Roll.not_givenUp_of_tasks (by decide), ?_⟩
    rintro (_ | _ | _ | _) <;> rfl
  have hstarted : ∀ rank tag, e.roll rank tag = none ↔ e'.roll rank tag = none := by
    intro rank tag
    have hkeys : e.tasks.map (fun task => (task.rank, task.tag)) = [(2, 1), (0, 1), (1, 1)] := rfl
    have hkeys' : e'.tasks.map (fun task => (task.rank, task.tag)) = [(1, 1), (0, 1), (2, 1)] := rfl
    rw [roll, roll, Roll.ofTasks_eq_none, Roll.ofTasks_eq_none, hkeys, hkeys']
    simp only [List.mem_cons, List.not_mem_nil]
    tauto
  exact ⟨rfl, ⟨_, rfl⟩, rfl, schedule_independent h h' hstarted⟩

end Executor

end Collectives
