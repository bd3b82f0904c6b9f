import Collectives.Proofs.Standing

/-!
# What can spread

A program may rely on what it is told by others being of some kind, and tell others only what is
of that kind: `Program.Spreads`.  If all programs under a tag are like this, then nothing else is
ever sent under the tag, whatever happens, and every program that ends with a value ends with one
as it should (`TrackedRun.spread`).

Nothing is asked of plans here.  The members may well disagree on what they are doing.
-/

namespace Collectives

namespace Program

variable {α β : Type} {good : Bytes → Prop} {post : α → Prop}

/-- As long as all that it receives is good, the program sends only what is good, and it ends with
a value only as required. -/
def Spreads (good : Bytes → Prop) (post : α → Prop) : Program α → Prop
  | ret a => post a
  | fail _ | crash => True
  | report _ next => next.Spreads good post
  | send _ data next => good data ∧ ∀ answer, (next answer).Spreads good post
  | recv _ next => (∀ data, good data → (next (.ok data)).Spreads good post) ∧
      ∀ cause, (next (.error cause)).Spreads good post

namespace Spreads

theorem mono {post' : α → Prop} {p : Program α} (hp : p.Spreads good post)
    (h : ∀ a, post a → post' a) : p.Spreads good post' := by
  induction p with
  | ret a => exact h a hp
  | fail | crash => trivial
  | report entry next ih => exact ih hp
  | send dest data next ih => exact ⟨hp.1, fun answer => ih _ (hp.2 answer)⟩
  | recv src next ih =>
    exact ⟨fun data hdata => ih _ (hp.1 data hdata), fun cause => ih _ (hp.2 cause)⟩

theorem bind {post' : β → Prop} {p : Program α} {f : α → Program β} (hp : p.Spreads good post)
    (hf : ∀ a, post a → (f a).Spreads good post') : (p >>= f).Spreads good post' := by
  induction p with
  | ret a => exact hf a hp
  | fail | crash => trivial
  | report entry next ih => exact ih hp
  | send dest data next ih => exact ⟨hp.1, fun answer => ih _ (hp.2 answer)⟩
  | recv src next ih =>
    exact ⟨fun data hdata => ih _ (hp.1 data hdata), fun cause => ih _ (hp.2 cause)⟩

theorem ofExcept {a : Except Error α} (h : ∀ value, a = .ok value → post value) :
    (Program.ofExcept a).Spreads good post := by
  cases a with
  | error e => trivial
  | ok value => exact h value rfl

theorem demand {a : Option α} (h : ∀ value, a = some value → post value) :
    (Program.demand a).Spreads good post := by
  cases a with
  | none => trivial
  | some value => exact h value rfl

end Spreads

end Program

namespace Exchange

variable (ex : Exchange) {good : Bytes → Prop}

theorem spreads_send (dest : Nat) {data : Bytes} (h : good data) :
    (ex.send dest data).Spreads good fun _ => True := by
  refine Program.Spreads.bind (.ofExcept fun rank _ => trivial) fun rank _ => ⟨h, ?_⟩
  rintro (cause | ⟨⟩) <;> trivial

theorem spreads_recvExact (src expected : Nat) :
    (ex.recvExact src expected).Spreads good fun data => good data ∧ data.length = expected := by
  have hrecv : (ex.recv src).Spreads good good :=
    Program.Spreads.bind (.ofExcept fun rank _ => trivial) fun rank _ =>
      ⟨fun data hdata => hdata, fun cause => trivial⟩
  refine hrecv.bind fun data hdata => ?_
  split
  · next hlength => exact ⟨hdata, hlength⟩
  · exact Program.Spreads.bind (.ofExcept fun rank _ => trivial) fun rank _ => trivial

end Exchange

/-! ## What happens under one tag -/

/-- Under the tag only what is good was sent, the programs under way go on to send nothing else,
and those that have ended with a value have ended as required. -/
structure Spread (tag : Tag) (good : Bytes → Prop) (post : Rank → Bytes → Prop) (roll : Roll)
    (r : Recorded Mesh) : Prop where
  sent : ∀ {rank dest : Rank} {data : Bytes}, .sent dest data ∈ r.events rank tag → good data
  running : ∀ {rank : Rank} {p : Program Bytes}, roll rank tag = some (.running p) →
    p.Spreads good (post rank)
  finished : ∀ {rank : Rank} {data : Bytes}, roll rank tag = some (.finished (.ok data)) →
    post rank data

namespace Spread

variable {size : Nat} {assigned : Rank → Tag → Program Bytes → Prop} {tag : Tag}
  {good : Bytes → Prop} {post : Rank → Bytes → Prop} {roll : Roll} {r r' : Recorded Mesh}
  {own : Rank} {p : Program Bytes} {s : Status} {new : List Event}

/-- What one step under the tag adds to the history, and where it leads. -/
theorem of_stepEffect (h : Spread tag good post roll r) (horderly : Orderly size roll r)
    (hp : roll own tag = some (.running p)) (heffect : StepEffect r own tag p new s r') :
    (∀ dest data, .sent dest data ∈ new → good data) ∧
      (∀ q, s = .running q → q.Spreads good (post own)) ∧
      ∀ data, s = .finished (.ok data) → post own data := by
  have hspreads := h.running hp
  cases heffect with
  | ended outcome =>
    refine ⟨by simp, by simp, ?_⟩
    rintro data ⟨⟩
    exact hspreads
  | crashed => exact ⟨by simp, by simp, by simp⟩
  | reported entry next =>
    refine ⟨by simp, ?_, by simp⟩
    rintro q ⟨⟩
    exact hspreads
  | @sent dest data next hdest =>
    refine ⟨?_, ?_, by simp⟩
    · intro dest' data' hmem
      cases List.mem_singleton.1 hmem
      exact hspreads.1
    · rintro q ⟨⟩
      exact hspreads.2 _
  | refused data next cause =>
    refine ⟨by simp, ?_, by simp⟩
    rintro q ⟨⟩
    exact hspreads.2 _
  | @received src next data rest hown hsrc hq =>
    refine ⟨by simp, ?_, by simp⟩
    rintro q ⟨⟩
    have hexpectant : Expectant (roll own tag) := by
      rw [hp]
      exact .running _
    have hsent := horderly.conserved hexpectant src
    rw [Recorded.Conserved, hq] at hsent
    have hmem : data ∈ messagesTo own (r.events src tag) := by
      rw [hsent]
      simp
    exact hspreads.1 data (h.sent (mem_messagesTo.1 hmem))
  | unanswered next cause hnone =>
    refine ⟨by simp, ?_, by simp⟩
    rintro q ⟨⟩
    exact hspreads.2 cause
  | waiting next hown hsrc hq =>
    refine ⟨by simp, ?_, by simp⟩
    rintro q ⟨⟩
    exact hspreads

/-- Where something is entered on the roll, and the history grows with it, only this counts. -/
theorem set {other : Tag} (h : Spread tag good post roll r)
    (hevents : ∀ rank, r'.events rank tag =
      if rank = own ∧ tag = other then r.events rank tag ++ new else r.events rank tag)
    (hnew : tag = other → (∀ dest data, .sent dest data ∈ new → good data) ∧
      (∀ q, s = .running q → q.Spreads good (post own)) ∧
      ∀ data, s = .finished (.ok data) → post own data) :
    Spread tag good post (roll.set own other s) r' := by
  refine ⟨?_, ?_, ?_⟩
  · intro rank dest data hmem
    rw [hevents] at hmem
    split at hmem
    · next hkey =>
      rcases List.mem_append.1 hmem with hmem | hmem
      · exact h.sent hmem
      · exact (hnew hkey.2).1 dest data hmem
    · exact h.sent hmem
  · intro rank p hp
    by_cases hkey : rank = own ∧ tag = other
    · obtain ⟨rfl, rfl⟩ := hkey
      rw [Roll.set_self, Option.some_inj] at hp
      exact (hnew rfl).2.1 p hp
    · rw [Roll.set_of_ne _ hkey] at hp
      exact h.running hp
  · intro rank data hdata
    by_cases hkey : rank = own ∧ tag = other
    · obtain ⟨rfl, rfl⟩ := hkey
      rw [Roll.set_self, Option.some_inj] at hdata
      exact (hnew rfl).2.2 data hdata
    · rw [Roll.set_of_ne _ hkey] at hdata
      exact h.finished hdata

end Spread

/-- Whatever happens, under the tag nothing but what is good is ever sent. -/
theorem TrackedRun.spread {size : Nat} {assigned : Rank → Tag → Program Bytes → Prop} {tag : Tag}
    {good : Bytes → Prop} {post : Rank → Bytes → Prop} {roll : Roll} {r : Recorded Mesh}
    (h : TrackedRun assigned size roll r)
    (hassigned : ∀ {rank p}, assigned rank tag p → p.Spreads good (post rank)) :
    Spread tag good post roll r := by
  induction h with
  | begun => exact ⟨nofun, nofun, nofun⟩
  | started h hp hnew ih =>
    refine ih.set (fun rank => by rw [List.append_nil, ite_self]) ?_
    rintro rfl
    refine ⟨nofun, ?_, nofun⟩
    rintro q ⟨⟩
    exact hassigned hp
  | acted h hp heffect ih =>
    refine ih.set (fun rank => heffect.events_eq rank tag) ?_
    rintro rfl
    exact ih.of_stepEffect h.orderly hp heffect
  | abandoned h hp ih =>
    refine ih.set (fun rank => Recorded.events_note _ _ _ rank _ tag .abandoned) ?_
    exact fun _ => ⟨by simp, nofun, nofun⟩
  | vanished h hp ih =>
    refine ih.set (fun rank => by rw [List.append_nil, ite_self]) ?_
    exact fun _ => ⟨nofun, nofun, nofun⟩
  | closed h own ih => exact ⟨ih.sent, ih.running, ih.finished⟩

/-- A member of a team whose members send nothing but what is good, as long as they receive
nothing else, ends with a value only as required, whatever happens. -/
theorem Team.post_of_finished {t : Team} {program : Fin t.size → Program Bytes}
    {good : Bytes → Prop} {post : Fin t.size → Bytes → Prop} {e : Executor Mesh}
    (h : t.FaultyRun program e) (hspreads : ∀ i, (program i).Spreads good (post i)) {i : Fin t.size}
    {data : Bytes} (hi : e.roll (t.rank i) t.tag = some (.finished (.ok data))) :
    post i data := by
  obtain ⟨e', he', rfl⟩ := Executor.FaultyRun.exists_of_forget h
  have hspread : Spread t.tag good (fun rank data => ∀ i, rank = t.rank i → post i data) e'.roll
      e'.network := by
    refine (Executor.FaultyRun.tracked he').run.spread ?_
    rintro _ p ⟨i, rfl, -, rfl⟩
    refine (hspreads i).mono fun data hdata j hj => ?_
    rwa [← t.rank_injective hj]
  exact hspread.finished hi i rfl

end Collectives
