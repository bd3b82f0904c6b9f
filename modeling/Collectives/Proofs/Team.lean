import Collectives.Messaging
import Collectives.Proofs.Coherence
import Mathlib.Algebra.GroupWithZero.Nat
import Mathlib.Data.List.Nodup
import Mathlib.Data.List.Perm.Subperm
import Mathlib.Logic.Function.Basic

/-!
# Teams

A team is what the members of a group share when they carry out one collective: the ranks in
the order of the local indices, the tag, and the world they live in.  Members are named by
their local index `i : Fin t.size`; `t.exchange i` is the view that member `i` has.

`t.run program` is the executor in which every member has its program before it and nothing
has happened yet, and `t.traced program` is the same on a mesh with a log.  `Delivers` says
that under every schedule every member ends with its result: whoever has ended has ended with
it (`sound`), as long as someone has not, someone can take a step (`live`), and so in the end
all have ended (`completes`).
-/

namespace Collectives

/-- What the members of a group share when they carry out one collective. -/
structure Team where
  /-- The number of ranks of the world. -/
  world : Nat
  /-- The members, in the order of their local indices. -/
  ranks : List Rank
  nonempty : ranks ≠ []
  nodup : ranks.Nodup
  inWorld : ∀ r ∈ ranks, r.toNat < world
  /-- The identifier of the group. -/
  id : UInt64
  tag : Tag
  /-- The name of the collective, for errors. -/
  operation : String

/-- The three ranks of a world, in an order of their own. -/
def Team.trio : Team where
  world := 3
  ranks := [2, 0, 1]
  nonempty := by decide
  nodup := by decide
  inWorld := by simp
  id := 7
  tag := 1
  operation := "allreduce"

/-- The size check that each call makes when it is built. -/
theorem payloadBytes_isOk {count : Nat} {d : DataType} :
    (payloadBytes count d).isOk ↔ count * d.width < Index.limit := by
  by_cases h : count * d.width < Index.limit <;>
    simp [payloadBytes, Index.mul?, h, Except.isOk, Except.toBool]

theorem payloadBytes_of_lt {count : Nat} {d : DataType} (h : count * d.width < Index.limit) :
    payloadBytes count d = .ok (count * d.width) := by
  rw [payloadBytes, Index.mul?, if_pos h]

theorem payloadBytes_of_le {count : Nat} {d : DataType} (h : Index.limit ≤ count * d.width) :
    payloadBytes count d = .error (.countOverflow count d) := by
  rw [payloadBytes, Index.mul?, if_neg (Nat.not_lt.2 h)]

/-! ## Programs of members -/

namespace Program

variable {α β : Type}

/-- Whatever it is answered, the program communicates over the exchange only: it sends to members
and receives from members, and the first communication that fails ends it with the error that
blames the peer. -/
def Through (ex : Exchange) : Program α → Prop
  | ret _ | fail _ | crash => True
  | report _ next => next.Through ex
  | send dest _ next =>
    dest ∈ ex.group.ranks ∧ (∀ cause, next (.error cause) = .fail (ex.failed dest cause)) ∧
      (next (.ok ())).Through ex
  | recv src next =>
    src ∈ ex.group.ranks ∧ (∀ cause, next (.error cause) = .fail (ex.failed src cause)) ∧
      ∀ data, (next (.ok data)).Through ex

namespace Through

variable {ex : Exchange}

theorem among {p : Program α} (hp : p.Through ex) : p.Among (· ∈ ex.group.ranks) := by
  induction p with
  | ret | fail | crash => trivial
  | report entry next ih => exact ih hp
  | send dest data next ih =>
    obtain ⟨hdest, hfailed, hnext⟩ := hp
    refine ⟨hdest, ?_⟩
    rintro (cause | ⟨⟩)
    · rw [hfailed]
      trivial
    · exact ih _ hnext
  | recv src next ih =>
    obtain ⟨hsrc, hfailed, hnext⟩ := hp
    refine ⟨hsrc, ?_⟩
    rintro (cause | data)
    · rw [hfailed]
      trivial
    · exact ih _ (hnext data)

theorem bind {p : Program α} {f : α → Program β} (hp : p.Through ex)
    (hf : ∀ a, (f a).Through ex) : (p >>= f).Through ex := by
  induction p with
  | ret a => exact hf a
  | fail | crash => trivial
  | report entry next ih => exact ih hp
  | send dest data next ih =>
    obtain ⟨hdest, hfailed, hnext⟩ := hp
    refine ⟨hdest, ?_, ih _ hnext⟩
    intro cause
    show next (.error cause) >>= f = _
    rw [hfailed, fail_bind]
  | recv src next ih =>
    obtain ⟨hsrc, hfailed, hnext⟩ := hp
    refine ⟨hsrc, ?_, fun data => ih _ (hnext data)⟩
    intro cause
    show next (.error cause) >>= f = _
    rw [hfailed, fail_bind]

theorem ofExcept (a : Except Error α) : (Program.ofExcept a).Through ex := by
  cases a <;> trivial

theorem demand (a : Option α) : (Program.demand a).Through ex := by
  cases a <;> trivial

end Through

end Program

namespace Exchange

variable (ex : Exchange)

theorem through_peer (index : Nat) {α : Type} {f : Rank → Program α}
    (hf : ∀ r ∈ ex.group.ranks, (f r).Through ex) :
    (Program.ofExcept (ex.peer index) >>= f).Through ex := by
  cases h : ex.peer index with
  | error e => trivial
  | ok r => exact hf r (List.mem_of_getElem? (peer_eq_ok.1 h))

/-- A member sends to members only, whatever the index. -/
theorem through_send (dest : Nat) (data : Bytes) : (ex.send dest data).Through ex :=
  ex.through_peer dest fun _ hr => ⟨hr, fun _ => rfl, trivial⟩

theorem through_recv (src : Nat) : (ex.recv src).Through ex :=
  ex.through_peer src fun _ hr => ⟨hr, fun _ => rfl, fun _ => trivial⟩

theorem through_recvExact (src expected : Nat) : (ex.recvExact src expected).Through ex := by
  refine (ex.through_recv src).bind fun data => ?_
  split
  · trivial
  · exact ex.through_peer src fun r _ => trivial

theorem through_sendRecv (dest : Nat) (data : Bytes) (src expected : Nat) :
    (ex.sendRecv dest data src expected).Through ex :=
  (ex.through_send dest data).bind fun _ => ex.through_recvExact src expected

end Exchange

namespace Team

variable (t : Team)

/-- The number of members. -/
def size : Nat := t.ranks.length

/-- The rank of a member. -/
def rank (i : Fin t.size) : Rank := t.ranks.get i

/-- The view that a member has of the group. -/
def group (i : Fin t.size) : Group where
  ranks := t.ranks
  localRank := i
  id := t.id
  nodup := t.nodup
  localRank_lt := i.isLt

/-- The view that a member has of the collective. -/
def exchange (i : Fin t.size) : Exchange := ⟨t.group i, t.tag, t.operation⟩

theorem size_pos : 0 < t.size := List.length_pos_iff.2 t.nonempty

instance : NeZero t.size := ⟨Nat.ne_of_gt t.size_pos⟩

@[simp] theorem size_exchange (i : Fin t.size) : (t.exchange i).size = t.size := rfl

@[simp] theorem localRank_exchange (i : Fin t.size) : (t.exchange i).localRank = i := rfl

theorem rank_mem (i : Fin t.size) : t.rank i ∈ t.ranks := List.get_mem _ _

theorem rank_injective : Function.Injective t.rank := fun _ _ h =>
  t.nodup.injective_get h

@[simp] theorem rank_inj {i j : Fin t.size} : t.rank i = t.rank j ↔ i = j :=
  t.rank_injective.eq_iff

/-- What is given for the members may be given for all numbers. -/
theorem exists_extension {α : Type} (x : Fin t.size → α) :
    ∃ y : Nat → α, ∀ i : Fin t.size, y i = x i :=
  ⟨Function.extend Fin.val x fun _ => x ⟨0, t.size_pos⟩,
    fun i => Function.Injective.extend_apply (fun _ _ => Fin.ext) _ _ i⟩

/-- Ranks are words of 32 bits, so there are not more members than such words. -/
theorem size_le : t.size ≤ UInt32.size := by
  have hnodup : (t.ranks.map UInt32.toNat).Nodup :=
    t.nodup.map fun _ _ h => UInt32.toNat_inj.1 h
  have hsub : t.ranks.map UInt32.toNat ⊆ List.range UInt32.size := by
    intro n hn
    obtain ⟨r, -, rfl⟩ := List.mem_map.1 hn
    exact List.mem_range.2 r.toNat_lt
  have hle := (hnodup.subperm hsub).length_le
  rwa [List.length_map, List.length_range] at hle

/-! ## Messages between members -/

theorem peer_exchange (i j : Fin t.size) : (t.exchange i).peer j = .ok (t.rank j) := by
  rw [Exchange.peer_eq_ok]
  exact List.getElem?_eq_getElem j.isLt

theorem runs_send (i j : Fin t.size) (data : Bytes) :
    ((t.exchange i).send j data).Runs [.sent (t.rank j) data] (.ret ()) := by
  rw [Exchange.send_of_peer (t.peer_exchange i j)]
  exact .sent (.refl _)

theorem runs_recvExact (i j : Fin t.size) {data : Bytes} {expected : Nat}
    (h : data.length = expected) :
    ((t.exchange i).recvExact j expected).Runs [.received (t.rank j) data] (.ret data) := by
  rw [Exchange.recvExact_of_peer (t.peer_exchange i j)]
  refine .received ?_
  show (if data.length = expected then Program.ret data else _).Runs [] _
  rw [if_pos h]
  exact .refl _

theorem runs_sendRecv (i j k : Fin t.size) (out : Bytes) {data : Bytes} {expected : Nat}
    (h : data.length = expected) :
    ((t.exchange i).sendRecv j out k expected).Runs
      [.sent (t.rank j) out, .received (t.rank k) data] (.ret data) :=
  (t.runs_send i j out).bind_ret (t.runs_recvExact i k h)

/-! ## The executor of a team -/

/-- The tasks of the members, each with its program before it. -/
def tasks (program : Fin t.size → Program Bytes) : List Task :=
  List.ofFn fun i => ⟨t.rank i, t.tag, .running (program i)⟩

/-- The executor in which every member has its program before it. -/
def run (program : Fin t.size → Program Bytes) : Executor Mesh where
  network := .ofSize t.world
  tasks := t.tasks program

/-- The same executor with a log of the traffic. -/
def traced (program : Fin t.size → Program Bytes) : Executor (Recorded Mesh) where
  network := { network := .ofSize t.world }
  tasks := t.tasks program

@[simp] theorem forget_traced (program : Fin t.size → Program Bytes) :
    (t.traced program).forget = t.run program := rfl

/-- The program with which the task of a member begins. -/
def origin (program : Fin t.size → Program Bytes) (k : TaskId) : Program Bytes :=
  if h : k < t.size then program ⟨k, h⟩ else .crash

@[simp] theorem origin_val (program : Fin t.size → Program Bytes) (i : Fin t.size) :
    t.origin program i = program i := by
  simp [origin]

theorem getElem?_tasks (program : Fin t.size → Program Bytes) (i : Fin t.size) :
    (t.tasks program)[i.val]? = some ⟨t.rank i, t.tag, .running (program i)⟩ := by
  simp [tasks]

theorem exists_of_getElem?_tasks {program : Fin t.size → Program Bytes} {k : TaskId}
    {task : Task} (h : (t.tasks program)[k]? = some task) :
    ∃ i : Fin t.size, k = i ∧ task = ⟨t.rank i, t.tag, .running (program i)⟩ := by
  obtain ⟨hk, -⟩ := List.getElem?_eq_some_iff.1 h
  have hlt : k < t.size := by simpa [tasks] using hk
  refine ⟨⟨k, hlt⟩, rfl, ?_⟩
  have hget := t.getElem?_tasks program ⟨k, hlt⟩
  rw [h, Option.some_inj] at hget
  exact hget

variable {t}

/-- Before anything has happened the state is coherent. -/
theorem coherent_traced {program : Fin t.size → Program Bytes}
    (h : ∀ i, (program i).Among (· ∈ t.ranks)) :
    (t.traced program).Coherent (t.origin program) := by
  have hgate : ∀ r ∈ t.ranks,
      (t.traced program).network.network.gate r = some (true, []) :=
    fun r hr => Mesh.gate_ofSize (t.inWorld r hr)
  have hempty : ∀ r g, (t.traced program).network.events r g = [] := fun _ _ => rfl
  refine ⟨rfl, ?_, ?_, ?_, ?_, ?_, ?_⟩
  · intro j k s u hs hu hrank _
    obtain ⟨i, rfl, rfl⟩ := t.exists_of_getElem?_tasks hs
    obtain ⟨i', rfl, rfl⟩ := t.exists_of_getElem?_tasks hu
    exact congrArg Fin.val (t.rank_injective hrank)
  · intro k u hu
    obtain ⟨i, rfl, rfl⟩ := t.exists_of_getElem?_tasks hu
    rw [hempty, origin_val]
    exact .running (.refl _)
  · intro k u p hu hp
    obtain ⟨i, rfl, rfl⟩ := t.exists_of_getElem?_tasks hu
    cases hp
    exact (h i).mono fun r hr => ⟨[], hgate r hr⟩
  · intro k u p hu _
    obtain ⟨i, rfl, rfl⟩ := t.exists_of_getElem?_tasks hu
    exact ⟨[], hgate _ (t.rank_mem i), List.not_mem_nil⟩
  · intro k u p hu _ src
    rw [Recorded.Conserved, hempty, hempty]
    exact (Mesh.queue_ofSize _ _ _ _).symm
  · intro k u hu src
    simp [hempty]

/-- Every schedule leaves each member its task, and keeps the state coherent. -/
theorem reaches_traced {program : Fin t.size → Program Bytes}
    (h : ∀ i, (program i).Among (· ∈ t.ranks)) {e : Executor (Recorded Mesh)}
    (he : (t.traced program).Reaches e) :
    e.Coherent (t.origin program) ∧
      ∀ i : Fin t.size, ∃ s, e.tasks[i.val]? = some ⟨t.rank i, t.tag, s⟩ := by
  refine ⟨(coherent_traced h).reaches he, ?_⟩
  intro i
  induction he with
  | refl => exact ⟨_, t.getElem?_tasks program i⟩
  | step he k ih =>
    obtain ⟨s, hi⟩ := ih
    rcases ((coherent_traced h).reaches he).step_cases k with
      heq | ⟨task, p, new, s', hk, -, htasks, -, -⟩
    · rw [heq]
      exact ⟨s, hi⟩
    · by_cases hik : i.val = k
      · subst hik
        rw [hi, Option.some_inj] at hk
        subst hk
        rw [htasks, List.getElem?_set_self (List.getElem?_eq_some_iff.1 hi).1]
        exact ⟨s', rfl⟩
      · rw [htasks, List.getElem?_set_ne fun hki => hik hki.symm]
        exact ⟨s, hi⟩
  | requeue _ ready ih => exact ih

end Team

/-! ## Results under every schedule -/

namespace Executor

variable {σ : Type} [Transport σ] {n : Nat} {e₀ : Executor σ} {result : Fin n → Bytes}

/-- Under every schedule every task ends with its result. -/
structure Delivers (e₀ : Executor σ) (result : Fin n → Bytes) : Prop where
  /-- A task is under way, or it has ended with its result. -/
  sound : ∀ e, e₀.Reaches e → ∀ i : Fin n, (∃ p, e.status? i = some (.running p)) ∨
    e.status? i = some (.finished (.ok (result i)))
  /-- As long as a task has not ended, some task has a step to take. -/
  live : ∀ e, e₀.Reaches e →
    (∃ i : Fin n, e.status? i ≠ some (.finished (.ok (result i)))) → ∃ k, (e.step k).1 = true
  /-- Wherever a schedule has led, all tasks come to their ends from there. -/
  completes : ∀ e, e₀.Reaches e →
    ∃ e', e.Reaches e' ∧ ∀ i : Fin n, e'.status? i = some (.finished (.ok (result i)))

/-- Since no schedule takes steps forever, it is enough that nobody is stuck. -/
theorem Delivers.of_live
    (sound : ∀ e, e₀.Reaches e → ∀ i : Fin n, (∃ p, e.status? i = some (.running p)) ∨
      e.status? i = some (.finished (.ok (result i))))
    (live : ∀ e, e₀.Reaches e →
      (∃ i : Fin n, e.status? i ≠ some (.finished (.ok (result i)))) → ∃ k, (e.step k).1 = true) :
    e₀.Delivers result := by
  refine ⟨sound, live, ?_⟩
  intro e he
  induction e using WellFounded.induction (wellFounded_steps (σ := σ)) with
  | _ e ih =>
    by_cases hall : ∀ i : Fin n, e.status? i = some (.finished (.ok (result i)))
    · exact ⟨e, .refl, hall⟩
    · obtain ⟨k, hk⟩ := live e he (not_forall.1 hall)
      obtain ⟨e', he', hdone⟩ := ih _ ⟨k, hk, rfl⟩ (he.step k)
      exact ⟨e', (Reaches.refl.step k).trans he', hdone⟩

/-- What is delivered with a log is delivered without it. -/
theorem Delivers.forget {e₀ : Executor (Recorded σ)} (h : e₀.Delivers result) :
    e₀.forget.Delivers result := by
  refine .of_live ?_ ?_
  · intro e he i
    obtain ⟨e', he', rfl⟩ := exists_of_forget he
    exact h.sound e' he' i
  · intro e he hi
    obtain ⟨e', he', rfl⟩ := exists_of_forget he
    obtain ⟨k, hk⟩ := h.live e' he' hi
    exact ⟨k, by rw [step_forget, hk]⟩

end Executor

end Collectives
