import Collectives.Proofs.Calls
import Collectives.Proofs.RingAllreduce
import Mathlib.Algebra.BigOperators.Fin

/-!
# What a ring allreduce sends

In the first pass of a ring a member sends the chunk with its own number, then the one before, and
so on.  The second pass begins with the chunk after its own, which is where the first pass would
go on.  So message `k` of a member carries the chunk `k` places back, all along both passes
(`portions_eq`).

Each pass is one message short of the whole circle.  The first one leaves out the chunk after the
member's own, the second one the chunk after that, so together they send the buffer twice, less
these two chunks (`sum_portions`), however many members there are (`frugal_ring`).
-/

namespace Collectives

/-! ## The messages of a history -/

namespace Event

/-- The message and where it went, where the event is that it was sent. -/
def sent? : Event → Option (Rank × Bytes)
  | .sent dest data => some (dest, data)
  | _ => none

/-- The message and where it came from, where the event is that it was received. -/
def received? : Event → Option (Rank × Bytes)
  | .received src data => some (src, data)
  | _ => none

end Event

/-- The messages that a history sends, with where they go, earliest first. -/
def sends (history : List Event) : List (Rank × Bytes) := history.filterMap Event.sent?

/-- The messages that a history receives, with where they come from, earliest first. -/
def receipts (history : List Event) : List (Rank × Bytes) := history.filterMap Event.received?

@[simp] theorem sends_append (h h' : List Event) : sends (h ++ h') = sends h ++ sends h' :=
  List.filterMap_append

@[simp] theorem receipts_append (h h' : List Event) :
    receipts (h ++ h') = receipts h ++ receipts h' := List.filterMap_append

theorem fst_of_mem_map_mk {peer : Rank} {data : List Bytes} {m : Rank × Bytes}
    (hm : m ∈ data.map (Prod.mk peer)) : m.1 = peer := by
  obtain ⟨_, -, rfl⟩ := List.mem_map.1 hm
  rfl

theorem sends_retired (h : List Event) : sends (h ++ [.retired]) = sends h := by
  rw [sends_append]
  exact List.append_nil _

theorem receipts_retired (h : List Event) : receipts (h ++ [.retired]) = receipts h := by
  rw [receipts_append]
  exact List.append_nil _

namespace RingOrder

variable {n : Nat}

/-! ## Around the ring -/

/-- The member `k` places back on the ring, for `k` up to twice its length. -/
def turn (i : Fin n) (k : Nat) : Fin n := ⟨(i + 2 * n - k) % n, Nat.mod_lt _ i.pos⟩

theorem turn_of_le (i : Fin n) {k : Nat} (hk : k ≤ n) : turn i k = behind i k := by
  have hsplit : i + 2 * n - k = i + n - k + n := by omega
  ext
  show (i + 2 * n - k) % n = (i + n - k) % n
  rw [hsplit, Nat.add_mod_right]

/-- One place short of the whole circle one goes on as from the next member. -/
theorem turn_add (i : Fin n) {k : Nat} (hk : k ≤ n) :
    turn i (n - 1 + k) = behind (ahead i 1) k := by
  have hi := i.isLt
  have hsplit : i + 2 * n - (n - 1 + k) = n * ((i + 1) / n) + ((i + 1) % n + n - k) := by
    have hdiv := Nat.div_add_mod (i + 1) n
    omega
  ext
  show (i + 2 * n - (n - 1 + k)) % n = ((i + 1) % n + n - k) % n
  rw [hsplit, Nat.mul_add_mod]

theorem behind_last (i : Fin n) : behind i (n - 1) = ahead i 1 := by
  rw [← gap_ahead_one i, behind_gap]

theorem sum_range_behind (f : Fin n → Nat) (i : Fin n) :
    ∑ k ∈ Finset.range n, f (behind i k) = ∑ c, f c := by
  rw [Finset.sum_range]
  refine Function.Bijective.sum_comp (e := fun k : Fin n => behind i k) ?_ f
  refine Function.bijective_iff_has_inverse.2 ⟨fun c => ⟨gap i c, gap_lt i c⟩, ?_, ?_⟩
  · intro k
    exact Fin.ext (gap_behind i k.isLt)
  · intro c
    exact behind_gap i c

/-- One place short of the whole circle the next member is left out. -/
theorem sum_behind (f : Fin n → Nat) (i : Fin n) :
    ∑ k ∈ Finset.range (n - 1), f (behind i k) + f (ahead i 1) = ∑ c, f c := by
  have hn : n - 1 + 1 = n := Nat.sub_add_cancel i.pos
  rw [← behind_last, ← Finset.sum_range_succ (fun k => f (behind i k)), hn, sum_range_behind]

end RingOrder

namespace ChunkLayout

theorem sum_chunkLength (count : Nat) {parts : Nat} (hparts : 0 < parts) :
    ∑ c : Fin parts, chunkLength count parts c = count := by
  rw [← List.sum_ofFn, sum_ofFn_chunkLength count hparts]

theorem slice?_bound {α : Type} {count parts k : Nat} {xs : List α} (hxs : xs.length = count)
    (h : k < parts) :
    slice? xs (bound count parts k) (bound count parts (k + 1)) = some (chunk count parts k xs) :=
  if_pos ⟨bound_le_succ _ _ _, hxs ▸ bound_le count h (Nat.zero_lt_of_lt h)⟩

end ChunkLayout

open RingOrder

/-! ## Rounds on a ring -/

namespace Team

variable (t : Team)

theorem sends_script_shifts (data : Nat → Fin t.size → Bytes) (step m : Nat) (i : Fin t.size) :
    sends (t.script (shifts data step m) i) =
      ((List.range' step m).map fun k => data k i).map (Prod.mk (t.rank (ahead i 1))) := by
  induction m generalizing step with
  | zero => rfl
  | succ m ih =>
    rw [shifts_succ, t.script_shift_cons, sends_append, ih, List.range'_succ]
    rfl

theorem receipts_script_shifts (data : Nat → Fin t.size → Bytes) (step m : Nat)
    (i : Fin t.size) :
    receipts (t.script (shifts data step m) i) =
      ((List.range' step m).map fun k => data k (behind i 1)).map
        (Prod.mk (t.rank (behind i 1))) := by
  induction m generalizing step with
  | zero => rfl
  | succ m ih =>
    rw [shifts_succ, t.script_shift_cons, receipts_append, ih, List.range'_succ]
    rfl

/-- Nothing happens under another tag than that of the team. -/
theorem OnPlan.elsewhere {t : Team} {plan : List (Round t.size)}
    {program : Fin t.size → Program Bytes} {result : Fin t.size → Bytes}
    {e : Executor (Recorded Mesh)} (h : t.OnPlan plan program result (t.traced program))
    (he : (t.traced program).Reaches e) {rank : Rank} {tag : Tag} (htag : tag ≠ t.tag) :
    e.network.events rank tag = [] := by
  induction he with
  | refl => rfl
  | requeue _ ready ih => exact ih
  | @step e he k ih =>
    rcases (h.reaches he).coherent.step_cases k with heq | ⟨task, p, new, s, hk, -, -, -, hturn⟩
    · rw [heq]
      exact ih
    · have hkey : (task.rank, task.tag) ∈ e.keys :=
        List.mem_map.2 ⟨task, List.mem_of_getElem? hk, rfl⟩
      rw [he.keys_eq, Executor.keys] at hkey
      -- no task has come or gone, and all tasks that there were have the tag of the team
      obtain ⟨first, hfirst, heq⟩ := List.mem_map.1 hkey
      obtain ⟨i, rfl⟩ := (List.mem_ofFn' _ _).1 hfirst
      have hown : task.tag = t.tag := (congrArg Prod.snd heq).symm
      rw [hturn.stepEffect.events_eq, if_neg fun hsame => htag (hsame.2.trans hown), ih]

end Team

namespace Progress

variable {script history : List Event} {result : Bytes}

/-- What a member on its script has sent and received is the beginning of what its script has it
send and receive. -/
theorem exists_later {s : Status} (h : Progress script result s history) :
    ∃ later, sends (history ++ later) = sends script ∧
      receipts (history ++ later) = receipts script := by
  cases h with
  | @running _ _ rest hs hp => exact ⟨rest, by rw [hs], by rw [hs]⟩
  | finished =>
    rw [← sends_retired script, ← receipts_retired script]
    exact ⟨[], by rw [List.append_nil], by rw [List.append_nil]⟩

/-- A member that has come to its end has sent and received what its script has it. -/
theorem of_finished {outcome : Except Error Bytes}
    (h : Progress script result (.finished outcome) history) :
    sends history = sends script ∧ receipts history = receipts script := by
  cases h with
  | finished => exact ⟨sends_retired script, receipts_retired script⟩

end Progress

namespace Allreduce

variable {d : DataType} {t : Team} {n : Nat} (r : Reducer d) (x : Fin t.size → Fin n → d.Elem)

/-! ## The chunks that are sent -/

/-- What message `k` of a member carries: the chunk `k` places back, combined on its way from the
member with its number.  Once it has come around it stays as it is. -/
def portion (i : Fin t.size) (k : Nat) : List d.Elem :=
  combined r x (turn i k) (min k (t.size - 1))

/-- The two passes are one way around the ring and on. -/
theorem portions_eq (i : Fin t.size) :
    ((List.range' 0 (t.size - 1)).map fun k => d.encode (combined r x (behind i k) k)) ++
        ((List.range' 0 (t.size - 1)).map fun k =>
          d.encode (combined r x (behind (ahead i 1) k) (t.size - 1))) =
      (List.range (2 * (t.size - 1))).map fun k => d.encode (portion r x i k) := by
  rw [Nat.two_mul, List.range_add, List.map_append, List.map_map, ← List.range_eq_range']
  congr 1
  · refine List.map_congr_left fun k hk => ?_
    have hlt := List.mem_range.1 hk
    rw [portion, turn_of_le i (by omega), Nat.min_eq_left (Nat.le_of_lt hlt)]
  · refine List.map_congr_left fun k hk => ?_
    have hlt := List.mem_range.1 hk
    rw [Function.comp_apply, portion, turn_add i (by omega),
      Nat.min_eq_right (Nat.le_add_right _ _)]

theorem sends_ringPlan (i : Fin t.size) :
    sends (t.script (ringPlan r x) i) = ((List.range (2 * (t.size - 1))).map fun k =>
      d.encode (portion r x i k)).map (Prod.mk (t.rank (ahead i 1))) := by
  rw [ringPlan, t.script_append, sends_append, t.sends_script_shifts, t.sends_script_shifts,
    ← List.map_append, portions_eq]

theorem receipts_ringPlan (i : Fin t.size) :
    receipts (t.script (ringPlan r x) i) = ((List.range (2 * (t.size - 1))).map fun k =>
      d.encode (portion r x (behind i 1) k)).map (Prod.mk (t.rank (behind i 1))) := by
  rw [ringPlan, t.script_append, receipts_append, t.receipts_script_shifts,
    t.receipts_script_shifts, ← List.map_append, portions_eq]

theorem length_portion (i : Fin t.size) (k : Nat) :
    (d.encode (portion r x i k)).length =
      ChunkLayout.chunkLength n t.size (turn i k) * d.width := by
  rw [DataType.length_encode, portion, length_combined]

/-- In both passes a member sends all chunks but one each: the one after its own, and the one after
that. -/
theorem sum_chunkLength_turn (n : Nat) (i : Fin t.size) :
    ∑ k ∈ Finset.range (2 * (t.size - 1)), ChunkLayout.chunkLength n t.size (turn i k) +
      (ChunkLayout.chunkLength n t.size (ahead i 1) +
        ChunkLayout.chunkLength n t.size (ahead i 2)) = 2 * n := by
  have hall := ChunkLayout.sum_chunkLength n t.size_pos
  -- the first pass goes back from the member itself, the second one from the next member
  have hfirst := sum_behind (fun c => ChunkLayout.chunkLength n t.size c) i
  have hsecond := sum_behind (fun c => ChunkLayout.chunkLength n t.size c) (ahead i 1)
  have htwo : ahead (ahead i 1) 1 = ahead i 2 := ahead_ahead i 1 1
  rw [htwo] at hsecond
  have hturn : ∑ k ∈ Finset.range (t.size - 1), ChunkLayout.chunkLength n t.size (turn i k) =
      ∑ k ∈ Finset.range (t.size - 1), ChunkLayout.chunkLength n t.size (behind i k) := by
    refine Finset.sum_congr rfl fun k hk => ?_
    have hlt := Finset.mem_range.1 hk
    rw [turn_of_le i (by omega)]
  have hturn' : ∑ k ∈ Finset.range (t.size - 1),
      ChunkLayout.chunkLength n t.size (turn i (t.size - 1 + k)) =
        ∑ k ∈ Finset.range (t.size - 1),
          ChunkLayout.chunkLength n t.size (behind (ahead i 1) k) := by
    refine Finset.sum_congr rfl fun k hk => ?_
    have hlt := Finset.mem_range.1 hk
    rw [turn_add i (by omega)]
  rw [Nat.two_mul, Finset.sum_range_add, hturn, hturn']
  omega

/-- All messages together are twice the buffer, less two chunks. -/
theorem sum_portions (i : Fin t.size) :
    ((List.range (2 * (t.size - 1))).map fun k => (d.encode (portion r x i k)).length).sum =
      (2 * n - ChunkLayout.chunkLength n t.size (ahead i 1) -
        ChunkLayout.chunkLength n t.size (ahead i 2)) * d.width := by
  have hsum := sum_chunkLength_turn n i
  have hlist : ((List.range (2 * (t.size - 1))).map fun k =>
      ChunkLayout.chunkLength n t.size (turn i k)).sum =
        ∑ k ∈ Finset.range (2 * (t.size - 1)), ChunkLayout.chunkLength n t.size (turn i k) := rfl
  simp only [length_portion]
  rw [List.sum_map_mul_right, hlist]
  congr 1
  omega

/-! ## What a member sends and receives -/

/-- The messages of one member of a ring allreduce. -/
structure Traffic (i : Fin t.size) (history : List Event) : Prop where
  sends_length : (sends history).length = 2 * (t.size - 1)
  sends_next : ∀ m ∈ sends history, m.1 = t.rank (ahead i 1)
  /-- Message `k` carries the chunk `k` places back, with the fold over the members where it has
  been. -/
  sends_chunk : ∀ k < 2 * (t.size - 1), ∃ start stop chunk,
    (ChunkLayout.ofCount n t.size).range? ((i + 2 * t.size - k) % t.size) = some (start, stop) ∧
    ChunkLayout.slice? (List.ofFn (ringFold r x (turn i k) (min k (t.size - 1)))) start stop =
      some chunk ∧
    (sends history)[k]? = some (t.rank (ahead i 1), d.encode chunk)
  receipts_length : (receipts history).length = 2 * (t.size - 1)
  receipts_previous : ∀ m ∈ receipts history, m.1 = t.rank (behind i 1)
  /-- In all, the buffer is sent twice, less the two chunks after the member's own. -/
  bytes : ∃ next further,
    (ChunkLayout.ofCount n t.size).length? ((i + 1) % t.size) = some next ∧
    (ChunkLayout.ofCount n t.size).length? ((i + 2) % t.size) = some further ∧
    next + further ≤ 2 * n ∧
    ((sends history).map fun m => m.2.length).sum = (2 * n - next - further) * d.width
  bytes_le : ((sends history).map fun m => m.2.length).sum ≤ 2 * n * d.width

theorem traffic_of_script {i : Fin t.size} {history : List Event}
    (hsends : sends history = sends (t.script (ringPlan r x) i))
    (hreceipts : receipts history = receipts (t.script (ringPlan r x) i)) :
    Traffic r x i history := by
  rw [sends_ringPlan] at hsends
  rw [receipts_ringPlan] at hreceipts
  have hbytes : ((sends history).map fun m => m.2.length).sum =
      (2 * n - ChunkLayout.chunkLength n t.size (ahead i 1) -
        ChunkLayout.chunkLength n t.size (ahead i 2)) * d.width := by
    rw [← sum_portions r x i, hsends, List.map_map, List.map_map]
    rfl
  have hleft : ChunkLayout.chunkLength n t.size (ahead i 1) +
      ChunkLayout.chunkLength n t.size (ahead i 2) ≤ 2 * n := by
    rw [← sum_chunkLength_turn n i]
    exact Nat.le_add_left _ _
  exact {
    sends_length := by simp [hsends]
    sends_next := fun m hm => fst_of_mem_map_mk (hsends ▸ hm)
    sends_chunk := by
      intro k hk
      refine ⟨_, _, _, ChunkLayout.range?_ofCount n (turn i k).isLt,
        ChunkLayout.slice?_bound List.length_ofFn (turn i k).isLt, ?_⟩
      rw [hsends, List.getElem?_map, List.getElem?_map, List.getElem?_range hk]
      rfl
    receipts_length := by simp [hreceipts]
    receipts_previous := fun m hm => fst_of_mem_map_mk (hreceipts ▸ hm)
    bytes := ⟨_, _, ChunkLayout.length?_ofCount n (ahead i 1).isLt,
      ChunkLayout.length?_ofCount n (ahead i 2).isLt, hleft, hbytes⟩
    bytes_le := by
      rw [hbytes]
      exact Nat.mul_le_mul_right _ (by omega) }

/-- Under every schedule the members come to their ends, with the same traffic and no other. -/
structure Frugal (e₀ : Executor (Recorded Mesh)) : Prop where
  /-- Wherever a schedule has led, all members come to their ends from there. -/
  ends : ∀ e, e₀.Reaches e → ∃ e', e.Reaches e' ∧
    ∀ i : Fin t.size, ∃ data, e'.status? i = some (.finished (.ok data))
  /-- At no time has a member sent or received anything else. -/
  begun : ∀ e, e₀.Reaches e → ∀ i : Fin t.size, ∃ later,
    Traffic r x i (e.network.events (t.rank i) t.tag ++ later)
  /-- In the end it has sent and received all of it. -/
  whole : ∀ e, e₀.Reaches e → ∀ (i : Fin t.size) (outcome : Except Error Bytes),
    e.status? i = some (.finished outcome) → Traffic r x i (e.network.events (t.rank i) t.tag)
  /-- Nothing happens under any other tag. -/
  elsewhere : ∀ e, e₀.Reaches e → ∀ (rank : Rank) (tag : Tag), tag ≠ t.tag →
    e.network.events rank tag = []

theorem frugal_of_realizes {program : Fin t.size → Program Bytes} {result : Fin t.size → Bytes}
    (h : t.Realizes (ringPlan r x) program result) : Frugal r x (t.traced program) := by
  have hamong := fun i => (h.through i).among
  have hplan := Team.OnPlan.traced hamong h.runs
  refine ⟨?_, ?_, ?_, fun e he rank tag htag => hplan.elsewhere he htag⟩
  · intro e he
    obtain ⟨e', he', hdone⟩ := (Team.delivers_traced hamong h.runs).completes e he
    exact ⟨e', he', fun i => ⟨result i, hdone i⟩⟩
  · intro e he i
    obtain ⟨s, -, hprogress⟩ := (hplan.reaches he).progress i
    obtain ⟨later, hsends, hreceipts⟩ := hprogress.exists_later
    exact ⟨later, traffic_of_script r x hsends hreceipts⟩
  · intro e he i outcome hdone
    obtain ⟨s, htask, hprogress⟩ := (hplan.reaches he).progress i
    rw [Executor.status?, htask, Option.map_some, Option.some_inj] at hdone
    obtain rfl : s = .finished outcome := hdone
    obtain ⟨hsends, hreceipts⟩ := hprogress.of_finished
    exact traffic_of_script r x hsends hreceipts

/-- A member of a ring allreduce among two or more sends two messages less than twice the number of
members, all to the next one, and they are at most twice its buffer, whatever the number of
members.  So it is under every schedule, and with any combine function. -/
theorem frugal_ring (t : Team) (r : Reducer d) {n : Nat} (x : Fin t.size → Fin n → d.Elem)
    (hsize : 2 ≤ t.size) (hcount : 1 ≤ n) (hn : (payloadBytes n d).isOk) :
    Frugal r x (t.traced fun i => member ringBuffer (t.exchange i) r (List.ofFn (x i))) ∧
      ∀ op, Reducer.resolve d op = .ok r →
        Frugal r x (t.traced fun i => ring d (t.job i op (List.ofFn (x i)))) := by
  obtain ⟨result, plan, -, hplan, hruns⟩ := exists_ringPlan r x (payloadBytes_isOk.1 hn)
  obtain rfl := hplan (by omega)
  have hfrugal := frugal_of_realizes r x
    (realizes_member r (fun i => through_ringBuffer _ r _) hruns)
  refine ⟨hfrugal, ?_⟩
  intro op hop
  simp only [ring, onWire_job hop]
  exact hfrugal

/-- Two elements make chunks of one, one and no elements.  The first member leaves out the second
chunk and the third one, and so it sends three elements in its four messages. -/
theorem frugal_ring_trio :
    2 ≤ Team.trio.size ∧ 1 ≤ 2 ∧ (payloadBytes 2 .int).isOk ∧
      ∃ e, (Team.trio.traced fun i => member ringBuffer (Team.trio.exchange i)
        (⟨.sum, fun a b => a - b⟩ : Reducer .int)
        (List.ofFn ((![![1, 2], ![10, 20], ![100, 200]] : Fin 3 → Fin 2 → Int32) i))).Reaches e ∧
          (sends (e.network.events 2 1)).length = 4 ∧
          ((sends (e.network.events 2 1)).map fun m => m.2.length).sum = 12 := by
  have hfit : (payloadBytes 2 .int).isOk := by decide
  refine ⟨by decide, by decide, hfit, ?_⟩
  obtain ⟨hfrugal, -⟩ := frugal_ring Team.trio (⟨.sum, fun a b => a - b⟩ : Reducer .int)
    (![![1, 2], ![10, 20], ![100, 200]] : Fin 3 → Fin 2 → Int32) (by decide) (by decide) hfit
  obtain ⟨e, he, hdone⟩ := hfrugal.ends _ .refl
  obtain ⟨data, hfirst⟩ := hdone (0 : Fin 3)
  have htraffic := hfrugal.whole e he (0 : Fin 3) _ hfirst
  obtain ⟨next, further, hnext, hfurther, -, hbytes⟩ := htraffic.bytes
  obtain rfl : 1 = next := Option.some_inj.1 hnext
  obtain rfl : 0 = further := Option.some_inj.1 hfurther
  exact ⟨e, he, htraffic.sends_length, hbytes⟩

end Allreduce

end Collectives
