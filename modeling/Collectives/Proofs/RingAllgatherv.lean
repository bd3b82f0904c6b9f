import Collectives.Allgatherv
import Collectives.Element.Codec
import Collectives.Proofs.Layout
import Collectives.Proofs.Ring
import Mathlib.Algebra.BigOperators.Fin

/-!
# The ring allgatherv

Under every schedule all members of a ring allgatherv end with the concatenation of all
contributions in the order of the local indices (`delivers_ring`), and a member that has left
the first ring knows the counts of all members, also while others are still in it.

Both rings circulate one segment of each member, which is the pass of a ring in which a slot is
replaced by what comes along (`runs_circulate`).  Both use the same channels.  What a member has
received is the beginning of what the plan has it receive, so the two cannot be confused.
-/

namespace Collectives

/-- The call of a member with this contribution. -/
def Team.gatherJob (t : Team) {d : DataType} (i : Fin t.size) (xs : List d.Elem) : Job where
  exchange := t.exchange i
  params := .allgatherv
  dtype := d
  count := xs.length
  input := d.encode xs

namespace Allgatherv

open RingOrder

variable {t : Team}

/-! ## Over the exchange only -/

theorem through_rounds (ex : Exchange) (length? : Nat → Option Nat) (segments : List Bytes)
    (step n : Nat) : (rounds ex length? segments step n).Through ex := by
  induction n generalizing segments step with
  | zero => trivial
  | succ n ih =>
    have hround : (round ex length? segments step).Through ex := by
      refine (Program.Through.demand _).bind fun next => ?_
      refine (Program.Through.demand _).bind fun previous => ?_
      refine (Program.Through.demand _).bind fun outIndex => ?_
      refine (Program.Through.demand _).bind fun inIndex => ?_
      refine (Program.Through.demand _).bind fun outgoing => ?_
      refine (Program.Through.demand _).bind fun expected => ?_
      exact (ex.through_sendRecv _ _ _ _).bind fun received => .demand _
    exact hround.bind fun segments => ih segments (step + 1)

theorem through_circulate (ex : Exchange) (length? : Nat → Option Nat) (own : Bytes) :
    (circulate ex length? own).Through ex :=
  (Program.Through.demand _).bind fun segments => through_rounds ex length? segments 0 _

theorem through_ring (job : Job) : (ring job).Through job.exchange := by
  refine (Program.Through.ofExcept _).bind fun _ => ?_
  refine ((through_circulate _ _ _).bind fun segments => .ofExcept _).bind fun counts => ?_
  refine (Program.Through.ofExcept _).bind fun lengths => ?_
  exact (through_circulate _ _ _).bind fun segments => trivial

/-! ## One ring -/

theorem put?_ofFn {n : Nat} (slots : Fin n → Bytes) (i : Fin n) (segment : Bytes) :
    put? (List.ofFn slots) i segment = some (List.ofFn (Function.update slots i segment)) := by
  rw [put?, if_pos (by rw [List.length_ofFn]; exact i.isLt), set_ofFn]

theorem put?_empty {n : Nat} (i : Fin n) (segment : Bytes) :
    put? (List.replicate n []) i segment =
      some (List.ofFn (Function.update (fun _ => []) i segment)) := by
  rw [← List.ofFn_const, put?_ofFn]

/-- What a member has in its slots after `k` rounds, empty where nothing has come yet. -/
def known {n : Nat} (own : Fin n → Bytes) : Nat → Fin n → Fin n → Bytes :=
  held 0 (fun c _ => own c) fun i => Function.update (fun _ => []) i (own i)

theorem known_zero {n : Nat} (own : Fin n → Bytes) (i : Fin n) :
    known own 0 i = Function.update (fun _ => []) i (own i) := by
  refine held_zero _ _ _ ?_ i
  intro i
  rw [ahead_zero, Function.update_self]

theorem known_last {n : Nat} (own : Fin n → Bytes) (i : Fin n) : known own (n - 1) i = own := by
  funext c
  exact held_last _ _ _ i c

theorem known_behind {n : Nat} (own : Fin n → Bytes) (i : Fin n) {k : Nat} (hk : k < n) :
    known own k i (behind i k) = own (behind i k) := by
  have hheld := held_behind 0 (fun c _ => own c)
    (fun i => Function.update (fun _ => []) i (own i)) i hk
  rwa [ahead_zero] at hheld

theorem known_succ {n : Nat} (own : Fin n → Bytes) (i : Fin n) {k : Nat} (hk : k + 1 < n) :
    known own (k + 1) i =
      Function.update (known own k i) (behind i (k + 1)) (own (behind i (k + 1))) := by
  have hheld := held_succ 0 (fun c _ => own c)
    (fun i => Function.update (fun _ => []) i (own i)) i hk
  rwa [ahead_zero] at hheld

/-- The rounds of a ring that circulates one segment of each member. -/
def circulation {n : Nat} (own : Fin n → Bytes) (step m : Nat) : List (Round n) :=
  shifts (fun k i => own (behind i k)) step m

theorem runs_rounds {own : Fin t.size → Bytes} {length? : Nat → Option Nat}
    (hlength : ∀ c : Fin t.size, length? c = some (own c).length) (i : Fin t.size)
    (step m : Nat) (h : step + m < t.size) :
    (rounds (t.exchange i) length? (List.ofFn (known own step i)) step m).Runs
      (t.script (circulation own step m) i) (.ret (List.ofFn (known own (step + m) i))) := by
  induction m generalizing step with
  | zero => exact .refl _
  | succ m ih =>
    have hout : (List.ofFn (known own step i))[(behind i step).val]? =
        some (own (behind i step)) := by
      rw [List.getElem?_ofFn, dif_pos (behind i step).isLt]
      exact congrArg some (known_behind own i (by omega))
    have hprevious : own (behind (behind i 1) step) = own (behind i (step + 1)) := by
      rw [behind_behind_one i (by omega)]
    have hround := (t.runs_sendRecv i (ahead i 1) (behind i 1) (own (behind i step))
      (rfl : (own (behind i (step + 1))).length = _)).bind fun received =>
        .demand (put? (List.ofFn (known own step i)) (behind i (step + 1)) received)
    rw [Program.ret_bind, put?_ofFn, ← known_succ own i (by omega), Program.demand_some] at hround
    have hrest := ih (step + 1) (by omega)
    rw [Nat.add_assoc, Nat.add_comm 1 m] at hrest
    rw [rounds, round, t.size_exchange, t.localRank_exchange, t.ahead?_one,
      t.behind?_val i i.pos, t.behind?_val i (by omega), t.behind?_val i (by omega)]
    simp only [Program.demand_some, Program.ret_bind, hout, hlength]
    rw [circulation, shifts_succ, t.script_shift_cons, hprevious]
    exact hround.bind_ret hrest

/-- A ring gives every member the segments of all. -/
theorem runs_circulate (own : Fin t.size → Bytes) (length? : Nat → Option Nat)
    (hlength : ∀ c : Fin t.size, length? c = some (own c).length) (i : Fin t.size) :
    (circulate (t.exchange i) length? (own i)).Runs
      (t.script (circulation own 0 (t.size - 1)) i) (.ret (List.ofFn own)) := by
  have hput : put? (List.replicate t.size []) i (own i) =
      some (List.ofFn (known own 0 i)) := by
    rw [put?_empty, known_zero]
  have hpos := t.size_pos
  have hrounds := runs_rounds hlength i 0 (t.size - 1) (by omega)
  rw [Nat.zero_add, known_last] at hrounds
  rw [circulate, t.size_exchange, t.localRank_exchange, hput]
  exact hrounds

/-! ## Two rings -/

theorem mapM_ofFn {n : Nat} {α β : Type} {f : α → Except Error β} {x : Fin n → α}
    {y : Fin n → β} (h : ∀ c, f (x c) = .ok (y c)) :
    (List.ofFn x).mapM f = .ok (List.ofFn y) := by
  rw [List.ofFn_eq_map, List.ofFn_eq_map, List.mapM_map]
  exact mapM_eq_pure_map fun c _ => h c

theorem readCount_littleEndian {count : Nat} (h : count < Index.limit) :
    readCount (littleEndian countBytes count) = .ok count := by
  have hlimit : wordLimit countBytes = Index.limit := by decide
  rw [readCount, length_littleEndian, if_pos rfl, ofLittleEndian_littleEndian, hlimit,
    Nat.mod_eq_of_lt h]

/-- The wire form of the counts. -/
def countSegment {n : Nat} (counts : Fin n → Nat) (i : Fin n) : Bytes :=
  littleEndian countBytes (counts i)

theorem runs_exchangeCounts {counts : Fin t.size → Nat} (h : ∀ c, counts c < Index.limit)
    (i : Fin t.size) :
    (exchangeCounts (t.exchange i) (counts i)).Runs
      (t.script (circulation (countSegment counts) 0 (t.size - 1)) i)
      (.ret (List.ofFn counts)) := by
  have hread : (List.ofFn (countSegment counts)).mapM readCount = .ok (List.ofFn counts) :=
    mapM_ofFn fun c => readCount_littleEndian (h c)
  have hlength : ∀ c, some countBytes = some (countSegment counts c).length := by
    intro c
    rw [countSegment, length_littleEndian]
  have hruns := (runs_circulate (countSegment counts) (fun _ => some countBytes) hlength i).bind
    fun segments => .ofExcept (segments.mapM readCount)
  rwa [Program.ret_bind, hread, Program.ofExcept_ok] at hruns

/-- The second part of the program: the data ring, with these counts. -/
def gather (job : Job) (counts : List Nat) : Program Bytes := do
  let lengths ← .ofExcept (counts.mapM (payloadBytes · job.dtype))
  let segments ← circulate job.exchange (lengths[·]?) job.input
  return segments.flatten

theorem ring_eq {job : Job} (h : job.params = .allgatherv) :
    ring job = exchangeCounts job.exchange job.count >>= gather job := by
  rw [ring, h]
  rfl

section

variable {d : DataType} {count : Fin t.size → Nat} {own : Fin t.size → Bytes}

/-- The data ring gives every member what all members have, if the counts say how much it is. -/
theorem runs_gather (hlength : ∀ c, (own c).length = count c * d.width)
    (hfit : ∀ c, count c * d.width < Index.limit) (i : Fin t.size) :
    (gather ⟨t.exchange i, .allgatherv, d, count i, own i⟩ (List.ofFn count)).Runs
      (t.script (circulation own 0 (t.size - 1)) i) (.ret (List.ofFn own).flatten) := by
  have hlengths : (List.ofFn count).mapM (payloadBytes · d) =
      .ok (List.ofFn fun c => count c * d.width) :=
    mapM_ofFn fun c => payloadBytes_of_lt (hfit c)
  have hget : ∀ c : Fin t.size, (List.ofFn fun c => count c * d.width)[c.val]? =
      some (own c).length := by
    intro c
    rw [List.getElem?_ofFn, dif_pos c.isLt, hlength]
  have hruns := (runs_circulate own _ hget i).bind fun segments => .ret segments.flatten
  rw [gather, hlengths]
  exact hruns

/-- The ring of the counts and then the ring of what they count. -/
theorem realizes_bytes (hlength : ∀ c, (own c).length = count c * d.width)
    (hfit : ∀ c, count c * d.width < Index.limit) :
    t.Realizes (circulation (countSegment count) 0 (t.size - 1) ++ circulation own 0 (t.size - 1))
      (fun i => ring ⟨t.exchange i, .allgatherv, d, count i, own i⟩)
      fun _ => (List.ofFn own).flatten where
  through i := through_ring ⟨t.exchange i, .allgatherv, d, count i, own i⟩
  runs i := by
    have hcount : ∀ c, count c < Index.limit := fun c => d.lt_of_mul_width_lt (hfit c)
    rw [ring_eq rfl, t.script_append]
    exact (runs_exchangeCounts hcount i).bind_ret (runs_gather hlength hfit i)

end

section

variable {d : DataType} (x : Fin t.size → List d.Elem)

/-- The counts of all members. -/
def counts (c : Fin t.size) : Nat := (x c).length

/-- The contributions of all members in wire form. -/
def contribution (c : Fin t.size) : Bytes := d.encode (x c)

theorem encode_flatten (xs : List (List d.Elem)) :
    (xs.map d.encode).flatten = d.encode xs.flatten := by
  induction xs with
  | nil => rfl
  | cons x xs ih => rw [List.map_cons, List.flatten_cons, ih, List.flatten_cons,
      DataType.encode_append]

/-- The ring of the counts and then the ring of the contributions. -/
def gatherPlan : List (Round t.size) :=
  circulation (countSegment (counts x)) 0 (t.size - 1) ++
    circulation (contribution x) 0 (t.size - 1)

theorem runs_ring (h : ∀ c, (x c).length * d.width < Index.limit) (i : Fin t.size) :
    (ring (t.gatherJob i (x i))).Runs (t.script (gatherPlan x) i)
      (.ret (d.encode (List.ofFn x).flatten)) := by
  have hflatten : (List.ofFn (contribution x)).flatten = d.encode (List.ofFn x).flatten := by
    rw [← encode_flatten, List.map_ofFn]
    rfl
  rw [← hflatten]
  exact (realizes_bytes (fun c => d.length_encode (x c)) h).runs i

/-- Whenever a member has come to the end of the count ring on its script, it knows the counts
of all. -/
theorem counts_of_runs (h : ∀ c, (x c).length * d.width < Index.limit) {i : Fin t.size}
    {history : List Event} {learnt : List Nat} (hscript : history <+: t.script (gatherPlan x) i)
    (hruns : (exchangeCounts (t.exchange i) (x i).length).Runs history (.ret learnt)) :
    learnt = List.ofFn (counts x) := by
  have hcount : ∀ c, counts x c < Index.limit := fun c => d.lt_of_mul_width_lt (h c)
  have hplanned := runs_exchangeCounts hcount i
  have hbegun : t.script (circulation (countSegment (counts x)) 0 (t.size - 1)) i <+:
      t.script (gatherPlan x) i := by
    rw [gatherPlan, t.script_append]
    exact List.prefix_append _ _
  rcases List.prefix_or_prefix_of_prefix hscript hbegun with hle | hge
  · exact (hruns.ret_unique hplanned hle).2
  · exact (hplanned.ret_unique hruns hge).2.symm

end

/-- Under every schedule all members of a ring allgatherv end with the concatenation of the
contributions in the order of the local indices.  On the way there a member is still in the
ring of the counts, or it is in the ring of the contributions with the counts of all members,
whatever the others are doing. -/
theorem delivers_ring (t : Team) {d : DataType} (x : Fin t.size → List d.Elem)
    (hx : ∀ i, (payloadBytes (x i).length d).isOk) :
    ((t.run fun i => ring (t.gatherJob i (x i))).Delivers
      fun _ : Fin t.size => d.encode (List.ofFn x).flatten) ∧
    (List.ofFn x).flatten.length = ∑ c, (x c).length ∧
    ∀ e, (t.run fun i => ring (t.gatherJob i (x i))).Reaches e →
      ∀ (i : Fin t.size) (p : Program Bytes), e.status? i = some (.running p) →
        (∃ history q, (exchangeCounts (t.exchange i) (x i).length).Runs history q ∧
          p = q >>= gather (t.gatherJob i (x i)) ∧
          ∀ learnt, q = .ret learnt → learnt = List.ofFn fun c => (x c).length) ∨
        ∃ history, (gather (t.gatherJob i (x i)) (List.ofFn fun c => (x c).length)).Runs
          history p := by
  have hfit : ∀ i, (x i).length * d.width < Index.limit := fun i => payloadBytes_isOk.1 (hx i)
  have hamong : ∀ i, (ring (t.gatherJob i (x i))).Among (· ∈ t.ranks) :=
    fun i => (through_ring (t.gatherJob i (x i))).among
  have hruns := runs_ring x hfit
  refine ⟨Team.delivers_of_plan hamong hruns, ?_, ?_⟩
  · rw [List.length_flatten, List.map_ofFn, List.sum_ofFn]
    rfl
  · intro e he i p hp
    rw [← t.forget_traced] at he
    obtain ⟨e', he', rfl⟩ := Executor.exists_of_forget he
    have honplan := (Team.OnPlan.traced hamong hruns).reaches he'
    obtain ⟨hafter, hbegun⟩ := honplan.runs_of_running hp
    rw [ring_eq rfl] at hafter
    rcases hafter.of_bind with ⟨q, hq, rfl⟩ | ⟨history, rest, learnt, hsplit, hlearnt, hrest⟩
    · refine .inl ⟨_, q, hq, rfl, ?_⟩
      intro learnt hret
      rw [hret] at hq
      exact counts_of_runs x hfit hbegun hq
    · have hhistory : history <+: t.script (gatherPlan x) i := by
        rw [hsplit] at hbegun
        exact (List.prefix_append _ _).trans hbegun
      rw [counts_of_runs x hfit hhistory hlearnt] at hrest
      exact .inr ⟨rest, hrest⟩

/-- Three members contribute two elements, none and one. -/
theorem delivers_ring_trio :
    (∀ i, (payloadBytes ((![[1, 2], [], [3]] : Fin 3 → List Int32) i).length .int).isOk) ∧
      (Team.trio.run fun i => ring (Team.trio.gatherJob (d := .int) i
        ((![[1, 2], [], [3]] : Fin 3 → List Int32) i))).Delivers
          fun _ : Fin 3 => DataType.int.encode [1, 2, 3] := by
  have hfit : ∀ i, (payloadBytes ((![[1, 2], [], [3]] : Fin 3 → List Int32) i).length
      .int).isOk := by decide
  exact ⟨hfit, (delivers_ring Team.trio (d := .int)
    (![[1, 2], [], [3]] : Fin 3 → List Int32) hfit).1⟩

end Allgatherv

end Collectives
