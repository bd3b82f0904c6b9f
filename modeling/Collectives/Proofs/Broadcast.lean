import Collectives.Operation
import Collectives.Proofs.Ring
import Collectives.Proofs.Spreading
import Collectives.Proofs.Standing
import Mathlib.Data.Fin.VecNotation

/-!
# The broadcasts

Both broadcasts give all members the buffer of the root.  In the flat one the root sends it to
the others, in the order of their local indices (`fan`).  In the chain the member `k` places
ahead of the root sends it to the next one (`hops`).

A member other than the root has no part in what is sent: its input is not even looked at when it
starts.  And since each member checks what it receives, one that expects the wrong number of
elements never ends with a value, also where the members disagree (`delivers_broadcast`).
-/

namespace Collectives

/-- The operation of a member, as it is built. -/
def Team.operationOf (t : Team) (i : Fin t.size) (params : Params) (d : DataType) (count : Nat)
    (name : AlgorithmName) (algorithm : Algorithm) : Operation where
  params
  dtype := d
  count
  algorithm := name
  implementation := algorithm
  exchange := t.exchange i

/-- The job of a member of a broadcast, which has the buffer at the root and nothing elsewhere. -/
def Team.broadcastJob (t : Team) (root : Fin t.size) {d : DataType} (xs : List d.Elem)
    (count : Nat) (i : Fin t.size) : Job where
  exchange := t.exchange i
  params := .broadcast root
  dtype := d
  count
  input := if i = root then d.encode xs else []

/-- In a broadcast all inputs but that of the root are ignored. -/
theorem Team.ignoresInput_broadcast (t : Team) (root i : Fin t.size) (d : DataType) (count : Nat)
    (name : AlgorithmName) (algorithm : Algorithm) :
    (t.operationOf i (.broadcast root) d count name algorithm).ignoresInput =
      decide (root ≠ i) := by
  show decide ((root : Nat) ≠ (t.exchange i).localRank) = decide (root ≠ i)
  simp only [t.localRank_exchange, ne_eq, Fin.val_inj]

/-- Nothing but the input of the root is looked at when a broadcast is started. -/
theorem Team.stage_broadcast (t : Team) {root : Fin t.size} {d : DataType} {xs : List d.Elem}
    {count : Fin t.size → Nat} (hcount : count root = xs.length)
    {input : Fin t.size → Option (List d.Elem)} (hinput : input root = some xs)
    (name : AlgorithmName) (algorithm : Algorithm) (i : Fin t.size) :
    (t.operationOf i (.broadcast root) d (count i) name algorithm).stage d (input i) =
      .ok (t.broadcastJob root xs (count i) i) := by
  have htype : (t.operationOf i (.broadcast root) d (count i) name algorithm).checkType d =
      .ok () := if_pos rfl
  have hstage : (t.operationOf i (.broadcast root) d (count i) name algorithm).stageInput d
      (input i) = .ok (if i = root then d.encode xs else []) := by
    unfold Operation.stageInput
    rw [t.ignoresInput_broadcast]
    by_cases hi : i = root
    · subst hi
      rw [if_neg (by simp), hinput, if_pos rfl]
      exact if_pos hcount.symm
    · have hne : root ≠ i := fun h => hi h.symm
      rw [decide_eq_true hne, if_pos rfl, if_neg hi]
  rw [Operation.stage, htype, hstage]
  rfl

/-! ## Rounds with a single message -/

/-- One member sends a message to another, and nobody else does anything. -/
def Round.deliver {n : Nat} (src dest : Fin n) (data : Bytes) : Round n where
  sends i := if i = src then some (dest, data) else none
  receives i := if i = dest then some (src, data) else none
  matched i j m := by
    simp only [Option.ite_none_right_eq_some, Option.some_inj, Prod.mk.injEq]
    constructor
    · rintro ⟨rfl, rfl, rfl⟩
      exact ⟨rfl, rfl, rfl⟩
    · rintro ⟨rfl, rfl, rfl⟩
      exact ⟨rfl, rfl, rfl⟩

theorem Team.script_deliver_cons (t : Team) (src dest : Fin t.size) (data : Bytes)
    (plan : List (Round t.size)) (i : Fin t.size) :
    t.script (.deliver src dest data :: plan) i =
      (if i = src then [.sent (t.rank dest) data] else []) ++
        (if i = dest then [.received (t.rank src) data] else []) ++ t.script plan i := by
  have hsends : t.sendEvents (.deliver src dest data) i =
      if i = src then [.sent (t.rank dest) data] else [] := by
    rw [Team.sendEvents, Round.deliver]
    dsimp only
    split <;> rfl
  have hreceives : t.receiveEvents (.deliver src dest data) i =
      if i = dest then [.received (t.rank src) data] else [] := by
    rw [Team.receiveEvents, Round.deliver]
    dsimp only
    split <;> rfl
  rw [t.script_cons, hsends, hreceives]

namespace Broadcast

open RingOrder

variable {t : Team}

/-! ## Over the exchange only -/

section

variable (ex : Exchange)

theorem through_sendEach (data : Bytes) (receivers : List Nat) :
    (sendEach ex data receivers).Through ex := by
  induction receivers with
  | nil => trivial
  | cons i rest ih => exact (ex.through_send i data).bind fun _ => ih

theorem through_flat (root : Nat) (input : Bytes) (total : Nat) :
    (flat ex root input total).Through ex := by
  unfold flat
  split
  · exact (through_sendEach ex _ _).bind fun _ => trivial
  · exact ex.through_recvExact _ _

theorem through_fromPrevious (position : Nat) (input : Bytes) (total : Nat) :
    (fromPrevious ex position input total).Through ex := by
  unfold fromPrevious
  split
  · trivial
  · exact (Program.Through.demand _).bind fun previous => ex.through_recvExact _ _

theorem through_toNext (position : Nat) (data : Bytes) : (toNext ex position data).Through ex := by
  unfold toNext
  split
  · exact (Program.Through.demand _).bind fun next => ex.through_send _ _
  · trivial

theorem through_chain (root : Nat) (input : Bytes) (total : Nat) :
    (chain ex root input total).Through ex := by
  refine (Program.Through.demand _).bind fun position => ?_
  refine (through_fromPrevious ex _ _ _).bind fun data => ?_
  exact (through_toNext ex _ _).bind fun _ => trivial

end

theorem through_sendToAll (job : Job) : (sendToAll job).Through job.exchange := by
  refine (Program.Through.ofExcept _).bind fun root => ?_
  split
  · trivial
  · split
    · trivial
    · exact (Program.Through.ofExcept _).bind fun total => through_flat _ _ _ _

theorem through_linear (job : Job) : (linear job).Through job.exchange := by
  refine (Program.Through.ofExcept _).bind fun root => ?_
  split
  · trivial
  · exact (Program.Through.ofExcept _).bind fun total => through_chain _ _ _ _

/-! ## The flat broadcast -/

/-- The members other than the root. -/
def others (root : Fin t.size) : List (Fin t.size) := (List.finRange t.size).filter (· ≠ root)

theorem others_of_alone (root : Fin t.size) (h : t.size ≤ 1) : others root = [] := by
  refine List.filter_eq_nil_iff.2 ?_
  intro j _
  have hj := j.isLt
  have hroot := root.isLt
  simpa using Fin.ext (by omega)

theorem map_others (root : Fin t.size) :
    (others root).map Fin.val = (List.range t.size).filter (· ≠ root.val) := by
  rw [others, ← List.map_coe_finRange_eq_range, List.filter_map]
  congr 1
  refine List.filter_congr ?_
  intro i _
  simp [Fin.ext_iff]

/-- The root sends to each of the members listed. -/
def fan (root : Fin t.size) (data : Bytes) (receivers : List (Fin t.size)) :
    List (Round t.size) :=
  receivers.map fun j => .deliver root j data

theorem script_fan_root {root : Fin t.size} (data : Bytes) {receivers : List (Fin t.size)}
    (h : root ∉ receivers) :
    t.script (fan root data receivers) root =
      receivers.map fun j => .sent (t.rank j) data := by
  induction receivers with
  | nil => rfl
  | cons j receivers ih =>
    rw [List.mem_cons, not_or] at h
    rw [fan, List.map_cons, t.script_deliver_cons, if_pos rfl, if_neg h.1, List.append_nil,
      List.map_cons, ← ih h.2]
    rfl

theorem script_fan_of_notMem {root i : Fin t.size} (data : Bytes) {receivers : List (Fin t.size)}
    (hroot : i ≠ root) (h : i ∉ receivers) : t.script (fan root data receivers) i = [] := by
  induction receivers with
  | nil => rfl
  | cons j receivers ih =>
    rw [List.mem_cons, not_or] at h
    rw [fan, List.map_cons, t.script_deliver_cons, if_neg hroot, if_neg h.1]
    exact ih h.2

theorem script_fan_of_mem {root i : Fin t.size} (data : Bytes) {receivers : List (Fin t.size)}
    (hroot : i ≠ root) (hnodup : receivers.Nodup) (h : i ∈ receivers) :
    t.script (fan root data receivers) i = [.received (t.rank root) data] := by
  induction receivers with
  | nil => cases h
  | cons j receivers ih =>
    rw [List.nodup_cons] at hnodup
    rw [fan, List.map_cons, t.script_deliver_cons, if_neg hroot, List.nil_append]
    by_cases hij : i = j
    · subst hij
      rw [if_pos rfl]
      exact congrArg _ (script_fan_of_notMem data hroot hnodup.1)
    · rw [if_neg hij, List.nil_append]
      exact ih hnodup.2 ((List.mem_cons.1 h).resolve_left hij)

theorem runs_sendEach (i : Fin t.size) (data : Bytes) (receivers : List (Fin t.size)) :
    (sendEach (t.exchange i) data (receivers.map Fin.val)).Runs
      (receivers.map fun j => .sent (t.rank j) data) (.ret ()) := by
  induction receivers with
  | nil => exact .refl _
  | cons j receivers ih =>
    show (_ >>= fun _ => sendEach (t.exchange i) data (receivers.map Fin.val)).Runs
      ([.sent (t.rank j) data] ++ _) _
    exact (t.runs_send i j data).bind_ret ih

theorem runs_flat (root i : Fin t.size) {data input : Bytes} (hinput : i = root → input = data) :
    (flat (t.exchange i) root input data.length).Runs
      (t.script (fan root data (others root)) i) (.ret data) := by
  rw [flat, t.localRank_exchange, t.size_exchange, ← map_others]
  by_cases hi : i = root
  · subst hi
    rw [if_pos rfl, hinput rfl, script_fan_root data (by simp [others])]
    exact (runs_sendEach i data (others i)).bind fun _ => .ret data
  · have hmem : i ∈ others root := by simpa [others] using hi
    have hnodup : (others root).Nodup := (List.nodup_finRange _).filter _
    rw [if_neg fun h => hi (Fin.ext h), script_fan_of_mem data hi hnodup hmem]
    exact t.runs_recvExact i root rfl

/-! ## The chain -/

/-- The first `m` members of the chain send to the next one. -/
def hops (root : Fin t.size) (data : Bytes) (m : Nat) : List (Round t.size) :=
  (List.range m).map fun k => .deliver (ahead root k) (ahead (ahead root k) 1) data

/-- Every member but the root has received, and every member but the last has sent, as soon as
its turn was there. -/
theorem script_hops (root : Fin t.size) (data : Bytes) {m : Nat} (hm : m < t.size)
    (i : Fin t.size) :
    t.script (hops root data m) i =
      (if 0 < gap i root ∧ gap i root ≤ m then [.received (t.rank (behind i 1)) data] else []) ++
        if gap i root < m then [.sent (t.rank (ahead i 1)) data] else [] := by
  induction m with
  | zero =>
    have hnone : ¬(0 < gap i root ∧ gap i root ≤ 0) := by omega
    rw [if_neg hnone, if_neg (Nat.not_lt_zero _)]
    rfl
  | succ m ih =>
    have hplace : ∀ k < t.size, i = ahead root k ↔ gap i root = k := by
      intro k hk
      constructor
      · rintro rfl
        exact gap_ahead root hk
      · rintro rfl
        exact (ahead_gap i root).symm
    have hlast : hops root data (m + 1) = hops root data m ++
        [.deliver (ahead root m) (ahead (ahead root m) 1) data] := by
      rw [hops, List.range_succ, List.map_append]
      rfl
    rw [hlast, t.script_append, ih (Nat.lt_of_succ_lt hm), t.script_deliver_cons, t.script_nil,
      List.append_nil, ahead_ahead]
    have hsrc := hplace m (by omega)
    have hdest := hplace (m + 1) hm
    have hreceived : gap i root ≠ m + 1 → (0 < gap i root ∧ gap i root ≤ m + 1 ↔
        0 < gap i root ∧ gap i root ≤ m) := by omega
    rcases Nat.lt_trichotomy (gap i root) m with hlt | heq | hgt
    · -- its turn was before
      rw [if_neg fun h => Nat.ne_of_lt hlt (hsrc.1 h),
        if_neg fun h => Nat.ne_of_lt (Nat.lt_succ_of_lt hlt) (hdest.1 h), if_pos hlt,
        if_pos (Nat.lt_succ_of_lt hlt)]
      simp only [hreceived (Nat.ne_of_lt (Nat.lt_succ_of_lt hlt)), List.append_nil]
    · -- it sends
      have hnot : ¬gap i root < m := by omega
      have hnow : gap i root < m + 1 := by omega
      rw [if_pos (hsrc.2 heq), if_neg fun h => Nat.ne_of_lt hnow (hdest.1 h), if_neg hnot,
        if_pos hnow, ← ahead_ahead, ← hsrc.2 heq]
      simp only [hreceived (Nat.ne_of_lt hnow), List.append_nil]
    · have hnot : ¬gap i root < m := by omega
      have hnot' : ¬gap i root < m + 1 := by omega
      have hbefore : ¬(0 < gap i root ∧ gap i root ≤ m) := by omega
      rw [if_neg fun h => Nat.ne_of_gt hgt (hsrc.1 h), if_neg hnot, if_neg hnot', if_neg hbefore]
      rcases Nat.lt_or_eq_of_le (Nat.succ_le_of_lt hgt) with hafter | hnow
      · -- its turn is yet to come
        have hne := Nat.ne_of_gt hafter
        rw [if_neg fun h => hne (hdest.1 h), if_neg fun h => hbefore ((hreceived hne).1 h)]
        rfl
      · -- it receives
        have hi : i = ahead root (m + 1) := hdest.2 hnow.symm
        have hreceives : 0 < gap i root ∧ gap i root ≤ m + 1 := by omega
        have hprevious : ahead root m = behind i 1 := by
          rw [hi, ← ahead_ahead, behind_ahead_one]
        rw [if_pos hi, if_pos hreceives, hprevious]
        rfl

theorem position?_exchange (root i : Fin t.size) :
    position? (t.exchange i) root = some (gap i root) := by
  have hfit := t.add_size_lt i (Nat.zero_le 1)
  have hroot : root.val ≤ i.val + t.size := Nat.le_add_left_of_le (Nat.le_of_lt root.isLt)
  exact Index.behind?_eq t.size_pos hroot hfit

theorem runs_chain (root i : Fin t.size) {data input : Bytes} (hinput : i = root → input = data) :
    (chain (t.exchange i) root input data.length).Runs
      (t.script (hops root data (t.size - 1)) i) (.ret data) := by
  have hpos := t.size_pos
  have hlt := gap_lt i root
  have hfrom : (fromPrevious (t.exchange i) (gap i root) input data.length).Runs
      (if 0 < gap i root ∧ gap i root ≤ t.size - 1 then
        [.received (t.rank (behind i 1)) data] else []) (.ret data) := by
    by_cases hi : i = root
    · have hzero : gap i root = 0 := Nat.eq_zero_of_not_pos fun h => gap_pos.1 h hi
      rw [fromPrevious, if_pos hzero, hinput hi, if_neg (by omega)]
      exact .refl _
    · have hgap := gap_pos.2 hi
      rw [fromPrevious, if_neg (by omega), t.size_exchange, t.localRank_exchange,
        t.behind?_val i i.pos, if_pos (by omega)]
      exact t.runs_recvExact i (behind i 1) rfl
  have hto : (toNext (t.exchange i) (gap i root) data).Runs
      (if gap i root < t.size - 1 then [.sent (t.rank (ahead i 1)) data] else []) (.ret ()) := by
    rw [toNext, t.size_exchange, t.localRank_exchange]
    by_cases hend : gap i root < t.size - 1
    · rw [if_pos (by omega), if_pos hend, t.ahead?_one]
      exact t.runs_send i (ahead i 1) data
    · rw [if_neg (by omega), if_neg hend]
      exact .refl _
  rw [chain, position?_exchange, script_hops root data (by omega)]
  exact hfrom.bind_ret (hto.bind fun _ => .ret data)

/-! ## The programs of a member of a team -/

section

variable {d : DataType} (root i : Fin t.size)

theorem input_broadcastJob (xs : List d.Elem) {count : Nat} (h : i = root) :
    (t.broadcastJob root xs count i).input = d.encode xs := if_pos h

theorem sendToAll_job (input : Bytes) {count : Nat} (hcount : count ≠ 0) :
    sendToAll ⟨t.exchange i, .broadcast root, d, count, input⟩ =
      if t.size ≤ 1 then .ret input
      else .ofExcept (payloadBytes count d) >>= fun total =>
        flat (t.exchange i) root input total := by
  show (if count = 0 then _ else _) = _
  rw [if_neg hcount]
  rfl

theorem linear_job (input : Bytes) {count : Nat} (hcount : count ≠ 0) :
    linear ⟨t.exchange i, .broadcast root, d, count, input⟩ =
      .ofExcept (payloadBytes count d) >>= fun total =>
        chain (t.exchange i) root input total := by
  show (if count = 0 then _ else _) = _
  rw [if_neg hcount]

end

/-- A plan on which everyone ends with what the root has, whatever the others have. -/
theorem exists_plan_bytes {d : DataType} (root : Fin t.size) {data : Bytes} {count : Nat}
    (hlength : data.length = count * d.width) (hfit : count * d.width < Index.limit)
    {input : Fin t.size → Bytes} (hinput : ∀ i, i = root → input i = data)
    {algorithm : Algorithm} (h : algorithm = .sendToAll ∨ algorithm = .linear) :
    ∃ plan : List (Round t.size),
      t.Realizes plan (fun i => algorithm.run ⟨t.exchange i, .broadcast root, d, count, input i⟩)
        fun _ => data := by
  suffices hruns : ∃ plan : List (Round t.size), ∀ i,
      (algorithm.run ⟨t.exchange i, .broadcast root, d, count, input i⟩).Runs (t.script plan i)
        (.ret data) by
    obtain ⟨plan, hruns⟩ := hruns
    refine ⟨plan, ?_, hruns⟩
    intro i
    rcases h with rfl | rfl
    · exact through_sendToAll ⟨t.exchange i, .broadcast root, d, count, input i⟩
    · exact through_linear ⟨t.exchange i, .broadcast root, d, count, input i⟩
  have htotal : payloadBytes count d = .ok data.length := by
    rw [payloadBytes_of_lt hfit, hlength]
  by_cases hcount : count = 0
  · subst hcount
    rw [Nat.zero_mul] at hlength
    obtain rfl := List.eq_nil_of_length_eq_zero hlength
    refine ⟨[], ?_⟩
    intro i
    rcases h with rfl | rfl <;> exact .refl _
  rcases h with rfl | rfl
  · refine ⟨fan root data (others root), ?_⟩
    intro i
    show (sendToAll _).Runs _ _
    rw [sendToAll_job root i _ hcount]
    split
    · next hsize =>
      have hi := i.isLt
      have hroot := root.isLt
      have heq : i = root := Fin.ext (by omega)
      rw [hinput i heq, others_of_alone root hsize]
      exact .refl _
    · rw [htotal]
      exact runs_flat root i (hinput i)
  · refine ⟨hops root data (t.size - 1), ?_⟩
    intro i
    show (linear _).Runs _ _
    rw [linear_job root i _ hcount, htotal]
    exact runs_chain root i (hinput i)

/-- A plan on which everyone ends with the buffer of the root. -/
theorem exists_plan {d : DataType} (root : Fin t.size) (xs : List d.Elem)
    (hfit : xs.length * d.width < Index.limit) {algorithm : Algorithm}
    (h : algorithm = .sendToAll ∨ algorithm = .linear) :
    ∃ plan : List (Round t.size),
      t.Realizes plan (fun i => algorithm.run (t.broadcastJob root xs xs.length i))
        fun _ => d.encode xs := by
  have hinput : ∀ i, i = root → (t.broadcastJob root xs xs.length i).input = d.encode xs :=
    fun i => input_broadcastJob root i xs
  exact exists_plan_bytes root (d.length_encode xs) hfit hinput h

/-! ## Members that disagree on the count -/

theorem spreads_sendEach (ex : Exchange) {good : Bytes → Prop} {data : Bytes} (h : good data)
    (receivers : List Nat) : (sendEach ex data receivers).Spreads good fun _ => True := by
  induction receivers with
  | nil => trivial
  | cons i rest ih => exact (ex.spreads_send i h).bind fun _ _ => ih

theorem spreads_flat (root i : Fin t.size) {good : Bytes → Prop} {input : Bytes} (total : Nat)
    (hinput : i = root → good input) :
    (flat (t.exchange i) root input total).Spreads good fun data =>
      good data ∧ (i = root ∨ data.length = total) := by
  rw [flat, t.localRank_exchange]
  split
  · next h =>
    have hi : i = root := Fin.ext h
    exact (spreads_sendEach _ (hinput hi) _).bind fun _ _ => ⟨hinput hi, .inl hi⟩
  · exact ((t.exchange i).spreads_recvExact _ _).mono fun data hdata => ⟨hdata.1, .inr hdata.2⟩

theorem spreads_chain (root i : Fin t.size) {good : Bytes → Prop} {input : Bytes} (total : Nat)
    (hinput : i = root → good input) :
    (chain (t.exchange i) root input total).Spreads good fun data =>
      good data ∧ (i = root ∨ data.length = total) := by
  have hfrom : (fromPrevious (t.exchange i) (gap i root) input total).Spreads good fun data =>
      good data ∧ (i = root ∨ data.length = total) := by
    rw [fromPrevious]
    split
    · next h =>
      have hi : i = root := by
        by_contra hne
        exact Nat.ne_of_gt (gap_pos.2 hne) h
      exact ⟨hinput hi, .inl hi⟩
    · refine Program.Spreads.bind (.demand fun previous _ => trivial) fun previous _ => ?_
      exact ((t.exchange i).spreads_recvExact _ _).mono fun data hdata => ⟨hdata.1, .inr hdata.2⟩
  rw [chain, position?_exchange]
  refine hfrom.bind fun data hdata => ?_
  have hto : (toNext (t.exchange i) (gap i root) data).Spreads good fun _ => True := by
    rw [toNext]
    split
    · refine Program.Spreads.bind (.demand fun next _ => trivial) fun next _ => ?_
      exact (t.exchange i).spreads_send _ hdata.1
    · trivial
  exact hto.bind fun _ _ => hdata

/-- Whatever count a member has declared, it hands on nothing but the buffer of the root, and a
member with a count that is not zero ends with this buffer only, and only if its count is right. -/
theorem spreads_broadcast {d : DataType} (root i : Fin t.size) (xs : List d.Elem) {count : Nat}
    (hcount : i = root → count = xs.length) {algorithm : Algorithm}
    (h : algorithm = .sendToAll ∨ algorithm = .linear) :
    (algorithm.run (t.broadcastJob root xs count i)).Spreads (· = d.encode xs) fun data =>
      count ≠ 0 → count = xs.length ∧ data = d.encode xs := by
  by_cases hzero : count = 0
  · subst hzero
    rcases h with rfl | rfl <;> exact fun hne => absurd rfl hne
  have htotal : (Program.ofExcept (payloadBytes count d)).Spreads (· = d.encode xs) fun total =>
      total = count * d.width := by
    refine .ofExcept fun total htotal => ?_
    rcases Nat.lt_or_ge (count * d.width) Index.limit with hfit | hbig
    · rw [payloadBytes_of_lt hfit] at htotal
      cases htotal
      rfl
    · rw [payloadBytes_of_le hbig] at htotal
      cases htotal
  have hpost : ∀ data, data = d.encode xs ∧ (i = root ∨ data.length = count * d.width) →
      count ≠ 0 → count = xs.length ∧ data = d.encode xs := by
    rintro data ⟨rfl, hi | hlength⟩ -
    · exact ⟨hcount hi, rfl⟩
    · rw [DataType.length_encode] at hlength
      exact ⟨(Nat.eq_of_mul_eq_mul_right d.width_pos hlength).symm, rfl⟩
  rcases h with rfl | rfl
  · show (sendToAll ⟨t.exchange i, .broadcast root, d, count,
      (t.broadcastJob root xs count i).input⟩).Spreads _ _
    rw [sendToAll_job root i _ hzero]
    split
    · have hi : i = root := by
        have hilt := i.isLt
        have hroot := root.isLt
        exact Fin.ext (by omega)
      rw [input_broadcastJob root i xs hi]
      exact fun _ => ⟨hcount hi, rfl⟩
    · refine htotal.bind ?_
      rintro total rfl
      have hflat : (flat (t.exchange i) root (t.broadcastJob root xs count i).input
          (count * d.width)).Spreads (· = d.encode xs) _ :=
        spreads_flat root i _ (input_broadcastJob root i xs)
      exact hflat.mono hpost
  · show (linear ⟨t.exchange i, .broadcast root, d, count,
      (t.broadcastJob root xs count i).input⟩).Spreads _ _
    rw [linear_job root i _ hzero]
    refine htotal.bind ?_
    rintro total rfl
    have hchain : (chain (t.exchange i) root (t.broadcastJob root xs count i).input
        (count * d.width)).Spreads (· = d.encode xs) _ :=
      spreads_chain root i _ (input_broadcastJob root i xs)
    exact hchain.mono hpost

/-! ## Both broadcasts -/

/-- In both broadcasts what the members other than the root pass when they start plays no part:
their starts are accepted, and what is started is the same for any inputs of theirs.  When all
declare the count of the root, under every schedule all members end with the buffer of the root.
When they do not, then whatever happens a member whose count is not zero ends with a value only if
it has the count of the root, and the value is the buffer of the root. -/
theorem delivers_broadcast (t : Team) (root : Fin t.size) {d : DataType} (xs : List d.Elem)
    (count : Fin t.size → Nat) (hcount : count root = xs.length)
    (hfit : (payloadBytes (count root) d).isOk) (name : AlgorithmName) (algorithm : Algorithm)
    (halgorithm : algorithm = .sendToAll ∨ algorithm = .linear) :
    ∃ job : Fin t.size → Job,
      (∀ input : Fin t.size → Option (List d.Elem), input root = some xs → ∀ i,
        (t.operationOf i (.broadcast root) d (count i) name algorithm).stage d (input i) =
          .ok (job i)) ∧
      ((∀ i, count i = count root) →
        (t.run fun i => algorithm.run (job i)).Delivers fun _ : Fin t.size => d.encode xs) ∧
      ∀ e, t.FaultyRun (fun i => algorithm.run (job i)) e → ∀ i data, count i ≠ 0 →
        e.roll (t.rank i) t.tag = some (.finished (.ok data)) →
          count i = count root ∧ data = d.encode xs := by
  refine ⟨fun i => t.broadcastJob root xs (count i) i, ?_, ?_, ?_⟩
  · intro input hinput i
    exact t.stage_broadcast hcount hinput name algorithm i
  · intro hagree
    rw [hcount] at hagree hfit
    simp only [hagree]
    obtain ⟨plan, hrealizes⟩ := exists_plan root xs (payloadBytes_isOk.1 hfit) halgorithm
    exact hrealizes.delivers
  · intro e he i data hne hi
    have hspreads : ∀ i, (algorithm.run (t.broadcastJob root xs (count i) i)).Spreads
        (· = d.encode xs) fun data => count i ≠ 0 → count i = xs.length ∧ data = d.encode xs := by
      intro i
      refine spreads_broadcast root i xs ?_ halgorithm
      rintro rfl
      exact hcount
    rw [hcount]
    exact Team.post_of_finished he hspreads hi hne

/-- The second of three members is the root of a chain; of the others one passes nothing and one
far too much. -/
theorem delivers_broadcast_trio :
    (payloadBytes 2 .int).isOk ∧ ∃ job : Fin 3 → Job,
      (∀ i : Fin 3, (Team.trio.operationOf i (.broadcast 1) .int 2 .linear .linear).stage .int
        ((![none, some [5, -7], some [1, 2, 3]] : Fin 3 → Option (List Int32)) i) =
          .ok (job i)) ∧
      (Team.trio.run fun i => Algorithm.linear.run (job i)).Delivers
        fun _ : Fin 3 => DataType.int.encode [5, -7] := by
  have hfit : (payloadBytes 2 .int).isOk := by decide
  obtain ⟨job, hstage, hdelivers, -⟩ := delivers_broadcast Team.trio (1 : Fin 3) (d := .int)
    [5, -7] (fun _ => 2) rfl hfit .linear .linear (.inr rfl)
  exact ⟨hfit, job, hstage _ rfl, hdelivers fun _ => rfl⟩

end Broadcast

end Collectives
