import Collectives.Barrier
import Collectives.Proofs.Heard

/-!
# The barrier

In round `k` of the dissemination barrier everyone signals the member `2 ^ k` places ahead on the
ring and waits for the one `2 ^ k` places behind (`Round.stride`).  After `k` rounds a member has
heard from the `2 ^ k - 1` members before it (`heard_strides`), and the number of rounds is the
least for which these are all others.

So nobody passes the barrier before everyone has entered it, however the members are delayed and
whatever happens to them on the way; and where all enter it, and none is given up or refused, all
pass it (`passes_only_together`).
-/

namespace Collectives

open RingOrder

/-- The round in which everyone signals the member at some distance ahead. -/
def Round.stride {n : Nat} (distance : Nat) : Round n where
  sends i := some (ahead i (distance % n), [])
  receives i := some (behind i (distance % n), [])
  matched i j d := by
    simp only [Option.some_inj, Prod.mk.injEq]
    have hle : distance % n ≤ n := Nat.le_of_lt (Nat.mod_lt _ i.pos)
    constructor
    · rintro ⟨rfl, rfl⟩
      exact ⟨behind_ahead i hle, rfl⟩
    · rintro ⟨rfl, rfl⟩
      exact ⟨ahead_behind j hle, rfl⟩

namespace Barrier

/-- What the task of a member does: it passes the barrier and ends with nothing. -/
def pass (ex : Exchange) : Program Bytes := do
  enter ex
  return []

/-! ## Over the exchange only -/

theorem through_rounds (ex : Exchange) (k n : Nat) : (rounds ex k n).Through ex := by
  induction n generalizing k with
  | zero => trivial
  | succ n ih =>
    have hround : (round ex (1 <<< k)).Through ex := by
      refine (Program.Through.demand _).bind fun dest => ?_
      refine (Program.Through.demand _).bind fun src => ?_
      exact (ex.through_sendRecv _ _ _ _).bind fun _ => trivial
    exact hround.bind fun _ => ih (k + 1)

theorem through_pass (ex : Exchange) : (pass ex).Through ex :=
  (through_rounds ex 0 _).bind fun _ => trivial

/-! ## The rounds -/

/-- The rounds `k`, `k + 1`, …, `m` of them. -/
def strides {n : Nat} (k m : Nat) : List (Round n) :=
  (List.range' k m).map fun k => .stride (1 <<< k)

theorem strides_succ {n : Nat} (k m : Nat) :
    strides (n := n) k (m + 1) = .stride (1 <<< k) :: strides (k + 1) m := by
  rw [strides, List.range'_succ, List.map_cons, strides]

variable {t : Team}

theorem script_stride_cons {distance : Nat} (h : distance < t.size) (plan : List (Round t.size))
    (i : Fin t.size) :
    t.script (.stride distance :: plan) i =
      [.sent (t.rank (ahead i distance)) [], .received (t.rank (behind i distance)) []] ++
        t.script plan i := by
  rw [t.script_cons, Team.sendEvents, Team.receiveEvents, Round.stride]
  simp only [Nat.mod_eq_of_lt h]
  rfl

theorem runs_round (i : Fin t.size) {distance : Nat} (h : distance < t.size) :
    (round (t.exchange i) distance).Runs
      [.sent (t.rank (ahead i distance)) [], .received (t.rank (behind i distance)) []]
      (.ret ()) := by
  have hfit : i.val + distance < Index.limit := by
    have hbound := t.add_size_lt i (Nat.zero_le 1)
    omega
  have hexchange := (t.runs_sendRecv i (ahead i distance) (behind i distance) []
    (rfl : ([] : Bytes).length = 0)).bind fun _ => .ret ()
  rw [round, t.size_exchange, t.localRank_exchange, ahead?_eq i hfit,
    t.behind?_val i (Nat.le_of_lt h)]
  exact hexchange

theorem runs_rounds (i : Fin t.size) (k m : Nat) (h : ∀ k' < k + m, 1 <<< k' < t.size) :
    (rounds (t.exchange i) k m).Runs (t.script (strides k m) i) (.ret ()) := by
  induction m generalizing k with
  | zero => exact .refl _
  | succ m ih =>
    have hk : 1 <<< k < t.size := h k (by omega)
    rw [strides_succ, script_stride_cons hk]
    exact (runs_round i hk).bind_ret (ih (k + 1) fun k' hk' => h k' (by omega))

/-- All rounds of the barrier. -/
def plan (t : Team) : List (Round t.size) := strides 0 (Index.ceilLog2 t.size)

theorem realizes_pass (t : Team) :
    t.Realizes (plan t) (fun i => pass (t.exchange i)) fun _ => [] where
  through i := through_pass (t.exchange i)
  runs i := by
    refine (runs_rounds i 0 (Index.ceilLog2 t.size) ?_).bind fun _ => .ret []
    intro k hk
    exact Index.shiftLeft_lt_of_lt_ceilLog2 (by omega)

/-! ## Who has heard from whom -/

/-- After `m` rounds a member has heard from the `2 ^ m - 1` members before it. -/
theorem heard_strides {n : Nat} (m : Nat) (h : ∀ k < m, 1 <<< k < n) {i j : Fin n} (hij : i ≠ j)
    (hgap : gap i j < 2 ^ m) : Heard (strides 0 m) i j := by
  induction m generalizing i with
  | zero => exact absurd (gap_pos.2 hij) (Nat.not_lt.2 (Nat.le_of_lt_succ hgap))
  | succ m ih =>
    have hlast : strides (n := n) 0 (m + 1) = strides 0 m ++ [.stride (1 <<< m)] := by
      rw [strides, List.range'_concat, List.map_append, Nat.one_mul, Nat.zero_add]
      rfl
    have hbefore : ∀ k < m, 1 <<< k < n := fun k hk => h k (Nat.lt_succ_of_lt hk)
    have hm : 2 ^ m % n = 2 ^ m := by
      have hlt := h m (Nat.lt_succ_self m)
      rw [Nat.one_shiftLeft] at hlt
      exact Nat.mod_eq_of_lt hlt
    have hr : (Round.stride (1 <<< m)).receives i = some (behind i (2 ^ m), []) := by
      show some (behind i (1 <<< m % n), ([] : Bytes)) = _
      rw [Nat.one_shiftLeft, hm]
    rw [hlast]
    rcases Nat.lt_or_ge (gap i j) (2 ^ m) with hlt | hge
    · exact (ih hbefore hij hlt).append _
    · refine .of_behind hr hge ?_
      intro hlt
      have hle := gap_behind_of_le hge
      rw [Nat.pow_succ] at hgap
      exact ih hbefore (gap_pos.1 (by omega)) (by omega)

/-- During the barrier everyone hears from everyone else. -/
theorem heard_plan {i j : Fin t.size} (hij : i ≠ j) : Heard (plan t) i j := by
  refine heard_strides _ (fun k hk => Index.shiftLeft_lt_of_lt_ceilLog2 hk) hij ?_
  have hall := Index.le_shiftLeft_ceilLog2 t.size
  rw [Nat.one_shiftLeft] at hall
  exact (gap_lt i j).trans_le hall

/-! ## The barrier -/

/-- The script of a member begins with a signal to the next member. -/
theorem script_plan (ht : 2 ≤ t.size) (j : Fin t.size) :
    ∃ rest, t.script (plan t) j = .sent (t.rank (ahead j 1)) [] :: rest := by
  have hsucc : Index.ceilLog2 t.size = Nat.log2 (t.size - 1) + 1 := if_neg (by omega)
  have hfirst : 1 <<< 0 < t.size := ht
  rw [plan, hsucc, strides_succ, script_stride_cons hfirst]
  exact ⟨_, rfl⟩

/-- However the members are delayed, and whatever happens to them: when one has passed the
barrier, all have entered it and sent their first signal.  When all have entered it, and no
signal was refused and nobody given up, somebody can go on as long as not all have passed it; and
so, when nothing is closed at all, all pass it under every schedule. -/
theorem passes_only_together (t : Team) :
    (∀ e, t.TracedFaultyRun (fun i => pass (t.exchange i)) e →
      ((∃ i data, e.roll (t.rank i) t.tag = some (.finished (.ok data))) →
        ∀ j, e.roll (t.rank j) t.tag ≠ none ∧
          (2 ≤ t.size → [.sent (t.rank (ahead j 1)) []] <+: e.network.events (t.rank j) t.tag)) ∧
      ((∀ i, e.roll (t.rank i) t.tag ≠ none) →
        (∀ i, ∀ event ∈ e.network.events (t.rank i) t.tag, ¬event.IsMishap) →
        (∃ i, e.roll (t.rank i) t.tag ≠ some (.finished (.ok []))) →
          ∃ k, (e.step k).1 = true)) ∧
    (t.run fun i => pass (t.exchange i)).Delivers fun _ : Fin t.size => [] := by
  refine ⟨?_, (realizes_pass t).delivers⟩
  intro e he
  constructor
  · rintro ⟨i, data, hi⟩ j
    obtain ⟨hstarted, hfirst⟩ :=
      (realizes_pass t).begun_of_finished (fun _ _ => heard_plan) he hi j
    refine ⟨hstarted, ?_⟩
    intro ht
    obtain ⟨rest, hscript⟩ := script_plan ht j
    exact hfirst hscript
  · intro hstarted hclean hunfinished
    obtain ⟨i, k, -, -, hk⟩ := Team.moves_of_no_mishap he.tracked Team.Assigned.exists_member
      (realizes_pass t) hstarted hclean hunfinished
    exact ⟨k, hk⟩

/-- Of three members one enters late, when the others have both sent their first signal; then the
first of them passes. -/
def lateEntry : Executor (Recorded Mesh) :=
  let begun : Executor (Recorded Mesh) := { network := { network := .ofSize 3 } }
  let early := (begun.add 2 1 (pass (Team.trio.exchange (0 : Fin 3)))).2
  let early := (early.add 0 1 (pass (Team.trio.exchange (1 : Fin 3)))).2
  ((early.steps [0, 1, 1]).add 1 1 (pass (Team.trio.exchange (2 : Fin 3)))).2.steps
    [2, 0, 0, 1, 0, 1, 0]

theorem faultyRun_lateEntry :
    Team.trio.TracedFaultyRun (fun i => pass (Team.trio.exchange i)) lateEntry := by
  refine Executor.FaultyRun.steps
    (.started (.steps (.started (.started .begun ?_ ?_) ?_ ?_) _) ?_ ?_) _
  · exact ⟨(0 : Fin 3), rfl, rfl, rfl⟩
  · decide
  · exact ⟨(1 : Fin 3), rfl, rfl, rfl⟩
  · decide
  · exact ⟨(2 : Fin 3), rfl, rfl, rfl⟩
  · decide +kernel

/-- The late member has not passed the barrier, but it has sent its first signal. -/
theorem passes_only_together_trio :
    lateEntry.roll 2 1 = some (.finished (.ok [])) ∧
      lateEntry.roll 1 1 ≠ some (.finished (.ok [])) ∧ lateEntry.roll 1 1 ≠ none ∧
      [.sent 2 []] <+: lateEntry.network.events 1 1 := by
  have hpassed : lateEntry.roll 2 1 = some (.finished (.ok [])) := by rfl
  have hlate : ∃ p, lateEntry.roll 1 1 = some (.running p) := ⟨_, rfl⟩
  obtain ⟨hentered, hsent⟩ := ((passes_only_together Team.trio).1 lateEntry faultyRun_lateEntry).1
    ⟨(0 : Fin 3), [], hpassed⟩ (2 : Fin 3)
  refine ⟨hpassed, ?_, hentered, hsent (by decide)⟩
  obtain ⟨p, hp⟩ := hlate
  rw [hp]
  exact nofun

end Barrier

end Collectives
