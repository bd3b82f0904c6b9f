import Collectives.Operation
import Collectives.Proofs.Broadcast
import Collectives.Proofs.Heard
import Collectives.Proofs.RecursiveDoubling
import Collectives.Proofs.RingAllgatherv
import Collectives.Proofs.RingAllreduce

/-!
# Built-in collectives

One of the built-in collectives, carried out by the members of a team on exchanges that need not
have been made for it: it may be all that an operation does, or a part of what a custom algorithm
does under the tag of its own operation.  The members agree on everything but, in an allgatherv, on
the count, and each has as many bytes as it has declared.

Each of the five built-in algorithms has a plan for every such collective, which the members'
programs realize (`BuiltinCollective.exists_plan`).  On this plan everyone hears from everyone else,
where the result depends on what everyone has.
-/

namespace Collectives

/-! ## Everyone hears from everyone else -/

section

open RingOrder Hypercube

variable {t : Team} {d : DataType} {n : Nat} {i j : Fin t.size}

/-- Already in the first pass. -/
theorem Allreduce.heard_ringPlan (r : Reducer d) (x : Fin t.size → Fin n → d.Elem) (hij : i ≠ j) :
    Heard (ringPlan r x) i j :=
  (heard_shifts _ 0 _ hij (Nat.le_sub_one_of_lt (gap_lt i j))).append _

/-- Already with the first segments. -/
theorem Allgatherv.heard_circulation (own : Fin t.size → Bytes) (plan : List (Round t.size))
    (hij : i ≠ j) : Heard (circulation own 0 (t.size - 1) ++ plan) i j :=
  (heard_shifts _ 0 _ hij (Nat.le_sub_one_of_lt (gap_lt i j))).append plan

/-- Inside the hypercube by the exchanges, and beyond it when the result comes back. -/
theorem Allreduce.heard_doublingPlan (r : Reducer d) (x : Nat → Fin n → d.Elem) (hij : i ≠ j) :
    Heard (doublingPlan r x t) i j := by
  have hinside : ∀ i : Fin t.size, i.val < 2 ^ Nat.log2 t.size → i ≠ j →
      Heard ([.fold (2 ^ Nat.log2 t.size) fun i => d.encode (List.ofFn (x i))] ++
        exchanges r (leaf r x t.size) t.two_pow_log2_le 0 (Nat.log2 t.size)) i j := by
    intro i hi hij
    have hblock : blockStart (Nat.log2 t.size) (corner (Nat.log2 t.size) j) =
        blockStart (Nat.log2 t.size) i := by
      rw [blockStart_of_lt hi, blockStart_of_lt (corner_lt t.lt_two_pow_log2_succ j)]
    rw [exchanges, ← List.range_eq_range']
    exact heard_exchanges t.two_pow_log2_le _ _ (Nat.le_refl _) hi hij hblock
  rw [doublingPlan, ← List.append_assoc]
  rcases Nat.lt_or_ge i.val (2 ^ Nat.log2 t.size) with hi | hi
  · exact (hinside i hi hij).append _
  · have hlt := t.lt_two_pow_log2_succ
    rw [Nat.pow_succ] at hlt
    have hilt := i.isLt
    have hpartner : i.val - 2 ^ Nat.log2 t.size < t.size := (Nat.sub_le _ _).trans_lt hilt
    refine .of_last (k := ⟨_, hpartner⟩) (if_pos hi) ?_
    by_cases hk : (⟨_, hpartner⟩ : Fin t.size) = j
    · exact .inl hk
    · have hin : i.val - 2 ^ Nat.log2 t.size < 2 ^ Nat.log2 t.size := by omega
      exact .inr (hinside _ hin hk)

end

namespace Allreduce

variable {t : Team} {d : DataType} {op : ReduceOp} {algorithm : Algorithm}

/-- Both algorithms have a reducer when they have accepted the parameters. -/
theorem exists_reducer (h : algorithm = .ringAllreduce d ∨ algorithm = .recursiveDoubling d)
    (hvalid : algorithm.validate (.allreduce op) = .ok ()) :
    ∃ r, Reducer.resolve d op = .ok r := by
  have hmap : (Reducer.resolve d op).map (fun _ => ()) = .ok () := by
    rcases h with rfl | rfl <;> exact hvalid
  cases hr : Reducer.resolve d op with
  | ok r => exact ⟨r, rfl⟩
  | error e =>
    rw [hr] at hmap
    cases hmap

/-- A plan for either algorithm, on which everyone hears from everyone else unless there is nothing
to reduce. -/
theorem exists_plan {r : Reducer d} (hr : Reducer.resolve d op = .ok r) {n : Nat}
    (x : Fin t.size → Fin n → d.Elem) (hfit : n * d.width < Index.limit)
    (h : algorithm = .ringAllreduce d ∨ algorithm = .recursiveDoubling d) :
    ∃ plan result,
      t.Realizes plan (fun i => algorithm.run (t.job i op (List.ofFn (x i)))) result ∧
        (n ≠ 0 → ∀ i j, i ≠ j → Heard plan i j) := by
  have hnontrivial : n ≠ 0 → ∀ i j : Fin t.size, i ≠ j → ¬(t.size = 1 ∨ n = 0) := by
    intro hn i j hij
    have hi := i.isLt
    have hj := j.isLt
    have hne : i.val ≠ j.val := fun h => hij (Fin.ext h)
    omega
  rcases h with rfl | rfl
  · obtain ⟨result, plan, -, hplan, hruns⟩ := exists_ringPlan r x hfit
    refine ⟨plan, fun _ => d.encode (List.ofFn result), ?_, ?_⟩
    · simp only [Algorithm.ringAllreduce, ring, onWire_job hr]
      exact realizes_member r (fun i => through_ringBuffer _ r _) hruns
    · intro hn i j hij
      rw [hplan (hnontrivial hn i j hij)]
      exact heard_ringPlan r x hij
  · obtain ⟨y, hy⟩ := t.exists_extension x
    obtain ⟨plan, hplan, hruns⟩ := exists_doublingPlan r y t hfit
    refine ⟨plan, fun _ => d.encode (treeValue r y t.size), ?_, ?_⟩
    · simp only [Algorithm.recursiveDoubling, recursiveDoubling, onWire_job hr, ← hy]
      exact realizes_member r (fun i => through_doublingBuffer _ r _) hruns
    · intro hn i j hij
      rw [hplan (hnontrivial hn i j hij)]
      exact heard_doublingPlan r y hij

end Allreduce

/-! ## Collectives on any exchange -/

/-- A built-in collective of the members of a team, on whatever exchange. -/
structure BuiltinCollective (t : Team) where
  params : Params
  dtype : DataType
  name : AlgorithmName
  algorithm : Algorithm
  count : Fin t.size → Nat
  /-- What each member has, in wire form. -/
  input : Fin t.size → Bytes
  resolved : Registry.builtin.resolve ⟨params.kind, dtype, name⟩ = .ok algorithm
  valid : algorithm.validate params = .ok ()
  rooted : ∀ i, Operation.checkRoot (t.group i) params = .ok ()
  fits : ∀ i, (payloadBytes (count i) dtype).isOk
  agreed : params = .allgatherv ∨ ∀ i j, count i = count j
  /-- Everyone has as much as it has declared; in a broadcast only the root needs to. -/
  declared : ∀ i : Fin t.size, (∀ root, params = .broadcast root → root = i) →
    (input i).length = count i * dtype.width

namespace BuiltinCollective

variable {t : Team} (m : BuiltinCollective t)

/-- What a member carries out. -/
def job (i : Fin t.size) : Job := ⟨t.exchange i, m.params, m.dtype, m.count i, m.input i⟩

/-- What a member does. -/
def program (i : Fin t.size) : Program Bytes := m.algorithm.run (m.job i)

/-- Whether a member waits for what all others contribute. -/
def NeedsAll (i : Fin t.size) : Prop :=
  match m.params with
  | .broadcast _ => False
  | .allreduce _ => m.count i ≠ 0
  | .allgatherv => True

theorem count_eq (h : m.params ≠ .allgatherv) (i j : Fin t.size) : m.count i = m.count j :=
  m.agreed.resolve_left h i j

/-- In a broadcast everyone ends with what the root has. -/
theorem exists_plan_broadcast {root : Nat} (hparams : m.params = .broadcast root) :
    ∃ plan result, t.Realizes plan m.program result := by
  have hlt : root < t.size := by
    have hroot := m.rooted ⟨0, t.size_pos⟩
    rw [hparams] at hroot
    by_contra hge
    have hrefused := hroot.symm.trans (if_neg hge)
    cases hrefused
  obtain ⟨root, rfl⟩ : ∃ r : Fin t.size, root = r := ⟨⟨root, hlt⟩, rfl⟩
  have halgorithm : m.algorithm = .sendToAll ∨ m.algorithm = .linear := by
    have hresolved := m.resolved
    rw [hparams] at hresolved
    exact Registry.of_resolve_builtin hresolved
  have hlength : (m.input root).length = m.count root * m.dtype.width := by
    refine m.declared root ?_
    intro other hother
    rw [hparams, Params.broadcast.injEq] at hother
    exact hother.symm
  have hinput : ∀ i, i = root → m.input i = m.input root := fun i hi => congrArg m.input hi
  obtain ⟨plan, hrealizes⟩ := Broadcast.exists_plan_bytes root hlength
    (payloadBytes_isOk.1 (m.fits root)) hinput halgorithm
  refine ⟨plan, fun _ => m.input root, ?_⟩
  have hprogram : m.program = fun i => m.algorithm.run
      ⟨t.exchange i, .broadcast root, m.dtype, m.count root, m.input i⟩ := by
    funext i
    rw [program, job, hparams, m.count_eq (by rw [hparams]; exact nofun) i root]
  rw [hprogram]
  exact hrealizes

/-- In an allreduce everyone hears from everyone else, unless there is nothing to reduce. -/
theorem exists_plan_allreduce {op : ReduceOp} (hparams : m.params = .allreduce op) :
    ∃ plan result, t.Realizes plan m.program result ∧
      ((∃ i, m.count i ≠ 0) → ∀ i j, i ≠ j → Heard plan i j) := by
  have hresolved := m.resolved
  have hvalid := m.valid
  rw [hparams] at hresolved hvalid
  have halgorithm : m.algorithm = .ringAllreduce m.dtype ∨
      m.algorithm = .recursiveDoubling m.dtype := Registry.of_resolve_builtin hresolved
  obtain ⟨r, hr⟩ := Allreduce.exists_reducer halgorithm hvalid
  obtain ⟨n, hcount⟩ : ∃ n, ∀ i, m.count i = n :=
    ⟨_, fun i => m.count_eq (by rw [hparams]; exact nofun) i ⟨0, t.size_pos⟩⟩
  have hbuffer : ∀ i, ∃ x : Fin n → m.dtype.Elem,
      m.dtype.decode (m.input i) = .ok (List.ofFn x) := by
    intro i
    have hlength := m.declared i (by rw [hparams]; exact nofun)
    obtain ⟨xs, hdecode, hxs⟩ := Allreduce.decode_of_length hlength
    rw [hcount] at hxs
    subst hxs
    exact ⟨xs.get, by rw [hdecode, List.ofFn_get]⟩
  choose x hx using hbuffer
  have hfit := payloadBytes_isOk.1 (m.fits ⟨0, t.size_pos⟩)
  rw [hcount] at hfit
  obtain ⟨plan, result, hrealizes, hheard⟩ := Allreduce.exists_plan hr x hfit halgorithm
  refine ⟨plan, result, ?_, ?_⟩
  · have hprogram : m.program = fun i => m.algorithm.run (t.job i op (List.ofFn (x i))) := by
      funext i
      have hjob : (m.job i).params = .allreduce op := hparams
      rcases halgorithm with h | h <;> rw [program, h]
      · exact (Allreduce.onWire_eq hr hjob (hx i) _).trans (Allreduce.onWire_job hr _).symm
      · exact (Allreduce.onWire_eq hr hjob (hx i) _).trans (Allreduce.onWire_job hr _).symm
    rw [hprogram]
    exact hrealizes
  · rintro ⟨i, hi⟩
    rw [hcount] at hi
    exact hheard hi

/-- In an allgatherv everyone hears from everyone else. -/
theorem exists_plan_allgatherv (hparams : m.params = .allgatherv) :
    ∃ plan result, t.Realizes plan m.program result ∧ ∀ i j, i ≠ j → Heard plan i j := by
  have hresolved := m.resolved
  rw [hparams] at hresolved
  have halgorithm : m.algorithm = .ringAllgatherv := Registry.of_resolve_builtin hresolved
  have hlength : ∀ i, (m.input i).length = m.count i * m.dtype.width :=
    fun i => m.declared i (by rw [hparams]; exact nofun)
  have hrealizes := Allgatherv.realizes_bytes hlength fun i => payloadBytes_isOk.1 (m.fits i)
  have hprogram : m.program = fun i => Allgatherv.ring
      ⟨t.exchange i, .allgatherv, m.dtype, m.count i, m.input i⟩ := by
    funext i
    rw [program, job, hparams, halgorithm]
    rfl
  rw [hprogram]
  exact ⟨_, _, hrealizes, fun i j hij => Allgatherv.heard_circulation _ _ hij⟩

/-- Every built-in collective has a plan, on which those who need all hear from all. -/
theorem exists_plan : ∃ plan result, t.Realizes plan m.program result ∧
    ((∃ i, m.NeedsAll i) → ∀ i j, i ≠ j → Heard plan i j) := by
  simp only [NeedsAll]
  cases hparams : m.params with
  | broadcast root =>
    obtain ⟨plan, result, h⟩ := m.exists_plan_broadcast hparams
    exact ⟨plan, result, h, fun ⟨_, hfalse⟩ => hfalse.elim⟩
  | allreduce op => exact m.exists_plan_allreduce hparams
  | allgatherv =>
    obtain ⟨plan, result, h, hheard⟩ := m.exists_plan_allgatherv hparams
    exact ⟨plan, result, h, fun _ => hheard⟩

end BuiltinCollective

end Collectives
