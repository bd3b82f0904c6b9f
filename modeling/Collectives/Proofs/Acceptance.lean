import Collectives.Proofs.Ledger

/-!
# Which calls are accepted

The checks that a call has to pass are spread over the communicator, the operation and the
algorithm.  `Communicator.Accepts` says in one place what they come to, and
`Communicator.Refuses` which error tells that they failed: that of the first one, in order.  What
an operator is combined by and what it is said to support are two tables; they agree
(`Reducer.resolve_isOk`), so an algorithm has nothing left to reject once the call is accepted.

This is so for the built-in algorithms and for whatever is registered beside them, as long as it
rejects nothing itself (`Registry.Extends`).  To build an operation asks nothing of the world
(`Session.exists_entries_build`): all that can happen is that the tag of an operation is abandoned
that is under way under the same name.
-/

namespace Collectives

/-! ## Registries -/

/-- The built-in algorithms are there, and what is there beside them rejects nothing. -/
structure Registry.Extends (r : Registry) : Prop where
  keeps : ∀ key algorithm, Registry.builtin.resolve key = .ok algorithm →
    r.resolve key = .ok algorithm
  lenient : ∀ key algorithm, Registry.builtin.contains key = false →
    r.resolve key = .ok algorithm → ∀ params, algorithm.validate params = .ok ()

theorem Reducer.exists_resolve {d : DataType} {op : ReduceOp} (h : op.supports d = true) :
    ∃ r, resolve d op = .ok r := by
  rw [← DataType.isSome_combiner] at h
  obtain ⟨combine, hcombine⟩ := Option.isSome_iff_exists.1 h
  exact ⟨⟨op, combine⟩, by rw [resolve, hcombine]⟩

namespace Registry

variable {r : Registry} {key : AlgorithmKey}

theorem exists_resolve (h : r.contains key = true) :
    ∃ algorithm, r.resolve key = .ok algorithm := by
  obtain ⟨algorithm, halgorithm⟩ := Option.isSome_iff_exists.1 h
  exact ⟨algorithm, by rw [resolve, halgorithm]⟩

theorem resolve_of_not_contains (h : r.contains key = false) :
    r.resolve key = .error (.unknownAlgorithm key.kind key.dtype key.algorithm) := by
  have hnone : r.table.get? key = none :=
    Option.isNone_iff_eq_none.1 (Option.isSome_eq_false_iff.1 h)
  rw [resolve, hnone]

theorem contains_of_resolve {algorithm : Algorithm} (h : r.resolve key = .ok algorithm) :
    r.contains key = true := by
  rw [← Bool.not_eq_false]
  intro hnot
  rw [resolve_of_not_contains hnot] at h
  cases h

theorem extends_builtin : builtin.Extends where
  keeps _ _ h := h
  lenient key algorithm hnot h := by
    rw [contains_of_resolve h] at hnot
    cases hnot

/-- What rejects nothing may be registered under any key that is not built in. -/
theorem Extends.register (h : r.Extends) (hkey : builtin.contains key = false)
    {algorithm : Algorithm} (halgorithm : ∀ params, algorithm.validate params = .ok ()) :
    (r.register key algorithm).Extends where
  keeps other found hfound := by
    have hne : other ≠ key := by
      rintro rfl
      rw [contains_of_resolve hfound] at hkey
      cases hkey
    rw [resolve_register, if_neg hne]
    exact h.keeps other found hfound
  lenient other found hother hfound := by
    rw [resolve_register] at hfound
    split at hfound
    · cases hfound
      exact halgorithm
    · exact h.lenient other found hother hfound

/-- An algorithm rejects nothing but operators that the element type does not support. -/
theorem Extends.validate (h : r.Extends) {params : Params} {d : DataType} {name : AlgorithmName}
    {algorithm : Algorithm} (hresolve : r.resolve ⟨params.kind, d, name⟩ = .ok algorithm)
    (hsupported : ∀ op, params = .allreduce op → op.supports d = true) :
    algorithm.validate params = .ok () := by
  -- a built-in key has the built-in algorithm, of which there are two at most for each kind
  cases hcontains : builtin.contains ⟨params.kind, d, name⟩ with
  | false => exact h.lenient _ _ hcontains hresolve params
  | true =>
    obtain ⟨algorithm', hbuiltin⟩ := exists_resolve hcontains
    obtain rfl : algorithm' = algorithm :=
      Except.ok.inj ((h.keeps _ _ hbuiltin).symm.trans hresolve)
    have hkind := of_resolve_builtin hbuiltin
    cases params with
    | broadcast root =>
      obtain rfl | rfl := hkind
      · rfl
      · rfl
    | allreduce op =>
      obtain ⟨reducer, hreducer⟩ := Reducer.exists_resolve (hsupported op rfl)
      obtain rfl | rfl := hkind
      · exact congrArg (Except.map fun _ => ()) hreducer
      · exact congrArg (Except.map fun _ => ()) hreducer
    | allgatherv =>
      have hring : algorithm' = .ringAllgatherv := hkind
      rw [hring]
      rfl

end Registry

/-! ## Calls -/

theorem Operation.exists_create {group : Group} {sequence : Nat} {request : Request}
    {name : AlgorithmName} {algorithm : Algorithm} {total : Nat}
    (hroot : checkRoot group request.params = .ok ())
    (hfits : payloadBytes request.count request.dtype = .ok total)
    (hvalid : algorithm.validate request.params = .ok ()) :
    ∃ op, create group sequence request name algorithm = .ok op :=
  ⟨_, (bind_of_eq_ok hroot).trans ((bind_of_eq_ok hfits).trans (bind_of_eq_ok hvalid))⟩

namespace Communicator

/-- What the algorithm of a call is looked up under. -/
def key (c : Communicator) (request : Request) : AlgorithmKey :=
  ⟨request.params.kind, request.dtype,
    request.algorithm.getD (c.config.default request.params.kind)⟩

/-- What is asked of a call. -/
structure Accepts (c : Communicator) (registry : Registry) (group : Group) (request : Request) :
    Prop where
  /-- The group is one that this rank looks at. -/
  member : group.rank = c.rank
  /-- There is an algorithm, the one that is named or the one that is configured. -/
  known : registry.contains (c.key request) = true
  supported : ∀ op, request.params = .allreduce op → op.supports request.dtype = true
  root : ∀ root, request.params = .broadcast root → root < group.size
  /-- The buffer is not longer than a word can say. -/
  fits : request.count * request.dtype.width ≤ 2 ^ 64 - 1

/-- How a call is refused: what comes first is in order, and this is not. -/
inductive Refuses (c : Communicator) (registry : Registry) (group : Group) (request : Request) :
    Error → Prop
  | notAMember : group.rank ≠ c.rank →
      Refuses c registry group request (.notAMember c.rank group.ranks)
  | unknownAlgorithm : group.rank = c.rank → registry.contains (c.key request) = false →
      Refuses c registry group request (.unknownAlgorithm request.params.kind request.dtype
        (request.algorithm.getD (c.config.default request.params.kind)))
  | incompatibleReduceOp (op : ReduceOp) : group.rank = c.rank →
      registry.contains (c.key request) = true →
      request.params = .allreduce op → op.supports request.dtype = false →
      Refuses c registry group request (.incompatibleReduceOp op request.dtype)
  | invalidRoot (root : Nat) : group.rank = c.rank → registry.contains (c.key request) = true →
      request.params = .broadcast root → group.size ≤ root →
      Refuses c registry group request (.invalidRoot root group.size)
  | countOverflow : group.rank = c.rank → registry.contains (c.key request) = true →
      (∀ op, request.params = .allreduce op → op.supports request.dtype = true) →
      (∀ root, request.params = .broadcast root → root < group.size) →
      2 ^ 64 - 1 < request.count * request.dtype.width →
      Refuses c registry group request (.countOverflow request.count request.dtype)

variable {c : Communicator} {registry : Registry} {group : Group} {sequence : Nat}
  {request : Request}

/-! ### The checks, in order -/

theorem build_of_not_member (h : group.rank ≠ c.rank) :
    c.build registry group sequence request = .error (.notAMember c.rank group.ranks) := by
  rw [build, checkMember, if_neg h]
  rfl

theorem build_of_unknown (hmember : group.rank = c.rank)
    (h : registry.contains (c.key request) = false) :
    c.build registry group sequence request = .error (.unknownAlgorithm request.params.kind
      request.dtype (request.algorithm.getD (c.config.default request.params.kind))) := by
  have hresolve := Registry.resolve_of_not_contains h
  rw [key] at hresolve
  rw [build, checkMember, if_pos hmember]
  refine (bind_of_eq_ok rfl).trans ?_
  dsimp only
  rw [hresolve]
  rfl

/-- What is left to check of a call that has an algorithm. -/
theorem build_of_known {algorithm : Algorithm} (hmember : group.rank = c.rank)
    (hresolve : registry.resolve (c.key request) = .ok algorithm) :
    c.build registry group sequence request =
      (checkOperator request.params request.dtype >>= fun _ =>
        Operation.create group sequence request (c.key request).algorithm algorithm) := by
  rw [build, checkMember, if_pos hmember]
  exact (bind_of_eq_ok rfl).trans (bind_of_eq_ok hresolve)

theorem checkOperator_of_supports {params : Params} {d : DataType}
    (h : ∀ op, params = .allreduce op → op.supports d = true) :
    checkOperator params d = .ok () := by
  cases params with
  | allreduce op => exact if_pos (h op rfl)
  | broadcast | allgatherv => rfl

theorem checkRoot_of_lt {params : Params} (h : ∀ root, params = .broadcast root →
    root < group.size) : Operation.checkRoot group params = .ok () := by
  cases params with
  | broadcast root => exact if_pos (h root rfl)
  | allreduce | allgatherv => rfl

theorem lt_limit_iff {n : Nat} : n < Index.limit ↔ n ≤ 2 ^ 64 - 1 := by
  rw [Index.limit, Nat.one_shiftLeft]
  omega

/-- A call that is in order is accepted: the algorithm, which is asked last, has nothing to
reject. -/
theorem exists_build_of_accepts (hregistry : registry.Extends)
    (h : c.Accepts registry group request) :
    ∃ op, c.build registry group sequence request = .ok op := by
  obtain ⟨algorithm, hresolve⟩ := Registry.exists_resolve h.known
  have hfits := payloadBytes_of_lt (lt_limit_iff.2 h.fits)
  have hvalid := hregistry.validate hresolve h.supported
  obtain ⟨op, hop⟩ : ∃ op, Operation.create group sequence request (c.key request).algorithm
      algorithm = .ok op := Operation.exists_create (checkRoot_of_lt h.root) hfits hvalid
  rw [build_of_known h.member hresolve]
  exact ⟨op, (bind_of_eq_ok (checkOperator_of_supports h.supported)).trans hop⟩

/-- A reason to refuse a call is what it is told. -/
theorem build_of_refuses {e : Error} (h : c.Refuses registry group request e) :
    c.build registry group sequence request = .error e := by
  cases h with
  | notAMember hmember => exact build_of_not_member hmember
  | unknownAlgorithm hmember hknown => exact build_of_unknown hmember hknown
  | incompatibleReduceOp op hmember hknown hparams hop =>
    obtain ⟨algorithm, hresolve⟩ := Registry.exists_resolve hknown
    rw [build_of_known hmember hresolve, hparams, checkOperator, hop]
    rfl
  | invalidRoot root hmember hknown hparams hroot =>
    obtain ⟨algorithm, hresolve⟩ := Registry.exists_resolve hknown
    rw [build_of_known hmember hresolve, hparams, Operation.create, hparams, Operation.checkRoot,
      if_neg (Nat.not_lt.2 hroot)]
    rfl
  | countOverflow hmember hknown hsupported hroot hfits =>
    obtain ⟨algorithm, hresolve⟩ := Registry.exists_resolve hknown
    have hbig : Index.limit ≤ request.count * request.dtype.width :=
      Nat.le_of_not_lt fun hlt => Nat.not_lt.2 (lt_limit_iff.1 hlt) hfits
    rw [build_of_known hmember hresolve]
    refine (bind_of_eq_ok (checkOperator_of_supports hsupported)).trans ?_
    refine (bind_of_eq_ok (checkRoot_of_lt hroot)).trans ?_
    rw [payloadBytes_of_le hbig]
    rfl

/-- A call is accepted, or there is a reason to refuse it. -/
theorem accepts_or_refuses (c : Communicator) (registry : Registry) (group : Group)
    (request : Request) :
    c.Accepts registry group request ∨ ∃ e, c.Refuses registry group request e := by
  by_cases hmember : group.rank = c.rank
  case neg => exact .inr ⟨_, .notAMember hmember⟩
  cases hknown : registry.contains (c.key request) with
  | false => exact .inr ⟨_, .unknownAlgorithm hmember hknown⟩
  | true =>
    by_cases hsupported : ∀ op, request.params = .allreduce op → op.supports request.dtype = true
    case neg =>
      simp only [not_forall, exists_prop] at hsupported
      obtain ⟨op, hparams, hop⟩ := hsupported
      exact .inr ⟨_, .incompatibleReduceOp op hmember hknown hparams (Bool.eq_false_iff.2 hop)⟩
    by_cases hroot : ∀ root, request.params = .broadcast root → root < group.size
    case neg =>
      simp only [not_forall, exists_prop, Nat.not_lt] at hroot
      obtain ⟨root, hparams, hle⟩ := hroot
      exact .inr ⟨_, .invalidRoot root hmember hknown hparams hle⟩
    by_cases hfits : request.count * request.dtype.width ≤ 2 ^ 64 - 1
    case neg =>
      exact .inr ⟨_, .countOverflow hmember hknown hsupported hroot (Nat.lt_of_not_le hfits)⟩
    exact .inl ⟨hmember, hknown, hsupported, hroot, hfits⟩

end Communicator

/-! ## What is asked of the world -/

namespace Executor

variable {σ : Type} [Transport σ]

theorem entries_releases (e : Executor (Ledger σ)) (ranks : List Rank) :
    (ranks.foldl release e).network.entries = e.network.entries := by
  induction ranks generalizing e with
  | nil => rfl
  | cons rank ranks ih => exact (ih _).trans (entries_closeIdle _ rank)

/-- To give a task up abandons its tag at most. -/
theorem exists_entries_abort (e : Executor (Ledger σ)) (k : TaskId) :
    ∃ released : List Entry, (e.abort k).network.entries = e.network.entries ++ released ∧
      ∀ entry ∈ released, entry.call = .abandon := by
  unfold abort
  split
  · exact ⟨[], (List.append_nil _).symm, nofun⟩
  · split
    · exact ⟨_, rfl, by simp⟩
    · exact ⟨[], (List.append_nil _).symm, nofun⟩

end Executor

namespace Session

variable {σ : Type} [Transport σ]

theorem exists_entries_drop (s : Session (Ledger σ)) (name : String) :
    ∃ released : List Entry,
      (s.drop name).executor.network.entries = s.executor.network.entries ++ released ∧
        (∀ entry ∈ released, entry.call = .abandon) ∧
        (s.operations.get? name = none → released = []) := by
  obtain hkept | ⟨op, task, hop, -, hgiven⟩ := s.executor_drop name
  · rw [hkept]
    exact ⟨[], (List.append_nil _).symm, nofun, fun _ => rfl⟩
  · obtain ⟨released, hentries, habandon⟩ := s.executor.exists_entries_abort task
    rw [hgiven]
    refine ⟨released, hentries, habandon, ?_⟩
    intro hnone
    cases hop.symm.trans hnone

/-- To build an operation, whether it is refused or not, asks nothing of the world but to abandon
the tag of the operation that it takes the place of. -/
theorem exists_entries_build (s : Session (Ledger σ)) (rank : Rank) (groupName name : String)
    (request : Except Error Request) :
    ∃ released : List Entry,
      (s.call (.build rank groupName name request)).executor.network.entries =
        s.executor.network.entries ++ released ∧
      (∀ entry ∈ released, entry.call = .abandon) ∧
      (s.operations.get? name = none → released = []) := by
  refine call_induction (P := fun s' : Session (Ledger σ) => ∃ released : List Entry,
    s'.executor.network.entries = s.executor.network.entries ++ released ∧
      (∀ entry ∈ released, entry.call = .abandon) ∧
      (s.operations.get? name = none → released = [])) ?_ ?_
  · exact ⟨[], (List.append_nil _).symm, nofun, fun _ => rfl⟩
  · intro s' hs
    obtain ⟨c, id, shared, r, op, -, -, -, -, rfl⟩ := of_build hs
    obtain ⟨released, hentries, hrest⟩ := (s.draw id).exists_entries_drop name
    exact ⟨released, (Executor.entries_releases _ _).trans hentries, hrest⟩

end Session

/-! ## Exactly the valid calls -/

/-- How a call is answered. -/
structure Communicator.Screens (c : Communicator) (registry : Registry) (group : Group)
    (sequence : Nat) (request : Request) : Prop where
  accepts : (∃ op, c.build registry group sequence request = .ok op) ↔
    c.Accepts registry group request
  refuses : ∀ e, c.build registry group sequence request = .error e ↔
    c.Refuses registry group request e
  /-- The algorithm has nothing to reject where all else is in order. -/
  validates : c.Accepts registry group request → ∀ algorithm,
    registry.resolve (c.key request) = .ok algorithm → algorithm.validate request.params = .ok ()

theorem Communicator.screens_build {registry : Registry} (hregistry : registry.Extends)
    (c : Communicator) (group : Group) (sequence : Nat) (request : Request) :
    c.Screens registry group sequence request where
  accepts := by
    refine ⟨?_, exists_build_of_accepts hregistry⟩
    rintro ⟨op, hop⟩
    rcases c.accepts_or_refuses registry group request with h | ⟨e, h⟩
    · exact h
    · rw [build_of_refuses h] at hop
      cases hop
  refuses e := by
    refine ⟨?_, build_of_refuses⟩
    intro he
    rcases c.accepts_or_refuses registry group request with h | ⟨e', h⟩
    · obtain ⟨op, hop⟩ : ∃ op, c.build registry group sequence request = .ok op :=
        exists_build_of_accepts hregistry h
      rw [hop] at he
      cases he
    · rw [build_of_refuses h] at he
      cases he
      exact h
  validates h algorithm hresolve := hregistry.validate hresolve h.supported

/-- With the built-in algorithms, and others beside them that reject nothing, the valid calls are
accepted and all others refused, each for the first reason there is.  No message is sent or asked
for either way: in a session the tag of the operation that is replaced is abandoned, if there is
one under way, and that is all. -/
theorem accepts_exactly_valid {registry : Registry} (hregistry : registry.Extends) :
    (∀ (c : Communicator) (group : Group) (sequence : Nat) (request : Request),
      c.Screens registry group sequence request) ∧
    ∀ (σ : Type) [Transport σ] (s : Session (Ledger σ)) (rank : Rank) (groupName name : String)
      (request : Except Error Request),
      ∃ released : List Entry,
        (s.call (.build rank groupName name request)).executor.network.entries =
          s.executor.network.entries ++ released ∧
        (∀ entry ∈ released, entry.call = .abandon) ∧
        (s.operations.get? name = none → released = []) :=
  ⟨Communicator.screens_build hregistry, fun _ _ s => s.exists_entries_build⟩

/-- A broadcast by an algorithm that is not built in, of a buffer of 64-bit numbers that a word can
just say the length of, and of one more number.  A root that is no member is told before that, and
that the algorithm is not there before both. -/
theorem accepts_exactly_valid_trio :
    let c : Communicator := ⟨⟨0, 3, by decide⟩, .standard, .empty⟩
    let group := Team.trio.group (1 : Fin 3)
    let registry := Registry.builtin.register ⟨.broadcast, .long, .ring⟩ { run := fun _ => .crash }
    let request (root count : Nat) : Request := ⟨.broadcast root, .long, count, some .ring⟩
    registry.Extends ∧
      (∃ op, c.build registry group 0 (request 2 (2 ^ 61 - 1)) = .ok op) ∧
      c.build registry group 0 (request 2 (2 ^ 61)) = .error (.countOverflow (2 ^ 61) .long) ∧
      c.build registry group 0 (request 3 (2 ^ 61)) = .error (.invalidRoot 3 3) ∧
      c.build .builtin group 0 (request 3 (2 ^ 61)) =
        .error (.unknownAlgorithm .broadcast .long .ring) := by
  intro c group registry request
  have hregistry : registry.Extends := Registry.extends_builtin.register rfl fun _ => rfl
  have hscreens := (accepts_exactly_valid hregistry).1 c group 0
  have hbuiltin := (accepts_exactly_valid Registry.extends_builtin).1 c group 0
  have hmember : group.rank = c.rank := rfl
  have hknown : ∀ root count, registry.contains (c.key (request root count)) = true :=
    fun _ _ => rfl
  have hroot : ∀ count root, (request 2 count).params = .broadcast root → root < 3 := by
    rintro count root ⟨⟩
    decide
  refine ⟨hregistry, (hscreens _).accepts.2 ⟨hmember, hknown _ _, nofun, hroot _, ?_⟩,
    ((hscreens _).refuses _).2 (.countOverflow hmember (hknown _ _) nofun (hroot _) ?_),
    ((hscreens _).refuses _).2 (.invalidRoot 3 hmember (hknown _ _) rfl ?_),
    ((hbuiltin _).refuses _).2 (.unknownAlgorithm hmember rfl)⟩
  all_goals decide

end Collectives
