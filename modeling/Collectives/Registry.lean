import Collectives.Allgatherv
import Collectives.Allreduce
import Collectives.Barrier
import Collectives.Broadcast
import Collectives.Table

/-!
# Algorithms and the registry

An algorithm checks the parameters of a call when the operation is made and carries out
its job when the operation is started. A registry holds algorithms by kind, element type
and name; the built-in one has five for each element type. What is registered later may
be any algorithm at all.
-/

namespace Collectives

/-- A way to carry out a collective. -/
structure Algorithm where
  /-- Rejects parameters that the algorithm cannot run with. -/
  validate : Params → Except Error Unit := fun _ => .ok ()
  /-- What the member with this job does, up to its result in wire form. -/
  run : Job → Program Bytes

namespace Algorithm

/-- The flat broadcast. -/
def sendToAll : Algorithm where
  validate params := (Broadcast.root "send_to_all broadcast" params).map fun _ => ()
  run := Broadcast.sendToAll

/-- The chain broadcast. -/
def linear : Algorithm where
  validate params := (Broadcast.root "linear broadcast" params).map fun _ => ()
  run := Broadcast.linear

/-- The ring allreduce for one element type. -/
def ringAllreduce (d : DataType) : Algorithm where
  validate params := (Allreduce.reducer d "ring allreduce" params).map fun _ => ()
  run := Allreduce.ring d

/-- The recursive-doubling allreduce for one element type. -/
def recursiveDoubling (d : DataType) : Algorithm where
  validate params := (Allreduce.reducer d "recursive_doubling allreduce" params).map fun _ => ()
  run := Allreduce.recursiveDoubling d

/-- The ring allgatherv. -/
def ringAllgatherv : Algorithm where
  validate := Allgatherv.check
  run := Allgatherv.ring

end Algorithm

/-- What an algorithm is registered under. -/
structure AlgorithmKey where
  kind : Kind
  dtype : DataType
  algorithm : AlgorithmName
  deriving DecidableEq, Repr

namespace AlgorithmKey

/-- The position of a key in the order by kind, then element type, then name. -/
def code (k : AlgorithmKey) : Nat :=
  (k.kind.code * 6 + k.dtype.code) * 4 + k.algorithm.code

/-- The canonical text of a key. -/
def name (k : AlgorithmKey) : String :=
  k.kind.name ++ "/" ++ k.dtype.name ++ "/" ++ k.algorithm.name

/-- The key as it is shown for inspection. -/
def describe (k : AlgorithmKey) : String :=
  Text.tuple [k.kind.label, k.dtype.label, k.algorithm.label]

/-- The order of keys tells them apart. -/
theorem code_injective {k l : AlgorithmKey} (h : k.code = l.code) : k = l := by
  obtain ⟨k, d, a⟩ := k
  obtain ⟨l, e, b⟩ := l
  have hd := d.code_lt
  have he := e.code_lt
  have ha := a.code_lt
  have hb := b.code_lt
  dsimp only [code] at h
  have hk : k = l := Kind.code_injective (by omega)
  have hde : d = e := DataType.code_injective (by omega)
  have hab : a = b := AlgorithmName.code_injective (by omega)
  rw [hk, hde, hab]

end AlgorithmKey

/-- The algorithms that are known. -/
structure Registry where
  table : Table AlgorithmKey Algorithm

namespace Registry

/-- The registry without algorithms. -/
def empty : Registry := ⟨.empty⟩

/-- The built-in algorithms for one element type. -/
def builtinFor (d : DataType) : List (AlgorithmKey × Algorithm) :=
  [(⟨.broadcast, d, .sendToAll⟩, .sendToAll),
   (⟨.broadcast, d, .linear⟩, .linear),
   (⟨.allgatherv, d, .ring⟩, .ringAllgatherv),
   (⟨.allreduce, d, .ring⟩, .ringAllreduce d),
   (⟨.allreduce, d, .recursiveDoubling⟩, .recursiveDoubling d)]

/-- The registry of the built-in algorithms. -/
def builtin : Registry := ⟨⟨DataType.all.flatMap builtinFor⟩⟩

/-- Registers an algorithm, in place of any earlier one under the same key. -/
def register (r : Registry) (key : AlgorithmKey) (algorithm : Algorithm) : Registry :=
  ⟨r.table.insert key algorithm⟩

/-- Whether there is an algorithm under a key. -/
def contains (r : Registry) (key : AlgorithmKey) : Bool := r.table.contains key

/-- The algorithm under a key, or a complaint that there is none. -/
def resolve (r : Registry) (key : AlgorithmKey) : Except Error Algorithm :=
  match r.table.get? key with
  | some algorithm => .ok algorithm
  | none => .error (.unknownAlgorithm key.kind key.dtype key.algorithm)

/-- The keys that have an algorithm, in order. -/
def keys (r : Registry) : List AlgorithmKey :=
  r.table.keys.mergeSort fun k l => k.code ≤ l.code

/-- The number of algorithms. -/
def size (r : Registry) : Nat := r.table.size

/-- The registry as it is shown for inspection. -/
def describe (r : Registry) : String := Text.braced (r.keys.map AlgorithmKey.describe)

/-- A registry takes the place of the built-in one for the whole process at most once,
before it is first used. -/
def install (inUse : Option Registry) (r : Registry) : Except Error Registry :=
  match inUse with
  | some _ => .error .registryInitialized
  | none => .ok r

theorem resolve_register (r : Registry) (key other : AlgorithmKey) (algorithm : Algorithm) :
    (r.register key algorithm).resolve other =
      if other = key then .ok algorithm else r.resolve other := by
  unfold resolve register
  by_cases h : other = key <;> simp [Table.get?_insert, h]

theorem size_builtin : builtin.size = 30 := rfl

theorem mem_of_resolve {r : Registry} {key : AlgorithmKey} {algorithm : Algorithm}
    (h : r.resolve key = .ok algorithm) : (key, algorithm) ∈ r.table.entries := by
  unfold resolve Table.get? at h
  split at h
  · next found hfound =>
    cases h
    obtain ⟨entry, hentry, rfl⟩ := Option.map_eq_some_iff.1 hfound
    have hkey : entry.1 = key := by simpa using List.find?_some hentry
    rw [← hkey]
    exact List.mem_of_find?_eq_some hentry
  · cases h

/-- The built-in algorithms, by kind. -/
theorem of_resolve_builtin {kind : Kind} {d : DataType} {name : AlgorithmName}
    {algorithm : Algorithm} (h : builtin.resolve ⟨kind, d, name⟩ = .ok algorithm) :
    match kind with
    | .broadcast => algorithm = .sendToAll ∨ algorithm = .linear
    | .allreduce => algorithm = .ringAllreduce d ∨ algorithm = .recursiveDoubling d
    | .allgatherv => algorithm = .ringAllgatherv := by
  obtain ⟨d', -, hmem⟩ := List.mem_flatMap.1 (mem_of_resolve h)
  simp only [builtinFor, List.mem_cons, Prod.mk.injEq, AlgorithmKey.mk.injEq, List.not_mem_nil,
    or_false] at hmem
  rcases hmem with ⟨⟨rfl, rfl, -⟩, rfl⟩ | ⟨⟨rfl, rfl, -⟩, rfl⟩ | ⟨⟨rfl, rfl, -⟩, rfl⟩ |
    ⟨⟨rfl, rfl, -⟩, rfl⟩ | ⟨⟨rfl, rfl, -⟩, rfl⟩
  · exact .inl rfl
  · exact .inr rfl
  · rfl
  · exact .inl rfl
  · exact .inr rfl

end Registry

end Collectives
