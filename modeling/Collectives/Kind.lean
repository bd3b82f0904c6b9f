import Collectives.Text

/-!
# Kinds of collective and names of algorithms

A collective is asked for by its kind and, optionally, by the name of the algorithm
that is to carry it out. Which names mean something for which kind is the registry's
business.
-/

namespace Collectives

/-- The kind of a collective. -/
inductive Kind where
  | broadcast
  | allreduce
  | allgatherv
  deriving DecidableEq, Repr

namespace Kind

/-- Every kind, in order. -/
def all : List Kind := [broadcast, allreduce, allgatherv]

/-- The position of the kind in the order. -/
def code : Kind → Nat
  | broadcast => 0
  | allreduce => 1
  | allgatherv => 2

/-- The canonical name. -/
def name : Kind → String
  | broadcast => "broadcast"
  | allreduce => "allreduce"
  | allgatherv => "allgatherv"

/-- The name as it is shown inside records. -/
def label : Kind → String
  | broadcast => "Broadcast"
  | allreduce => "Allreduce"
  | allgatherv => "Allgatherv"

/-- The kind with exactly this canonical name. -/
def ofName? (text : String) : Option Kind :=
  all.find? fun k => text = k.name

theorem code_injective {k l : Kind} (h : k.code = l.code) : k = l := by
  cases k <;> cases l <;> simp_all [code]

end Kind

/-- The name of an algorithm. -/
inductive AlgorithmName where
  | ring
  | recursiveDoubling
  | linear
  | sendToAll
  deriving DecidableEq, Repr

namespace AlgorithmName

/-- Every algorithm name, in order. -/
def all : List AlgorithmName := [ring, recursiveDoubling, linear, sendToAll]

/-- The position of the name in the order. -/
def code : AlgorithmName → Nat
  | ring => 0
  | recursiveDoubling => 1
  | linear => 2
  | sendToAll => 3

/-- The canonical spelling. -/
def name : AlgorithmName → String
  | ring => "ring"
  | recursiveDoubling => "recursive_doubling"
  | linear => "linear"
  | sendToAll => "send_to_all"

/-- The name as it is shown inside records. -/
def label : AlgorithmName → String
  | ring => "Ring"
  | recursiveDoubling => "RecursiveDoubling"
  | linear => "Linear"
  | sendToAll => "SendToAll"

/-- The spellings under which a name is read, in lower case and without separators. -/
def spellings : AlgorithmName → List String
  | ring => ["ring"]
  | recursiveDoubling => ["recursivedoubling"]
  | linear => ["linear", "basiclinear"]
  | sendToAll => ["sendtoall"]

/-- The characters that may separate the words of a name. -/
def isSeparator (c : Char) : Bool := c = '_' || c = '-' || c = ' '

/-- The algorithm that a text names, in any case, with blanks around it and with any
separators between its words. -/
def ofName? (text : String) : Option AlgorithmName :=
  let letters := (Text.trim text).toList.filter fun c => !isSeparator c
  let spelling := (String.ofList letters).toLower
  all.find? fun a => spelling ∈ a.spellings

theorem code_lt (a : AlgorithmName) : a.code < 4 := by cases a <;> decide

theorem code_injective {a b : AlgorithmName} (h : a.code = b.code) : a = b := by
  cases a <;> cases b <;> simp_all [code]

end AlgorithmName

end Collectives
