/-!
# Tables

Finite maps as lists of entries, each key once. `get?` is what a table means;
`get?_insert`, `get?_erase` and `get?_filterKeys` say what the operations do to it.
-/

namespace Collectives

/-- A finite map. -/
structure Table (κ ν : Type) where
  entries : List (κ × ν) := []

namespace Table

variable {κ ν : Type} [DecidableEq κ]

/-- The table without entries. -/
def empty : Table κ ν := {}

/-- The value at a key. -/
def get? (t : Table κ ν) (k : κ) : Option ν :=
  (t.entries.find? fun e => e.1 = k).map (·.2)

/-- Whether a key has a value. -/
def contains (t : Table κ ν) (k : κ) : Bool := (t.get? k).isSome

/-- Keeps the entries whose key passes a test. -/
def filterKeys (t : Table κ ν) (keep : κ → Bool) : Table κ ν :=
  ⟨t.entries.filter fun e => keep e.1⟩

/-- Removes a key. -/
def erase (t : Table κ ν) (k : κ) : Table κ ν := t.filterKeys (· ≠ k)

/-- Gives a key a value, in place of any earlier one. -/
def insert (t : Table κ ν) (k : κ) (v : ν) : Table κ ν :=
  ⟨(k, v) :: (t.erase k).entries⟩

/-- The keys that have a value. -/
def keys (t : Table κ ν) : List κ := t.entries.map (·.1)

/-- The number of keys that have a value. -/
def size (t : Table κ ν) : Nat := t.entries.length

/-- Whether no key has a value. -/
def isEmpty (t : Table κ ν) : Bool := t.entries.isEmpty

/-- The table with these entries, of which a later one replaces an earlier one. -/
def ofList (entries : List (κ × ν)) : Table κ ν :=
  entries.foldl (fun t e => t.insert e.1 e.2) empty

@[simp] theorem get?_empty (k : κ) : (empty : Table κ ν).get? k = none := rfl

@[simp] theorem get?_filterKeys (t : Table κ ν) (keep : κ → Bool) (k : κ) :
    (t.filterKeys keep).get? k = if keep k then t.get? k else none := by
  obtain ⟨es⟩ := t
  simp only [get?, filterKeys]
  induction es with
  | nil => simp
  | cons e es ih =>
    rw [List.filter_cons]
    by_cases hk : e.1 = k
    · subst hk
      cases h : keep e.1
      · simpa [h] using ih
      · simp
    · cases h : keep e.1
      · simpa [hk] using ih
      · simpa [hk] using ih

theorem get?_erase (t : Table κ ν) (k l : κ) :
    (t.erase k).get? l = if l = k then none else t.get? l := by
  by_cases h : l = k <;> simp [erase, h]

theorem get?_insert (t : Table κ ν) (k l : κ) (v : ν) :
    (t.insert k v).get? l = if l = k then some v else t.get? l := by
  by_cases h : l = k
  · subst h
    simp [get?, insert]
  · have hk : k ≠ l := fun e => h e.symm
    have := get?_erase t k l
    simp only [get?, insert, h, if_false] at this ⊢
    simpa [hk] using this

@[simp] theorem get?_insert_self (t : Table κ ν) (k : κ) (v : ν) :
    (t.insert k v).get? k = some v := by
  rw [get?_insert, if_pos rfl]

/-- What a table holds is among the entries that it was made of. -/
theorem mem_of_get?_ofList {entries : List (κ × ν)} {k : κ} {v : ν}
    (h : (ofList entries).get? k = some v) : (k, v) ∈ entries := by
  suffices hall : ∀ t : Table κ ν,
      (entries.foldl (fun t e => t.insert e.1 e.2) t).get? k = some v →
        (k, v) ∈ entries ∨ t.get? k = some v by
    rcases hall empty h with hmem | hempty
    · exact hmem
    · cases hempty
  clear h
  intro t h
  induction entries generalizing t with
  | nil => exact .inr h
  | cons e entries ih =>
    rcases ih _ h with hmem | hinsert
    · exact .inl (List.mem_cons_of_mem e hmem)
    · rw [get?_insert] at hinsert
      split at hinsert
      · next hk =>
        cases hinsert
        exact .inl (hk ▸ List.mem_cons_self)
      · exact .inr hinsert

end Table

end Collectives
