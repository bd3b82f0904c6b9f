import Collectives.Proofs.DoublingAgenda
import Collectives.Proofs.RingAgenda
import Mathlib.Data.Fin.VecNotation

/-!
# Allreduce with counts that disagree

Nothing but the sizes of single messages is checked, and members with different counts may well
have messages of the same size for each other.  Yet if not all counts are equal, no member whose
own count is not zero ends with a value, in either of the two programs and under any schedule
(`withholds_of_count_ne`): a member that has worked off its agenda has the count of everyone
else (`RingOrder.count_eq_of_done`, `Hypercube.count_eq_of_done`).

A member whose count is zero returns at once, with nothing.
-/

namespace Collectives.Allreduce

variable {d : DataType} {t : Team}

theorem withholds_ringBuffer (r : Reducer d) (ht : 2 ≤ t.size) {x : Fin t.size → List d.Elem}
    (hx : ∀ i, (x i).length * d.width < Index.limit) {i j : Fin t.size} (hi : x i ≠ [])
    (hne : (x j).length ≠ (x i).length) :
    (t.run fun i => member ringBuffer (t.exchange i) r (x i)).Withholds i := by
  have hcount : (x i).length ≠ 0 := fun h => hi (List.eq_nil_of_length_eq_zero h)
  refine Team.withholds_of_incomplete ?_ (fun i => follows_ringBuffer r x i (hx i)) ?_
  · intro i
    exact (through_member (t.exchange i) r (through_ringBuffer _ r _)).among
  · intro done hconsistent hdone
    exact hne (RingOrder.count_eq_of_done d.width_pos ht hconsistent hcount hdone j)

theorem withholds_doublingBuffer (r : Reducer d) {x : Fin t.size → List d.Elem}
    (hx : ∀ i, (x i).length * d.width < Index.limit) {i j : Fin t.size} (hi : x i ≠ [])
    (hne : (x j).length ≠ (x i).length) :
    (t.run fun i => member doublingBuffer (t.exchange i) r (x i)).Withholds i := by
  have hcount : (x i).length ≠ 0 := fun h => hi (List.eq_nil_of_length_eq_zero h)
  refine Team.withholds_of_incomplete ?_ (fun i => follows_doublingBuffer r x i (hx i)) ?_
  · intro i
    exact (through_member (t.exchange i) r (through_doublingBuffer _ r _)).among
  · intro done hconsistent hdone
    exact hne (Hypercube.count_eq_of_done d.width_pos t.two_pow_log2_le t.lt_two_pow_log2_succ
      hconsistent hcount hdone j)

/-- If the members of an allreduce do not all have the same count, then under every schedule a
member whose own count is not zero waits, or fails with an error of the transport.  It never
ends with a buffer. -/
theorem withholds_of_count_ne (t : Team) (r : Reducer d) (x : Fin t.size → List d.Elem)
    (hx : ∀ i, (payloadBytes (x i).length d).isOk) (hne : ∃ i j, (x i).length ≠ (x j).length)
    (i : Fin t.size) (hi : x i ≠ []) :
    (t.run fun i => member ringBuffer (t.exchange i) r (x i)).Withholds i ∧
      (t.run fun i => member doublingBuffer (t.exchange i) r (x i)).Withholds i ∧
      ∀ op, Reducer.resolve d op = .ok r →
        (t.run fun i => ring d (t.job i op (x i))).Withholds i ∧
          (t.run fun i => recursiveDoubling d (t.job i op (x i))).Withholds i := by
  -- One of any two members that disagree disagrees with the given one.
  obtain ⟨j, hj⟩ : ∃ j, (x j).length ≠ (x i).length := by
    obtain ⟨a, b, hab⟩ := hne
    by_cases ha : (x a).length = (x i).length
    · exact ⟨b, fun hb => hab (ha.trans hb.symm)⟩
    · exact ⟨a, ha⟩
  have hij : i ≠ j := by
    rintro rfl
    exact hj rfl
  have ht : 2 ≤ t.size := by
    have hval : i.val ≠ j.val := fun h => hij (Fin.ext h)
    have hilt := i.isLt
    have hjlt := j.isLt
    omega
  have hfit : ∀ i, (x i).length * d.width < Index.limit := fun i => payloadBytes_isOk.1 (hx i)
  have hring := withholds_ringBuffer r ht hfit hi hj
  have hdoubling := withholds_doublingBuffer r hfit hi hj
  refine ⟨hring, hdoubling, ?_⟩
  intro op hop
  constructor
  · simp only [ring, onWire_job hop]
    exact hring
  · simp only [recursiveDoubling, onWire_job hop]
    exact hdoubling

/-- Divided among three members, one element and two elements differ in the middle chunk only, so
all messages of the ring but those with that chunk have the same size. -/
theorem withholds_of_count_ne_trio :
    let x : Fin 3 → List DataType.int.Elem := ![[1], [10, 20], [100]]
    (∀ i, (payloadBytes (x i).length .int).isOk) ∧ (∃ i j, (x i).length ≠ (x j).length) ∧
      x 1 ≠ [] ∧ Reducer.resolve .int .sum = .ok ⟨.sum, fun a b => a + b⟩ ∧
      (Team.trio.run fun i => ring .int (Team.trio.job i .sum (x i))).Withholds 1 ∧
      (Team.trio.run fun i => recursiveDoubling .int (Team.trio.job i .sum (x i))).Withholds 1 := by
  intro x
  have hx : ∀ i, (payloadBytes (x i).length .int).isOk := by decide
  have hne : ∃ i j, (x i).length ≠ (x j).length := ⟨0, 1, by decide⟩
  have hi : x 1 ≠ [] := List.cons_ne_nil _ _
  have hop : Reducer.resolve .int .sum = .ok ⟨.sum, fun a b => a + b⟩ := rfl
  obtain ⟨-, -, hjob⟩ := withholds_of_count_ne Team.trio
    (⟨.sum, fun a b => a + b⟩ : Reducer .int) x hx hne (1 : Fin 3) hi
  exact ⟨hx, hne, hi, hop, hjob .sum hop⟩

end Collectives.Allreduce
