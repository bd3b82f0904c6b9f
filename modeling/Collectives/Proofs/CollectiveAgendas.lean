import Collectives.Proofs.Barrier
import Collectives.Proofs.Broadcast
import Collectives.Proofs.Encounters
import Collectives.Proofs.RingAgenda
import Collectives.Proofs.RingAllgatherv

/-!
# The agendas of broadcasts, gathers and barriers

What a member attempts in the two broadcasts, in the allgatherv and in the barrier, whatever it is
answered.  In an allgatherv the sizes in the second ring are those that the counts of the first ring
announce (`Allgatherv.announced`); where a count announces more than a word of bytes, the second
ring is not begun.
-/

namespace Collectives

/-! ## Broadcasts -/

namespace Broadcast

open RingOrder

variable {t : Team}

/-- What a member attempts in the flat broadcast: the root sends what it has to all others, in the
order of their local indices, and each of them receives it. -/
def flatActs (root i : Fin t.size) (own total : Nat) : List (Act t.size) :=
  if i = root then (others root).map fun j => .send j own else [.recv root total]

/-- What a member attempts in the chain: all but the root receive from the member before, and all
but the last send to the next one. -/
def chainActs (root i : Fin t.size) (own total : Nat) : List (Act t.size) :=
  (if i = root then [] else [.recv (behind i 1) total]) ++
    if gap i root + 1 < t.size then [.send (ahead i 1) (if i = root then own else total)] else []

section

variable (root i : Fin t.size) (input : Bytes) (total : Nat)

theorem abides_sendEach (receivers : List (Fin t.size)) :
    (sendEach (t.exchange i) input (receivers.map Fin.val)).Abides t (Gives fun _ => True)
      fun _ => receivers.map fun j => .send j input.length := by
  induction receivers with
  | nil => exact .ret trivial
  | cons j receivers ih => exact (t.abides_send i j input).gives_bind fun _ _ => ih

theorem abides_flat :
    (flat (t.exchange i) root input total).Abides t
      (Gives fun data => data.length = if i = root then input.length else total)
      fun _ => flatActs root i input.length total := by
  rw [flat, t.localRank_exchange, t.size_exchange, ← map_others, flatActs]
  by_cases hi : i = root
  · rw [if_pos (congrArg Fin.val hi), if_pos hi, if_pos hi]
    exact (abides_sendEach i input _).gives_bind_ret fun _ _ => ⟨_, rfl, rfl⟩
  · rw [if_neg fun h => hi (Fin.ext h), if_neg hi, if_neg hi]
    exact t.abides_recvExact i root total

theorem abides_chain :
    (chain (t.exchange i) root input total).Abides t
      (Gives fun data => data.length = if i = root then input.length else total)
      fun _ => chainActs root i input.length total := by
  have hfrom : (fromPrevious (t.exchange i) (gap i root) input total).Abides t
      (Gives fun data => data.length = if i = root then input.length else total)
      fun _ => if i = root then [] else [.recv (behind i 1) total] := by
    by_cases hi : i = root
    · have hzero : gap i root = 0 := Nat.eq_zero_of_not_pos fun h => gap_pos.1 h hi
      rw [fromPrevious, if_pos hzero, if_pos hi, if_pos hi]
      exact .ret rfl
    · have hgap := gap_pos.2 hi
      rw [fromPrevious, if_neg (Nat.ne_of_gt hgap), t.size_exchange, t.localRank_exchange,
        t.behind?_val i i.pos, if_neg hi, if_neg hi]
      exact t.abides_recvExact i (behind i 1) total
  rw [chain, position?_exchange, chainActs]
  refine hfrom.gives_bind fun data hdata => ?_
  have hto : (toNext (t.exchange i) (gap i root) data).Abides t (Gives fun _ => True)
      fun _ => if gap i root + 1 < t.size then [.send (ahead i 1) data.length] else [] := by
    rw [toNext, t.size_exchange, t.localRank_exchange]
    split
    · rw [t.ahead?_one]
      exact t.abides_send i (ahead i 1) data
    · exact .ret trivial
  rw [← hdata]
  exact hto.gives_bind_ret fun _ _ => ⟨_, rfl, rfl⟩

variable {d : DataType} (count : Nat)

/-- A member ends with as much as it has declared; the root does so if it has begun with as much. -/
def Full (root i : Nat) (input : Bytes) (total : Nat) (data : Bytes) : Prop :=
  (i = root → input.length = total) → data.length = total

theorem full_of_length {data : Bytes}
    (h : data.length = if i = root then input.length else total) :
    Full root i input total data := by
  intro hinput
  rw [h]
  split
  · next hi => exact hinput (congrArg Fin.val hi)
  · rfl

theorem abides_sendToAll :
    (sendToAll ⟨t.exchange i, .broadcast root, d, count, input⟩).Abides t
      (GivesIf (count * d.width < Index.limit) (Full root i input (count * d.width)))
      fun _ => if count = 0 then [] else flatActs root i input.length (count * d.width) := by
  by_cases hcount : count = 0
  · subst hcount
    exact .ret fun _ => (Nat.zero_mul _).symm
  · rw [if_neg hcount, sendToAll_job root i input hcount]
    split
    · next hsize =>
      have hi := i.isLt
      have hroot := root.isLt
      have heq : i = root := Fin.ext (by omega)
      rw [flatActs, if_pos heq, others_of_alone root hsize]
      exact .ret fun hinput => hinput (congrArg Fin.val heq)
    · rcases Nat.lt_or_ge (count * d.width) Index.limit with hfit | hbig
      · rw [payloadBytes_of_lt hfit]
        exact (abides_flat root i input _).mono fun _ _ h =>
          h.givesIf _ fun _ => full_of_length root i input _
      · rw [payloadBytes_of_le hbig]
        exact .fail (Nat.not_lt.2 hbig)

theorem abides_linear :
    (linear ⟨t.exchange i, .broadcast root, d, count, input⟩).Abides t
      (GivesIf (count * d.width < Index.limit) (Full root i input (count * d.width)))
      fun _ => if count = 0 then [] else chainActs root i input.length (count * d.width) := by
  by_cases hcount : count = 0
  · subst hcount
    exact .ret fun _ => (Nat.zero_mul _).symm
  · rw [if_neg hcount, linear_job root i input hcount]
    rcases Nat.lt_or_ge (count * d.width) Index.limit with hfit | hbig
    · rw [payloadBytes_of_lt hfit]
      exact (abides_chain root i input _).mono fun _ _ h =>
        h.givesIf _ fun _ => full_of_length root i input _
    · rw [payloadBytes_of_le hbig]
      exact .fail (Nat.not_lt.2 hbig)

end

end Broadcast

/-! ## The allgatherv -/

namespace Allgatherv

open RingOrder

variable {n : Nat}

/-- What a member has of a segment once it has heard this much: the segment that is `k` places
behind it comes as message number `k`. -/
def gathered (i : Fin n) (own : Bytes) (heard : List Bytes) (c : Fin n) : Bytes :=
  if c = i then own else heard.getD (gap i c - 1) []

theorem gathered_self (i : Fin n) (own : Bytes) (heard : List Bytes) :
    gathered i own heard i = own := if_pos rfl

theorem gathered_nil (i : Fin n) (own : Bytes) :
    gathered i own [] = Function.update (fun _ => []) i own := by
  funext c
  by_cases hc : c = i
  · subst hc
    rw [gathered_self, Function.update_self]
  · rw [gathered, if_neg hc, Function.update_of_ne hc]
    rfl

/-- Each message fills the slot of the next segment. -/
theorem gathered_append (i : Fin n) (own : Bytes) {heard : List Bytes} (h : heard.length + 1 < n)
    (data : Bytes) :
    gathered i own (heard ++ [data]) =
      Function.update (gathered i own heard) (behind i (heard.length + 1)) data := by
  funext c
  have hpos : 0 < gap i (behind i (heard.length + 1)) := by
    rw [gap_behind i h]
    exact Nat.succ_pos _
  by_cases hc : c = behind i (heard.length + 1)
  · subst hc
    rw [Function.update_self, gathered, if_neg (gap_pos.1 hpos).symm, gap_behind i h]
    simp
  · rw [Function.update_of_ne hc, gathered, gathered]
    by_cases hi : c = i
    · rw [if_pos hi, if_pos hi]
    · have hgap : 0 < gap i c := gap_pos.2 fun h => hi h.symm
      have hne : gap i c ≠ heard.length + 1 := by
        intro heq
        exact hc (by rw [← heq, behind_gap])
      rw [if_neg hi, if_neg hi]
      rcases Nat.lt_or_ge (gap i c - 1) heard.length with hlt | hge
      · rw [List.getD_append _ _ _ _ hlt]
      · rw [List.getD_eq_default _ _ hge, List.getD_eq_default _ _ (by simp; omega)]

/-- The segments that have come have these sizes. -/
def Sized (sizes : Fin n → Nat) (i : Fin n) (own : Bytes) (heard : List Bytes) : Prop :=
  ∀ c, gap i c ≤ heard.length → (gathered i own heard c).length = sizes c

theorem Sized.append {sizes : Fin n → Nat} {i : Fin n} {own : Bytes} {heard : List Bytes}
    (h : Sized sizes i own heard) (hlt : heard.length + 1 < n) {data : Bytes}
    (hdata : data.length = sizes (behind i (heard.length + 1))) :
    Sized sizes i own (heard ++ [data]) := by
  intro c hc
  rw [List.length_append, List.length_singleton] at hc
  rw [gathered_append i own hlt]
  by_cases heq : c = behind i (heard.length + 1)
  · subst heq
    rw [Function.update_self, hdata]
  · rw [Function.update_of_ne heq]
    refine h c ?_
    have hne : gap i c ≠ heard.length + 1 := by
      intro hgap
      exact heq (by rw [← hgap, behind_gap])
    omega

variable {t : Team}

/-- A ring has ended with all segments, each of its size. -/
structure Complete (sizes : Fin t.size → Nat) (i : Fin t.size) (own : Bytes) (heard : List Bytes)
    (outcome : Except Error (List Bytes)) : Prop where
  eq : outcome = .ok (List.ofFn (gathered i own heard))
  length_heard : heard.length = t.size - 1
  sized : Sized sizes i own heard

section

variable {sizes : Fin t.size → Nat} {length? : Nat → Option Nat} {i : Fin t.size} {own : Bytes}

theorem abides_round (hlength : ∀ c, c ≠ i → length? c = some (sizes c)) {before : List Bytes}
    (hsized : Sized sizes i own before) (h : before.length + 1 < t.size) :
    (round (t.exchange i) length? (List.ofFn (gathered i own before)) before.length).Abides t
      (fun heard outcome => ∃ data, data.length = sizes (behind i (before.length + 1)) ∧
        heard = [data] ∧ outcome = .ok (List.ofFn (gathered i own (before ++ [data]))))
      fun _ => slotActs sizes i [(behind i before.length, behind i (before.length + 1))] := by
  have hout : (List.ofFn (gathered i own before))[(behind i before.length).val]? =
      some (gathered i own before (behind i before.length)) := by
    rw [List.getElem?_ofFn, dif_pos (behind i before.length).isLt]
  have hsize : (gathered i own before (behind i before.length)).length =
      sizes (behind i before.length) :=
    hsized _ (Nat.le_of_eq (gap_behind i (by omega)))
  have hne : behind i (before.length + 1) ≠ i := by
    refine (gap_pos.1 ?_).symm
    rw [gap_behind i h]
    exact Nat.succ_pos _
  have hexchange := t.relays_sendRecv i (ahead i 1) (behind i 1)
    (gathered i own before (behind i before.length)) (sizes (behind i (before.length + 1)))
  rw [hsize] at hexchange
  rw [round, t.size_exchange, t.localRank_exchange, t.ahead?_one, t.behind?_val i i.pos,
    t.behind?_val i (by omega), t.behind?_val i (by omega)]
  simp only [Program.demand_some, Program.ret_bind, hout, hlength _ hne]
  refine hexchange.bind_ret ?_ ?_
  · rintro heard received ⟨data, hdata, rfl, heq⟩
    cases heq
    refine ⟨_, ?_, received, hdata, rfl, rfl⟩
    rw [put?_ofFn, gathered_append i own h]
    rfl
  · rintro heard error ⟨data, -, -, heq⟩
    cases heq

theorem abides_rounds (hlength : ∀ c, c ≠ i → length? c = some (sizes c)) (m : Nat)
    {before : List Bytes} (hsized : Sized sizes i own before) (h : before.length + m < t.size) :
    (rounds (t.exchange i) length? (List.ofFn (gathered i own before)) before.length m).Abides t
      (fun heard outcome => outcome = .ok (List.ofFn (gathered i own (before ++ heard))) ∧
        heard.length = m ∧ Sized sizes i own (before ++ heard))
      fun _ => slotActs sizes i (passSlots 0 i before.length m) := by
  induction m generalizing before with
  | zero =>
    refine .ret ?_
    rw [List.append_nil]
    exact ⟨rfl, rfl, hsized⟩
  | succ m ih =>
    rw [rounds, passSlots_succ, slotActs_append, ahead_zero]
    refine (abides_round hlength hsized (by omega)).bind ?_ ?_
    · rintro heard segments ⟨data, hdata, rfl, heq⟩
      cases heq
      have hrest := ih (hsized.append (by omega) hdata) (by simp; omega)
      rw [List.length_append, List.length_singleton] at hrest
      refine hrest.mono ?_
      rintro more outcome ⟨rfl, hmore, hall⟩
      rw [List.append_assoc] at hall ⊢
      exact ⟨rfl, by rw [List.length_append, List.length_singleton, hmore, Nat.add_comm], hall⟩
    · rintro heard error ⟨data, -, -, heq⟩
      cases heq

/-- A ring brings the segments of all members. -/
theorem abides_circulate (hlength : ∀ c, c ≠ i → length? c = some (sizes c))
    (hown : own.length = sizes i) :
    (circulate (t.exchange i) length? own).Abides t (Complete sizes i own)
      fun _ => slotActs sizes i (passSlots 0 i 0 (t.size - 1)) := by
  have hput : put? (List.replicate t.size []) i own = some (List.ofFn (gathered i own [])) := by
    rw [put?_empty, gathered_nil]
  have hsized : Sized sizes i own [] := by
    intro c hc
    have heq : i = c := by
      by_contra hne
      exact Nat.not_lt.2 hc (gap_pos.2 hne)
    subst heq
    rw [gathered_self, hown]
  have hpos := t.size_pos
  rw [circulate, t.size_exchange, t.localRank_exchange, hput]
  refine (abides_rounds hlength (t.size - 1) hsized (by simp; omega)).mono ?_
  rintro heard outcome ⟨heq, hheard, hall⟩
  exact ⟨heq, hheard, hall⟩

end

/-! ### The counts -/

/-- The count that a member has announced: one's own, and what the segment of another one spells. -/
def announced (i : Fin n) (count : Nat) (heard : List Bytes) (c : Fin n) : Nat :=
  if c = i then count else ofLittleEndian (heard.getD (gap i c - 1) [])

/-- After the first ring the counts are known for good. -/
theorem announced_append (i : Fin n) (count : Nat) {heard : List Bytes}
    (h : heard.length = n - 1) (more : List Bytes) :
    announced i count (heard ++ more) = announced i count heard := by
  funext c
  unfold announced
  by_cases hc : c = i
  · rw [if_pos hc, if_pos hc]
  · have hgap : 0 < gap i c := gap_pos.2 fun h => hc h.symm
    have hlt := gap_lt i c
    rw [if_neg hc, if_neg hc, List.getD_append _ _ _ _ (by omega)]

theorem readCount_gathered {i : Fin n} {count : Nat} (hcount : count < Index.limit)
    {heard : List Bytes} {c : Fin n}
    (h : (gathered i (littleEndian countBytes count) heard c).length = countBytes) :
    readCount (gathered i (littleEndian countBytes count) heard c) =
        .ok (announced i count heard c) ∧ announced i count heard c < Index.limit := by
  by_cases hc : c = i
  · rw [gathered, announced, if_pos hc, if_pos hc]
    exact ⟨readCount_littleEndian hcount, hcount⟩
  · rw [gathered, if_neg hc] at h
    have hlt := ofLittleEndian_lt (heard.getD (gap i c - 1) [])
    have hlimit : wordLimit countBytes = Index.limit := by decide
    rw [h, hlimit] at hlt
    rw [gathered, announced, if_neg hc, if_neg hc, readCount, if_pos h]
    exact ⟨rfl, hlt⟩

/-- The first ring ends with the counts that were announced, all of which are words. -/
theorem abides_exchangeCounts (i : Fin t.size) {count : Nat} (hcount : count < Index.limit) :
    (exchangeCounts (t.exchange i) count).Abides t
      (fun heard outcome => outcome = .ok (List.ofFn (announced i count heard)) ∧
        heard.length = t.size - 1 ∧ ∀ c, announced i count heard c < Index.limit)
      fun _ => slotActs (fun _ => countBytes) i (passSlots 0 i 0 (t.size - 1)) := by
  have hring : (circulate (t.exchange i) (fun _ => some countBytes)
      (littleEndian countBytes count)).Abides t
        (Complete (fun _ => countBytes) i (littleEndian countBytes count))
        fun _ => slotActs (fun _ => countBytes) i (passSlots 0 i 0 (t.size - 1)) :=
    abides_circulate (fun _ _ => rfl) (length_littleEndian _ _)
  refine hring.bind_ret ?_ ?_
  · rintro heard segments ⟨heq, hheard, hsized⟩
    cases heq
    have hread := fun c => readCount_gathered hcount
      (hsized c (hheard ▸ Nat.le_sub_one_of_lt (gap_lt i c)))
    refine ⟨_, ?_, rfl, hheard, fun c => (hread c).2⟩
    rw [mapM_ofFn fun c => (hread c).1]
    rfl
  · rintro heard error ⟨heq, -, -⟩
    cases heq

/-! ### The contributions -/

/-- The size of a segment: one's own is as it is, the others are as announced. -/
def segmentSize (i : Fin n) (own width count : Nat) (heard : List Bytes) (c : Fin n) : Nat :=
  if c = i then own else announced i count heard c * width

/-- What a member attempts in an allgatherv: a ring of counts, and a ring of what they announce. -/
def gatherActs (i : Fin n) (own width count : Nat) (heard : List Bytes) : List (Act n) :=
  slotActs (fun _ => countBytes) i (passSlots 0 i 0 (n - 1)) ++
    slotActs (segmentSize i own width count heard) i (passSlots 0 i 0 (n - 1))

/-- How an allgatherv can end of its own: with all that was announced, or because some member has
announced more than a word of bytes. -/
inductive Ends (i : Fin n) (own count : Nat) (d : DataType) (heard : List Bytes) :
    Except Error Bytes → Prop where
  | complete {bytes : Bytes} (hcounts : ∀ c, announced i count heard c < Index.limit)
      (hlength : bytes.length = ∑ c, segmentSize i own d.width count heard c) :
      Ends i own count d heard (.ok bytes)
  | overflow (c : Fin n) (hcount : announced i count heard c < Index.limit)
      (hbig : Index.limit ≤ announced i count heard c * d.width) :
      Ends i own count d heard (.error (.countOverflow (announced i count heard c) d))

theorem mapM_payloadBytes (d : DataType) (counts : List Nat) :
    counts.mapM (payloadBytes · d) = .ok (counts.map (· * d.width)) ∨
      ∃ count ∈ counts, Index.limit ≤ count * d.width ∧
        counts.mapM (payloadBytes · d) = .error (.countOverflow count d) := by
  induction counts with
  | nil => exact .inl rfl
  | cons count counts ih =>
    rw [List.mapM_cons]
    rcases Nat.lt_or_ge (count * d.width) Index.limit with hfit | hbig
    · rw [payloadBytes_of_lt hfit]
      rcases ih with hall | ⟨other, hmem, hbig, herror⟩
      · rw [hall]
        exact .inl rfl
      · rw [herror]
        exact .inr ⟨other, List.mem_cons_of_mem _ hmem, hbig, rfl⟩
    · rw [payloadBytes_of_le hbig]
      exact .inr ⟨count, List.mem_cons_self, hbig, rfl⟩

variable {d : DataType}

/-- The second ring ends with all segments put together, unless some count is too large. -/
theorem abides_gather (i : Fin t.size) (input : Bytes) (count : Nat) {known : List Bytes}
    (hknown : known.length = t.size - 1) (hcounts : ∀ c, announced i count known c < Index.limit) :
    (gather ⟨t.exchange i, .allgatherv, d, count, input⟩
        (List.ofFn (announced i count known))).Abides t
      (fun more outcome => Ends i input.length count d (known ++ more) outcome)
      fun _ => slotActs (segmentSize i input.length d.width count known) i
        (passSlots 0 i 0 (t.size - 1)) := by
  unfold gather
  rcases mapM_payloadBytes d (List.ofFn (announced i count known)) with
    hall | ⟨other, hmem, hbig, herror⟩
  · have hlength : ∀ c : Fin t.size, c ≠ i →
        ((List.ofFn (announced i count known)).map (· * d.width))[c.val]? =
          some (segmentSize i input.length d.width count known c) := by
      intro c hc
      rw [List.getElem?_map, List.getElem?_ofFn, dif_pos c.isLt, segmentSize, if_neg hc]
      rfl
    have hown : input.length = segmentSize i input.length d.width count known i :=
      (if_pos rfl).symm
    rw [hall]
    refine (abides_circulate hlength hown).bind_ret ?_ ?_
    · rintro heard segments ⟨heq, hheard, hsized⟩
      cases heq
      refine ⟨_, rfl, ?_⟩
      have hcounts' := announced_append i count hknown heard
      refine .complete (fun c => by rw [hcounts']; exact hcounts c) ?_
      rw [List.length_flatten, List.map_ofFn, List.sum_ofFn]
      refine Finset.sum_congr rfl fun c _ => ?_
      rw [segmentSize, hcounts']
      exact hsized c (hheard ▸ Nat.le_sub_one_of_lt (gap_lt i c))
    · rintro heard error ⟨heq, -, -⟩
      cases heq
  · obtain ⟨c, rfl⟩ := List.mem_ofFn.1 hmem
    rw [herror]
    refine .fail ?_
    rw [List.append_nil]
    exact .overflow c (hcounts c) hbig

theorem abides_ring (i : Fin t.size) (input : Bytes) {count : Nat} (hcount : count < Index.limit) :
    (ring ⟨t.exchange i, .allgatherv, d, count, input⟩).Abides t
      (Ends i input.length count d) (gatherActs i input.length d.width count) := by
  rw [ring_eq rfl]
  refine (abides_exchangeCounts i hcount).bind ?_ ?_
  · rintro heard counts ⟨heq, hheard, hcounts⟩
    cases heq
    have hsizes : (fun more => slotActs
        (segmentSize i input.length d.width count (heard ++ more)) i
          (passSlots 0 i 0 (t.size - 1))) =
        fun _ => slotActs (segmentSize i input.length d.width count heard) i
          (passSlots 0 i 0 (t.size - 1)) := by
      funext more
      unfold segmentSize
      rw [announced_append i count hheard more]
    rw [hsizes]
    exact abides_gather i input count hheard hcounts
  · rintro heard error ⟨heq, -, -⟩
    cases heq

end Allgatherv

/-! ## The barrier -/

namespace Barrier

open RingOrder

variable {t : Team}

/-- What a member attempts in the rounds `k`, `k + 1`, …, `m` of them. -/
def strideActs {n : Nat} (i : Fin n) (k m : Nat) : List (Act n) :=
  (List.range' k m).flatMap fun k =>
    [.send (ahead i (1 <<< k)) 0, .recv (behind i (1 <<< k)) 0]

theorem abides_round (i : Fin t.size) {distance : Nat} (h : distance < t.size) :
    (round (t.exchange i) distance).Abides t (Gives fun _ => True)
      fun _ => [.send (ahead i distance) 0, .recv (behind i distance) 0] := by
  have hfit : i.val + distance < Index.limit := by
    have hbound := t.add_size_lt i (Nat.zero_le 1)
    omega
  rw [round, t.size_exchange, t.localRank_exchange, ahead?_eq i hfit,
    t.behind?_val i (Nat.le_of_lt h)]
  exact (t.abides_sendRecv i (ahead i distance) (behind i distance) [] 0).gives_bind_ret
    fun _ _ => ⟨_, rfl, trivial⟩

theorem abides_rounds (i : Fin t.size) (k m : Nat) (h : ∀ k' < k + m, 1 <<< k' < t.size) :
    (rounds (t.exchange i) k m).Abides t (Gives fun _ => True) fun _ => strideActs i k m := by
  induction m generalizing k with
  | zero => exact .ret trivial
  | succ m ih =>
    rw [rounds, strideActs, List.range'_succ, List.flatMap_cons]
    exact (abides_round i (h k (by omega))).gives_bind fun _ _ =>
      ih (k + 1) fun k' hk' => h k' (by omega)

theorem abides_enter (i : Fin t.size) :
    (enter (t.exchange i)).Abides t (Gives fun _ => True)
      fun _ => strideActs i 0 (Index.ceilLog2 t.size) := by
  refine abides_rounds i 0 _ ?_
  intro k hk
  rw [Nat.zero_add] at hk
  exact Index.shiftLeft_lt_of_lt_ceilLog2 hk

end Barrier

end Collectives
