import Collectives.Proofs.Allreduce
import Collectives.Proofs.Encounters
import Collectives.Proofs.Hypercube

/-!
# The agenda of recursive doubling

In recursive doubling all messages of a member have one size, that of its own buffer.  When a
member has completed `k` exchanges, all members of its block of `2 ^ k` have its count, and so
have those that were folded into them (`count_eq_of_before`): a message of the right size from
the partner says that the partner has the same count, and also that it has completed all
exchanges before this one, since it sends to each member once.
-/

namespace Collectives

namespace Hypercube

variable {n : Nat}

/-- The partner of a member at distance `2 ^ k`, where there is one. -/
def partner (i : Fin n) (k : Nat) : Fin n :=
  if h : i.val ^^^ 2 ^ k < n then ⟨i.val ^^^ 2 ^ k, h⟩ else i

theorem val_partner {i : Fin n} {k : Nat} (h : i.val ^^^ 2 ^ k < n) :
    (partner i k).val = i.val ^^^ 2 ^ k := by
  rw [partner, dif_pos h]

/-- Folding in: the buffer of the partner beyond, if there is one. -/
def foldInActs (l size : Nat) (i : Fin n) : List (Act n) :=
  if h : i.val + 2 ^ l < n then [.recv ⟨i.val + 2 ^ l, h⟩ size] else []

/-- Folding out: the result for the partner beyond, if there is one. -/
def foldOutActs (l size : Nat) (i : Fin n) : List (Act n) :=
  if h : i.val + 2 ^ l < n then [.send ⟨i.val + 2 ^ l, h⟩ size] else []

/-- The exchanges from distance `2 ^ k` on, `m` of them. -/
def exchangeActs (size : Nat) (i : Fin n) (k m : Nat) : List (Act n) :=
  (List.range' k m).flatMap fun k => [.send (partner i k) size, .recv (partner i k) size]

/-- What a member inside has before it when it has completed the first `k` exchanges. -/
def before (l size : Nat) (i : Fin n) (k : Nat) : List (Act n) :=
  foldInActs l size i ++ exchangeActs size i 0 k

/-- The agenda of a member in recursive doubling, where each has its own count.  Who has nothing
sends and receives nothing. -/
def doublingAgenda (l width : Nat) (count : Fin n → Nat) (i : Fin n) : List (Act n) :=
  if count i = 0 then []
  else if 2 ^ l ≤ i.val then
    [.send ⟨i.val - 2 ^ l, (Nat.sub_le _ _).trans_lt i.isLt⟩ (count i * width),
      .recv ⟨i.val - 2 ^ l, (Nat.sub_le _ _).trans_lt i.isLt⟩ (count i * width)]
  else before l (count i * width) i l ++ foldOutActs l (count i * width) i

/-- Who is alone has nobody to exchange anything with. -/
theorem doublingAgenda_of_alone (width : Nat) {n : Nat} (hn : n ≤ 1) (count : Fin n → Nat)
    (i : Fin n) : doublingAgenda (Nat.log2 n) width count i = [] := by
  have hi := i.isLt
  obtain rfl : n = 1 := by omega
  have hlog : Nat.log2 1 = 0 := rfl
  unfold doublingAgenda
  split
  · rfl
  · simp [hlog, before, foldInActs, foldOutActs, exchangeActs]

theorem exchangeActs_add (size : Nat) (i : Fin n) (k m m' : Nat) :
    exchangeActs size i k (m + m') =
      exchangeActs size i k m ++ exchangeActs size i (k + m) m' := by
  rw [exchangeActs, ← List.range'_append_1, List.flatMap_append]
  rfl

theorem exchangeActs_succ (size : Nat) (i : Fin n) (k m : Nat) :
    exchangeActs size i k (m + 1) =
      [.send (partner i k) size, .recv (partner i k) size] ++
        exchangeActs size i (k + 1) m := by
  rw [exchangeActs, List.range'_succ, List.flatMap_cons]
  rfl

theorem before_add (l size : Nat) (i : Fin n) (k m : Nat) :
    before l size i (k + m) = before l size i k ++ exchangeActs size i k m := by
  rw [before, exchangeActs_add, Nat.zero_add, before, List.append_assoc]

/-- The members to which a member sends in the first `k` exchanges. -/
theorem send_mem_before {l size s k : Nat} {i j : Fin n} (h : .send j s ∈ before l size i k) :
    ∃ k' < k, j = partner i k' := by
  rcases List.mem_append.1 h with h | h
  · unfold foldInActs at h
    split at h <;> simp at h
  · obtain ⟨k', hk', h⟩ := List.mem_flatMap.1 h
    have hlt := (List.mem_range'_1.1 hk').2
    simp only [List.mem_cons, Act.send.injEq, reduceCtorEq, List.not_mem_nil, or_false] at h
    exact ⟨k', by omega, h.1⟩

/-! ## Counts that differ -/

variable {l width : Nat} {count : Fin n → Nat} {done : Fin n → List (Act n)}

/-- All messages of a member are of the size of its buffer. -/
theorem size_of_send_mem {i j : Fin n} {size : Nat}
    (h : .send j size ∈ doublingAgenda l width count i) :
    count i ≠ 0 ∧ size = count i * width := by
  unfold doublingAgenda at h
  split at h
  · cases h
  · next hcount =>
    refine ⟨hcount, ?_⟩
    split at h
    · simp only [List.mem_cons, Act.send.injEq, reduceCtorEq, List.not_mem_nil, or_false] at h
      exact h.2
    · rcases List.mem_append.1 h with h | h
      · rcases List.mem_append.1 h with h | h
        · unfold foldInActs at h
          split at h <;> simp at h
        · obtain ⟨k, -, h⟩ := List.mem_flatMap.1 h
          simp only [List.mem_cons, Act.send.injEq, reduceCtorEq, List.not_mem_nil,
            or_false] at h
          exact h.2
      · unfold foldOutActs at h
        split at h
        · simp only [List.mem_cons, Act.send.injEq, List.not_mem_nil, or_false] at h
          exact h.2
        · cases h

/-- A message of the size of one's own buffer is from someone with the same count. -/
theorem count_eq_of_recv (hwidth : 0 < width) (hc : Consistent (doublingAgenda l width count) done)
    {i j : Fin n} (h : .recv j (count i * width) ∈ done i) :
    count j ≠ 0 ∧ count j = count i ∧ .send i (count i * width) ∈ done j := by
  have hsent := hc.send_mem h
  obtain ⟨hcount, hsize⟩ := size_of_send_mem ((hc.begun j).subset hsent)
  exact ⟨hcount, (Nat.eq_of_mul_eq_mul_right hwidth hsize).symm, hsent⟩

/-- A member inside that has sent to someone who is no partner in the first `k` exchanges has
completed these. -/
theorem before_prefix_of_send (hc : Consistent (doublingAgenda l width count) done) {i j : Fin n}
    (hi : i.val < 2 ^ l) (hcount : count i ≠ 0) {k size : Nat} (hk : k ≤ l)
    (hsent : .send j size ∈ done i) (hlate : ∀ k' < k, j ≠ partner i k') :
    before l (count i * width) i k <+: done i := by
  have hagenda : before l (count i * width) i k <+: doublingAgenda l width count i := by
    have hadd := before_add l (count i * width) i k (l - k)
    rw [Nat.add_sub_cancel' hk] at hadd
    rw [doublingAgenda, if_neg hcount, if_neg (Nat.not_le.2 hi), hadd, List.append_assoc]
    exact List.prefix_append _ _
  rcases List.prefix_or_prefix_of_prefix (hc.begun i) hagenda with hle | hge
  · obtain ⟨k', hk', hj⟩ := send_mem_before (hle.subset hsent)
    exact absurd hj (hlate k' hk')
  · exact hge

/-- Different distances have different partners. -/
theorem partner_ne {i : Fin n} {k k' : Nat} (hk : i.val ^^^ 2 ^ k < n)
    (hk' : i.val ^^^ 2 ^ k' < n) (hne : k ≠ k') : partner i k ≠ partner i k' := by
  intro h
  have hval := congrArg Fin.val h
  rw [val_partner hk, val_partner hk', Nat.xor_right_inj] at hval
  exact hne (Nat.pow_right_injective (Nat.le_refl 2) hval)

/-- When a member inside has completed `k` exchanges, all members of its block have its count,
and so have those folded into them. -/
theorem count_eq_of_before (hwidth : 0 < width) (hl : 2 ^ l ≤ n)
    (hc : Consistent (doublingAgenda l width count) done) {i : Fin n} (hi : i.val < 2 ^ l)
    (hcount : count i ≠ 0) {k : Nat} (hk : k ≤ l)
    (hbefore : before l (count i * width) i k <+: done i) (j : Fin n)
    (hj : blockStart k (corner l j) = blockStart k i) : count j = count i := by
  induction k generalizing i with
  | zero =>
    rw [blockStart_zero, blockStart_zero, corner] at hj
    split at hj
    · next hle =>
      have hval : i.val + 2 ^ l = j.val := by omega
      have hlt : i.val + 2 ^ l < n := by rw [hval]; exact j.isLt
      have hmem : .recv j (count i * width) ∈ done i := by
        refine hbefore.subset (List.mem_append_left _ ?_)
        rw [foldInActs, dif_pos hlt, List.mem_singleton]
        congr 1
        exact Fin.ext hval.symm
      exact (count_eq_of_recv hwidth hc hmem).2.1
    · rw [Fin.ext hj]
  | succ k ih =>
    have hxor : i.val ^^^ 2 ^ k < 2 ^ l := xor_lt hi (by omega)
    have hpartner := val_partner (hxor.trans_le hl)
    rw [before_add] at hbefore
    have hmem : .recv (partner i k) (count i * width) ∈ done i := by
      refine hbefore.subset (List.mem_append_right _ ?_)
      rw [exchangeActs_succ]
      simp
    obtain ⟨hcount', hsame, hsent⟩ := count_eq_of_recv hwidth hc hmem
    have hinside : (partner i k).val < 2 ^ l := by rwa [hpartner]
    have hback : ∀ k', k' ≤ k → (partner i k).val ^^^ 2 ^ k' < n :=
      fun k' hk' => (xor_lt hinside (by omega)).trans_le hl
    have hself : i = partner (partner i k) k := by
      ext
      rw [val_partner (hback k (Nat.le_refl k)), hpartner, Nat.xor_xor_cancel_right]
    have hbefore' : before l (count (partner i k) * width) (partner i k) k <+:
        done (partner i k) := by
      refine before_prefix_of_send hc hinside hcount' (by omega) hsent ?_
      intro k' hk' heq
      exact partner_ne (hback k (Nat.le_refl k)) (hback k' (by omega)) (by omega)
        (hself.symm.trans heq)
    -- the block of twice the size consists of that of the member and that of its partner
    have hown := ih hi hcount (by omega) ((List.prefix_append _ _).trans hbefore)
    have hother := fun h => (ih hinside hcount' (by omega) hbefore' h).trans hsame
    rw [hpartner] at hother
    rcases half_of_block hj with hj | hj
    · exact hown hj
    · exact hother hj

/-- A member that has something to reduce works off all of its agenda only where all counts
agree. -/
theorem count_eq_of_done (hwidth : 0 < width) (hl : 2 ^ l ≤ n) (hn : n < 2 ^ (l + 1))
    (hc : Consistent (doublingAgenda l width count) done) {i : Fin n} (hcount : count i ≠ 0)
    (hi : done i = doublingAgenda l width count i) (j : Fin n) : count j = count i := by
  have hcorner := corner_lt hn
  rw [Nat.pow_succ] at hn
  have hall : ∀ a : Fin n, a.val < 2 ^ l → count a ≠ 0 →
      before l (count a * width) a l <+: done a → ∀ j, count j = count a := by
    intro a ha hcount hbefore j
    refine count_eq_of_before hwidth hl hc ha hcount (Nat.le_refl l) hbefore j ?_
    rw [blockStart_of_lt (hcorner j), blockStart_of_lt ha]
  by_cases hbeyond : 2 ^ l ≤ i.val
  · -- the result comes from the member inside, which has completed all exchanges
    have hmem : .recv ⟨i.val - 2 ^ l, (Nat.sub_le _ _).trans_lt i.isLt⟩ (count i * width) ∈
        done i := by
      rw [hi, doublingAgenda, if_neg hcount, if_pos hbeyond]
      simp
    obtain ⟨hcount', hsame, hsent⟩ := count_eq_of_recv hwidth hc hmem
    have hlt := i.isLt
    have hinside : i.val - 2 ^ l < 2 ^ l := by omega
    have hbefore := before_prefix_of_send hc hinside hcount' (Nat.le_refl l) hsent ?_
    · exact (hall _ hinside hcount' hbefore j).trans hsame
    · intro k hk heq
      have hxor := xor_lt hinside hk
      have hval := congrArg Fin.val heq
      rw [val_partner (hxor.trans_le hl)] at hval
      dsimp only at hval hxor
      omega
  · have hbefore : before l (count i * width) i l <+: done i := by
      rw [hi, doublingAgenda, if_neg hcount, if_neg hbeyond]
      exact List.prefix_append _ _
    exact hall i (Nat.lt_of_not_le hbeyond) hcount hbefore j

end Hypercube

/-! ## The program follows the agenda -/

namespace Allreduce

open Hypercube

variable {d : DataType} {t : Team} (r : Reducer d) {count : Nat}

theorem abides_recvBuffer (i j : Fin t.size) :
    (recvBuffer d (t.exchange i) j (count * d.width)).Abides t (Gives fun xs => xs.length = count)
      fun _ => [.recv j (count * d.width)] := by
  refine (t.abides_recvExact i j _).gives_bind_ret fun received hreceived => ?_
  obtain ⟨xs, hdecode, hxs⟩ := decode_of_length hreceived
  exact ⟨xs, by rw [hdecode]; rfl, hxs⟩

theorem abides_doublingRound {l : Nat} (hl : 2 ^ l ≤ t.size) {i : Fin t.size}
    (hi : i.val < 2 ^ l) {k : Nat} (hk : k < l) {buffer : List d.Elem}
    (hbuffer : buffer.length = count) :
    (doublingRound (t.exchange i) r (count * d.width) buffer k).Abides t
      (Gives fun xs => xs.length = count)
      fun _ => [.send (partner i k) (count * d.width), .recv (partner i k) (count * d.width)] := by
  have hpartner := val_partner ((xor_lt hi hk).trans_le hl)
  have hexchange := t.abides_sendRecv i (partner i k) (partner i k) (d.encode buffer)
    (count * d.width)
  rw [DataType.length_encode, hbuffer, hpartner] at hexchange
  rw [doublingRound, t.localRank_exchange, Nat.one_shiftLeft]
  refine hexchange.gives_bind_ret fun received hreceived => ?_
  obtain ⟨incoming, hdecode, hincoming⟩ := decode_of_length hreceived
  refine ⟨_, by rw [hdecode]; rfl, ?_⟩
  split
  · exact length_reduce_of_eq r hincoming hbuffer
  · exact length_reduce_of_eq r hbuffer hincoming

theorem abides_doublingRounds {l : Nat} (hl : 2 ^ l ≤ t.size) {i : Fin t.size}
    (hi : i.val < 2 ^ l) (k m : Nat) (h : k + m ≤ l) {buffer : List d.Elem}
    (hbuffer : buffer.length = count) :
    (doublingRounds (t.exchange i) r (count * d.width) buffer k m).Abides t
      (Gives fun xs => xs.length = count) fun _ => exchangeActs (count * d.width) i k m := by
  induction m generalizing k buffer with
  | zero => exact .ret hbuffer
  | succ m ih =>
    rw [doublingRounds, exchangeActs_succ]
    exact (abides_doublingRound r hl hi (by omega) hbuffer).gives_bind fun buffer' hbuffer' =>
      ih (k + 1) (by omega) hbuffer'

theorem abides_foldIn {l : Nat} {i : Fin t.size} {buffer : List d.Elem}
    (hbuffer : buffer.length = count) :
    (foldIn (t.exchange i) r (count * d.width) (2 ^ l) (t.size - 2 ^ l) buffer).Abides t
      (Gives fun xs => xs.length = count) fun _ => foldInActs l (count * d.width) i := by
  rw [foldIn_exchange, foldInActs]
  by_cases hpartner : i.val + 2 ^ l < t.size
  · rw [if_pos hpartner, dif_pos hpartner]
    exact (abides_recvBuffer i ⟨_, hpartner⟩).gives_bind_ret fun incoming hincoming =>
      ⟨_, rfl, length_reduce_of_eq r hbuffer hincoming⟩
  · rw [if_neg hpartner, dif_neg hpartner]
    exact .ret hbuffer

theorem abides_foldOut {l : Nat} {i : Fin t.size} {buffer : List d.Elem}
    (hbuffer : buffer.length = count) :
    (foldOut (t.exchange i) (2 ^ l) (t.size - 2 ^ l) buffer).Abides t (Gives fun _ => True)
      fun _ => foldOutActs l (count * d.width) i := by
  rw [foldOut_exchange, foldOutActs]
  by_cases hpartner : i.val + 2 ^ l < t.size
  · have hsend := t.abides_send i ⟨_, hpartner⟩ (d.encode buffer)
    rw [DataType.length_encode, hbuffer] at hsend
    rw [if_pos hpartner, dif_pos hpartner]
    exact hsend
  · rw [if_neg hpartner, dif_neg hpartner]
    exact .ret trivial

theorem abides_beyond {l : Nat} {i : Fin t.size} (hi : 2 ^ l ≤ i.val) {buffer : List d.Elem}
    (hbuffer : buffer.length = count) :
    (beyond (t.exchange i) (count * d.width) (2 ^ l) buffer).Abides t
      (Gives fun xs => xs.length = count)
      fun _ => [.send ⟨i.val - 2 ^ l, (Nat.sub_le _ _).trans_lt i.isLt⟩ (count * d.width),
        .recv ⟨i.val - 2 ^ l, (Nat.sub_le _ _).trans_lt i.isLt⟩ (count * d.width)] := by
  have hpartner : i.val - 2 ^ l < t.size := (Nat.sub_le _ _).trans_lt i.isLt
  have hsub : Index.sub? i.val (2 ^ l) = some (i.val - 2 ^ l) := if_pos hi
  have hsend := t.abides_send i ⟨_, hpartner⟩ (d.encode buffer)
  rw [DataType.length_encode, hbuffer] at hsend
  rw [beyond, t.localRank_exchange, hsub]
  exact hsend.gives_bind fun _ _ => abides_recvBuffer i ⟨_, hpartner⟩

theorem abides_inside {i : Fin t.size} (hi : i.val < 2 ^ Nat.log2 t.size)
    {buffer : List d.Elem} (hbuffer : buffer.length = count) :
    (inside (t.exchange i) r (count * d.width) (2 ^ Nat.log2 t.size)
      (t.size - 2 ^ Nat.log2 t.size) buffer).Abides t (Gives fun xs => xs.length = count)
        fun _ => before (Nat.log2 t.size) (count * d.width) i (Nat.log2 t.size) ++
          foldOutActs (Nat.log2 t.size) (count * d.width) i := by
  rw [inside, before, List.append_assoc, t.size_exchange]
  refine (abides_foldIn r hbuffer).gives_bind fun own hown => ?_
  refine (abides_doublingRounds r t.two_pow_log2_le hi 0 _
    (Nat.le_of_eq (Nat.zero_add _)) hown).gives_bind fun result hresult => ?_
  exact (abides_foldOut hresult).gives_bind_ret fun _ _ => ⟨_, rfl, hresult⟩

/-- The program of a member in recursive doubling abides by the agenda for its own count, and gives
a buffer of this count. -/
theorem abides_doublingBuffer {buffer : List d.Elem}
    (hfit : buffer.length * d.width < Index.limit) (i : Fin t.size) :
    (doublingBuffer (t.exchange i) r buffer).Abides t (Gives fun xs => xs.length = buffer.length)
      fun _ => doublingAgenda (Nat.log2 t.size) d.width (fun _ => buffer.length) i := by
  by_cases hreturn : t.size ≤ 1 ∨ buffer = []
  · have hnothing :
        doublingAgenda (Nat.log2 t.size) d.width (fun _ => buffer.length) i = [] := by
      rcases hreturn with hsize | hempty
      · exact doublingAgenda_of_alone d.width hsize _ i
      · rw [doublingAgenda, hempty, if_pos List.length_nil]
    rw [hnothing, doublingBuffer_of_trivial t r i hreturn]
    exact .ret rfl
  · have hcount : buffer.length ≠ 0 :=
      fun h => hreturn (.inr (List.eq_nil_of_length_eq_zero h))
    unfold doublingAgenda
    rw [if_neg hcount, doublingBuffer_exchange t r i hreturn hfit]
    by_cases hi : 2 ^ Nat.log2 t.size ≤ i.val
    · rw [if_pos hi, if_pos hi]
      exact abides_beyond hi rfl
    · rw [if_neg hi, if_neg hi]
      exact abides_inside r (Nat.lt_of_not_le hi) rfl

/-- The program of a member in recursive doubling follows the agenda for its own count. -/
theorem follows_doublingBuffer (x : Fin t.size → List d.Elem) (i : Fin t.size)
    (hx : (x i).length * d.width < Index.limit) :
    (member doublingBuffer (t.exchange i) r (x i)).Follows t (fun _ => True)
      (doublingAgenda (Nat.log2 t.size) d.width (fun i => (x i).length) i) :=
  ((abides_doublingBuffer r hx i).gives_bind_ret fun _ _ => ⟨_, rfl, trivial⟩).follows

end Allreduce

end Collectives
