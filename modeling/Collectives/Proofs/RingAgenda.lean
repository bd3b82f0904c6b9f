import Collectives.Proofs.Allreduce
import Collectives.Proofs.Encounters
import Collectives.Proofs.Layout
import Collectives.Proofs.Ring

/-!
# The agenda of the ring allreduce

The sizes of the messages of a ring allreduce are those of the chunks, which each member works
out from its own count.  When the counts differ, the first wrong size may cross a link as late as
in the second pass, since two layouts can agree in all chunks but one.

Still nobody gets through (`count_eq_of_done`).  A member that has completed `m` rounds has made
its predecessor send `m` messages, so that one has completed `m - 1` rounds.  Going back from a
member that has completed all `2 * (n - 1)` rounds, everyone but the last has completed at least
`n` rounds; in `n` rounds all chunks pass, and then the counts of the member and its predecessor
agree.
-/

namespace Collectives

namespace RingOrder

variable {n : Nat}

/-- The slots that a member sends and receives in a pass. -/
def passSlots (lead : Nat) (i : Fin n) (step m : Nat) : List (Fin n × Fin n) :=
  (List.range' step m).map fun k => (behind (ahead i lead) k, behind (ahead i lead) (k + 1))

/-- The slots that a member sends and receives in the two passes of an allreduce. -/
def ringSlots (i : Fin n) : List (Fin n × Fin n) :=
  passSlots 0 i 0 (n - 1) ++ passSlots 1 i 0 (n - 1)

/-- The agenda for these slots: in each round one is sent on and the other one received. -/
def slotActs (size : Fin n → Nat) (i : Fin n) (slots : List (Fin n × Fin n)) : List (Act n) :=
  slots.flatMap fun slot => [.send (ahead i 1) (size slot.1), .recv (behind i 1) (size slot.2)]

theorem passSlots_succ (lead : Nat) (i : Fin n) (step m : Nat) :
    passSlots lead i step (m + 1) =
      [(behind (ahead i lead) step, behind (ahead i lead) (step + 1))] ++
        passSlots lead i (step + 1) m := by
  rw [passSlots, List.range'_succ, List.map_cons]
  rfl

theorem slotActs_cons (size : Fin n → Nat) (i : Fin n) (slot : Fin n × Fin n)
    (slots : List (Fin n × Fin n)) :
    slotActs size i (slot :: slots) =
      .send (ahead i 1) (size slot.1) :: .recv (behind i 1) (size slot.2) ::
        slotActs size i slots :=
  List.flatMap_cons

theorem slotActs_append (size : Fin n → Nat) (i : Fin n) (slots slots' : List (Fin n × Fin n)) :
    slotActs size i (slots ++ slots') = slotActs size i slots ++ slotActs size i slots' :=
  List.flatMap_append

theorem length_ringSlots (i : Fin n) : (ringSlots i).length = 2 * (n - 1) := by
  rw [ringSlots, passSlots, passSlots, List.length_append, List.length_map, List.length_map,
    List.length_range']
  omega

theorem sizesTo_slotActs (size : Fin n → Nat) (i : Fin n) (slots : List (Fin n × Fin n)) :
    sizesTo (ahead i 1) (slotActs size i slots) = slots.map fun slot => size slot.1 := by
  induction slots with
  | nil => rfl
  | cons slot slots ih =>
    rw [slotActs_cons, sizesTo_send, if_pos rfl, sizesTo_recv, ih, List.map_cons]

theorem sizesFrom_slotActs (size : Fin n → Nat) (i : Fin n) (slots : List (Fin n × Fin n)) :
    sizesFrom (behind i 1) (slotActs size i slots) = slots.map fun slot => size slot.2 := by
  induction slots with
  | nil => rfl
  | cons slot slots ih =>
    rw [slotActs_cons, sizesFrom_send, sizesFrom_recv, if_pos rfl, ih, List.map_cons]

/-- A member sends once more than it has received, at most. -/
theorem length_sizesTo_le {size : Fin n → Nat} {i : Fin n} {slots : List (Fin n × Fin n)}
    {done : List (Act n)} (h : done <+: slotActs size i slots) :
    (sizesTo (ahead i 1) done).length ≤ (sizesFrom (behind i 1) done).length + 1 := by
  induction slots generalizing done with
  | nil =>
    rw [List.prefix_nil.1 h]
    exact Nat.zero_le _
  | cons slot slots ih =>
    rw [slotActs_cons] at h
    rcases List.prefix_cons_iff.1 h with rfl | ⟨done, rfl, hrecv⟩
    · exact Nat.zero_le _
    · rcases List.prefix_cons_iff.1 hrecv with rfl | ⟨done, rfl, hrest⟩
      · simp
      · have hle := ih hrest
        simp only [sizesTo_send, sizesTo_recv, sizesFrom_send, sizesFrom_recv, if_true,
          List.length_cons]
        omega

/-- In each round a member receives the slot that the member before it sends. -/
theorem map_snd_ringSlots (i : Fin n) :
    (ringSlots i).map Prod.snd = (ringSlots (behind i 1)).map Prod.fst := by
  have hpass : ∀ lead, (passSlots lead i 0 (n - 1)).map Prod.snd =
      (passSlots lead (behind i 1) 0 (n - 1)).map Prod.fst := by
    intro lead
    rw [passSlots, passSlots, List.map_map, List.map_map]
    refine List.map_congr_left ?_
    intro k hk
    have hlt := (List.mem_range'_1.1 hk).2
    exact (slot_previous i (by omega)).symm
  rw [ringSlots, ringSlots, List.map_append, List.map_append, hpass, hpass]

/-- In the first `n` rounds each slot is received once: that of the member itself in the last
of them, which is the first one of the second pass. -/
theorem exists_received (hn : 2 ≤ n) (i c : Fin n) :
    ∃ k < n, ((ringSlots i).map Prod.snd)[k]? = some c := by
  have hgap := gap_lt i c
  have hback := behind_gap i c
  rw [ringSlots, List.map_append]
  rcases Nat.eq_zero_or_pos (gap i c) with hzero | hpos
  · rw [hzero, behind_zero] at hback
    refine ⟨n - 1, by omega, ?_⟩
    have hlength : ((passSlots 0 i 0 (n - 1)).map Prod.snd).length = n - 1 := by
      simp [passSlots]
    rw [List.getElem?_append_right (Nat.le_of_eq hlength), hlength, Nat.sub_self]
    have hfirst : 0 < n - 1 := by omega
    simp [passSlots, hfirst, behind_ahead_one, hback]
  · refine ⟨gap i c - 1, by omega, ?_⟩
    have hlt : gap i c - 1 < n - 1 := by omega
    have hsucc : gap i c - 1 + 1 = gap i c := by omega
    rw [List.getElem?_append_left (by simpa [passSlots] using hlt)]
    simp [passSlots, hlt, hsucc, hback]

/-! ## Counts that differ -/

/-- The sizes of the chunks of a buffer with this count. -/
def chunkSizes (width count : Nat) (c : Fin n) : Nat := ChunkLayout.chunkLength count n c * width

/-- The agenda of a member in a ring allreduce, where each has its own count.  Who has nothing
sends and receives nothing. -/
def ringAgenda (width : Nat) (count : Fin n → Nat) (i : Fin n) : List (Act n) :=
  slotActs (chunkSizes width (count i)) i (if count i = 0 then [] else ringSlots i)

theorem getElem?_of_isPrefix {α : Type} {xs ys : List α} (h : xs <+: ys) {k : Nat}
    (hk : k < xs.length) : xs[k]? = ys[k]? := by
  rw [List.getElem?_eq_getElem hk, List.prefix_iff_getElem?.1 h k hk]

variable {width : Nat} {count : Fin n → Nat} {done : Fin n → List (Act n)}

/-- The chunk lengths determine the count. -/
theorem count_eq_of_chunkSizes (hwidth : 0 < width) (hn : 0 < n) {a b : Nat}
    (h : ∀ c : Fin n, chunkSizes width a c = chunkSizes width b c) : a = b := by
  have hlength : (fun c : Fin n => ChunkLayout.chunkLength a n c) =
      fun c : Fin n => ChunkLayout.chunkLength b n c :=
    funext fun c => Nat.eq_of_mul_eq_mul_right hwidth (h c)
  calc
    a = (List.ofFn fun c : Fin n => ChunkLayout.chunkLength a n c).sum :=
      (ChunkLayout.sum_ofFn_chunkLength a hn).symm
    _ = (List.ofFn fun c : Fin n => ChunkLayout.chunkLength b n c).sum := by rw [hlength]
    _ = b := ChunkLayout.sum_ofFn_chunkLength b hn

/-- What a member has received are the first of the slots that come to it. -/
theorem sizesFrom_done (hc : Consistent (ringAgenda width count) done) (i : Fin n) :
    sizesFrom (behind i 1) (done i) <+:
      (if count i = 0 then [] else ringSlots i).map
        fun slot => chunkSizes width (count i) slot.2 := by
  have hbegun := sizesFrom_mono (behind i 1) (hc.begun i)
  rwa [ringAgenda, sizesFrom_slotActs] at hbegun

/-- What a member has sent are the first of the slots that go out from it. -/
theorem sizesTo_done (hc : Consistent (ringAgenda width count) done) (i : Fin n) :
    sizesTo (ahead i 1) (done i) <+:
      (if count i = 0 then [] else ringSlots i).map
        fun slot => chunkSizes width (count i) slot.1 := by
  have hbegun := sizesTo_mono (ahead i 1) (hc.begun i)
  rwa [ringAgenda, sizesTo_slotActs] at hbegun

/-- A member that has completed `n` rounds has the count of its predecessor. -/
theorem count_behind_one (hwidth : 0 < width) (hn : 2 ≤ n)
    (hc : Consistent (ringAgenda width count) done) {i : Fin n}
    (hrounds : n ≤ (sizesFrom (behind i 1) (done i)).length) :
    count (behind i 1) = count i := by
  have hmatched := hc.matched i (behind i 1)
  have hreceived := sizesFrom_done hc i
  have hsent := sizesTo_done hc (behind i 1)
  rw [ahead_behind_one] at hsent
  have hown : count i ≠ 0 := by
    intro hzero
    rw [if_pos hzero, List.map_nil] at hreceived
    have hle := hreceived.length_le
    rw [List.length_nil] at hle
    omega
  have hprevious : count (behind i 1) ≠ 0 := by
    intro hzero
    rw [if_pos hzero, List.map_nil] at hsent
    have hle := (hmatched.trans hsent).length_le
    rw [List.length_nil] at hle
    omega
  rw [if_neg hown] at hreceived
  rw [if_neg hprevious] at hsent
  refine count_eq_of_chunkSizes hwidth (Nat.zero_lt_of_lt hn) ?_
  intro c
  -- the size of slot `c` as it was sent and as it was received
  obtain ⟨k, hk, hslot⟩ := exists_received hn i c
  have hslot' := hslot
  rw [map_snd_ringSlots] at hslot'
  have hlt := hk.trans_le hrounds
  have hget := (getElem?_of_isPrefix hreceived hlt).symm.trans
    (getElem?_of_isPrefix (hmatched.trans hsent) hlt)
  rw [List.getElem?_map, List.getElem?_map] at hget
  rw [List.getElem?_map] at hslot hslot'
  obtain ⟨slot, hreceives, hsnd⟩ := Option.map_eq_some_iff.1 hslot
  obtain ⟨slot', hsends, hfst⟩ := Option.map_eq_some_iff.1 hslot'
  rw [hreceives, hsends, Option.map_some, Option.map_some, Option.some_inj, hsnd, hfst] at hget
  exact hget.symm

theorem behind_succ (i : Fin n) {k : Nat} (hk : k < n) :
    behind (behind i k) 1 = behind i (k + 1) := by
  have hi := i.isLt
  ext
  rw [val_behind _ i.pos, val_behind _ (Nat.le_of_lt hk), val_behind _ hk]
  split <;> split <;> split <;> omega

/-- Going back from a member that has worked off all of its agenda, the members have its count,
and each has completed one round less than the one after it. -/
theorem rounds_behind (hwidth : 0 < width) (hn : 2 ≤ n)
    (hc : Consistent (ringAgenda width count) done) {i : Fin n} (hcount : count i ≠ 0)
    (hi : done i = ringAgenda width count i) (k : Nat) (hk : k < n) :
    count (behind i k) = count i ∧
      2 * (n - 1) - k ≤ (sizesFrom (behind (behind i k) 1) (done (behind i k))).length := by
  induction k with
  | zero =>
    rw [behind_zero, hi, ringAgenda, if_neg hcount, sizesFrom_slotActs, List.length_map,
      length_ringSlots]
    exact ⟨rfl, Nat.le_refl _⟩
  | succ k ih =>
    obtain ⟨hsame, hrounds⟩ := ih (by omega)
    have hprevious : count (behind (behind i k) 1) = count (behind i k) :=
      count_behind_one hwidth hn hc (by omega)
    have hsent := (hc.matched (behind i k) (behind (behind i k) 1)).length_le
    have hreceived := length_sizesTo_le (hc.begun (behind (behind i k) 1))
    rw [ahead_behind_one] at hreceived
    rw [← behind_succ i (by omega)]
    exact ⟨hprevious.trans hsame, by omega⟩

/-- A member that has something to reduce works off all of its agenda only where all counts
agree. -/
theorem count_eq_of_done (hwidth : 0 < width) (hn : 2 ≤ n)
    (hc : Consistent (ringAgenda width count) done) {i : Fin n} (hcount : count i ≠ 0)
    (hi : done i = ringAgenda width count i) (j : Fin n) : count j = count i := by
  have hback := (rounds_behind hwidth hn hc hcount hi (gap i j) (gap_lt i j)).1
  rwa [behind_gap] at hback

end RingOrder

/-! ## The program follows the agenda -/

namespace Allreduce

open RingOrder

variable {d : DataType} {t : Team}

/-- The chunks have these lengths. -/
def Shaped {n : Nat} (length : Fin n → Nat) (chunks : List (List d.Elem)) : Prop :=
  chunks.map List.length = List.ofFn length

theorem Shaped.getElem? {n : Nat} {length : Fin n → Nat} {chunks : List (List d.Elem)}
    (h : Shaped length chunks) (c : Fin n) :
    ∃ chunk, chunks[c.val]? = some chunk ∧ chunk.length = length c := by
  have hget := congrArg (fun lengths : List Nat => lengths[c.val]?) h
  simp only [List.getElem?_map, List.getElem?_ofFn, dif_pos c.isLt] at hget
  exact Option.map_eq_some_iff.1 hget

theorem Shaped.mergeChunk? {n : Nat} {length : Fin n → Nat} {chunks : List (List d.Elem)}
    (h : Shaped length chunks) (c : Fin n) {incoming : List d.Elem}
    (hincoming : incoming.length = length c) {merge : List d.Elem → List d.Elem → List d.Elem}
    (hmerge : ∀ a b : List d.Elem, a.length = b.length → (merge a b).length = a.length) :
    ∃ chunks', Allreduce.mergeChunk? chunks c incoming merge = some chunks' ∧
      Shaped length chunks' := by
  obtain ⟨chunk, hchunk, hlength⟩ := h.getElem? c
  have hsame : chunk.length = incoming.length := by rw [hlength, hincoming]
  refine ⟨chunks.set c (merge chunk incoming), ?_, ?_⟩
  · rw [Allreduce.mergeChunk?, hchunk]
    exact if_pos hsame.symm
  · have hget : (chunks.map List.length)[c.val]? = some chunk.length := by
      rw [List.getElem?_map, hchunk, Option.map_some]
    obtain ⟨hlt, hget⟩ := List.getElem?_eq_some_iff.1 hget
    rw [Shaped, List.map_set, hmerge _ _ hsame, ← hget, List.set_getElem_self]
    exact h

/-- Chunks of these lengths put together are as long as the buffer. -/
theorem Shaped.length_flatten {n : Nat} (hn : 0 < n) {count : Nat}
    {chunks : List (List d.Elem)}
    (h : Shaped (fun c : Fin n => ChunkLayout.chunkLength count n c) chunks) :
    chunks.flatten.length = count := by
  rw [List.length_flatten, h, ChunkLayout.sum_ofFn_chunkLength count hn]

theorem abides_ringRound {layout : ChunkLayout}
    {merge : List d.Elem → List d.Elem → List d.Elem} {length : Fin t.size → Nat}
    (hlayout : ∀ c : Fin t.size, layout.length? c = some (length c))
    (hfit : ∀ c, length c * d.width < Index.limit)
    (hmerge : ∀ a b : List d.Elem, a.length = b.length → (merge a b).length = a.length)
    {chunks : List (List d.Elem)} (hchunks : Shaped length chunks) (i out into : Fin t.size) :
    (ringRound (t.exchange i) layout merge chunks out into).Abides t (Gives (Shaped length))
      fun _ => slotActs (fun c => length c * d.width) i [(out, into)] := by
  obtain ⟨outgoing, hout, hlength⟩ := hchunks.getElem? out
  have hexpected : Index.mul? (length into) d.width = some (length into * d.width) :=
    if_pos (hfit into)
  have hexchange := t.abides_sendRecv i (ahead i 1) (behind i 1) (d.encode outgoing)
    (length into * d.width)
  rw [DataType.length_encode, hlength] at hexchange
  rw [ringRound, t.size_exchange, t.localRank_exchange, t.ahead?_one, t.behind?_val i i.pos, hout,
    hlayout]
  simp only [Program.demand_some, Program.ret_bind, hexpected]
  refine hexchange.gives_bind_ret fun received hreceived => ?_
  obtain ⟨incoming, hdecode, hincoming⟩ := decode_of_length hreceived
  obtain ⟨chunks', hmerged, hshaped⟩ := hchunks.mergeChunk? into hincoming hmerge
  exact ⟨chunks', by rw [hdecode, Program.ofExcept_ok, Program.ret_bind, hmerged]; rfl, hshaped⟩

theorem abides_ringPass {layout : ChunkLayout}
    {merge : List d.Elem → List d.Elem → List d.Elem} {length : Fin t.size → Nat}
    (hlayout : ∀ c : Fin t.size, layout.length? c = some (length c))
    (hfit : ∀ c, length c * d.width < Index.limit)
    (hmerge : ∀ a b : List d.Elem, a.length = b.length → (merge a b).length = a.length)
    {lead : Nat} (hlead : lead ≤ 1) (i : Fin t.size) (step m : Nat) (h : step + m < t.size)
    {chunks : List (List d.Elem)} (hchunks : Shaped length chunks) :
    (ringPass (t.exchange i) layout merge (i + lead) chunks step m).Abides t
      (Gives (Shaped length))
      fun _ => slotActs (fun c => length c * d.width) i (passSlots lead i step m) := by
  induction m generalizing step chunks with
  | zero => exact .ret hchunks
  | succ m ih =>
    rw [ringPass, t.size_exchange, t.behind?_add i hlead (by omega),
      t.behind?_add i hlead (by omega), passSlots_succ, slotActs_append]
    have hround := abides_ringRound hlayout hfit hmerge hchunks i
      (behind (ahead i lead) step) (behind (ahead i lead) (step + 1))
    exact hround.gives_bind fun chunks' hchunks' => ih (step + 1) (by omega) hchunks'

theorem abides_passes (r : Reducer d) {buffer : List d.Elem}
    (hfit : buffer.length * d.width < Index.limit) (h : ¬(t.size ≤ 1 ∨ buffer = []))
    (i : Fin t.size) :
    (ringBuffer (t.exchange i) r buffer).Abides t (Gives fun xs => xs.length = buffer.length)
      fun _ => slotActs (chunkSizes d.width buffer.length) i (ringSlots i) := by
  have hpos := t.size_pos
  have hlayout : ∀ c : Fin t.size, (ChunkLayout.ofCount buffer.length t.size).length? c =
      some (ChunkLayout.chunkLength buffer.length t.size c) :=
    fun c => ChunkLayout.length?_ofCount _ c.isLt
  have hchunk : ∀ c : Fin t.size,
      ChunkLayout.chunkLength buffer.length t.size c * d.width < Index.limit :=
    fun c => ChunkLayout.chunkLength_mul_lt hfit c.isLt
  have hcut : Shaped (fun c : Fin t.size => ChunkLayout.chunkLength buffer.length t.size c)
      (List.ofFn fun c : Fin t.size => ChunkLayout.chunk buffer.length t.size c buffer) := by
    rw [Shaped, List.map_ofFn]
    exact congrArg List.ofFn (funext fun c => ChunkLayout.length_chunk rfl c.isLt)
  have hreduce : ∀ a b : List d.Elem, a.length = b.length →
      (r.reduceRev a b).length = a.length :=
    fun _ _ hab => length_reduce_of_eq r hab.symm rfl
  have hreplace : ∀ a b : List d.Elem, a.length = b.length → b.length = a.length :=
    fun _ _ => Eq.symm
  rw [ringBuffer_exchange t r i h, ringSlots, slotActs_append]
  refine (abides_ringPass hlayout hchunk hreduce (Nat.zero_le 1) i 0 (t.size - 1)
    (by omega) hcut).gives_bind fun chunks hchunks => ?_
  refine (abides_ringPass hlayout hchunk hreplace (Nat.le_refl 1) i 0 (t.size - 1) (by omega)
    hchunks).gives_bind_ret fun chunks hchunks => ?_
  exact ⟨_, rfl, hchunks.length_flatten hpos⟩

/-- The program of a member of a ring allreduce abides by the agenda for its own count, and gives
a buffer of this count. -/
theorem abides_ringBuffer (r : Reducer d) {buffer : List d.Elem}
    (hfit : buffer.length * d.width < Index.limit) (i : Fin t.size) :
    (ringBuffer (t.exchange i) r buffer).Abides t (Gives fun xs => xs.length = buffer.length)
      fun _ => ringAgenda d.width (fun _ => buffer.length) i := by
  unfold ringAgenda
  by_cases hreturn : t.size ≤ 1 ∨ buffer = []
  · have hnothing : (if buffer.length = 0 then [] else ringSlots i) = [] := by
      rcases hreturn with hsize | hempty
      · split
        · rfl
        · exact List.eq_nil_of_length_eq_zero (by rw [length_ringSlots]; omega)
      · rw [hempty, if_pos List.length_nil]
    rw [hnothing, ringBuffer_of_trivial t r i hreturn]
    exact .ret rfl
  · have hcount : buffer.length ≠ 0 :=
      fun h => hreturn (.inr (List.eq_nil_of_length_eq_zero h))
    rw [if_neg hcount]
    exact abides_passes r hfit hreturn i

/-- The program of a member of a ring allreduce follows the agenda for its own count. -/
theorem follows_ringBuffer (r : Reducer d) (x : Fin t.size → List d.Elem) (i : Fin t.size)
    (hx : (x i).length * d.width < Index.limit) :
    (member ringBuffer (t.exchange i) r (x i)).Follows t (fun _ => True)
      (ringAgenda d.width (fun i => (x i).length) i) :=
  ((abides_ringBuffer r hx i).gives_bind_ret fun _ _ => ⟨_, rfl, trivial⟩).follows

end Allreduce

end Collectives
