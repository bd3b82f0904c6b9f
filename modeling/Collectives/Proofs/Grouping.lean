import Collectives.Proofs.Requests

/-!
# Groups from lists of ranks

A list of ranks may repeat itself and may name ranks that do not exist.  `Answers` says what a
communicator makes of it: one refusal for each thing that can be wrong, in order, and otherwise a
group in which positions and ranks translate into each other.

The members are the ranks of the list, each where it first occurred.  That is all there is to say
about them (`Group.FirstOccurrences.unique`), so members that pass lists with the same first
occurrences agree on the group; their own positions are all that sets their views apart
(`Communicator.group_alike`).
-/

namespace Collectives

namespace Group

/-! ## First occurrences -/

/-- The ranks are those of the list, in the order in which they first occur there. -/
structure FirstOccurrences (list ranks : List Rank) : Prop where
  mem : ∀ r, r ∈ ranks ↔ r ∈ list
  ordered : ranks.Pairwise fun r s => list.idxOf r < list.idxOf s

variable {list ranks : List Rank}

theorem FirstOccurrences.nodup (h : FirstOccurrences list ranks) : ranks.Nodup := by
  refine List.Pairwise.imp ?_ h.ordered
  rintro r _ hlt rfl
  exact Nat.lt_irrefl _ hlt

/-- Only one list is that of the first occurrences. -/
theorem FirstOccurrences.unique {ranks' : List Rank} (h : FirstOccurrences list ranks)
    (h' : FirstOccurrences list ranks') : ranks = ranks' := by
  have hperm : ranks.Perm ranks' :=
    (List.perm_ext_iff_of_nodup h.nodup h'.nodup).2 fun r => (h.mem r).trans (h'.mem r).symm
  refine hperm.eq_of_pairwise ?_ h.ordered h'.ordered
  intro r s _ _ hrs hsr
  exact absurd hsr (Nat.lt_asymm hrs)

/-- The first rank of a list comes before all others, which keep their order. -/
theorem firstOccurrences_distinct (list : List Rank) : FirstOccurrences list (distinct list) := by
  refine ⟨fun _ => mem_distinct, ?_⟩
  induction list with
  | nil => exact List.Pairwise.nil
  | cons r rs ih =>
    have hlater : ∀ {s}, s ≠ r → (r :: rs).idxOf s = rs.idxOf s + 1 := fun hs =>
      List.idxOf_cons_ne rs hs.symm
    refine List.pairwise_cons.2 ⟨fun s hs => ?_, List.Pairwise.imp_of_mem ?_ (ih.filter _)⟩
    · have hne : s ≠ r := by simpa using (List.mem_filter.1 hs).2
      rw [List.idxOf_cons_self, hlater hne]
      exact Nat.succ_pos _
    · intro s t hs ht hlt
      have hs : s ≠ r := by simpa using (List.mem_filter.1 hs).2
      have ht : t ≠ r := by simpa using (List.mem_filter.1 ht).2
      rw [hlater hs, hlater ht]
      exact Nat.succ_lt_succ hlt

theorem distinct_eq_iff : distinct list = ranks ↔ FirstOccurrences list ranks := by
  constructor
  · rintro rfl
    exact firstOccurrences_distinct list
  · exact (firstOccurrences_distinct list).unique

/-- What is looked for is found where it first occurred. -/
theorem find?_distinct (p : Rank → Bool) (list : List Rank) :
    (distinct list).find? p = list.find? p := by
  induction list with
  | nil => rfl
  | cons r rs ih =>
    rw [distinct]
    by_cases hr : p r
    · rw [List.find?_cons_of_pos hr, List.find?_cons_of_pos hr]
    · -- what is dropped later on is not what is looked for
      rw [List.find?_cons_of_neg hr, List.find?_cons_of_neg hr, List.find?_filter, ← ih]
      congr 1
      funext s
      by_cases hs : s = r
      · subst hs
        simp [hr]
      · simp [hs]

/-! ## Positions and ranks -/

variable {g : Group} {i : Nat} {r : Rank}

theorem globalRank?_eq_some_iff : g.globalRank? i = some r ↔ g.localRank? r = some i := by
  rw [localRank?, List.idxOf?_eq_some_iff, globalRank?, List.getElem?_eq_some_iff]
  constructor
  · rintro ⟨hi, hr⟩
    refine ⟨hi, hr, fun j hj hjr => ?_⟩
    have hij : i = j := g.nodup.getElem_inj_iff.1 (hr.trans hjr.symm)
    omega
  · rintro ⟨hi, hr, -⟩
    exact ⟨hi, hr⟩

theorem isSome_globalRank? : (g.globalRank? i).isSome ↔ i < g.size := by
  simp [globalRank?, size]

theorem isSome_localRank? : (g.localRank? r).isSome ↔ r ∈ g.ranks := List.isSome_idxOf?

theorem contains_iff : g.contains r ↔ r ∈ g.ranks := decide_eq_true_iff

/-- The group that a list of ranks stands for, as the caller sees it. -/
structure Represents (g : Group) (list : List Rank) (caller : Rank) : Prop where
  /-- The members are the ranks of the list, in the order in which they first occur. -/
  ranks : FirstOccurrences list g.ranks
  /-- Positions and ranks translate into each other. -/
  inverse : ∀ i r, g.globalRank? i = some r ↔ g.localRank? r = some i
  /-- The positions are those below the size. -/
  positions : ∀ i, (g.globalRank? i).isSome ↔ i < g.size
  /-- The members have a position, and no other ranks. -/
  members : ∀ r, (g.localRank? r).isSome ↔ r ∈ g.ranks
  contains : ∀ r, g.contains r ↔ (g.localRank? r).isSome
  listed : ∀ r, g.contains r ↔ r ∈ list
  /-- The own position is that of the caller. -/
  own : g.globalRank? g.localRank = some caller

/-- All but the caller follows from the members alone. -/
theorem FirstOccurrences.represents (h : FirstOccurrences list g.ranks) :
    g.Represents list g.rank where
  ranks := h
  inverse _ _ := globalRank?_eq_some_iff
  positions _ := isSome_globalRank?
  members _ := isSome_localRank?
  contains _ := contains_iff.trans isSome_localRank?.symm
  listed r := contains_iff.trans (h.mem r)
  own := g.globalRank?_localRank

/-! ## Building a group -/

variable {c : Context} {generation : Nat}

theorem isEmpty_distinct (hlist : list ≠ []) : (distinct list).isEmpty = false := by
  obtain ⟨r, hr⟩ := List.exists_mem_of_ne_nil list hlist
  exact List.isEmpty_eq_false_iff_exists_mem.2 ⟨r, mem_distinct.2 hr⟩

theorem create_of_outOfRange {bad : Rank} (hbad : list.find? (fun r => c.size ≤ r) = some bad) :
    create c list generation = .error (.invalidRank bad c.size) := by
  have hlist : list ≠ [] := by
    rintro rfl
    cases hbad
  simp only [create, isEmpty_distinct hlist, find?_distinct, hbad]
  rfl

theorem find?_outOfRange_eq_none (hrange : ∀ r ∈ list, r < c.size) :
    list.find? (fun r => c.size ≤ r) = none :=
  List.find?_eq_none.2 fun r hr => by simpa using hrange r hr

theorem create_of_stranger (hlist : list ≠ []) (hrange : ∀ r ∈ list, r < c.size)
    (hrank : c.rank ∉ list) :
    create c list generation = .error (.notAMember c.rank (distinct list)) := by
  simp only [create, isEmpty_distinct hlist, find?_distinct, find?_outOfRange_eq_none hrange,
    mem_distinct, dif_neg hrank]
  rfl

theorem exists_create_of_member (hlist : list ≠ []) (hrange : ∀ r ∈ list, r < c.size)
    (hrank : c.rank ∈ list) : ∃ g, create c list generation = .ok g := by
  simp only [create, isEmpty_distinct hlist, find?_distinct, find?_outOfRange_eq_none hrange,
    mem_distinct, dif_pos hrank]
  exact ⟨_, rfl⟩

/-- A group that is created is that of the list, and the process of the context looks at it. -/
theorem view_of_create {g : Group} (h : create c list generation = .ok g) :
    FirstOccurrences list g.ranks ∧ g.rank = c.rank := by
  unfold create at h
  dsimp only at h
  split at h
  · cases h
  · split at h
    · cases h
    · split at h
      · next hmem =>
        cases h
        exact ⟨firstOccurrences_distinct list, List.getElem_idxOf _⟩
      · cases h

end Group

namespace Communicator

variable {c c' other other' : Communicator} {list list' ranks : List Rank} {g g' : Group}

theorem group_eq_error {e : Error}
    (h : Group.create c.context list (c.generation (Group.distinct list)) = .error e) :
    c.group list = .error e := by
  rw [group, h]
  rfl

/-- A group that is built is that of the list, and the rank of the communicator looks at it. -/
theorem view_of_group (h : c.group list = .ok (g, c')) :
    Group.FirstOccurrences list g.ranks ∧ g.rank = c.rank := by
  obtain ⟨g', hcreate, h⟩ := exists_of_bind_eq_ok h
  cases h
  exact Group.view_of_create hcreate

/-- Members of different rank that build a group on the same ranks, as often before, get the same
group and positions of their own. -/
theorem group_alike (hrank : other.rank ≠ c.rank) (hlist : Group.FirstOccurrences list ranks)
    (hlist' : Group.FirstOccurrences list' ranks)
    (hgeneration : other.generation ranks = c.generation ranks)
    (h : c.group list = .ok (g, c')) (h' : other.group list' = .ok (g', other')) :
    g'.ranks = g.ranks ∧ g'.id = g.id ∧ g'.localRank ≠ g.localRank := by
  obtain ⟨hranks, hview⟩ := view_of_group h
  obtain ⟨hranks', hview'⟩ := view_of_group h'
  have hsame : g'.ranks = g.ranks := (hranks'.unique hlist').trans (hranks.unique hlist).symm
  refine ⟨hsame, ?_, fun hlocal => hrank ?_⟩
  · rw [(of_group h).1, (of_group h').1, Group.distinct_eq_iff.2 hlist,
      Group.distinct_eq_iff.2 hlist', hgeneration]
  · have hglobal := g'.globalRank?_localRank
    rw [hlocal, Group.globalRank?, hsame, ← Group.globalRank?, g.globalRank?_localRank,
      Option.some_inj] at hglobal
    rw [← hview, ← hview', hglobal]

/-- What a communicator makes of a list of ranks. -/
structure Answers (c : Communicator) (list : List Rank) : Prop where
  /-- That there is no rank at all is said first. -/
  empty : list = [] → c.group list = .error .emptyGroup
  /-- Of the ranks that do not exist the first one is named. -/
  outOfRange : ∀ bad, list.find? (fun r => c.context.size ≤ r) = some bad →
    c.group list = .error (.invalidRank bad c.context.size)
  /-- Who is not in the list is told who is. -/
  stranger : list ≠ [] → (∀ r ∈ list, r < c.context.size) → c.rank ∉ list →
    ∃ ranks, Group.FirstOccurrences list ranks ∧
      c.group list = .error (.notAMember c.rank ranks)
  /-- Who is in the list gets the group of the list. -/
  member : list ≠ [] → (∀ r ∈ list, r < c.context.size) → c.rank ∈ list →
    ∃ g c', c.group list = .ok (g, c') ∧ g.Represents list c.rank
  /-- Whoever builds a group on the same ranks, as often before, gets the same group and a
  position of its own. -/
  agrees : ∀ (other : Communicator) (list' ranks : List Rank) (g g' : Group)
    (c' other' : Communicator), other.rank ≠ c.rank →
      Group.FirstOccurrences list ranks → Group.FirstOccurrences list' ranks →
      other.generation ranks = c.generation ranks →
      c.group list = .ok (g, c') → other.group list' = .ok (g', other') →
      g'.ranks = g.ranks ∧ g'.id = g.id ∧ g'.same g ∧ g'.localRank ≠ g.localRank

/-- Every list of ranks is answered so, whatever the size of the world and whoever asks. -/
theorem answers_group (c : Communicator) (list : List Rank) : c.Answers list where
  empty h := by
    subst h
    rfl
  outOfRange bad hbad := group_eq_error (Group.create_of_outOfRange hbad)
  stranger hlist hrange hrank :=
    ⟨_, Group.firstOccurrences_distinct list,
      group_eq_error (Group.create_of_stranger hlist hrange hrank)⟩
  member hlist hrange hrank := by
    obtain ⟨g, hcreate⟩ := Group.exists_create_of_member hlist hrange hrank
    obtain ⟨g, c', hgroup⟩ : ∃ g c', c.group list = .ok (g, c') :=
      ⟨_, _, bind_of_eq_ok hcreate⟩
    obtain ⟨hranks, hview⟩ := view_of_group hgroup
    exact ⟨g, c', hgroup, hview ▸ hranks.represents⟩
  agrees other list' ranks g g' c' other' hrank hlist hlist' hgeneration h h' := by
    obtain ⟨hranks, hid, hlocal⟩ := group_alike hrank hlist hlist' hgeneration h h'
    exact ⟨hranks, hid, by rw [Group.same, hranks, hid, BEq.rfl, BEq.rfl]; rfl, hlocal⟩

/-- Ranks 0 and 2 of three spell the group of the two differently. -/
theorem answers_group_pair :
    let first : Communicator := ⟨⟨0, 3, by decide⟩, .standard, .empty⟩
    let second : Communicator := ⟨⟨2, 3, by decide⟩, .standard, .empty⟩
    ∃ g g' c c', first.group [2, 0, 2] = .ok (g, c) ∧ second.group [2, 2, 0, 0] = .ok (g', c') ∧
      g.localRank? 0 = some 1 ∧ g'.same g ∧ g'.localRank ≠ g.localRank ∧
      first.group [1, 7, 3] = .error (.invalidRank 7 3) := by
  intro first second
  have hrange : ∀ r ∈ [2, 0, 2], r < first.context.size := by simp [first]
  have hrange' : ∀ r ∈ [2, 2, 0, 0], r < second.context.size := by simp [second]
  obtain ⟨g, c, hgroup, hrepresents⟩ := (answers_group first [2, 0, 2]).member (by decide)
    hrange (by decide)
  obtain ⟨g', c', hgroup', -⟩ := (answers_group second [2, 2, 0, 0]).member (by decide)
    hrange' (by decide)
  have hlist : Group.FirstOccurrences [2, 0, 2] [2, 0] := Group.distinct_eq_iff.1 rfl
  have hlist' : Group.FirstOccurrences [2, 2, 0, 0] [2, 0] := Group.distinct_eq_iff.1 rfl
  obtain ⟨-, -, hsame, hlocal⟩ := (answers_group first [2, 0, 2]).agrees second [2, 2, 0, 0] [2, 0]
    g g' c c' (by decide) hlist hlist' rfl hgroup hgroup'
  have hindex : g.globalRank? 1 = some 0 := by
    rw [Group.globalRank?, hrepresents.ranks.unique hlist]
    rfl
  exact ⟨g, g', c, c', hgroup, hgroup', (hrepresents.inverse 1 0).1 hindex, hsame, hlocal,
    (answers_group first [1, 7, 3]).outOfRange 7 rfl⟩

end Communicator

end Collectives
