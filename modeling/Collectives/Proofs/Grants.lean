import Mathlib
import Collectives.Proofs.Calls
import Collectives.Proofs.Hashing

/-!
# Identifiers and tags are granted alike

Members agree on the identifiers of their groups and on the tags of their operations without a word
between them: each counts how many groups it has founded on a list of ranks, and how many tags were
drawn from a group.  `grants` lists what the calls of a history hand out.  `Accounted` says that the
counters are the lengths of such lists, so a call that grants nothing moves none of them, and a call
on another list or another group does not move this one.

A group may go by several names, and then all of them count as one (`Clones`).

* `grants_alike`: in any two histories, what is granted depends on the list, on the number of the
  group, and on the number of the tag only.
* `grants_once`: among the first `2 ^ 32` of a kind nothing is granted twice.
-/

namespace Collectives

/-! ## What calls hand out -/

/-- What a call hands out. -/
inductive Grant where
  /-- A group, founded at a rank on a list of distinct ranks. -/
  | group (rank : Rank) (ranks : List Rank) (place : GroupId) (id : UInt64)
  /-- A tag, drawn from a group for an operation or a barrier. -/
  | tag (place : GroupId) (tag : Tag)
  deriving DecidableEq

namespace Grant

/-- The group, if it was founded at this rank on this list. -/
def founded? (rank : Rank) (ranks : List Rank) : Grant → Option (GroupId × UInt64)
  | group r l place id => if r = rank ∧ l = ranks then some (place, id) else none
  | tag _ _ => none

/-- The tag, if it was drawn from this group. -/
def drawn? (place : GroupId) : Grant → Option Tag
  | group _ _ _ _ => none
  | tag p t => if p = place then some t else none

/-- The groups that were founded at a rank on a list, first one first. -/
def founded (rank : Rank) (ranks : List Rank) (grants : List Grant) : List (GroupId × UInt64) :=
  grants.filterMap (founded? rank ranks)

/-- The tags that were drawn from a group, first one first. -/
def drawn (place : GroupId) (grants : List Grant) : List Tag := grants.filterMap (drawn? place)

variable (rank : Rank) (ranks : List Rank) (place : GroupId) (grants : List Grant)

@[simp] theorem founded_append_group (r : Rank) (l : List Rank) (p : GroupId) (id : UInt64) :
    founded rank ranks (grants ++ [.group r l p id]) =
      founded rank ranks grants ++ if r = rank ∧ l = ranks then [(p, id)] else [] := by
  rw [founded, List.filterMap_append]
  by_cases h : r = rank ∧ l = ranks <;> simp [founded, founded?, h]

@[simp] theorem founded_append_tag (p : GroupId) (t : Tag) :
    founded rank ranks (grants ++ [.tag p t]) = founded rank ranks grants := by
  simp [founded, founded?]

@[simp] theorem drawn_append_group (r : Rank) (l : List Rank) (p : GroupId) (id : UInt64) :
    drawn place (grants ++ [.group r l p id]) = drawn place grants := by
  simp [drawn, drawn?]

@[simp] theorem drawn_append_tag (p : GroupId) (t : Tag) :
    drawn place (grants ++ [.tag p t]) =
      drawn place grants ++ if p = place then [t] else [] := by
  rw [drawn, List.filterMap_append]
  by_cases h : p = place <;> simp [drawn, drawn?, h]

end Grant

namespace Session

variable {σ : Type}

/-- What a call hands out that leads from one session to another. -/
def grant? (s s' : Session σ) : Call → Option Grant
  | .group rank name list => do
    let c ← s.communicators.get? rank
    let place ← s'.groups.get? name
    let shared ← s'.pool[place]?
    return .group rank (Group.distinct (list.getD c.context.allRanks)) place shared.group.id
  | .build _ groupName name _ => do
    let place ← s.groups.get? groupName
    let op ← s'.operations.get? name
    return .tag place op.exchange.tag
  | .barrier _ groupName name =>
    match s'.barriers.get? name with
    | some (.ok task) => do
      let place ← s.groups.get? groupName
      let entered ← s'.executor.tasks[task]?
      return .tag place entered.tag
    | _ => none
  | _ => none

section

variable {s s' : Session σ} {rank : Rank} {name groupName : String}

/-- A group that is founded is handed out, as one on the distinct ranks that were asked for. -/
theorem grant?_of_group {list : Option (List Rank)} (h : s.group rank name list = .ok s') :
    ∃ c group c' ranks, s.communicators.get? rank = some c ∧
      ranks = Group.distinct (list.getD c.context.allRanks) ∧
      group.id = Tag.groupId ranks (c.generation ranks) ∧
      (∀ l, c'.generation l = c.generation l + if ranks = l then 1 else 0) ∧
      s' = { s with
        communicators := s.communicators.insert rank c'
        pool := s.pool ++ [{ group }]
        groups := s.groups.insert name s.pool.length } ∧
      s.grant? s' (.group rank name list) = some (.group rank ranks s.pool.length group.id) := by
  obtain ⟨c, group, c', hc, hgroup, rfl⟩ := of_group h
  obtain ⟨hid, hcount⟩ := Communicator.of_group hgroup
  refine ⟨c, group, c', _, hc, rfl, hid, hcount, rfl, ?_⟩
  simp [grant?, hc]

variable [Transport σ]

/-- An operation that is built draws a tag of its group. -/
theorem grant?_of_build {request : Except Error Request}
    (h : s.build rank groupName name request = .ok s') :
    ∃ place shared op, s.groups.get? groupName = some place ∧ s.pool[place]? = some shared ∧
      s' = releaseDeparted { (s.draw place).drop name with
        operations := ((s.draw place).drop name).operations.insert name op } ∧
      s.grant? s' (.build rank groupName name request) =
        some (.tag place (shared.group.tag shared.drawn)) := by
  obtain ⟨c, place, shared, r, op, -, hgroup, -, hop, rfl⟩ := of_build h
  obtain ⟨hplace, hshared⟩ := findGroup_eq_ok hgroup
  refine ⟨place, shared, op, hplace, hshared, rfl, ?_⟩
  simp [grant?, hplace, releaseDeparted, (Communicator.of_build hop).2.2]

/-- A barrier that is entered draws a tag of its group, one that cannot be entered draws none. -/
theorem grant?_of_barrier (h : s.barrier rank groupName name = .ok s') :
    (∃ e, s' = { s with barriers := s.barriers.insert name (.error e) } ∧
      s.grant? s' (.barrier rank groupName name) = none) ∨
    ∃ place shared executor, s.groups.get? groupName = some place ∧
      s.pool[place]? = some shared ∧
      s' = { s.draw place with
        executor
        barriers := s.barriers.insert name (.ok s.executor.tasks.length) } ∧
      s.grant? s' (.barrier rank groupName name) =
        some (.tag place (shared.group.tag shared.drawn)) := by
  obtain ⟨c, place, shared, -, hgroup, ⟨e, -, rfl⟩ | ⟨exchange, hexchange, rfl⟩⟩ := of_barrier h
  · refine .inl ⟨e, rfl, ?_⟩
    simp [grant?]
  · obtain ⟨hplace, hshared⟩ := findGroup_eq_ok hgroup
    obtain ⟨status, htask⟩ := s.executor.exists_of_launch exchange.group.rank exchange.tag
      (Barrier.pass exchange)
    refine .inr ⟨place, shared, _, hplace, hshared, rfl, ?_⟩
    rw [← (Communicator.of_barrier hexchange).2]
    simp [grant?, hplace, htask]

end

variable [Transport σ]

/-- What a call hands out; one that is refused hands out nothing. -/
def granted (s : Session σ) (c : Call) : List Grant :=
  match s.perform c with
  | .ok s' => (s.grant? s' c).toList
  | .error _ => []

theorem granted_of_ok {s s' : Session σ} {c : Call} (h : s.perform c = .ok s') :
    s.granted c = (s.grant? s' c).toList := by
  rw [granted, h]

theorem granted_of_error {s : Session σ} {c : Call} {refusal : Refusal}
    (h : s.perform c = .error refusal) : s.granted c = [] := by
  rw [granted, h]

/-- What the calls of a history hand out, first one first. -/
def grants (s : Session σ) : List Call → List Grant
  | [] => []
  | c :: history => s.granted c ++ (s.call c).grants history

end Session

/-! ## Groups under several names -/

namespace Session

variable {σ : Type} {s s' : Session σ} {name other : String}

theorem findGroup_congr (h : s.groups.get? name = s.groups.get? other) :
    s.findGroup name = s.findGroup other := by
  unfold findGroup find
  rw [h]

variable [Transport σ]

/-- From now on one name is of the same group as another, whose counter is as it was: what is handed
out under one of them is handed out under the other. -/
structure Clones (s s' : Session σ) (name other : String) : Prop where
  place : ∃ place, s.groups.get? name = some place ∧ s'.groups.get? name = some place ∧
    s'.groups.get? other = some place
  pool : s'.pool = s.pool
  build : ∀ rank operation request, s'.granted (.build rank other operation request) =
    s'.granted (.build rank name operation request)
  barrier : ∀ rank barrier, s'.granted (.barrier rank other barrier) =
    s'.granted (.barrier rank name barrier)

theorem granted_build_congr (h : s.groups.get? name = s.groups.get? other) (rank : Rank)
    (operation : String) (request : Except Error Request) :
    s.granted (.build rank name operation request) =
      s.granted (.build rank other operation request) := by
  have hsame : s.build rank name operation request = s.build rank other operation request := by
    unfold build
    rw [findGroup_congr h]
  unfold granted perform grant?
  dsimp only
  rw [hsame, h]

theorem granted_barrier_congr (h : s.groups.get? name = s.groups.get? other) (rank : Rank)
    (entered : String) :
    s.granted (.barrier rank name entered) = s.granted (.barrier rank other entered) := by
  have hsame : s.barrier rank name entered = s.barrier rank other entered := by
    unfold barrier
    rw [findGroup_congr h]
  unfold granted perform grant?
  dsimp only
  rw [hsame, h]

/-- To give a group another name founds none. -/
theorem clones_of_share (h : s.share name other = .ok s') : s.Clones s' name other := by
  obtain ⟨place, hplace, rfl⟩ := of_share h
  have hname : (s.groups.insert other place).get? name = some place := by
    rw [Table.get?_insert]
    split
    · rfl
    · exact hplace
  have hother : (s.groups.insert other place).get? other = some place :=
    Table.get?_insert_self _ _ _
  have hsame := hother.trans hname.symm
  exact ⟨⟨place, hplace, hname, hother⟩, rfl, granted_build_congr hsame,
    granted_barrier_congr hsame⟩

end Session

/-! ## The counters -/

/-- The tags that a group has handed out. -/
def SharedGroup.tags (shared : SharedGroup) : List Tag :=
  (List.range shared.drawn).map shared.group.tag

namespace Session

variable {σ : Type} {s s' : Session σ} {grants : List Grant}

open Grant

/-- The counters of a session are the numbers of what was granted, which was granted in order. -/
structure Accounted (s : Session σ) (grants : List Grant) : Prop where
  generation : ∀ {rank : Rank} {c : Communicator}, s.communicators.get? rank = some c →
    ∀ ranks, c.generation ranks = (founded rank ranks grants).length
  numbered : ∀ (rank : Rank) (ranks : List Rank), (founded rank ranks grants).map Prod.snd =
    (List.range (founded rank ranks grants).length).map (Tag.groupId ranks)
  placed : ∀ {rank : Rank} {ranks : List Rank} {place : GroupId} {id : UInt64},
    (place, id) ∈ founded rank ranks grants →
      ∃ shared, s.pool[place]? = some shared ∧ shared.group.id = id
  drawn : ∀ place, drawn place grants = (s.pool[place]?).elim [] SharedGroup.tags

namespace Accounted

/-- Counters that are left alone stay right, also when communicators go. -/
theorem frame (h : s.Accounted grants) (hpool : s'.pool = s.pool)
    (hcommunicators : ∀ {rank c}, s'.communicators.get? rank = some c →
      s.communicators.get? rank = some c) : s'.Accounted grants where
  generation hc := h.generation (hcommunicators hc)
  numbered := h.numbered
  placed := by
    rw [hpool]
    exact h.placed
  drawn := by
    rw [hpool]
    exact h.drawn

/-- A group that is founded is the next one of its rank on its list. -/
theorem group (h : s.Accounted grants) {rank : Rank} {ranks : List Rank} {name : String}
    {c c' : Communicator} {group : Group} (hc : s.communicators.get? rank = some c)
    (hid : group.id = Tag.groupId ranks (c.generation ranks))
    (hcount : ∀ l, c'.generation l = c.generation l + if ranks = l then 1 else 0) :
    Accounted { s with
      communicators := s.communicators.insert rank c'
      pool := s.pool ++ [{ group }]
      groups := s.groups.insert name s.pool.length }
    (grants ++ [.group rank ranks s.pool.length group.id]) := by
  have hkept : ∀ {place : GroupId} {shared : SharedGroup}, s.pool[place]? = some shared →
      (s.pool ++ [({ group } : SharedGroup)])[place]? = some shared := by
    intro place shared hplace
    rw [List.getElem?_append_left (List.getElem?_eq_some_iff.1 hplace).1, hplace]
  have hlast : (s.pool ++ [({ group } : SharedGroup)])[s.pool.length]? = some { group } :=
    List.getElem?_concat_length
  refine ⟨?_, ?_, ?_, ?_⟩
  · intro other d hd l
    rw [Table.get?_insert] at hd
    rw [founded_append_group, List.length_append]
    by_cases hother : other = rank
    · subst hother
      rw [if_pos rfl, Option.some_inj] at hd
      rw [← hd, hcount, h.generation hc]
      by_cases hl : ranks = l <;> simp [hl]
    · rw [if_neg hother] at hd
      rw [h.generation hd, if_neg fun heq => hother heq.1.symm]
      rfl
  · intro other l
    rw [founded_append_group]
    by_cases hkey : rank = other ∧ ranks = l
    · obtain ⟨rfl, rfl⟩ := hkey
      rw [if_pos ⟨rfl, rfl⟩, List.map_append, h.numbered, List.length_append, List.length_singleton,
        List.range_succ, List.map_append, ← h.generation hc]
      simp [hid]
    · rw [if_neg hkey, List.append_nil, h.numbered]
  · intro other l place id hmem
    rw [founded_append_group, List.mem_append] at hmem
    rcases hmem with hmem | hmem
    · obtain ⟨shared, hshared, hid⟩ := h.placed hmem
      exact ⟨shared, hkept hshared, hid⟩
    · split at hmem
      · cases List.mem_singleton.1 hmem
        exact ⟨_, hlast, rfl⟩
      · cases hmem
  · intro place
    rw [drawn_append_group, h.drawn]
    rcases Nat.lt_trichotomy place s.pool.length with hlt | rfl | hgt
    · rw [List.getElem?_append_left hlt]
    · rw [List.getElem?_eq_none (Nat.le_refl _), hlast]
      rfl
    · rw [List.getElem?_eq_none (Nat.le_of_lt hgt), List.getElem?_eq_none]
      rw [List.length_append]
      exact hgt

/-- A tag that is drawn is the next one of its group. -/
theorem draw (h : s.Accounted grants) {place : GroupId} {shared : SharedGroup}
    (hshared : s.pool[place]? = some shared) :
    (s.draw place).Accounted (grants ++ [.tag place (shared.group.tag shared.drawn)]) := by
  refine ⟨?_, ?_, ?_, ?_⟩
  · intro rank c hc ranks
    rw [founded_append_tag]
    exact h.generation hc ranks
  · intro rank ranks
    rw [founded_append_tag]
    exact h.numbered rank ranks
  · intro rank ranks other id hmem
    rw [founded_append_tag] at hmem
    obtain ⟨shared', hshared', hid⟩ := h.placed hmem
    refine ⟨if place = other then { shared' with drawn := shared'.drawn + 1 } else shared', ?_, ?_⟩
    · rw [Session.draw, List.getElem?_modify, hshared']
      split <;> rfl
    · split <;> exact hid
  · intro other
    rw [drawn_append_tag, h.drawn, Session.draw, List.getElem?_modify]
    by_cases hother : place = other
    · subst hother
      simp [hshared, SharedGroup.tags, List.range_succ]
    · cases s.pool[other]? <;> simp [hother]

/-- Nothing was granted yet, and no communicator has founded a group. -/
theorem begun (network : σ) (registry : Registry) {communicators : List Communicator}
    (hfresh : ∀ c ∈ communicators, c.generations = .empty) :
    (ofCommunicators network registry communicators).Accounted [] where
  generation := by
    intro rank c hc ranks
    obtain ⟨c', hmem, heq⟩ := List.mem_map.1 (Table.mem_of_get?_ofList hc)
    obtain rfl : c' = c := (Prod.mk.inj heq).2
    rw [Communicator.generation, hfresh c' hmem]
    rfl
  numbered _ _ := rfl
  placed := nofun
  drawn _ := rfl

variable [Transport σ]

/-- Whatever is asked, the counters stay the numbers of what was granted. -/
theorem call (h : s.Accounted grants) (c : Call) :
    (s.call c).Accounted (grants ++ s.granted c) := by
  cases hs : s.perform c with
  | error refusal =>
    rw [call_of_error hs, granted_of_error hs, List.append_nil]
    exact h
  | ok s' =>
    rw [call_of_ok hs, granted_of_ok hs]
    have hnone : s.grant? s' c = none → s'.Accounted grants →
        s'.Accounted (grants ++ (s.grant? s' c).toList) := by
      intro hgrant h'
      rw [hgrant, Option.toList_none, List.append_nil]
      exact h'
    cases c with
    | group rank name list =>
      obtain ⟨c, group, c', ranks, hc, -, hid, hcount, rfl, hgrant⟩ := grant?_of_group hs
      rw [hgrant]
      exact h.group hc hid hcount
    | share name other =>
      obtain ⟨place, -, rfl⟩ := of_share hs
      exact hnone rfl (h.frame rfl id)
    | build rank groupName name request =>
      obtain ⟨place, shared, op, -, hshared, rfl, hgrant⟩ := grant?_of_build hs
      rw [hgrant]
      have hdraw := h.draw hshared
      exact hdraw.frame (pool_drop (s.draw place) name) fun hc =>
        communicators_drop (s.draw place) name ▸ hc
    | start name d input inRuntime =>
      obtain ⟨op, job, -, -, -, rfl⟩ := of_start hs
      exact hnone rfl (h.frame rfl id)
    | wait name d =>
      obtain ⟨⟨waited, s''⟩, hwait, rfl⟩ := exists_of_map_eq_ok hs
      obtain ⟨op, task, -, -, ⟨-, -, rfl⟩ | ⟨result, -, -, rfl⟩⟩ := of_wait hwait
      · exact hnone rfl h
      · exact hnone rfl (h.frame rfl id)
    | close name =>
      obtain rfl := of_close hs
      exact hnone rfl (h.frame (pool_drop s name) fun hc => communicators_drop s name ▸ hc)
    | dropCommunicator rank =>
      obtain rfl := of_dropCommunicator hs
      refine hnone rfl (h.frame rfl ?_)
      intro other c hc
      rw [releaseDeparted, Table.get?_erase] at hc
      split at hc
      · cases hc
      · exact hc
    | barrier rank groupName name =>
      rcases grant?_of_barrier hs with ⟨e, rfl, hgrant⟩ |
        ⟨place, shared, executor, -, hshared, rfl, hgrant⟩
      · exact hnone hgrant (h.frame rfl id)
      · rw [hgrant]
        exact (h.draw hshared).frame rfl id
    | settle =>
      cases hs
      exact hnone rfl (h.frame rfl id)
    | step k =>
      cases hs
      exact hnone rfl (h.frame rfl id)

theorem calls (h : s.Accounted grants) (history : List Call) :
    (s.calls history).Accounted (grants ++ s.grants history) := by
  induction history generalizing s grants with
  | nil => exact (List.append_nil grants).symm ▸ h
  | cons c history ih =>
    have hrest := ih (h.call c)
    rwa [List.append_assoc] at hrest

omit [Transport σ]

theorem eq_of_map_range {α : Type} {f : ℕ → α} {n k : ℕ} {a : α}
    (h : ((List.range n).map f)[k]? = some a) : a = f k := by
  obtain ⟨hlt, rfl⟩ := List.getElem?_eq_some_iff.1 h
  simp

theorem id_eq (h : s.Accounted grants) {rank : Rank} {ranks : List Rank} {n : ℕ}
    {place : GroupId} {id : UInt64} (hn : (founded rank ranks grants)[n]? = some (place, id)) :
    id = Tag.groupId ranks n := by
  have hid : ((founded rank ranks grants).map Prod.snd)[n]? = some id := by
    rw [List.getElem?_map, hn]
    rfl
  rw [h.numbered] at hid
  exact eq_of_map_range hid

/-- Tags are drawn from groups that are there. -/
theorem exists_of_drawn (h : s.Accounted grants) {place : GroupId} {k : ℕ} {tag : Tag}
    (hk : (Grant.drawn place grants)[k]? = some tag) : ∃ shared, s.pool[place]? = some shared := by
  rw [h.drawn] at hk
  cases hplace : s.pool[place]? with
  | none =>
    rw [hplace] at hk
    cases hk
  | some shared => exact ⟨shared, rfl⟩

theorem tag_eq (h : s.Accounted grants) {place : GroupId} {shared : SharedGroup} {k : ℕ} {tag : Tag}
    (hshared : s.pool[place]? = some shared) (hk : (Grant.drawn place grants)[k]? = some tag) :
    tag = Tag.ofSequence shared.group.id k := by
  rw [h.drawn, hshared, Option.elim_some, SharedGroup.tags] at hk
  exact eq_of_map_range hk

end Accounted

/-! ## What is granted is granted alike, and once -/

section

variable {τ : Type} [Transport σ] [Transport τ] {network : σ} {network' : τ}
  {registry registry' : Registry} {communicators communicators' : List Communicator}

/-- Whatever two members do, and wherever they do it: their groups with the same number on the same
list of ranks have the same identifier, and on two such groups the draws with the same number, for
operations or for barriers, give the same tag.  Under which name a group draws does not matter. -/
theorem grants_alike (hfresh : ∀ c ∈ communicators, c.generations = .empty)
    (hfresh' : ∀ c ∈ communicators', c.generations = .empty) (history history' : List Call)
    (rank rank' : Rank) (ranks : List Rank) (n : ℕ) (place place' : GroupId) (id id' : UInt64)
    (hgroup : (founded rank ranks
      ((ofCommunicators network registry communicators).grants history))[n]? = some (place, id))
    (hgroup' : (founded rank' ranks
      ((ofCommunicators network' registry' communicators').grants history'))[n]? =
        some (place', id')) :
    id = id' ∧
    (∀ (k : ℕ) (tag tag' : Tag),
      (drawn place
        ((ofCommunicators network registry communicators).grants history))[k]? = some tag →
      (drawn place'
        ((ofCommunicators network' registry' communicators').grants history'))[k]? = some tag' →
      tag = tag') ∧
    ∀ earlier name other later s, history = earlier ++ .share name other :: later →
      ((ofCommunicators network registry communicators).calls earlier).share name other = .ok s →
      ((ofCommunicators network registry communicators).calls earlier).Clones s name other := by
  have h := (Accounted.begun network registry hfresh).calls history
  have h' := (Accounted.begun network' registry' hfresh').calls history'
  rw [List.nil_append] at h h'
  obtain ⟨shared, hshared, hid⟩ := h.placed (List.mem_of_getElem? hgroup)
  obtain ⟨shared', hshared', hid'⟩ := h'.placed (List.mem_of_getElem? hgroup')
  have hsame : id = id' := (h.id_eq hgroup).trans (h'.id_eq hgroup').symm
  refine ⟨hsame, ?_, fun _ _ _ _ _ _ => clones_of_share⟩
  intro k tag tag' hk hk'
  rw [h.tag_eq hshared hk, h'.tag_eq hshared' hk', hid, hid', hsame]

/-- One member founds other groups as well, fails twice, and enters a barrier under another name. -/
def detour : List Call :=
  [.group 0 "all" none, .group 0 "outside" (some [0, 7]), .group 0 "first" (some [0, 1, 0]),
    .group 0 "second" (some [0, 1]),
    .build 0 "second" "rootless" (.ok ⟨.broadcast 2, .int, 1, none⟩),
    .build 0 "second" "broadcast" (.ok ⟨.broadcast 0, .int, 1, none⟩),
    .share "second" "clone", .barrier 0 "clone" "barrier"]

/-- The other goes straight on, with two operations. -/
def beeline : List Call :=
  [.group 1 "first" (some [0, 1]), .group 1 "second" (some [0, 1]),
    .build 1 "second" "broadcast" (.ok ⟨.broadcast 0, .int, 1, none⟩),
    .build 1 "second" "next" (.ok ⟨.broadcast 0, .int, 1, none⟩)]

theorem grants_detour : (ofRank 0 3).grants detour =
    [.group 0 [0, 1, 2] 0 (Tag.groupId [0, 1, 2] 0), .group 0 [0, 1] 1 (Tag.groupId [0, 1] 0),
      .group 0 [0, 1] 2 (Tag.groupId [0, 1] 1), .tag 2 (.ofSequence (Tag.groupId [0, 1] 1) 0),
      .tag 2 (.ofSequence (Tag.groupId [0, 1] 1) 1)] := by
  cbv

theorem grants_beeline : (ofRank 1 3).grants beeline =
    [.group 1 [0, 1] 0 (Tag.groupId [0, 1] 0), .group 1 [0, 1] 1 (Tag.groupId [0, 1] 1),
      .tag 1 (.ofSequence (Tag.groupId [0, 1] 1) 0),
      .tag 1 (.ofSequence (Tag.groupId [0, 1] 1) 1)] := by
  cbv

/-- On the second group of both, the barrier of the one, which it enters under another name of the
group, draws the tag of the second operation of the other. -/
theorem grants_alike_pair : ∃ id id' tag tag' s,
    (founded 0 [0, 1] ((ofRank 0 3).grants detour))[1]? = some (2, id) ∧
      (founded 1 [0, 1] ((ofRank 1 3).grants beeline))[1]? = some (1, id') ∧
      (drawn 2 ((ofRank 0 3).grants detour))[1]? = some tag ∧
      (drawn 1 ((ofRank 1 3).grants beeline))[1]? = some tag' ∧ id = id' ∧ tag = tag' ∧
      ((ofRank 0 3).calls (detour.take 6)).share "second" "clone" = .ok s ∧
      ((ofRank 0 3).calls (detour.take 6)).Clones s "second" "clone" := by
  have hgroup : (founded 0 [0, 1] ((ofRank 0 3).grants detour))[1]? =
      some (2, Tag.groupId [0, 1] 1) := by
    rw [grants_detour]
    rfl
  have hgroup' : (founded 1 [0, 1] ((ofRank 1 3).grants beeline))[1]? =
      some (1, Tag.groupId [0, 1] 1) := by
    rw [grants_beeline]
    rfl
  have htag : (drawn 2 ((ofRank 0 3).grants detour))[1]? =
      some (.ofSequence (Tag.groupId [0, 1] 1) 1) := by
    rw [grants_detour]
    rfl
  have htag' : (drawn 1 ((ofRank 1 3).grants beeline))[1]? =
      some (.ofSequence (Tag.groupId [0, 1] 1) 1) := by
    rw [grants_beeline]
    rfl
  have hshared : (((ofRank 0 3).calls (detour.take 6)).share "second" "clone").isOk = true := by cbv
  obtain ⟨hid, htags, hclones⟩ := grants_alike (by simp) (by simp) detour beeline 0 1 [0, 1] 1 2 1
    _ _ hgroup hgroup'
  cases hs : ((ofRank 0 3).calls (detour.take 6)).share "second" "clone" with
  | error refusal =>
    rw [hs] at hshared
    cases hshared
  | ok s =>
    exact ⟨_, _, _, _, s, hgroup, hgroup', htag, htag', hid, htags 1 _ _ htag htag', rfl,
      hclones (detour.take 6) _ _ (detour.drop 7) _ rfl hs⟩

theorem nodup_take_map_range {f : ℕ → UInt64} {bound : ℕ} (hf : Set.InjOn f {n | n < bound})
    (n : ℕ) : (((List.range n).map f).take bound).Nodup := by
  rw [← List.map_take, List.take_range]
  refine List.nodup_range.map_on ?_
  intro i hi j hj heq
  rw [List.mem_range, Nat.lt_min] at hi hj
  exact hf hi.1 hj.1 heq

/-- Numbers below `2 ^ 32` are kept apart by the hash, whatever it starts from.  So no group draws
one of its first `2 ^ 32` tags twice, no two of the first `2 ^ 32` groups on one list of ranks have
the same identifier, and no two of the operations and barriers on one group share a channel, under
whichever of its names they were built or entered. -/
theorem grants_once (network : σ) (registry : Registry) (communicators : List Communicator)
    (hfresh : ∀ c ∈ communicators, c.generations = .empty) (history : List Call) :
    (∀ h : UInt64, Set.InjOn (fun n => Tag.hash h (littleEndian 8 n)) {n | n < 2 ^ 32}) ∧
    (∀ group : Group, Set.InjOn group.tag {n | n < 2 ^ 32}) ∧
    (∀ place, ((drawn place
      ((ofCommunicators network registry communicators).grants history)).take (2 ^ 32)).Nodup) ∧
    (∀ rank ranks, (((founded rank ranks
      ((ofCommunicators network registry communicators).grants history)).map Prod.snd).take
        (2 ^ 32)).Nodup) ∧
    (∀ (place : GroupId) (i j : ℕ) (tag tag' : Tag), i < 2 ^ 32 → j < 2 ^ 32 → i ≠ j →
      (drawn place
        ((ofCommunicators network registry communicators).grants history))[i]? = some tag →
      (drawn place
        ((ofCommunicators network registry communicators).grants history))[j]? = some tag' →
      ∀ src src' : Rank, ((src, tag) : ChannelKey) ≠ (src', tag')) ∧
    ∀ earlier name other later s, history = earlier ++ .share name other :: later →
      ((ofCommunicators network registry communicators).calls earlier).share name other = .ok s →
      ((ofCommunicators network registry communicators).calls earlier).Clones s name other := by
  have h := (Accounted.begun network registry hfresh).calls history
  rw [List.nil_append] at h
  refine ⟨Tag.hashCount_injOn, fun group => Tag.ofSequence_injOn group.id, ?_, ?_, ?_,
    fun _ _ _ _ _ _ => clones_of_share⟩
  · intro place
    rw [h.drawn]
    cases (calls (ofCommunicators network registry communicators) history).pool[place]? with
    | none =>
      rw [Option.elim_none, List.take_nil]
      exact List.nodup_nil
    | some shared => exact nodup_take_map_range (Tag.ofSequence_injOn _) _
  · intro rank ranks
    rw [h.numbered]
    exact nodup_take_map_range (Tag.groupId_injOn ranks) _
  · intro place i j tag tag' hi hj hij htag htag' src src' heq
    obtain ⟨shared, hshared⟩ := h.exists_of_drawn htag
    refine hij (Tag.ofSequence_injOn shared.group.id hi hj ?_)
    rw [← h.tag_eq hshared htag, ← h.tag_eq hshared htag', (Prod.mk.inj heq).2]

/-- The operation and the barrier of the first member use different channels. -/
theorem grants_once_detour : ∃ tag tag', (drawn 2 ((ofRank 0 3).grants detour))[0]? = some tag ∧
    (drawn 2 ((ofRank 0 3).grants detour))[1]? = some tag' ∧
      ((1, tag) : ChannelKey) ≠ (1, tag') := by
  have htag : (drawn 2 ((ofRank 0 3).grants detour))[0]? =
      some (.ofSequence (Tag.groupId [0, 1] 1) 0) := by
    rw [grants_detour]
    rfl
  have htag' : (drawn 2 ((ofRank 0 3).grants detour))[1]? =
      some (.ofSequence (Tag.groupId [0, 1] 1) 1) := by
    rw [grants_detour]
    rfl
  obtain ⟨-, -, -, -, hapart, -⟩ := grants_once (Mesh.ofSize 3) .builtin
    ((Context.create 0 3).toOption.toList.map fun context => { context, config := .standard })
    (by simp) detour
  exact ⟨_, _, htag, htag', hapart 2 0 1 _ _ (by decide) (by decide) (by decide) htag htag' 1 1⟩

end

end Session

end Collectives
