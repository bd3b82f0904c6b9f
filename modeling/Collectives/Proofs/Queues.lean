import Collectives.Proofs.Channels
import Collectives.Transport.Endpoints

/-!
# Queues

What the mesh is for those who use it: a queue for every source, destination and tag, first in
first out, and for every rank the tags that it has abandoned.  `Queues` is this picture, without
mailboxes, channels that come and go, and without sharing: a use of it changes the queues it
names and no other.

`Mesh.Shows` ties a mesh to the picture.  Every use is answered alike by both and keeps the tie
(`Mesh.Shows.use`), and so does any sequence of uses (`Mesh.Shows.leads`).
-/

namespace Collectives

/-! ## The picture -/

/-- One use of a mesh. -/
inductive Use where
  | send (own dest : Rank) (tag : Tag) (data : Bytes)
  | receive (own src : Rank) (tag : Tag)
  | retire (own : Rank) (tag : Tag)
  | abandon (own : Rank) (tag : Tag)
  | close (own : Rank)
  deriving DecidableEq

/-- What a use is answered; a receive may have no answer yet. -/
inductive Reply where
  | sent (result : Except Error Unit)
  | received (answer : Option Answer)
  | done

/-- A queue for every source, destination and tag. -/
structure Queues where
  size : UInt32
  /-- The messages that wait, by source, destination and tag, oldest first. -/
  waiting : Rank → Rank → Tag → List Bytes := fun _ _ _ => []
  isAbandoned : Rank → Tag → Bool := fun _ _ => false
  isClosed : Rank → Bool := fun _ => false

namespace Queues

variable (q : Queues) (own src dest : Rank) (tag : Tag)

/-- Another content for one queue. -/
def put (content : List Bytes) : Queues :=
  { q with
    waiting := fun src' dest' tag' =>
      if src' = src ∧ dest' = dest ∧ tag' = tag then content else q.waiting src' dest' tag' }

/-- A message goes to the end of its queue, where its tag is not abandoned. -/
def send (data : Bytes) : Except Error Unit × Queues :=
  if ¬dest < q.size then (.error (.invalidRank dest q.size), q)
  else if q.isClosed dest then (.error (.peerDisconnected dest), q)
  else if q.isAbandoned dest tag then (.ok (), q)
  else (.ok (), q.put own dest tag (q.waiting own dest tag ++ [data]))

/-- The oldest message of a queue is taken out of it. -/
def receive : Option Answer × Queues :=
  if ¬src < q.size then (some (.error (.invalidRank src q.size)), q)
  else if ¬own < q.size then (some (.error (.invalidRank own q.size)), q)
  else
    match q.waiting src own tag with
    | [] => (none, q)
    | data :: rest => (some (.ok data), q.put src own tag rest)

/-- The queues of a tag at one rank are emptied. -/
def retire : Queues :=
  { q with
    waiting := fun src' dest' tag' =>
      if dest' = own ∧ tag' = tag then [] else q.waiting src' dest' tag' }

/-- They are emptied, and stay empty. -/
def abandon : Queues :=
  { q.retire own tag with
    isAbandoned := fun dest' tag' => decide (dest' = own ∧ tag' = tag) || q.isAbandoned dest' tag' }

/-- Nothing more is let in at a rank. -/
def close : Queues := { q with isClosed := fun dest' => decide (dest' = own) || q.isClosed dest' }

def use : Use → Reply × Queues
  | .send own dest tag data => Prod.map .sent id (q.send own dest tag data)
  | .receive own src tag => Prod.map .received id (q.receive own src tag)
  | .retire own tag => (.done, q.retire own tag)
  | .abandon own tag => (.done, q.abandon own tag)
  | .close own => (.done, q.close own)

end Queues

namespace Mesh

def use (mesh : Mesh) : Use → Reply × Mesh
  | .send own dest tag data => Prod.map .sent id (mesh.send own dest tag data)
  | .receive own src tag => Prod.map .received id (mesh.receive own src tag)
  | .retire own tag => (.done, mesh.retire own tag)
  | .abandon own tag => (.done, mesh.abandon own tag)
  | .close own => (.done, mesh.close own)

end Mesh

/-- One use after the other, each with its answer, leads from one state to another. -/
inductive Use.Leads {σ : Type} (use : σ → Use → Reply × σ) : σ → List (Use × Reply) → σ → Prop where
  | nil (s : σ) : Leads use s [] s
  | cons {s s' : σ} {log : List (Use × Reply)} (u : Use) (h : Leads use (use s u).2 log s') :
      Leads use s ((u, (use s u).1) :: log) s'

namespace Use.Leads

variable {σ : Type} {use : σ → Use → Reply × σ} {s s' s'' : σ} {log log' : List (Use × Reply)}

theorem append (h : Leads use s log s') (h' : Leads use s' log' s'') :
    Leads use s (log ++ log') s'' := by
  induction h with
  | nil => exact h'
  | cons u _ ih => exact .cons u (ih h')

theorem one {u : Use} {reply : Reply} (h : use s u = (reply, s')) :
    Leads use s [(u, reply)] s' := by
  have hcons : Leads use s [(u, (use s u).1)] (use s u).2 := .cons u (.nil _)
  rwa [h] at hcons

end Use.Leads

/-! ## The mesh in the picture -/

/-- The mesh is as the picture has it. -/
structure Mesh.Shows (mesh : Mesh) (q : Queues) : Prop where
  size_eq : mesh.size = q.size.toNat
  queue_eq : ∀ src dest tag, mesh.queue src dest tag = q.waiting src dest tag
  gate_eq : ∀ dest, dest < q.size → ∃ tags,
    mesh.gate dest = some (!q.isClosed dest, tags) ∧ ∀ tag, tag ∈ tags ↔ q.isAbandoned dest tag

namespace Mesh

/-- Another gate at one rank. -/
theorem gate_update_of (mesh : Mesh) (rank other : Rank) (f : Mailbox → Mailbox)
    (g : Bool × List Tag → Bool × List Tag)
    (hf : ∀ box, ((f box).isOpen, (f box).abandoned) = g (box.isOpen, box.abandoned)) :
    (mesh.update rank f).gate other =
      if rank = other then (mesh.gate other).map g else mesh.gate other := by
  rw [gate, gate, mailbox?_update]
  split
  · rw [Option.map_map, Option.map_map]
    exact congrArg (Option.map · (mesh.mailbox? other)) (funext hf)
  · rfl

/-- A send to a rank that does not exist. -/
theorem send_of_no_rank {mesh : Mesh} {dest : Rank} (h : mesh.size ≤ dest.toNat) (own : Rank)
    (tag : Tag) (data : Bytes) :
    mesh.send own dest tag data = (.error (mesh.noRank dest), mesh) := by
  have hnone : mesh.mailbox? dest = none := List.getElem?_eq_none h
  rw [send, hnone]

/-- A send to a rank that lets nothing in. -/
theorem send_of_closed {mesh : Mesh} {dest : Rank} {tags : List Tag}
    (h : mesh.gate dest = some (false, tags)) (own : Rank) (tag : Tag) (data : Bytes) :
    mesh.send own dest tag data = (.error (.peerDisconnected dest), mesh) := by
  obtain ⟨box, hbox, hg⟩ := Option.map_eq_some_iff.1 h
  rw [Prod.mk.injEq] at hg
  rw [send, hbox]
  exact if_neg (Bool.eq_false_iff.1 hg.1)

theorem receive_of_no_source {mesh : Mesh} {src : Rank} (h : mesh.size ≤ src.toNat) (own : Rank)
    (tag : Tag) : mesh.receive own src tag = (some (.error (mesh.noRank src)), mesh) := by
  have hnone : mesh.mailbox? src = none := List.getElem?_eq_none h
  rw [receive, hnone]

theorem receive_of_no_receiver {mesh : Mesh} {own src : Rank} (hsrc : src.toNat < mesh.size)
    (h : mesh.size ≤ own.toNat) (tag : Tag) :
    mesh.receive own src tag = (some (.error (mesh.noRank own)), mesh) := by
  have hnone : mesh.mailbox? own = none := List.getElem?_eq_none h
  have hsome : mesh.mailbox? src = some mesh.mailboxes[src.toNat] := List.getElem?_eq_getElem hsrc
  rw [receive, hsome, hnone]

/-- At the beginning nothing waits, nothing is abandoned and nothing is closed. -/
theorem shows_ofSize (size : UInt32) : (ofSize size.toNat).Shows { size } where
  size_eq := size_ofSize size.toNat
  queue_eq := queue_ofSize size.toNat
  gate_eq dest hdest := ⟨[], gate_ofSize (UInt32.lt_iff_toNat_lt.1 hdest), by simp⟩

end Mesh

namespace Mesh.Shows

variable {mesh : Mesh} {q : Queues}

theorem noRank_eq (h : mesh.Shows q) (rank : Rank) :
    mesh.noRank rank = .invalidRank rank q.size := by
  rw [noRank, h.size_eq, UInt32.ofNat_toNat]

theorem size_le (h : mesh.Shows q) {rank : Rank} (hrank : ¬rank < q.size) :
    mesh.size ≤ rank.toNat := by
  rw [h.size_eq]
  exact Nat.le_of_not_lt fun hlt => hrank (UInt32.lt_iff_toNat_lt.2 hlt)

theorem lt_size (h : mesh.Shows q) {rank : Rank} (hrank : rank < q.size) :
    rank.toNat < mesh.size := by
  rw [h.size_eq]
  exact UInt32.lt_iff_toNat_lt.1 hrank

/-- What changes the queues only. -/
theorem refill {mesh' : Mesh} (h : mesh.Shows q) (hsize : mesh'.size = mesh.size)
    (hgate : mesh'.gate = mesh.gate) {waiting : Rank → Rank → Tag → List Bytes}
    (hqueue : ∀ src dest tag, mesh'.queue src dest tag = waiting src dest tag) :
    mesh'.Shows { q with waiting } where
  size_eq := hsize.trans h.size_eq
  queue_eq := hqueue
  gate_eq dest hdest := by
    rw [hgate]
    exact h.gate_eq dest hdest

variable (h : mesh.Shows q) (own : Rank) (tag : Tag)
include h

theorem send (dest : Rank) (data : Bytes) :
    (mesh.send own dest tag data).1 = (q.send own dest tag data).1 ∧
      (mesh.send own dest tag data).2.Shows (q.send own dest tag data).2 := by
  unfold Queues.send
  by_cases hdest : dest < q.size
  · obtain ⟨tags, hgate, htags⟩ := h.gate_eq dest hdest
    rw [if_neg fun hnot => hnot hdest]
    cases hclosed : q.isClosed dest with
    | true =>
      rw [hclosed] at hgate
      rw [send_of_closed hgate, if_pos rfl]
      exact ⟨rfl, h⟩
    | false =>
      rw [hclosed] at hgate
      have hqueue : ∀ src' dest' tag', (mesh.send own dest tag data).2.queue src' dest' tag' = _ :=
        queue_send_of_gate hgate
      have hsize := mesh.size_send own dest tag data
      have hrest := mesh.gate_send own dest tag data
      rw [if_neg Bool.false_ne_true, send_fst_of_gate own tag data hgate]
      cases hdrop : q.isAbandoned dest tag with
      | true =>
        -- The message is accepted, and dropped.
        refine ⟨rfl, h.refill hsize hrest ?_⟩
        intro src' dest' tag'
        rw [hqueue, if_neg fun hc => hc.2.2.2 ((htags tag).2 hdrop), h.queue_eq]
      | false =>
        have hkeep : tag ∉ tags := fun hmem =>
          Bool.false_ne_true (hdrop.symm.trans ((htags tag).1 hmem))
        refine ⟨rfl, h.refill hsize hrest ?_⟩
        intro src' dest' tag'
        rw [hqueue, h.queue_eq, h.queue_eq]
        simp only [hkeep, not_false_eq_true, and_true]
  · rw [if_pos hdest, send_of_no_rank (h.size_le hdest), h.noRank_eq]
    exact ⟨rfl, h⟩

theorem receive (src : Rank) :
    (mesh.receive own src tag).1 = (q.receive own src tag).1 ∧
      (mesh.receive own src tag).2.Shows (q.receive own src tag).2 := by
  unfold Queues.receive
  by_cases hsrc : src < q.size
  · rw [if_neg fun hnot => hnot hsrc]
    by_cases hown : own < q.size
    · have hqueue : ∀ src' dest' tag', (mesh.receive own src tag).2.queue src' dest' tag' = _ :=
        Mesh.queue_receive (h.lt_size hown) (h.lt_size hsrc)
      have hsize := mesh.size_receive own src tag
      have hgate := mesh.gate_receive own src tag
      rw [if_neg fun hnot => hnot hown, Mesh.receive_fst tag (h.lt_size hown) (h.lt_size hsrc),
        h.queue_eq]
      cases hw : q.waiting src own tag with
      | nil =>
        refine ⟨rfl, h.refill hsize hgate ?_⟩
        intro src' dest' tag'
        rw [hqueue, h.queue_eq, h.queue_eq]
        split
        · next hkey =>
          obtain ⟨rfl, rfl, rfl⟩ := hkey
          rw [hw, List.tail_nil]
        · rfl
      | cons data rest =>
        refine ⟨rfl, h.refill hsize hgate ?_⟩
        intro src' dest' tag'
        rw [hqueue, h.queue_eq, h.queue_eq, hw, List.tail_cons]
    · rw [if_pos hown, Mesh.receive_of_no_receiver (h.lt_size hsrc) (h.size_le hown), h.noRank_eq]
      exact ⟨rfl, h⟩
  · rw [if_pos hsrc, Mesh.receive_of_no_source (h.size_le hsrc), h.noRank_eq]
    exact ⟨rfl, h⟩

theorem retire : (mesh.retire own tag).Shows (q.retire own tag) := by
  refine h.refill (mesh.size_retire own tag) (mesh.gate_retire own tag) ?_
  intro src' dest' tag'
  rw [Mesh.queue_retire, h.queue_eq]

theorem abandon : (mesh.abandon own tag).Shows (q.abandon own tag) where
  size_eq := (mesh.size_abandon own tag).trans h.size_eq
  queue_eq src' dest' tag' := by
    rw [Mesh.queue_abandon]
    exact (h.retire own tag).queue_eq src' dest' tag'
  gate_eq dest hdest := by
    obtain ⟨tags, hgate, htags⟩ := h.gate_eq dest hdest
    rw [Mesh.abandon, Mesh.gate_update_of _ _ _ _ (fun g => (g.1, tag :: g.2)) fun _ => rfl, hgate]
    by_cases hown : own = dest
    · refine ⟨tag :: tags, by simp [hown, Queues.abandon, Queues.retire], ?_⟩
      intro tag'
      simp [Queues.abandon, Queues.retire, hown, htags]
    · have hne : dest ≠ own := fun heq => hown heq.symm
      refine ⟨tags, by simp [hown, Queues.abandon, Queues.retire], ?_⟩
      intro tag'
      simp [Queues.abandon, Queues.retire, hne, htags]

theorem close : (mesh.close own).Shows (q.close own) where
  size_eq := (mesh.size_close own).trans h.size_eq
  queue_eq src' dest' tag' := by
    rw [Mesh.queue_close]
    exact h.queue_eq src' dest' tag'
  gate_eq dest hdest := by
    obtain ⟨tags, hgate, htags⟩ := h.gate_eq dest hdest
    rw [Mesh.close, Mesh.gate_update_of _ _ _ _ (fun g => (false, g.2)) fun _ => rfl, hgate]
    refine ⟨tags, ?_, htags⟩
    by_cases hown : own = dest
    · simp [hown, Queues.close]
    · have hne : dest ≠ own := fun heq => hown heq.symm
      simp [hown, hne, Queues.close]

omit own tag

/-- A use is answered alike, and leaves the mesh as the picture has it. -/
theorem use (u : Use) :
    (mesh.use u).1 = (q.use u).1 ∧ (mesh.use u).2.Shows (q.use u).2 := by
  cases u with
  | send own dest tag data =>
    obtain ⟨hreply, hshows⟩ := h.send own tag dest data
    exact ⟨congrArg Reply.sent hreply, hshows⟩
  | receive own src tag =>
    obtain ⟨hreply, hshows⟩ := h.receive own tag src
    exact ⟨congrArg Reply.received hreply, hshows⟩
  | retire own tag => exact ⟨rfl, h.retire own tag⟩
  | abandon own tag => exact ⟨rfl, h.abandon own tag⟩
  | close own => exact ⟨rfl, h.close own⟩

/-- So does every sequence of uses. -/
theorem leads {mesh' : Mesh} {log : List (Use × Reply)} (hlog : Use.Leads Mesh.use mesh log mesh') :
    ∃ q', Use.Leads Queues.use q log q' ∧ mesh'.Shows q' := by
  induction hlog generalizing q with
  | nil => exact ⟨q, .nil q, h⟩
  | cons u _ ih =>
    obtain ⟨hreply, hshows⟩ := h.use u
    obtain ⟨q', hleads, hlast⟩ := ih hshows
    rw [hreply]
    exact ⟨q', .cons u hleads, hlast⟩

end Mesh.Shows

end Collectives
