import Collectives.Proofs.Queues

/-!
# Pending receives

Whoever holds the endpoints of a mesh can leave a receive pending while other calls go on.  What
the calls do to the mesh is one use after the other: `Endpoints.log` lists the uses of one call
with their answers, those of the pending receives that are asked for again among them.

This is so as long as no rank gives up a tag on which a receive of its own is pending
(`Endpoints.allows`).  Otherwise the receive would keep a channel that the mesh has no more.
-/

namespace Collectives

namespace Receive

/-- The answer that a receive got, if it got one. -/
def answer? (r : Receive) : Option Answer :=
  match r.state with
  | .answered a => some a
  | _ => none

/-- Whether the channel of the receive was given up while it was pending. -/
def isDetached (r : Receive) : Bool :=
  match r.state with
  | .detached _ => true
  | _ => false

/-- What the mesh was asked for a receive, and what it answered. -/
def asked (before after : Receive) : List (Use × Reply) :=
  match before.state with
  | .waiting => [(.receive before.own before.src before.tag, .received after.answer?)]
  | _ => []

end Receive

namespace Endpoints

/-! ## Calls and their uses of the mesh -/

/-- A call at an endpoint. -/
inductive Call where
  | send (own dest : Rank) (tag : Tag) (data : Bytes)
  | receive (own src : Rank) (tag : Tag)
  | begin (own src : Rank) (tag : Tag) (name : String)
  | collect (name : String)
  | retire (own : Rank) (tag : Tag)
  | abandon (own : Rank) (tag : Tag)
  | drop (own : Rank)

/-- One more receive, which is not asked for yet. -/
def join (e : Endpoints) (own src : Rank) (tag : Tag) (name : String) : Endpoints :=
  let earlier := e.receives.map fun r =>
    if r.name = some name then { r with name := none } else r
  { e with receives := earlier ++ [{ name := some name, own, src, tag }] }

/-- The endpoints without one that was held. -/
def leave (e : Endpoints) (own : Rank) : Endpoints :=
  { e with held := e.held.filter (· ≠ own) }

/-- The endpoints after a call. -/
def call (e : Endpoints) : Call → Endpoints
  | .send own dest tag data => (e.send own dest tag data).2
  | .receive own src tag => (e.receive own src tag).2
  | .begin own src tag name => e.begin own src tag name
  | .collect name => (e.collect name).2
  | .retire own tag => e.retire own tag
  | .abandon own tag => e.abandon own tag
  | .drop own => e.drop own

/-- Whether nothing holds an endpoint any more. -/
def isIdle (e : Endpoints) (own : Rank) : Bool := !(e.has own || e.isAwaited own)

/-- The uses by which the pending receives are answered and let go of their endpoints. -/
def settling (e : Endpoints) : List (Use × Reply) :=
  (List.zipWith Receive.asked e.receives e.settle.receives).flatten ++
    ((e.receives.map (·.own)).filter e.settle.isIdle).map fun own => (.close own, .done)

/-- The uses of the mesh that a call makes, with the answers it gets. -/
def log (e : Endpoints) : Call → List (Use × Reply)
  | .send own dest tag data =>
    [(.send own dest tag data, .sent (e.send own dest tag data).1)]
  | .receive own src tag =>
    e.settling ++ [(.receive own src tag, .received (e.receive own src tag).1)]
  | .begin own src tag name => (e.join own src tag name).settling
  | .collect _ => e.settling
  | .retire own tag => [(.retire own tag, .done)]
  | .abandon own tag => [(.abandon own tag, .done)]
  | .drop own => if (e.leave own).isIdle own then [(.close own, .done)] else []

/-- No rank gives up a tag on which a receive of its own is pending. -/
def allows (e : Endpoints) : Call → Bool
  | .retire own tag | .abandon own tag =>
    e.receives.all fun r => !(r.isPending && r.own = own && r.tag = tag)
  | _ => true

/-- The endpoints after a history of calls. -/
def calls (e : Endpoints) : List Call → Endpoints
  | [] => e
  | c :: rest => (e.call c).calls rest

/-- The uses of the mesh that a history makes. -/
def logs (e : Endpoints) : List Call → List (Use × Reply)
  | [] => []
  | c :: rest => e.log c ++ (e.call c).logs rest

/-- Every call of a history is allowed when its turn comes. -/
def orderly (e : Endpoints) : List Call → Bool
  | [] => true
  | c :: rest => e.allows c && (e.call c).orderly rest

theorem calls_append (e : Endpoints) (history later : List Call) :
    e.calls (history ++ later) = (e.calls history).calls later := by
  induction history generalizing e with
  | nil => rfl
  | cons c history ih => exact ih _

theorem logs_append (e : Endpoints) (history later : List Call) :
    e.logs (history ++ later) = e.logs history ++ (e.calls history).logs later := by
  induction history generalizing e with
  | nil => rfl
  | cons c history ih =>
    show e.log c ++ (e.call c).logs (history ++ later) = _
    rw [ih]
    exact (List.append_assoc _ _ _).symm

theorem orderly_append (e : Endpoints) (history later : List Call) :
    e.orderly (history ++ later) = (e.orderly history && (e.calls history).orderly later) := by
  induction history generalizing e with
  | nil => rfl
  | cons c history ih =>
    show (e.allows c && (e.call c).orderly (history ++ later)) = _
    rw [ih]
    exact (Bool.and_assoc _ _ _).symm

/-! ## Nothing but uses -/

/-- No receive has lost its channel. -/
def Attached (e : Endpoints) : Prop := ∀ r ∈ e.receives, r.isDetached = false

/-- Asking for one receive is one use of the mesh, or none. -/
theorem leads_answer (mesh : Mesh) {r : Receive} (h : r.isDetached = false) :
    Use.Leads Mesh.use mesh (r.asked (answer mesh r).1) (answer mesh r).2 ∧
      (answer mesh r).1.isDetached = false := by
  obtain ⟨name, own, src, tag, state⟩ := r
  cases state with
  | detached a => cases h
  | answered a => exact ⟨.nil mesh, rfl⟩
  | waiting =>
    unfold answer Receive.asked
    dsimp only
    rcases hreceive : mesh.receive own src tag with ⟨_ | a, mesh'⟩
    · exact ⟨.one (congrArg (Prod.map Reply.received id) hreceive), rfl⟩
    · exact ⟨.one (congrArg (Prod.map Reply.received id) hreceive), rfl⟩

/-- Asking for all receives is one use after the other. -/
theorem leads_each (mesh : Mesh) (receives : List Receive)
    (h : ∀ r ∈ receives, r.isDetached = false) :
    Use.Leads Mesh.use mesh
        (List.zipWith Receive.asked receives (each answer mesh receives).1).flatten
        (each answer mesh receives).2 ∧
      ∀ r ∈ (each answer mesh receives).1, r.isDetached = false := by
  induction receives generalizing mesh with
  | nil => exact ⟨.nil mesh, nofun⟩
  | cons r rest ih =>
    obtain ⟨hfirst, hr⟩ := leads_answer mesh (h r List.mem_cons_self)
    obtain ⟨hrest, hall⟩ := ih (answer mesh r).2 fun r' hr' => h r' (List.mem_cons_of_mem r hr')
    refine ⟨hfirst.append hrest, ?_⟩
    intro r' hr'
    rcases List.mem_cons.1 hr' with rfl | hr'
    · exact hr
    · exact hall r' hr'

theorem closeIdle_eq (e : Endpoints) (own : Rank) :
    e.closeIdle own = if e.isIdle own then { e with mesh := e.mesh.close own } else e := by
  unfold closeIdle isIdle
  cases e.has own || e.isAwaited own <;> rfl

/-- Letting go of endpoints closes those that nothing holds. -/
theorem leads_closeIdle (e : Endpoints) (owns : List Rank) :
    Use.Leads Mesh.use e.mesh ((owns.filter e.isIdle).map fun own => (.close own, .done))
        (owns.foldl closeIdle e).mesh ∧
      (owns.foldl closeIdle e).receives = e.receives ∧
      (owns.foldl closeIdle e).held = e.held := by
  induction owns generalizing e with
  | nil => exact ⟨.nil e.mesh, rfl, rfl⟩
  | cons own owns ih =>
    rw [List.foldl_cons, closeIdle_eq, List.filter_cons]
    cases hidle : e.isIdle own with
    | false => exact ih e
    | true =>
      obtain ⟨hleads, hreceives, hheld⟩ := ih { e with mesh := e.mesh.close own }
      exact ⟨.cons (.close own) hleads, hreceives, hheld⟩

/-- Letting go of endpoints answers no receive. -/
theorem settle_receives (e : Endpoints) :
    e.settle.receives = (each answer e.mesh e.receives).1 :=
  (leads_closeIdle _ _).2.1

/-- Settling is one use after the other. -/
theorem leads_settle {e : Endpoints} (h : e.Attached) :
    Use.Leads Mesh.use e.mesh e.settling e.settle.mesh ∧ e.settle.Attached := by
  obtain ⟨hasked, hall⟩ := leads_each e.mesh e.receives h
  obtain ⟨hclosed, -, hheld⟩ := leads_closeIdle
    { e with
      mesh := (each answer e.mesh e.receives).2
      receives := (each answer e.mesh e.receives).1 }
    (e.receives.map (·.own))
  have hidle : e.settle.isIdle = isIdle { e with
      mesh := (each answer e.mesh e.receives).2,
      receives := (each answer e.mesh e.receives).1 } := by
    funext own
    unfold isIdle has isAwaited
    rw [settle_receives]
    exact congrArg (fun held => !(decide (own ∈ held) || _)) hheld
  rw [settling, hidle, settle_receives]
  refine ⟨hasked.append hclosed, ?_⟩
  intro r hr
  rw [settle_receives] at hr
  exact hall r hr

/-- A tag on which nothing is pending is given up without a trace in the receives. -/
theorem each_detach {own : Rank} {tag : Tag} (mesh : Mesh) {receives : List Receive}
    (h : receives.all fun r => !(r.isPending && r.own = own && r.tag = tag)) :
    each (detach own tag) mesh receives = (receives, mesh) := by
  induction receives with
  | nil => rfl
  | cons r rest ih =>
    rw [List.all_cons, Bool.and_eq_true] at h
    have hsame : detach own tag mesh r = (r, mesh) := by
      unfold detach
      cases hstate : r.state with
      | waiting =>
        have hne : ¬(r.own = own ∧ r.tag = tag) := by
          rintro ⟨hown, htag⟩
          have hfirst := h.1
          simp [Receive.isPending, hstate, hown, htag] at hfirst
        exact if_neg hne
      | detached a | answered a => rfl
    rw [each, hsame]
    dsimp only
    rw [ih h.2]

variable {e : Endpoints}

theorem retire_eq {own : Rank} {tag : Tag} (h : e.allows (.retire own tag) = true) :
    e.retire own tag = { e with mesh := e.mesh.retire own tag } := by
  rw [retire, each_detach e.mesh h]

theorem abandon_eq {own : Rank} {tag : Tag} (h : e.allows (.abandon own tag) = true) :
    e.abandon own tag = { e with mesh := e.mesh.abandon own tag } := by
  rw [abandon, each_detach e.mesh h]

theorem collect_eq (e : Endpoints) (name : String) :
    (e.collect name).2.mesh = e.settle.mesh ∧
      ∀ r ∈ (e.collect name).2.receives, r ∈ e.settle.receives := by
  unfold collect
  dsimp only
  split
  · exact ⟨rfl, fun _ hr => hr⟩
  · split
    · exact ⟨rfl, fun _ hr => List.mem_of_mem_filter hr⟩
    · exact ⟨rfl, fun _ hr => hr⟩

theorem attached_join (h : e.Attached) (own src : Rank) (tag : Tag) (name : String) :
    (e.join own src tag name).Attached := by
  intro r hr
  rcases List.mem_append.1 hr with hr | hr
  · obtain ⟨r', hr', rfl⟩ := List.mem_map.1 hr
    split <;> exact h r' hr'
  · rw [List.mem_singleton.1 hr]
    rfl

/-- A call that is allowed does nothing to the mesh but use it. -/
theorem leads_call (h : e.Attached) {c : Call} (hallows : e.allows c = true) :
    Use.Leads Mesh.use e.mesh (e.log c) (e.call c).mesh ∧ (e.call c).Attached := by
  cases c with
  | send own dest tag data => exact ⟨.one rfl, h⟩
  | receive own src tag =>
    obtain ⟨hsettle, hattached⟩ := leads_settle h
    exact ⟨hsettle.append (.one rfl), hattached⟩
  | begin own src tag name => exact leads_settle (attached_join h own src tag name)
  | collect name =>
    obtain ⟨hsettle, hattached⟩ := leads_settle h
    obtain ⟨hmesh, hreceives⟩ := e.collect_eq name
    refine ⟨?_, fun r hr => hattached r (hreceives r hr)⟩
    show Use.Leads Mesh.use e.mesh e.settling (e.collect name).2.mesh
    rwa [hmesh]
  | retire own tag =>
    show Use.Leads Mesh.use e.mesh _ (e.retire own tag).mesh ∧ (e.retire own tag).Attached
    rw [retire_eq hallows]
    exact ⟨.one rfl, h⟩
  | abandon own tag =>
    show Use.Leads Mesh.use e.mesh _ (e.abandon own tag).mesh ∧ (e.abandon own tag).Attached
    rw [abandon_eq hallows]
    exact ⟨.one rfl, h⟩
  | drop own =>
    show Use.Leads Mesh.use e.mesh _ ((e.leave own).closeIdle own).mesh ∧
      ((e.leave own).closeIdle own).Attached
    rw [closeIdle_eq, log]
    split
    · exact ⟨.one rfl, h⟩
    · exact ⟨.nil e.mesh, h⟩

/-- A history that is allowed does nothing to the mesh but use it. -/
theorem leads_calls (h : e.Attached) {history : List Call} (hallows : e.orderly history = true) :
    Use.Leads Mesh.use e.mesh (e.logs history) (e.calls history).mesh ∧
      (e.calls history).Attached := by
  induction history generalizing e with
  | nil => exact ⟨.nil e.mesh, h⟩
  | cons c rest ih =>
    rw [orderly, Bool.and_eq_true] at hallows
    obtain ⟨hcall, hattached⟩ := leads_call h hallows.1
    obtain ⟨hrest, hall⟩ := ih hattached hallows.2
    exact ⟨hcall.append hrest, hall⟩

theorem attached_ofSize (size : Nat) : (ofSize size).Attached :=
  fun _ hr => absurd hr List.not_mem_nil

end Endpoints

end Collectives
