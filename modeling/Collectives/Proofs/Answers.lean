import Collectives.Proofs.Pending

/-!
# Answers to pending receives

What a pending receive is answered stands in the log of the calls, and it is handed out to whoever
asks for it by name.  A name can be given to one receive after another, and the latest of them has
it.  So each receive keeps the call that it was begun by (`Endpoints.Begun`): what it is answered
was logged since, and as long as it has its name no later receive was begun under it
(`Endpoints.traced_calls`).

Together with `Mesh.Shows` it follows that the endpoints are served by independent queues
(`Endpoints.independent_queues`).
-/

namespace Collectives

namespace Endpoints

/-- The second receive is what the first one has become: it may have lost its name, and it may have
got an answer, which is then logged. -/
structure Advanced (log : List (Use × Reply)) (r r' : Receive) : Prop where
  own : r'.own = r.own
  src : r'.src = r.src
  tag : r'.tag = r.tag
  name : ∀ name, r'.name = some name → r.name = some name
  state : ∀ a, r'.state = .answered a → r.state = .answered a ∨
    (.receive r.own r.src r.tag, .received (some a)) ∈ log

namespace Advanced

variable {log log' : List (Use × Reply)} {r r' r'' : Receive}

theorem refl (log : List (Use × Reply)) (r : Receive) : Advanced log r r :=
  ⟨rfl, rfl, rfl, fun _ => id, fun _ => .inl⟩

theorem trans (h : Advanced log r r') (h' : Advanced log r' r'') : Advanced log r r'' where
  own := h'.own.trans h.own
  src := h'.src.trans h.src
  tag := h'.tag.trans h.tag
  name := fun name hname => h.name name (h'.name name hname)
  state := by
    intro a ha
    rcases h'.state a ha with ha | hlogged
    · exact h.state a ha
    · rw [h.own, h.src, h.tag] at hlogged
      exact .inr hlogged

theorem mono (h : Advanced log r r') (hsubset : log ⊆ log') : Advanced log' r r' :=
  ⟨h.own, h.src, h.tag, h.name, fun a ha => (h.state a ha).imp_right (hsubset ·)⟩

/-- A receive that loses a name. -/
theorem unname (log : List (Use × Reply)) (r : Receive) (name : String) :
    Advanced log r (if r.name = some name then { r with name := none } else r) := by
  split
  · exact ⟨rfl, rfl, rfl, nofun, fun _ => .inl⟩
  · exact refl log r

/-- Asking for a receive that has not lost its channel. -/
theorem answer (mesh : Mesh) (h : r.isDetached = false) :
    Advanced (r.asked (answer mesh r).1) r (answer mesh r).1 := by
  obtain ⟨name, own, src, tag, state⟩ := r
  cases state with
  | detached a => cases h
  | answered a => exact refl _ _
  | waiting =>
    unfold Endpoints.answer Receive.asked
    dsimp only
    rcases mesh.receive own src tag with ⟨_ | a, mesh'⟩
    · exact refl _ _
    · refine ⟨rfl, rfl, rfl, fun _ => id, ?_⟩
      intro b hb
      cases hb
      exact .inr List.mem_cons_self

theorem each (mesh : Mesh) {receives : List Receive} (h : ∀ r ∈ receives, r.isDetached = false)
    (hr' : r' ∈ (each Endpoints.answer mesh receives).1) :
    ∃ r ∈ receives, Advanced
      (List.zipWith Receive.asked receives
        (Endpoints.each Endpoints.answer mesh receives).1).flatten r r' := by
  induction receives generalizing mesh with
  | nil => cases hr'
  | cons r rest ih =>
    rcases List.mem_cons.1 hr' with rfl | hr'
    · refine ⟨r, List.mem_cons_self, (answer mesh (h r List.mem_cons_self)).mono ?_⟩
      exact List.subset_append_left _ _
    · obtain ⟨r₀, hr₀, hadvanced⟩ := ih (Endpoints.answer mesh r).2
        (fun r hr => h r (List.mem_cons_of_mem _ hr)) hr'
      exact ⟨r₀, List.mem_cons_of_mem _ hr₀, hadvanced.mono (List.subset_append_right _ _)⟩

end Advanced

variable {e : Endpoints}

/-- Settling asks for receives that there are. -/
theorem exists_of_mem_settle (h : e.Attached) {r' : Receive} (hr' : r' ∈ e.settle.receives) :
    ∃ r ∈ e.receives, Advanced e.settling r r' := by
  rw [settle_receives] at hr'
  obtain ⟨r, hr, hadvanced⟩ := Advanced.each e.mesh h hr'
  refine ⟨r, hr, hadvanced.mono ?_⟩
  rw [settling, settle_receives]
  exact List.subset_append_left _ _

/-- One more receive takes its name from those that had it. -/
theorem exists_of_mem_join {own src : Rank} {tag : Tag} {name : String} {r' : Receive}
    (hr' : r' ∈ (e.join own src tag name).receives) :
    r' = { name := some name, own, src, tag } ∨
      r'.name ≠ some name ∧ ∃ r ∈ e.receives, ∀ log, Advanced log r r' := by
  rcases List.mem_append.1 hr' with hr' | hr'
  · obtain ⟨r, hr, rfl⟩ := List.mem_map.1 hr'
    refine .inr ⟨?_, r, hr, fun log => .unname log r name⟩
    split
    · exact nofun
    · assumption
  · exact .inl (List.mem_singleton.1 hr')

/-! ## Since a receive was begun -/

/-- The receive was begun after some calls, and others were made since: its answer, if it has one,
is logged since then, and the name that it still has was given to no other receive. -/
structure Begun (e : Endpoints) (before : List Call) (name : String) (since : List Call)
    (r : Receive) : Prop where
  named : ∀ other, r.name = some other →
    other = name ∧ ∀ own src tag, .begin own src tag name ∉ since
  answered : ∀ a, r.state = .answered a → (.receive r.own r.src r.tag, .received (some a)) ∈
    (e.calls before).logs (.begin r.own r.src r.tag name :: since)

/-- One more call, that does not give the name of the receive to another. -/
theorem Begun.call {before since : List Call} {name : String} {r r' : Receive} {c : Call}
    (h : e.Begun before name since r)
    (hadvanced : Advanced
      ((e.calls (before ++ .begin r.own r.src r.tag name :: since)).log c) r r')
    (hname : ∀ own src tag other, c = .begin own src tag other → r'.name ≠ some other) :
    e.Begun before name (since ++ [c]) r' := by
  have hlogs : (e.calls before).logs (.begin r.own r.src r.tag name :: (since ++ [c])) =
      (e.calls before).logs (.begin r.own r.src r.tag name :: since) ++
        (e.calls (before ++ .begin r.own r.src r.tag name :: since)).log c := by
    rw [← List.cons_append, logs_append, calls_append]
    exact congrArg _ (List.append_nil _)
  constructor
  · intro other hother
    obtain ⟨rfl, hnew⟩ := h.named other (hadvanced.name other hother)
    refine ⟨rfl, fun own src tag hmem => ?_⟩
    rcases List.mem_append.1 hmem with hmem | hmem
    · exact hnew own src tag hmem
    · exact hname own src tag other (List.mem_singleton.1 hmem).symm hother
  · intro a ha
    rw [hadvanced.own, hadvanced.src, hadvanced.tag, hlogs, List.mem_append]
    exact (hadvanced.state a ha).imp_left (h.answered a)

/-- The receive was begun at some time in the history. -/
def TracesTo (e : Endpoints) (history : List Call) (r : Receive) : Prop :=
  ∃ before name since, history = before ++ .begin r.own r.src r.tag name :: since ∧
    e.Begun before name since r

/-- Every receive was begun at some time. -/
def Traced (e : Endpoints) (history : List Call) : Prop :=
  ∀ r ∈ (e.calls history).receives, e.TracesTo history r

theorem TracesTo.call {history : List Call} {c : Call} {r r' : Receive}
    (h : e.TracesTo history r) (hadvanced : Advanced ((e.calls history).log c) r r')
    (hname : ∀ own src tag other, c = .begin own src tag other → r'.name ≠ some other) :
    e.TracesTo (history ++ [c]) r' := by
  obtain ⟨before, name, since, rfl, hbegun⟩ := h
  refine ⟨before, name, since ++ [c], ?_, hbegun.call hadvanced hname⟩
  rw [hadvanced.own, hadvanced.src, hadvanced.tag, List.append_assoc, List.cons_append]

/-- The receive that the latest call began. -/
theorem tracesTo_begin {history : List Call} {own src : Rank} {tag : Tag} {name : String}
    {r' : Receive}
    (hadvanced : Advanced ((e.calls history).log (.begin own src tag name))
      { name := some name, own, src, tag } r') :
    e.TracesTo (history ++ [.begin own src tag name]) r' := by
  obtain ⟨hown, hsrc, htag, hname, hstate⟩ := hadvanced
  refine ⟨history, name, [], by rw [hown, hsrc, htag], ?_, ?_⟩
  · intro other hother
    exact ⟨(Option.some.inj (hname other hother)).symm, fun _ _ _ => List.not_mem_nil⟩
  · intro a ha
    rw [hown, hsrc, htag]
    refine (hstate a ha).elim nofun fun hlogged => ?_
    exact List.mem_append_left _ hlogged

theorem Traced.call {history : List Call} {c : Call} (h : e.Traced history)
    (hattached : (e.calls history).Attached) (hallows : (e.calls history).allows c = true) :
    e.Traced (history ++ [c]) := by
  intro r' hr'
  rw [calls_append] at hr'
  have hsame : (∀ own src tag other, c ≠ .begin own src tag other) →
      ((e.calls history).call c).receives = (e.calls history).receives →
        e.TracesTo (history ++ [c]) r' := by
    intro hc hreceives
    have hr : r' ∈ (e.calls history).receives := hreceives ▸ hr'
    exact (h r' hr).call (.refl _ _) fun own src tag other heq =>
      absurd heq (hc own src tag other)
  cases c with
  | send own dest tag data => exact hsame nofun rfl
  | receive own src tag =>
    obtain ⟨r, hr, hadvanced⟩ := exists_of_mem_settle hattached hr'
    exact (h r hr).call (hadvanced.mono (List.subset_append_left _ _)) nofun
  | begin own src tag name =>
    obtain ⟨r, hr, hadvanced⟩ :=
      exists_of_mem_settle (attached_join hattached own src tag name) hr'
    rcases exists_of_mem_join hr with rfl | ⟨hname, r₀, hr₀, hjoined⟩
    · exact tracesTo_begin hadvanced
    · refine (h r₀ hr₀).call ((hjoined _).trans hadvanced) ?_
      intro own' src' tag' other heq hother
      cases heq
      exact hname (hadvanced.name name hother)
  | collect name =>
    have hsettled : r' ∈ (e.calls history).settle.receives :=
      ((e.calls history).collect_eq name).2 r' hr'
    obtain ⟨r, hr, hadvanced⟩ := exists_of_mem_settle hattached hsettled
    exact (h r hr).call hadvanced nofun
  | retire own tag =>
    refine hsame nofun ?_
    show ((e.calls history).retire own tag).receives = (e.calls history).receives
    rw [retire_eq hallows]
  | abandon own tag =>
    refine hsame nofun ?_
    show ((e.calls history).abandon own tag).receives = (e.calls history).receives
    rw [abandon_eq hallows]
  | drop own =>
    refine hsame nofun ?_
    show (((e.calls history).leave own).closeIdle own).receives = (e.calls history).receives
    rw [closeIdle_eq]
    split <;> rfl

/-- Whatever is pending or answered after a history that is allowed was begun in it. -/
theorem traced_calls {earlier later : List Call} (h : e.Traced earlier)
    (hattached : (e.calls earlier).Attached)
    (hallows : (e.calls earlier).orderly later = true) : e.Traced (earlier ++ later) := by
  induction later generalizing earlier with
  | nil => rwa [List.append_nil]
  | cons c later ih =>
    rw [orderly, Bool.and_eq_true] at hallows
    have hcalls : e.calls (earlier ++ [c]) = (e.calls earlier).call c := e.calls_append earlier [c]
    rw [List.append_cons]
    refine ih (h.call hattached hallows.1) ?_ ?_
    · rw [hcalls]
      exact (leads_call hattached hallows.1).2
    · rw [hcalls]
      exact hallows.2

theorem traced_ofSize (size : Nat) : (ofSize size).Traced [] :=
  fun _ hr => absurd hr List.not_mem_nil

/-! ## What is handed out -/

/-- The answer was logged for a receive that was begun under the name, and no other one was begun
under it since. -/
def Answers (e : Endpoints) (history : List Call) (name : String) (a : Answer) : Prop :=
  ∃ before own src tag since, history = before ++ .begin own src tag name :: since ∧
    (∀ own src tag, .begin own src tag name ∉ since) ∧
    (.receive own src tag, .received (some a)) ∈
      (e.calls before).logs (.begin own src tag name :: since)

theorem exists_of_collect {name : String} {a : Answer}
    (h : (e.collect name).1 = some (some a)) :
    ∃ r ∈ e.settle.receives, r.name = some name ∧ r.state = .answered a := by
  unfold collect at h
  dsimp only at h
  split at h
  · cases h
  next r hfind =>
    have hname : r.name = some name := by simpa using List.find?_some hfind
    split at h
    next b hstate =>
      cases h
      exact ⟨r, List.mem_of_find?_eq_some hfind, hname, hstate⟩
    · cases h

/-- Nothing is handed out but what was logged for the latest receive of that name. -/
theorem answers_collect {history : List Call} {name : String} {a : Answer}
    (htraced : e.Traced history) (hattached : (e.calls history).Attached)
    (h : ((e.calls history).collect name).1 = some (some a)) :
    e.Answers (history ++ [.collect name]) name a := by
  obtain ⟨r', hr', hname, hstate⟩ := exists_of_collect h
  obtain ⟨r, hr, hadvanced⟩ := exists_of_mem_settle hattached hr'
  obtain ⟨before, first, since, hhistory, hbegun⟩ :=
    (htraced r hr).call (c := .collect name) hadvanced nofun
  obtain ⟨rfl, hlatest⟩ := hbegun.named name hname
  exact ⟨before, r'.own, r'.src, r'.tag, since, hhistory, hlatest, hbegun.answered a hstate⟩

/-- The endpoints of a fresh mesh of any size are served by independent queues, whatever the calls
and their order, as long as no rank gives up a tag on which a receive of its own is pending: all
that is sent, received, given up and closed is answered as the queues answer it, and leaves the
mesh as it leaves them.  What is handed out under a name is what the queues answered to the latest
receive of that name. -/
theorem independent_queues (size : UInt32) (history : List Call)
    (h : (ofSize size.toNat).orderly history = true) :
    (∃ q, Use.Leads Queues.use { size } ((ofSize size.toNat).logs history) q ∧
      ((ofSize size.toNat).calls history).mesh.Shows q) ∧
    ∀ earlier name later a, history = earlier ++ .collect name :: later →
      (((ofSize size.toNat).calls earlier).collect name).1 = some (some a) →
        (ofSize size.toNat).Answers (earlier ++ [.collect name]) name a := by
  have hfresh : (ofSize size.toNat).Attached := attached_ofSize size.toNat
  refine ⟨(Mesh.shows_ofSize size).leads (leads_calls hfresh h).1, ?_⟩
  rintro earlier name later a rfl hcollect
  rw [orderly_append, Bool.and_eq_true] at h
  have htraced : (ofSize size.toNat).Traced earlier :=
    traced_calls (traced_ofSize size.toNat) hfresh h.1
  exact answers_collect htraced (leads_calls hfresh h.1).2 hcollect

/-- Between two ranks: a receive that waits for its message, messages under two tags of which one
is given up, and a rank that leaves with a message in its queue. -/
def farewell : List Call :=
  [.begin 1 0 7 "first", .send 0 1 7 [1], .send 0 1 8 [2], .collect "first", .send 0 1 7 [3],
    .abandon 1 7, .send 0 1 7 [4], .receive 1 0 7, .drop 1, .send 0 1 8 [5], .send 0 2 8 [6],
    .receive 1 0 8]

theorem independent_queues_farewell :
    (ofSize 2).orderly farewell = true ∧
      (∃ q, Use.Leads Queues.use { size := 2 }
          [(.receive 1 0 7, .received none), (.send 0 1 7 [1], .sent (.ok ())),
            (.send 0 1 8 [2], .sent (.ok ())), (.receive 1 0 7, .received (some (.ok [1]))),
            (.send 0 1 7 [3], .sent (.ok ())), (.abandon 1 7, .done),
            (.send 0 1 7 [4], .sent (.ok ())), (.receive 1 0 7, .received none), (.close 1, .done),
            (.send 0 1 8 [5], .sent (.error (.peerDisconnected 1))),
            (.send 0 2 8 [6], .sent (.error (.invalidRank 2 2))),
            (.receive 1 0 8, .received (some (.ok [2])))] q ∧
        ((ofSize 2).calls farewell).mesh.Shows q) ∧
      (((ofSize 2).calls (farewell.take 3)).collect "first").1 = some (some (.ok [1])) ∧
      (ofSize 2).Answers (farewell.take 4) "first" (.ok [1]) :=
  have hruns := independent_queues 2 farewell (by decide)
  ⟨by decide, hruns.1, rfl, hruns.2 (farewell.take 3) "first" (farewell.drop 4) (.ok [1]) rfl rfl⟩

end Endpoints

end Collectives
