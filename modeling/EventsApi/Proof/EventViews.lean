import EventsApi.Events.Views
import EventsApi.Library.ReadCommitted.CommitOrder

/-!
# The popularity of an event

A view reads the event, builds the response and then counts itself in an `UPDATE` that looks at the
newest counter. So no view is lost, whatever else goes on, and the counter in a response counts the
views that had been committed when its event was read.
-/

namespace EventsApi

open ReadCommitted

/-- An event that has been viewed so many times more. -/
def Event.viewed {Num : Type} (views : Nat) (event : Event Num) : Event Num :=
  { event with popularityCounter := event.popularityCounter + views }

@[simp]
theorem Event.viewed_zero {Num : Type} (event : Event Num) : event.viewed 0 = event := by
  simp [viewed]

@[simp]
theorem Event.viewed_id {Num : Type} (views : Nat) (event : Event Num) :
    (event.viewed views).id = event.id := rfl

theorem Event.viewed_viewed {Num : Type} (first second : Nat) (event : Event Num) :
    (event.viewed first).viewed second = event.viewed (first + second) := by
  simp [viewed, Int.add_assoc]

variable {Num : Type} [LinearOrder Num]

/-- What a view makes of an event. -/
def countView (eventId : EventId) (event : Event Num) : Event Num :=
  if event.id = eventId.val then event.viewed 1 else event

abbrev ViewWorld (Num : Type) [LinearOrder Num] := World (eventDatabase Num) EventId

variable (Num) in
def viewEffects : Effects (eventDatabase Num) EventId (Event Num) where
  table := eventTable Num
  content := EventRow.event
  effect := countView

/-- How often an event has been viewed, by the transactions that have committed. -/
def viewsOf (eventId : Int) (request : Txn → Option EventId)
    (trace : List (Entry (eventDatabase Num))) : Nat :=
  (performed request trace).countP (·.val = eventId)

/-- Of the views only those of the event count. -/
theorem replay_views (views : List EventId) (event : Event Num) :
    (viewEffects Num).replay views event = event.viewed (views.countP (·.val = event.id)) := by
  induction views with
  | nil => simp [Effects.replay]
  | cons view earlier ih =>
      have hstep : (viewEffects Num).replay (view :: earlier) event
          = countView view (event.viewed (earlier.countP (·.val = event.id))) :=
        congrArg (countView view) ih
      rw [hstep, countView, Event.viewed_id, List.countP_cons]
      by_cases hid : event.id = view.val
      · rw [if_pos hid, Event.viewed_viewed, if_pos (decide_eq_true hid.symm)]
      · rw [if_neg hid, if_neg fun h => hid (of_decide_eq_true h).symm, Nat.add_zero]

variable {request request' : Txn → Option EventId} {earlier : List (Entry (eventDatabase Num))}
  {eventId : EventId}

theorem viewsOf_append (later : List (Entry (eventDatabase Num))) :
    viewsOf eventId request (later ++ earlier)
      = viewsOf eventId request later + viewsOf eventId request earlier := by
  rw [viewsOf, performed_append, List.countP_append]
  rfl

theorem viewsOf_cons_of_ne {e : Entry (eventDatabase Num)} (h : e.event ≠ .committed) :
    viewsOf eventId request (e :: earlier) = viewsOf eventId request earlier := by
  rw [viewsOf, performed_cons_of_ne h]
  rfl

theorem viewsOf_congr (h : ∀ e ∈ earlier, request' e.txn = request e.txn) :
    viewsOf eventId request' earlier = viewsOf eventId request earlier := by
  rw [viewsOf, performed_congr h]
  rfl

theorem viewsOf_pos {t : Txn} (hrequest : request t = some eventId)
    (hcommitted : ∃ e ∈ earlier, e.txn = t ∧ e.event = .committed) :
    0 < viewsOf eventId request earlier :=
  List.countP_pos_iff.mpr ⟨eventId, mem_performed hrequest hcommitted, decide_eq_true rfl⟩

/-! ### Assertions -/

variable {start : Nat → Option (Event Num)} {t : Txn} {w w' : ViewWorld Num} {event : Event Num}

/-- A view that has not counted itself yet, and holds no lock. -/
structure Viewing (eventId : EventId) (t : Txn) (w : ViewWorld Num) : Prop where
  asked : w.request t = some eventId
  unlocked : ∀ id, ¬ (w.slot (eventTable Num) id).HeldBy t
  uncommitted : ¬ w.HasCommitted t

variable (start) in
/-- The transaction has read the event, at a moment when so many views had been committed. -/
inductive ReadAt (eventId : EventId) (t : Txn) (event : Event Num) (w : ViewWorld Num) : Prop where
  | intro (id : Nat) (first : Event Num) (clock : Int) (rows : List (Nat × EventRow Num))
      (later earlier : List (Entry (eventDatabase Num))) (hstart : start id = some first)
      (hid : first.id = eventId.val)
      (htrace : w.trace = later ++ ⟨t, clock, .selected (eventTable Num) rows⟩ :: earlier)
      (huncommitted : ∀ e ∈ earlier, e.txn = t → e.event ≠ .committed)
      (hevent : event = first.viewed (viewsOf eventId w.request earlier))

theorem ReadAt.later (h : ReadAt start eventId t event w) (hgrows : RecordGrows w w') :
    ReadAt start eventId t event w' := by
  obtain ⟨id, first, clock, rows, later, earlier, hstart, hid, hread, huncommitted, hevent⟩ := h
  obtain ⟨new, hnew⟩ := hgrows.trace
  refine ⟨id, first, clock, rows, new ++ later, earlier, hstart, hid, ?_, huncommitted, ?_⟩
  · rw [hnew, hread, List.append_assoc]
  · rw [viewsOf_congr fun e he => ?_]
    · exact hevent
    · exact hgrows.request e (hread ▸ List.mem_append_right _ (List.mem_cons_of_mem _ he))

/-- The view that read the event is not among those that it saw. -/
theorem ReadAt.excludes_own (h : ReadAt start eventId t event w)
    (hrequest : w.request t = some eventId) (hcommitted : w.HasCommitted t) :
    ∃ id first views, start id = some first ∧ first.id = eventId.val
      ∧ event = first.viewed views ∧ views < viewsOf eventId w.request w.trace := by
  obtain ⟨id, first, clock, rows, later, earlier, hstart, hid, hread, huncommitted, hevent⟩ := h
  refine ⟨id, first, _, hstart, hid, hevent, ?_⟩
  have hlater : ∃ e ∈ later, e.txn = t ∧ e.event = .committed := by
    obtain ⟨e, he, hown, hcommit⟩ := hcommitted
    rw [hread] at he
    obtain he | he := List.mem_append.mp he
    · exact ⟨e, he, hown, hcommit⟩
    · obtain rfl | he := List.mem_cons.mp he
      · cases hcommit
      · exact absurd hcommit (huncommitted e he hown)
  calc viewsOf eventId w.request earlier
      < viewsOf eventId w.request later + viewsOf eventId w.request earlier :=
        Nat.lt_add_of_pos_left (viewsOf_pos hrequest hlater)
    _ = viewsOf eventId w.request w.trace := by
        rw [hread, viewsOf_append, viewsOf_cons_of_ne (by rintro ⟨⟩)]

/-- A view that arrives later sees all the views that had been committed before. -/
theorem ReadAt.includes_earlier (h : ReadAt start eventId t event w') (hgrows : RecordGrows w w')
    (hfresh : ∀ e ∈ w.trace, e.txn ≠ t) :
    ∃ id first views, start id = some first ∧ first.id = eventId.val
      ∧ event = first.viewed views ∧ viewsOf eventId w.request w.trace ≤ views := by
  obtain ⟨id, first, clock, rows, later, earlier, hstart, hid, hread, _, hevent⟩ := h
  refine ⟨id, first, _, hstart, hid, hevent, ?_⟩
  obtain ⟨new, hnew⟩ := hgrows.trace
  obtain ⟨between, hbetween⟩ : ∃ between, earlier = between ++ w.trace := by
    have hunread : ⟨t, clock, .selected (eventTable Num) rows⟩ ∉ w.trace := fun he =>
      hfresh _ he rfl
    obtain ⟨after, _, htail⟩ | ⟨after, _, htail⟩ :=
      List.append_eq_append_iff.mp (hread.symm.trans hnew)
    · obtain ⟨_, hstart⟩ | ⟨between, _, hbetween⟩ := List.cons_eq_append_iff.mp htail
      · exact absurd (hstart ▸ List.mem_cons_self) hunread
      · exact ⟨between, hbetween⟩
    · exact absurd (htail ▸ List.mem_append_right _ List.mem_cons_self) hunread
  calc viewsOf eventId w.request w.trace
      = viewsOf eventId w'.request w.trace := (viewsOf_congr hgrows.request).symm
    _ ≤ viewsOf eventId w'.request between + viewsOf eventId w'.request w.trace :=
        Nat.le_add_left _ _
    _ = viewsOf eventId w'.request earlier := by rw [hbetween, viewsOf_append]

theorem Viewing.stable :
    ((viewEffects Num).discipline start).Stable t (Viewing eventId t) := fun h hw =>
  ⟨hw.others.request t eventId h.asked, fun id => hw.others.not_mine _ id (h.unlocked id),
    fun hcommitted => h.uncommitted (hw.others.hasCommitted_self hcommitted)⟩

/-! ### The stored events -/

theorem event_of_start (hinv : (viewEffects Num).Follow start w) {id : Nat} {first : Event Num}
    (hstart : start id = some first) :
    ∃ row : EventRow Num, (w.slot (eventTable Num) id).committed = some row
      ∧ row.event = first.viewed (viewsOf first.id w.request w.trace) := by
  obtain ⟨row, hrow, hcontent⟩ := hinv.row_of_start hstart
  exact ⟨row, hrow, hcontent.trans (replay_views _ first)⟩

theorem start_of_event (hinv : (viewEffects Num).Follow start w) {id : Nat} {row : EventRow Num}
    (hrow : (w.slot (eventTable Num) id).committed = some row) : ∃ first, start id = some first
      ∧ row.event = first.viewed (viewsOf first.id w.request w.trace) := by
  obtain ⟨first, hstart, hcontent⟩ := hinv.start_of_row hrow
  exact ⟨first, hstart, hcontent.trans (replay_views _ first)⟩

variable (start) in
/-- What `get` says of the event: how it was when the statement ran, or that there is none. -/
structure FoundEvent (eventId : EventId) (t : Txn) (found : Option (Event Num)) (w : ViewWorld Num) :
    Prop where
  viewing : Viewing eventId t w
  missing : found = none → ∀ id first, start id = some first → first.id ≠ eventId.val
  read : ∀ event, found = some event →
    ∃ stored : Event Num, event = stored.loaded ∧ ReadAt start eventId t stored w

theorem Viewing.get {choice : Choice} {rows : List (Nat × EventRow Num)}
    (h : Viewing eventId t w) (hsound : w.Sound) (hinv : (viewEffects Num).Follow start w)
    (hexec : (Op.select (eventTable Num) (EventRow.hasId eventId)).exec t choice w
      = some (rows, w')) :
    ((viewEffects Num).discipline start).Keeps t w w'
      ∧ FoundEvent start eventId t (rows.head?.map (·.2.event.loaded)) w' := by
  obtain ⟨rfl, _, hrows⟩ := exec_select hexec
  refine ⟨(hinv.note (by rintro ⟨⟩)).keeps hsound hexec, ⟨h.asked, h.unlocked, ?_⟩, ?_, ?_⟩
  · rintro ⟨e, he, hown, hevent⟩
    obtain rfl | he := List.mem_cons.mp he
    · cases hevent
    · exact h.uncommitted ⟨e, he, hown, hevent⟩
  · intro hnone id first hstart hid
    obtain ⟨row, hrow, hevent⟩ := event_of_start hinv hstart
    have hview := (Slot.view_eq_committed (h.unlocked id)).trans hrow
    have hmatches : EventRow.hasId eventId id row = true :=
      beq_iff_eq.mpr ((congrArg Event.id hevent).trans hid)
    have hmem := exec_select_mem hsound hexec hview hmatches
    rw [Option.map_eq_none_iff, List.head?_eq_none_iff] at hnone
    exact List.not_mem_nil (hnone ▸ hmem)
  · intro event hfound
    obtain ⟨⟨id, row⟩, hhead, rfl⟩ := Option.map_eq_some_iff.mp hfound
    obtain ⟨_, hview, hmatches⟩ := (hrows id row).mp (List.mem_of_mem_head? hhead)
    obtain ⟨first, hstart, hevent⟩ := start_of_event hinv
      ((Slot.view_eq_committed (h.unlocked id)).symm.trans hview)
    have hid : first.id = eventId.val :=
      (congrArg Event.id hevent).symm.trans (beq_iff_eq.mp hmatches)
    refine ⟨row.event, rfl, id, first, w.clock, rows, [], w.trace, hstart, hid, rfl, ?_, ?_⟩
    · exact fun e he hown hcommitted => h.uncommitted ⟨e, he, hown, hcommitted⟩
    · rw [hevent, hid]
      rfl

/-! ### The count -/

variable (start) in
/-- The event has been read and the `UPDATE` is under way: these rows are still to be locked. -/
structure Counting (eventId : EventId) (t : Txn) (event : Event Num) (ids : List Nat)
    (w : ViewWorld Num) : Prop where
  asked : w.request t = some eventId
  read : ReadAt start eventId t event w
  nodup : ids.Nodup
  waiting : ∀ id ∈ ids, ¬ (w.slot (eventTable Num) id).HeldBy t
  all : ∀ id first, start id = some first → first.id = eventId.val →
    id ∈ ids ∨ (w.slot (eventTable Num) id).HeldBy t

theorem Counting.stable {ids : List Nat} :
    ((viewEffects Num).discipline start).Stable t (Counting start eventId t event ids) := by
  intro w w' h hw
  constructor
  · exact hw.others.request t eventId h.asked
  · exact h.read.later hw.rely
  · exact h.nodup
  · exact fun id hid => hw.others.not_mine _ id (h.waiting id hid)
  · intro id first hstart hid
    refine (h.all id first hstart hid).imp_right ?_
    rintro ⟨version, hheld⟩
    exact ⟨version, by rw [hw.others.mine _ _ _ hheld, hheld]⟩

theorem Viewing.select {choice : Choice} {rows : List (Nat × EventRow Num)}
    (h : Viewing eventId t w) (hread : ReadAt start eventId t event w) (hsound : w.Sound)
    (hinv : (viewEffects Num).Follow start w)
    (hexec : (Op.select (eventTable Num) (EventRow.hasId eventId)).exec t choice w
      = some (rows, w')) :
    ((viewEffects Num).discipline start).Keeps t w w'
      ∧ Counting start eventId t event (rows.map (·.1)) w' := by
  have hread' : ReadAt start eventId t event w' := hread.later (.exec hsound hexec)
  have hmem : ∀ id row, (w.slot (eventTable Num) id).view t = some row →
      EventRow.hasId eventId id row = true → (id, row) ∈ rows := fun id row hview hmatches =>
    exec_select_mem hsound hexec hview hmatches
  have hkeeps := fun hinv' : (viewEffects Num).Follow start w' => hinv'.keeps hsound hexec
  obtain ⟨rfl, hperm, _⟩ := exec_select hexec
  refine ⟨hkeeps (hinv.note (by rintro ⟨⟩)), h.asked, hread',
    hperm.nodup_iff.mpr (World.nodup_matching _), fun id _ => h.unlocked id, ?_⟩
  intro id first hstart hid
  obtain ⟨row, hrow, hevent⟩ := event_of_start hinv hstart
  have hview := (Slot.view_eq_committed (h.unlocked id)).trans hrow
  refine .inl (List.mem_map_of_mem (hmem id row hview ?_))
  exact beq_iff_eq.mpr ((congrArg Event.id hevent).trans hid)

/-- The `UPDATE` of a row makes of its event what the view does. -/
theorem bump_event {Num : Type} (eventId : EventId) (id : Nat) (startedAt : Int)
    (row : EventRow Num) :
    (if EventRow.hasId eventId id row then Events.bump startedAt row else row).event
      = countView eventId row.event := by
  unfold countView
  by_cases hid : row.event.id = eventId.val
  · have hmatches : EventRow.hasId eventId id row = true := beq_iff_eq.mpr hid
    rw [if_pos hmatches, if_pos hid]
    rfl
  · have hmatches : ¬ EventRow.hasId eventId id row = true := fun h => hid (beq_iff_eq.mp h)
    rw [if_neg hmatches, if_neg hid]

/-- The counter of one row, whose newest version is looked at. -/
theorem Counting.lock {id : Nat} {ids : List Nat} {startedAt : Int} {choice : Choice}
    {found : Option (EventRow Num)} (h : Counting start eventId t event (id :: ids) w)
    (hsound : w.Sound)
    (hinv : (viewEffects Num).Follow start w)
    (hexec : (Op.lock (eventTable Num) id (EventRow.hasId eventId id)
      fun row => some (Events.bump startedAt row)).exec t choice w = some (found, w')) :
    ((viewEffects Num).discipline start).Keeps t w w' ∧ Counting start eventId t event ids w' := by
  have hwaiting := h.waiting id List.mem_cons_self
  have hinv' : (viewEffects Num).Follow start w' :=
    hinv.lock h.asked hwaiting (bump_event eventId id startedAt) hexec
  refine ⟨hinv'.keeps hsound hexec, ?_, h.read.later (.exec hsound hexec), h.nodup.of_cons, ?_, ?_⟩
  · rw [Op.exec_request hexec]
    exact h.asked
  · intro id' hid'
    have hne : id' ≠ id := fun heq => (List.nodup_cons.mp h.nodup).1 (heq ▸ hid')
    rw [exec_lock_slot_of_ne hexec fun hsame => hne hsame.2]
    exact h.waiting id' (List.mem_cons_of_mem _ hid')
  · intro id' first hstart hid
    by_cases heq : id' = id
    · subst heq
      right
      obtain ⟨row, hrow, _⟩ := event_of_start hinv hstart
      have hview := (Slot.view_eq_committed hwaiting).trans hrow
      obtain ⟨_, ⟨hnone, _⟩ | ⟨_, _, ⟨_, _, rfl⟩ | ⟨_, _, rfl⟩⟩⟩ := exec_lock hexec
      · cases hview.symm.trans hnone
      · exact ⟨_, congrArg Slot.held (World.write_slot_self _)⟩
      · exact ⟨_, congrArg Slot.held (World.write_slot_self _)⟩
    · rw [exec_lock_slot_of_ne hexec fun hsame => heq hsame.2]
      refine (h.all id' first hstart hid).imp_left fun hmem => ?_
      exact (List.mem_cons.mp hmem).resolve_left heq

/-- The commit: the events of other ids are not locked, and not concerned. -/
theorem Counting.commit {choice : Choice} {answer : Unit} (h : Counting start eventId t event [] w)
    (hsound : w.Sound) (hinv : (viewEffects Num).Follow start w)
    (hexec : Op.commit.exec t choice w = some (answer, w')) :
    ((viewEffects Num).discipline start).Keeps t w w'
      ∧ ReadAt start eventId t event w' ∧ w'.HasCommitted t := by
  have hread := h.read.later (.exec hsound hexec)
  obtain rfl := exec_commit hexec
  refine ⟨(hinv.commit h.asked fun id row hrow hunheld => if_neg fun hid => ?_).keeps hsound hexec,
    hread, ⟨t, w.clock, .committed⟩, List.mem_cons_self, rfl, rfl⟩
  obtain ⟨first, hstart, hevent⟩ := start_of_event hinv hrow
  have hfirst : first.id = eventId.val := (congrArg Event.id hevent).symm.trans hid
  exact (h.all id first hstart hfirst).elim List.not_mem_nil hunheld

theorem safe_get (h : Viewing eventId t w) :
    ((viewEffects Num).discipline start).Safe t
      (fun r w => ∃ found, r = .ok found ∧ FoundEvent start eventId t found w)
      (Events.get eventId : EventDb Num _) w := by
  refine Discipline.Safe.scalar_bind Viewing.stable h
    (fun hviewing hsound hinv _ hexec => hviewing.get hsound hinv hexec) fun rows w hgot => ?_
  exact ⟨_, rfl, hgot⟩

/-- The view is counted, and the event that was read stays read. -/
theorem safe_incrementPopularity {startedAt : Int} (h : Viewing eventId t w)
    (hread : ReadAt start eventId t event w) :
    ((viewEffects Num).discipline start).Safe t
      (fun r w => r = .ok () ∧ ReadAt start eventId t event w ∧ w.HasCommitted t)
      (Events.incrementPopularity eventId startedAt : EventDb Num _) w := by
  have hviewing : ((viewEffects Num).discipline start).Stable t
      (fun w => Viewing eventId t w ∧ ReadAt start eventId t event w) :=
    fun h hw => ⟨Viewing.stable h.1 hw, h.2.later hw.rely⟩
  have hupdate : ((viewEffects Num).discipline start).Safe t
      (fun r w => ∃ more, r = .ok more ∧ Counting start eventId t event [] w)
      (Prog.updateWhere (eventTable Num) (EventRow.hasId eventId) (Events.bump startedAt)
        : EventDb Num _) w := by
    refine Discipline.Safe.exec hviewing ⟨h, hread⟩
      (K := fun rows w => Counting start eventId t event (rows.map (·.1)) w)
      (fun h hsound hinv _ hexec => h.1.select h.2 hsound hinv hexec) fun rows w hcounting => ?_
    exact Discipline.Safe.lockEach (J := fun ids _ w => Counting start eventId t event ids w)
      (fun _ _ => Counting.stable) (fun h hsound hinv _ hexec => h.lock hsound hinv hexec) []
      hcounting
  refine hupdate.bind ?_ ?_
  · rintro _ w ⟨more, ⟨⟩, hcounted⟩
    exact Discipline.Safe.exec Counting.stable hcounted
      (K := fun _ w => ReadAt start eventId t event w ∧ w.HasCommitted t)
      (fun h hsound hinv _ hexec => h.commit hsound hinv hexec) fun _ w h => ⟨rfl, h⟩
  · rintro _ _ ⟨_, ⟨⟩, _⟩

/-! ### The request -/

variable [Zero Num] {cf : Like.CaseFold} {priceText : Num → String}

variable (start) in
/-- What a request may end with. -/
inductive ViewAnswered (cf : Like.CaseFold) (priceText : Num → String) (eventId : EventId) (t : Txn)
    (w : ViewWorld Num) : Except Exn (EventResponse Num) → Prop where
  | viewed {event : Event Num} (hread : ReadAt start eventId t event w)
      (hcommitted : w.HasCommitted t) :
      ViewAnswered cf priceText eventId t w
        (.ok (EventResponse.fromEvent cf priceText event.loaded))
  | missing (hnone : ∀ id first, start id = some first → first.id ≠ eventId.val)
      (huncommitted : ¬ w.HasCommitted t) :
      ViewAnswered cf priceText eventId t w (.error (eventNotFound eventId))
  | lost : ViewAnswered cf priceText eventId t w (.error .lost)

theorem ViewAnswered.stable (r : Except Exn (EventResponse Num)) :
    ((viewEffects Num).discipline start).Stable t
      (fun w => ViewAnswered start cf priceText eventId t w r) := by
  intro w w' h hw
  cases h with
  | viewed hread hcommitted =>
      exact .viewed (hread.later hw.rely) (hw.others.hasCommitted hcommitted)
  | missing hnone huncommitted =>
      exact .missing hnone fun hcommitted => huncommitted (hw.others.hasCommitted_self hcommitted)
  | lost => exact .lost

variable (start cf priceText) in
theorem viewSystem_verified :
    ((viewEffects Num).discipline start).Verified (viewSystem cf priceText)
      (fun eventId t r w => ViewAnswered start cf priceText eventId t w r) where
  stable _ _ r := ViewAnswered.stable r
  close eventId t r w _ _ h := by
    cases h with
    | viewed hread hcommitted =>
        exact .viewed (hread.later ⟨⟨[], rfl⟩, fun _ _ => rfl⟩) hcommitted
    | missing hnone huncommitted => exact .missing hnone huncommitted
    | lost => exact .lost
  lost _ _ _ _ := .lost
  handler eventId t w hsound hinv hfresh hrequest := by
    have h : Viewing eventId t w :=
      ⟨hrequest, hfresh.unlocked (eventTable Num), hfresh.uncommitted⟩
    refine Discipline.Safe.perform_bind Viewing.stable h (K := fun _ w => Viewing eventId t w)
      (fun h hsound hinv _ hexec => ?_) fun startedAt w h => ?_
    · obtain ⟨_, rfl⟩ := exec_now hexec
      exact ⟨hinv.keeps hsound hexec, h⟩
    refine (safe_get h).bind ?_ ?_
    · rintro found w ⟨_, ⟨⟩, hgot⟩
      cases found with
      | none => exact .missing (hgot.missing rfl) hgot.viewing.uncommitted
      | some event =>
          obtain ⟨stored, rfl, hread⟩ := hgot.read event rfl
          refine (safe_incrementPopularity hgot.viewing hread).bind ?_ ?_
          · rintro _ w ⟨_, hread, hcommitted⟩
            exact .viewed hread hcommitted
          · rintro _ _ ⟨⟨⟩, _⟩
    · rintro _ _ ⟨_, ⟨⟩, _⟩

/-! ### Runs -/

/-- The events that are stored, in the state that has been committed. -/
def storedEvents (w : ViewWorld Num) (id : Nat) : Option (Event Num) :=
  (w.slot (eventTable Num) id).committed.map EventRow.event

abbrev ViewConfig (Num : Type) [LinearOrder Num] :=
  Config (eventDatabase Num) EventId Exn (EventResponse Num)

section Runs

variable {c₀ c c' : ViewConfig Num}

omit [Zero Num] in
theorem follow_initial (hinit : c₀.Initial) : ∀ c, c = c₀ → c.Initial
    ∧ ((viewEffects Num).discipline (storedEvents c₀.world)).inv c.world := by
  rintro _ rfl
  exact ⟨hinit, .initial hinit.1⟩

theorem views_hold (hinit : c₀.Initial)
    (h : Transition.Reachable (viewSystem cf priceText).step (· = c₀) Transition.anyStep c) :
    Discipline.Holds ((viewEffects Num).discipline (storedEvents c₀.world))
      (fun eventId t r w => ViewAnswered (storedEvents c₀.world) cf priceText eventId t w r) c := by
  exact (viewSystem_verified (storedEvents c₀.world) cf priceText).holds (follow_initial hinit)
    (h.mono fun _ _ _ => Config.meets_of_forall fun _ _ _ => trivial)

omit [Zero Num] in
theorem storedEvents_eq (hinv : (viewEffects Num).Follow (storedEvents c₀.world) w) (id : Nat) :
    storedEvents w id = (storedEvents c₀.world id).map fun event =>
      event.viewed (viewsOf event.id w.request w.trace) :=
  calc storedEvents w id
      = (storedEvents c₀.world id).map ((viewEffects Num).replay (performed w.request w.trace)) :=
        hinv.stored id
    _ = _ := congrArg (Option.map · _) (funext (replay_views _))

/-- Every stored counter is a number that a float holds. -/
def ExactCounters (w : ViewWorld Num) : Prop :=
  ∀ id event, storedEvents w id = some event → event.popularityCounter.natAbs < 2 ^ 53

omit [Zero Num] in
/-- Counters only grow, so the one that was read lies between that of the start and the present
one. -/
theorem ReadAt.loaded_eq (hinv : (viewEffects Num).Follow (storedEvents c₀.world) w)
    (h : ReadAt (storedEvents c₀.world) eventId t event w) (hrequest : w.request t = some eventId)
    (hcommitted : w.HasCommitted t) (hstart : ExactCounters c₀.world) (hnow : ExactCounters w) :
    event.loaded = event := by
  obtain ⟨id, first, views, hfirst, hid, rfl, hviews⟩ := h.excludes_own hrequest hcommitted
  have hlow : first.popularityCounter.natAbs < 2 ^ 53 := hstart id first hfirst
  have hhigh : (first.popularityCounter + viewsOf eventId w.request w.trace).natAbs < 2 ^ 53 := by
    have hstored := storedEvents_eq hinv id
    rw [hfirst, Option.map_some, hid] at hstored
    exact hnow id _ hstored
  apply Event.loaded_of_lt
  change (first.popularityCounter + views).natAbs < 2 ^ 53
  omega

/-- **Views are counted in the order of time.** While floats hold the counters, a response that was
given before another view of the event arrived has the smaller counter. -/
theorem later_view_counts_more (hinit : c₀.Initial)
    (hids : ∀ id id' event event', storedEvents c₀.world id = some event →
      storedEvents c₀.world id' = some event' → event.id = event'.id → id = id')
    (h : Transition.Reachable (viewSystem cf priceText).step (· = c₀) Transition.anyStep c)
    (h' : Transition.Reachable (viewSystem cf priceText).step (· = c) Transition.anyStep c')
    (hstart : ExactCounters c₀.world) (hnow : ExactCounters c'.world)
    {t u : Txn} {response response' : EventResponse Num}
    (hresponse : c.outcome t = some (.ok response)) (harrives : c.client u = none)
    (hresponse' : c'.outcome u = some (.ok response'))
    (hsame : c'.world.request u = c.world.request t) :
    response.popularityCounter < response'.popularityCounter := by
  have hholds := views_hold hinit h
  have hholds' := views_hold hinit (h.trans h')
  have hgrows : RecordGrows c.world c'.world := by
    exact (viewSystem_verified (storedEvents c₀.world) cf priceText).lasts (follow_initial hinit)
      (P := RecordGrows c.world) (fun hrely hgrows => hgrows.trans hrely)
      (h.mono fun _ _ _ => Config.meets_of_forall fun _ _ _ => trivial) (.refl _)
      (h'.mono fun _ _ _ => Config.meets_of_forall fun _ _ _ => trivial)
  have hfresh : ∀ e ∈ c.world.trace, e.txn ≠ u := by
    have hstands := hholds.stands u
    unfold Discipline.Stands at hstands
    rw [harrives] at hstands
    exact hstands.1.untraced
  obtain ⟨eventId, hrequest, hanswered⟩ := hholds.outcome (Config.client_of_outcome hresponse)
  obtain ⟨eventId', hrequest', hanswered'⟩ :=
    hholds'.outcome (Config.client_of_outcome hresponse')
  obtain rfl : eventId' = eventId :=
    Option.some.inj (hrequest'.symm.trans (hsame.trans hrequest))
  cases hanswered with
  | viewed hread hcommitted =>
      cases hanswered' with
      | viewed hread' hcommitted' =>
          rw [hread'.loaded_eq hholds'.inv hrequest' hcommitted' hstart hnow,
            (hread.later hgrows).loaded_eq hholds'.inv
              ((hgrows.request_of_hasCommitted hcommitted).trans hrequest)
              (hgrows.hasCommitted hcommitted) hstart hnow]
          obtain ⟨id, first, views, hfirst, hid, rfl, hviews⟩ :=
            hread.excludes_own hrequest hcommitted
          obtain ⟨id', first', views', hfirst', hid', rfl, hviews'⟩ :=
            hread'.includes_earlier hgrows hfresh
          obtain rfl := hids id id' first first' hfirst hfirst' (hid.trans hid'.symm)
          cases hfirst.symm.trans hfirst'
          have hlt : views < views' := Nat.lt_of_lt_of_le hviews hviews'
          change first.popularityCounter + views < first.popularityCounter + views'
          omega

end Runs

/-! ### A run -/

/-- One event is stored, and nobody has viewed it. -/
def oneEvent : ViewConfig Int where
  world :=
    { slot := fun _ id => ⟨[⟨Event.bare Int 7 "Concert", 0⟩][id]?, none⟩
      next := fun _ => 1
      clock := 0
      drawn := []
      trace := []
      request := fun _ => none }
  client _ := none

theorem oneEvent_initial : oneEvent.Initial where
  left :=
    { unlocked := fun _ _ => rfl
      beyond := fun _ _ hle => congrArg (Slot.mk · none) (List.getElem?_eq_none hle)
      undrawn := rfl
      untraced := rfl
      unrequested := fun _ => rfl }
  right _ := rfl

/-- Two views read the event before either counts itself. The second waits for the lock of the
first. -/
def twoViews : List (Label EventId) :=
  [.spawn 0 ⟨7, by decide⟩, .spawn 1 ⟨7, by decide⟩,
    .exec 0 {}, .exec 0 { order := [0] }, .exec 1 {}, .exec 1 { order := [0] },
    .exec 0 { order := [0] }, .exec 1 { order := [0] }, .exec 0 {}, .exec 0 {}, .exec 1 {},
    .exec 1 {}]

def oneMoreView : List (Label EventId) :=
  [.spawn 2 ⟨7, by decide⟩, .exec 2 {}, .exec 2 { order := [0] }, .exec 2 { order := [0] },
    .exec 2 {}, .exec 2 {}]

def plainViews : System (eventDatabase Int) EventId Exn (EventResponse Int) :=
  viewSystem Like.CaseFold.ascii toString

/-- The counter in the response of a client. -/
def shownTo (c : ViewConfig Int) (t : Txn) : Option Int :=
  match c.outcome t with
  | some (.ok response) => some response.popularityCounter
  | _ => none

theorem plainViews_reachable {c c' : ViewConfig Int} {labels : List (Label EventId)}
    (hrun : Transition.run plainViews.step c labels = some c') :
    Transition.Reachable plainViews.step (· = c) Transition.anyStep c' := by
  apply Transition.reachable_of_run _ _ _ hrun
  · rfl
  · exact fun _ _ _ _ _ _ _ => trivial

theorem storedEvents_oneEvent {id : Nat} {event : Event Int}
    (h : storedEvents oneEvent.world id = some event) :
    id = 0 ∧ event = Event.bare Int 7 "Concert" := by
  cases id with
  | zero => exact ⟨rfl, (Option.some.inj h).symm⟩
  | succ id => cases h

theorem exactCounters_oneEvent : ExactCounters oneEvent.world := by
  intro id event hevent
  rw [(storedEvents_oneEvent hevent).2]
  decide

theorem exactCounters_of_viewed {c : ViewConfig Int}
    (h : Transition.Reachable plainViews.step (· = oneEvent) Transition.anyStep c) {views : Nat}
    (hstored : storedEvents c.world 0 = some ((Event.bare Int 7 "Concert").viewed views))
    (hviews : views < 2 ^ 53) : ExactCounters c.world := by
  intro id event hevent
  have hid : id = 0 := by
    rw [storedEvents_eq (views_hold oneEvent_initial h).inv, Option.map_eq_some_iff] at hevent
    obtain ⟨first, hfirst, -⟩ := hevent
    exact (storedEvents_oneEvent hfirst).1
  rw [hid, hstored] at hevent
  cases hevent
  change ((0 : Int) + views).natAbs < 2 ^ 53
  omega

theorem shownTo_eq {c : ViewConfig Int} {t : Txn} {counter : Int} (h : shownTo c t = some counter) :
    ∃ response, c.outcome t = some (.ok response) ∧ response.popularityCounter = counter := by
  unfold shownTo at h
  split at h
  · exact ⟨_, ‹_›, Option.some.inj h⟩
  · cases h

theorem later_view_counts_more_oneMoreView :
    ∃ c c' response response', Transition.run plainViews.step oneEvent twoViews = some c
      ∧ Transition.run plainViews.step c oneMoreView = some c'
      ∧ c.outcome 1 = some (.ok response) ∧ c'.outcome 2 = some (.ok response')
      ∧ response.popularityCounter < response'.popularityCounter := by
  have hrun : (Transition.run plainViews.step oneEvent twoViews).any fun c =>
      decide (shownTo c 1 = some 0) && (c.client 2).isNone
        && (Transition.run plainViews.step c oneMoreView).any fun c' =>
          decide (shownTo c' 2 = some 2 ∧ c'.world.request 2 = c.world.request 1
            ∧ storedEvents c'.world 0 = some ((Event.bare Int 7 "Concert").viewed 3)) := by decide
  obtain ⟨c, hc, hrun⟩ := (Option.any_eq_true _ _).mp hrun
  rw [Bool.and_eq_true, Bool.and_eq_true] at hrun
  obtain ⟨⟨hshown, harrives⟩, hrest⟩ := hrun
  obtain ⟨c', hc', hlater⟩ := (Option.any_eq_true _ _).mp hrest
  obtain ⟨hshown', hsame, hstored⟩ := of_decide_eq_true hlater
  obtain ⟨response, hresponse, _⟩ := shownTo_eq (of_decide_eq_true hshown)
  obtain ⟨response', hresponse', _⟩ := shownTo_eq hshown'
  refine ⟨c, c', response, response', hc, hc', hresponse, hresponse', ?_⟩
  have hids : ∀ id id' event event', storedEvents oneEvent.world id = some event →
      storedEvents oneEvent.world id' = some event' → event.id = event'.id → id = id' := by
    intro id id' event event' hevent hevent' _
    rw [(storedEvents_oneEvent hevent).1, (storedEvents_oneEvent hevent').1]
  have hexact : ExactCounters c'.world := exactCounters_of_viewed
    ((plainViews_reachable hc).trans (plainViews_reachable hc')) hstored (by decide)
  exact later_view_counts_more oneEvent_initial hids (plainViews_reachable hc)
    (plainViews_reachable hc') exactCounters_oneEvent hexact hresponse
    (Option.isNone_iff_eq_none.mp harrives) hresponse' hsame

end EventsApi
