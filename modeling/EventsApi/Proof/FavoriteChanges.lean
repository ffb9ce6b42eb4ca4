import EventsApi.Proof.SessionSteps
import EventsApi.Users.Repository

/-!
# Favorites follow the order of commits

A change of the favorites locks the row of the user before it looks at the newest list, and holds the
lock until it commits, so the list is what the committed changes make of it one after the other. An
addition is skipped when its statement already sees the id: it locks nothing, and what commits
before it does may remove the id again.
-/

namespace EventsApi

open ReadCommitted

/-! ### Lists of changes, the newest first -/

def FavoriteChange.apply : FavoriteChange → List Int → List Int
  | .add eventId, ids => if eventId ∈ ids then ids else ids ++ [eventId]
  | .remove eventId, ids => Users.arrayRemove ids eventId

def replay (start : List Int) : List FavoriteChange → List Int
  | [] => start
  | change :: earlier => change.apply (replay start earlier)

/-- The newest change of the id adds it, or there is none and it was there at the start. -/
def EndsPresent (start : List Int) (eventId : Int) (changes : List FavoriteChange) : Prop :=
  match changes.find? (·.eventId == eventId) with
  | some (.add _) => True
  | some (.remove _) => False
  | none => eventId ∈ start

/-- No change is about the id. -/
def untouched (changes : List FavoriteChange) (eventId : Int) : Bool :=
  changes.all (·.eventId != eventId)

theorem FavoriteChange.nodup_apply (change : FavoriteChange) {ids : List Int} (h : ids.Nodup) :
    (change.apply ids).Nodup := by
  cases change with
  | add eventId =>
      rw [apply]
      split
      · exact h
      · rename_i habsent
        exact h.append (List.nodup_singleton _) (by simpa using habsent)
  | remove eventId => exact h.filter _

theorem nodup_replay {start : List Int} (h : start.Nodup) (changes : List FavoriteChange) :
    (replay start changes).Nodup := by
  induction changes with
  | nil => exact h
  | cons change earlier ih => exact change.nodup_apply ih

/-- A change leaves the other ids alone, and in their order. -/
theorem FavoriteChange.filter_apply (change : FavoriteChange) (ids : List Int) {keep : Int → Bool}
    (h : keep change.eventId = false) : (change.apply ids).filter keep = ids.filter keep := by
  cases change with
  | add eventId =>
      rw [apply]
      split
      · rfl
      · rw [List.filter_append, List.filter_singleton, show keep eventId = false from h]
        exact List.append_nil _
  | remove eventId =>
      rw [apply, Users.arrayRemove, List.filter_filter]
      apply List.filter_congr
      intro id _
      by_cases heq : id = eventId
      · simp [heq, show keep eventId = false from h]
      · simp [heq]

theorem filter_replay (start : List Int) (changes : List FavoriteChange) :
    (replay start changes).filter (untouched changes) = start.filter (untouched changes) := by
  have hkeep : ∀ {keep : Int → Bool} {changes : List FavoriteChange},
      (∀ change ∈ changes, keep change.eventId = false) →
      (replay start changes).filter keep = start.filter keep := by
    intro keep changes h
    induction changes with
    | nil => rfl
    | cons change earlier ih =>
        calc (replay start (change :: earlier)).filter keep
            = (replay start earlier).filter keep :=
              change.filter_apply _ (h change List.mem_cons_self)
          _ = start.filter keep := ih fun other hmem => h other (List.mem_cons_of_mem _ hmem)
  apply hkeep
  intro change hmem
  apply Bool.eq_false_iff.mpr
  intro huntouched
  simpa using List.all_eq_true.mp huntouched change hmem

theorem FavoriteChange.mem_apply_add (eventId : Int) (ids : List Int) :
    eventId ∈ (FavoriteChange.add eventId).apply ids := by
  rw [apply]
  split
  · assumption
  · exact List.mem_append_right _ List.mem_cons_self

theorem FavoriteChange.not_mem_apply_remove (eventId : Int) (ids : List Int) :
    eventId ∉ (FavoriteChange.remove eventId).apply ids := by
  simp [apply, Users.arrayRemove]

theorem FavoriteChange.mem_apply_of_ne (change : FavoriteChange) {eventId : Int} (ids : List Int)
    (hne : change.eventId ≠ eventId) : eventId ∈ change.apply ids ↔ eventId ∈ ids := by
  have hkept : (change.apply ids).filter (· == eventId) = ids.filter (· == eventId) :=
    change.filter_apply ids (by simpa using hne)
  have hmem := congrArg (eventId ∈ ·) hkept
  simpa using hmem

theorem mem_replay_iff {start : List Int} {eventId : Int} {changes : List FavoriteChange} :
    eventId ∈ replay start changes ↔ EndsPresent start eventId changes := by
  induction changes with
  | nil => simp [replay, EndsPresent]
  | cons change earlier ih =>
      by_cases hsame : change.eventId = eventId
      · subst hsame
        cases change with
        | add eventId =>
            apply iff_of_true (FavoriteChange.mem_apply_add eventId _)
            simp [EndsPresent, FavoriteChange.eventId]
        | remove eventId =>
            apply iff_of_false (FavoriteChange.not_mem_apply_remove eventId _)
            simp [EndsPresent, FavoriteChange.eventId]
      · have hother : EndsPresent start eventId (change :: earlier)
            ↔ EndsPresent start eventId earlier := by
          simp [EndsPresent, hsame]
        rw [hother, ← ih]
        exact change.mem_apply_of_ne _ hsame

/-! ### The committed changes -/

abbrev FavoriteWorld := World database FavoriteRequest

/-- The event is a statement that found no user. -/
def foundNothing : ReadCommitted.Event database → Bool
  | .selected T rows => decide (T = userTable) && rows.isEmpty
  | _ => false

/-- The event is a statement that found a user. -/
def foundUser : ReadCommitted.Event database → Bool
  | .selected T rows => decide (T = userTable) && !rows.isEmpty
  | _ => false

/-- The transaction has nothing to change. -/
def Skipped (t : Txn) (trace : List (Entry database)) : Prop :=
  ∃ e ∈ trace, e.txn = t ∧ foundNothing e.event = true

instance (t : Txn) (trace : List (Entry database)) : Decidable (Skipped t trace) :=
  inferInstanceAs (Decidable (∃ e ∈ trace, e.txn = t ∧ foundNothing e.event = true))

/-- The changes of a user's favorites that were committed and not skipped, the newest first. -/
def committedChanges (userId : Nat) (request : Txn → Option FavoriteRequest) :
    List (Entry database) → List FavoriteChange
  | [] => []
  | e :: earlier =>
      let newest := (request e.txn).filter fun request =>
        decide (e.event = .committed ∧ request.userId = userId ∧ ¬ Skipped e.txn earlier)
      (newest.map (·.change)).toList ++ committedChanges userId request earlier

def FavoriteChange.AddsPresent (change : FavoriteChange) (ids : List Int) : Prop :=
  ∃ eventId, change = .add eventId ∧ eventId ∈ ids

/-- The statement of a change finds nothing if it adds an id that was in the committed list when it
ran, and finds the user otherwise. What a transaction reads after its commit is not its statement. -/
def SkipsPresent (start : Nat → Option (List Int)) (request : Txn → Option FavoriteRequest) :
    List (Entry database) → Prop
  | [] => True
  | e :: earlier =>
      (∀ userId change, request e.txn = some ⟨userId, change⟩ → ∀ ids ∈ start userId,
        (foundNothing e.event = true →
          change.AddsPresent (replay ids (committedChanges userId request earlier)))
        ∧ (foundUser e.event = true → (∀ e' ∈ earlier, e'.txn = e.txn → e'.event ≠ .committed) →
          ¬ change.AddsPresent (replay ids (committedChanges userId request earlier))))
      ∧ SkipsPresent start request earlier

theorem committedChanges_cons_of_ne {userId : Nat} {request : Txn → Option FavoriteRequest}
    {e : Entry database} {earlier : List (Entry database)} (h : e.event ≠ .committed) :
    committedChanges userId request (e :: earlier) = committedChanges userId request earlier := by
  simp [committedChanges, h]

theorem committedChanges_commit {userId : Nat} {requests : Txn → Option FavoriteRequest} {t : Txn}
    {request : FavoriteRequest} (h : requests t = some request) (clock : Int)
    (earlier : List (Entry database)) :
    committedChanges userId requests (⟨t, clock, .committed⟩ :: earlier)
      = if request.userId = userId ∧ ¬ Skipped t earlier
        then request.change :: committedChanges userId requests earlier
        else committedChanges userId requests earlier := by
  rw [committedChanges, h]
  by_cases hcounted : request.userId = userId ∧ ¬ Skipped t earlier
  · simp [hcounted, Option.filter]
  · rw [if_neg hcounted, Option.filter_some, if_neg (by simpa using hcounted)]
    rfl

/-- Requests of transactions that did nothing do not matter. -/
theorem committedChanges_congr {userId : Nat} {request request' : Txn → Option FavoriteRequest}
    {trace : List (Entry database)} (h : ∀ e ∈ trace, request' e.txn = request e.txn) :
    committedChanges userId request' trace = committedChanges userId request trace := by
  induction trace with
  | nil => rfl
  | cons e earlier ih =>
      rw [committedChanges, committedChanges, h e List.mem_cons_self,
        ih fun e' he' => h e' (List.mem_cons_of_mem _ he')]

theorem SkipsPresent.congr {start : Nat → Option (List Int)}
    {request request' : Txn → Option FavoriteRequest} {trace : List (Entry database)}
    (hsame : ∀ e ∈ trace, request' e.txn = request e.txn) (h : SkipsPresent start request trace) :
    SkipsPresent start request' trace := by
  induction trace with
  | nil => trivial
  | cons e earlier ih =>
      have hearlier : ∀ e' ∈ earlier, request' e'.txn = request e'.txn :=
        fun e' he' => hsame e' (List.mem_cons_of_mem _ he')
      refine ⟨fun userId change hreq ids hids => ?_, ih hearlier h.2⟩
      rw [committedChanges_congr hearlier]
      exact h.1 userId change (hsame e List.mem_cons_self ▸ hreq) ids hids

/-! ### The invariant -/

variable {start : Nat → Option (List Int)} {t u : Txn} {w w' : FavoriteWorld}
  {request : FavoriteRequest} {userId : Nat}

/-- The committed lists follow the committed changes, and a list under a lock is one change ahead. -/
structure FavoritesFollow (start : Nat → Option (List Int)) (w : FavoriteWorld) : Prop where
  stored : ∀ userId, (w.slot userTable userId).committed.map User.favoriteEventIds
    = (start userId).map fun ids => replay ids (committedChanges userId w.request w.trace)
  pending : ∀ userId t version, (w.slot userTable userId).held = some (t, version) →
    ∃ (old new : User) (change : FavoriteChange), (w.slot userTable userId).committed = some old
      ∧ version = some new ∧ w.request t = some ⟨userId, change⟩ ∧ ¬ Skipped t w.trace
      ∧ new.favoriteEventIds = change.apply old.favoriteEventIds
  skips : SkipsPresent start w.request w.trace

theorem FavoritesFollow.quiet (h : FavoritesFollow start w) (hquiet : Quiet w w') :
    FavoritesFollow start w' := by
  have hrequest : ∀ e ∈ w.trace, w'.request e.txn = w.request e.txn := by
    intro e he
    by_contra hne
    exact hquiet.newcomer e.txn hne e he rfl
  constructor
  · intro userId
    rw [hquiet.slot, hquiet.trace, committedChanges_congr hrequest]
    exact h.stored userId
  · intro userId t version hheld
    rw [hquiet.slot] at hheld ⊢
    rw [hquiet.trace]
    obtain ⟨old, new, change, hold, hnew, hreq, hrest⟩ := h.pending userId t version hheld
    exact ⟨old, new, change, hold, hnew, hquiet.request t _ hreq, hrest⟩
  · rw [hquiet.trace]
    exact h.skips.congr hrequest

/-- A step that commits nothing and changes no list. -/
theorem FavoritesFollow.rollback (h : FavoritesFollow start w) (t : Txn) :
    FavoritesFollow start (w.finish t false) where
  stored userId := by
    have hsame : ((w.finish t false).slot userTable userId).committed
        = (w.slot userTable userId).committed := Slot.release_false_committed
    rw [hsame]
    exact h.stored userId
  pending userId u version hheld := by
    obtain ⟨_, hsame⟩ := World.held_of_finish hheld
    rw [hsame] at hheld ⊢
    exact h.pending userId u version hheld
  skips := h.skips

variable (start) in
def favoritesFollow : Discipline database FavoriteRequest where
  inv := FavoritesFollow start
  rely _ _ _ := True
  allowed _ _ _ := True
  rely_refl _ _ := trivial
  rely_trans _ _ := trivial
  quiet hquiet h := ⟨h.quiet hquiet, fun _ => trivial⟩
  rollback t _ _ h := ⟨h.rollback t, fun _ _ => trivial⟩

theorem FavoritesFollow.keeps (h : FavoritesFollow start w') :
    (favoritesFollow start).Keeps t w w' :=
  ⟨h, fun _ _ => trivial⟩

theorem Skipped.others (h : Skipped t w'.trace) (hw : Others t w w') : Skipped t w.trace := by
  obtain ⟨e, he, hown, hnothing⟩ := h
  exact ⟨e, hw.mem_trace_of_own he hown, hown, hnothing⟩

theorem FavoritesFollow.user_of_start (h : FavoritesFollow start w) {ids : List Int}
    (hids : start userId = some ids) : ∃ user : User, (w.slot userTable userId).committed = some user
      ∧ user.favoriteEventIds = replay ids (committedChanges userId w.request w.trace) := by
  have hstored := h.stored userId
  rw [hids] at hstored
  exact Option.map_eq_some_iff.mp hstored

/-! ### Assertions -/

/-- The statement of the request has not run yet. -/
structure Starting (request : FavoriteRequest) (t : Txn) (w : FavoriteWorld) : Prop where
  asked : w.request t = some request
  unlocked : ∀ userId, ¬ (w.slot userTable userId).HeldBy t
  unskipped : ¬ Skipped t w.trace

variable (start) in
/-- Its statement has run: either it found nothing, or the row it found is locked. -/
structure Changed (request : FavoriteRequest) (t : Txn) (w : FavoriteWorld) : Prop where
  asked : w.request t = some request
  locked : ∀ userId, (w.slot userTable userId).HeldBy t →
    userId = request.userId ∧ ¬ Skipped t w.trace
  done : start request.userId ≠ none →
    Skipped t w.trace ∨ (w.slot userTable request.userId).HeldBy t

/-- It has committed, and reads the user once more. -/
structure Refreshing (request : FavoriteRequest) (t : Txn) (w : FavoriteWorld) : Prop where
  asked : w.request t = some request
  committed : w.HasCommitted t
  unlocked : ∀ userId, ¬ (w.slot userTable userId).HeldBy t

theorem Starting.stable : (favoritesFollow start).Stable t (Starting request t) := fun h hw =>
  ⟨hw.others.request t request h.asked,
    fun userId => hw.others.not_mine userTable userId (h.unlocked userId),
    fun hskipped => h.unskipped (hskipped.others hw.others)⟩

theorem Changed.stable : (favoritesFollow start).Stable t (Changed start request t) := by
  intro w w' h hw
  constructor
  · exact hw.others.request t request h.asked
  · rintro userId ⟨version, hheld⟩
    obtain ⟨hown, hunskipped⟩ := h.locked userId ⟨version, hw.others.held_before hheld⟩
    exact ⟨hown, fun hskipped => hunskipped (hskipped.others hw.others)⟩
  · intro hstart
    apply (h.done hstart).imp
    · rintro ⟨e, he, hown, hnothing⟩
      exact ⟨e, hw.others.trace_subset e he, hown, hnothing⟩
    · rintro ⟨version, hheld⟩
      exact ⟨version, by rw [hw.others.mine _ _ _ hheld, hheld]⟩

theorem Refreshing.stable : (favoritesFollow start).Stable t (Refreshing request t) := fun h hw =>
  ⟨hw.others.request t request h.asked, hw.others.hasCommitted h.committed,
    fun userId => hw.others.not_mine userTable userId (h.unlocked userId)⟩

/-! ### Operations -/

section Exec

variable {choice : Choice}

theorem committedChanges_note {event : ReadCommitted.Event database} (h : event ≠ .committed) :
    committedChanges userId (w.note t event).request (w.note t event).trace
      = committedChanges userId w.request w.trace :=
  committedChanges_cons_of_ne h

/-- An entry that is no commit. Who finds nothing holds nothing. -/
theorem FavoritesFollow.note (h : FavoritesFollow start w) {event : ReadCommitted.Event database}
    (hevent : event ≠ .committed)
    (hunlocked : foundNothing event = true → ∀ userId, ¬ (w.slot userTable userId).HeldBy t)
    (hfits : SkipsPresent start w.request (w.note t event).trace) :
    FavoritesFollow start (w.note t event) where
  stored userId := by
    rw [committedChanges_note hevent]
    exact h.stored userId
  pending userId u version hheld := by
    obtain ⟨old, new, change, hold, hnew, hreq, hunskipped, hfollows⟩ :=
      h.pending userId u version hheld
    refine ⟨old, new, change, hold, hnew, hreq, ?_, hfollows⟩
    rintro ⟨e, he, hown, hskips⟩
    obtain rfl | he := List.mem_cons.mp he
    · obtain rfl : t = u := hown
      exact hunlocked hskips userId ⟨version, hheld⟩
    · exact hunskipped ⟨e, he, hown, hskips⟩
  skips := hfits

theorem FavoritesFollow.note_locked (h : FavoritesFollow start w) (userId : Nat) (user : User) :
    FavoritesFollow start (w.note t (.locked userTable userId user)) :=
  h.note nofun nofun ⟨fun _ _ _ _ _ => ⟨nofun, nofun⟩, h.skips⟩

theorem Starting.now {clock : Int} (h : Starting request t w) (hinv : FavoritesFollow start w)
    (hexec : Op.now.exec t choice w = some (clock, w')) :
    (favoritesFollow start).Keeps t w w' ∧ Starting request t w' := by
  obtain ⟨_, rfl⟩ := exec_now hexec
  exact ⟨hinv.keeps, h⟩

/-- A user that exists matches no statement that found nothing. -/
theorem FavoritesFollow.unmatched (h : FavoritesFollow start w) (hsound : w.Sound)
    (hunlocked : ¬ (w.slot userTable userId).HeldBy t) {p : Nat → User → Bool}
    (hexec : (Op.select (S := database) userTable p).exec t choice w = some ([], w'))
    {ids : List Int} (hids : start userId = some ids) : ∃ user : User, p userId user = false
      ∧ user.favoriteEventIds = replay ids (committedChanges userId w.request w.trace) := by
  obtain ⟨user, hcommitted, hfollows⟩ := h.user_of_start hids
  have hview := (Slot.view_eq_committed hunlocked).trans hcommitted
  refine ⟨user, Bool.eq_false_iff.mpr fun hp => ?_, hfollows⟩
  exact List.not_mem_nil (exec_select_mem hsound hexec hview hp)

/-- A user that exists is the one that a statement about it has found. -/
theorem FavoritesFollow.matched (h : FavoritesFollow start w)
    (hunlocked : ¬ (w.slot userTable userId).HeldBy t) {p : Nat → User → Bool}
    {rows : List (Nat × User)} (hp : ∀ id user, p id user = true → id = userId)
    (hexec : (Op.select (S := database) userTable p).exec t choice w = some (rows, w'))
    (hfound : rows ≠ []) {ids : List Int} (hids : start userId = some ids) :
    ∃ user : User, p userId user = true
      ∧ user.favoriteEventIds = replay ids (committedChanges userId w.request w.trace) := by
  obtain ⟨user, hcommitted, hfollows⟩ := h.user_of_start hids
  obtain ⟨⟨id, row⟩, hmem⟩ := List.exists_mem_of_ne_nil rows hfound
  obtain ⟨_, _, hrows⟩ := exec_select hexec
  obtain ⟨_, hview, htrue⟩ := (hrows id row).mp hmem
  obtain rfl := hp id row htrue
  rw [Slot.view_eq_committed hunlocked, hcommitted] at hview
  obtain rfl := Option.some.inj hview
  exact ⟨user, htrue, hfollows⟩

/-- The snapshot of the statement: it finds the row of the user, or the change is skipped. -/
theorem Starting.select {p : Nat → User → Bool} {rows : List (Nat × User)}
    (hp : ∀ id user, p id user = true → id = request.userId)
    (hskip : ∀ user, p request.userId user = false
      ↔ request.change.AddsPresent user.favoriteEventIds)
    (h : Starting request t w) (hsound : w.Sound) (hinv : FavoritesFollow start w)
    (hexec : (Op.select (S := database) userTable p).exec t choice w = some (rows, w')) :
    (favoritesFollow start).Keeps t w w'
      ∧ (rows = [] ∧ Changed start request t w'
        ∨ rows.map (·.1) = [request.userId] ∧ Starting request t w') := by
  have hasked : ∀ {userId change}, w.request t = some ⟨userId, change⟩ →
      request = ⟨userId, change⟩ := fun hreq => Option.some.inj (h.asked.symm.trans hreq)
  have hfits : SkipsPresent start w.request (w.note t (.selected userTable rows)).trace := by
    refine ⟨fun userId change hreq ids hids => ⟨fun hnothing => ?_, fun hfound _ => ?_⟩, hinv.skips⟩
    · obtain rfl := hasked hreq
      obtain rfl : rows = [] := List.isEmpty_iff.mp hnothing
      obtain ⟨user, hfalse, hfollows⟩ := hinv.unmatched hsound (h.unlocked userId) hexec hids
      exact hfollows ▸ (hskip user).mp hfalse
    · obtain rfl := hasked hreq
      have hrows : rows ≠ [] := by
        rintro rfl
        cases hfound
      obtain ⟨user, htrue, hfollows⟩ := hinv.matched (h.unlocked userId) hp hexec hrows hids
      intro hpresent
      rw [← hfollows, ← hskip user, htrue] at hpresent
      cases hpresent
  have hinv' : FavoritesFollow start (w.note t (.selected userTable rows)) :=
    hinv.note (by rintro ⟨⟩) (fun _ => h.unlocked) hfits
  have hone := exec_select_one hp hexec
  obtain ⟨rfl, _⟩ := exec_select hexec
  refine ⟨hinv'.keeps, ?_⟩
  obtain rfl | hids := hone
  · refine .inl ⟨rfl, h.asked, fun userId hheld => absurd hheld (h.unlocked userId), fun _ => ?_⟩
    exact .inl ⟨_, List.mem_cons_self, rfl, rfl⟩
  · refine .inr ⟨hids, h.asked, h.unlocked, ?_⟩
    rintro ⟨e, he, hown, hnothing⟩
    obtain rfl | he := List.mem_cons.mp he
    · obtain rfl : rows = [] := List.isEmpty_iff.mp hnothing
      cases hids
    · exact h.unskipped ⟨e, he, hown, hnothing⟩

/-- The version that the change makes of the newest one. -/
theorem FavoritesFollow.write (h : FavoritesFollow start w) (hstarting : Starting request t w)
    {old new : User} (hold : (w.slot userTable request.userId).committed = some old)
    (hnew : new.favoriteEventIds = request.change.apply old.favoriteEventIds) :
    FavoritesFollow start (w.write t userTable request.userId (some new)) where
  stored userId := by
    rw [write_committed]
    exact h.stored userId
  pending userId u version hheld := by
    rw [write_committed]
    by_cases huser : userId = request.userId
    · subst huser
      rw [World.write_slot_self] at hheld
      cases hheld
      exact ⟨old, new, request.change, hold, rfl, hstarting.asked, hstarting.unskipped, hnew⟩
    · rw [World.write_slot_of_ne _ fun hsame => huser hsame.2] at hheld
      exact h.pending userId u version hheld
  skips := h.skips

theorem Starting.lock {p : User → Bool} {f : User → Option User} {found : Option User}
    (hset : ∀ user, p user = true → ∃ new, f user = some new
      ∧ new.favoriteEventIds = request.change.apply user.favoriteEventIds)
    (hkept : ∀ user, p user = false →
      user.favoriteEventIds = request.change.apply user.favoriteEventIds)
    (h : Starting request t w) (hinv : FavoritesFollow start w)
    (hexec : (Op.lock userTable request.userId p f).exec t choice w = some (found, w')) :
    (favoritesFollow start).Keeps t w w' ∧ Changed start request t w' := by
  have hview : (w.slot userTable request.userId).view t
      = (w.slot userTable request.userId).committed :=
    Slot.view_eq_committed (h.unlocked request.userId)
  have hlocked : ∀ {new : User} {userId : Nat},
      ((w.write t userTable request.userId (some new)).slot userTable userId).HeldBy t →
      userId = request.userId := by
    intro new userId hheld
    by_contra hne
    rw [World.write_slot_of_ne _ fun hsame => hne hsame.2] at hheld
    exact h.unlocked userId hheld
  have hheld : ∀ new : User, ((w.write t userTable request.userId (some new)).slot userTable
      request.userId).HeldBy t :=
    fun new => ⟨some new, by rw [World.write_slot_self]; rfl⟩
  obtain ⟨_, ⟨hnone, _, rfl⟩ | ⟨user, huser, ⟨hp, _, rfl⟩ | ⟨hp, _, rfl⟩⟩⟩ := exec_lock hexec
  · refine ⟨hinv.keeps, h.asked, fun userId hheld => absurd hheld (h.unlocked userId), ?_⟩
    intro hstart
    obtain ⟨ids, hids⟩ := Option.ne_none_iff_exists'.mp hstart
    obtain ⟨user, huser, _⟩ := hinv.user_of_start hids
    rw [← hview, hnone] at huser
    cases huser
  · obtain ⟨new, hf, hnew⟩ := hset user hp
    rw [hf]
    have hinv' : FavoritesFollow start ((w.write t userTable request.userId (some new)).note t
        (.locked userTable request.userId user)) :=
      (hinv.write h (hview.symm.trans huser) hnew).note_locked _ _
    refine ⟨hinv'.keeps, h.asked, fun userId hmine => ⟨hlocked hmine, ?_⟩, fun _ => .inr (hheld new)⟩
    rintro ⟨e, he, hown, hnothing⟩
    obtain rfl | he := List.mem_cons.mp he
    · cases hnothing
    · exact h.unskipped ⟨e, he, hown, hnothing⟩
  · have hinv' := hinv.write h (hview.symm.trans huser) (hkept user hp)
    exact ⟨hinv'.keeps, h.asked, fun userId hmine => ⟨hlocked hmine, h.unskipped⟩,
      fun _ => .inr (hheld user)⟩

/-- The commit: the change is counted unless it was skipped. -/
theorem Changed.commit (h : Changed start request t w) (hinv : FavoritesFollow start w)
    {answer : Unit} (hexec : Op.commit.exec t choice w = some (answer, w')) :
    (favoritesFollow start).Keeps t w w' ∧ Refreshing request t w' := by
  have hunlocked := TableStep.unlocked_of_commit hexec
  obtain rfl := exec_commit hexec
  refine ⟨FavoritesFollow.keeps ⟨fun userId => ?_, ?_, fun _ _ _ _ _ => ⟨nofun, nofun⟩,
    hinv.skips⟩, h.asked, ⟨_, List.mem_cons_self, rfl, rfl⟩, hunlocked userTable⟩
  · change ((w.slot userTable userId).release t true).committed.map User.favoriteEventIds
      = (start userId).map fun ids => replay ids
          (committedChanges userId w.request (⟨t, w.clock, .committed⟩ :: w.trace))
    rw [committedChanges_commit h.asked]
    by_cases hheld : (w.slot userTable userId).HeldBy t
    · obtain ⟨rfl, hunskipped⟩ := h.locked userId hheld
      obtain ⟨version, hversion⟩ := hheld
      obtain ⟨old, new, change, hold, rfl, hreq, _, hnew⟩ := hinv.pending _ _ _ hversion
      have hchange : request.change = change :=
        congrArg FavoriteRequest.change (Option.some.inj (h.asked.symm.trans hreq))
      rw [Slot.release_of_held true hversion, if_pos ⟨rfl, hunskipped⟩, hchange]
      have hstored := hinv.stored request.userId
      rw [hold] at hstored
      obtain ⟨ids, hids, hfollows⟩ := Option.map_eq_some_iff.mp hstored.symm
      calc some new.favoriteEventIds
          = some (change.apply (replay ids (committedChanges request.userId w.request w.trace))) := by
            rw [hnew, hfollows]
        _ = _ := by rw [hids]; rfl
    · rw [Slot.release_of_not_held true hheld, hinv.stored userId]
      split
      · rename_i hcounted
        obtain ⟨rfl, hunskipped⟩ := hcounted
        cases hstart : start request.userId with
        | none => rfl
        | some ids =>
            obtain hskipped | hmine := h.done (by rw [hstart]; exact Option.some_ne_none ids)
            · exact absurd hskipped hunskipped
            · exact absurd hmine hheld
      · rfl
  · intro userId u version hheld
    have hsame : ((w.finish t true).note t .committed).slot userTable userId
        = w.slot userTable userId := (World.held_of_finish hheld).2
    rw [hsame] at hheld
    obtain ⟨old, new, change, hold, hnew, hreq, hunskipped, hfollows⟩ := hinv.pending _ _ _ hheld
    refine ⟨old, new, change, hsame ▸ hold, hnew, hreq, ?_, hfollows⟩
    rintro ⟨e, he, hown, hnothing⟩
    obtain rfl | he := List.mem_cons.mp he
    · cases hnothing
    · exact hunskipped ⟨e, he, hown, hnothing⟩

theorem Refreshing.select {p : Nat → User → Bool} {rows : List (Nat × User)}
    (hp : ∀ user, p request.userId user = true)
    (h : Refreshing request t w) (hsound : w.Sound) (hinv : FavoritesFollow start w)
    (hexec : (Op.select (S := database) userTable p).exec t choice w = some (rows, w')) :
    (favoritesFollow start).Keeps t w w' ∧ Refreshing request t w' := by
  have hunmatched : rows = [] → ∀ ids, start request.userId ≠ some ids := by
    rintro rfl ids hids
    obtain ⟨user, hfalse, _⟩ :=
      hinv.unmatched hsound (h.unlocked request.userId) hexec hids
    rw [hp user] at hfalse
    cases hfalse
  obtain ⟨rfl, _⟩ := exec_select hexec
  have hinv' : FavoritesFollow start (w.note t (.selected userTable rows)) := by
    apply hinv.note (by rintro ⟨⟩) fun _ => h.unlocked
    refine ⟨fun userId change hreq ids hids => ⟨fun hnothing => ?_, fun _ hopen => ?_⟩, hinv.skips⟩
    · obtain rfl : request = ⟨userId, change⟩ := Option.some.inj (h.asked.symm.trans hreq)
      exact absurd hids (hunmatched (List.isEmpty_iff.mp hnothing) ids)
    · obtain ⟨e, he, hown, hcommit⟩ := h.committed
      exact absurd hcommit (hopen e he hown)
  have hcommitted : (w.note t (.selected userTable rows)).HasCommitted t := by
    obtain ⟨e, he, hcommit⟩ := h.committed
    exact ⟨e, List.mem_cons_of_mem _ he, hcommit⟩
  exact ⟨hinv'.keeps, h.asked, hcommitted, h.unlocked⟩

end Exec

/-! ### The requests -/

/-- Every outcome of a favorites request is fine: the invariant says it all. -/
def Served (_ : FavoriteRequest) (_ : Txn) (_ : Except Exn (Nat × User)) (_ : FavoriteWorld) : Prop :=
  True

theorem Changed.finish (h : Changed start request t w) :
    (favoritesFollow start).Safe t (Served request t)
      (do
        Prog.commit
        Users.refresh request.userId : Db (Nat × User)) w := by
  apply Discipline.Safe.perform_bind Changed.stable h
    (K := fun _ w => Refreshing request t w) (fun h _ hinv _ hexec => h.commit hinv hexec)
  intro _ w h
  apply Discipline.Safe.scalar_bind Refreshing.stable h (K := fun _ w => Refreshing request t w)
  · intro w choice rows w' h hsound hinv _ hexec
    exact h.select (fun user => by simp) hsound hinv hexec
  · intro rows w h
    cases rows.head? <;> exact trivial

/-- One statement on the row of the user, a commit, and the user as it is then. -/
theorem Starting.change {p : Nat → User → Bool} {f : User → User}
    (hp : ∀ id user, p id user = true → id = request.userId)
    (hset : ∀ user, p request.userId user = true →
      (f user).favoriteEventIds = request.change.apply user.favoriteEventIds)
    (hskip : ∀ user, p request.userId user = false
      ↔ request.change.AddsPresent user.favoriteEventIds)
    (h : Starting request t w) :
    (favoritesFollow start).Safe t (Served request t)
      (do
        let _ ← Prog.updateWhere (S := database) .users p f
        Prog.commit
        Users.refresh request.userId : Db (Nat × User)) w := by
  have hkept : ∀ user, p request.userId user = false →
      user.favoriteEventIds = request.change.apply user.favoriteEventIds := by
    intro user hfalse
    obtain ⟨eventId, heq, hmem⟩ := (hskip user).mp hfalse
    rw [heq, FavoriteChange.apply, if_pos hmem]
  apply Discipline.Safe.bind (Q := fun _ w => Changed start request t w)
  · apply Discipline.Safe.perform_bind Starting.stable h
      (K := fun rows w => rows = [] ∧ Changed start request t w
        ∨ rows.map (·.1) = [request.userId] ∧ Starting request t w)
    · intro w choice rows w' h hsound hinv _ hexec
      exact h.select hp hskip hsound hinv hexec
    · rintro rows w (⟨rfl, h⟩ | ⟨hids, h⟩)
      · exact h
      · rw [hids]
        apply Discipline.Safe.exec Starting.stable h (K := fun _ w => Changed start request t w)
        · intro w choice found w' h _ hinv _ hexec
          apply h.lock ?_ hkept hinv hexec
          exact fun user htrue => ⟨f user, rfl, hset user htrue⟩
        · intro found w h
          exact h
  · exact fun _ w h => h.finish
  · exact fun _ _ _ => trivial

theorem favoriteSystem_verified : (favoritesFollow start).Verified favoriteSystem Served where
  stable _ _ _ := fun _ _ => trivial
  close _ _ _ _ _ _ _ := trivial
  lost _ _ _ _ := trivial
  handler request t w hsound hinv hfresh hreq := by
    have h : Starting request t w := by
      refine ⟨hreq, hfresh.unlocked userTable, ?_⟩
      rintro ⟨e, he, hown, _⟩
      exact hfresh.untraced e he hown
    apply Discipline.Safe.perform_bind Starting.stable h
      (K := fun _ w => Starting request t w) (fun h _ hinv _ hexec => h.now hinv hexec)
    intro startedAt w h
    obtain ⟨userId, change⟩ := request
    cases change with
    | add eventId =>
        apply h.change
        · simp +contextual
        · intro user
          simp only [FavoriteChange.apply, Bool.and_eq_true, Bool.not_eq_true', List.contains_eq_mem]
          intro hp
          rw [if_neg (by simpa using hp.2)]
        · simp [FavoriteChange.AddsPresent]
    | remove eventId =>
        apply h.change
        · simp
        · exact fun _ _ => rfl
        · simp [FavoriteChange.AddsPresent]

/-- The lists as they are when nothing has run yet. -/
def startingFavorites (w : FavoriteWorld) (userId : Nat) : Option (List Int) :=
  (w.slot userTable userId).committed.map User.favoriteEventIds

theorem favoritesFollow_initial (h : w.Initial) : FavoritesFollow (startingFavorites w) w where
  stored userId := by
    rw [h.untraced]
    exact (congrFun Option.map_id _).symm
  pending userId t version hheld := by
    rw [h.unlocked] at hheld
    cases hheld
  skips := by
    rw [h.untraced]
    trivial

/-! ### Every run -/

abbrev FavoriteConfig := Config database FavoriteRequest Exn (Nat × User)

/-- What is left of the list a user started with, and what the committed changes made of it. -/
structure InCommitOrder (c₀ c : FavoriteConfig) (userId : Nat) (ids : List Int) : Prop where
  unique : ∀ version, (c.world.slot userTable userId).HasVersion version →
    version.favoriteEventIds.Nodup
  present : ∃ user : User, (c.world.slot userTable userId).committed = some user
    ∧ ∀ eventId, eventId ∈ user.favoriteEventIds
      ↔ EndsPresent ids eventId (committedChanges userId c.world.request c.world.trace)
  ordered : ∃ user : User, (c.world.slot userTable userId).committed = some user
    ∧ user.favoriteEventIds.filter
        (untouched (committedChanges userId c.world.request c.world.trace))
      = ids.filter (untouched (committedChanges userId c.world.request c.world.trace))
  last : ∀ l c' eventId, favoriteSystem.step c l = some c' →
    committedChanges userId c'.world.request c'.world.trace
      = .add eventId :: committedChanges userId c.world.request c.world.trace →
    ∃ old new : User, (c.world.slot userTable userId).committed = some old
      ∧ (c'.world.slot userTable userId).committed = some new
      ∧ (eventId ∉ old.favoriteEventIds →
        new.favoriteEventIds = old.favoriteEventIds ++ [eventId])
  skips : SkipsPresent (startingFavorites c₀.world) c.world.request c.world.trace
  lockless : ∀ t, Skipped t c.world.trace → ∀ userId, ¬ (c.world.slot userTable userId).HeldBy t

/-- A waiting change is made of the newest list, so no committed change is lost. -/
theorem favorites_in_commit_order {c₀ c : FavoriteConfig} (hinit : c₀.Initial)
    (h : Transition.Reachable favoriteSystem.step (· = c₀) Transition.anyStep c) {userId : Nat}
    {user₀ : User} (hstored : (c₀.world.slot userTable userId).committed = some user₀)
    (hnodup : user₀.favoriteEventIds.Nodup) :
    InCommitOrder c₀ c userId user₀.favoriteEventIds := by
  have hfollows : ∀ {c : FavoriteConfig},
      Transition.Reachable favoriteSystem.step (· = c₀) Transition.anyStep c →
      FavoritesFollow (startingFavorites c₀.world) c.world := by
    intro c h
    have hmeets : Transition.Reachable favoriteSystem.step (· = c₀)
        (fun c l => c.Meets (favoritesFollow (startingFavorites c₀.world)).allowed l) c :=
      h.mono fun _ _ _ => Config.meets_of_forall fun _ _ _ => trivial
    apply (favoriteSystem_verified.holds ?_ hmeets).inv
    rintro _ rfl
    exact ⟨hinit, favoritesFollow_initial hinit.1⟩
  have hstart : startingFavorites c₀.world userId = some user₀.favoriteEventIds := by
    rw [startingFavorites, hstored]
    rfl
  have hinv := hfollows h
  obtain ⟨user, huser, hreplay⟩ := hinv.user_of_start hstart
  have hunique : user.favoriteEventIds.Nodup := by
    rw [hreplay]
    exact nodup_replay hnodup _
  constructor
  · rintro version (hcommitted | ⟨t, hheld⟩)
    · obtain rfl : user = version := Option.some.inj (huser.symm.trans hcommitted)
      exact hunique
    · obtain ⟨old, new, change, hold, hnew, _, _, hchange⟩ := hinv.pending userId t _ hheld
      obtain rfl : version = new := Option.some.inj hnew
      obtain rfl : user = old := Option.some.inj (huser.symm.trans hold)
      rw [hchange]
      exact change.nodup_apply hunique
  · refine ⟨user, huser, fun eventId => ?_⟩
    rw [hreplay]
    exact mem_replay_iff
  · refine ⟨user, huser, ?_⟩
    rw [hreplay]
    exact filter_replay _ _
  · intro l c' eventId hstep hnewest
    obtain ⟨new, hnew, hreplay'⟩ := (hfollows (h.next trivial hstep)).user_of_start hstart
    refine ⟨user, new, huser, hnew, fun habsent => ?_⟩
    rw [hreplay', hnewest, replay, ← hreplay, FavoriteChange.apply, if_neg habsent]
  · exact hinv.skips
  · rintro t hskipped userId ⟨version, hheld⟩
    obtain ⟨_, _, _, _, _, _, hunskipped, _⟩ := hinv.pending userId t version hheld
    exact hunskipped hskipped

/-- Ona adds an event and removes it again. While the removal is pending the addition is repeated: its
statement sees the event, and it commits last. -/
def repeatedAddition : List (Label FavoriteRequest) :=
  [.spawn 0 ⟨0, .add 7⟩, .exec 0 {}, .exec 0 { order := [0] }, .exec 0 {}, .exec 0 {},
    .exec 0 { order := [0] }, .close 0,
    .spawn 1 ⟨0, .remove 7⟩, .exec 1 {}, .exec 1 { order := [0] }, .exec 1 {},
    .spawn 2 ⟨0, .add 7⟩, .exec 2 {}, .exec 2 {}, .exec 1 {}, .exec 2 {}]

theorem favorites_in_commit_order_repeatedAddition :
    ∃ c, Transition.run favoriteSystem.step (smallService _ _ _) repeatedAddition = some c
      ∧ InCommitOrder (smallService _ _ _) c 0 [] := by
  have hrun : (Transition.run favoriteSystem.step (smallService FavoriteRequest Exn (Nat × User))
      repeatedAddition).isSome := by decide
  obtain ⟨c, hc⟩ := Option.isSome_iff_exists.mp hrun
  have hstored : ((smallService FavoriteRequest Exn (Nat × User)).world.slot userTable 0).committed
      = some confirmedUser := rfl
  refine ⟨c, hc, favorites_in_commit_order (smallService_initial _ _ _) ?_ hstored List.nodup_nil⟩
  apply Transition.reachable_of_run _ _ _ hc
  · rfl
  · exact fun _ _ _ _ _ _ _ => trivial

/-- All changes of a user's favorites that were committed, the skipped ones too. -/
def committedRequests (userId : Nat) (request : Txn → Option FavoriteRequest)
    (trace : List (Entry database)) : List FavoriteChange :=
  trace.filterMap fun e =>
    ((request e.txn).filter fun request =>
      decide (e.event = .committed ∧ request.userId = userId)).map (·.change)

/-- The repeated addition is the last one to commit, and the event is not there. -/
theorem repeatedAddition_is_lost :
    ∃ c, Transition.run favoriteSystem.step (smallService _ _ _) repeatedAddition = some c
      ∧ ¬ ∃ user : User, (c.world.slot userTable 0).committed = some user
        ∧ ∀ eventId, eventId ∈ user.favoriteEventIds ↔ EndsPresent confirmedUser.favoriteEventIds
          eventId (committedRequests 0 c.world.request c.world.trace) := by
  have hrun : (Transition.run favoriteSystem.step (smallService FavoriteRequest Exn (Nat × User))
      repeatedAddition).any fun c =>
        decide ((c.world.slot userTable 0).committed.map User.favoriteEventIds = some []
          ∧ committedRequests 0 c.world.request c.world.trace
            = [.add 7, .remove 7, .add 7]) := by decide
  obtain ⟨c, hc, hlost⟩ := (Option.any_eq_true _ _).mp hrun
  obtain ⟨hempty, hrequests⟩ := of_decide_eq_true hlost
  refine ⟨c, hc, ?_⟩
  rintro ⟨user, huser, hpresent⟩
  rw [huser] at hempty
  have hnone : user.favoriteEventIds = [] := Option.some.inj hempty
  have hmem := (hpresent 7).mpr (by rw [hrequests]; exact trivial)
  rw [hnone] at hmem
  exact List.not_mem_nil hmem

end EventsApi
