import EventsApi.Library.ReadCommitted.Alone
import EventsApi.Proof.SessionSteps
import EventsApi.Users.Service
import Mathlib.Data.Fintype.Option
import Mathlib.Data.Fintype.Prod

/-!
# Two changes of the marketing consents

A request writes the channels whose supplied value differs from the row it was authenticated with,
and leaves the others alone. If the other request has committed by then, this is as if they ran one
after the other. If not, a value that agrees with the old row is dropped, whatever the other request
writes there. Two requests that drop a value on one channel each are the ones that go wrong.
-/

namespace EventsApi

open ReadCommitted

/-! ### Values and columns -/

/-- The email and the push channel. -/
abbrev Consents := Bool × Bool

abbrev SuppliedConsents := Option Bool × Option Bool

def User.consents (user : User) : Consents :=
  (user.marketingEmailConsent, user.marketingPushConsent)

def MarketingConsentsUpdateRequest.supplied (payload : MarketingConsentsUpdateRequest) :
    SuppliedConsents :=
  (payload.marketingEmailConsent, payload.marketingPushConsent)

/-- The supplied values, and the others as they are. -/
def overwrite (values : SuppliedConsents) (consents : Consents) : Consents :=
  (values.1.getD consents.1, values.2.getD consents.2)

/-- The supplied values that differ from these. -/
def differing (values : SuppliedConsents) (consents : Consents) : SuppliedConsents :=
  (values.1.filter (· != consents.1), values.2.filter (· != consents.2))

theorem changedConsents_eq (user : User) (payload : MarketingConsentsUpdateRequest) :
    Users.changedConsents user payload.marketingEmailConsent payload.marketingPushConsent
      = differing payload.supplied user.consents := rfl

theorem setConsents_consents (values : SuppliedConsents) (updatedAt startedAt : Int) (user : User) :
    (Users.setConsents values updatedAt startedAt user).consents
      = overwrite values user.consents := rfl

@[simp]
theorem overwrite_none (consents : Consents) : overwrite (none, none) consents = consents := rfl

theorem overwrite_differing (values : SuppliedConsents) (consents : Consents) :
    overwrite (differing values consents) consents = overwrite values consents := by
  have hchannel : ∀ (value : Option Bool) (consent : Bool),
      (value.filter (· != consent)).getD consent = value.getD consent := by decide
  exact Prod.ext (hchannel values.1 consents.1) (hchannel values.2 consents.2)

/-- On the email channel the first request asks for a change and the second one for what is there,
and on the push channel it is the other way round. -/
def Against (consents : Consents) (first second : SuppliedConsents) : Prop :=
  first.1 = some (!consents.1) ∧ second.1 = some consents.1
    ∧ first.2 = some consents.2 ∧ second.2 = some (!consents.2)

instance (consents : Consents) (first second : SuppliedConsents) :
    Decidable (Against consents first second) :=
  inferInstanceAs (Decidable (_ ∧ _ ∧ _ ∧ _))

/-- Each of the two requests asks for a change on the channel where the other one does not. -/
def Crossed (consents : Consents) (first second : SuppliedConsents) : Prop :=
  Against consents first second ∨ Against consents second first

instance (consents : Consents) (first second : SuppliedConsents) :
    Decidable (Crossed consents first second) :=
  inferInstanceAs (Decidable (_ ∨ _))

/-- What two requests leave that both compare with the same row. -/
theorem overwrite_twice_serial_iff (consents : Consents) (first second : SuppliedConsents) :
    (overwrite (differing first consents) (overwrite (differing second consents) consents)
        = overwrite second (overwrite first consents)
      ∨ overwrite (differing first consents) (overwrite (differing second consents) consents)
        = overwrite first (overwrite second consents))
      ↔ ¬ Crossed consents first second := by
  revert consents first second
  decide

theorem overwrite_twice_comm (consents : Consents) (first second : SuppliedConsents) :
    overwrite (differing first consents) (overwrite (differing second consents) consents)
      = overwrite (differing second consents) (overwrite (differing first consents) consents) := by
  revert consents first second
  decide

/-! ### Reads and commits -/

abbrev ConsentWorld := World database ConsentRequest

def usersFound : ReadCommitted.Event database → Option (List (Nat × User))
  | .selected .users (rows : List (Nat × User)) => some rows
  | _ => none

/-- The trace before a transaction first read the users, and what it found. -/
def loaded (t : Txn) : List (Entry database) → Option (List (Entry database) × List (Nat × User))
  | [] => none
  | e :: earlier =>
      (loaded t earlier).or
        (if e.txn = t then (usersFound e.event).map (earlier, ·) else none)

/-- The transactions that committed, the last one first. -/
def commits (trace : List (Entry database)) : List Txn :=
  trace.filterMap fun e => if e.event = .committed then some e.txn else none

/-- What a transaction writes to the consents of the user, by the row it loaded. -/
def written (userId : Nat) (w : ConsentWorld) (t : Txn) : SuppliedConsents :=
  match w.request t, loaded t w.trace with
  | some request, some (_, (id, user) :: _) =>
      if id = userId then differing request.payload.supplied user.consents else (none, none)
  | _, _ => (none, none)

/-- The consents after these transactions, the last one first. -/
def consentsAfter (values : Txn → SuppliedConsents) (start : Consents) (txns : List Txn) :
    Consents :=
  txns.foldr (fun t => overwrite (values t)) start

theorem consentsAfter_congr {values values' : Txn → SuppliedConsents} {start : Consents}
    {txns : List Txn} (h : ∀ t ∈ txns, values' t = values t) :
    consentsAfter values' start txns = consentsAfter values start txns := by
  induction txns with
  | nil => rfl
  | cons t txns ih =>
      rw [consentsAfter, List.foldr_cons, h t List.mem_cons_self]
      exact congrArg (overwrite (values t)) (ih fun u hu => h u (List.mem_cons_of_mem _ hu))

section Trace

variable {t u : Txn} {e : Entry database} {trace earlier : List (Entry database)}
  {rows : List (Nat × User)}

theorem mem_commits : t ∈ commits trace ↔ ∃ e ∈ trace, e.txn = t ∧ e.event = .committed := by
  rw [commits, List.mem_filterMap]
  constructor
  · rintro ⟨e, he, hcommit⟩
    split at hcommit
    · cases hcommit
      exact ⟨e, he, rfl, ‹_›⟩
    · cases hcommit
  · rintro ⟨e, he, rfl, hcommitted⟩
    exact ⟨e, he, if_pos hcommitted⟩

theorem commits_cons_of_ne (h : e.event ≠ .committed) : commits (e :: trace) = commits trace := by
  rw [commits, List.filterMap_cons, if_neg h]
  rfl

theorem commits_suffix (h : earlier <:+ trace) : commits earlier <:+ commits trace :=
  h.filterMap _

theorem loaded_cons_of_some (e : Entry database) (h : loaded t trace = some (earlier, rows)) :
    loaded t (e :: trace) = some (earlier, rows) := by
  rw [loaded, h]
  rfl

theorem loaded_cons_of_ne (h : e.txn ≠ t) : loaded t (e :: trace) = loaded t trace := by
  rw [loaded, if_neg h, Option.or_none]

theorem loaded_cons_of_unread (h : usersFound e.event = none) :
    loaded t (e :: trace) = loaded t trace := by
  rw [loaded, h, Option.map_none, ite_self, Option.or_none]

theorem loaded_of_untraced (h : ∀ e ∈ trace, e.txn ≠ t) : loaded t trace = none := by
  induction trace with
  | nil => rfl
  | cons e trace ih =>
      rw [loaded_cons_of_ne (h e List.mem_cons_self)]
      exact ih fun e' he' => h e' (List.mem_cons_of_mem _ he')

theorem loaded_suffix (h : loaded t trace = some (earlier, rows)) : earlier <:+ trace := by
  induction trace with
  | nil => cases h
  | cons e trace ih =>
      rw [loaded, Option.or_eq_some_iff] at h
      obtain h | ⟨_, h⟩ := h
      · exact (ih h).trans (List.suffix_cons e trace)
      · split at h
        · obtain ⟨_, _, heq⟩ := Option.map_eq_some_iff.mp h
          cases heq
          exact List.suffix_cons e _
        · cases h

theorem loaded_append (new : List (Entry database)) (h : loaded t trace = some (earlier, rows)) :
    loaded t (new ++ trace) = some (earlier, rows) := by
  induction new with
  | nil => exact h
  | cons e new ih => exact loaded_cons_of_some e ih

end Trace

/-! ### The invariant -/

variable {context : Context} {userId : Nat} {start : User} {t u : Txn} {w w' : ConsentWorld}

/-- The stored consents are what the committed transactions made of them one after the other, and
every row that was loaded is what had been committed by then. -/
structure ConsentsFollow (userId : Nat) (start : User) (w : ConsentWorld) : Prop where
  stored : ∃ user : User, (w.slot userTable userId).committed = some user
    ∧ user.emailVerifiedAt = start.emailVerifiedAt
    ∧ user.consents = consentsAfter (written userId w) start.consents (commits w.trace)
  pending : ∀ t version, (w.slot userTable userId).held = some (t, version) →
    loaded t w.trace ≠ none ∧ ∃ (old new : User), (w.slot userTable userId).committed = some old
      ∧ version = some new ∧ new.emailVerifiedAt = old.emailVerifiedAt
      ∧ new.consents = overwrite (written userId w t) old.consents
  reads : ∀ t earlier rows user, loaded t w.trace = some (earlier, rows) → (userId, user) ∈ rows →
    user.emailVerifiedAt = start.emailVerifiedAt
      ∧ user.consents = consentsAfter (written userId w) start.consents (commits earlier)
  uncommitted : ∀ t earlier rows, loaded t w.trace = some (earlier, rows) → t ∉ commits earlier
  loaded : ∀ t ∈ commits w.trace, loaded t w.trace ≠ none
  once : (commits w.trace).Nodup

theorem ConsentsFollow.after_congr (h : ConsentsFollow userId start w)
    (hwritten : ∀ t, EventsApi.loaded t w.trace ≠ none → written userId w' t = written userId w t)
    {earlier : List (Entry database)} (hsuffix : earlier <:+ w.trace) :
    consentsAfter (written userId w') start.consents (commits earlier)
      = consentsAfter (written userId w) start.consents (commits earlier) :=
  consentsAfter_congr fun t ht => hwritten t (h.loaded t ((commits_suffix hsuffix).subset ht))

theorem ConsentsFollow.quiet (h : ConsentsFollow userId start w) (hquiet : Quiet w w') :
    ConsentsFollow userId start w' := by
  have hwritten : ∀ t, EventsApi.loaded t w.trace ≠ none →
      written userId w' t = written userId w t := by
    intro t hloaded
    have hrequest : w'.request t = w.request t := by
      by_contra hne
      exact hloaded (loaded_of_untraced (hquiet.newcomer t hne))
    rw [written, written, hrequest, hquiet.trace]
  constructor
  · rw [hquiet.slot, hquiet.trace, h.after_congr hwritten List.suffix_rfl]
    exact h.stored
  · intro t version hheld
    rw [hquiet.slot] at hheld ⊢
    rw [hquiet.trace]
    obtain ⟨hloaded, hpending⟩ := h.pending t version hheld
    rw [hwritten t hloaded]
    exact ⟨hloaded, hpending⟩
  · intro t earlier rows user hloaded hmem
    rw [hquiet.trace] at hloaded
    rw [h.after_congr hwritten (loaded_suffix hloaded)]
    exact h.reads t earlier rows user hloaded hmem
  · rw [hquiet.trace]
    exact h.uncommitted
  · rw [hquiet.trace]
    exact h.loaded
  · rw [hquiet.trace]
    exact h.once

theorem ConsentsFollow.rollback (h : ConsentsFollow userId start w) (t : Txn) :
    ConsentsFollow userId start (w.finish t false) where
  stored := by
    have hsame : ((w.finish t false).slot userTable userId).committed
        = (w.slot userTable userId).committed := Slot.release_false_committed
    rw [hsame]
    exact h.stored
  pending u version hheld := by
    obtain ⟨_, hsame⟩ := World.held_of_finish hheld
    rw [hsame] at hheld ⊢
    exact h.pending u version hheld
  reads := h.reads
  uncommitted := h.uncommitted
  loaded := h.loaded
  once := h.once

variable (userId start) in
def consentsFollow : Discipline database ConsentRequest where
  inv := ConsentsFollow userId start
  rely _ _ _ := True
  allowed _ _ _ := True
  rely_refl _ _ := trivial
  rely_trans _ _ := trivial
  quiet hquiet h := ⟨h.quiet hquiet, fun _ => trivial⟩
  rollback t _ _ h := ⟨h.rollback t, fun _ _ => trivial⟩

theorem ConsentsFollow.keeps (h : ConsentsFollow userId start w') :
    (consentsFollow userId start).Keeps t w w' :=
  ⟨h, fun _ _ => trivial⟩

theorem loaded_note_cases (t u : Txn) (event : ReadCommitted.Event database)
    {earlier : List (Entry database)} {rows : List (Nat × User)}
    (h : loaded u (w.note t event).trace = some (earlier, rows)) :
    loaded u w.trace = some (earlier, rows)
      ∨ loaded u w.trace = none ∧ u = t ∧ earlier = w.trace ∧ usersFound event = some rows := by
  change (loaded u w.trace).or (if t = u then (usersFound event).map (w.trace, ·) else none)
    = some (earlier, rows) at h
  obtain h | ⟨hnone, h⟩ := Option.or_eq_some_iff.mp h
  · exact .inl h
  · split at h
    · obtain ⟨found, hfound, heq⟩ := Option.map_eq_some_iff.mp h
      cases heq
      exact .inr ⟨hnone, (‹t = u›).symm, rfl, hfound⟩
    · cases h

theorem commits_note (t : Txn) {event : ReadCommitted.Event database} (h : event ≠ .committed) :
    commits (w.note t event).trace = commits w.trace :=
  commits_cons_of_ne h

theorem written_note (t : Txn) (event : ReadCommitted.Event database)
    (h : loaded u w.trace ≠ none) :
    written userId (w.note t event) u = written userId w u := by
  obtain ⟨⟨earlier, rows⟩, hloaded⟩ := Option.ne_none_iff_exists'.mp h
  have hloaded' : loaded u (w.note t event).trace = some (earlier, rows) :=
    loaded_cons_of_some _ hloaded
  rw [written, written, hloaded, hloaded']
  rfl

theorem loaded_note (t : Txn) (event : ReadCommitted.Event database)
    (h : loaded u w.trace ≠ none) : loaded u (w.note t event).trace ≠ none := by
  obtain ⟨⟨earlier, rows⟩, hloaded⟩ := Option.ne_none_iff_exists'.mp h
  rw [show loaded u (w.note t event).trace = some (earlier, rows) from
    loaded_cons_of_some _ hloaded]
  exact Option.some_ne_none _

/-- An entry that is no commit. A first read finds the committed row. -/
theorem ConsentsFollow.note (h : ConsentsFollow userId start w)
    {event : ReadCommitted.Event database} (hevent : event ≠ .committed)
    (hrows : ∀ rows user, usersFound event = some rows → EventsApi.loaded t w.trace = none →
      (userId, user) ∈ rows → (w.slot userTable userId).committed = some user) :
    ConsentsFollow userId start (w.note t event) := by
  have hcommits := commits_note (w := w) t hevent
  have hwritten : ∀ u, EventsApi.loaded u w.trace ≠ none →
      written userId (w.note t event) u = written userId w u := fun u => written_note t event
  constructor
  · rw [hcommits, h.after_congr hwritten List.suffix_rfl]
    exact h.stored
  · intro u version hheld
    obtain ⟨hloaded, hpending⟩ := h.pending u version hheld
    rw [hwritten u hloaded]
    exact ⟨loaded_note t event hloaded, hpending⟩
  · intro u earlier rows user hloaded hmem
    obtain hold | ⟨hnone, rfl, rfl, hfound⟩ := loaded_note_cases t u event hloaded
    · rw [h.after_congr hwritten (loaded_suffix hold)]
      exact h.reads u earlier rows user hold hmem
    · rw [h.after_congr hwritten List.suffix_rfl]
      obtain ⟨user', huser, hfollows⟩ := h.stored
      obtain rfl : user' = user :=
        Option.some.inj (huser.symm.trans (hrows rows user hfound hnone hmem))
      exact hfollows
  · intro u earlier rows hloaded hcommitted
    obtain hold | ⟨hnone, rfl, rfl, _⟩ := loaded_note_cases t u event hloaded
    · exact h.uncommitted u earlier rows hold hcommitted
    · exact h.loaded u hcommitted hnone
  · rw [hcommits]
    exact fun u hu => loaded_note t event (h.loaded u hu)
  · rw [hcommits]
    exact h.once

/-! ### Assertions -/

variable {request : ConsentRequest} {id : Nat} {user : User}

variable (userId) in
/-- The request has not read the users yet. -/
structure Arriving (request : ConsentRequest) (t : Txn) (w : ConsentWorld) : Prop where
  asked : w.request t = some request
  untraced : ∀ e ∈ w.trace, e.txn ≠ t
  unlocked : ¬ (w.slot userTable userId).HeldBy t

variable (context) in
/-- The request was authenticated with this row. -/
structure Admitted (request : ConsentRequest) (id : Nat) (user : User) (t : Txn)
    (w : ConsentWorld) : Prop where
  asked : w.request t = some request
  genuine : ∃ token now claims, request.credentials = some token
    ∧ context.crypto.decode token now = some claims ∧ claims.sub = id
  verified : user.emailVerifiedAt ≠ none
  loaded : ∃ earlier rest, loaded t w.trace = some (earlier, (id, user) :: rest)

variable (context userId) in
/-- The `UPDATE`, if there is to be one, has not run yet. -/
structure Comparing (request : ConsentRequest) (id : Nat) (user : User) (t : Txn)
    (w : ConsentWorld) : Prop extends Admitted context request id user t w where
  uncommitted : t ∉ commits w.trace
  unlocked : ¬ (w.slot userTable userId).HeldBy t

variable (context userId) in
/-- The `UPDATE` has run. -/
structure Updated (request : ConsentRequest) (id : Nat) (user : User) (t : Txn)
    (w : ConsentWorld) : Prop extends Admitted context request id user t w where
  uncommitted : t ∉ commits w.trace
  locked : (w.slot userTable userId).HeldBy t ↔ id = userId

variable (context) in
/-- The request has committed, or had nothing to write. -/
structure Settled (request : ConsentRequest) (id : Nat) (user : User) (t : Txn)
    (w : ConsentWorld) : Prop extends Admitted context request id user t w where
  settled : t ∈ commits w.trace
    ∨ t ∉ commits w.trace ∧ differing request.payload.supplied user.consents = (none, none)

variable (context) in
/-- An authenticated request has committed, or had nothing to write. -/
def Consented (request : ConsentRequest) (t : Txn) : Except Exn MarketingConsentsResponse →
    ConsentWorld → Prop :=
  Discipline.OnSuccess fun _ w => ∃ id user, Settled context request id user t w

theorem not_mem_commits_others (hw : Others t w w') (h : t ∉ commits w.trace) :
    t ∉ commits w'.trace := by
  intro hmem
  obtain ⟨e, he, hown, hcommitted⟩ := mem_commits.mp hmem
  exact h (mem_commits.mpr ⟨e, hw.mem_trace_of_own he hown, hown, hcommitted⟩)

theorem mem_commits_others (hw : Others t w w') (h : u ∈ commits w.trace) :
    u ∈ commits w'.trace := by
  obtain ⟨e, he, hrest⟩ := mem_commits.mp h
  exact mem_commits.mpr ⟨e, hw.trace_subset e he, hrest⟩

theorem Admitted.others (h : Admitted context request id user t w) (hw : Others t w w') :
    Admitted context request id user t w' := by
  obtain ⟨new, htrace, _⟩ := hw.trace
  obtain ⟨earlier, rest, hloaded⟩ := h.loaded
  refine ⟨hw.request t request h.asked, h.genuine, h.verified, earlier, rest, ?_⟩
  rw [htrace]
  exact loaded_append new hloaded

theorem Admitted.note (h : Admitted context request id user t w)
    (event : ReadCommitted.Event database) :
    Admitted context request id user t (w.note t event) := by
  obtain ⟨earlier, rest, hloaded⟩ := h.loaded
  exact ⟨h.asked, h.genuine, h.verified, earlier, rest, loaded_cons_of_some _ hloaded⟩

theorem Admitted.loaded_ne_none (h : Admitted context request id user t w) :
    EventsApi.loaded t w.trace ≠ none := by
  obtain ⟨earlier, rest, hloaded⟩ := h.loaded
  rw [hloaded]
  exact Option.some_ne_none _

theorem Admitted.written_eq (h : Admitted context request id user t w) :
    written userId w t
      = if id = userId then differing request.payload.supplied user.consents else (none, none) := by
  obtain ⟨earlier, rest, hloaded⟩ := h.loaded
  rw [written, h.asked, hloaded]

theorem Arriving.stable : (consentsFollow userId start).Stable t (Arriving userId request t) :=
  fun h hw => ⟨hw.others.request t request h.asked,
    fun e he hown => h.untraced e (hw.others.mem_trace_of_own he hown) hown,
    hw.others.not_mine userTable userId h.unlocked⟩

theorem Comparing.stable :
    (consentsFollow userId start).Stable t (Comparing context userId request id user t) :=
  fun h hw => ⟨h.toAdmitted.others hw.others, not_mem_commits_others hw.others h.uncommitted,
    hw.others.not_mine userTable userId h.unlocked⟩

theorem Updated.stable :
    (consentsFollow userId start).Stable t (Updated context userId request id user t) := by
  refine fun h hw => ⟨h.toAdmitted.others hw.others,
    not_mem_commits_others hw.others h.uncommitted, ?_⟩
  rw [← h.locked]
  constructor
  · rintro ⟨version, hheld⟩
    exact ⟨version, hw.others.held_before hheld⟩
  · rintro ⟨version, hheld⟩
    exact ⟨version, by rw [hw.others.mine _ _ _ hheld, hheld]⟩

theorem Consented.stable (r : Except Exn MarketingConsentsResponse) :
    (consentsFollow userId start).Stable t (Consented context request t r) := by
  apply Discipline.OnSuccess.stable
  rintro _ w w' ⟨id, user, hend⟩ hw
  refine ⟨id, user, hend.toAdmitted.others hw.others,
    hend.settled.imp (mem_commits_others hw.others) ?_⟩
  exact fun hnothing => ⟨not_mem_commits_others hw.others hnothing.1, hnothing.2⟩

/-! ### Operations -/

section Exec

variable {choice : Choice} {claims : TokenClaims} {rows : List (Nat × User)}

theorem ConsentsFollow.now {J : ConsentWorld → Prop} {clock : Int} (h : J w)
    (hinv : ConsentsFollow userId start w) (hexec : Op.now.exec t choice w = some (clock, w')) :
    (consentsFollow userId start).Keeps t w w' ∧ J w' := by
  obtain ⟨_, rfl⟩ := exec_now hexec
  exact ⟨hinv.keeps, h⟩

/-- The first statement loads the committed row. -/
theorem Arriving.select {p : Nat → User → Bool} (h : Arriving userId request t w)
    (hinv : ConsentsFollow userId start w)
    (hexec : (Op.select (S := database) userTable p).exec t choice w = some (rows, w')) :
    (consentsFollow userId start).Keeps t w w'
      ∧ w'.request t = some request ∧ (∃ earlier, loaded t w'.trace = some (earlier, rows))
      ∧ t ∉ commits w'.trace ∧ ¬ (w'.slot userTable userId).HeldBy t
      ∧ ∀ entry ∈ rows, p entry.1 entry.2 = true := by
  obtain ⟨rfl, _, hrows⟩ := exec_select hexec
  have hinv' : ConsentsFollow userId start (w.note t (.selected userTable rows)) := by
    apply hinv.note (by rintro ⟨⟩)
    rintro found user hfound _ hmem
    obtain rfl : rows = found := Option.some.inj hfound
    rw [← Slot.view_eq_committed h.unlocked]
    exact ((hrows userId user).mp hmem).2.1
  refine ⟨hinv'.keeps, h.asked, ⟨w.trace, ?_⟩, ?_, h.unlocked,
    fun entry hentry => ((hrows entry.1 entry.2).mp hentry).2.2⟩
  · change (loaded t w.trace).or (if t = t then some (w.trace, rows) else none) = _
    rw [loaded_of_untraced h.untraced, if_pos rfl]
    rfl
  · rw [commits_note t (by rintro ⟨⟩)]
    intro hmem
    obtain ⟨e, he, hown, _⟩ := mem_commits.mp hmem
    exact h.untraced e he hown

/-- A later entry of an authenticated request. -/
theorem Admitted.keeps_note (h : Admitted context request id user t w)
    (hinv : ConsentsFollow userId start w) {event : ReadCommitted.Event database}
    (hevent : event ≠ .committed) :
    (consentsFollow userId start).Keeps t w (w.note t event) :=
  (hinv.note hevent fun _ _ _ hnone => absurd hnone h.loaded_ne_none).keeps

/-- The snapshot of the `UPDATE` finds the row of the user. -/
theorem Comparing.select {p : Nat → User → Bool}
    (hp : ∀ id' user', p id' user' = true ↔ id' = id)
    (h : Comparing context userId request id user t w) (hsound : w.Sound)
    (hinv : ConsentsFollow userId start w)
    (hexec : (Op.select (S := database) userTable p).exec t choice w = some (rows, w')) :
    (consentsFollow userId start).Keeps t w w'
      ∧ (rows = [] ∧ Updated context userId request id user t w'
        ∨ rows.map (·.1) = [id] ∧ Comparing context userId request id user t w') := by
  have hone : rows = [] ∨ rows.map (·.1) = [id] :=
    exec_select_one (fun id' user' hmatch => (hp id' user').mp hmatch) hexec
  have hfound : id = userId → rows ≠ [] := by
    rintro rfl rfl
    obtain ⟨old, hold, _⟩ := hinv.stored
    have hview := (Slot.view_eq_committed h.unlocked).trans hold
    exact List.not_mem_nil (exec_select_mem hsound hexec hview ((hp id old).mpr rfl))
  obtain ⟨rfl, _⟩ := exec_select hexec
  refine ⟨h.keeps_note hinv (by rintro ⟨⟩), ?_⟩
  have hadmitted := h.toAdmitted.note (.selected userTable rows)
  have huncommitted : t ∉ commits (w.note t (.selected userTable rows)).trace := by
    rw [commits_note t (by rintro ⟨⟩)]
    exact h.uncommitted
  obtain rfl | hids := hone
  · refine .inl ⟨rfl, hadmitted, huncommitted, fun hheld => absurd hheld h.unlocked, fun heq => ?_⟩
    exact absurd rfl (hfound heq)
  · exact .inr ⟨hids, hadmitted, huncommitted, h.unlocked⟩

/-- The columns are written over the newest version of the row. -/
theorem Comparing.write (h : Comparing context userId request id user t w)
    (hinv : ConsentsFollow userId start w) {old new : User}
    (hold : (w.slot userTable id).view t = some old)
    (hverified : new.emailVerifiedAt = old.emailVerifiedAt)
    (hnew : new.consents
      = overwrite (differing request.payload.supplied user.consents) old.consents) :
    ConsentsFollow userId start (w.write t userTable id (some new))
      ∧ Updated context userId request id user t (w.write t userTable id (some new)) := by
  have hslot : id ≠ userId →
      (w.write t userTable id (some new)).slot userTable userId = w.slot userTable userId :=
    fun hne => World.write_slot_of_ne _ fun hsame => hne hsame.2.symm
  refine ⟨⟨?_, ?_, hinv.reads, hinv.uncommitted, hinv.loaded, hinv.once⟩,
    ⟨h.asked, h.genuine, h.verified, h.loaded⟩, h.uncommitted, ?_⟩
  · rw [write_committed]
    exact hinv.stored
  · intro u version hheld
    rw [write_committed]
    by_cases hid : id = userId
    · subst hid
      rw [World.write_slot_self] at hheld
      cases hheld
      refine ⟨h.loaded_ne_none, old, new, ?_, rfl, hverified, ?_⟩
      · exact (Slot.view_eq_committed h.unlocked).symm.trans hold
      · rw [hnew]
        exact congrArg (overwrite · old.consents) (h.written_eq.trans (if_pos rfl)).symm
    · rw [hslot hid] at hheld
      exact hinv.pending u version hheld
  · constructor
    · intro hheld
      by_contra hid
      rw [hslot hid] at hheld
      exact h.unlocked hheld
    · rintro rfl
      exact ⟨some new, by rw [World.write_slot_self]; rfl⟩

theorem Updated.note (h : Updated context userId request id user t w)
    {event : ReadCommitted.Event database} (hevent : event ≠ .committed) :
    Updated context userId request id user t (w.note t event) := by
  refine ⟨h.toAdmitted.note event, ?_, h.locked⟩
  rw [commits_note t hevent]
  exact h.uncommitted

theorem Comparing.lock {p : User → Bool} {updatedAt startedAt : Int} {found : Option User}
    (hp : ∀ user', p user' = true) (h : Comparing context userId request id user t w)
    (hinv : ConsentsFollow userId start w)
    (hexec : (Op.lock userTable id p fun (old : User) =>
      some (Users.setConsents (differing request.payload.supplied user.consents) updatedAt startedAt
        old)).exec t choice w = some (found, w')) :
    (consentsFollow userId start).Keeps t w w'
      ∧ Updated context userId request id user t w' := by
  obtain ⟨_, ⟨hnone, _, rfl⟩ | ⟨old, hold, ⟨_, _, rfl⟩ | ⟨hfalse, _⟩⟩⟩ := exec_lock hexec
  · refine ⟨hinv.keeps, h.toAdmitted, h.uncommitted, fun hheld => absurd hheld h.unlocked, ?_⟩
    rintro rfl
    obtain ⟨old, hold, _⟩ := hinv.stored
    rw [← Slot.view_eq_committed h.unlocked, hnone] at hold
    cases hold
  · have hverified : (Users.setConsents (differing request.payload.supplied user.consents) updatedAt
        startedAt old).emailVerifiedAt = old.emailVerifiedAt := rfl
    obtain ⟨hinv', hupdated⟩ := h.write hinv hold hverified (setConsents_consents _ _ _ old)
    exact ⟨hinv'.keeps.trans (hupdated.keeps_note hinv' (by rintro ⟨⟩)),
      hupdated.note (by rintro ⟨⟩)⟩
  · rw [hp old] at hfalse
    cases hfalse

theorem written_committed (t u : Txn) :
    written userId ((w.finish t true).note t .committed) u = written userId w u := by
  have hloaded : loaded u ((w.finish t true).note t .committed).trace = loaded u w.trace :=
    loaded_cons_of_unread rfl
  rw [written, written, hloaded]
  rfl

theorem consentsAfter_committed (txns : List Txn) (consents : Consents) :
    consentsAfter (written userId ((w.finish t true).note t .committed)) consents txns
      = consentsAfter (written userId w) consents txns :=
  consentsAfter_congr fun u _ => written_committed t u

/-- The commit makes the written columns those that everybody reads. -/
theorem Updated.stored (h : Updated context userId request id user t w)
    (hinv : ConsentsFollow userId start w) :
    ∃ user : User, ((w.slot userTable userId).release t true).committed = some user
      ∧ user.emailVerifiedAt = start.emailVerifiedAt
      ∧ user.consents = overwrite (written userId w t)
        (consentsAfter (written userId w) start.consents (commits w.trace)) := by
  obtain ⟨old, hold, hverified, hconsents⟩ := hinv.stored
  rw [← hconsents]
  by_cases hheld : (w.slot userTable userId).HeldBy t
  · obtain ⟨version, hversion⟩ := hheld
    obtain ⟨_, old', new, hold', rfl, hkept, hnew⟩ := hinv.pending t version hversion
    obtain rfl : old = old' := Option.some.inj (hold.symm.trans hold')
    rw [Slot.release_of_held true hversion]
    exact ⟨new, rfl, hkept.trans hverified, hnew⟩
  · rw [Slot.release_of_not_held true hheld, h.written_eq,
      if_neg fun hid => hheld (h.locked.mpr hid)]
    exact ⟨old, hold, hverified, rfl⟩

theorem Updated.commit {answer : Unit} (h : Updated context userId request id user t w)
    (hinv : ConsentsFollow userId start w)
    (hexec : Op.commit.exec t choice w = some (answer, w')) :
    (consentsFollow userId start).Keeps t w w' ∧ Admitted context request id user t w'
      ∧ t ∈ commits w'.trace := by
  have hunlocked := TableStep.unlocked_of_commit hexec userTable userId
  obtain rfl := exec_commit hexec
  have hloaded : ∀ u, EventsApi.loaded u ((w.finish t true).note t .committed).trace
      = EventsApi.loaded u w.trace := fun u => loaded_cons_of_unread rfl
  have hadmitted : Admitted context request id user t (w.finish t true) :=
    ⟨h.asked, h.genuine, h.verified, h.loaded⟩
  refine ⟨ConsentsFollow.keeps ?_, hadmitted.note .committed, List.mem_cons_self⟩
  constructor
  · rw [consentsAfter_committed]
    exact h.stored hinv
  · intro u version hheld
    rw [hloaded, written_committed]
    have hsame : ((w.finish t true).note t .committed).slot userTable userId
        = w.slot userTable userId := (World.held_of_finish hheld).2
    rw [hsame] at hheld ⊢
    exact hinv.pending u version hheld
  · intro u earlier rows user' hload hmem
    rw [hloaded] at hload
    rw [consentsAfter_committed]
    exact hinv.reads u earlier rows user' hload hmem
  · intro u earlier rows hload
    rw [hloaded] at hload
    exact hinv.uncommitted u earlier rows hload
  · intro u hu
    rw [hloaded]
    obtain rfl | hu := List.mem_cons.mp hu
    · exact h.loaded_ne_none
    · exact hinv.loaded u hu
  · exact List.nodup_cons.mpr ⟨h.uncommitted, hinv.once⟩

end Exec

/-! ### The request -/

/-- Who has been authenticated, and the row as it was loaded. -/
theorem Arriving.getCurrentUser (h : Arriving userId request t w) :
    (consentsFollow userId start).Safe t
      (Discipline.OnSuccess fun current w =>
        Comparing context userId request current.2.1 current.2.2 t w)
      (getCurrentUser context request.credentials) w := by
  unfold EventsApi.getCurrentUser
  cases hcredentials : request.credentials with
  | none => trivial
  | some token =>
      apply Discipline.Safe.perform_bind Arriving.stable h
        (K := fun _ w => Arriving userId request t w)
        (fun h _ hinv _ hexec => hinv.now h hexec)
      intro now w h
      cases hdecode : context.crypto.decode token now with
      | none => trivial
      | some claims =>
          apply Discipline.Safe.perform_bind Arriving.stable h
            (K := fun _ w => Arriving userId request t w)
            (fun h _ hinv _ hexec => hinv.now h hexec)
          intro startedAt w h
          apply Discipline.Safe.scalar_bind Arriving.stable h
          · intro w choice rows w' h _ hinv _ hexec
            exact h.select hinv hexec
          rintro rows w ⟨hreq, ⟨earlier, hloaded⟩, huncommitted, hunlocked, hrows⟩
          match rows, hloaded with
          | [], _ => trivial
          | (id, user) :: rest, hloaded =>
              have hid : claims.sub = id := (beq_iff_eq.mp (hrows (id, user) List.mem_cons_self)).symm
              simp only [List.head?_cons]
              cases hverified : user.emailVerifiedAt with
              | none => trivial
              | some verifiedAt =>
                  refine ⟨⟨hreq, ⟨token, now, claims, hcredentials, hdecode, hid⟩, ?_, earlier, rest,
                    hloaded⟩, huncommitted, hunlocked⟩
                  rw [hverified]
                  exact Option.some_ne_none verifiedAt

theorem Updated.finish (h : Updated context userId request id user t w) :
    (consentsFollow userId start).Safe t
      (Discipline.OnSuccess fun _ w => Settled context request id user t w)
      (do
        Prog.commit
        Users.refresh id : Db (Nat × User)) w := by
  have hstable : (consentsFollow userId start).Stable t fun w =>
      Admitted context request id user t w ∧ t ∈ commits w.trace :=
    fun h hw => ⟨h.1.others hw.others, mem_commits_others hw.others h.2⟩
  apply Discipline.Safe.perform_bind Updated.stable h
    (K := fun _ w => Admitted context request id user t w ∧ t ∈ commits w.trace)
    (fun h _ hinv _ hexec => h.commit hinv hexec)
  intro _ w h
  apply Discipline.Safe.scalar_bind hstable h
    (K := fun _ w => Admitted context request id user t w ∧ t ∈ commits w.trace)
  · intro w choice rows w' h _ hinv _ hexec
    obtain ⟨rfl, _⟩ := exec_select hexec
    refine ⟨h.1.keeps_note hinv (by rintro ⟨⟩), h.1.note _, ?_⟩
    rw [commits_note t (by rintro ⟨⟩)]
    exact h.2
  · intro rows w h
    cases rows.head? with
    | none => trivial
    | some found => exact ⟨h.1, .inl h.2⟩

theorem Comparing.update {updatedAt startedAt : Int}
    (h : Comparing context userId request id user t w) :
    (consentsFollow userId start).Safe t
      (Discipline.OnSuccess fun _ w => Settled context request id user t w)
      (Users.updateMarketingConsents id user request.payload.marketingEmailConsent
        request.payload.marketingPushConsent updatedAt startedAt) w := by
  have hvalues := changedConsents_eq user request.payload
  unfold Users.updateMarketingConsents
  generalize Users.changedConsents user request.payload.marketingEmailConsent
    request.payload.marketingPushConsent = values at hvalues
  by_cases hsome : values.1.isSome = true ∨ values.2.isSome = true
  · simp only [if_pos hsome]
    rw [hvalues]
    apply Discipline.Safe.bind (Q := fun _ w => Updated context userId request id user t w)
    · apply Discipline.Safe.perform_bind Comparing.stable h
        (K := fun rows w => rows = [] ∧ Updated context userId request id user t w
          ∨ rows.map (·.1) = [id] ∧ Comparing context userId request id user t w)
      · intro w choice rows w' h hsound hinv _ hexec
        exact h.select (fun _ _ => beq_iff_eq) hsound hinv hexec
      · rintro rows w (⟨rfl, h⟩ | ⟨hids, h⟩)
        · exact h
        · rw [hids]
          apply Discipline.Safe.exec Comparing.stable h
            (K := fun _ w => Updated context userId request id user t w)
          · intro w choice found w' h _ hinv _ hexec
            exact h.lock (fun _ => beq_self_eq_true id) hinv hexec
          · intro found w h
            exact h
    · exact fun _ w h => h.finish
    · exact fun _ _ _ => trivial
  · simp only [if_neg hsome]
    refine ⟨h.toAdmitted, .inr ⟨h.uncommitted, ?_⟩⟩
    rw [← hvalues]
    apply Prod.ext
    · exact Option.not_isSome_iff_eq_none.mp fun hchanged => hsome (.inl hchanged)
    · exact Option.not_isSome_iff_eq_none.mp fun hchanged => hsome (.inr hchanged)

theorem consentSystem_verified :
    (consentsFollow userId start).Verified (consentSystem context) (Consented context) where
  stable _ _ r := Consented.stable r
  close request t r w _ _ h := by
    cases r with
    | error => trivial
    | ok response =>
        obtain ⟨id, user, hend⟩ := h
        exact ⟨id, user, ⟨hend.asked, hend.genuine, hend.verified, hend.loaded⟩, hend.settled⟩
  lost _ _ _ _ := trivial
  handler request t w _ _ hfresh hreq := by
    have h : Arriving userId request t w :=
      ⟨hreq, hfresh.untraced, hfresh.unlocked userTable userId⟩
    apply h.getCurrentUser.bind_onSuccess
    · rintro ⟨startedAt, id, user⟩ w h
      apply Discipline.Safe.perform_bind Comparing.stable h
        (K := fun _ w => Comparing context userId request id user t w)
        (fun h _ hinv _ hexec => hinv.now h hexec)
      intro updatedAt w h
      apply h.update.bind_onSuccess
      · exact fun updated w hend => ⟨id, user, hend⟩
      · exact fun _ _ => trivial
    · exact fun _ _ => trivial

/-! ### One request after the other -/

/-- The bearer token of the request is one of this user. -/
def OfUser (context : Context) (userId : Nat) (request : ConsentRequest) : Prop :=
  ∀ token now claims, request.credentials = some token →
    context.crypto.decode token now = some claims → claims.sub = userId

/-- Nobody is working on the row of the user. -/
structure Resting (userId : Nat) (user : User) (w : ConsentWorld) : Prop where
  sound : w.Sound
  slot : w.slot userTable userId = ⟨some user, none⟩

theorem Resting.view (h : Resting userId user w) (t : Txn) :
    (w.slot userTable userId).view t = some user := by
  rw [h.slot]
  rfl

theorem Resting.note (h : Resting userId user w) (t : Txn) (event : ReadCommitted.Event database) :
    Resting userId user (w.note t event) :=
  ⟨h.sound.note event, h.slot⟩

theorem Resting.finish (h : Resting userId user w) (t : Txn) :
    Resting userId user (w.finish t false) := by
  refine ⟨h.sound.finish false, ?_⟩
  change (w.slot userTable userId).release t false = _
  rw [h.slot]
  rfl

/-- The row after a request that ran alone. -/
def Overwritten (userId : Nat) (user : User) (request : ConsentRequest) (w : ConsentWorld) : Prop :=
  ∃ user', Resting userId user' w ∧ user'.emailVerifiedAt = user.emailVerifiedAt
    ∧ user'.consents = overwrite request.payload.supplied user.consents

variable (context) in
/-- What a request comes to that runs alone: with a valid token it succeeds, and when it succeeds
the supplied values are stored. -/
def AnsweredAlone (userId : Nat) (user : User) (request : ConsentRequest) (clock : Int)
    (r : Except Exn MarketingConsentsResponse) (w : ConsentWorld) : Prop :=
  (∀ token claims, request.credentials = some token →
    context.crypto.decode token clock = some claims → ∃ response, r = .ok response)
    ∧ ∀ response, r = .ok response → Overwritten userId user request w

theorem AnsweredAlone.of_ok {response : MarketingConsentsResponse} {clock : Int}
    (h : Overwritten userId user request w) :
    AnsweredAlone context userId user request clock (.ok response) w :=
  ⟨fun _ _ _ _ => ⟨response, rfl⟩, fun _ _ => h⟩

theorem AnsweredAlone.of_refused {error : Exn} {clock : Int}
    (h : ∀ token, request.credentials = some token → context.crypto.decode token clock = none) :
    AnsweredAlone context userId user request clock (.error error) w := by
  refine ⟨fun token claims hcredentials hdecode => ?_, fun response hr => by cases hr⟩
  rw [h token hcredentials] at hdecode
  cases hdecode

/-- The second half of a request that has something to write. -/
theorem Resting.update_alone {values : SuppliedConsents} {updatedAt startedAt clock : Int}
    (h : Resting userId user w) (hvalues : overwrite values user.consents
      = overwrite request.payload.supplied user.consents) :
    (do
      let (_, updated) ← (do
        let _ ← Prog.updateWhere (S := database) .users (fun id _ => id == userId)
          (Users.setConsents values updatedAt startedAt)
        Prog.commit
        Users.refresh userId : Db (Nat × User))
      return .ofUser updated : Db MarketingConsentsResponse).Alone t
        (AnsweredAlone context userId user request clock) w := by
  apply Prog.Alone.select
  intro choice rows w₁ hexec
  obtain ⟨rfl, rfl⟩ := select_user (fun _ _ => beq_iff_eq) h.sound (h.view t) hexec
  have hfound := h.note t (.selected userTable [(userId, user)])
  have havailable : ((w.note t (.selected userTable [(userId, user)])).slot userTable
      userId).availableTo t = true := by
    rw [hfound.slot]
    rfl
  apply Prog.Alone.lock havailable (hfound.view t) (beq_self_eq_true userId)
  apply Prog.Alone.commit
  have hwritten : Resting userId (Users.setConsents values updatedAt startedAt user)
      ((((w.note t (.selected userTable [(userId, user)])).write t userTable userId
        (some (Users.setConsents values updatedAt startedAt user))).note t
          (.locked userTable userId user)).finish t true) := by
    refine ⟨⟨((hfound.sound.write (hfound.view t) _).finish true).beyond,
      hfound.sound.drawn_nodup⟩, ?_⟩
    refine (congrArg (Slot.release t true) (World.write_slot_self _)).trans ?_
    exact Slot.release_of_held true rfl
  apply Prog.Alone.select
  intro choice rows w₁ hexec
  have hdone := hwritten.note t .committed
  obtain ⟨rfl, rfl⟩ := select_user (fun _ _ => beq_iff_eq) hdone.sound (hdone.view t) hexec
  apply Prog.Alone.pure
  apply AnsweredAlone.of_ok
  exact ⟨_, (hdone.note t _).finish t, rfl, hvalues⟩

theorem Resting.handler_alone (h : Resting userId user w) (hverified : user.emailVerifiedAt ≠ none)
    (hown : OfUser context userId request) :
    (request.handler context).Alone t (AnsweredAlone context userId user request w.clock) w := by
  unfold ConsentRequest.handler EventsApi.getCurrentUser
  cases hcredentials : request.credentials with
  | none =>
      apply Prog.Alone.raise
      apply AnsweredAlone.of_refused
      intro token htoken
      rw [hcredentials] at htoken
      cases htoken
  | some token =>
      apply Prog.Alone.now
      cases hdecode : context.crypto.decode token w.clock with
      | none =>
          simp only [Prog.pure_bind, hdecode]
          apply Prog.Alone.raise
          apply AnsweredAlone.of_refused
          intro token' htoken
          rw [hcredentials] at htoken
          cases htoken
          exact hdecode
      | some claims =>
          have hsub : claims.sub = userId := hown token w.clock claims hcredentials hdecode
          simp only [Prog.pure_bind, hdecode]
          apply Prog.Alone.now
          apply Prog.Alone.select
          intro choice rows w₁ hexec
          obtain ⟨rfl, rfl⟩ := select_user (fun _ _ => by rw [hsub]; exact beq_iff_eq) h.sound
            (h.view t) hexec
          obtain ⟨verifiedAt, hverifiedAt⟩ := Option.ne_none_iff_exists'.mp hverified
          change Prog.Alone t _ (((Prog.pure (some (userId, user)) :
            Db (Option (Nat × User))).bind _).bind _) _
          simp only [Prog.pure_bind, hverifiedAt]
          apply Prog.Alone.now
          have hvalues := changedConsents_eq user request.payload
          have hoverwrite := overwrite_differing request.payload.supplied user.consents
          unfold Users.updateMarketingConsents
          generalize Users.changedConsents user request.payload.marketingEmailConsent
            request.payload.marketingPushConsent = values at hvalues
          rw [← hvalues] at hoverwrite
          by_cases hsome : values.1.isSome = true ∨ values.2.isSome = true
          · simp only [Prog.pure_bind, if_pos hsome]
            exact (h.note t _).update_alone hoverwrite
          · have hnone : values = (none, none) := by
              apply Prod.ext
              · exact Option.not_isSome_iff_eq_none.mp fun hchanged => hsome (.inl hchanged)
              · exact Option.not_isSome_iff_eq_none.mp fun hchanged => hsome (.inr hchanged)
            simp only [Prog.pure_bind, if_neg hsome]
            apply Prog.Alone.pure
            apply AnsweredAlone.of_ok
            refine ⟨user, (h.note t _).finish t, rfl, ?_⟩
            rw [← hoverwrite, hnone, overwrite_none]

/-- The two requests succeed one after the other, at whatever times, and leave these consents. -/
def RunsInOrder (context : Context) (userId : Nat) (first second : ConsentRequest)
    (w : ConsentWorld) (final : Consents) : Prop :=
  ∃ t now response w₁ t' now' response' w₂,
    (first.handler context).Runs t { w with clock := now } (.ok response) w₁
      ∧ (second.handler context).Runs t' { w₁ with clock := now' } (.ok response') w₂
      ∧ (w₂.slot userTable userId).committed.map User.consents = some final

theorem Resting.at_clock (h : Resting userId user w) (now : Int) :
    Resting userId user { w with clock := now } :=
  ⟨h.sound.at_clock now, h.slot⟩

theorem runsInOrder_iff {first second : ConsentRequest} {final : Consents}
    (h : Resting userId user w) (hverified : user.emailVerifiedAt ≠ none)
    (hfirst : OfUser context userId first) (hsecond : OfUser context userId second)
    (hvalid : ∃ token now claims, first.credentials = some token
      ∧ context.crypto.decode token now = some claims)
    (hvalid' : ∃ token now claims, second.credentials = some token
      ∧ context.crypto.decode token now = some claims) :
    RunsInOrder context userId first second w final
      ↔ final = overwrite second.payload.supplied
        (overwrite first.payload.supplied user.consents) := by
  constructor
  · rintro ⟨t, now, response, w₁, t', now', response', w₂, hruns, hruns', hfinal⟩
    obtain ⟨user₁, hresting₁, hverified₁, hconsents₁⟩ :=
      (((h.at_clock now).handler_alone hverified hfirst).2 _ _ hruns).2 response rfl
    obtain ⟨user₂, hresting₂, _, hconsents₂⟩ := (((hresting₁.at_clock now').handler_alone
      (by rw [hverified₁]; exact hverified) hsecond).2 _ _ hruns').2 response' rfl
    rw [hresting₂.slot] at hfinal
    rw [← Option.some.inj hfinal, ← hconsents₁]
    exact hconsents₂
  · rintro rfl
    obtain ⟨token, now, claims, hcredentials, hdecode⟩ := hvalid
    obtain ⟨token', now', claims', hcredentials', hdecode'⟩ := hvalid'
    obtain ⟨⟨r, w₁, hruns⟩, hall⟩ :=
      (h.at_clock now).handler_alone (t := 0) hverified hfirst
    obtain ⟨response, rfl⟩ := (hall r w₁ hruns).1 token claims hcredentials hdecode
    obtain ⟨user₁, hresting₁, hverified₁, hconsents₁⟩ := (hall _ w₁ hruns).2 response rfl
    obtain ⟨⟨r', w₂, hruns'⟩, hall'⟩ := (hresting₁.at_clock now').handler_alone (t := 0)
      (by rw [hverified₁]; exact hverified) hsecond
    obtain ⟨response', rfl⟩ := (hall' r' w₂ hruns').1 token' claims' hcredentials' hdecode'
    obtain ⟨user₂, hresting₂, _, hconsents₂⟩ := (hall' _ w₂ hruns').2 response' rfl
    refine ⟨0, now, response, w₁, 0, now', response', w₂, hruns, hruns', ?_⟩
    rw [hresting₂.slot, ← hconsents₁]
    exact congrArg some hconsents₂

/-! ### Two requests -/

/-- The transaction read the users after the other one had committed. -/
def ReadAfter (t u : Txn) (trace : List (Entry database)) : Prop :=
  ∃ earlier rows, loaded t trace = some (earlier, rows) ∧ u ∈ commits earlier

/-- What two transactions can have committed, and what each of them can have read. -/
theorem reads_of_two {a b : Txn} {all before before' : List Txn} (hnodup : all.Nodup)
    (honly : ∀ t ∈ all, t = a ∨ t = b) (hbefore : before <:+ all) (ha : a ∉ before)
    (hbefore' : before' <:+ all) (hb : b ∉ before') :
    before = [] ∧ before' = [] ∧ (all = [] ∨ all = [a] ∨ all = [b] ∨ all = [a, b] ∨ all = [b, a])
      ∨ before = [b] ∧ before' = [] ∧ (all = [b] ∨ all = [a, b])
      ∨ before = [] ∧ before' = [a] ∧ (all = [a] ∨ all = [b, a]) := by
  have hall : all = [] ∨ all = [a] ∨ all = [b] ∨ all = [a, b] ∨ all = [b, a] := by
    match all, hnodup, honly with
    | [], _, _ => exact .inl rfl
    | [t], _, honly =>
        obtain rfl | rfl := honly t List.mem_cons_self
        · exact .inr (.inl rfl)
        · exact .inr (.inr (.inl rfl))
    | [t, u], hnodup, honly =>
        have hne : t ≠ u := by simpa using hnodup
        obtain rfl | rfl := honly t (by simp) <;> obtain rfl | rfl := honly u (by simp) <;>
          simp_all
    | t :: u :: v :: rest, hnodup, honly =>
        have ht := honly t (by simp)
        have hu := honly u (by simp)
        have hv := honly v (by simp)
        grind
  obtain rfl | rfl | rfl | rfl | rfl := hall <;>
    simp only [List.suffix_cons_iff, List.suffix_nil] at hbefore hbefore' <;> grind

section TwoRequests

variable {a b : Txn} {first second : ConsentRequest} {userₐ userᵦ : User}

/-- What an authenticated request read, and what it writes. -/
theorem Admitted.reads (h : Admitted context request userId user t w)
    (hinv : ConsentsFollow userId start w) : ∃ earlier rest,
      EventsApi.loaded t w.trace = some (earlier, (userId, user) :: rest) ∧ t ∉ commits earlier
        ∧ commits earlier <:+ commits w.trace
        ∧ user.consents = consentsAfter (written userId w) start.consents (commits earlier)
        ∧ written userId w t = differing request.payload.supplied user.consents := by
  obtain ⟨earlier, rest, hloaded⟩ := h.loaded
  exact ⟨earlier, rest, hloaded, hinv.uncommitted t _ _ hloaded,
    commits_suffix (loaded_suffix hloaded),
    (hinv.reads t _ _ user hloaded List.mem_cons_self).2, h.written_eq.trans (if_pos rfl)⟩

theorem ConsentsFollow.final_of_readAfter (hinv : ConsentsFollow userId start w)
    (honly : ∀ t ∈ commits w.trace, t = a ∨ t = b)
    (ha : Settled context first userId userₐ a w) (hb : Settled context second userId userᵦ b w)
    (hafter : ReadAfter a b w.trace) :
    consentsAfter (written userId w) start.consents (commits w.trace)
      = overwrite first.payload.supplied (overwrite second.payload.supplied start.consents) := by
  obtain ⟨before, rest, hloaded, hnot, hsuffix, hread, hwritten⟩ := ha.toAdmitted.reads hinv
  obtain ⟨before', rest', _, hnot', hsuffix', hread', hwritten'⟩ := hb.toAdmitted.reads hinv
  have hmem : b ∈ commits before := by
    obtain ⟨earlier, rows, hearlier, hmem⟩ := hafter
    cases hloaded.symm.trans hearlier
    exact hmem
  obtain ⟨hnil, _⟩ | ⟨hone, hnil, hall⟩ | ⟨hnil, _⟩ :=
    reads_of_two hinv.once honly hsuffix hnot hsuffix' hnot'
  · rw [hnil] at hmem
    cases hmem
  · rw [hnil] at hread'
    have hread' : userᵦ.consents = start.consents := hread'
    have hread : userₐ.consents = overwrite second.payload.supplied start.consents := by
      rw [hread, hone, consentsAfter, List.foldr_cons, List.foldr_nil, hwritten', hread',
        overwrite_differing]
    rw [← hread, ← overwrite_differing, ← hwritten]
    obtain hall | hall := hall
    · have hnothing : written userId w a = (none, none) := by
        obtain hcommitted | ⟨_, hnothing⟩ := ha.settled
        · rw [hall] at hcommitted
          rw [hone] at hnot
          exact absurd hcommitted hnot
        · exact hwritten.trans hnothing
      rw [hnothing, overwrite_none, hall, hread, ← overwrite_differing, ← hread', ← hwritten', hread']
      rfl
    · rw [hall, hread, ← overwrite_differing second.payload.supplied, ← hread', ← hwritten', hread']
      rfl
  · rw [hnil] at hmem
    cases hmem

theorem ConsentsFollow.final_of_together (hinv : ConsentsFollow userId start w) (hne : a ≠ b)
    (honly : ∀ t ∈ commits w.trace, t = a ∨ t = b)
    (ha : Settled context first userId userₐ a w) (hb : Settled context second userId userᵦ b w)
    (hafter : ¬ ReadAfter a b w.trace) (hafter' : ¬ ReadAfter b a w.trace) :
    consentsAfter (written userId w) start.consents (commits w.trace)
      = overwrite (differing first.payload.supplied start.consents)
        (overwrite (differing second.payload.supplied start.consents) start.consents) := by
  obtain ⟨before, rest, hloaded, hnot, hsuffix, hread, hwritten⟩ := ha.toAdmitted.reads hinv
  obtain ⟨before', rest', hloaded', hnot', hsuffix', hread', hwritten'⟩ := hb.toAdmitted.reads hinv
  obtain ⟨hnil, hnil', hall⟩ | ⟨hone, _⟩ | ⟨_, hone, _⟩ :=
    reads_of_two hinv.once honly hsuffix hnot hsuffix' hnot'
  · rw [hnil] at hread
    rw [hnil'] at hread'
    have hread : userₐ.consents = start.consents := hread
    have hread' : userᵦ.consents = start.consents := hread'
    rw [hread] at hwritten
    rw [hread'] at hwritten'
    have hnothing : a ∉ commits w.trace → written userId w a = (none, none) := by
      intro hmem
      obtain hcommitted | ⟨_, hnothing⟩ := ha.settled
      · exact absurd hcommitted hmem
      · rw [hwritten, ← hread, hnothing]
    have hnothing' : b ∉ commits w.trace → written userId w b = (none, none) := by
      intro hmem
      obtain hcommitted | ⟨_, hnothing⟩ := hb.settled
      · exact absurd hcommitted hmem
      · rw [hwritten', ← hread', hnothing]
    rw [← hwritten, ← hwritten']
    obtain hall | hall | hall | hall | hall := hall
    · rw [hnothing (hall ▸ List.not_mem_nil), hnothing' (hall ▸ List.not_mem_nil), hall]
      rfl
    · rw [hnothing' (hall ▸ by simpa using hne.symm), hall]
      rfl
    · rw [hnothing (hall ▸ by simpa using hne), hall]
      rfl
    · rw [hall]
      rfl
    · rw [hall, hwritten, hwritten', overwrite_twice_comm, ← hwritten, ← hwritten']
      rfl
  · exact absurd ⟨before, _, hloaded, hone ▸ List.mem_cons_self⟩ hafter
  · exact absurd ⟨before', _, hloaded', hone ▸ List.mem_cons_self⟩ hafter'

end TwoRequests

abbrev ConsentConfig := Config database ConsentRequest Exn MarketingConsentsResponse

variable (context) in
/-- Two requests of one user have succeeded, and no other client has run a statement. -/
structure BothSucceeded (c₀ c : ConsentConfig) (userId : Nat) (start : User) (a b : Txn)
    (first second : ConsentRequest) : Prop where
  initial : c₀.Initial
  reachable : Transition.Reachable (consentSystem context).step (· = c₀) Transition.anyStep c
  stored : (c₀.world.slot userTable userId).committed = some start
  distinct : a ≠ b
  first : c.world.request a = some first ∧ OfUser context userId first
    ∧ ∃ response, c.outcome a = some (.ok response)
  second : c.world.request b = some second ∧ OfUser context userId second
    ∧ ∃ response, c.outcome b = some (.ok response)
  only : ∀ e ∈ c.world.trace, e.txn = a ∨ e.txn = b

variable {c₀ c : ConsentConfig} {a b : Txn} {first second : ConsentRequest}

/-- The stored consents are those that the two requests leave one after the other. -/
def Serial (context : Context) (c₀ c : ConsentConfig) (userId : Nat)
    (first second : ConsentRequest) : Prop :=
  ∃ final, (c.world.slot userTable userId).committed.map User.consents = some final
    ∧ (RunsInOrder context userId first second c₀.world final
      ∨ RunsInOrder context userId second first c₀.world final)

theorem BothSucceeded.holds (h : BothSucceeded context c₀ c userId start a b first second) :
    Discipline.Holds (consentsFollow userId start) (Consented context) c := by
  have hmeets : Transition.Reachable (consentSystem context).step (· = c₀)
      (fun c l => c.Meets (consentsFollow userId start).allowed l) c :=
    h.reachable.mono fun _ _ _ => Config.meets_of_forall fun _ _ _ => trivial
  apply consentSystem_verified.holds ?_ hmeets
  rintro _ rfl
  refine ⟨h.initial, ?_⟩
  have huntraced := h.initial.1.untraced
  constructor
  · rw [huntraced]
    exact ⟨start, h.stored, rfl, rfl⟩
  · intro t version hheld
    rw [h.initial.1.unlocked] at hheld
    cases hheld
  · intro t earlier rows user hloaded
    rw [huntraced] at hloaded
    cases hloaded
  · intro t earlier rows hloaded
    rw [huntraced] at hloaded
    cases hloaded
  · rw [huntraced]
    exact fun t ht => absurd ht List.not_mem_nil
  · rw [huntraced]
    exact List.nodup_nil

theorem BothSucceeded.committed (h : BothSucceeded context c₀ c userId start a b first second) :
    ∀ t ∈ commits c.world.trace, t = a ∨ t = b := by
  intro t ht
  obtain ⟨e, he, rfl, _⟩ := mem_commits.mp ht
  exact h.only e he

theorem settled_of_outcome (h : Discipline.Holds (consentsFollow userId start) (Consented context) c)
    (hreq : c.world.request t = some request) (hown : OfUser context userId request)
    (hended : ∃ response, c.outcome t = some (.ok response)) :
    ∃ user, Settled context request userId user t c.world := by
  obtain ⟨response, houtcome⟩ := hended
  obtain ⟨request', hreq', id, user, hsettled⟩ := h.outcome (Config.client_of_outcome houtcome)
  obtain rfl : request = request' := Option.some.inj (hreq.symm.trans hreq')
  obtain ⟨token, now, claims, hcredentials, hdecode, rfl⟩ := hsettled.genuine
  rw [← hown token now claims hcredentials hdecode]
  exact ⟨user, hsettled⟩

theorem BothSucceeded.swap (h : BothSucceeded context c₀ c userId start a b first second) :
    BothSucceeded context c₀ c userId start b a second first :=
  ⟨h.initial, h.reachable, h.stored, h.distinct.symm, h.second, h.first,
    fun e he => (h.only e he).symm⟩

theorem Settled.valid {user : User} (h : Settled context request id user t w) :
    ∃ token now claims, request.credentials = some token
      ∧ context.crypto.decode token now = some claims := by
  obtain ⟨token, now, claims, hcredentials, hdecode, _⟩ := h.genuine
  exact ⟨token, now, claims, hcredentials, hdecode⟩

/-- What the two requests leave that run one after the other. -/
theorem BothSucceeded.runsInOrder_iff
    (h : BothSucceeded context c₀ c userId start a b first second) {final : Consents} :
    RunsInOrder context userId first second c₀.world final
      ↔ final = overwrite second.payload.supplied
        (overwrite first.payload.supplied start.consents) := by
  have hholds := h.holds
  obtain ⟨userₐ, ha⟩ := settled_of_outcome hholds h.first.1 h.first.2.1 h.first.2.2
  obtain ⟨userᵦ, hb⟩ := settled_of_outcome hholds h.second.1 h.second.2.1 h.second.2.2
  have hresting : Resting userId start c₀.world := by
    refine ⟨⟨h.initial.1.beyond, ?_⟩, ?_⟩
    · rw [h.initial.1.undrawn]
      exact List.nodup_nil
    · have hslot : ∀ slot : Slot User, slot.committed = some start → slot.held = none →
          slot = ⟨some start, none⟩ := by
        rintro ⟨_, _⟩ rfl rfl
        rfl
      exact hslot _ h.stored (h.initial.1.unlocked userTable userId)
  have hverified : start.emailVerifiedAt ≠ none := by
    obtain ⟨earlier, rest, hloaded⟩ := ha.loaded
    rw [← (hholds.inv.reads a _ _ userₐ hloaded List.mem_cons_self).1]
    exact ha.verified
  exact EventsApi.runsInOrder_iff hresting hverified h.first.2.1 h.second.2.1 ha.valid hb.valid

/-- **Consents are serial unless they cross.** Two requests of one user that both succeed, in
whatever order their statements run, leave what they leave one after the other, exactly when one of
them reads the user after the other one has committed, or they do not ask for a change on one
channel each where the other one asks for the value that is there. -/
theorem consents_serial_iff (h : BothSucceeded context c₀ c userId start a b first second) :
    Serial context c₀ c userId first second
      ↔ ReadAfter a b c.world.trace ∨ ReadAfter b a c.world.trace
        ∨ ¬ Crossed start.consents first.payload.supplied second.payload.supplied := by
  have hholds := h.holds
  obtain ⟨userₐ, ha⟩ := settled_of_outcome hholds h.first.1 h.first.2.1 h.first.2.2
  obtain ⟨userᵦ, hb⟩ := settled_of_outcome hholds h.second.1 h.second.2.1 h.second.2.2
  have hserial : Serial context c₀ c userId first second
      ↔ consentsAfter (written userId c.world) start.consents (commits c.world.trace)
          = overwrite second.payload.supplied (overwrite first.payload.supplied start.consents)
        ∨ consentsAfter (written userId c.world) start.consents (commits c.world.trace)
          = overwrite first.payload.supplied (overwrite second.payload.supplied start.consents) := by
    obtain ⟨user, huser, _, hconsents⟩ := hholds.inv.stored
    rw [Serial, huser, ← h.runsInOrder_iff, ← h.swap.runsInOrder_iff, ← hconsents]
    constructor
    · rintro ⟨final, hfinal, hruns⟩
      cases hfinal
      exact hruns
    · exact fun hruns => ⟨user.consents, rfl, hruns⟩
  rw [hserial]
  by_cases hafter : ReadAfter a b c.world.trace
  · exact iff_of_true (.inr (hholds.inv.final_of_readAfter h.committed ha hb hafter)) (.inl hafter)
  by_cases hafter' : ReadAfter b a c.world.trace
  · exact iff_of_true (.inl (hholds.inv.final_of_readAfter h.swap.committed hb ha hafter'))
      (.inr (.inl hafter'))
  rw [hholds.inv.final_of_together h.distinct h.committed ha hb hafter hafter',
    overwrite_twice_serial_iff]
  simp [hafter, hafter']

/-! ### Ona's consents -/

/-- Email, but no push notifications. -/
def onlyEmail : ConsentRequest := ⟨some "access", ⟨some true, some false, by decide⟩⟩

/-- Push notifications, but no email. -/
def onlyPush : ConsentRequest := ⟨some "access", ⟨some false, some true, by decide⟩⟩

/-- Push notifications too. -/
def alsoPush : ConsentRequest := ⟨some "access", ⟨none, some true, by decide⟩⟩

/-- Both requests load Ona's row, and then each of them runs to its end. -/
def overlapping (first second : ConsentRequest) : List (Label ConsentRequest) :=
  [.spawn 0 first, .exec 0 {}, .exec 0 {}, .exec 0 { order := [0] },
    .spawn 1 second, .exec 1 {}, .exec 1 {}, .exec 1 { order := [0] },
    .exec 0 {}, .exec 0 { order := [0] }, .exec 0 {}, .exec 0 {}, .exec 0 { order := [0] }, .close 0,
    .exec 1 {}, .exec 1 { order := [0] }, .exec 1 {}, .exec 1 {}, .exec 1 { order := [0] }, .close 1]

theorem plainContext_ofUser (request : ConsentRequest) : OfUser plainContext 0 request := by
  intro token now claims _ hdecode
  simp only [plainContext] at hdecode
  split at hdecode
  · cases hdecode
    rfl
  · cases hdecode

/-- The facts about a run of Ona's two requests that can be computed. -/
def Finished (c : ConsentConfig) (first second : ConsentRequest) (final : Consents) : Prop :=
  c.world.request 0 = some first ∧ c.world.request 1 = some second
    ∧ (c.outcome 0).any (fun r => r.isOk) = true ∧ (c.outcome 1).any (fun r => r.isOk) = true
    ∧ (∀ e ∈ c.world.trace, e.txn = 0 ∨ e.txn = 1)
    ∧ (c.world.slot userTable 0).committed.map User.consents = some final

instance (c : ConsentConfig) (first second : ConsentRequest) (final : Consents) :
    Decidable (Finished c first second final) :=
  inferInstanceAs (Decidable (_ ∧ _ ∧ _ ∧ _ ∧ _ ∧ _))

theorem Finished.bothSucceeded {first second : ConsentRequest} {final : Consents}
    {labels : List (Label ConsentRequest)} (h : Finished c first second final)
    (hrun : Transition.run (consentSystem plainContext).step (smallService _ _ _) labels = some c) :
    BothSucceeded plainContext (smallService _ _ _) c 0 confirmedUser 0 1 first second := by
  have hended : ∀ t, (c.outcome t).any (fun r => r.isOk) = true →
      ∃ response, c.outcome t = some (.ok response) := by
    intro t hok
    obtain ⟨r, hr, hok⟩ := (Option.any_eq_true _ _).mp hok
    cases r with
    | ok response => exact ⟨response, hr⟩
    | error => cases hok
  refine ⟨smallService_initial _ _ _, ?_, rfl, by decide,
    ⟨h.1, plainContext_ofUser first, hended 0 h.2.2.1⟩,
    ⟨h.2.1, plainContext_ofUser second, hended 1 h.2.2.2.1⟩, h.2.2.2.2.1⟩
  apply Transition.reachable_of_run _ _ _ hrun
  · rfl
  · exact fun _ _ _ _ _ _ _ => trivial

theorem consents_serial_iff_overlapping :
    ∃ c, Transition.run (consentSystem plainContext).step (smallService _ _ _)
        (overlapping onlyEmail alsoPush) = some c
      ∧ Serial plainContext (smallService _ _ _) c 0 onlyEmail alsoPush := by
  have hrun : (Transition.run (consentSystem plainContext).step
      (smallService ConsentRequest Exn MarketingConsentsResponse)
      (overlapping onlyEmail alsoPush)).any fun c =>
        decide (Finished c onlyEmail alsoPush (true, true)) := by decide
  obtain ⟨c, hc, hfinished⟩ := (Option.any_eq_true _ _).mp hrun
  have hboth := (of_decide_eq_true hfinished).bothSucceeded hc
  exact ⟨c, hc, (consents_serial_iff hboth).mpr (.inr (.inr (by decide)))⟩

/-- Ona ends up with both, which neither order of the two requests gives. -/
theorem crossedRequests_not_serial :
    ∃ c, Transition.run (consentSystem plainContext).step (smallService _ _ _)
        (overlapping onlyEmail onlyPush) = some c
      ∧ ¬ Serial plainContext (smallService _ _ _) c 0 onlyEmail onlyPush := by
  have hrun : (Transition.run (consentSystem plainContext).step
      (smallService ConsentRequest Exn MarketingConsentsResponse)
      (overlapping onlyEmail onlyPush)).any fun c =>
        decide (Finished c onlyEmail onlyPush (true, true)) := by decide
  obtain ⟨c, hc, hfinished⟩ := (Option.any_eq_true _ _).mp hrun
  have hfinished := of_decide_eq_true hfinished
  have hboth := hfinished.bothSucceeded hc
  refine ⟨c, hc, ?_⟩
  rintro ⟨final, hfinal, hruns⟩
  obtain rfl : final = (true, true) :=
    Option.some.inj (hfinal.symm.trans hfinished.2.2.2.2.2)
  rw [hboth.runsInOrder_iff, hboth.swap.runsInOrder_iff] at hruns
  exact absurd hruns (by decide)

end EventsApi
