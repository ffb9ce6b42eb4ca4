import EventsApi.Auth.Registration
import EventsApi.Library.ReadCommitted.Atomic
import EventsApi.Proof.TokenSteps

/-!
# Registration is all or nothing

A registration inserts a user, a token of that user and a job of that token, and commits last of all.
It locks no row that it has not inserted, so rows that are committed stay as they are, and the unique
constraints leave one user for an address.
-/

namespace EventsApi

open ReadCommitted

variable {context : Context} {legalPages : List LegalPage}

/-! ### The shape of the program -/

theorem insertRow_uncommitting (T : Table) (row : Nat → T.Row) :
    (insertRow T row).All Uncommitting := by
  refine ⟨nofun, fun answer => ?_⟩
  cases answer <;> trivial

theorem insertRow_refusedWith (T : Table) (row : Nat → T.Row) :
    (insertRow T row).Each (RefusedWith .integrityError) := by
  refine ⟨rfl, fun answer => ?_⟩
  cases answer <;> trivial

theorem deleteForUser_all {P : ∀ β : Type, Op database β → Prop} (kind : TokenKind) (userId : Nat)
    (hselect : ∀ (T : Table) (p : Nat → T.Row → Bool), P _ (.select (S := database) T p))
    (hlock : ∀ (T : Table) (id : Nat) (p : T.Row → Bool) (f : T.Row → Option T.Row),
      P _ (.lock (S := database) T id p f)) : (UserTokens.deleteForUser kind userId).All P := by
  apply (Prog.All.statement (hselect _ _) fun _ => hlock _ _ _ _).bind
  intro deleted
  induction deleted.map (·.1) with
  | nil => trivial
  | cons tokenId tokenIds ih =>
      exact (Prog.All.statement (hselect _ _) fun _ => hlock _ _ _ _).bind fun _ => ih

theorem enqueueJob_cases (message : EmailMessage) (now : Int)
    (confirmationTokenId passwordResetTokenId : Option Nat) :
    EmailOutbox.enqueueJob message now confirmationTokenId passwordResetTokenId = .raise .valueError
      ∨ ∃ row, EmailOutbox.enqueueJob message now confirmationTokenId passwordResetTokenId
        = insertRow .emailOutboxJobs row := by
  unfold EmailOutbox.enqueueJob
  split
  · exact .inl rfl
  · exact .inr ⟨_, rfl⟩

section Shape

variable (payload : RegisterRequest) (termsVersion rawToken : String) (now startedAt : Int)

theorem replace_uncommitting (kind : TokenKind) (userId : Nat) (tokenHash : String)
    (expiresAt : Int) :
    (UserTokens.replace kind userId tokenHash expiresAt startedAt).All Uncommitting :=
  (deleteForUser_all kind userId (fun _ _ => nofun) fun _ _ _ _ => nofun).bind fun _ =>
    insertRow_uncommitting _ _

theorem replace_refusedWith (kind : TokenKind) (userId : Nat) (tokenHash : String)
    (expiresAt : Int) : (UserTokens.replace kind userId tokenHash expiresAt startedAt).Each
      (RefusedWith .integrityError) :=
  (Prog.Each.of_uninserting (deleteForUser_all kind userId (fun _ _ => trivial)
    fun _ _ _ _ => trivial)).bind_refusedWith fun _ => insertRow_refusedWith _ _

theorem enqueueJob_uncommitting (message : EmailMessage)
    (confirmationTokenId passwordResetTokenId : Option Nat) :
    (EmailOutbox.enqueueJob message now confirmationTokenId passwordResetTokenId).All
      Uncommitting := by
  obtain h | ⟨row, h⟩ := enqueueJob_cases message now confirmationTokenId passwordResetTokenId
  · rw [h]
    trivial
  · rw [h]
    exact insertRow_uncommitting _ _

theorem enqueueJob_refusedWith (message : EmailMessage)
    (confirmationTokenId passwordResetTokenId : Option Nat) :
    (EmailOutbox.enqueueJob message now confirmationTokenId passwordResetTokenId).Each
      (RefusedWith .integrityError) := by
  obtain h | ⟨row, h⟩ := enqueueJob_cases message now confirmationTokenId passwordResetTokenId
  · rw [h]
    trivial
  · rw [h]
    exact insertRow_refusedWith _ _

theorem createAccount_commitsLast :
    (createAccount context payload termsVersion rawToken now startedAt).CommitsLast := by
  refine Prog.CommitsLast.bind ⟨nofun, fun _ => trivial⟩ fun salt => ?_
  refine Prog.CommitsLast.bind (Prog.All.ofExcept _) fun passwordHash => ?_
  refine Prog.CommitsLast.bind ((insertRow_uncommitting _ _).bind fun _ => trivial) fun created => ?_
  refine Prog.CommitsLast.bind (replace_uncommitting _ _ _ _ _) fun tokenId => ?_
  refine Prog.CommitsLast.bind (enqueueJob_uncommitting _ _ _ _) fun _ => ?_
  exact ⟨fun _ _ => ⟨(), rfl⟩, fun _ => trivial⟩

theorem createAccount_refusedWith :
    (createAccount context payload termsVersion rawToken now startedAt).Each
      (RefusedWith .integrityError) := by
  have hofExcept : ∀ r : Except Exn String,
      (Prog.ofExcept r : Db String).Each (RefusedWith .integrityError) := by
    intro r
    cases r <;> trivial
  refine Prog.Each.bind_refusedWith ⟨trivial, fun _ => trivial⟩ fun salt => ?_
  refine Prog.Each.bind_refusedWith (hofExcept _) fun passwordHash => ?_
  refine Prog.Each.bind_refusedWith ?_ fun created => ?_
  · exact (insertRow_refusedWith _ _).bind_refusedWith fun _ => trivial
  refine Prog.Each.bind_refusedWith (replace_refusedWith _ _ _ _ _) fun tokenId => ?_
  refine Prog.Each.bind_refusedWith (enqueueJob_refusedWith _ _ _ _) fun _ => ?_
  exact ⟨trivial, fun _ => trivial⟩

theorem getByEmail_all {P : ∀ β : Type, Op database β → Prop} (email : String)
    (hselect : ∀ (T : Table) (p : Nat → T.Row → Bool), P _ (.select (S := database) T p)) :
    (Users.getByEmail email).All P :=
  Prog.All.scalar (hselect _ _)

theorem register_commitsLast : (register context legalPages payload).CommitsLast := by
  refine Prog.CommitsLast.bind ⟨nofun, fun _ => trivial⟩ fun startedAt => ?_
  refine Prog.CommitsLast.bind (getByEmail_all _ fun _ _ => nofun) fun found => ?_
  split
  · trivial
  · split
    · trivial
    · refine Prog.CommitsLast.bind ⟨nofun, fun _ => trivial⟩ fun rawToken => ?_
      refine Prog.CommitsLast.bind ⟨nofun, fun _ => trivial⟩ fun now => ?_
      exact (createAccount_commitsLast _ _ _ _ _).mapError.bind_pure

theorem register_refusedWith :
    (register context legalPages payload).Each (RefusedWith duplicateEmail) := by
  refine Prog.Each.bind_refusedWith ⟨trivial, fun _ => trivial⟩ fun startedAt => ?_
  refine Prog.Each.bind_refusedWith (.of_uninserting (getByEmail_all _ fun _ _ => trivial))
    fun found => ?_
  split
  · trivial
  · split
    · trivial
    · rename_i termsVersion _
      refine Prog.Each.bind_refusedWith ⟨trivial, fun _ => trivial⟩ fun rawToken => ?_
      refine Prog.Each.bind_refusedWith ⟨trivial, fun _ => trivial⟩ fun now => ?_
      have hcreate : ((createAccount context payload termsVersion rawToken now startedAt).mapError
          duplicateOnIntegrityError).Each (RefusedWith duplicateEmail) :=
        (createAccount_refusedWith _ _ _ _ _).mapError_refusedWith (f := duplicateOnIntegrityError)
      exact hcreate.bind_refusedWith fun _ => trivial

end Shape

/-- The operation inserts no user but one with the address of the request. -/
def InsertsAddress (request : RegisterRequest) (β : Type) (op : Op database β) : Prop :=
  op.Within Table.users (fun _ _ => True) fun user : User => user.email = request.email

theorem insertsAddress_lock {request : RegisterRequest} (T : Table) (id : Nat) (p : T.Row → Bool)
    (f : T.Row → Option T.Row) : InsertsAddress request _ (.lock (S := database) T id p f) :=
  fun _ _ => ⟨fun _ => trivial, fun _ => trivial⟩

theorem insertsAddress_insertRow {request : RegisterRequest} {T : Table} {row : Nat → T.Row}
    (h : InsertsAddress request _ (.insert (S := database) T row)) :
    (insertRow T row).All (InsertsAddress request) := by
  refine ⟨h, fun answer => ?_⟩
  cases answer <;> trivial

theorem register_insertsAddress (request : RegisterRequest) :
    (register context legalPages request).All (InsertsAddress request) := by
  refine .perform_bind trivial fun startedAt => ?_
  apply (Prog.All.scalar trivial).bind
  intro found
  split
  · trivial
  · split
    · trivial
    · refine .perform_bind trivial fun rawToken => .perform_bind trivial fun now => ?_
      refine Prog.All.bind (Prog.All.mapError ?_) fun _ => trivial
      refine .perform_bind trivial fun salt => (Prog.All.ofExcept _).bind fun passwordHash => ?_
      refine Prog.All.bind (Prog.All.bind ?_ fun _ => trivial) fun created => ?_
      · exact insertsAddress_insertRow (T := .users) fun _ _ => rfl
      refine Prog.All.bind ?_ fun tokenId => Prog.All.bind ?_ fun _ => ⟨trivial, fun _ => trivial⟩
      · exact (deleteForUser_all _ _ (fun _ _ => trivial) insertsAddress_lock).bind fun _ =>
          insertsAddress_insertRow nofun
      · exact insertsAddress_insertRow nofun

/-! ### The invariant -/

abbrev RegisterWorld := World database RegisterRequest

variable {t u : Txn} {w w' : RegisterWorld} {request : RegisterRequest}

/-- Only new rows are locked, the unique constraints hold, and a token has a user that is there as
soon as the token is. -/
structure Registrations (w : RegisterWorld) : Prop where
  fresh : ∀ T id, (w.slot T id).held ≠ none → (w.slot T id).committed = none
  users : Unique userTable w
  tokens : Unique confirmationTable w
  jobs : Unique jobTable w
  owned : ∀ id (token : UserToken), (w.slot confirmationTable id).committed = some token →
    (w.slot userTable token.userId).committed ≠ none
  pending : ∀ id t (token : UserToken), (w.slot confirmationTable id).held = some (t, some token) →
    (w.slot userTable token.userId).committed ≠ none
      ∨ ∃ user, (w.slot userTable token.userId).held = some (t, some user)

/-- What a transaction relies on: committed rows stay as they are. -/
def RowsStay (w w' : RegisterWorld) : Prop :=
  ∀ T id row, (w.slot T id).committed = some row → (w'.slot T id).committed = some row

theorem RowsStay.refl (w : RegisterWorld) : RowsStay w w := fun _ _ _ => id

theorem Registrations.congr (h : Registrations w) (hslot : w'.slot = w.slot) :
    Registrations w' where
  fresh := by rw [hslot]; exact h.fresh
  users := ⟨by rw [hslot]; exact h.users.seen, by rw [hslot]; exact h.users.pending⟩
  tokens := ⟨by rw [hslot]; exact h.tokens.seen, by rw [hslot]; exact h.tokens.pending⟩
  jobs := ⟨by rw [hslot]; exact h.jobs.seen, by rw [hslot]; exact h.jobs.pending⟩
  owned := by rw [hslot]; exact h.owned
  pending := by rw [hslot]; exact h.pending

theorem RowsStay.congr (hslot : w'.slot = w.slot) : RowsStay w w' := by
  intro T id row hrow
  rw [hslot]
  exact hrow

theorem users_clash_symm (row row' : User) :
    database.clash userTable row row' = database.clash userTable row' row := by
  change (row.email == row'.email) = (row'.email == row.email)
  exact BEq.comm

theorem jobs_clash_symm (row row' : EmailOutboxJob) :
    database.clash jobTable row row' = database.clash jobTable row' row := by
  have hlink : ∀ a b : Option Nat, (a.isSome && a == b) = (b.isSome && b == a) := by
    intro a b
    cases a <;> cases b <;> simp [eq_comm]
  change row.collides row' = row'.collides row
  unfold EmailOutboxJob.collides
  rw [hlink row.confirmationTokenId, hlink row.passwordResetTokenId, BEq.comm]

theorem Registrations.unheld (h : Registrations w) {T : database.Table} {id : Nat}
    (hrow : (w.slot T id).committed ≠ none) : (w.slot T id).held = none := by
  by_contra hheld
  exact hrow (h.fresh T id hheld)

/-- The constraints after the end of a transaction. -/
theorem Registrations.released (h : Registrations w) (t : Txn) (keep : Bool) :
    Registrations (w.finish t keep) ∧ RowsStay w (w.finish t keep) := by
  have hslot : ∀ T id, (w.finish t keep).slot T id = (w.slot T id).release t keep :=
    fun _ _ => rfl
  have hsame : ∀ T id, (w.slot T id).committed ≠ none →
      (w.finish t keep).slot T id = w.slot T id := by
    intro T id hrow
    apply Slot.release_of_not_held
    rintro ⟨version, hheld⟩
    rw [h.unheld hrow] at hheld
    cases hheld
  have hstay : RowsStay w (w.finish t keep) := by
    intro T id row hrow
    rw [hsame T id (by rw [hrow]; exact Option.some_ne_none row)]
    exact hrow
  have husers : ∀ userId, (w.slot userTable userId).committed ≠ none →
      ((w.finish t keep).slot userTable userId).committed ≠ none := by
    intro userId hrow
    rw [hsame userTable userId hrow]
    exact hrow
  refine ⟨⟨?_, h.users.release users_clash_symm fun _ => rfl,
    h.tokens.release tokens_clash_symm fun _ => rfl,
    h.jobs.release jobs_clash_symm fun _ => rfl, ?_, ?_⟩, hstay⟩
  · intro T id hheld
    obtain ⟨⟨u, version⟩, hheld⟩ := Option.ne_none_iff_exists'.mp hheld
    obtain ⟨_, heq⟩ := World.held_of_finish hheld
    rw [heq] at hheld ⊢
    exact h.fresh T id (by rw [hheld]; exact Option.some_ne_none _)
  · intro id token htoken
    by_cases hown : (w.slot confirmationTable id).HeldBy t
    · obtain ⟨version, hown⟩ := hown
      rw [hslot, Slot.release_of_held keep hown] at htoken
      cases keep with
      | false => exact husers _ (h.owned id token htoken)
      | true =>
          have hversion : version = some token := htoken
          subst hversion
          obtain huser | ⟨user, huser⟩ := h.pending id t token hown
          · exact husers _ huser
          · rw [hslot, Slot.release_of_held true huser]
            exact Option.some_ne_none user
    · rw [hslot, Slot.release_of_not_held keep hown] at htoken
      exact husers _ (h.owned id token htoken)
  · intro id u token hheld
    obtain ⟨hne, heq⟩ := World.held_of_finish hheld
    rw [heq] at hheld
    obtain huser | ⟨user, huser⟩ := h.pending id u token hheld
    · exact .inl (husers _ huser)
    · refine .inr ⟨user, ?_⟩
      rw [hslot, Slot.release_of_not_held keep]
      · exact huser
      · rintro ⟨version, hown⟩
        rw [huser] at hown
        cases hown
        exact hne rfl

/-- The transaction holds the user of the token. -/
def HasOwner (t : Txn) (w : RegisterWorld) (token : UserToken) : Prop :=
  ∃ user, (w.slot userTable token.userId).held = some (t, some user)

section Insert

variable {T : Table} {row : Nat → T.Row} {choice : Choice} {answer : Option Nat}

theorem insert_held (hsound : w.Sound)
    (hexec : (Op.insert (S := database) T row).exec t choice w = some (answer, w'))
    {T' : database.Table} {id : Nat} {version : Option (database.Row T')}
    (hheld : (w.slot T' id).held = some (u, version)) :
    (w'.slot T' id).held = some (u, version) := by
  obtain ⟨_, ⟨_, _, rfl⟩ | ⟨_, _, rfl⟩⟩ := exec_insert hexec
  · exact hheld
  · have hne : ¬ (T' = T ∧ id = w.next T) := by
      rintro ⟨rfl, rfl⟩
      rw [hsound.beyond _ _ le_rfl] at hheld
      cases hheld
    exact (congrArg Slot.held (World.write_slot_of_ne _ hne)).trans hheld

/-- A new row. A token needs a user of the same transaction. -/
theorem Registrations.insert (h : Registrations w) (hsound : w.Sound)
    (howner : (Op.insert (S := database) T row).Within confirmationTable (fun _ _ => False)
      (HasOwner t w))
    (hexec : (Op.insert (S := database) T row).exec t choice w = some (answer, w')) :
    Registrations w' ∧ RowsStay w w' := by
  have hcommitted := Op.exec_committed (by rintro ⟨⟩) hexec
  have hwithin : ∀ T', (Op.insert (S := database) T row).Within T' (KeepsClashes T')
      fun _ => True := fun _ _ _ => trivial
  have hstep : ∀ T', TableStep t T' (KeepsClashes T') (fun _ => True) w w' :=
    fun T' => Op.exec_tableStep (hwithin T') hexec
  have hstay : RowsStay w w' := by
    intro T' id row' hrow
    rw [hcommitted]
    exact hrow
  refine ⟨⟨?_, h.users.step users_clash_symm hsound (hstep _),
    h.tokens.step tokens_clash_symm hsound (hstep _),
    h.jobs.step jobs_clash_symm hsound (hstep _), ?_, ?_⟩, hstay⟩
  · intro T' id hheld
    obtain ⟨_, ⟨_, _, rfl⟩ | ⟨_, _, rfl⟩⟩ := exec_insert hexec
    · exact h.fresh T' id hheld
    · by_cases hnew : T' = T ∧ id = w.next T
      · obtain ⟨rfl, rfl⟩ := hnew
        rw [hcommitted, hsound.beyond _ _ le_rfl]
        rfl
      · have hsame : ((w.allocate t T (row (w.next T))).note t (.inserted T (w.next T))).slot T' id
            = w.slot T' id := World.write_slot_of_ne _ hnew
        rw [hsame] at hheld ⊢
        exact h.fresh T' id hheld
  · intro id token htoken
    rw [hcommitted] at htoken ⊢
    exact h.owned id token htoken
  · intro id u token hheld
    rw [hcommitted]
    obtain ⟨hheld, _⟩ | ⟨rfl, _, ⟨_, _, hfalse⟩ | ⟨new, _, heq, ⟨user, huser⟩, _⟩⟩ :=
      (Op.exec_tableStep howner hexec).held hheld
    · obtain huser | ⟨user, huser⟩ := h.pending id u token hheld
      · exact .inl huser
      · exact .inr ⟨user, insert_held hsound hexec huser⟩
    · exact hfalse.elim
    · cases heq
      exact .inr ⟨user, insert_held hsound hexec huser⟩

end Insert

def registrations : Discipline database RegisterRequest where
  inv := Registrations
  rely _ := RowsStay
  allowed _ _ _ := True
  rely_refl _ := .refl
  rely_trans h h' T id row hrow := h' T id row (h T id row hrow)
  quiet hquiet h := ⟨h.congr hquiet.slot, fun _ => .congr hquiet.slot⟩
  rollback t _ _ h := ⟨(h.released t false).1, fun _ _ => (h.released t false).2⟩

theorem Registrations.keeps_congr (h : Registrations w) (hslot : w'.slot = w.slot) :
    registrations.Keeps t w w' :=
  ⟨h.congr hslot, fun _ _ => .congr hslot⟩

/-! ### Assertions -/

/-- A row of some table, under its primary key. -/
abbrev NewRow := (T : Table) × Nat × T.Row

/-- The transaction has inserted just these rows. -/
def Inserts (rows : List NewRow) (t : Txn) (w : RegisterWorld) : Prop :=
  ∀ T id, (∃ e ∈ w.trace, e.txn = t ∧ e.event = .inserted T id) ↔ ∃ row, ⟨T, id, row⟩ ∈ rows

/-- It holds them, and nothing else. -/
structure Holding (request : RegisterRequest) (rows : List NewRow) (t : Txn) (w : RegisterWorld) :
    Prop where
  asked : w.request t = some request
  uncommitted : ¬ w.HasCommitted t
  inserts : Inserts rows t w
  held : ∀ new ∈ rows, (w.slot new.1 new.2.1).held = some (t, some new.2.2)
  only : ∀ T id, (w.slot T id).HeldBy t → ∃ row, ⟨T, id, row⟩ ∈ rows

/-- It has committed them. -/
structure Stored (request : RegisterRequest) (rows : List NewRow) (t : Txn) (w : RegisterWorld) :
    Prop where
  asked : w.request t = some request
  inserts : Inserts rows t w
  committed : ∀ new ∈ rows, (w.slot new.1 new.2.1).committed = some new.2.2

section Stable

variable {rows : List NewRow}

theorem Inserts.others (h : Inserts rows t w) (hw : Others t w w') : Inserts rows t w' := by
  intro T id
  rw [← h T id]
  constructor
  · rintro ⟨e, he, hown, hevent⟩
    exact ⟨e, hw.mem_trace_of_own he hown, hown, hevent⟩
  · rintro ⟨e, he, hown, hevent⟩
    exact ⟨e, hw.trace_subset e he, hown, hevent⟩

theorem Inserts.note (h : Inserts rows t w) {event : ReadCommitted.Event database}
    (hevent : ∀ T id, event ≠ .inserted T id) : Inserts rows t (w.note t event) := by
  intro T id
  rw [← h T id]
  constructor
  · rintro ⟨e, he, hown, hinserted⟩
    exact ⟨e, World.inserted_of_note hevent e he T id hinserted, hown, hinserted⟩
  · rintro ⟨e, he, hown, hinserted⟩
    exact ⟨e, List.mem_cons_of_mem _ he, hown, hinserted⟩

theorem Holding.stable : registrations.Stable t (Holding request rows t) := fun h hw =>
  ⟨hw.others.request t request h.asked,
    fun hdone => h.uncommitted (hw.others.hasCommitted_self hdone), h.inserts.others hw.others,
    fun new hnew => by rw [hw.others.mine _ _ _ (h.held new hnew), h.held new hnew],
    fun T id ⟨version, hheld⟩ => h.only T id ⟨version, hw.others.held_before hheld⟩⟩

theorem Stored.stable : registrations.Stable t (Stored request rows t) := fun h hw =>
  ⟨hw.others.request t request h.asked, h.inserts.others hw.others,
    fun new hnew => hw.rely _ _ _ (h.committed new hnew)⟩

end Stable

/-! ### Operations -/

section Exec

variable {rows : List NewRow} {choice : Choice}

theorem Holding.now {clock : Int} (h : Holding request rows t w) (hinv : Registrations w)
    (hexec : Op.now.exec t choice w = some (clock, w')) :
    registrations.Keeps t w w' ∧ Holding request rows t w' := by
  obtain ⟨_, rfl⟩ := exec_now hexec
  exact ⟨hinv.keeps_congr rfl, h⟩

theorem Holding.draw {token : String} (h : Holding request rows t w) (hinv : Registrations w)
    (hexec : Op.draw.exec t choice w = some (token, w')) :
    registrations.Keeps t w w' ∧ Holding request rows t w' := by
  obtain ⟨_, rfl⟩ := exec_draw hexec
  exact ⟨hinv.keeps_congr rfl, h.asked, h.uncommitted, h.inserts, h.held, h.only⟩

theorem Holding.select {T : Table} {p : Nat → T.Row → Bool} {found : List (Nat × T.Row)}
    (h : Holding request rows t w) (hinv : Registrations w)
    (hexec : (Op.select (S := database) T p).exec t choice w = some (found, w')) :
    registrations.Keeps t w w' ∧ Holding request rows t w' := by
  have huncommitted := Op.exec_uncommitted (by rintro ⟨⟩) hexec h.uncommitted
  obtain ⟨rfl, _⟩ := exec_select hexec
  exact ⟨hinv.keeps_congr rfl, h.asked, huncommitted, h.inserts.note (by rintro _ _ ⟨⟩), h.held,
    h.only⟩

theorem Holding.insert {T : Table} {row : Nat → T.Row} {answer : Option Nat}
    (h : Holding request rows t w) (hsound : w.Sound) (hinv : Registrations w)
    (howner : (Op.insert (S := database) T row).Within confirmationTable (fun _ _ => False)
      (HasOwner t w))
    (hexec : (Op.insert (S := database) T row).exec t choice w = some (answer, w')) :
    registrations.Keeps t w w'
      ∧ ∀ id, answer = some id → Holding request (⟨T, id, row id⟩ :: rows) t w' := by
  obtain ⟨hinv', hstay⟩ := hinv.insert hsound howner hexec
  refine ⟨⟨hinv', fun _ _ => hstay⟩, ?_⟩
  rintro id rfl
  have huncommitted := Op.exec_uncommitted (by rintro ⟨⟩) hexec h.uncommitted
  have hkept := fun new hnew => insert_held hsound hexec (h.held new hnew)
  obtain ⟨_, ⟨_, hnone, _⟩ | ⟨_, hid, rfl⟩⟩ := exec_insert hexec
  · cases hnone
  · cases hid
    have hslot : ∀ T' id', ¬ (T' = T ∧ id' = w.next T) →
        ((w.allocate t T (row (w.next T))).note t (.inserted T (w.next T))).slot T' id'
          = w.slot T' id' := by
      intro T' id' hne
      exact World.write_slot_of_ne (w := w) (t := t) _ hne
    refine ⟨h.asked, huncommitted, ?_, ?_, ?_⟩
    · intro T' id'
      constructor
      · rintro ⟨e, he, hown, hinserted⟩
        obtain rfl | he := List.mem_cons.mp he
        · cases hinserted
          exact ⟨_, List.mem_cons_self⟩
        · obtain ⟨row', hrow'⟩ := (h.inserts T' id').mp ⟨e, he, hown, hinserted⟩
          exact ⟨row', List.mem_cons_of_mem _ hrow'⟩
      · rintro ⟨row', hrow'⟩
        obtain heq | hrow' := List.mem_cons.mp hrow'
        · cases heq
          exact ⟨_, List.mem_cons_self, rfl, rfl⟩
        · obtain ⟨e, he, hown, hinserted⟩ := (h.inserts T' id').mpr ⟨row', hrow'⟩
          exact ⟨e, List.mem_cons_of_mem _ he, hown, hinserted⟩
    · intro new hnew
      obtain rfl | hnew := List.mem_cons.mp hnew
      · exact congrArg Slot.held (World.write_slot_self _)
      · exact hkept new hnew
    · intro T' id' hheld
      by_cases hnew : T' = T ∧ id' = w.next T
      · obtain ⟨rfl, rfl⟩ := hnew
        exact ⟨_, List.mem_cons_self⟩
      · rw [hslot T' id' hnew] at hheld
        obtain ⟨row', hrow'⟩ := h.only T' id' hheld
        exact ⟨row', List.mem_cons_of_mem _ hrow'⟩

theorem Holding.commit {answer : Unit} (h : Holding request rows t w) (hinv : Registrations w)
    (hexec : Op.commit.exec t choice w = some (answer, w')) :
    registrations.Keeps t w w' ∧ Stored request rows t w' := by
  obtain rfl := exec_commit hexec
  obtain ⟨hinv', hstay⟩ := hinv.released t true
  refine ⟨⟨hinv'.congr rfl, fun _ _ => hstay⟩, h.asked, ?_, fun new hnew => ?_⟩
  · have hfinish : Inserts rows t (w.finish t true) := h.inserts
    exact hfinish.note (by rintro _ _ ⟨⟩)
  · exact congrArg Slot.committed (Slot.release_of_held true (h.held new hnew))

/-- A new user has no tokens. -/
theorem Holding.no_tokens {p : Nat → UserToken → Bool} {found : List (Nat × UserToken)}
    {userId : Nat} {user : User} (hp : ∀ id token, p id token = true → token.userId = userId)
    (h : Holding request [⟨.users, userId, user⟩] t w) (hinv : Registrations w)
    (hexec : (Op.select (S := database) confirmationTable p).exec t choice w = some (found, w')) :
    found = [] := by
  obtain ⟨_, _, hfound⟩ := exec_select hexec
  apply List.eq_nil_iff_forall_not_mem.mpr
  rintro ⟨id, token⟩ hmem
  obtain ⟨_, hview, hmatch⟩ := (hfound id token).mp hmem
  have hfree : ¬ (w.slot confirmationTable id).HeldBy t := by
    intro hheld
    obtain ⟨row, hrow⟩ := h.only _ _ hheld
    cases List.mem_singleton.mp hrow
  rw [Slot.view_eq_committed hfree] at hview
  have howner := hinv.owned id token hview
  rw [hp id token hmatch] at howner
  have hheld := h.held _ List.mem_cons_self
  rw [hinv.unheld howner] at hheld
  cases hheld

end Exec

/-! ### The request -/

variable (context) in
/-- The rows of an account: a user with the address, a token of that user, and a job that is linked
to the token and mails what the token is the hash of. -/
def AccountRows (request : RegisterRequest) (rows : List NewRow) : Prop :=
  ∃ (userId : Nat) (user : User) (tokenId : Nat) (token : UserToken) (jobId : Nat)
    (job : EmailOutboxJob) (rawToken : String) (requestedAt : Int),
    rows = [⟨.emailOutboxJobs, jobId, job⟩, ⟨.tokens .confirmation, tokenId, token⟩,
        ⟨.users, userId, user⟩]
      ∧ user.email = request.email ∧ token.userId = userId
      ∧ token.tokenHash = context.crypto.sha256 rawToken ∧ job.confirmationTokenId = some tokenId
      ∧ job.message = confirmationEmail context user rawToken tokenId requestedAt

variable (context) in
def Registered (request : RegisterRequest) (t : Txn) : Except Exn String → RegisterWorld → Prop :=
  Discipline.OnSuccess fun _ w => ∃ rows, AccountRows context request rows ∧ Stored request rows t w

section Program

variable {α : Type} {rows : List NewRow}

theorem Holding.insertRow {Q : Except Exn α → RegisterWorld → Prop} {T : Table}
    {row : Nat → T.Row} {next : Nat → Db α}
    (howner : ∀ w, Holding request rows t w →
      (Op.insert (S := database) T row).Within confirmationTable (fun _ _ => False) (HasOwner t w))
    (hnext : ∀ id w, Holding request (⟨T, id, row id⟩ :: rows) t w →
      registrations.Safe t Q (next id) w) (hrefused : ∀ w, Q (.error .integrityError) w)
    (h : Holding request rows t w) :
    registrations.Safe t Q ((EventsApi.insertRow T row).bind next) w := by
  apply Discipline.Safe.exec Holding.stable h
    (K := fun answer w => ∀ id, answer = some id → Holding request (⟨T, id, row id⟩ :: rows) t w)
  · intro w choice answer w' h hsound hinv _ hexec
    exact h.insert hsound hinv (howner w h) hexec
  · intro answer w h
    cases answer with
    | none => exact hrefused w
    | some id => exact hnext id w (h id rfl)

/-- There is nothing to delete, so the replacement is an insertion. -/
theorem Holding.replace {Q : Except Exn α → RegisterWorld → Prop} {userId : Nat} {user : User}
    {tokenHash : String} {expiresAt startedAt : Int} {next : Nat → Db α}
    (hnext : ∀ tokenId w, Holding request [⟨.tokens .confirmation, tokenId,
      (⟨userId, tokenHash, expiresAt, startedAt⟩ : UserToken)⟩, ⟨.users, userId, user⟩] t w →
      registrations.Safe t Q (next tokenId) w) (hrefused : ∀ w, Q (.error .integrityError) w)
    (h : Holding request [⟨.users, userId, user⟩] t w) :
    registrations.Safe t Q
      ((UserTokens.replace .confirmation userId tokenHash expiresAt startedAt).bind next) w := by
  apply Discipline.Safe.exec Holding.stable h
    (K := fun found w => found = [] ∧ Holding request [⟨.users, userId, user⟩] t w)
  · intro w choice found w' h _ hinv _ hexec
    have hnone := h.no_tokens (fun _ _ => beq_iff_eq.mp) hinv hexec
    obtain ⟨hkeeps, h'⟩ := h.select hinv hexec
    exact ⟨hkeeps, hnone, h'⟩
  · rintro _ w ⟨rfl, h⟩
    apply h.insertRow ?_ hnext hrefused
    intro w h _ _
    exact ⟨user, h.held _ List.mem_cons_self⟩

theorem Holding.create {email passwordHash firstName lastName preferredLocale termsVersion : String}
    {marketingEmailConsent marketingPushConsent : Bool} {now startedAt : Int}
    (h : Holding request [] t w) :
    registrations.Safe t
      (Discipline.OnSuccess fun (created : Nat × User) w => created.2.email = email
        ∧ Holding request [⟨.users, created.1, created.2⟩] t w)
      (Users.create email passwordHash firstName lastName preferredLocale now termsVersion
        marketingEmailConsent now marketingPushConsent now startedAt) w := by
  apply h.insertRow
  · rintro w _ ⟨⟩
  · exact fun userId w h => ⟨rfl, h⟩
  · exact fun _ => trivial

/-- The account is made in one piece. -/
theorem Holding.createAccount {termsVersion rawToken : String} {now startedAt : Int}
    (h : Holding request [] t w) :
    registrations.Safe t
      (Discipline.OnSuccess fun _ w =>
        ∃ rows, AccountRows context request rows ∧ Stored request rows t w)
      (EventsApi.createAccount context request termsVersion rawToken now startedAt) w := by
  apply Discipline.Safe.perform_bind Holding.stable h (K := fun _ => Holding request [] t)
  · exact fun h _ hinv _ => h.draw hinv
  intro salt w h
  cases hashPassword context.crypto request.password salt with
  | error => trivial
  | ok passwordHash =>
  apply h.create.bind_onSuccess _ fun _ _ => trivial
  rintro ⟨userId, user⟩ w ⟨hemail, h⟩
  apply h.replace _ fun _ => trivial
  intro tokenId w h
  apply h.insertRow _ _ fun _ => trivial
  · rintro w _ ⟨⟩
  intro jobId w h
  apply Discipline.Safe.perform_bind Holding.stable h (K := fun _ => Stored request _ t)
  · exact fun h _ hinv _ => h.commit hinv
  · intro _ w h
    exact ⟨_, ⟨userId, user, tokenId, _, jobId, _, rawToken, now, rfl, hemail, rfl, rfl, rfl, rfl⟩, h⟩

theorem register_safe {legalPages : List LegalPage} (hfresh : Discipline.Fresh t w)
    (hrequest : w.request t = some request) :
    registrations.Safe t (Registered context request t) (register context legalPages request) w := by
  have h : Holding request [] t w := by
    refine ⟨hrequest, hfresh.uncommitted, fun T id => ?_, fun _ hnew => ?_, fun T id hheld => ?_⟩
    · constructor
      · rintro ⟨e, he, hown, _⟩
        exact absurd hown (hfresh.untraced e he)
      · rintro ⟨_, hrow⟩
        cases hrow
    · cases hnew
    · exact absurd hheld (hfresh.unlocked T id)
  apply Discipline.Safe.perform_bind Holding.stable h (K := fun _ => Holding request [] t)
  · exact fun h _ hinv _ => h.now hinv
  intro startedAt w h
  apply Discipline.Safe.scalar_bind Holding.stable h (K := fun _ => Holding request [] t)
  · exact fun h _ hinv _ => h.select hinv
  intro found w h
  cases found.head? with
  | some => trivial
  | none =>
  cases getTermsVersion legalPages request.locale with
  | none => trivial
  | some termsVersion =>
  apply Discipline.Safe.perform_bind Holding.stable h (K := fun _ => Holding request [] t)
  · exact fun h _ hinv _ => h.draw hinv
  intro rawToken w h
  apply Discipline.Safe.perform_bind Holding.stable h (K := fun _ => Holding request [] t)
  · exact fun h _ hinv _ => h.now hinv
  intro now w h
  apply Discipline.Safe.bind_onSuccess _ _ fun _ _ => trivial
  · exact fun _ w => ∃ rows, AccountRows context request rows ∧ Stored request rows t w
  · exact h.createAccount.mapError (fun _ _ => id) fun _ _ => id
  · exact fun _ w h => h

end Program

theorem registrationSystem_verified :
    registrations.Verified (registrationSystem context legalPages) (Registered context) where
  stable request t r := by
    apply Discipline.OnSuccess.stable
    rintro _ w w' ⟨rows, haccount, h⟩ hw
    exact ⟨rows, haccount, h.stable hw⟩
  close request t r w _ hinv h := by
    cases r with
    | error => trivial
    | ok message =>
        obtain ⟨rows, haccount, h⟩ := h
        refine ⟨rows, haccount, h.asked, h.inserts, fun new hnew => ?_⟩
        exact (hinv.released t false).2 _ _ _ (h.committed new hnew)
  lost _ _ _ _ := trivial
  handler _ _ _ _ _ hfresh hrequest := register_safe hfresh hrequest

/-! ### All or nothing -/

abbrev RegisterConfig := Config database RegisterRequest Exn String

/-- What is stored meets the unique constraints, and tokens have users. -/
structure WellStored (w : RegisterWorld) : Prop where
  unique : ∀ T id id' row row', id ≠ id' → (w.slot T id).committed = some row →
    (w.slot T id').committed = some row' → database.clash T row row' = false
  owned : ∀ id (token : UserToken), (w.slot confirmationTable id).committed = some token →
    (w.slot userTable token.userId).committed ≠ none

theorem WellStored.registrations (h : WellStored w) (hinitial : w.Initial) : Registrations w := by
  have hview : ∀ T id t, (w.slot T id).view t = (w.slot T id).committed := by
    intro T id t
    apply Slot.view_eq_committed
    rintro ⟨_, hheld⟩
    cases (hinitial.unlocked T id).symm.trans hheld
  have hunique : ∀ T, Unique T w := by
    intro T
    constructor
    · intro t id id' row row' hne hrow hrow'
      rw [hview] at hrow hrow'
      exact h.unique T id id' row row' hne hrow hrow'
    · intro t u id id' row row' _ hheld
      cases (hinitial.unlocked T id).symm.trans hheld
  refine ⟨fun T id hheld => absurd (hinitial.unlocked T id) hheld, hunique _, hunique _, hunique _,
    h.owned, fun id t token hheld => ?_⟩
  cases (hinitial.unlocked _ id).symm.trans hheld

/-- The row is committed, and the only one of its kind that is. -/
def SoleRow {T : database.Table} (p : database.Row T → Prop) (id : Nat) (row : database.Row T)
    (w : RegisterWorld) : Prop :=
  (w.slot T id).committed = some row ∧ p row
    ∧ ∀ id' row', (w.slot T id').committed = some row' → p row' → id' = id

theorem SoleRow.of_unique {T : database.Table} {p : database.Row T → Prop} {id : Nat}
    {row : database.Row T} (hunique : Unique T w)
    (hclash : ∀ row', p row' → database.clash T row row' = true)
    (hrow : (w.slot T id).committed = some row) (hp : p row) : SoleRow p id row w := by
  refine ⟨hrow, hp, fun id' row' hrow' hp' => ?_⟩
  by_contra hne
  have hfalse := hunique.committed (Ne.symm hne) hrow hrow'
  rw [hclash row' hp'] at hfalse
  cases hfalse

/-- The link is in both bodies of the message. -/
def Links (url : String) (job : EmailOutboxJob) : Prop :=
  (∃ before after, job.textBody = before ++ url ++ after)
    ∧ ∃ before after, job.htmlBody = before ++ escape url ++ after

theorem links_confirmationEmail {user : User} {rawToken : String} {tokenId : Nat}
    {requestedAt : Int} {job : EmailOutboxJob}
    (h : job.message = confirmationEmail context user rawToken tokenId requestedAt) :
    Links (context.tokenUrl context.settings.emailConfirmationUrl rawToken) job := by
  have htext : job.textBody = _ := congrArg EmailMessage.text h
  have hhtml : job.htmlBody = _ := congrArg EmailMessage.html h
  let copy := confirmationEmailCopy user.preferredLocale
  let requestedAtText := context.formatSystemTimestamp requestedAt
  constructor
  · refine ⟨copy.greeting ++ " " ++ user.firstName ++ ",\n\n" ++ copy.instruction ++ "\n\n",
      "\n\n" ++ copy.requestedAt ++ ": " ++ requestedAtText, ?_⟩
    simp only [htext, confirmationEmail, String.append_assoc, copy, requestedAtText]
  · refine ⟨"<p>" ++ copy.greeting ++ " " ++ escape user.firstName ++ ",</p>" ++ "<p>"
      ++ copy.instruction ++ "</p>" ++ "<p><a href=\"", "\">" ++ copy.action ++ "</a></p>" ++ "<p>"
      ++ copy.requestedAt ++ ": " ++ requestedAtText ++ "</p>", ?_⟩
    simp only [hhtml, confirmationEmail, String.append_assoc, copy, requestedAtText]

variable (context) in
/-- A user with the address, a token of the user and a job that mails the token are what the
transaction inserted. They are committed, and there are no others. -/
def LeavesAccount (request : RegisterRequest) (t : Txn) (w : RegisterWorld) : Prop :=
  ∃ (userId : Nat) (user : User) (tokenId : Nat) (token : UserToken) (jobId : Nat)
    (job : EmailOutboxJob) (rawToken : String),
    Inserts [⟨.emailOutboxJobs, jobId, job⟩, ⟨.tokens .confirmation, tokenId, token⟩,
        ⟨.users, userId, user⟩] t w
      ∧ SoleRow (T := userTable) (fun user : User => user.email = request.email) userId user w
      ∧ SoleRow (T := confirmationTable) (fun token : UserToken => token.userId = userId) tokenId
        token w
      ∧ SoleRow (T := jobTable)
        (fun job : EmailOutboxJob => job.confirmationTokenId = some tokenId) jobId job w
      ∧ job.toAddress = request.email ∧ token.tokenHash = context.crypto.sha256 rawToken
      ∧ Links (context.tokenUrl context.settings.emailConfirmationUrl rawToken) job

/-- Nothing that the transaction inserted is there. -/
def LeavesNothing (t : Txn) (w : RegisterWorld) : Prop :=
  ∀ e ∈ w.trace, e.txn = t → ∀ T id, e.event = .inserted T id → (w.slot T id).committed = none

theorem Registrations.leavesAccount (h : Registrations w) {message : String}
    (hstored : Registered context request t (.ok message) w) :
    LeavesAccount context request t w := by
  obtain ⟨rows, ⟨userId, user, tokenId, token, jobId, job, rawToken, requestedAt, rfl, hemail,
    howner, hhash, hlinked, hmessage⟩, _, hinserts, hcommitted⟩ := hstored
  have hjob := hcommitted ⟨.emailOutboxJobs, jobId, job⟩ (by simp)
  have htoken := hcommitted ⟨.tokens .confirmation, tokenId, token⟩ (by simp)
  have huser := hcommitted ⟨.users, userId, user⟩ (by simp)
  refine ⟨userId, user, tokenId, token, jobId, job, rawToken, hinserts, ?_, ?_, ?_, ?_, hhash,
    links_confirmationEmail hmessage⟩
  · refine .of_unique h.users (fun (user' : User) hemail' => ?_) huser hemail
    change (user.email == user'.email) = true
    rw [hemail, hemail', beq_self_eq_true]
  · refine .of_unique h.tokens (fun (token' : UserToken) howner' => ?_) htoken howner
    change (token.userId == token'.userId || _) = true
    rw [howner, howner', beq_self_eq_true, Bool.true_or]
  · refine .of_unique h.jobs (fun (job' : EmailOutboxJob) hlinked' => ?_) hjob hlinked
    change job.collides job' = true
    unfold EmailOutboxJob.collides
    rw [hlinked, hlinked']
    simp
  · exact (congrArg EmailMessage.toAddress hmessage).trans hemail

/-- The next operation inserts a row that clashes with one the transaction sees. -/
def Refused (c : RegisterConfig) (t : Txn) : Prop :=
  ∃ (T : database.Table) (row : Nat → database.Row T) (next : Option Nat → Db String),
    c.client t = some (.exec (.insert T row) next)
      ∧ c.world.insertClashes t T (row (c.world.next T)) = true

/-- The next operation inserts a user. -/
def InsertsUser (c : RegisterConfig) (t : Txn) : Prop :=
  ∃ (row : Nat → User) (next : Option Nat → Db String),
    c.client t = some (.exec (.insert userTable row) next)

/-- The request is for the address, and has succeeded. -/
def RegisteredAs (email : String) (c : RegisterConfig) (t : Txn) : Prop :=
  (∃ request, c.world.request t = some request ∧ request.email = email)
    ∧ ∃ message, c.outcome t = some (.ok message)

variable (context legalPages) in
structure AllOrNothing (c : RegisterConfig) : Prop where
  success : ∀ t request message, c.world.request t = some request →
    c.outcome t = some (.ok message) → LeavesAccount context request t c.world
  failure : ∀ t error, c.outcome t = some (.error error) → LeavesNothing t c.world
  once : ∀ email t u, RegisteredAs email c t → RegisteredAs email c u → t = u
  reaches : ∀ t u request, c.world.request t = some request → RegisteredAs request.email c u →
    InsertsUser c t → Refused c t
  refused : ∀ t choice c', Refused c t →
    (registrationSystem context legalPages).step c (.exec t choice) = some c' →
    c'.outcome t = some (.error duplicateEmail)

section Runs

variable {init : RegisterConfig → Prop} {c : RegisterConfig}

theorem AllOrNothing.refusal
    (hshape : ∀ p, c.client t = some p → p.Each (RefusedWith duplicateEmail))
    (hrefused : Refused c t) {choice : Choice} {c' : RegisterConfig}
    (hstep : (registrationSystem context legalPages).step c (.exec t choice) = some c') :
    c'.outcome t = some (.error duplicateEmail) := by
  obtain ⟨T, row, next, hclient, hclash⟩ := hrefused
  simp only [System.step, hclient] at hstep
  split at hstep
  · cases hstep
  · rename_i answer world hexec
    cases hstep
    obtain ⟨_, ⟨_, rfl, _⟩ | ⟨hclear, _⟩⟩ := exec_insert hexec
    · have hnext : next none = .raise duplicateEmail := (hshape _ hclient).1
      simp [Config.outcome, hnext]
    · cases hclash.symm.trans hclear

/-- **Registration is all or nothing.** -/
theorem registration_all_or_nothing (hinit : ∀ c, init c → c.Initial ∧ WellStored c.world)
    (h : Transition.Reachable (registrationSystem context legalPages).step init
      Transition.anyStep c) : AllOrNothing context legalPages c := by
  have hmeets : Transition.Reachable (registrationSystem context legalPages).step init
      (fun c l => c.Meets registrations.allowed l) c :=
    h.mono fun _ _ _ => Config.meets_of_forall fun _ _ _ => trivial
  have hholds := registrationSystem_verified.holds
    (fun c hc => ⟨(hinit c hc).1, (hinit c hc).2.registrations (hinit c hc).1.1⟩) hmeets
  obtain ⟨hsound, hattributed⟩ := System.attributed (fun c hc => (hinit c hc).1) h
  have hsuccess : ∀ t request message, c.world.request t = some request →
      c.outcome t = some (.ok message) → LeavesAccount context request t c.world := by
    intro t request message hrequest houtcome
    obtain ⟨request', hrequest', hstored⟩ := hholds.outcome (Config.client_of_outcome houtcome)
    cases hrequest.symm.trans hrequest'
    exact hholds.inv.leavesAccount hstored
  have huser : ∀ email t, RegisteredAs email c t → ∃ userId user,
      SoleRow (T := userTable) (fun user : User => user.email = email) userId user c.world
        ∧ ∃ e ∈ c.world.trace, e.txn = t ∧ e.event = .inserted userTable userId := by
    rintro _ t ⟨⟨request, hrequest, rfl⟩, message, houtcome⟩
    obtain ⟨userId, user, _, _, _, _, _, hinserts, hsole, _⟩ :=
      hsuccess t request message hrequest houtcome
    exact ⟨userId, user, hsole, (hinserts userTable userId).mpr ⟨user, by simp⟩⟩
  constructor
  · exact hsuccess
  · intro t error houtcome
    apply System.inserted_unseen register_commitsLast (fun c hc => (hinit c hc).1) h
    intro value hclient
    rw [Config.client_of_outcome houtcome] at hclient
    cases hclient
  · intro email t u ht hu
    obtain ⟨userId, user, hsole, e, he, rfl, hevent⟩ := huser email t ht
    obtain ⟨userId', user', hsole', e', he', rfl, hevent'⟩ := huser email u hu
    obtain rfl := hsole.2.2 userId' user' hsole'.1 hsole'.2.1
    exact hattributed.once e he e' he' _ _ hevent hevent'
  · rintro t u request hrequest hu ⟨row, next, hclient⟩
    obtain ⟨userId, user, ⟨hrow, hemail, _⟩, _⟩ := huser request.email u hu
    obtain ⟨request', hrequest', hshape⟩ := System.each_of_handler
      (fun request => Prog.Each.of_all (register_insertsAddress request))
      (fun c hc => (hinit c hc).1.2) h t _ hclient
    cases hrequest.symm.trans hrequest'
    refine ⟨userTable, row, next, hclient, ?_⟩
    have hown : (row (c.world.next userTable)).email = request.email := hshape.1 rfl _
    have hfree : ¬ (c.world.slot userTable userId).HeldBy t := by
      rintro ⟨version, hheld⟩
      rw [hholds.inv.unheld (by rw [hrow]; exact Option.some_ne_none user)] at hheld
      cases hheld
    by_contra hclear
    have hnone := World.not_insertClashes_iff.mp (Bool.eq_false_iff.mpr hclear) userId ?_ user
      ((Slot.view_eq_committed hfree).trans hrow)
    · change ((row (c.world.next userTable)).email == user.email) = false at hnone
      rw [hown, hemail, beq_self_eq_true] at hnone
      cases hnone
    · by_contra hbeyond
      rw [hsound.beyond _ _ (Nat.le_of_not_lt hbeyond)] at hrow
      cases hrow
  · intro t choice c' hrefused hstep
    refine AllOrNothing.refusal (fun p hclient => ?_) hrefused hstep
    obtain ⟨_, _, hshape⟩ := System.each_of_handler (P := fun _ => RefusedWith duplicateEmail)
      register_refusedWith (fun c hc => (hinit c hc).1.2) h t p hclient
    exact hshape

end Runs

def jonas : RegisterRequest where
  email := "jonas@example.lt"
  password := "battery staple"
  firstName := "Jonas"
  lastName := "Jonaitis"
  locale := "lt"
  marketingEmailConsent := false
  marketingPushConsent := false
  passwordLength := by decide
  firstNameLength := by decide
  lastNameLength := by decide
  localeSupported := by decide

def publishedTerms : List LegalPage := [⟨termsSlug, "lt", "1"⟩]

/-- Jonas registers twice at a time. Neither request finds the user of the other, and the second has
to wait until the first commits. -/
def registersTwice : List (Label RegisterRequest) :=
  [.spawn 0 jonas, .exec 0 {}, .exec 0 {}, .exec 0 { token := "a" }, .exec 0 {},
    .exec 0 { token := "b" }, .exec 0 {},
    .spawn 1 jonas, .exec 1 {}, .exec 1 { order := [] }, .exec 1 { token := "c" }, .exec 1 {},
    .exec 1 { token := "d" },
    .exec 0 {}, .exec 0 {}, .exec 0 {}, .exec 0 {}, .close 0, .exec 1 {}, .close 1]

theorem smallService_wellStored : WellStored (smallService RegisterRequest Exn String).world where
  unique T id id' row row' hne hrow hrow' := by
    have honly : ∀ {id : Nat} {user : User}, [confirmedUser][id]? = some user → id = 0 := by
      intro id user huser
      obtain ⟨hlt, _⟩ := List.getElem?_eq_some_iff.mp huser
      exact Nat.lt_one_iff.mp hlt
    cases T with
    | users => exact absurd ((honly hrow).trans (honly hrow').symm) hne
    | tokens | refreshTokenSessions | emailOutboxJobs => cases hrow
  owned id token htoken := by cases htoken

theorem registration_all_or_nothing_registersTwice :
    ∃ c, Transition.run (registrationSystem plainContext publishedTerms).step
        (smallService _ _ _) registersTwice = some c
      ∧ LeavesAccount plainContext jonas 0 c.world ∧ LeavesNothing 1 c.world := by
  have hrun : (Transition.run (registrationSystem plainContext publishedTerms).step
      (smallService RegisterRequest Exn String) registersTwice).any fun c =>
        decide (c.world.request 0 = some jonas
          ∧ c.outcome 0 = some (.ok registrationMessage)
          ∧ c.outcome 1 = some (.error duplicateEmail)) := by decide
  obtain ⟨c, hc, hended⟩ := (Option.any_eq_true _ _).mp hrun
  obtain ⟨hrequest, hok, herror⟩ := of_decide_eq_true hended
  have hinit : ∀ c, c = smallService RegisterRequest Exn String → c.Initial ∧ WellStored c.world := by
    rintro _ rfl
    exact ⟨smallService_initial _ _ _, smallService_wellStored⟩
  have hresult : AllOrNothing plainContext publishedTerms c := by
    apply registration_all_or_nothing hinit
    apply Transition.reachable_of_run _ _ _ hc
    · rfl
    · exact fun _ _ _ _ _ _ _ => trivial
  exact ⟨c, hc, hresult.success 0 jonas _ hrequest hok, hresult.failure 1 _ herror⟩

end EventsApi
