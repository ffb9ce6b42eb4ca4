import EventsApi.Proof.LockOrder

/-!
# Deadlocks

A reset locks against the order: it holds a token and asks for its user. A request for a reset token
refers against the order: it holds the old token and inserts a row that refers to the user. As long
as nobody holds the user meanwhile who goes on to the token, whoever waits while it holds a row waits
for a transaction that waits for nobody, so nobody waits in a circle.
-/

namespace EventsApi

open ReadCommitted

variable {context : Context} {t u : Txn} {w w' : CredentialWorld} {T : database.Table} {id : Nat}
  {request : CredentialRequest} {α β : Type} {op : Op database β} {choice : Choice} {answer : β}

/-! ### Assertions -/

structure InProgress (request : CredentialRequest) (t : Txn) (w : CredentialWorld) : Prop where
  asked : w.request t = some request
  uncommitted : ¬ w.HasCommitted t

/-- The transaction holds the rows. -/
def HoldsAll (rows : List (database.Table × Nat)) (t : Txn) (w : CredentialWorld) : Prop :=
  ∀ row ∈ rows, (w.slot row.1 row.2).HeldBy t

/-- The transaction has drawn a token that no session carries yet. -/
structure Carrying (context : Context) (raw : String) (t : Txn) (w : CredentialWorld) : Prop where
  uncommitted : ¬ w.HasCommitted t
  drawn : (raw, t) ∈ w.drawn
  unused : Unused sessionKey context.crypto.sha256 raw w

/-- The rows are found and locked. -/
def Found (p : Nat → database.Row T → Bool) (rows : List (Nat × database.Row T)) (t : Txn)
    (w : CredentialWorld) : Prop :=
  ∀ e ∈ rows, (w.slot T e.1).HeldBy t ∧ (w.slot T e.1).committed = some e.2 ∧ p e.1 e.2 = true

theorem InProgress.durable : (lockOrder context).Durable t (InProgress request t) where
  stable h hw := ⟨hw.others.request t request h.asked,
    fun hdone => h.uncommitted (hw.others.hasCommitted_self hdone)⟩
  exec hkind _ h hexec := ⟨by rw [Op.exec_request hexec, h.asked],
    Op.exec_uncommitted hkind hexec h.uncommitted⟩

theorem HoldsAll.exec {rows : List (database.Table × Nat)} (h : HoldsAll rows t w)
    (hsound : w.Sound) (hkind : op.kind ≠ .commit) (hexec : op.exec t choice w = some (answer, w')) :
    HoldsAll rows t w' :=
  fun row hrow => Op.exec_holds hsound hkind hexec (h row hrow)

theorem HoldsAll.durable {rows : List (database.Table × Nat)} :
    (lockOrder context).Durable t (HoldsAll rows t) where
  stable h hw row hrow := hw.others.heldBy.mpr (h row hrow)
  exec hkind hsound h hexec := h.exec hsound hkind hexec

theorem Found.durable {p : Nat → database.Row T → Bool} {rows : List (Nat × database.Row T)} :
    (lockOrder context).Durable t (Found p rows t) where
  stable h hw e he := by
    obtain ⟨⟨version, hheld⟩, hcommitted, hp⟩ := h e he
    refine ⟨hw.others.heldBy.mpr ⟨version, hheld⟩, ?_, hp⟩
    rw [hw.others.mine T e.1 version hheld, hcommitted]
  exec hkind hsound h hexec e he := by
    obtain ⟨hheld, hcommitted, hp⟩ := h e he
    exact ⟨Op.exec_holds hsound hkind hexec hheld,
      (Op.exec_committed hkind hexec T e.1).trans hcommitted, hp⟩

theorem HoldsTokenOf.durable {userId : Nat} :
    (lockOrder context).Durable t (HoldsTokenOf userId t) where
  stable h hw := by
    obtain ⟨tokenId, token, hcommitted, ⟨version, hheld⟩, huser⟩ := h
    refine ⟨tokenId, token, ?_, hw.others.heldBy.mpr ⟨version, hheld⟩, huser⟩
    rw [hw.others.mine _ tokenId version hheld, hcommitted]
  exec hkind hsound h hexec := by
    obtain ⟨tokenId, token, hcommitted, hheld, huser⟩ := h
    exact ⟨tokenId, token, (Op.exec_committed hkind hexec _ tokenId).trans hcommitted,
      Op.exec_holds hsound hkind hexec hheld, huser⟩

theorem durable_seen {P : List (database.Table × Nat) → Prop} :
    (lockOrder context).Durable t (Seen references P t T id) where
  stable h hw := h.others hw.others hw.rely
  exec hkind hsound h hexec := h.exec hsound hkind hexec

theorem durable_true : (lockOrder context).Durable t fun _ => True where
  stable _ _ := trivial
  exec _ _ _ _ := trivial

/-- The operation reads, or draws. -/
def Reads : (β : Type) → Op database β → Prop
  | _, .select .. | _, .now | _, .draw => True
  | _, _ => False

theorem Reads.goesInTurn (h : Reads β op) : GoesInTurn t w β op := by
  cases op with
  | select | now | draw => exact ⟨nofun, nofun, False.elim⟩
  | lock | insert | commit => exact h.elim

theorem Reads.kind (h : Reads β op) : op.kind ≠ .commit := by
  cases op with
  | select | now | draw => nofun
  | lock | insert | commit => exact h.elim

theorem Reads.plain (h : Reads β op) : Plain β op := by
  cases op with
  | select | now | draw => exact ⟨nofun, trivial, trivial, fun _ => trivial⟩
  | lock | insert | commit => exact h.elim

theorem Reads.slot (h : Reads β op) (hexec : op.exec t choice w = some (answer, w')) :
    w'.slot = w.slot := by
  cases op with
  | select =>
      obtain ⟨rfl, _⟩ := exec_select hexec
      rfl
  | now =>
      obtain ⟨_, rfl⟩ := exec_now hexec
      rfl
  | draw =>
      obtain ⟨_, rfl⟩ := exec_draw hexec
      rfl
  | lock | insert | commit => exact h.elim

variable (context) in
/-- What the others leave true, and what the transaction itself reads. -/
structure Calm (t : Txn) (J : CredentialWorld → Prop) : Prop where
  stable : (lockOrder context).Stable t J
  reads : ∀ {β : Type} {op : Op database β} {w w' : CredentialWorld} {choice : Choice} {answer : β},
    Reads β op → w.Sound → J w → op.exec t choice w = some (answer, w') → J w'

theorem calm_of_durable {J : CredentialWorld → Prop} (h : (lockOrder context).Durable t J) :
    Calm context t J where
  stable := h.stable
  reads hreads := h.exec hreads.kind

theorem Calm.and {J J' : CredentialWorld → Prop} (h : Calm context t J) (h' : Calm context t J') :
    Calm context t fun w => J w ∧ J' w where
  stable hJ hw := ⟨h.stable hJ.1 hw, h'.stable hJ.2 hw⟩
  reads hreads hsound hJ hexec :=
    ⟨h.reads hreads hsound hJ.1 hexec, h'.reads hreads hsound hJ.2 hexec⟩

theorem Lockless.calm : Calm context t (Lockless t) where
  stable h hw T id := hw.others.not_mine T id (h T id)
  reads hreads _ h hexec T id := by
    rw [hreads.slot hexec]
    exact h T id

theorem Carrying.calm {raw : String} : Calm context t (Carrying context raw t) where
  stable h hw :=
    { uncommitted := fun hdone => h.uncommitted (hw.others.hasCommitted_self hdone)
      drawn := hw.others.drawn_subset _ h.drawn
      unused := hw.inv.keyed.unused_of_others context.crypto.sha256_injective hw.sound hw.others
        h.drawn h.uncommitted h.unused }
  reads hreads hsound h hexec :=
    { uncommitted := Op.exec_uncommitted hreads.kind hexec h.uncommitted
      drawn := Op.exec_drawn_subset hsound hexec _ h.drawn
      unused := by
        unfold Unused
        rw [hreads.slot hexec]
        exact h.unused }

/-! ### Rules -/

variable {Q : Except Exn α → CredentialWorld → Prop} {J : CredentialWorld → Prop}

/-- A program that goes by the order. -/
abbrev InTurn (context : Context) (t : Txn) (Q : Except Exn α → CredentialWorld → Prop)
    (p : Db α) (w : CredentialWorld) : Prop :=
  (lockOrder context).Careful GoesInTurn t Q p w

theorem keeps_of_orderly (hop : Orderly context t w op) (hkind : op.kind ≠ .commit)
    (hsound : w.Sound) (hinv : LocksInOrder context w) (hturn : GoesInTurn t w β op)
    (hexec : op.exec t choice w = some (answer, w')) : (lockOrder context).Keeps t w w' :=
  ⟨hinv.exec hsound hop hkind hturn hexec,
    fun _ _ => Op.exec_lasting hsound hinv.references hexec⟩

theorem Reads.keeps (hop : Reads β op) (hsound : w.Sound) (hinv : LocksInOrder context w)
    (hexec : op.exec t choice w = some (answer, w')) : (lockOrder context).Keeps t w w' :=
  keeps_of_orderly hop.plain.orderly hop.kind hsound hinv hop.goesInTurn hexec

theorem goesInTurn_lock {p : database.Row T → Bool} {f : database.Row T → Option (database.Row T)}
    (h : LocksInTurn t w (T, id))
    (hdeletes : (Op.lock T id p f).Deletes userTable → (w.request t).any (·.deletes) = true) :
    GoesInTurn t w _ (.lock (S := database) T id p f) where
  locks := by
    rintro row ⟨⟩
    exact h
  refers := nofun
  deletes := hdeletes

theorem Calm.read {next : β → Db α} (hJ : Calm context t J) (hop : Reads β op)
    (hnext : ∀ answer w, J w → InTurn context t Q (next answer) w) (h : J w) :
    InTurn context t Q (.exec op next) w := by
  refine Discipline.Careful.exec hJ.stable h (fun _ _ => hop.goesInTurn) ?_ hnext
  intro w choice answer w' h hsound hinv hexec
  exact ⟨hop.keeps hsound hinv hexec, hJ.reads hop hsound h hexec⟩

theorem Calm.scalar {p : Nat → database.Row T → Bool}
    {next : Option (Nat × database.Row T) → Db α} (hJ : Calm context t J)
    (hnext : ∀ found w, J w → InTurn context t Q (next found) w) (h : J w) :
    InTurn context t Q (Prog.scalar T p >>= next) w :=
  hJ.read trivial (fun rows w h => hnext rows.head? w h) h

theorem Calm.all {p : Db α} (hJ : Calm context t J) (hall : p.All Reads) (h : J w) :
    InTurn context t (fun _ => J) p w :=
  Discipline.Careful.of_all hJ.stable Reads.goesInTurn
    (fun hop h hsound hinv hexec =>
      ⟨hop.keeps hsound hinv hexec, hJ.reads hop hsound h hexec⟩) hall h

theorem inTurn_lock {p : database.Row T → Bool} {f : database.Row T → Option (database.Row T)}
    {next : Option (database.Row T) → Db α}
    {K : Option (database.Row T) → CredentialWorld → Prop} (hstable : (lockOrder context).Stable t J)
    (hturn : ∀ {w}, J w → LocksInOrder context w → LocksInTurn t w (T, id))
    (hdeletes : ¬ (Op.lock T id p f).Deletes userTable)
    (hop : ∀ {w}, J w → Orderly context t w (.lock T id p f))
    (hexec : ∀ {w choice found w'}, J w → w.Sound →
      (Op.lock T id p f).exec t choice w = some (found, w') → K found w')
    (hnext : ∀ found w, K found w → InTurn context t Q (next found) w) (h : J w) :
    InTurn context t Q (.exec (.lock T id p f) next) w := by
  have hgoes : ∀ {w}, J w → LocksInOrder context w →
      GoesInTurn t w _ (.lock (S := database) T id p f) := fun h hinv =>
    goesInTurn_lock (hturn h hinv) fun h => absurd h hdeletes
  exact Discipline.Careful.exec hstable h (fun h hinv => hgoes h hinv)
    (fun h hsound hinv hdone =>
      ⟨keeps_of_orderly (hop h) nofun hsound hinv (hgoes h hinv) hdone, hexec h hsound hdone⟩) hnext

theorem inTurn_commit {next : Unit → Db α}
    (hnext : ∀ w, InTurn context t Q (next ()) w) : InTurn context t Q (.exec .commit next) w := by
  apply Discipline.Careful.exec (J := fun _ => True) (K := fun _ _ => True)
    (fun _ _ => trivial) trivial
  · exact fun _ _ => ⟨nofun, nofun, False.elim⟩
  · intro w choice answer w' _ hsound hinv hexec
    have hlasting := Op.exec_lasting hsound hinv.references hexec
    obtain rfl := exec_commit hexec
    exact ⟨⟨hinv.commit hsound, fun _ _ => hlasting⟩, trivial⟩
  · exact fun _ w _ => hnext w

theorem heldBy_of_view {p : database.Row T → Bool} {f : database.Row T → Option (database.Row T)}
    {row : database.Row T} {found : Option (database.Row T)}
    (hview : (w.slot T id).view t = some row)
    (h : (Op.lock T id p f).exec t choice w = some (found, w')) : (w'.slot T id).HeldBy t := by
  obtain ⟨_, ⟨hnone, _⟩ | ⟨_, _, ⟨_, _, rfl⟩ | ⟨_, _, rfl⟩⟩⟩ := exec_lock h
  · cases hview.symm.trans hnone
  · exact ⟨_, congrArg Slot.held (World.write_slot_self _)⟩
  · exact ⟨_, congrArg Slot.held (World.write_slot_self _)⟩

theorem heldBy_of_lock {p : database.Row T → Bool} {f : database.Row T → Option (database.Row T)}
    {row : database.Row T} (h : (Op.lock T id p f).exec t choice w = some (some row, w')) :
    (w'.slot T id).HeldBy t ∧ (w.slot T id).view t = some row ∧ p row = true := by
  obtain ⟨_, ⟨_, hnone, _⟩ | ⟨seen, hview, ⟨hp, hsome, _⟩ | ⟨_, hnone, _⟩⟩⟩ := exec_lock h
  · cases hnone
  · cases hsome
    exact ⟨heldBy_of_view hview h, hview, hp⟩
  · cases hnone

/-! ### Statements -/

theorem plain_keep (p : database.Row T → Bool) : Plain _ (.lock (S := database) T id p some) where
  users := nofun
  tokens hT _ := by
    cases hT
    exact ⟨fun _ => .inl rfl, fun _ => .inl rfl⟩
  sessions hT _ := by
    cases hT
    exact ⟨fun _ session' heq => by cases heq; rfl, fun _ session' heq => by cases heq; rfl⟩
  references _ hT _ := by
    cases hT
    exact ⟨fun _ row' heq => by cases heq; rfl, fun _ row' heq => by cases heq; rfl⟩

theorem plain_delete (p : database.Row T → Bool) :
    Plain _ (.lock (S := database) T id p fun _ => none) where
  users := nofun
  tokens hT _ := by
    cases hT
    exact ⟨fun _ => .inr rfl, fun _ => .inl rfl⟩
  sessions hT _ := by
    cases hT
    exact ⟨fun _ => nofun, fun _ session' heq => by cases heq; rfl⟩
  references _ hT _ := by
    cases hT
    exact ⟨fun _ => nofun, fun _ row' heq => by cases heq; rfl⟩

theorem plain_updateUser (p : User → Bool) (f : User → User) :
    Plain _ (.lock userTable id p fun user => some (f user)) where
  users := nofun
  tokens := nofun
  sessions := nofun
  references _ hT _ := by
    cases hT
    exact ⟨fun _ _ _ => rfl, fun _ _ _ => rfl⟩

theorem plain_revoke (p : RefreshTokenSession → Bool) (now : Int) :
    Plain _ (.lock sessionTable id p fun session => some (RefreshSessions.revoke now session)) where
  users := nofun
  tokens := nofun
  sessions _ _ :=
    ⟨fun _ session' heq => by cases heq; rfl, fun _ session' heq => by cases heq; rfl⟩
  references _ hT _ := by
    cases hT
    exact ⟨fun _ row' heq => by cases heq; rfl, fun _ row' heq => by cases heq; rfl⟩

theorem plain_insertToken (kind : TokenKind) (row : Nat → UserToken) :
    Plain _ (.insert (tokenTable kind) row) where
  users := nofun
  tokens _ _ := trivial
  sessions := nofun
  references _ hT _ := by
    cases hT
    exact le_rfl

theorem plain_insertJob {row : Nat → EmailOutboxJob}
    (hrow : ∀ id, RefersToOne references jobTable (row id)) : Plain _ (.insert jobTable row) where
  users := nofun
  tokens := nofun
  sessions := nofun
  references _ hT id := by
    cases hT
    exact hrow id

/-- What a transaction finds among the rows that refer to one it holds, it may lock. -/
theorem inTurn_under {ref : database.Table × Nat} {p : Nat → database.Row T → Bool}
    {f : database.Row T → Option (database.Row T)} (hT : T ≠ userTable)
    (hp : ∀ id row, p id row = true → ref ∈ references T row)
    (hf : ∀ id, Plain _ (.lock T id (p id) f)) (h : HoldsAll [ref] t w) :
    InTurn context t
      (fun r w => ∃ rows, r = .ok rows ∧ HoldsAll (ref :: rows.map fun e => (T, e.1)) t w)
      (Prog.statement T p f) w := by
  let J (ids : List Nat) (rows : List (Nat × database.Row T)) (w : CredentialWorld) : Prop :=
    HoldsAll (ref :: rows.map fun e => (T, e.1)) t w ∧ ∀ id ∈ ids, Seen references (ref ∈ ·) t T id w
  have hstable : ∀ ids rows, (lockOrder context).Stable t (J ids rows) := fun ids rows _ _ h hw =>
    ⟨HoldsAll.durable.stable h.1 hw, fun id hid => durable_seen.stable (h.2 id hid) hw⟩
  have hturn : ∀ {id ids rows w}, J (id :: ids) rows w → LocksInTurn t w (T, id) := by
    rintro id ids rows w ⟨hholds, hseen⟩
    obtain hown | hgone | ⟨row, hrow, href⟩ := hseen id List.mem_cons_self
    · exact .inl hown
    · exact .inr (.inl hgone)
    · have hunder : Under t w T id := ⟨row, hrow, ref, href, hholds ref List.mem_cons_self⟩
      exact .inr (.inr ⟨⟨row, hrow⟩, .inr (.inl hunder)⟩)
  have hgoes : ∀ {id ids rows w}, J (id :: ids) rows w →
      GoesInTurn t w _ (.lock (S := database) T id (p id) f) := fun h =>
    goesInTurn_lock (hturn h) fun hdeletes => absurd hdeletes.1 hT
  have hreads : Reads _ (.select (S := database) T p) := trivial
  apply Discipline.Careful.exec HoldsAll.durable.stable h
    (K := fun rows w => J (rows.map (·.1)) [] w)
  · exact fun _ _ => hreads.goesInTurn
  · intro w choice rows w' h hsound hinv hexec
    refine ⟨hreads.keeps hsound hinv hexec, h.exec hsound hreads.kind hexec, fun id hid => ?_⟩
    obtain ⟨e, he, rfl⟩ := List.mem_map.mp hid
    obtain ⟨_, hview, hmatch⟩ := ((exec_select hexec).2.2 e.1 e.2).mp he
    exact (seen_of_view hview (hp _ _ hmatch)).exec hsound hreads.kind hexec
  · intro rows w h
    refine (Discipline.Careful.lockEach hstable (fun h _ => hgoes h) ?_ [] h).mono ?_
    · intro id ids rows w choice found w' h hsound hinv hexec
      have hkind : (Op.lock (S := database) T id (p id) f).kind ≠ .commit := nofun
      have hholds := h.1.exec hsound hkind hexec
      refine ⟨keeps_of_orderly (hf id).orderly hkind hsound hinv (hgoes h) hexec, ?_,
        fun id' hid => ?_⟩
      · cases found with
        | none =>
            rw [Option.map_none, Option.toList_none, List.append_nil]
            exact hholds
        | some row =>
            intro held hmem
            rw [List.map_append, ← List.cons_append] at hmem
            obtain hmem | hmem := List.mem_append.mp hmem
            · exact hholds held hmem
            · obtain rfl := List.mem_singleton.mp hmem
              exact (heldBy_of_lock hexec).1
      · exact (h.2 id' (List.mem_cons_of_mem _ hid)).exec hsound hkind hexec
    · rintro r w ⟨more, rfl, hmore, _⟩
      exact ⟨more, rfl, hmore⟩

theorem linkedJob_references {kind : TokenKind} {tokenId : Nat} {job : EmailOutboxJob}
    (h : UserTokens.linkedJob kind tokenId job = true) :
    (tokenTable kind, tokenId) ∈ references jobTable job := by
  cases kind with
  | confirmation =>
      have hlinked : job.confirmationTokenId = some tokenId := beq_iff_eq.mp h
      simp [references, hlinked]
  | passwordReset =>
      have hlinked : job.passwordResetTokenId = some tokenId := beq_iff_eq.mp h
      simp [references, hlinked]

theorem inTurn_deleteLinkedJobs (kind : TokenKind) {tokenIds : List Nat}
    (h : HoldsAll (tokenIds.map (tokenTable kind, ·)) t w) :
    InTurn context t (fun _ _ => True) (UserTokens.deleteLinkedJobs kind tokenIds) w := by
  induction tokenIds generalizing w with
  | nil => trivial
  | cons tokenId tokenIds ih =>
      have htoken : HoldsAll [(tokenTable kind, tokenId)] t w := by
        intro row hrow
        obtain rfl := List.mem_singleton.mp hrow
        exact h _ List.mem_cons_self
      have hrest : HoldsAll (tokenIds.map (tokenTable kind, ·)) t w :=
        fun row hrow => h row (List.mem_cons_of_mem _ hrow)
      have hlinked (id : Nat) (job : EmailOutboxJob)
          (h : UserTokens.linkedJob kind tokenId job = true) :
          (tokenTable kind, tokenId) ∈ references jobTable job :=
        linkedJob_references h
      refine ((inTurn_under (T := jobTable) nofun hlinked (fun _ => plain_delete _) htoken).frame
        HoldsAll.durable (ordinary_uncommitting.modest.deleteWhere jobTable nofun _) hrest).bind ?_
        fun _ _ _ => trivial
      exact fun _ w h => ih h.2

/-- The tokens of a user whose row the transaction holds. -/
theorem inTurn_deleteForUser (kind : TokenKind) {userId : Nat}
    (h : HoldsAll [(userTable, userId)] t w) :
    InTurn context t (fun _ w => HoldsAll [(userTable, userId)] t w)
      (UserTokens.deleteForUser kind userId) w := by
  have hmatch : ∀ (id : Nat) (token : UserToken), (token.userId == userId) = true →
      (userTable, userId) ∈ references (tokenTable kind) token := by
    intro id token hp
    obtain rfl := beq_iff_eq.mp hp
    exact List.mem_singleton_self _
  have hdelete : InTurn context t (fun _ _ => True) (UserTokens.deleteForUser kind userId) w := by
    refine (inTurn_under (T := tokenTable kind) nofun hmatch (fun _ => plain_delete _) h).bind ?_
      fun _ _ _ => trivial
    rintro _ w ⟨rows, ⟨⟩, hholds⟩
    apply inTurn_deleteLinkedJobs
    intro row hrow
    rw [List.map_map] at hrow
    exact hholds row (List.mem_cons_of_mem _ hrow)
  have hopen := ordinary_uncommitting.modest.deleteForUser kind userId
  exact (hdelete.frame HoldsAll.durable hopen h).mono fun _ _ hframed => hframed.2

theorem inTurn_revokeForUser {userId : Nat} {now : Int} (h : HoldsAll [(userTable, userId)] t w) :
    InTurn context t (fun _ _ => True) (RefreshSessions.revokeForUser userId now) w := by
  have hmatch : ∀ (id : Nat) (session : RefreshTokenSession),
      (session.userId == userId && session.revokedAt.isNone) = true →
      (userTable, userId) ∈ references sessionTable session := by
    intro id session hp
    obtain rfl := beq_iff_eq.mp (Bool.and_eq_true_iff.mp hp).1
    exact List.mem_singleton_self _
  exact (inTurn_under (T := sessionTable) nofun hmatch (fun _ => plain_revoke _ now) h).mono
    fun _ _ _ => trivial

theorem inTurn_deleteOwned {userIds : List Nat} (h : HoldsAll (userIds.map (userTable, ·)) t w) :
    InTurn context t (fun _ _ => True) (Users.deleteOwned userIds) w := by
  induction userIds generalizing w with
  | nil => trivial
  | cons userId userIds ih =>
      have huser : HoldsAll [(userTable, userId)] t w := by
        intro row hrow
        obtain rfl := List.mem_singleton.mp hrow
        exact h _ List.mem_cons_self
      have hmatch : ∀ (id : Nat) (session : RefreshTokenSession),
          (session.userId == userId) = true →
          (userTable, userId) ∈ references sessionTable session := by
        intro id session hp
        obtain rfl := beq_iff_eq.mp hp
        exact List.mem_singleton_self _
      have hall := ordinary_uncommitting.modest
      have hrest : HoldsAll (userIds.map (userTable, ·)) t w :=
        fun row hrow => h row (List.mem_cons_of_mem _ hrow)
      refine ((inTurn_deleteForUser .confirmation huser).frame HoldsAll.durable
        (hall.deleteForUser .confirmation userId) hrest).bind ?_ fun _ _ _ => trivial
      rintro _ w ⟨huser, hrest⟩
      refine ((inTurn_deleteForUser .passwordReset huser).frame HoldsAll.durable
        (hall.deleteForUser .passwordReset userId) hrest).bind ?_ fun _ _ _ => trivial
      rintro _ w ⟨huser, hrest⟩
      refine ((inTurn_under (T := sessionTable) nofun hmatch (fun _ => plain_delete _) huser).frame
        HoldsAll.durable (hall.deleteWhere sessionTable nofun _) hrest).bind ?_ fun _ _ _ => trivial
      exact fun _ w h => ih h.2

/-- What the transactions that store a new password do once they may lock the user. -/
theorem inTurn_storePassword {userId : Nat} {passwordHash : String} {now startedAt : Int}
    (hstable : (lockOrder context).Stable t J)
    (hturn : ∀ {w}, J w → LocksInOrder context w → LocksInTurn t w (userTable, userId)) (h : J w) :
    InTurn context t (fun _ _ => True) (storePassword userId passwordHash now startedAt) w := by
  have hupdate : InTurn context t (fun r w => ∀ answer, r = .ok answer →
      HoldsAll [(userTable, userId)] t w)
      (updateRow .users userId fun (user : User) =>
        { user with passwordHash := passwordHash, updatedAt := startedAt }) w := by
    refine inTurn_lock (T := userTable) hstable hturn (by rintro ⟨_, _, ⟨⟩⟩)
      (fun _ => (plain_updateUser _ _).orderly)
      (K := fun found w => found ≠ none → HoldsAll [(userTable, userId)] t w) ?_ ?_ h
    · intro w choice found w' _ _ hexec hfound row hrow
      obtain rfl := List.mem_singleton.mp hrow
      obtain ⟨user, rfl⟩ := Option.ne_none_iff_exists'.mp hfound
      exact (heldBy_of_lock hexec).1
    · intro found w hfound
      cases found with
      | none => exact nofun
      | some user => exact fun _ _ => hfound nofun
  refine hupdate.bind ?_ fun _ _ _ => trivial
  intro answer w h
  refine (inTurn_deleteForUser .passwordReset (h answer rfl)).bind ?_ fun _ _ _ => trivial
  intro _ w h
  refine (inTurn_revokeForUser h).bind ?_ fun _ _ _ => trivial
  exact fun _ w _ => inTurn_commit fun _ => trivial

/-! ### The first row -/

theorem InProgress.calm_lockless :
    Calm context t fun w => InProgress request t w ∧ Lockless t w :=
  (calm_of_durable InProgress.durable).and Lockless.calm

/-- A transaction may lock a row of its first table as long as it holds none. If it holds one
afterwards, then one with such references. -/
theorem inTurn_enter {p : Nat → database.Row T → Bool}
    {f : database.Row T → Option (database.Row T)} {P : List (database.Table × Nat) → Prop}
    (hentry : request.entry = some T)
    (hone : ∀ {w choice rows w'}, LocksInOrder context w →
      (Op.select T p).exec t choice w = some (rows, w') → rows.length ≤ 1)
    (hP : ∀ id row, p id row = true → P (references T row))
    (hf : ∀ id, Plain _ (.lock T id (p id) f))
    (hdeletes : ∀ id, (Op.lock T id (p id) f).Deletes userTable → request.deletes = true)
    (h : InProgress request t w ∧ Lockless t w) :
    InTurn context t
      (fun r w => ∃ rows, r = .ok rows ∧ InProgress request t w ∧ Found p rows t w
        ∧ (Lockless t w ∨ ∃ id row, (w.slot T id).committed = some row ∧ (w.slot T id).HeldBy t
          ∧ P (references T row)))
      (Prog.statement T p f) w := by
  let Entered (w : CredentialWorld) : Prop :=
    Lockless t w ∨ ∃ id row, (w.slot T id).committed = some row ∧ (w.slot T id).HeldBy t
      ∧ P (references T row)
  let J (ids : List Nat) (rows : List (Nat × database.Row T)) (w : CredentialWorld) : Prop :=
    InProgress request t w ∧ (ids.length ≤ 1 ∧ rows = [] ∧ Lockless t w
        ∧ (∀ id ∈ ids, Seen references P t T id w) ∨ ids = [] ∧ Found p rows t w ∧ Entered w)
  have hentered : (lockOrder context).Stable t Entered := by
    rintro w w' (hlockless | ⟨id, row, hcommitted, ⟨version, hheld⟩, hP⟩) hw
    · exact .inl (Lockless.calm.stable hlockless hw)
    · refine .inr ⟨id, row, ?_, hw.others.heldBy.mpr ⟨version, hheld⟩, hP⟩
      rw [hw.others.mine T id version hheld, hcommitted]
  have hstable : ∀ ids rows, (lockOrder context).Stable t (J ids rows) := by
    rintro ids rows w w' ⟨hprogress, h⟩ hw
    refine ⟨InProgress.durable.stable hprogress hw, ?_⟩
    obtain ⟨hlength, hrows, hlockless, hseen⟩ | ⟨hids, hfound, h⟩ := h
    · exact .inl ⟨hlength, hrows, Lockless.calm.stable hlockless hw,
        fun id hid => durable_seen.stable (hseen id hid) hw⟩
    · exact .inr ⟨hids, Found.durable.stable hfound hw, hentered h hw⟩
  have hgoes : ∀ {id ids rows w}, J (id :: ids) rows w →
      GoesInTurn t w _ (.lock (S := database) T id (p id) f) := by
    rintro id ids rows w ⟨hprogress, ⟨_, _, hlockless, hseen⟩ | ⟨hids, _⟩⟩
    · refine goesInTurn_lock ?_ fun hdelete => ?_
      · obtain hown | hgone | ⟨row, hrow, _⟩ := hseen id List.mem_cons_self
        · exact .inl hown
        · exact .inr (.inl hgone)
        · exact .inr (.inr ⟨⟨row, hrow⟩, .inl ⟨hlockless, request, hprogress.asked, hentry⟩⟩)
      · rw [hprogress.asked]
        exact hdeletes id hdelete
    · cases hids
  have hreads : Reads _ (.select (S := database) T p) := trivial
  apply Discipline.Careful.exec InProgress.calm_lockless.stable h
    (K := fun rows w => J (rows.map (·.1)) [] w)
  · exact fun _ _ => hreads.goesInTurn
  · intro w choice rows w' h hsound hinv hexec
    have hcalm : Calm context t fun w => InProgress request t w ∧ Lockless t w :=
      InProgress.calm_lockless
    obtain ⟨hprogress, hlockless⟩ := hcalm.reads hreads hsound h hexec
    refine ⟨hreads.keeps hsound hinv hexec, hprogress,
      .inl ⟨?_, rfl, hlockless, fun id hid => ?_⟩⟩
    · rw [List.length_map]
      exact hone hinv hexec
    · obtain ⟨e, he, rfl⟩ := List.mem_map.mp hid
      obtain ⟨_, hview, hp⟩ := ((exec_select hexec).2.2 e.1 e.2).mp he
      exact (seen_of_view hview (hP e.1 e.2 hp)).exec hsound hreads.kind hexec
  · intro rows w h
    refine (Discipline.Careful.lockEach hstable (fun h _ => hgoes h) ?_ [] h).mono ?_
    · intro id ids rows w choice found w' h hsound hinv hexec
      have hkind : (Op.lock (S := database) T id (p id) f).kind ≠ .commit := nofun
      have hdurable : (lockOrder context).Durable t (InProgress request t) := InProgress.durable
      refine ⟨keeps_of_orderly (hf id).orderly hkind hsound hinv (hgoes h) hexec,
        hdurable.exec hkind hsound h.1 hexec, ?_⟩
      obtain ⟨hlength, rfl, hlockless, hseen⟩ | ⟨hids, _⟩ := h.2
      · obtain rfl : ids = [] := List.eq_nil_of_length_eq_zero (by simpa using hlength)
        refine .inr ⟨rfl, fun e he => ?_, ?_⟩
        · obtain ⟨row, rfl, rfl⟩ : ∃ row, found = some row ∧ e = (id, row) := by
            cases found with
            | none => cases he
            | some row => exact ⟨row, rfl, List.mem_singleton.mp he⟩
          obtain ⟨hheld, hview, hp⟩ := heldBy_of_lock hexec
          refine ⟨hheld, ?_, hp⟩
          rw [Op.exec_committed hkind hexec, ← Slot.view_eq_committed (hlockless T id), hview]
        · -- the row is locked even if it does not match any more
          obtain ⟨_, ⟨_, _, rfl⟩ | ⟨row, hview, _⟩⟩ := exec_lock hexec
          · exact .inl hlockless
          · have hcommitted := (Slot.view_eq_committed (hlockless T id)).symm.trans hview
            refine .inr ⟨id, row, (Op.exec_committed hkind hexec T id).trans hcommitted,
              heldBy_of_view hview hexec, ?_⟩
            obtain hown | hgone | ⟨row', hrow', hP⟩ := hseen id List.mem_cons_self
            · exact absurd hown (hlockless T id)
            · rw [hgone.2] at hcommitted
              cases hcommitted
            · cases hcommitted.symm.trans hrow'
              exact hP
      · cases hids
    · rintro r w ⟨more, rfl, hprogress, ⟨_, hnil, hlockless, _⟩ | ⟨_, hfound, h⟩⟩
      · obtain rfl : more = [] := hnil
        exact ⟨[], rfl, hprogress, nofun, .inl hlockless⟩
      · exact ⟨more, rfl, hprogress, hfound, h⟩

/-- `with_for_update` on the first row. -/
theorem inTurn_scalarForUpdate {p : Nat → database.Row T → Bool} (hentry : request.entry = some T)
    (hone : ∀ {w choice rows w'}, LocksInOrder context w →
      (Op.select T p).exec t choice w = some (rows, w') → rows.length ≤ 1)
    (h : InProgress request t w ∧ Lockless t w) :
    InTurn context t (fun r w => ∃ found, r = .ok found ∧ InProgress request t w
        ∧ Found p found.toList t w) (Prog.scalarForUpdate T p) w := by
  refine (inTurn_enter (P := fun _ => True) hentry hone (fun _ _ _ => trivial)
    (fun _ => plain_keep _) (by rintro _ ⟨_, _, ⟨⟩⟩) h).bind ?_ ?_
  · rintro rows w ⟨_, ⟨⟩, hprogress, hfound, _⟩
    refine ⟨rows.head?, rfl, hprogress, fun e he => hfound e ?_⟩
    exact List.mem_of_mem_head? (Option.mem_toList.mp he)
  · rintro _ w ⟨rows, ⟨⟩, _⟩

/-! ### What leads to one row -/

/-- A hash leads to one reset token, and so does a user. -/
theorem token_selects_one {p : Nat → UserToken → Bool} {rows : List (Nat × UserToken)}
    (hp : ∀ id token id' token', p id token = true → p id' token' = true →
      database.clash (tokenTable .passwordReset) token token' = true)
    (h : LocksInOrder context w)
    (hexec : (Op.select (tokenTable .passwordReset) p).exec t choice w = some (rows, w')) :
    rows.length ≤ 1 := by
  apply exec_select_length_le_one hexec
  intro e he e' he'
  obtain ⟨_, hview, hmatch⟩ := ((exec_select hexec).2.2 e.1 e.2).mp he
  obtain ⟨_, hview', hmatch'⟩ := ((exec_select hexec).2.2 e'.1 e'.2).mp he'
  by_contra hne
  have hapart := h.unique.seen t e.1 e'.1 e.2 e'.2 hne hview hview'
  cases (hp _ _ _ _ hmatch hmatch').symm.trans hapart

theorem clash_of_userId {userId : Nat} {token token' : UserToken}
    (h : (token.userId == userId) = true) (h' : (token'.userId == userId) = true) :
    database.clash (tokenTable .passwordReset) token token' = true := by
  have heq : token.userId = token'.userId := (beq_iff_eq.mp h).trans (beq_iff_eq.mp h').symm
  change (token.userId == token'.userId || token.tokenHash == token'.tokenHash) = true
  rw [heq, beq_self_eq_true, Bool.true_or]

theorem clash_of_tokenHash {hash : String} {token token' : UserToken}
    (h : (token.tokenHash == hash) = true) (h' : (token'.tokenHash == hash) = true) :
    database.clash (tokenTable .passwordReset) token token' = true := by
  have heq : token.tokenHash = token'.tokenHash :=
    (beq_iff_eq.mp h).trans (beq_iff_eq.mp h').symm
  change (token.userId == token'.userId || token.tokenHash == token'.tokenHash) = true
  rw [heq, beq_self_eq_true, Bool.or_true]

theorem user_selects_one {userId : Nat} {rows : List (Nat × User)}
    (hexec : (Op.select userTable fun id _ => id == userId).exec t choice w = some (rows, w')) :
    rows.length ≤ 1 := by
  apply exec_select_length_le_one hexec
  intro e he e' he'
  have hid := ((exec_select hexec).2.2 e.1 e.2).mp he
  have hid' := ((exec_select hexec).2.2 e'.1 e'.2).mp he'
  exact (beq_iff_eq.mp hid.2.2).trans (beq_iff_eq.mp hid'.2.2).symm

/-! ### Requests -/

theorem InProgress.draw {next : String → Db α} (hJ : Calm context t J)
    (hnext : ∀ raw w, Carrying context raw t w ∧ J w → InTurn context t Q (next raw) w)
    (h : InProgress request t w ∧ J w) : InTurn context t Q (.exec .draw next) w := by
  have hreads : Reads _ (.draw (S := database)) := trivial
  apply Discipline.Careful.exec ((calm_of_durable InProgress.durable).and hJ).stable h
    (K := fun raw w => Carrying context raw t w ∧ J w)
  · exact fun _ _ => hreads.goesInTurn
  · intro w choice raw w' h hsound hinv hexec
    refine ⟨hreads.keeps hsound hinv hexec, ?_, hJ.reads hreads hsound h.2 hexec⟩
    obtain ⟨hundrawn, rfl⟩ := exec_draw hexec
    have hunused : Unused sessionKey context.crypto.sha256 raw w :=
      hinv.keyed.unused_of_undrawn context.crypto.sha256_injective hundrawn
    exact ⟨h.1.uncommitted, List.mem_cons_self, hunused⟩
  · exact hnext

theorem InProgress.insert {row : Nat → database.Row T} {next : Option Nat → Db α}
    (hstable : (lockOrder context).Stable t J)
    (hop : ∀ {w}, J w → Orderly context t w (.insert (S := database) T row))
    (hrefers : ∀ {w}, InProgress request t w → J w → ∀ ref ∈ references T (row (w.next T)),
      RefersInTurn t w ref)
    (hnext : ∀ found w, InProgress request t w → (∀ id, found = some id → (w.slot T id).HeldBy t) →
      InTurn context t Q (next found) w) (h : InProgress request t w) (hJ : J w) :
    InTurn context t Q (.exec (.insert T row) next) w := by
  have hgoes : ∀ {w}, InProgress request t w ∧ J w →
      GoesInTurn t w _ (.insert (S := database) T row) := fun h =>
    ⟨nofun, hrefers h.1 h.2, False.elim⟩
  refine Discipline.Careful.exec (J := fun w => InProgress request t w ∧ J w)
    (fun h hw => ⟨InProgress.durable.stable h.1 hw, hstable h.2 hw⟩) ⟨h, hJ⟩
    (K := fun found w => InProgress request t w ∧ ∀ id, found = some id → (w.slot T id).HeldBy t)
    (fun h _ => hgoes h) ?_ fun found w h => hnext found w h.1 h.2
  intro w choice found w' h hsound hinv hexec
  have hkind : (Op.insert (S := database) T row).kind ≠ .commit := nofun
  have hdurable : (lockOrder context).Durable t (InProgress request t) := InProgress.durable
  refine ⟨keeps_of_orderly (hop h.2) hkind hsound hinv (hgoes h) hexec,
    hdurable.exec hkind hsound h.1 hexec, ?_⟩
  rintro id rfl
  obtain ⟨_, ⟨_, hnone, _⟩ | ⟨_, hid, rfl⟩⟩ := exec_insert hexec
  · cases hnone
  · cases hid
    exact w.allocate_heldBy (row (w.next T))

theorem reads_authResponse (userId : Nat) (user : User) (refreshToken : String) :
    (authResponse context userId user refreshToken).All Reads :=
  ⟨trivial, fun _ => ⟨trivial, fun _ => trivial⟩⟩

theorem inTurn_authResponse (userId : Nat) (user : User) (refreshToken : String) :
    InTurn context t (fun _ _ => True) (authResponse context userId user refreshToken) w :=
  (calm_of_durable durable_true).all (reads_authResponse userId user refreshToken) trivial

theorem InProgress.login {email password : String} (hbrief : request.brief = true)
    (h : InProgress request t w ∧ Lockless t w) :
    InTurn context t (fun _ _ => True) (login context email password) w := by
  refine InProgress.calm_lockless.read trivial (fun startedAt w h => ?_) h
  refine InProgress.calm_lockless.read trivial (fun rows w h => ?_) h
  change InTurn context t _
    ((checkCredentials context password rows.head?).bind (openSession context startedAt)) w
  obtain ⟨error, hraise⟩ | ⟨userId, user, _, _, hpure⟩ :=
    checkCredentials_cases context password rows.head?
  · rw [hraise]
    trivial
  · rw [hpure]
    refine InProgress.draw InProgress.calm_lockless (fun raw w h => ?_) ⟨h.1, h⟩
    refine (Carrying.calm.and InProgress.calm_lockless).read trivial (fun now w h => ?_) h
    refine InProgress.insert (T := sessionTable) (J := fun w => Carrying context raw t w
        ∧ Lockless t w) (Carrying.calm.and Lockless.calm).stable (fun h => ?_)
      (fun hprogress h ref href => ?_) (fun found w _ _ => ?_) h.2.1 ⟨h.1, h.2.2⟩
    · exact
        { users := nofun
          tokens := nofun
          sessions := fun _ _ => ⟨h.1.uncommitted, raw, h.1.drawn, h.1.unused, rfl⟩
          references := fun _ hT _ => by cases hT; exact le_rfl }
    · obtain rfl := List.mem_singleton.mp href
      exact ⟨by rw [hprogress.asked]; exact hbrief, .inr ⟨rfl, .inl h.2⟩⟩
    · cases found with
      | none => trivial
      | some id => exact inTurn_commit fun _ => inTurn_authResponse _ _ _

theorem inTurn_getSession {hash : String} (hentry : request.entry = some .refreshTokenSessions)
    (h : InProgress request t w ∧ Lockless t w) :
    InTurn context t (fun r w => ∃ found, r = .ok found ∧ InProgress request t w
        ∧ Found (T := sessionTable) (fun _ (session : RefreshTokenSession) =>
          session.tokenHash == hash) found.toList t w)
      (RefreshSessions.getForUpdate hash) w :=
  inTurn_scalarForUpdate (T := sessionTable) hentry (fun hinv => hinv.keyed.selects_one) h

theorem inTurn_getToken {hash : String} (hentry : request.entry = some (.tokens .passwordReset))
    (h : InProgress request t w ∧ Lockless t w) :
    InTurn context t (fun r w => ∃ found, r = .ok found ∧ InProgress request t w
        ∧ Found (T := tokenTable .passwordReset) (fun _ (token : UserToken) =>
          token.tokenHash == hash) found.toList t w)
      (UserTokens.getForUpdate .passwordReset hash) w :=
  inTurn_scalarForUpdate (T := tokenTable .passwordReset) hentry
    (fun hinv => token_selects_one (fun _ _ _ _ => clash_of_tokenHash) hinv) h

theorem holdsAll_of_found {p : Nat → database.Row T → Bool} {rows : List (Nat × database.Row T)}
    (h : Found p rows t w) : HoldsAll ((rows.map (·.1)).map (T, ·)) t w := by
  intro row hrow
  rw [List.map_map] at hrow
  obtain ⟨e, he, rfl⟩ := List.mem_map.mp hrow
  exact (h e he).1

theorem inTurn_own {p : Nat → database.Row T → Bool} {e : Nat × database.Row T}
    (h : Found p [e] t w) : LocksInTurn t w (T, e.1) :=
  .inl (h e (List.mem_singleton_self e)).1

/-- The new token of a session goes under the lock that found it. -/
theorem inTurn_rotate {p : Nat → RefreshTokenSession → Bool} {session : RefreshTokenSession}
    {raw : String} {expiresAt now : Int}
    (h : Carrying context raw t w ∧ Found (T := sessionTable) p [(id, session)] t w) :
    InTurn context t (fun _ _ => True)
      (updateRow .refreshTokenSessions id
        (RefreshSessions.rotate (hashRefreshToken context.crypto raw) expiresAt now)) w := by
  have hcalm : Calm context t fun w =>
      Carrying context raw t w ∧ Found (T := sessionTable) p [(id, session)] t w :=
    Carrying.calm.and (calm_of_durable Found.durable)
  refine inTurn_lock (T := sessionTable) hcalm.stable (fun h _ => inTurn_own h.2)
    (by rintro ⟨⟨⟩, _⟩) (fun h => ?_)
    (K := fun _ _ => True) (fun _ _ _ => trivial) (fun found w _ => ?_) h
  · constructor
    · exact nofun
    · exact nofun
    · intro hT row
      refine ⟨fun _ session' heq => .inr ?_, nofun⟩
      cases heq
      exact ⟨h.1.uncommitted, raw, h.1.drawn, h.1.unused, rfl⟩
    · intro _ hT row
      cases hT
      refine ⟨fun _ session' heq => ?_, nofun⟩
      cases heq
      rfl
  · cases found <;> trivial

/-! ### The user -/

theorem calm_user {userId : Nat} (hJ : Calm context t J) :
    Calm context t fun w => J w ∧ Seen references (fun _ => True) t userTable userId w :=
  hJ.and (calm_of_durable durable_seen)

/-- The row of a user, if there is one. -/
theorem Calm.get {userId : Nat} {next : Option (Nat × User) → Db α} (hJ : Calm context t J)
    (hnone : ∀ w, J w → InTurn context t Q (next none) w)
    (hsome : ∀ user w, J w ∧ Seen references (fun _ => True) t userTable userId w →
      InTurn context t Q (next (some (userId, user))) w) (h : J w) :
    InTurn context t Q (Users.get userId >>= next) w := by
  have hreads : Reads _ (.select (S := database) userTable fun id _ => id == userId) := trivial
  apply Discipline.Careful.exec hJ.stable h
    (K := fun rows w => J w ∧ ∀ e ∈ rows, e.1 = userId
      ∧ Seen references (fun _ => True) t userTable userId w)
  · exact fun _ _ => hreads.goesInTurn
  · intro w choice rows w' h hsound hinv hexec
    refine ⟨hreads.keeps hsound hinv hexec, hJ.reads hreads hsound h hexec, fun e he => ?_⟩
    obtain ⟨_, hview, hp⟩ := ((exec_select hexec).2.2 e.1 e.2).mp he
    obtain rfl := beq_iff_eq.mp hp
    exact ⟨rfl, (seen_of_view hview trivial).exec hsound hreads.kind hexec⟩
  · rintro rows w ⟨h, hrows⟩
    cases rows with
    | nil => exact hnone w h
    | cons e rest =>
        obtain ⟨id, user⟩ := e
        obtain ⟨rfl, hseen⟩ := hrows (id, user) List.mem_cons_self
        exact hsome user w ⟨h, hseen⟩

theorem InProgress.calm_found {p : Nat → database.Row T → Bool}
    {rows : List (Nat × database.Row T)} :
    Calm context t fun w => InProgress request t w ∧ Found p rows t w :=
  (calm_of_durable InProgress.durable).and (calm_of_durable Found.durable)

theorem InProgress.refresh {raw : String} (hentry : request.entry = some .refreshTokenSessions)
    (h : InProgress request t w ∧ Lockless t w) :
    InTurn context t (fun _ _ => True) (refresh context raw) w := by
  refine (inTurn_getSession hentry h).bind ?_ fun _ _ _ => trivial
  rintro found w ⟨_, ⟨⟩, h⟩
  cases found with
  | none => trivial
  | some found =>
      obtain ⟨sessionId, stored⟩ := found
      refine InProgress.calm_found.read trivial (fun now w h => ?_) h
      simp only [Prog.pure_bind]
      split
      · trivial
      · refine InProgress.calm_found.get (fun _ _ => trivial) (fun user w h => ?_) h
        dsimp only
        split
        · trivial
        · refine InProgress.draw (calm_of_durable Found.durable) (fun raw w h => ?_) h.1
          refine (inTurn_rotate h).bind ?_ fun _ _ _ => trivial
          exact fun _ w _ => inTurn_commit fun _ => inTurn_authResponse _ _ _

theorem InProgress.logout {raw : String} (hentry : request.entry = some .refreshTokenSessions)
    (h : InProgress request t w ∧ Lockless t w) :
    InTurn context t (fun _ _ => True) (logout context raw) w := by
  have hcommit : ∀ w, InTurn context t (fun _ _ => True) (Prog.commit : Db Unit) w :=
    fun w => inTurn_commit fun _ => trivial
  refine (inTurn_getSession hentry h).bind ?_ fun _ _ _ => trivial
  rintro found w ⟨_, ⟨⟩, h⟩
  cases found with
  | none => exact hcommit w
  | some found =>
      obtain ⟨sessionId, stored⟩ := found
      dsimp only
      split
      · exact hcommit w
      · refine InProgress.calm_found.read trivial (fun now w h => ?_) h
        change InTurn context t _
          ((updateRow .refreshTokenSessions sessionId (RefreshSessions.revoke now)).bind
            fun _ => Prog.commit) w
        refine Discipline.Careful.bind (Q := fun _ _ => True) ?_ (fun _ w _ => hcommit w)
          fun _ _ _ => trivial
        refine inTurn_lock (T := sessionTable) InProgress.calm_found.stable
          (fun h _ => inTurn_own h.2) (by rintro ⟨⟨⟩, _⟩) (fun _ => (plain_revoke _ now).orderly)
          (K := fun _ _ => True) (fun _ _ _ => trivial) (fun found w _ => ?_) h
        cases found <;> trivial

theorem InProgress.resetPassword {raw newPassword : String}
    (hentry : request.entry = some (.tokens .passwordReset)) (hresets : request.resets = true)
    (h : InProgress request t w ∧ Lockless t w) :
    InTurn context t (fun _ _ => True) (resetPassword context raw newPassword) w := by
  refine InProgress.calm_lockless.read trivial (fun startedAt w h => ?_) h
  refine (inTurn_getToken hentry h).bind ?_ fun _ _ _ => trivial
  rintro found w ⟨_, ⟨⟩, h⟩
  cases found with
  | none => trivial
  | some found =>
      obtain ⟨tokenId, token⟩ := found
      refine InProgress.calm_found.read trivial (fun now w h => ?_) h
      simp only [Prog.pure_bind]
      split
      · trivial
      · refine InProgress.calm_found.get (fun _ _ => trivial) (fun user w h => ?_) h
        refine (calm_user InProgress.calm_found).read trivial (fun salt w h => ?_) h
        change InTurn context t _
          ((Prog.ofExcept (hashPassword context.crypto newPassword salt)).bind
            fun passwordHash => storePassword token.userId passwordHash now startedAt) w
        cases hashPassword context.crypto newPassword salt with
        | error error => trivial
        | ok passwordHash =>
            refine inTurn_storePassword (calm_user InProgress.calm_found).stable ?_ h
            rintro w ⟨⟨hprogress, hfound⟩, hown | hgone | ⟨user, huser, _⟩⟩ _
            · exact .inl hown
            · exact .inr (.inl hgone)
            · obtain ⟨hheld, hcommitted, _⟩ := hfound _ (List.mem_singleton_self _)
              have hclimbs : Climbs t w userTable token.userId :=
                ⟨rfl, by rw [hprogress.asked]; exact hresets, tokenId, token, hcommitted, hheld, rfl⟩
              exact .inr (.inr ⟨⟨user, huser⟩, .inr (.inr hclimbs)⟩)

/-- What is known of the bearer of an access token. -/
theorem InProgress.getCurrentUser {credentials : Option String}
    (h : InProgress request t w ∧ Lockless t w) :
    InTurn context t (fun r w => ∀ current, r = .ok current →
        (InProgress request t w ∧ Lockless t w)
          ∧ Seen references (fun _ => True) t userTable current.2.1 w)
      (getCurrentUser context credentials) w := by
  have hraise : ∀ {F : Int × Nat × User → CredentialWorld → Prop} {w : CredentialWorld},
      InTurn context t (fun r w => ∀ current, r = .ok current → F current w)
        (.raise unauthorized) w := fun _ hcurrent => nomatch hcurrent
  unfold EventsApi.getCurrentUser
  split
  · exact hraise
  · refine InProgress.calm_lockless.read trivial (fun checkedAt w h => ?_) h
    simp only [Prog.pure_bind]
    split
    · exact hraise
    · refine InProgress.calm_lockless.read trivial (fun startedAt w h => ?_) h
      simp only [Prog.pure_bind]
      refine InProgress.calm_lockless.get (fun w _ => hraise) (fun user w h => ?_) h
      dsimp only
      split
      · exact hraise
      · exact fun _ hcurrent => by
          cases hcurrent
          exact h

theorem InProgress.changePassword {credentials : Option String}
    {currentPassword newPassword : String} (hentry : request.entry = some .users)
    (h : InProgress request t w ∧ Lockless t w) :
    InTurn context t (fun _ _ => True)
      (changePassword context credentials currentPassword newPassword) w := by
  refine (InProgress.getCurrentUser h).bind ?_ fun _ _ _ => trivial
  rintro ⟨startedAt, userId, user⟩ w h
  have h := h _ rfl
  dsimp only
  change InTurn context t _
    ((Prog.ofExcept (verifyPassword context.crypto currentPassword user.passwordHash)).bind _) w
  cases verifyPassword context.crypto currentPassword user.passwordHash with
  | error error => trivial
  | ok same =>
      cases same with
      | false => trivial
      | true =>
          change InTurn context t _
            ((Prog.ofExcept (verifyPassword context.crypto newPassword user.passwordHash)).bind _) w
          cases verifyPassword context.crypto newPassword user.passwordHash with
          | error error => trivial
          | ok reused =>
              cases reused with
              | true => trivial
              | false =>
                  have hcalm : Calm context t fun w => (InProgress request t w ∧ Lockless t w)
                      ∧ Seen references (fun _ => True) t userTable userId w :=
                    calm_user InProgress.calm_lockless
                  refine hcalm.read trivial (fun now w h => ?_) h
                  refine hcalm.read trivial (fun salt w h => ?_) h
                  change InTurn context t _
                    ((Prog.ofExcept (hashPassword context.crypto newPassword salt)).bind _) w
                  cases hashPassword context.crypto newPassword salt with
                  | error error => trivial
                  | ok passwordHash =>
                      refine inTurn_storePassword hcalm.stable ?_ h
                      rintro w ⟨⟨hprogress, hlockless⟩, hown | hgone | ⟨user, huser, _⟩⟩ _
                      · exact .inl hown
                      · exact .inr (.inl hgone)
                      · exact .inr (.inr ⟨⟨user, huser⟩,
                          .inl ⟨hlockless, request, hprogress.asked, hentry⟩⟩)

theorem InProgress.deleteAccount {credentials : Option String} {password : String}
    (hentry : request.entry = some .users) (hdeletes : request.deletes = true)
    (h : InProgress request t w ∧ Lockless t w) :
    InTurn context t (fun _ _ => True) (deleteAccount context credentials password) w := by
  refine (InProgress.getCurrentUser h).bind ?_ fun _ _ _ => trivial
  rintro ⟨startedAt, userId, user⟩ w h
  obtain ⟨h, _⟩ := h _ rfl
  change InTurn context t _
    ((Prog.ofExcept (verifyPassword context.crypto password user.passwordHash)).bind _) w
  cases verifyPassword context.crypto password user.passwordHash with
  | error error => trivial
  | ok same =>
      cases same with
      | false => trivial
      | true =>
          refine (inTurn_enter (T := userTable) (P := fun _ => True) hentry
            (fun _ hexec => user_selects_one hexec) (fun _ _ _ => trivial)
            (fun _ => plain_delete _) (fun _ _ => hdeletes) h).bind ?_ fun _ _ _ => trivial
          rintro rows w ⟨_, ⟨⟩, _, hfound, _⟩
          refine (inTurn_deleteOwned (holdsAll_of_found hfound)).bind ?_ fun _ _ _ => trivial
          exact fun _ w _ => inTurn_commit fun _ => trivial

theorem InProgress.enqueueJob {message : EmailMessage} {now : Int} {tokenId : Nat}
    (hbrief : request.brief = true) (h : InProgress request t w)
    (htoken : (w.slot (tokenTable .passwordReset) tokenId).HeldBy t) :
    InTurn context t (fun _ _ => True)
      (EmailOutbox.enqueueJob message now none (some tokenId)) w := by
  unfold EmailOutbox.enqueueJob
  cases message.idempotencyKey with
  | none => trivial
  | some key =>
      have hholds : HoldsAll [(tokenTable .passwordReset, tokenId)] t w := by
        intro row hrow
        obtain rfl := List.mem_singleton.mp hrow
        exact htoken
      refine h.insert (T := jobTable) HoldsAll.durable.stable
        (fun _ => (plain_insertJob fun _ => le_rfl).orderly) (fun hprogress h ref href => ?_)
        (fun found w _ _ => ?_) hholds
      · exact ⟨by rw [hprogress.asked]; exact hbrief, .inl (h ref href)⟩
      · cases found <;> trivial

/-- A request for a token deletes the old one, if there is one, and holds no row otherwise. -/
theorem inTurn_deleteOld (userId : Nat) (hentry : request.entry = some (.tokens .passwordReset))
    (h : InProgress request t w ∧ Lockless t w) :
    InTurn context t
      (fun _ w => InProgress request t w ∧ (Lockless t w ∨ HoldsTokenOf userId t w))
      (UserTokens.deleteForUser .passwordReset userId) w := by
  have huser : ∀ (id : Nat) (token : UserToken), (token.userId == userId) = true →
      (userTable, userId) ∈ references (tokenTable .passwordReset) token := by
    intro id token hp
    obtain rfl := beq_iff_eq.mp hp
    exact List.mem_singleton_self _
  have hdeletes : ∀ id, ¬ (Op.lock (S := database) (tokenTable .passwordReset) id
      (fun (token : UserToken) => token.userId == userId) fun _ => none).Deletes userTable := by
    rintro _ ⟨⟨⟩, _⟩
  refine (inTurn_enter (T := tokenTable .passwordReset) (P := ((userTable, userId) ∈ ·)) hentry
    (fun hinv => token_selects_one (fun _ _ _ _ => clash_of_userId) hinv) huser
    (fun _ => plain_delete _) (fun id h => absurd h (hdeletes id)) h).bind ?_ ?_
  · rintro rows w ⟨_, ⟨⟩, hprogress, hfound, hentered⟩
    cases rows with
    | nil =>
        refine ⟨hprogress, hentered.imp_right ?_⟩
        rintro ⟨tokenId, token, hcommitted, hheld, huser⟩
        exact ⟨tokenId, token, hcommitted, hheld,
          (Prod.mk.inj (List.mem_singleton.mp huser)).2.symm⟩
    | cons e rows =>
        obtain ⟨hheld, hcommitted, hp⟩ := hfound e List.mem_cons_self
        have hholds : HoldsTokenOf userId t w :=
          ⟨e.1, e.2, hcommitted, hheld, beq_iff_eq.mp hp⟩
        refine ((inTurn_deleteLinkedJobs .passwordReset (holdsAll_of_found hfound)).frame
          (InProgress.durable.and HoldsTokenOf.durable)
          (ordinary_uncommitting.modest.deleteLinkedJobs .passwordReset _)
          ⟨hprogress, hholds⟩).mono ?_
        exact fun _ _ h => ⟨h.2.1, .inr h.2.2⟩
  · rintro _ w ⟨rows, ⟨⟩, _⟩

theorem inTurn_replace {email : String} {userId : Nat} {tokenHash : String}
    {expiresAt startedAt : Int} (hrequest : request = .forgotPassword email)
    (h : InProgress request t w ∧ Lockless t w) :
    InTurn context t
      (fun r w => ∀ tokenId, r = .ok tokenId → InProgress request t w
        ∧ (w.slot (tokenTable .passwordReset) tokenId).HeldBy t)
      (UserTokens.replace .passwordReset userId tokenHash expiresAt startedAt) w := by
  refine (inTurn_deleteOld userId (by rw [hrequest]; rfl) h).bind
    (fun _ w h => ?_) fun _ _ _ => nofun
  have hstable : (lockOrder context).Stable t
      fun w => Lockless t w ∨ HoldsTokenOf userId t w := fun h hw =>
    h.imp (fun h => Lockless.calm.stable h hw) fun h => HoldsTokenOf.durable.stable h hw
  refine h.1.insert (T := tokenTable .passwordReset) hstable
    (fun _ => (plain_insertToken .passwordReset _).orderly) (fun hprogress h ref href => ?_)
    (fun found w hprogress hheld => ?_) h.2
  · obtain rfl := List.mem_singleton.mp href
    refine ⟨by rw [hprogress.asked, hrequest]; rfl, .inr ⟨rfl, h.imp_right fun h => ⟨h, email, ?_⟩⟩⟩
    rw [hprogress.asked, hrequest]
  · cases found with
    | none => exact nofun
    | some tokenId =>
        rintro _ ⟨⟩
        exact ⟨hprogress, hheld tokenId rfl⟩

theorem InProgress.forgotPassword {email : String} (hrequest : request = .forgotPassword email)
    (h : InProgress request t w ∧ Lockless t w) :
    InTurn context t (fun _ _ => True) (forgotPassword context email) w := by
  refine InProgress.calm_lockless.read trivial (fun startedAt w h => ?_) h
  simp only [Prog.pure_bind]
  refine InProgress.calm_lockless.scalar (T := userTable) (fun found w h => ?_) h
  split
  · trivial
  · split
    · trivial
    · refine InProgress.calm_lockless.read trivial (fun now w h => ?_) h
      simp only [Prog.pure_bind]
      refine InProgress.calm_lockless.scalar (T := tokenTable .passwordReset)
        (fun existing w h => ?_) h
      split
      · trivial
      · refine InProgress.calm_lockless.read trivial (fun rawToken w h => ?_) h
        refine (inTurn_replace hrequest h).bind (fun tokenId w h => ?_) fun _ _ _ => trivial
        obtain ⟨hprogress, hheld⟩ := h tokenId rfl
        refine (hprogress.enqueueJob (by rw [hrequest]; rfl) hheld).bind (fun _ w _ => ?_)
          fun _ _ _ => trivial
        exact inTurn_commit fun _ => trivial

theorem InProgress.handler (h : InProgress request t w ∧ Lockless t w) :
    InTurn context t (fun _ _ => True) (request.handler context) w := by
  have hanswer : ∀ {α : Type} {p : Db α} {f : α → CredentialReply},
      InTurn context t (fun _ _ => True) p w →
      InTurn context t (fun _ _ => True) (p.bind fun answer => .pure (f answer)) w :=
    fun hp => hp.bind (fun _ _ _ => trivial) fun _ _ _ => trivial
  cases request with
  | login email password => exact hanswer (InProgress.login rfl h)
  | refresh refreshToken => exact hanswer (InProgress.refresh rfl h)
  | logout refreshToken => exact hanswer (InProgress.logout rfl h)
  | forgotPassword email => exact hanswer (InProgress.forgotPassword rfl h)
  | resetPassword token newPassword => exact hanswer (InProgress.resetPassword rfl rfl h)
  | changePassword credentials currentPassword newPassword =>
      exact hanswer (InProgress.changePassword rfl h)
  | deleteAccount credentials password => exact hanswer (InProgress.deleteAccount rfl rfl h)

/-! ### Who waits for whom -/

/-- A change of the password, or the deletion of an account. -/
def CredentialRequest.locksUserFirst : CredentialRequest → Bool
  | .changePassword .. | .deleteAccount .. => true
  | _ => false

/-- The first request holds a reset token and goes on to its user, by a lock or by a reference, and
the second one holds the user and goes on to the token. -/
def CredentialRequest.crosses : CredentialRequest → CredentialRequest → Bool
  | .resetPassword .., .changePassword .. | .resetPassword .., .deleteAccount ..
  | .forgotPassword _, .deleteAccount .. => true
  | _, _ => false

def Crosses (w : CredentialWorld) (t u : Txn) : Prop :=
  ∃ request ∈ w.request t, ∃ request' ∈ w.request u, request.crosses request' = true

instance (w : CredentialWorld) (t u : Txn) : Decidable (Crosses w t u) :=
  inferInstanceAs (Decidable (∃ request ∈ w.request t, ∃ request' ∈ w.request u,
    request.crosses request' = true))

/-- A user is locked while a request that crosses this one holds a token of theirs, or a token while
such a request holds its user. -/
def LocksAcross (t : Txn) (w : CredentialWorld) : database.Table × Nat → Prop
  | (.users, userId) => ∃ tokenId < w.next (tokenTable .passwordReset),
      ∃ token ∈ (w.slot (tokenTable .passwordReset) tokenId).committed,
        (token : UserToken).userId = userId
          ∧ ∃ holder ∈ (w.slot (tokenTable .passwordReset) tokenId).held, Crosses w holder.1 t
  | (.tokens .passwordReset, tokenId) =>
      ∃ token ∈ (w.slot (tokenTable .passwordReset) tokenId).committed,
        ∃ holder ∈ (w.slot userTable (token : UserToken).userId).held, Crosses w t holder.1
  | _ => False

instance (t : Txn) (w : CredentialWorld) (row : database.Table × Nat) :
    Decidable (LocksAcross t w row) :=
  match row with
  | (.users, userId) => inferInstanceAs (Decidable (∃ tokenId < w.next (tokenTable .passwordReset),
      ∃ token ∈ (w.slot (tokenTable .passwordReset) tokenId).committed,
        (token : UserToken).userId = userId
          ∧ ∃ holder ∈ (w.slot (tokenTable .passwordReset) tokenId).held, Crosses w holder.1 t))
  | (.tokens .passwordReset, tokenId) => inferInstanceAs (Decidable
      (∃ token ∈ (w.slot (tokenTable .passwordReset) tokenId).committed,
        ∃ holder ∈ (w.slot userTable (token : UserToken).userId).held, Crosses w t holder.1))
  | (.tokens .confirmation, _) => .isFalse fun h => h
  | (.refreshTokenSessions, _) => .isFalse fun h => h
  | (.emailOutboxJobs, _) => .isFalse fun h => h

/-- The side condition on steps: no row is locked across. -/
def LocksApart (c : CredentialConfig) : Label CredentialRequest → Prop
  | .exec t _ => ∀ row ∈ c.wants t, ¬ LocksAcross t c.world row
  | _ => True

instance (c : CredentialConfig) (l : Label CredentialRequest) : Decidable (LocksApart c l) :=
  match l with
  | .exec t _ => inferInstanceAs (Decidable (∀ row ∈ c.wants t, ¬ LocksAcross t c.world row))
  | .spawn .. => .isTrue trivial
  | .close _ => .isTrue trivial
  | .crash _ => .isTrue trivial
  | .tick _ => .isTrue trivial

/-- A transaction holds a reset token, another one its user, and the two requests cross. -/
def LockedAcross (w : CredentialWorld) : Prop :=
  ∃ t u tokenId, ∃ token : UserToken,
    (w.slot (tokenTable .passwordReset) tokenId).committed = some token
      ∧ (w.slot (tokenTable .passwordReset) tokenId).HeldBy t
      ∧ (w.slot userTable token.userId).HeldBy u ∧ Crosses w t u

theorem not_crosses_self : ¬ Crosses w t t := by
  rintro ⟨request, hrequest, request', hrequest', hcrosses⟩
  cases hrequest.symm.trans hrequest'
  cases request <;> cases hcrosses

theorem crosses_of_resets (hresets : (w.request t).any (·.resets) = true)
    (hfirst : (w.request u).any (·.locksUserFirst) = true) : Crosses w t u := by
  obtain ⟨request, hrequest, hresets⟩ := (Option.any_eq_true _ _).mp hresets
  obtain ⟨request', hrequest', hfirst⟩ := (Option.any_eq_true _ _).mp hfirst
  refine ⟨request, hrequest, request', hrequest', ?_⟩
  cases request with
  | resetPassword =>
      cases request' with
      | changePassword | deleteAccount => rfl
      | login | refresh | logout | forgotPassword | resetPassword => cases hfirst
  | login | refresh | logout | forgotPassword | changePassword | deleteAccount => cases hresets

theorem crosses_of_deletes {email : String} (hrequest : w.request t = some (.forgotPassword email))
    (hdeletes : (w.request u).any (·.deletes) = true) : Crosses w t u := by
  obtain ⟨request', hrequest', hdeletes⟩ := (Option.any_eq_true _ _).mp hdeletes
  refine ⟨_, hrequest, request', hrequest', ?_⟩
  cases request' with
  | deleteAccount => rfl
  | login | refresh | logout | forgotPassword | resetPassword | changePassword => cases hdeletes

theorem not_lockedAcross_of_exec (h : ¬ LockedAcross w) (hsound : w.Sound)
    (hinv : LocksInOrder context w')
    (hapart : ∀ row, op.wants = some row → ¬ LocksAcross t w row)
    (hexec : op.exec t choice w = some (answer, w')) : ¬ LockedAcross w' := by
  rintro ⟨v, u, tokenId, token, htoken, hv, hu, hcrosses⟩
  obtain ⟨user, huser⟩ := hinv.users _ u hu
  unfold Crosses at hcrosses
  rw [Op.exec_request hexec] at hcrosses
  rw [Op.exec_committed_of_heldBy hexec hv] at htoken
  rw [Op.exec_committed_of_heldBy hexec hu] at huser
  have hlt : ∀ {T : database.Table} {id : Nat} {row},
      (w.slot T id).committed = some row → id < w.next T := fun hrow =>
    hsound.lt_next fun hempty => by
      rw [hempty] at hrow
      cases hrow
  have hne : v ≠ u := by
    rintro rfl
    exact not_crosses_self hcrosses
  -- whichever of the two locks is new was taken across the other
  obtain hv | ⟨rfl, hwants | ⟨_, rfl⟩⟩ := Op.exec_heldBy hexec hv
  · obtain hu | ⟨rfl, hwants | ⟨_, hid⟩⟩ := Op.exec_heldBy hexec hu
    · exact h ⟨v, u, tokenId, token, htoken, hv, hu, hcrosses⟩
    · obtain ⟨version, hv⟩ := hv
      exact hapart _ hwants ⟨tokenId, hlt htoken, token, htoken, rfl, _, hv, hcrosses⟩
    · exact absurd (hlt huser) (Nat.not_lt_of_le hid.ge)
  · obtain hu | ⟨rfl, _⟩ := Op.exec_heldBy hexec hu
    · obtain ⟨version, hu⟩ := hu
      exact hapart _ hwants ⟨token, htoken, _, hu, hcrosses⟩
    · exact hne rfl
  · exact Nat.lt_irrefl _ (hlt htoken)

theorem not_lockedAcross_of_same (h : ¬ LockedAcross w)
    (hheld : ∀ T id u, (w'.slot T id).HeldBy u → w'.slot T id = w.slot T id)
    (hrequest : ∀ T id u, (w'.slot T id).HeldBy u → w'.request u = w.request u) :
    ¬ LockedAcross w' := by
  rintro ⟨v, u, tokenId, token, htoken, hv, hu, hcrosses⟩
  unfold Crosses at hcrosses
  rw [hrequest _ _ v hv, hrequest _ _ u hu] at hcrosses
  rw [hheld _ _ v hv] at htoken hv
  rw [hheld _ _ u hu] at hu
  exact h ⟨v, u, tokenId, token, htoken, hv, hu, hcrosses⟩

theorem not_lockedAcross_of_rollback (h : ¬ LockedAcross w) : ¬ LockedAcross (w.finish t false) :=
  not_lockedAcross_of_same h (fun _ _ _ ⟨_, hheld⟩ => (World.held_of_finish hheld).2)
    fun _ _ _ _ => rfl

/-- Nothing is locked across as long as no step locks it so. -/
theorem not_lockedAcross_step {c c' : CredentialConfig} {l : Label CredentialRequest}
    (h : ¬ LockedAcross c.world) (hsound : c.world.Sound) (hinv : LocksInOrder context c'.world)
    (hfresh : ∀ t, c.client t = none → Discipline.Fresh t c.world) (hapart : LocksApart c l)
    (hs : (credentialSystem context).step c l = some c') : ¬ LockedAcross c'.world := by
  cases l with
  | spawn t request =>
      simp only [System.step] at hs
      split at hs
      · cases hs
      · rename_i hnone
        cases hs
        refine not_lockedAcross_of_same h (fun _ _ _ _ => rfl) fun T id u hu => ?_
        have hne : u ≠ t := by
          rintro rfl
          exact (hfresh u hnone).unlocked T id hu
        exact Function.update_of_ne hne _ _
  | exec t choice =>
      simp only [System.step] at hs
      split at hs
      · rename_i op next hclient
        split at hs
        · cases hs
        · rename_i answer world hexec
          cases hs
          refine not_lockedAcross_of_exec h hsound hinv (fun row hrow => ?_) hexec
          exact hapart row ((Config.wants_of_client hclient).trans hrow)
      · cases hs
  | close t =>
      simp only [System.step] at hs
      split at hs
      · cases hs
        exact not_lockedAcross_of_rollback h
      · cases hs
        exact not_lockedAcross_of_rollback h
      · cases hs
  | crash t =>
      simp only [System.step] at hs
      split at hs
      · cases hs
        exact not_lockedAcross_of_rollback h
      · cases hs
  | tick duration =>
      cases hs
      exact h

/-- Two transactions that hold reset tokens of one user are one. -/
theorem LocksInOrder.token_holder (h : LocksInOrder context w) {id id' : Nat}
    {token token' : UserToken}
    (htoken : (w.slot (tokenTable .passwordReset) id).committed = some token)
    (htoken' : (w.slot (tokenTable .passwordReset) id').committed = some token')
    (huser : token.userId = token'.userId)
    (ht : (w.slot (tokenTable .passwordReset) id).HeldBy t)
    (hu : (w.slot (tokenTable .passwordReset) id').HeldBy u) : t = u := by
  have hid : id = id' := by
    by_contra hne
    have hapart := h.unique.committed hne htoken htoken'
    have hclash : database.clash (tokenTable .passwordReset) token token' = true :=
      clash_of_userId (beq_iff_eq.mpr huser) (beq_self_eq_true _)
    cases hclash.symm.trans hapart
  subst hid
  obtain ⟨_, ht⟩ := ht
  obtain ⟨_, hu⟩ := hu
  cases ht.symm.trans hu
  rfl

theorem not_brief_of_locksUserFirst {request : Option CredentialRequest}
    (h : request.any (·.locksUserFirst) = true) : request.any (·.brief) = false := by
  obtain ⟨request, rfl, h⟩ := (Option.any_eq_true _ _).mp h
  cases request with
  | changePassword | deleteAccount => rfl
  | login | refresh | logout | forgotPassword | resetPassword => cases h

theorem not_brief_of_resets {request : Option CredentialRequest}
    (h : request.any (·.resets) = true) : request.any (·.brief) = false := by
  obtain ⟨request, rfl, h⟩ := (Option.any_eq_true _ _).mp h
  cases request with
  | resetPassword => rfl
  | login | refresh | logout | forgotPassword | changePassword | deleteAccount => cases h

/-- Who holds a user locked it first, or holds a token of theirs. -/
theorem LocksInOrder.user_holder (h : LocksInOrder context w)
    (ht : (w.slot userTable id).HeldBy t) :
    (w.request t).any (·.locksUserFirst) = true ∨ Climbs t w userTable id := by
  obtain ⟨user, huser⟩ := h.users id t ht
  obtain ⟨request, hrequest, hentry⟩ | ⟨_, _, ref, href, _⟩ | hclimbs :=
    h.entitled userTable id t user huser ht
  · left
    rw [hrequest]
    cases request with
    | changePassword | deleteAccount => rfl
    | login | refresh | logout | forgotPassword | resetPassword => cases hentry
  · cases href
  · exact .inr hclimbs

theorem LocksInOrder.not_brief_of_user (h : LocksInOrder context w)
    (ht : (w.slot userTable id).HeldBy t) : (w.request t).any (·.brief) = false := by
  obtain hfirst | ⟨_, hresets, _⟩ := h.user_holder ht
  · exact not_brief_of_locksUserFirst hfirst
  · exact not_brief_of_resets hresets

/-- Nobody else holds the user of a reset's token. -/
theorem LocksInOrder.user_unheld (h : LocksInOrder context w) (hapart : ¬ LockedAcross w)
    {tokenId : Nat} {token : UserToken}
    (htoken : (w.slot (tokenTable .passwordReset) tokenId).committed = some token)
    (ht : (w.slot (tokenTable .passwordReset) tokenId).HeldBy t)
    (hresets : (w.request t).any (·.resets) = true) (hu : (w.slot userTable token.userId).HeldBy u) :
    t = u := by
  obtain hfirst | ⟨_, _, tokenId', token', htoken', hu', huser⟩ := h.user_holder hu
  · exact absurd ⟨t, u, tokenId, token, htoken, ht, hu, crosses_of_resets hresets hfirst⟩ hapart
  · exact h.token_holder htoken htoken' huser.symm ht hu'

/-- A row leads to one holder of what it refers to. -/
theorem LocksInOrder.under_unique (h : LocksInOrder context w) (ht : Under t w T id)
    (hu : Under u w T id) : t = u := by
  obtain ⟨row, hrow, ref, href, version, ht⟩ := ht
  obtain ⟨row', hrow', ref', href', version', hu⟩ := hu
  cases hrow.symm.trans hrow'
  have hone := h.references.one T id row (.inl hrow)
  obtain ⟨only, honly⟩ : ∃ only, EventsApi.references T row = [only] := by
    apply List.length_eq_one_iff.mp
    exact le_antisymm hone (List.length_pos_of_mem href)
  rw [honly] at href href'
  obtain rfl := List.mem_singleton.mp href
  obtain rfl := List.mem_singleton.mp href'
  cases ht.symm.trans hu
  rfl

/-- Who waits for a row while it holds one is no brief request, and waits for a brief one. -/
theorem brief_of_waitsFor {c : CredentialConfig} (hinv : LocksInOrder context c.world)
    (hapart : ¬ LockedAcross c.world)
    (hturn : ∀ t row, c.wants t = some row → LocksInTurn t c.world row)
    (hheld : ¬ Lockless t c.world) (h : c.WaitsFor t u) :
    (c.world.request t).any (·.brief) = false ∧ (c.world.request u).any (·.brief) = true := by
  obtain ⟨⟨T, id⟩, hwants, hne, hu⟩ := h
  obtain hown | hgone | ⟨⟨row, hrow⟩, ⟨hlockless, _⟩ | hunder |
    ⟨rfl, hresets, tokenId, token, htoken, ht, rfl⟩⟩ := hturn t _ hwants
  · obtain ⟨_, hown⟩ := hown
    obtain ⟨_, hu⟩ := hu
    cases hown.symm.trans hu
    exact absurd rfl hne
  · obtain ⟨_, hu⟩ := hu
    rw [hgone.2] at hu
    cases hu
  · exact absurd hlockless hheld
  · have hunder' := hunder
    obtain ⟨row', hrow', ref, href, ht⟩ := hunder'
    cases hrow.symm.trans hrow'
    obtain ⟨request, hrequest, hentry⟩ | hunder' | ⟨rfl, _⟩ := hinv.entitled T id u row hrow hu
    · cases request with
      | login => cases hentry
      | refresh | logout =>
          cases hentry
          obtain rfl := List.mem_singleton.mp href
          exact ⟨hinv.not_brief_of_user ht, by rw [hrequest]; rfl⟩
      | forgotPassword =>
          cases hentry
          obtain rfl := List.mem_singleton.mp href
          exact ⟨hinv.not_brief_of_user ht, by rw [hrequest]; rfl⟩
      | resetPassword =>
          cases hentry
          obtain rfl := List.mem_singleton.mp href
          exact absurd (hinv.user_unheld hapart hrow hu (by rw [hrequest]; rfl) ht) hne
      | changePassword | deleteAccount =>
          cases hentry
          cases href
    · exact absurd (hinv.under_unique hunder' hunder) hne
    · cases href
  · exact absurd (hinv.user_unheld hapart htoken ht hresets hu).symm hne

/-- A row that others refer to is a user or a token. -/
theorem user_or_token_of_mem_references {inserted : database.Row T} {row : database.Table × Nat}
    (h : row ∈ references T inserted) : row.1 = userTable ∨ ∃ kind, row.1 = tokenTable kind := by
  cases T with
  | users => cases h
  | tokens | refreshTokenSessions => exact .inl (congrArg Prod.fst (List.mem_singleton.mp h))
  | emailOutboxJobs =>
      obtain h | h := List.mem_append.mp h
      · obtain ⟨_, _, rfl⟩ := Option.map_eq_some_iff.mp (Option.mem_toList.mp h)
        exact .inr ⟨.confirmation, rfl⟩
      · obtain ⟨_, _, rfl⟩ := Option.map_eq_some_iff.mp (Option.mem_toList.mp h)
        exact .inr ⟨.passwordReset, rfl⟩

/-- Who holds a row and is about to refer to a user need not wait: whoever deletes the user would
have locked them across a token. -/
theorem not_waitsToRefer {c : CredentialConfig} (hinv : LocksInOrder context c.world)
    (hapart : ¬ LockedAcross c.world)
    (hturn : ∀ ref ∈ c.refersTo references t, RefersInTurn t c.world ref)
    (hheld : ¬ Lockless t c.world) : ¬ c.WaitsToRefer references t u := by
  rintro ⟨⟨T, id⟩, href, hne, ⟨version, hu⟩, hview⟩
  obtain ⟨_, ⟨_, hown⟩ | ⟨rfl, hlockless | ⟨⟨tokenId, token, htoken, ht, rfl⟩, email, hrequest⟩⟩⟩ :=
    hturn _ href
  · cases hown.symm.trans hu
    exact hne rfl
  · exact hheld hlockless
  · rw [Slot.view_of_held hu] at hview
    subst hview
    have hcrosses := crosses_of_deletes hrequest (hinv.deleted _ u hu)
    exact hapart ⟨t, u, tokenId, token, htoken, ht, ⟨none, hu⟩, hcrosses⟩

theorem brief_of_waitsForReference {c : CredentialConfig} (hinv : LocksInOrder context c.world)
    (hturn : ∀ t row, c.wants t = some row → LocksInTurn t c.world row)
    (hheld : ¬ Lockless t c.world) (h : c.WaitsForReference references t u) :
    (c.world.request t).any (·.brief) = false ∧ (c.world.request u).any (·.brief) = true := by
  obtain ⟨⟨T, id⟩, hclaims, hne, hunheld, T', id', inserted, hinserted, hnew, href⟩ := h
  refine ⟨?_, hinv.inserted T' id' u inserted hinserted hnew (List.ne_nil_of_mem href)⟩
  obtain ⟨_, op, next, hclient, hclaims⟩ := Config.client_of_claims hclaims
  have hwants := (Config.wants_of_client hclient).trans hclaims.wants
  obtain hown | hgone | ⟨_, ⟨hlockless, _⟩ | ⟨row, _, ref, hunder, ht⟩ | ⟨_, hresets, _⟩⟩ :=
    hturn t _ hwants
  · exact absurd hown hunheld
  · obtain ⟨seen, hview⟩ := hclaims.view
    rw [hgone.2] at hview
    cases hview
  · exact absurd hlockless hheld
  · obtain rfl | ⟨kind, rfl⟩ := user_or_token_of_mem_references href
    · cases hunder
    · obtain rfl := List.mem_singleton.mp hunder
      exact hinv.not_brief_of_user ht
  · exact not_brief_of_resets hresets

/-- **Who waits while it holds a row** is no login, no refresh, no logout and no request for a reset
token, and waits for one of these. -/
theorem brief_of_waits {c : CredentialConfig} (hinv : LocksInOrder context c.world)
    (hapart : ¬ LockedAcross c.world)
    (hturn : ∀ t (β : Type) (op : Op database β) (next : β → Db CredentialReply),
      c.client t = some (.exec op next) → GoesInTurn t c.world β op)
    (hheld : ¬ Lockless t c.world) (h : c.Waits references t u) :
    (c.world.request t).any (·.brief) = false ∧ (c.world.request u).any (·.brief) = true := by
  have hlocks : ∀ t row, c.wants t = some row → LocksInTurn t c.world row := by
    intro t row hrow
    obtain ⟨_, op, next, hclient, hwants⟩ := Config.client_of_wants hrow
    exact (hturn t _ op next hclient).locks row hwants
  have hrefers : ∀ ref ∈ c.refersTo references t, RefersInTurn t c.world ref := by
    intro ref href
    obtain ⟨_, op, next, hclient, href⟩ := Config.client_of_refersTo href
    exact (hturn t _ op next hclient).refers ref href
  obtain hwaits | hwaits | hwaits := h
  · exact brief_of_waitsFor hinv hapart hlocks hheld hwaits
  · exact absurd hwaits (not_waitsToRefer hinv hapart hrefers hheld)
  · exact brief_of_waitsForReference hinv hlocks hheld hwaits

/-! ### The service -/

/-- A service where nobody is logged in: the rows it starts from meet the unique constraint of the
reset tokens, and no job goes with two tokens. -/
structure LoggedOut (c : CredentialConfig) : Prop where
  initial : c.Initial
  sessions : c.world.next sessionTable = 0
  tokens : Unique (tokenTable .passwordReset) c.world
  jobs : ∀ id job, (c.world.slot jobTable id).committed = some job →
    (job : EmailOutboxJob).confirmationTokenId = none ∨ job.passwordResetTokenId = none

theorem refersToOne_job {job : EmailOutboxJob}
    (h : job.confirmationTokenId = none ∨ job.passwordResetTokenId = none) :
    RefersToOne references jobTable job := by
  change ((job.confirmationTokenId.map (tokenTable .confirmation, ·)).toList
    ++ (job.passwordResetTokenId.map (tokenTable .passwordReset, ·)).toList).length ≤ 1
  obtain hnone | hnone := h
  · rw [hnone]
    cases job.passwordResetTokenId <;> simp
  · rw [hnone]
    cases job.confirmationTokenId <;> simp

theorem LoggedOut.locksInOrder {c : CredentialConfig} (h : LoggedOut c) :
    LocksInOrder context c.world := by
  have hunheld : ∀ T id t, ¬ (c.world.slot T id).HeldBy t := by
    rintro T id t ⟨version, hheld⟩
    rw [h.initial.1.unlocked T id] at hheld
    cases hheld
  have hcommitted : ∀ {T : database.Table} {id : Nat} {row},
      (c.world.slot T id).HasVersion row → (c.world.slot T id).committed = some row := by
    rintro T id row (hrow | ⟨t, hheld⟩)
    · exact hrow
    · exact absurd ⟨_, hheld⟩ (hunheld T id t)
  have hempty : ∀ id (session : RefreshTokenSession),
      ¬ (c.world.slot sessionTable id).HasVersion session := by
    intro id session hversion
    have hslot := h.initial.1.beyond sessionTable id (h.sessions ▸ Nat.zero_le id)
    rw [hslot] at hversion
    obtain hnone | ⟨_, hnone⟩ := hversion <;> cases hnone
  refine
    { unique := h.tokens
      keyed := ⟨fun id session hrow => absurd (.inl hrow) (hempty id session),
        fun id t session hheld => absurd ⟨_, hheld⟩ (hunheld _ id t),
        fun id id' session session' hversion => absurd hversion (hempty id session)⟩
      references := ⟨fun T id t _ _ hheld => absurd ⟨_, hheld⟩ (hunheld T id t), ?_⟩
      users := fun id t hheld => absurd hheld (hunheld _ id t)
      entitled := fun T id t _ _ hheld => absurd hheld (hunheld T id t)
      inserted := fun T id t _ hheld => absurd ⟨_, hheld⟩ (hunheld T id t)
      deleted := fun id t hheld => absurd ⟨_, hheld⟩ (hunheld userTable id t) }
  intro T id row hversion
  cases T with
  | users => exact Nat.zero_le 1
  | tokens | refreshTokenSessions => exact le_rfl
  | emailOutboxJobs =>
      exact refersToOne_job (h.jobs id row (hcommitted hversion))

/-- **No deadlock.** In every run in which no two requests that cross hold a reset token and its
user at the same time, nobody waits in a circle: no two transactions wait for each other. -/
theorem no_deadlock {c : CredentialConfig}
    (h : Transition.Reachable (credentialSystem context).step LoggedOut LocksApart c) :
    (∀ t u, ¬ (c.Waits references t u ∧ c.Waits references u t))
      ∧ ∀ t, ¬ Relation.TransGen (c.Waits references) t t := by
  have hfacts {c : CredentialConfig}
      (h : Transition.Reachable (credentialSystem context).step LoggedOut LocksApart c) :
      c.world.Sound ∧ (lockOrder context).inv c.world
        ∧ (∀ t, c.client t = none → Discipline.Fresh t c.world)
        ∧ ∀ t (β : Type) (op : Op database β) (next : β → Db CredentialReply),
          c.client t = some (.exec op next) → GoesInTurn t c.world β op :=
    Discipline.Careful.policy_of_client (fun _ _ _ => trivial)
      (fun request t w _ _ hfresh hrequest =>
        InProgress.handler ⟨⟨hrequest, hfresh.uncommitted⟩, hfresh.unlocked⟩)
      (fun _ hc => ⟨hc.initial, hc.locksInOrder⟩) h
  have hapart : ¬ LockedAcross c.world := by
    induction h with
    | start hc =>
        rintro ⟨t, _, _, _, _, ⟨_, hheld⟩, _⟩
        rw [hc.initial.1.unlocked] at hheld
        cases hheld
    | next hreach hallowed hs ih =>
        obtain ⟨hsound, _, hfresh, _⟩ := hfacts hreach
        exact not_lockedAcross_step ih hsound (hfacts (hreach.next hallowed hs)).2.1 hfresh
          hallowed hs
  obtain ⟨_, hinv, _, hturn⟩ := hfacts h
  have hacyclic : ∀ t, ¬ Relation.TransGen (c.Waits references) t t := by
    apply acyclic_of_no_chain
    intro s t u v hst htu huv
    have hheld {s t : Txn} (h : c.Waits references s t) : ¬ Lockless t c.world := by
      obtain ⟨T, id, hheld⟩ := h.held
      exact fun hlockless => hlockless T id hheld
    obtain ⟨_, hbrief⟩ := brief_of_waits hinv hapart hturn (hheld hst) htu
    obtain ⟨hlong, _⟩ := brief_of_waits hinv hapart hturn (hheld htu) huv
    cases hbrief.symm.trans hlong
  refine ⟨?_, hacyclic⟩
  rintro t u ⟨htu, hut⟩
  exact hacyclic t (.tail (.single htu) hut)

theorem smallService_loggedOut :
    LoggedOut (smallService CredentialRequest Exn CredentialReply) where
  initial := smallService_initial _ _ _
  sessions := rfl
  tokens :=
    { seen := by rintro _ _ _ _ _ _ ⟨⟩
      pending := by rintro _ _ _ _ _ _ _ ⟨⟩ }
  jobs := by rintro _ _ ⟨⟩

/-- Ona is mailed a reset token. -/
def mailedToken : List (Label CredentialRequest) :=
  [.spawn 1 (.forgotPassword confirmedUser.email), .exec 1 {}, .exec 1 { order := [0] }, .exec 1 {},
    .exec 1 {}, .exec 1 { token := "t" }, .exec 1 {}, .exec 1 {}, .exec 1 {}, .exec 1 {}]

/-- She shows it, and the request has come to the new password. -/
def resettingWith (t : Txn) (salt : String) : List (Label CredentialRequest) :=
  [.spawn t (.resetPassword "t" "battery staple"), .exec t {}, .exec t { order := [0] }, .exec t {},
    .exec t {}, .exec t { order := [0] }, .exec t { token := salt }]

/-- She shows it twice, and the second request waits for the first. -/
theorem no_deadlock_shownTwice :
    ∃ c, Transition.run (Transition.guarded (credentialSystem plainContext).step LocksApart)
        (smallService _ _ _) (mailedToken ++ resettingWith 2 "salt"
          ++ (resettingWith 3 "pepper").take 3) = some c
      ∧ c.Waits references 3 2 ∧ ∀ t, ¬ Relation.TransGen (c.Waits references) t t := by
  have hrun : (Transition.run (Transition.guarded (credentialSystem plainContext).step LocksApart)
      (smallService CredentialRequest Exn CredentialReply) (mailedToken ++ resettingWith 2 "salt"
        ++ (resettingWith 3 "pepper").take 3)).any fun c => decide (c.WaitsFor 3 2) := by
    decide
  obtain ⟨c, hc, hwaits⟩ := (Option.any_eq_true _ _).mp hrun
  have hreach := Transition.reachable_of_guarded_run smallService_loggedOut _ hc
  exact ⟨c, hc, .inl (of_decide_eq_true hwaits), (no_deadlock hreach).2⟩

/-- She changes her password as well, and the two requests wait for each other. -/
theorem deadlock_reset_change :
    ∃ c, Transition.run (credentialSystem plainContext).step (smallService _ _ _)
        (mailedToken ++ resettingWith 2 "salt"
          ++ [.spawn 0 (.changePassword (some "access") "correct horse" "battery staple"),
            .exec 0 {}, .exec 0 {}, .exec 0 { order := [0] }, .exec 0 {},
            .exec 0 { token := "pepper" }, .exec 0 {}, .exec 0 { order := [0] }]) = some c
      ∧ c.Waits references 2 0 ∧ c.Waits references 0 2 := by
  have hrun : (Transition.run (credentialSystem plainContext).step
      (smallService CredentialRequest Exn CredentialReply) (mailedToken ++ resettingWith 2 "salt"
          ++ [.spawn 0 (.changePassword (some "access") "correct horse" "battery staple"),
            .exec 0 {}, .exec 0 {}, .exec 0 { order := [0] }, .exec 0 {},
            .exec 0 { token := "pepper" }, .exec 0 {}, .exec 0 { order := [0] }])).any fun c =>
        decide (c.WaitsFor 2 0 ∧ c.WaitsFor 0 2) := by
    decide
  obtain ⟨c, hc, h⟩ := (Option.any_eq_true _ _).mp hrun
  obtain ⟨hreset, hchange⟩ := of_decide_eq_true h
  exact ⟨c, hc, .inl hreset, .inl hchange⟩

/-- A minute later she asks for another token. The old one is deleted, and the new one is to be
inserted. -/
def askingAgain : List (Label CredentialRequest) :=
  [.tick 60000000, .spawn 2 (.forgotPassword confirmedUser.email), .exec 2 {},
    .exec 2 { order := [0] }, .exec 2 {}, .exec 2 { order := [0] }, .exec 2 { token := "u" },
    .exec 2 { order := [0] }, .exec 2 {}, .exec 2 { order := [0] }, .exec 2 {}]

/-- She deletes her account, which has come to the token. -/
def deletingAccount : List (Label CredentialRequest) :=
  [.spawn 0 (.deleteAccount (some "access") "correct horse"), .exec 0 {}, .exec 0 {},
    .exec 0 { order := [0] }, .exec 0 { order := [0] }, .exec 0 {}, .exec 0 {},
    .exec 0 { order := [0] }]

/-- The new token waits for the user to be deleted or not, and the deletion for the old token. -/
theorem deadlock_forgot_delete :
    ∃ c, Transition.run (credentialSystem plainContext).step (smallService _ _ _)
        (mailedToken ++ askingAgain ++ deletingAccount) = some c
      ∧ c.Waits references 2 0 ∧ c.Waits references 0 2 := by
  have hrun : (Transition.run (credentialSystem plainContext).step
      (smallService CredentialRequest Exn CredentialReply)
      (mailedToken ++ askingAgain ++ deletingAccount)).any fun c =>
        decide (c.WaitsToRefer references 2 0 ∧ c.WaitsFor 0 2) := by
    decide
  obtain ⟨c, hc, h⟩ := (Option.any_eq_true _ _).mp hrun
  obtain ⟨hforgot, hdelete⟩ := of_decide_eq_true h
  exact ⟨c, hc, .inr (.inl hforgot), .inl hdelete⟩

end EventsApi
