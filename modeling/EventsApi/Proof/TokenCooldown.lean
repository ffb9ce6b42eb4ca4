import EventsApi.Proof.TokenSteps

/-!
# Requests for a token, and their cooldown

A request looks for a token of its user and, if there is none or its cooldown is over, deletes and
inserts, with no lock in between. As long as no request for the same address commits meanwhile, the
token it read is still the only one when it inserts.
-/

namespace EventsApi

open ReadCommitted

/-- The event is a statement that read the tokens. -/
def readsTokens (kind : TokenKind) : ReadCommitted.Event database → Bool
  | .selected T _ => decide (T = tokenTable kind)
  | _ => false

/-- Another request for the same address has committed since the transaction first read the tokens.
The trace is the newest entry first. -/
def Overtaken (kind : TokenKind) (t : Txn) (request : Txn → Option String) :
    List (Entry database) → Prop
  | [] => False
  | e :: earlier =>
      (e.event = .committed ∧ e.txn ≠ t ∧ request e.txn = request t
        ∧ ∃ read ∈ earlier, read.txn = t ∧ readsTokens kind read.event)
      ∨ Overtaken kind t request earlier

instance decidableOvertaken (kind : TokenKind) (t : Txn) (request : Txn → Option String) :
    (trace : List (Entry database)) → Decidable (Overtaken kind t request trace)
  | [] => .isFalse id
  | _ :: earlier =>
      have := decidableOvertaken kind t request earlier
      inferInstanceAs (Decidable (_ ∨ _))

/-- A new token is inserted by a request that nobody has overtaken. -/
def InsertsInTime (kind : TokenKind) (t : Txn) (w : TokenWorld) : Kind database → Prop
  | .insert T => T = tokenTable kind → ¬ Overtaken kind t w.request w.trace
  | _ => True

instance (kind : TokenKind) (t : Txn) (w : TokenWorld) :
    (operation : Kind database) → Decidable (InsertsInTime kind t w operation)
  | .insert T =>
      inferInstanceAs (Decidable (T = tokenTable kind → ¬ Overtaken kind t w.request w.trace))
  | .select _ => .isTrue trivial
  | .lock _ => .isTrue trivial
  | .commit => .isTrue trivial
  | .now => .isTrue trivial
  | .draw => .isTrue trivial

/-- The transaction gives one row up for another. -/
def ReplacesRow (kind : TokenKind) (t : Txn) (id id' : Nat) (old new : UserToken)
    (w : TokenWorld) : Prop :=
  (w.slot (tokenTable kind) id).held = some (t, none)
    ∧ (w.slot (tokenTable kind) id).committed = some old
    ∧ (w.slot (tokenTable kind) id').held = some (t, some new)
    ∧ (w.slot (tokenTable kind) id').committed = none

instance (kind : TokenKind) (t : Txn) (id id' : Nat) (old new : UserToken) (w : TokenWorld) :
    Decidable (ReplacesRow kind t id id' old new w) :=
  have decideRow (old new : database.Row (tokenTable kind)) :
      Decidable ((w.slot (tokenTable kind) id).held = some (t, none)
        ∧ (w.slot (tokenTable kind) id).committed = some old
        ∧ (w.slot (tokenTable kind) id').held = some (t, some new)
        ∧ (w.slot (tokenTable kind) id').committed = none) := inferInstance
  decideRow old new

/-- The transaction replaces a token by another one of the same user. -/
def Replaces (kind : TokenKind) (t : Txn) (old new : UserToken) (w : TokenWorld) : Prop :=
  old.userId = new.userId ∧ ∃ id id', ReplacesRow kind t id id' old new w

variable {context : Context} {kind : TokenKind} {t u : Txn} {email : String} {w w' : TokenWorld}

theorem Overtaken.append {request : Txn → Option String} {trace : List (Entry database)}
    (h : Overtaken kind t request trace) (new : List (Entry database)) :
    Overtaken kind t request (new ++ trace) := by
  induction new with
  | nil => exact h
  | cons e new ih => exact .inr ih

theorem Overtaken.request {request request' : Txn → Option String} {trace : List (Entry database)}
    (hrequest : ∀ u email, request u = some email → request' u = some email)
    (hasked : request t = some email) (h : Overtaken kind t request trace) :
    Overtaken kind t request' trace := by
  induction trace with
  | nil => exact h
  | cons e earlier ih =>
      obtain ⟨hevent, hne, hsame, hread⟩ | h := h
      · refine .inl ⟨hevent, hne, ?_, hread⟩
        rw [hrequest t email hasked, hrequest e.txn email (hsame.trans hasked)]
      · exact .inr (ih h)

theorem overtaken_of_commit {request : Txn → Option String} {new trace : List (Entry database)}
    {e : Entry database} (he : e ∈ new) (hevent : e.event = .committed) (hne : e.txn ≠ t)
    (hsame : request e.txn = request t)
    (hread : ∃ read ∈ trace, read.txn = t ∧ readsTokens kind read.event) :
    Overtaken kind t request (new ++ trace) := by
  induction new with
  | nil => cases he
  | cons e' new ih =>
      obtain rfl | he := List.mem_cons.mp he
      · obtain ⟨read, hmem, hown⟩ := hread
        exact .inl ⟨hevent, hne, hsame, read, List.mem_append_right _ hmem, hown⟩
      · exact .inr (ih he)

/-- The transaction has read the tokens. -/
def HasRead (kind : TokenKind) (t : Txn) (w : TokenWorld) : Prop :=
  ∃ read ∈ w.trace, read.txn = t ∧ readsTokens kind read.event

theorem HasRead.others (h : HasRead kind t w) (hw : Others u w w') : HasRead kind t w' := by
  obtain ⟨read, hmem, hown⟩ := h
  exact ⟨read, hw.trace_subset _ hmem, hown⟩

theorem Overtaken.others (hasked : w.request t = some email) (hw : Others u w w')
    (h : Overtaken kind t w.request w.trace) : Overtaken kind t w'.request w'.trace := by
  obtain ⟨new, htrace, _⟩ := hw.trace
  rw [htrace]
  exact (h.request hw.request hasked).append new

variable (context kind) in
def tokenRequests : Discipline database String where
  inv := TokenRequests context kind
  rely := TokenRely kind
  allowed := InsertsInTime kind
  rely_refl := .refl
  rely_trans := .trans
  quiet hquiet h := ⟨h.quiet hquiet, fun _ => .quiet hquiet⟩
  rollback t w hsound h :=
    have hstep := tokenStep_rollback context kind t w
    ⟨hstep.inv h hsound, fun _ hne => hstep.rely h hne⟩

/-- Nobody who went unnoticed has made a token for the address: what is committed now was committed
before. -/
theorem committed_before (hasked : w.request t = some email) (hread : HasRead kind t w)
    (hw : (tokenRequests context kind).Interferes t w w')
    (hfree : ¬ Overtaken kind t w'.request w'.trace) {id : Nat} {token : UserToken}
    (htoken : (w'.slot (tokenTable kind) id).committed = some token)
    (howned : OwnedBy email token.userId w) :
    (w.slot (tokenTable kind) id).committed = some token := by
  refine hw.rely.tokens email hasked ?_ id token htoken howned
  rintro u hne hreq ⟨e, he, rfl, hevent⟩
  obtain ⟨new, htrace, _⟩ := hw.others.trace
  rw [htrace] at he hfree
  obtain he | he := List.mem_append.mp he
  · refine absurd (overtaken_of_commit he hevent hne ?_ hread) hfree
    rw [hreq, hw.others.request t email hasked]
  · exact ⟨e, he, rfl, hevent⟩

/-! ### Assertions -/

/-- The transaction serves a request for the address, and has not committed. -/
structure Asked (email : String) (t : Txn) (w : TokenWorld) : Prop where
  request : w.request t = some email
  uncommitted : ¬ w.HasCommitted t

/-- The transaction has locked no token. -/
def Unheld (kind : TokenKind) (t : Txn) (w : TokenWorld) : Prop :=
  ∀ id, ¬ (w.slot (tokenTable kind) id).HeldBy t

/-- It knows the user. -/
structure AskedFor (email : String) (userId : Nat) (t : Txn) (w : TokenWorld) : Prop
    extends Asked email t w where
  owned : OwnedBy email userId w

/-- Unless overtaken, it knows that the cooldown of every token of the user is over. -/
structure Cooled (context : Context) (kind : TokenKind) (email : String) (userId : Nat) (now : Int)
    (t : Txn) (w : TokenWorld) : Prop extends AskedFor email userId t w where
  hasRead : HasRead kind t w
  cooled : ¬ Overtaken kind t w.request w.trace → ∀ id (token : UserToken),
    (w.slot (tokenTable kind) id).committed = some token → token.userId = userId →
    token.createdAt + parseDuration (kind.cooldown context.settings) ≤ now

/-- It has drawn the token that it will mail. -/
structure DrewToken (context : Context) (kind : TokenKind) (email : String) (userId : Nat)
    (now : Int) (raw : String) (t : Txn) (w : TokenWorld) : Prop
    extends Cooled context kind email userId now t w where
  drawn : (raw, t) ∈ w.drawn
  unused : Unused (tokenKey kind) context.crypto.sha256 raw w

/-- It is deleting the tokens of the user: unless overtaken, those that are left are still to
come. -/
structure Deleting (context : Context) (kind : TokenKind) (email : String) (userId : Nat)
    (now : Int) (raw : String) (t : Txn) (left : List Nat) (w : TokenWorld) : Prop
    extends DrewToken context kind email userId now raw t w where
  left : ¬ Overtaken kind t w.request w.trace → ∀ id (token : UserToken),
    (w.slot (tokenTable kind) id).committed = some token → token.userId = userId →
    (w.slot (tokenTable kind) id).HeldBy t ∨ id ∈ left
  locked : ∀ id version, (w.slot (tokenTable kind) id).held = some (t, version) →
    ∃ token : UserToken, (w.slot (tokenTable kind) id).committed = some token
      ∧ (version = none ∨ version = some token ∧ token.userId ≠ userId)

/-- It has made the token, and not mailed it yet. -/
structure Made (kind : TokenKind) (email : String) (tokenId : Nat) (t : Txn) (w : TokenWorld) : Prop
    extends Asked email t w where
  held : (w.slot (tokenTable kind) tokenId).HeldBy t
  unmailed : Unmailed kind tokenId w

section Stable

variable {userId tokenId : Nat} {now : Int} {raw : String} {left : List Nat}

theorem Asked.stable : (tokenRequests context kind).Stable t (Asked email t) := fun h hw =>
  ⟨hw.others.request t email h.request,
    fun hdone => h.uncommitted (hw.others.hasCommitted_self hdone)⟩

theorem Unheld.stable : (tokenRequests context kind).Stable t (Unheld kind t) := fun h hw id =>
  hw.others.not_mine (tokenTable kind) id (h id)

theorem AskedFor.stable :
    (tokenRequests context kind).Stable t (AskedFor email userId t) := fun h hw =>
  { Asked.stable h.toAsked hw with owned := h.owned.congr hw.rely.users }

theorem Cooled.stable :
    (tokenRequests context kind).Stable t (Cooled context kind email userId now t) := fun h hw =>
  { AskedFor.stable h.toAskedFor hw with
    hasRead := h.hasRead.others hw.others
    cooled := fun hfree id token htoken howner =>
      h.cooled (fun hover => hfree (hover.others h.request hw.others)) id token
        (committed_before h.request h.hasRead hw hfree htoken (howner ▸ h.owned)) howner }

theorem DrewToken.stable :
    (tokenRequests context kind).Stable t (DrewToken context kind email userId now raw t) :=
  fun h hw =>
  { Cooled.stable h.toCooled hw with
    drawn := hw.others.drawn_subset _ h.drawn
    unused := hw.inv.keyed.unused_of_others context.crypto.sha256_injective hw.sound hw.others
      h.drawn h.uncommitted h.unused }

theorem Deleting.stable (left : List Nat) : (tokenRequests context kind).Stable t
    (Deleting context kind email userId now raw t left) := fun h hw =>
  { DrewToken.stable h.toDrewToken hw with
    left := fun hfree id token htoken howner => by
      have hbefore := committed_before h.request h.hasRead hw hfree htoken (howner ▸ h.owned)
      obtain ⟨version, hheld⟩ | hleft :=
        h.left (fun hover => hfree (hover.others h.request hw.others)) id token hbefore howner
      · exact .inl ⟨version, by rw [hw.others.mine _ _ _ hheld, hheld]⟩
      · exact .inr hleft
    locked := fun id version hheld => by
      have hbefore := hw.others.held_before hheld
      rw [hw.others.mine _ _ _ hbefore]
      exact h.locked id version hbefore }

theorem Made.stable :
    (tokenRequests context kind).Stable t (Made kind email tokenId t) := fun h hw => by
  obtain ⟨hheld, hkeep⟩ := hw.rely.unmailed tokenId h.held
  exact { Asked.stable h.toAsked hw with
    held := hheld
    unmailed := hkeep h.unmailed }

end Stable

/-! ### Operations -/

section Exec

variable {β : Type} {op : Op database β} {choice : Choice} {answer : β}

/-- What the operation does to users, tokens and jobs. -/
structure Requesting (context : Context) (kind : TokenKind) (t : Txn) (w : TokenWorld)
    (op : Op database β) : Prop where
  tokens : op.Within (tokenTable kind) (TokenChange kind t w) (NewToken context kind t w)
  jobs : op.Within jobTable JobChange (NewJob kind t w)
  users : op.Within userTable (fun _ _ => False) fun _ => False

theorem Asked.keeps (h : Asked email t w) (hsound : w.Sound) (hinv : TokenRequests context kind w)
    (hexec : op.exec t choice w = some (answer, w')) (hop : Requesting context kind t w op) :
    (tokenRequests context kind).Keeps t w w' :=
  have hstep := Op.exec_tokenStep hsound hexec hop.tokens hop.jobs hop.users h.uncommitted
  ⟨hstep.inv hinv hsound, fun _ hne => hstep.rely hinv hne⟩

theorem Asked.exec (h : Asked email t w) (hexec : op.exec t choice w = some (answer, w'))
    (hkind : op.kind ≠ .commit) : Asked email t w' :=
  ⟨by rw [Op.exec_request hexec, h.request], Op.exec_uncommitted hkind hexec h.uncommitted⟩

theorem AskedFor.exec {userId : Nat} (h : AskedFor email userId t w)
    (hexec : op.exec t choice w = some (answer, w')) (hkind : op.kind ≠ .commit) :
    AskedFor email userId t w' :=
  { h.toAsked.exec hexec hkind with
    owned := h.owned.congr fun id => Op.exec_committed hkind hexec userTable id }

theorem Cooled.exec {userId : Nat} {now : Int} (h : Cooled context kind email userId now t w)
    (hsound : w.Sound) (hexec : op.exec t choice w = some (answer, w'))
    (hkind : op.kind ≠ .commit) :
    Cooled context kind email userId now t w' := by
  have hother := Op.exec_others hsound hexec (Nat.succ_ne_self t)
  refine { h.toAskedFor.exec hexec hkind with hasRead := h.hasRead.others hother, cooled := ?_ }
  intro hfree id token htoken
  rw [Op.exec_committed hkind hexec] at htoken
  exact h.cooled (fun hover => hfree (hover.others h.request hother)) id token htoken

theorem DrewToken.exec {userId : Nat} {now : Int} {raw : String}
    (h : DrewToken context kind email userId now raw t w) (hsound : w.Sound)
    (hexec : op.exec t choice w = some (answer, w')) (hkind : op.kind ≠ .commit)
    (hkept : op.Within (tokenTable kind)
      (fun token version => version = some token ∨ version = none) fun _ => False) :
    DrewToken context kind email userId now raw t w' := by
  have hcooled := h.toCooled.exec hsound hexec hkind
  refine { hcooled with drawn := Op.exec_drawn_subset hsound hexec _ h.drawn, unused := ?_ }
  intro id token hversion
  obtain hversion | ⟨_, hversion, heq | heq⟩ | hfalse :=
    (Op.exec_tableStep hkept hexec).hasVersion hversion
  · exact h.unused id token hversion
  · cases heq
    exact h.unused id token hversion
  · cases heq
  · exact hfalse.elim

theorem Deleting.exec {userId : Nat} {now : Int} {raw : String} {left : List Nat}
    (h : Deleting context kind email userId now raw t left w) (hsound : w.Sound)
    (hexec : op.exec t choice w = some (answer, w')) (hkind : op.kind ≠ .commit)
    (hidle : op.Within (tokenTable kind) (fun _ _ => False) fun _ => False) :
    Deleting context kind email userId now raw t left w' := by
  have hslot := Op.exec_slot_same hidle hkind hexec
  have hother := Op.exec_others hsound hexec (Nat.succ_ne_self t)
  have hdrew := h.toDrewToken.exec hsound hexec hkind
    (hidle.mono (fun _ _ => False.elim) fun _ => id)
  refine { hdrew with left := fun hfree id token => ?_, locked := fun id version => ?_ }
  · rw [hslot]
    exact h.left (fun hover => hfree (hover.others h.request hother)) id token
  · rw [hslot]
    exact h.locked id version

end Exec

section Phases

variable {choice : Choice} {userId : Nat} {now : Int} {raw : String} {left : List Nat}

theorem requesting_select (T : Table) (p : Nat → T.Row → Bool) :
    Requesting context kind t w (.select (S := database) T p) :=
  ⟨trivial, trivial, trivial⟩

theorem requesting_now : Requesting context kind t w (.now (S := database)) :=
  ⟨trivial, trivial, trivial⟩

theorem requesting_draw : Requesting context kind t w (.draw (S := database)) :=
  ⟨trivial, trivial, trivial⟩

theorem requesting_commit : Requesting context kind t w (.commit (S := database)) :=
  ⟨trivial, trivial, trivial⟩

theorem Unheld.select {T : Table} {p : Nat → T.Row → Bool} {rows : List (Nat × T.Row)}
    (h : Unheld kind t w) (hexec : (Op.select (S := database) T p).exec t choice w
      = some (rows, w')) : Unheld kind t w' := by
  obtain ⟨rfl, _⟩ := exec_select hexec
  exact h

/-- The user of the address. -/
theorem Asked.selectUser {rows : List (Nat × User)} (h : Asked email t w) (hsound : w.Sound)
    (hinv : TokenRequests context kind w)
    (hexec : (Op.select userTable fun _ (user : User) => user.email == email).exec t choice w
      = some (rows, w')) :
    (tokenRequests context kind).Keeps t w w'
      ∧ ∀ entry, rows.head? = some entry → AskedFor email entry.1 t w' := by
  refine ⟨h.keeps hsound hinv hexec (requesting_select _ _), fun entry hentry => ?_⟩
  refine { h.exec hexec nofun with owned := ⟨entry.2, ?_, ?_⟩ }
  all_goals
    obtain ⟨rfl, _, hrows⟩ := exec_select hexec
    obtain ⟨_, hview, hemail⟩ := (hrows entry.1 entry.2).mp (List.mem_of_head? hentry)
  · have hunheld : ¬ (w.slot userTable entry.1).HeldBy t := by
      rintro ⟨version, hheld⟩
      rw [hinv.users entry.1] at hheld
      cases hheld
    rw [Slot.view_eq_committed hunheld] at hview
    exact hview
  · exact beq_iff_eq.mp hemail

/-- The token of the user, of which there is at most one. -/
theorem AskedFor.selectToken {rows : List (Nat × UserToken)} (h : AskedFor email userId t w)
    (hunheld : Unheld kind t w) (hsound : w.Sound) (hinv : TokenRequests context kind w)
    (hexec : (Op.select (tokenTable kind) fun _ (token : UserToken) =>
      token.userId == userId).exec t choice w = some (rows, w')) :
    (tokenRequests context kind).Keeps t w w' ∧ AskedFor email userId t w' ∧ HasRead kind t w'
      ∧ ∀ id (token : UserToken), (w'.slot (tokenTable kind) id).committed = some token →
        token.userId = userId → rows.head? = some (id, token) := by
  refine ⟨h.keeps hsound hinv hexec (requesting_select _ _), h.exec hexec nofun, ?_, ?_⟩
  all_goals obtain ⟨rfl, _, hrows⟩ := exec_select hexec
  · exact ⟨_, List.mem_cons_self, rfl, decide_eq_true rfl⟩
  · intro id token htoken howner
    change (w.slot (tokenTable kind) id).committed = some token at htoken
    have hmem : (id, token) ∈ rows := by
      refine (hrows id token).mpr ⟨?_, ?_, beq_iff_eq.mpr howner⟩
      · by_contra hle
        rw [hsound.beyond _ _ (Nat.le_of_not_lt hle)] at htoken
        cases htoken
      · exact (Slot.view_eq_committed (hunheld id)).trans htoken
    cases rows with
    | nil => cases hmem
    | cons first rest =>
        obtain ⟨id', token'⟩ := first
        obtain ⟨_, hview, howner'⟩ := (hrows id' token').mp List.mem_cons_self
        rw [Slot.view_eq_committed (hunheld id')] at hview
        obtain rfl : id' = id := by
          by_contra hne
          have hclash := hinv.unique.committed hne hview htoken
          change (token'.userId == token.userId || token'.tokenHash == token.tokenHash) = false
            at hclash
          rw [beq_iff_eq.mp howner', ← howner, beq_self_eq_true, Bool.true_or] at hclash
          cases hclash
        cases hview.symm.trans htoken
        rfl

theorem Cooled.draw (h : Cooled context kind email userId now t w) (hsound : w.Sound)
    (hinv : TokenRequests context kind w) (hexec : Op.draw.exec t choice w = some (raw, w')) :
    (tokenRequests context kind).Keeps t w w'
      ∧ DrewToken context kind email userId now raw t w' := by
  refine ⟨h.keeps hsound hinv hexec requesting_draw, ?_⟩
  have hcooled := h.exec hsound hexec nofun
  obtain ⟨hundrawn, rfl⟩ := exec_draw hexec
  have hunused : Unused (tokenKey kind) context.crypto.sha256 raw w :=
    hinv.keyed.unused_of_undrawn context.crypto.sha256_injective hundrawn
  exact { hcooled with drawn := List.mem_cons_self, unused := hunused }

/-- The tokens of the user, for the `DELETE`. -/
theorem DrewToken.selectTokens {rows : List (Nat × UserToken)}
    (h : DrewToken context kind email userId now raw t w) (hunheld : Unheld kind t w)
    (hsound : w.Sound) (hinv : TokenRequests context kind w)
    (hexec : (Op.select (tokenTable kind) fun _ (token : UserToken) =>
      token.userId == userId).exec t choice w = some (rows, w')) :
    (tokenRequests context kind).Keeps t w w'
      ∧ Deleting context kind email userId now raw t (rows.map (·.1)) w' := by
  obtain ⟨hkeeps, _, _, hall⟩ := h.selectToken hunheld hsound hinv hexec
  have hdrew := h.exec hsound hexec nofun trivial
  refine ⟨hkeeps, { hdrew with left := fun _ id token htoken howner => .inr ?_, locked := ?_ }⟩
  · exact List.mem_map.mpr ⟨_, List.mem_of_head? (hall id token htoken howner), rfl⟩
  · exact fun id version hheld => absurd ⟨version, hheld⟩ (hunheld.select hexec id)

theorem Deleting.changes {id : Nat} {token : UserToken}
    (h : Deleting context kind email userId now raw t (id :: left) w)
    (howner : token.userId = userId) : TokenChange kind t w token none := by
  refine .inr ⟨rfl, ⟨email, h.request, howner ▸ h.owned⟩, fun id' new hheld hnone => ?_⟩
  obtain ⟨old, hold, _⟩ := h.locked id' _ hheld
  cases hold.symm.trans hnone

/-- A version put in a row that the transaction sees, for the row to be deleted or kept. -/
theorem Deleting.put {id : Nat} (h : Deleting context kind email userId now raw t (id :: left) w)
    {seen : UserToken} {version : Option UserToken}
    (hview : (w.slot (tokenTable kind) id).view t = some seen)
    (hversion : version = none ∨ version = some seen ∧ seen.userId ≠ userId)
    (hdrew : DrewToken context kind email userId now raw t w') (hrequest : w'.request = w.request)
    (htrace : ∃ new, w'.trace = new ++ w.trace)
    (hslot : w'.slot (tokenTable kind) = Function.update (w.slot (tokenTable kind)) id
      ((w.slot (tokenTable kind) id).put t version)) :
    Deleting context kind email userId now raw t left w' := by
  have hfree : ¬ Overtaken kind t w'.request w'.trace → ¬ Overtaken kind t w.request w.trace := by
    obtain ⟨new, htrace⟩ := htrace
    rw [hrequest, htrace]
    exact fun hfree hover => hfree (hover.append new)
  refine { hdrew with left := ?_, locked := ?_ }
  · intro hfree' id' token htoken howner
    by_cases hid : id' = id
    · subst hid
      exact .inl ⟨version, by rw [hslot, Function.update_self]; rfl⟩
    · rw [hslot, Function.update_of_ne hid] at htoken ⊢
      obtain hheld | hmem := h.left (hfree hfree') id' token htoken howner
      · exact .inl hheld
      · exact .inr ((List.mem_cons.mp hmem).resolve_left hid)
  · intro id' own hheld
    by_cases hid : id' = id
    · subst hid
      rw [hslot, Function.update_self] at hheld ⊢
      cases hheld
      by_cases hown : (w.slot (tokenTable kind) id').HeldBy t
      · obtain ⟨own, hown⟩ := hown
        obtain ⟨token, htoken, hnone | ⟨hsame, hother⟩⟩ := h.locked id' own hown
        · rw [Slot.view_of_held hown, hnone] at hview
          cases hview
        · rw [Slot.view_of_held hown, hsame] at hview
          cases hview
          exact ⟨_, htoken, hversion⟩
      · rw [Slot.view_eq_committed hown] at hview
        exact ⟨seen, hview, hversion⟩
    · rw [hslot, Function.update_of_ne hid] at hheld ⊢
      exact h.locked id' own hheld

theorem Deleting.lock {id : Nat} {found : Option UserToken}
    (h : Deleting context kind email userId now raw t (id :: left) w) (hsound : w.Sound)
    (hinv : TokenRequests context kind w)
    (hexec : (Op.lock (tokenTable kind) id (fun (token : UserToken) => token.userId == userId)
      fun _ => none).exec t choice w = some (found, w')) :
    (tokenRequests context kind).Keeps t w w'
      ∧ Deleting context kind email userId now raw t left w' := by
  have hop : Requesting context kind t w (.lock (tokenTable kind) id
      (fun (token : UserToken) => token.userId == userId) fun _ => none) :=
    ⟨fun _ _ => ⟨fun howner => h.changes (beq_iff_eq.mp howner), fun _ => .inl rfl⟩, nofun, nofun⟩
  have hdrew := h.toDrewToken.exec hsound hexec nofun
    fun _ _ => ⟨fun _ => .inr rfl, fun _ => .inl rfl⟩
  refine ⟨h.keeps hsound hinv hexec hop, ?_⟩
  obtain ⟨_, ⟨hview, _, rfl⟩ | ⟨seen, hview, ⟨_, _, rfl⟩ | ⟨howner, _, rfl⟩⟩⟩ := exec_lock hexec
  · -- the row was deleted by somebody else, or by the transaction itself
    refine { h with left := fun hfree id' token htoken howner => ?_ }
    obtain hheld | hmem := h.left hfree id' token htoken howner
    · exact .inl hheld
    · obtain rfl | hmem := List.mem_cons.mp hmem
      · by_contra hnot
        rw [Slot.view_eq_committed fun hheld => hnot (.inl hheld)] at hview
        cases htoken.symm.trans hview
      · exact .inr hmem
  · exact h.put hview (.inl rfl) hdrew rfl ⟨[_], rfl⟩ (write_slot _ _ _)
  · exact h.put hview (.inr ⟨rfl, beq_eq_false_iff_ne.mp howner⟩) hdrew rfl ⟨[], rfl⟩
      (write_slot _ _ _)

/-- With the tokens of the user gone, nothing clashes with a new one. -/
theorem Deleting.not_clashes (h : Deleting context kind email userId now raw t [] w)
    (hfree : ¬ Overtaken kind t w.request w.trace) (expiresAt startedAt : Int) :
    w.insertClashes t (tokenTable kind)
      { userId := userId
        tokenHash := context.crypto.sha256 raw
        expiresAt := expiresAt
        createdAt := startedAt : UserToken } = false := by
  refine World.not_insertClashes_iff.mpr fun id _ (token : UserToken) hview => ?_
  refine Bool.or_eq_false_iff.mpr ⟨beq_eq_false_iff_ne.mpr fun howner => ?_, ?_⟩
  · by_cases hown : (w.slot (tokenTable kind) id).HeldBy t
    · obtain ⟨own, hown⟩ := hown
      rw [Slot.view_of_held hown] at hview
      obtain ⟨old, _, hnone | ⟨hsame, hother⟩⟩ := h.locked id own hown
      · cases hnone.symm.trans hview
      · cases hsame.symm.trans hview
        exact hother howner.symm
    · rw [Slot.view_eq_committed hown] at hview
      obtain hheld | hmem := h.left hfree id token hview howner.symm
      · exact hown hheld
      · cases hmem
  · exact beq_eq_false_iff_ne.mpr (h.unused id token (Slot.hasVersion_of_view hview)).symm

theorem Deleting.insert {found : Option Nat} {startedAt : Int} {expiresIn : Duration}
    (h : Deleting context kind email userId now raw t [] w) (hsound : w.Sound)
    (hinv : TokenRequests context kind w) (hfree : ¬ Overtaken kind t w.request w.trace)
    (hexpires : expiresIn = kind.expiresIn context.settings)
    (hexec : (Op.insert (tokenTable kind) fun _ =>
      { userId := userId
        tokenHash := context.crypto.sha256 raw
        expiresAt := now + parseDuration expiresIn
        createdAt := startedAt : UserToken }).exec t choice w = some (found, w')) :
    (tokenRequests context kind).Keeps t w w'
      ∧ ∃ tokenId, found = some tokenId ∧ Made kind email tokenId t w' := by
  subst hexpires
  refine ⟨h.keeps hsound hinv hexec ⟨fun _ _ => ?_, nofun, nofun⟩, ?_⟩
  · refine ⟨⟨h.uncommitted, raw, h.drawn, h.unused, rfl⟩, ⟨email, h.request, h.owned⟩, ?_⟩
    intro id old _ hold howner
    have hcooled := h.cooled hfree id old hold howner
    change old.createdAt + _ ≤ now + parseDuration _ - parseDuration _
    omega
  · have hasked := h.toAsked.exec hexec nofun
    obtain ⟨_, ⟨hclash, _⟩ | ⟨_, rfl, rfl⟩⟩ := exec_insert hexec
    · rw [h.not_clashes hfree] at hclash
      cases hclash
    · refine ⟨_, rfl, { hasked with held := w.allocate_heldBy _, unmailed := ?_ }⟩
      · intro id job hversion hmails
        obtain ⟨tokenId, hlt, hmails'⟩ := hinv.jobs id job hversion
        exact absurd hlt (hmails.unique hmails' ▸ Nat.lt_irrefl _)

/-- The job of the new token. -/
theorem Made.enqueue {tokenId : Nat} {found : Option Nat} {job : Nat → EmailOutboxJob}
    (h : Made kind email tokenId t w) (hsound : w.Sound) (hinv : TokenRequests context kind w)
    (hmails : ∀ id, Mails kind tokenId (job id))
    (hexec : (Op.insert jobTable job).exec t choice w = some (found, w')) :
    (tokenRequests context kind).Keeps t w w' ∧ ∃ id, found = some id ∧ Asked email t w' := by
  refine ⟨h.keeps hsound hinv hexec ⟨nofun, fun _ id => ⟨tokenId, h.held, hmails id⟩, nofun⟩, ?_⟩
  have hasked := h.exec hexec nofun
  obtain ⟨_, ⟨hclash, _⟩ | ⟨_, rfl, _⟩⟩ := exec_insert hexec
  · have hclear : w.insertClashes t jobTable (job (w.next jobTable)) = false := by
      refine World.not_insertClashes_iff.mpr fun id _ (other : EmailOutboxJob) hview => ?_
      have hversion := Slot.hasVersion_of_view hview
      obtain ⟨tokenId', _, hmails'⟩ := hinv.jobs id other hversion
      apply (hmails _).not_collides hmails'
      rintro rfl
      exact h.unmailed id other hversion hmails'
    rw [hclear] at hclash
    cases hclash
  · exact ⟨_, rfl, hasked⟩

end Phases

/-! ### The requests -/

section Requests

variable {userId : Nat} {now : Int} {raw : String}

theorem Deleting.safe_deleteLinkedJobs (h : Deleting context kind email userId now raw t [] w)
    (ids : List Nat) :
    (tokenRequests context kind).Safe t
      (fun r w => r = .ok () ∧ Deleting context kind email userId now raw t [] w)
      (UserTokens.deleteLinkedJobs kind ids) w := by
  induction ids generalizing w with
  | nil => exact ⟨rfl, h⟩
  | cons id ids ih =>
      refine Discipline.Safe.exec (Deleting.stable []) h (fun h hsound hinv _ hexec =>
        ⟨h.keeps hsound hinv hexec (requesting_select _ _), h.exec hsound hexec nofun trivial⟩)
        fun rows w h => ?_
      refine (Discipline.Safe.lockEach
        (J := fun _ _ => Deleting context kind email userId now raw t [])
        (fun _ _ => Deleting.stable []) (fun h hsound hinv _ hexec => ?_) [] h).bind ?_ ?_
      · refine ⟨h.keeps hsound hinv hexec ⟨nofun, ?_, nofun⟩, h.exec hsound hexec nofun nofun⟩
        exact fun _ _ => ⟨fun _ => .inr rfl, fun _ => .inl rfl⟩
      · rintro deleted w ⟨_, _, h⟩
        exact ih h
      · rintro error w ⟨_, heq, _⟩
        cases heq

theorem DrewToken.safe_deleteForUser (h : DrewToken context kind email userId now raw t w)
    (hunheld : Unheld kind t w) :
    (tokenRequests context kind).Safe t
      (fun r w => r = .ok () ∧ Deleting context kind email userId now raw t [] w)
      (UserTokens.deleteForUser kind userId) w := by
  refine Discipline.Safe.exec
    (J := fun w => DrewToken context kind email userId now raw t w ∧ Unheld kind t w)
    (fun h hw => ⟨DrewToken.stable h.1 hw, Unheld.stable h.2 hw⟩) ⟨h, hunheld⟩
    (fun h hsound hinv _ hexec => h.1.selectTokens h.2 hsound hinv hexec) fun rows w h => ?_
  refine (Discipline.Safe.lockEach
    (J := fun left _ => Deleting context kind email userId now raw t left)
    (fun left _ => Deleting.stable left)
    (fun h hsound hinv _ hexec => h.lock hsound hinv hexec) [] h).bind ?_ ?_
  · rintro deleted w ⟨_, _, h⟩
    exact h.safe_deleteLinkedJobs _
  · rintro error w ⟨_, heq, _⟩
    cases heq

theorem DrewToken.safe_replace (h : DrewToken context kind email userId now raw t w)
    (hunheld : Unheld kind t w) (startedAt : Int) :
    (tokenRequests context kind).Safe t
      (fun r w => ∃ tokenId, r = .ok tokenId ∧ Made kind email tokenId t w)
      (UserTokens.replace kind userId (context.crypto.sha256 raw)
        (now + parseDuration (kind.expiresIn context.settings)) startedAt) w := by
  apply (h.safe_deleteForUser hunheld).bind
  · rintro _ w ⟨_, h⟩
    refine Discipline.Safe.exec (Deleting.stable []) h (fun h hsound hinv hfree hexec =>
      h.insert hsound hinv (hfree rfl) rfl hexec) fun found w h => ?_
    obtain ⟨tokenId, rfl, h⟩ := h
    exact ⟨tokenId, rfl, h⟩
  · rintro error w ⟨heq, _⟩
    cases heq

theorem Made.safe_enqueueJob {tokenId : Nat} {message : EmailMessage}
    (h : Made kind email tokenId t w)
    (hkey : message.idempotencyKey = some (kind.jobKey tokenId)) (now : Int) :
    (tokenRequests context kind).Safe t (fun r w => ∃ id, r = .ok id ∧ Asked email t w)
      (EmailOutbox.enqueueJob message now (if kind = .confirmation then some tokenId else none)
        (if kind = .passwordReset then some tokenId else none)) w := by
  unfold EmailOutbox.enqueueJob
  rw [hkey]
  refine Discipline.Safe.exec Made.stable h (fun h hsound hinv _ hexec =>
    h.enqueue hsound hinv (fun id => ⟨rfl, rfl, rfl⟩) hexec) fun found w h => ?_
  obtain ⟨id, rfl, h⟩ := h
  exact ⟨id, rfl, h⟩

/-- The request ends with the message that everybody gets, or is cut off. -/
def AnswersAlike (kind : TokenKind) (r : Except Exn String) : Prop :=
  r = .ok kind.message ∨ r = .error .lost

theorem AskedFor.safe_sendToken {user : User} {render : User → String → Nat → Int → EmailMessage}
    (h : AskedFor email userId t w) (hunheld : Unheld kind t w)
    (hkey : ∀ raw tokenId now,
      (render user raw tokenId now).idempotencyKey = some (kind.jobKey tokenId))
    (startedAt : Int) :
    (tokenRequests context kind).Safe t (fun r _ => AnswersAlike kind r)
      (sendToken context kind (kind.cooldown context.settings) (kind.expiresIn context.settings)
        render kind.message userId user startedAt) w := by
  have hstable : (tokenRequests context kind).Stable t
      fun w => AskedFor email userId t w ∧ Unheld kind t w :=
    fun h hw => ⟨AskedFor.stable h.1 hw, Unheld.stable h.2 hw⟩
  refine Discipline.Safe.exec hstable ⟨h, hunheld⟩ ?_
    fun now w (h : AskedFor email userId t w ∧ Unheld kind t w) => ?_
  · intro w choice now w' h hsound hinv _ hexec
    have hkeeps := h.1.keeps hsound hinv hexec requesting_now
    obtain ⟨_, rfl⟩ := exec_now hexec
    exact ⟨hkeeps, h⟩
  refine Discipline.Safe.scalar_bind hstable h (fun h hsound hinv _ hexec =>
    (h.1.selectToken h.2 hsound hinv hexec).imp_right fun hread =>
      (⟨hread, h.2.select hexec⟩ : _ ∧ Unheld kind t _)) fun rows w h => ?_
  obtain ⟨⟨h, hread, hall⟩, hunheld⟩ := h
  split
  · exact .inl rfl
  · rename_i hcooled
    have hcooled : Cooled context kind email userId now t w := by
      refine { h with hasRead := hread, cooled := fun _ id token htoken howner => ?_ }
      by_contra hearly
      refine hcooled ((congrArg (Option.any _) (hall id token htoken howner)).trans ?_)
      exact decide_eq_true (Int.not_le.mp hearly)
    refine Discipline.Safe.perform_bind
      (J := fun w => Cooled context kind email userId now t w ∧ Unheld kind t w)
      (fun h hw => ⟨Cooled.stable h.1 hw, Unheld.stable h.2 hw⟩) ⟨hcooled, hunheld⟩ ?_
      fun raw w (h : DrewToken context kind email userId now raw t w ∧ Unheld kind t w) => ?_
    · intro w choice raw w' h hsound hinv _ hexec
      obtain ⟨hkeeps, hdrew⟩ := h.1.draw hsound hinv hexec
      obtain ⟨_, rfl⟩ := exec_draw hexec
      exact ⟨hkeeps, hdrew, h.2⟩
    apply (h.1.safe_replace h.2 startedAt).bind
    · rintro tokenId w ⟨_, heq, h⟩
      cases heq
      apply (h.safe_enqueueJob (hkey raw tokenId now) now).bind
      · rintro id w ⟨_, _, h⟩
        exact Discipline.Safe.perform_bind Asked.stable h (fun h hsound hinv _ hexec =>
          ⟨h.keeps hsound hinv hexec requesting_commit, trivial⟩) fun _ _ (_ : True) => .inl rfl
      · rintro error w ⟨_, heq, _⟩
        cases heq
    · rintro error w ⟨_, heq, _⟩
      cases heq

/-- A handler that looks the user up and goes on for some of them. -/
theorem Asked.safe_getByEmail {next : Option (Nat × User) → Db String} (h : Asked email t w)
    (hunheld : Unheld kind t w)
    (hnone : ∀ w, (tokenRequests context kind).Safe t (fun r _ => AnswersAlike kind r)
      (next none) w)
    (hsome : ∀ userId user w, AskedFor email userId t w → Unheld kind t w →
      (tokenRequests context kind).Safe t (fun r _ => AnswersAlike kind r)
        (next (some (userId, user))) w) :
    (tokenRequests context kind).Safe t (fun r _ => AnswersAlike kind r)
      (Users.getByEmail email >>= next) w := by
  refine Discipline.Safe.scalar_bind
    (J := fun w => Asked email t w ∧ Unheld kind t w)
    (fun h hw => ⟨Asked.stable h.1 hw, Unheld.stable h.2 hw⟩) ⟨h, hunheld⟩
    (fun h hsound hinv _ hexec => (h.1.selectUser hsound hinv hexec).imp_right fun hfound =>
      (⟨hfound, h.2.select hexec⟩ : _ ∧ Unheld kind t _)) fun rows w h => ?_
  obtain ⟨hfound, hunheld⟩ := h
  cases hhead : rows.head? with
  | none => exact hnone w
  | some entry => exact hsome entry.1 entry.2 w (hfound entry hhead) hunheld

theorem Asked.safe_handler (h : Asked email t w) (hunheld : Unheld kind t w) :
    (tokenRequests context kind).Safe t (fun r _ => AnswersAlike kind r)
      (kind.handler context email) w := by
  have hbegin : ∀ {next : Int → Db String}, (∀ startedAt w, Asked email t w → Unheld kind t w →
      (tokenRequests context kind).Safe t (fun r _ => AnswersAlike kind r) (next startedAt) w) →
      (tokenRequests context kind).Safe t (fun r _ => AnswersAlike kind r)
        (Prog.now >>= next) w := by
    intro next hnext
    refine Discipline.Safe.perform_bind
      (J := fun w => Asked email t w ∧ Unheld kind t w)
      (fun h hw => ⟨Asked.stable h.1 hw, Unheld.stable h.2 hw⟩) ⟨h, hunheld⟩ ?_
      fun startedAt w (h : Asked email t w ∧ Unheld kind t w) => hnext startedAt w h.1 h.2
    intro w choice now w' h hsound hinv _ hexec
    have hkeeps := h.1.keeps hsound hinv hexec requesting_now
    obtain ⟨_, rfl⟩ := exec_now hexec
    exact ⟨hkeeps, h⟩
  cases kind with
  | confirmation =>
      refine hbegin fun startedAt w h hunheld => h.safe_getByEmail hunheld (fun _ => .inl rfl) ?_
      intro userId user w h hunheld
      dsimp only
      split
      · exact .inl rfl
      · exact h.safe_sendToken hunheld (fun _ _ _ => rfl) startedAt
  | passwordReset =>
      refine hbegin fun startedAt w h hunheld => h.safe_getByEmail hunheld (fun _ => .inl rfl) ?_
      intro userId user w h hunheld
      dsimp only
      split
      · exact .inl rfl
      · exact h.safe_sendToken hunheld (fun _ _ _ => rfl) startedAt

end Requests

theorem tokenRequests_verified : (tokenRequests context kind).Verified (tokenSystem context kind)
    fun _ _ r _ => AnswersAlike kind r where
  stable _ _ _ _ _ h _ := h
  close _ _ _ _ _ _ h := h
  lost _ _ _ _ := .inr rfl
  handler email t w _ _ hfresh hreq := by
    have hasked : Asked email t w := ⟨hreq, hfresh.uncommitted⟩
    exact hasked.safe_handler (hfresh.unlocked (tokenTable kind))

/-- A service that has no token and no job yet. -/
def NoTokens (kind : TokenKind) (c : Config database String Exn String) : Prop :=
  c.Initial ∧ c.world.next (tokenTable kind) = 0 ∧ c.world.next jobTable = 0

theorem tokenRequests_initial {c : Config database String Exn String} (h : NoTokens kind c) :
    TokenRequests context kind c.world := by
  have htoken : ∀ id, c.world.slot (tokenTable kind) id = Slot.empty := fun id =>
    h.1.1.beyond _ id (h.2.1 ▸ Nat.zero_le id)
  have hjob : ∀ id, c.world.slot jobTable id = Slot.empty := fun id =>
    h.1.1.beyond _ id (h.2.2 ▸ Nat.zero_le id)
  have hunheld : ∀ {id lock}, (c.world.slot (tokenTable kind) id).held ≠ some lock := by
    intro id lock hheld
    rw [htoken id] at hheld
    cases hheld
  have hversion : ∀ {id token}, ¬ (c.world.slot (tokenTable kind) id).HasVersion token := by
    rintro id token (hcommitted | ⟨_, hheld⟩)
    · rw [htoken id] at hcommitted
      cases hcommitted
    · exact hunheld hheld
  constructor
  · exact fun userId => h.1.1.unlocked userTable userId
  · refine ⟨fun t id id' row row' _ hrow _ => ?_, fun t u id id' row row' _ hheld _ _ _ => ?_⟩
    · exact absurd (Slot.hasVersion_of_view hrow) hversion
    · exact absurd hheld hunheld
  · refine ⟨fun id row hrow => ?_, fun id t row hheld => ?_, fun id id' row row' hrow _ _ => ?_⟩
    · exact absurd (.inl hrow) hversion
    · exact absurd hheld hunheld
    · exact absurd hrow hversion
  · exact fun id t version token hheld _ _ => absurd hheld hunheld
  · rintro id job (hcommitted | ⟨_, hheld⟩)
    · rw [hjob id] at hcommitted
      cases hcommitted
    · rw [hjob id] at hheld
      cases hheld
  · exact fun t id id' old new hheld _ _ _ _ => absurd hheld hunheld

/-- Every request that has ended ended alike. -/
def AllAnswerAlike (kind : TokenKind) (c : Config database String Exn String) : Prop :=
  ∀ t r, c.outcome t = some r → AnswersAlike kind r

/-- Tokens are replaced after their cooldown. -/
def ObservesCooldown (context : Context) (kind : TokenKind) (w : TokenWorld) : Prop :=
  ∀ t old new, Replaces kind t old new w → CooledDown context kind old new

/-- **Requests in time answer alike.** In every run in which a request inserts its token only if no
other request for the address has committed since it read the tokens, every request that ends gives
the same message, and tokens are replaced after their cooldown. -/
theorem requests_answer_alike_of_in_time {c : Config database String Exn String}
    (h : Transition.Reachable (tokenSystem context kind).step (NoTokens kind)
      (fun c l => c.Meets (InsertsInTime kind) l) c) :
    AllAnswerAlike kind c ∧ ObservesCooldown context kind c.world := by
  have hholds : Discipline.Holds (tokenRequests context kind)
      (fun _ _ r _ => AnswersAlike kind r) c :=
    tokenRequests_verified.holds (fun _ hinit => ⟨hinit.1, tokenRequests_initial hinit⟩) h
  refine ⟨fun t r houtcome => ?_, ?_⟩
  · obtain ⟨_, _, halike⟩ := hholds.outcome (Config.client_of_outcome houtcome)
    exact halike
  · rintro t old new ⟨howner, id, id', hheld, hold, hheld', hnone⟩
    exact hholds.inv.cooled t id id' old new hheld hold hheld' hnone howner

theorem smallService_noTokens : NoTokens kind (smallService String Exn String) :=
  ⟨smallService_initial _ _ _, rfl, rfl⟩

/-- Ona's token of one hour. -/
def onasToken (raw : String) (requestedAt : Int) : UserToken where
  userId := 0
  tokenHash := raw
  expiresAt := requestedAt + 3600000000
  createdAt := requestedAt

/-- Ona asks for a new password, and once more after the cooldown, up to the second insertion. -/
def askedTwice : List (Label String) :=
  [.spawn 0 "ona@example.lt", .exec 0 {}, .exec 0 { order := [0] }, .exec 0 {}, .exec 0 {},
    .exec 0 { token := "first" }, .exec 0 {}, .exec 0 {}, .exec 0 {}, .exec 0 {}, .close 0,
    .tick 60000000,
    .spawn 1 "ona@example.lt", .exec 1 {}, .exec 1 { order := [0] }, .exec 1 {},
    .exec 1 { order := [0] }, .exec 1 { token := "second" }, .exec 1 { order := [0] }, .exec 1 {},
    .exec 1 { order := [0] }, .exec 1 {}, .exec 1 {}]

theorem requests_answer_alike_of_in_time_twice :
    ∃ c, Transition.run (Transition.guarded (tokenSystem plainContext .passwordReset).step
          fun c l => c.Meets (InsertsInTime .passwordReset) l) (smallService String Exn String)
        askedTwice = some c
      ∧ Replaces .passwordReset 1 (onasToken "first" 0) (onasToken "second" 60000000) c.world
      ∧ AllAnswerAlike .passwordReset c
      ∧ ObservesCooldown plainContext .passwordReset c.world := by
  have hrun : (Transition.run (Transition.guarded (tokenSystem plainContext .passwordReset).step
      fun c l => c.Meets (InsertsInTime .passwordReset) l) (smallService String Exn String)
      askedTwice).any fun c => decide (ReplacesRow .passwordReset 1 0 1 (onasToken "first" 0)
        (onasToken "second" 60000000) c.world) := by decide
  obtain ⟨c, hc, hreplaces⟩ := (Option.any_eq_true _ _).mp hrun
  refine ⟨c, hc, ⟨rfl, 0, 1, of_decide_eq_true hreplaces⟩, ?_⟩
  exact requests_answer_alike_of_in_time
    (Transition.reachable_of_guarded_run smallService_noTokens _ hc)

/-! ### Two requests at once -/

/-- Ona's two requests find no token. -/
def askedAtOnce : List (Label String) :=
  [.spawn 0 "ona@example.lt", .exec 0 {}, .exec 0 { order := [0] }, .exec 0 {}, .exec 0 {},
    .spawn 1 "ona@example.lt", .exec 1 {}, .exec 1 { order := [0] }, .exec 1 {}, .exec 1 {},
    .exec 0 { token := "first" }, .exec 1 { token := "second" }, .exec 0 {}]

/-- The second one looks for tokens to delete, and inserts when the first one has committed. -/
def insertedLate : List (Label String) :=
  askedAtOnce ++ [.exec 1 {}, .exec 0 {}, .exec 0 {}, .exec 0 {}, .exec 1 {}]

/-- The second one looks for tokens to delete when the first one has committed. -/
def deletedLate : List (Label String) :=
  askedAtOnce ++ [.exec 0 {}, .exec 0 {}, .exec 0 {}, .exec 1 { order := [0] }, .exec 1 {},
    .exec 1 { order := [0] }, .exec 1 {}, .exec 1 {}]

theorem concurrentRequests_fail :
    (∃ c, Transition.run (tokenSystem plainContext .passwordReset).step
          (smallService String Exn String) insertedLate = some c
        ∧ c.outcome 1 = some (.error .integrityError) ∧ ¬ AllAnswerAlike .passwordReset c)
      ∧ ∃ c, Transition.run (tokenSystem plainContext .passwordReset).step
          (smallService String Exn String) deletedLate = some c
        ∧ ¬ ObservesCooldown plainContext .passwordReset c.world := by
  constructor
  · have hrun : (Transition.run (tokenSystem plainContext .passwordReset).step
        (smallService String Exn String) insertedLate).any fun c =>
          decide (c.outcome 1 = some (.error .integrityError)) := by decide
    obtain ⟨c, hc, houtcome⟩ := (Option.any_eq_true _ _).mp hrun
    refine ⟨c, hc, of_decide_eq_true houtcome, fun halike => ?_⟩
    obtain heq | heq := halike 1 _ (of_decide_eq_true houtcome)
    · cases heq
    · cases heq
  · have hrun : (Transition.run (tokenSystem plainContext .passwordReset).step
        (smallService String Exn String) deletedLate).any fun c =>
          decide (ReplacesRow .passwordReset 1 0 1 (onasToken "first" 0) (onasToken "second" 0)
            c.world) := by decide
    obtain ⟨c, hc, hreplaces⟩ := (Option.any_eq_true _ _).mp hrun
    refine ⟨c, hc, fun hcooldown => ?_⟩
    have hcooled := hcooldown 1 (onasToken "first" 0) (onasToken "second" 0)
      ⟨rfl, 0, 1, of_decide_eq_true hreplaces⟩
    exact absurd hcooled (by unfold CooledDown; decide)

end EventsApi
