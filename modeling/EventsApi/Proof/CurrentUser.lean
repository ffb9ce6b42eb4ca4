import EventsApi.Library.ReadCommitted.Alone
import EventsApi.Proof.AccountShape
import EventsApi.Users.Router

/-!
# The user of a request

What a request knows of its user when no other transaction has come between: the row that the claims
of the access token name, with a confirmed address. Up to there it has only read.
-/

namespace EventsApi

open ReadCommitted

abbrev UserWorld := World database UserRequest

abbrev UserConfig := Config database UserRequest Exn UserReply

/-- The user that the claims of a valid access token name. -/
def authenticatedAs (context : Context) (credentials : Option String) (now : Int) : Option Nat :=
  (credentials.bind (context.crypto.decode · now)).map (·.sub)

/-- The trace may have grown, and nothing else has happened. -/
structure OnlyRead (w w' : UserWorld) : Prop where
  slot : w'.slot = w.slot
  next : w'.next = w.next
  clock : w'.clock = w.clock
  drawn : w'.drawn = w.drawn

variable {context : Context} {t : Txn} {w w' w'' : UserWorld}

theorem OnlyRead.refl (w : UserWorld) : OnlyRead w w := ⟨rfl, rfl, rfl, rfl⟩

theorem OnlyRead.note (h : OnlyRead w w') (t : Txn) (event : ReadCommitted.Event database) :
    OnlyRead w (w'.note t event) :=
  ⟨h.slot, h.next, h.clock, h.drawn⟩

theorem OnlyRead.sound (h : OnlyRead w w') (hsound : w.Sound) : w'.Sound where
  beyond T id hle := by
    rw [h.slot]
    exact hsound.beyond T id (h.next ▸ hle)
  drawn_nodup := h.drawn ▸ hsound.drawn_nodup

/-- What is known of the user that `get_current_user` gives. -/
structure Identified (context : Context) (credentials : Option String) (t : Txn) (w : UserWorld)
    (startedAt : Int) (userId : Nat) (user : User) : Prop where
  authenticated : authenticatedAs context credentials w.clock = some userId
  startedAt : startedAt = w.clock
  seen : (w.slot userTable userId).view t = some user
  verified : user.emailVerifiedAt ≠ none

theorem getCurrentUser_ensures (credentials : Option String) :
    (getCurrentUser context credentials).Ensures t
      (fun r w' => OnlyRead w w' ∧ ∀ startedAt userId user, r = .ok (startedAt, userId, user) →
        Identified context credentials t w startedAt userId user) w := by
  have hrefused : ∀ {w' : UserWorld}, OnlyRead w w' → OnlyRead w w'
      ∧ ∀ startedAt userId user, (.error unauthorized : Except Exn (Int × Nat × User))
        = .ok (startedAt, userId, user) →
          Identified context credentials t w startedAt userId user :=
    fun h => ⟨h, fun _ _ _ heq => by cases heq⟩
  unfold getCurrentUser
  cases credentials with
  | none => exact hrefused (.refl w)
  | some token =>
      apply Prog.Ensures.perform_bind
      intro choice checkedAt w₁ hexec
      obtain ⟨rfl, rfl⟩ := exec_now hexec
      cases hdecode : context.crypto.decode token w₁.clock with
      | none => exact hrefused (.refl w₁)
      | some claims =>
          apply Prog.Ensures.perform_bind
          intro choice startedAt w₂ hexec
          obtain ⟨rfl, rfl⟩ := exec_now hexec
          apply Prog.Ensures.scalar_bind
          intro choice rows w₃ hexec
          obtain ⟨rfl, _, hrows⟩ := exec_select hexec
          have hread := (OnlyRead.refl w₂).note t (.selected userTable rows)
          match rows, hrows, hread with
          | [], _, hread => exact hrefused hread
          | (userId, user) :: rest, hrows, hread =>
              obtain ⟨_, hview, hid⟩ := (hrows userId user).mp List.mem_cons_self
              have hsub : userId = claims.sub := beq_iff_eq.mp hid
              simp only [List.head?_cons]
              cases hverified : user.emailVerifiedAt with
              | none => exact hrefused hread
              | some verifiedAt =>
                  refine ⟨hread, ?_⟩
                  rintro _ _ _ ⟨⟩
                  refine ⟨?_, rfl, hview, by rw [hverified]; exact Option.some_ne_none _⟩
                  rw [authenticatedAs, Option.bind_some, hdecode, hsub]
                  rfl

end EventsApi
