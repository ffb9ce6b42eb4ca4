import EventsApi.Proof.SessionSteps

/-!
# What a failed login gives away

A login with an address nobody has and one with a wrong password for an existing account are
answered alike as long as bcrypt looks at the password. It refuses a password of more than 72 bytes,
which nothing before it does, and the request then ends in an internal server error, but only where
there is an account to check the password against.
-/

namespace EventsApi

open ReadCommitted

variable {context : Context} {Req : Type} {t : Txn} {w : World database Req}

/-- However the request runs, it is answered like this, and no table changes. -/
def AnsweredWith {α : Type} (t : Txn) (w : World database Req) (p : Db α)
    (response : Response α) : Prop :=
  (∃ r w', p.Runs t w r w')
    ∧ ∀ r w', p.Runs t w r w' → respond r = response ∧ w'.slot = w.slot ∧ w'.next = w.next

/-- The stored users with an address. -/
def HasUser (t : Txn) (w : World database Req) (email : String) (id : Nat) (user : User) : Prop :=
  id < w.next .users ∧ (w.slot .users id).view t = some user ∧ user.email = email

/-- The account belongs to somebody else's password. -/
def OtherPassword (crypto : Crypto) (password : String) (user : User) : Prop :=
  ∃ stored salt, stored.utf8ByteSize ≤ bcryptMaxBytes ∧ stored ≠ password
    ∧ user.passwordHash = crypto.hashpw stored salt

/-- The error of a login whose password does not fit. -/
def loginError (password : String) : Exn :=
  if password.utf8ByteSize ≤ bcryptMaxBytes then invalidCredentials else .valueError

theorem verifyPassword_of_other {crypto : Crypto} {password : String} {user : User}
    (h : OtherPassword crypto password user) : verifyPassword crypto password user.passwordHash
      = if password.utf8ByteSize ≤ bcryptMaxBytes then .ok false else .error .valueError := by
  obtain ⟨stored, salt, hstored, hne, hhash⟩ := h
  unfold verifyPassword
  by_cases hsize : password.utf8ByteSize ≤ bcryptMaxBytes
  · have hcheck : crypto.checkpw password (crypto.hashpw stored salt) = false :=
      Bool.eq_false_iff.mpr fun htrue =>
        hne ((crypto.checkpw_hashpw password stored salt hsize hstored).mp htrue).symm
    rw [if_pos hsize, if_pos hsize, hhash, hcheck]
  · rw [if_neg hsize, if_neg hsize]

theorem login_eq (email password : String) : login context email password =
    .exec .now fun startedAt =>
      .exec (.select (S := database) .users fun _ (user : User) => user.email == email) fun rows =>
        (checkCredentials context password rows.head?).bind (openSession context startedAt) := rfl

/-- A login whose check fails on whatever the lookup finds is answered with that error. -/
theorem login_answered {email password : String} {error : Exn}
    (hunlocked : ∀ T id, ¬ (w.slot T id).HeldBy t)
    (hcheck : ∀ rows : List (Nat × User),
      (∀ id user, (id, user) ∈ rows ↔ HasUser t w email id user) →
      checkCredentials context password rows.head? = .raise error) :
    AnsweredWith t w (login context email password) (respond (.error error)) := by
  have hfound : ∀ choice rows w₁,
      (Op.select (S := database) .users fun _ (user : User) => user.email == email).exec t choice w
        = some (rows, w₁) →
      checkCredentials context password rows.head? = .raise error ∧ w₁.slot = w.slot
        ∧ w₁.next = w.next := by
    intro choice rows w₁ hexec
    obtain ⟨rfl, _, hrows⟩ := exec_select hexec
    refine ⟨hcheck rows fun id user => (hrows id user).trans ?_, rfl, rfl⟩
    exact and_congr_right fun _ => and_congr_right fun _ => beq_iff_eq
  constructor
  · have hexec : ∃ rows w₁,
        (Op.select (S := database) .users fun _ (user : User) => user.email == email).exec t
          { order := w.matching t Table.users fun _ (user : User) => user.email == email } w
          = some (rows, w₁) := by
      simp only [Op.exec]
      exact ⟨_, _, if_pos (List.Perm.refl _)⟩
    obtain ⟨rows, w₁, hexec⟩ := hexec
    refine ⟨.error error, w₁.finish t false, ?_⟩
    rw [login_eq]
    refine Prog.runs_exec.mpr ⟨{}, w.clock, w, rfl, Prog.runs_exec.mpr ⟨_, rows, w₁, hexec, ?_⟩⟩
    rw [(hfound _ rows w₁ hexec).1]
    exact .raise error w₁
  · intro r w' hruns
    rw [login_eq] at hruns
    obtain ⟨_, startedAt, w₀, hnow, hlookup⟩ := Prog.runs_exec.mp hruns
    obtain ⟨_, rfl⟩ := exec_now hnow
    obtain ⟨choice, rows, w₁, hexec, hend⟩ := Prog.runs_exec.mp hlookup
    obtain ⟨hraise, hslot, hnext⟩ := hfound choice rows w₁ hexec
    rw [hraise] at hend
    obtain ⟨rfl, rfl⟩ := Prog.runs_raise.mp hend
    refine ⟨rfl, ?_, hnext⟩
    rw [← hslot] at hunlocked ⊢
    exact World.finish_slot false hunlocked

theorem login_answered_missing {email password : String}
    (hunlocked : ∀ T id, ¬ (w.slot T id).HeldBy t)
    (hmissing : ∀ id user, ¬ HasUser t w email id user) :
    AnsweredWith t w (login context email password) (respond (.error invalidCredentials)) := by
  refine login_answered hunlocked fun rows hrows => ?_
  have hnil : rows = [] := by
    apply List.eq_nil_iff_forall_not_mem.mpr
    intro entry hentry
    exact hmissing entry.1 entry.2 ((hrows entry.1 entry.2).mp hentry)
  rw [hnil]
  rfl

theorem login_answered_taken {email password : String}
    (hunlocked : ∀ T id, ¬ (w.slot T id).HeldBy t)
    (htaken : ∃ id user, HasUser t w email id user)
    (hother : ∀ id user, HasUser t w email id user → OtherPassword context.crypto password user) :
    AnsweredWith t w (login context email password) (respond (.error (loginError password))) := by
  apply login_answered hunlocked
  intro rows hrows
  cases rows with
  | nil =>
      obtain ⟨id, user, huser⟩ := htaken
      exact absurd ((hrows id user).mpr huser) List.not_mem_nil
  | cons entry rows =>
      obtain ⟨id, user⟩ := entry
      have hverify :=
        verifyPassword_of_other (hother id user ((hrows id user).mp List.mem_cons_self))
      by_cases hsize : password.utf8ByteSize ≤ bcryptMaxBytes
      · rw [if_pos hsize] at hverify
        rw [loginError, if_pos hsize]
        simp [checkCredentials, hverify, Prog.ofExcept]
      · rw [if_neg hsize] at hverify
        rw [loginError, if_neg hsize]
        simp [checkCredentials, hverify, Prog.ofExcept]

theorem AnsweredWith.unique {α : Type} {p : Db α} {first second : Response α}
    (hfirst : AnsweredWith t w p first) (hsecond : AnsweredWith t w p second) : first = second := by
  obtain ⟨⟨r, w', hruns⟩, hall⟩ := hfirst
  exact (hall r w' hruns).1.symm.trans (hsecond.2 r w' hruns).1

/-- **Login hides accounts from passwords bcrypt accepts.** Over any stored users, a login with an
address nobody has and one with an address whose accounts have other passwords are answered with the
same error and change nothing, exactly when the password has at most 72 bytes. -/
theorem login_hides_account_iff {missing taken password : String}
    (hunlocked : ∀ T id, ¬ (w.slot T id).HeldBy t)
    (hmissing : ∀ id user, ¬ HasUser t w missing id user)
    (htaken : ∃ id user, HasUser t w taken id user)
    (hother : ∀ id user, HasUser t w taken id user → OtherPassword context.crypto password user) :
    (∃ body headers, AnsweredWith t w (login context missing password) (.error body headers)
      ∧ AnsweredWith t w (login context taken password) (.error body headers))
    ↔ password.utf8ByteSize ≤ bcryptMaxBytes := by
  have hfirst := @login_answered_missing context _ _ _ missing password hunlocked hmissing
  have hsecond := login_answered_taken hunlocked htaken hother
  constructor
  · rintro ⟨body, headers, _, hanswered⟩
    by_contra hsize
    rw [loginError, if_neg hsize] at hsecond
    cases hanswered.unique hsecond
  · intro hsize
    rw [loginError, if_pos hsize] at hsecond
    exact ⟨_, _, hfirst, hsecond⟩

theorem hasUser_confirmedUser {email : String} {id : Nat} {user : User} :
    HasUser t (storedUsers [confirmedUser] : World database Req) email id user ↔
      id = 0 ∧ user = confirmedUser ∧ email = confirmedUser.email := by
  cases id with
  | zero =>
      constructor
      · rintro ⟨_, huser, rfl⟩
        cases huser
        exact ⟨rfl, rfl, rfl⟩
      · rintro ⟨_, rfl, rfl⟩
        exact ⟨Nat.zero_lt_one, rfl, rfl⟩
  | succ id =>
      constructor
      · rintro ⟨hlt, _⟩
        exact absurd hlt (by simp [storedUsers])
      · rintro ⟨hid, _⟩
        cases hid

theorem unlocked_confirmedUser (T : Table) (id : Nat) :
    ¬ (((storedUsers [confirmedUser] : World database Req).slot T id).HeldBy t) := by
  rintro ⟨version, hversion⟩
  rw [(storedUsers_initial [confirmedUser]).unlocked T id] at hversion
  cases hversion

theorem otherPassword_confirmedUser {password : String} (h : "correct horse" ≠ password) :
    OtherPassword plainContext.crypto password confirmedUser :=
  ⟨"correct horse", "", by decide, h, rfl⟩

theorem login_hides_account_iff_short :
    (∃ body headers,
      AnsweredWith 0 (storedUsers [confirmedUser] : World database Unit)
        (login plainContext "jonas@example.lt" "battery staple") (.error body headers)
      ∧ AnsweredWith 0 (storedUsers [confirmedUser] : World database Unit)
        (login plainContext "ona@example.lt" "battery staple") (.error body headers))
    ↔ "battery staple".utf8ByteSize ≤ bcryptMaxBytes := by
  apply login_hides_account_iff unlocked_confirmedUser
  · intro id user huser
    exact absurd (hasUser_confirmedUser.mp huser).2.2 (by decide)
  · exact ⟨0, confirmedUser, hasUser_confirmedUser.mpr ⟨rfl, rfl, rfl⟩⟩
  · intro id user huser
    rw [(hasUser_confirmedUser.mp huser).2.1]
    exact otherPassword_confirmedUser (by decide)

/-- 73 letters. -/
def longPassword : String := String.ofList (List.replicate 73 'a')

/-- A long password is answered with a 401 where there is no account and with a 500 where there is
one. -/
theorem longPassword_reveals_account :
    AnsweredWith 0 (storedUsers [confirmedUser] : World database Unit)
      (login plainContext "jonas@example.lt" longPassword)
      (.error ⟨401, "Invalid email or password", none⟩ [])
    ∧ AnsweredWith 0 (storedUsers [confirmedUser] : World database Unit)
      (login plainContext "ona@example.lt" longPassword) .internalServerError
    ∧ ¬ ∃ response,
      AnsweredWith 0 (storedUsers [confirmedUser] : World database Unit)
        (login plainContext "jonas@example.lt" longPassword) response
      ∧ AnsweredWith 0 (storedUsers [confirmedUser] : World database Unit)
        (login plainContext "ona@example.lt" longPassword) response := by
  have hmissing : AnsweredWith 0 (storedUsers [confirmedUser] : World database Unit)
      (login plainContext "jonas@example.lt" longPassword)
      (.error ⟨401, "Invalid email or password", none⟩ []) := by
    apply login_answered_missing unlocked_confirmedUser
    intro id user huser
    exact absurd (hasUser_confirmedUser.mp huser).2.2 (by decide)
  have htaken : AnsweredWith 0 (storedUsers [confirmedUser] : World database Unit)
      (login plainContext "ona@example.lt" longPassword) .internalServerError := by
    refine login_answered_taken unlocked_confirmedUser ?_ fun id user huser => ?_
    · exact ⟨0, confirmedUser, hasUser_confirmedUser.mpr ⟨rfl, rfl, rfl⟩⟩
    · rw [(hasUser_confirmedUser.mp huser).2.1]
      exact otherPassword_confirmedUser (by decide)
  refine ⟨hmissing, htaken, fun hsame => ?_⟩
  obtain ⟨response, hfirst, hsecond⟩ := hsame
  cases (hmissing.unique hfirst).trans (hsecond.unique htaken)

end EventsApi
