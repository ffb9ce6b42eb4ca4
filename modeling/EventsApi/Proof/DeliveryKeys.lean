import EventsApi.Mailer.Delivery
import EventsApi.Proof.OutboxFate
import EventsApi.Proof.SessionSteps
import EventsApi.Proof.TokenSteps

/-!
# Every delivery of a job is recognisable

Workers may hand a job to the provider more than once, and each hand-over may make several requests.
All of them are one request: the message of a job never changes between its enqueueing and its
failure, and the adapter builds the request from nothing else. Keys of different jobs differ, because
a key determines the value that was drawn for it.
-/

namespace EventsApi

open EmailOutbox

/-! ### What the adapter sends -/

theorem Resend.eq_of_mem_sendWithRetryFrom {request : Post} {results : Nat → PostResult}
    {attempt left : Nat} {post : Post}
    (h : post ∈ (sendWithRetryFrom request results attempt left).1) : post = request := by
  induction left generalizing attempt with
  | zero => cases h
  | succ left ih =>
      have hagain : post ∈ request :: (sendWithRetryFrom request results (attempt + 1) left).1 →
          post = request := fun hmem => (List.mem_cons.mp hmem).elim id ih
      rw [sendWithRetryFrom] at h
      cases hresult : results attempt with
      | httpError => simpa [hresult] using h
      | transportError =>
          by_cases hlast : left = 0
          · simpa [hresult, hlast] using h
          · simp only [hresult, if_neg hlast] at h
            exact hagain h
      | responded response =>
          simp only [hresult] at h
          split at h
          · exact List.mem_singleton.mp h
          · split at h
            · exact List.mem_singleton.mp h
            · split at h
              · exact List.mem_singleton.mp h
              · exact hagain h

theorem ResendEmailSender.eq_of_mem_send {sender : ResendEmailSender} {message : EmailMessage}
    {uuid : String} {results : Nat → Resend.PostResult} {post : Resend.Post}
    (h : post ∈ (sender.send message uuid results).1) : post = sender.post message uuid := by
  unfold ResendEmailSender.send at h
  split at h
  · cases h
  · exact Resend.eq_of_mem_sendWithRetryFrom h

/-- With a key of its own, a message does not get one for each call. -/
theorem ResendEmailSender.idempotencyKey_of_key {message : EmailMessage} {key : String}
    (hkey : message.idempotencyKey = some key) (hne : key ≠ "") (uuid : String) :
    ResendEmailSender.idempotencyKey message uuid = key := by
  unfold ResendEmailSender.idempotencyKey
  rw [hkey]
  split
  · contradiction
  · exact absurd (Option.some_inj.mp ‹_›) hne
  · exact (Option.some_inj.mp ‹_›).symm

/-! ### Keys -/

def Draw.key : Draw → String
  | .tokenId kind id => kind.jobKey id
  | .uuid value => "issue-report/" ++ value

/-- The first letter of a key tells what was drawn for it. -/
def Draw.letter : Draw → Char
  | .tokenId .confirmation _ => 'e'
  | .tokenId .passwordReset _ => 'p'
  | .uuid _ => 'i'

theorem Draw.head_key (draw : Draw) : draw.key.toList.head? = some draw.letter := by
  have hhead : ∀ rest : String,
      ("email-confirmation/" ++ rest).toList.head? = some 'e'
        ∧ ("password-reset/" ++ rest).toList.head? = some 'p'
        ∧ ("issue-report/" ++ rest).toList.head? = some 'i' := by simp
  cases draw with
  | tokenId kind id =>
      cases kind with
      | confirmation => exact (hhead _).1
      | passwordReset => exact (hhead _).2.1
  | uuid value => exact (hhead value).2.2

theorem Draw.key_ne (draw : Draw) : draw.key ≠ "" := by
  intro hempty
  have hhead := draw.head_key
  rw [hempty] at hhead
  cases hhead

theorem Draw.key_injective : Function.Injective Draw.key := by
  intro draw draw' h
  have hletter : draw.letter = draw'.letter :=
    Option.some_inj.mp (draw.head_key.symm.trans ((congrArg (·.toList.head?) h).trans draw'.head_key))
  cases draw with
  | tokenId kind id =>
      cases draw' with
      | tokenId kind' id' =>
          have hkind : kind = kind' := by
            cases kind <;> cases kind' <;> first | rfl | cases hletter
          subst hkind
          have hid : id = id' := TokenKind.jobKey_injective h
          rw [hid]
      | uuid => cases kind <;> cases hletter
  | uuid value =>
      cases draw' with
      | tokenId kind => cases kind <;> cases hletter
      | uuid value' => rw [(String.append_right_inj _).mp h]

theorem Mail.idempotencyKey (context : Context) (mail : Mail) (now : Int) :
    (mail.message context now).idempotencyKey = some mail.draw.key := by
  cases mail with
  | token kind => cases kind <;> rfl
  | issueReport => rfl

/-! ### The runs -/

/-- The keys of all jobs ever enqueued belong to values drawn, and no two jobs share one. -/
structure DeliveryInv (s : DeliveryState) : Prop where
  keyed : ∀ id message, .enqueued id message ∈ s.outbox.log →
    ∃ draw ∈ s.drawn, message.idempotencyKey = some draw.key
  distinct : ∀ id id' message message', .enqueued id message ∈ s.outbox.log →
    .enqueued id' message' ∈ s.outbox.log → message.idempotencyKey = message'.idempotencyKey →
    id = id'

theorem DeliveryInv.quiet {s : DeliveryState} (h : DeliveryInv s) {outbox : EmailOutbox.State}
    {drawn : List Draw} (hdrawn : s.drawn ⊆ drawn)
    (hlog : ∀ id message, .enqueued id message ∈ outbox.log →
      .enqueued id message ∈ s.outbox.log) : DeliveryInv ⟨outbox, drawn⟩ where
  keyed := by
    intro id message hmem
    obtain ⟨draw, hdraw, hkey⟩ := h.keyed id message (hlog id message hmem)
    exact ⟨draw, hdrawn hdraw, hkey⟩
  distinct := by
    intro id id' message message' hmem hmem'
    exact h.distinct id id' message message' (hlog _ _ hmem) (hlog _ _ hmem')

theorem DeliveryInv.request {s : DeliveryState} (h : DeliveryInv s) {draw : Draw}
    (hfresh : draw ∉ s.drawn) {id : Nat} {message : EmailMessage}
    (hkey : message.idempotencyKey = some draw.key) {outbox : EmailOutbox.State}
    (hlog : outbox.log = .enqueued id message :: s.outbox.log) :
    DeliveryInv ⟨outbox, draw :: s.drawn⟩ := by
  have hnew : ∀ old other, .enqueued old other ∈ s.outbox.log →
      message.idempotencyKey ≠ other.idempotencyKey := by
    intro old other hmem hsame
    obtain ⟨draw', hdrawn, hother⟩ := h.keyed old other hmem
    have heq : draw = draw' :=
      Draw.key_injective (Option.some_inj.mp (hkey.symm.trans (hsame.trans hother)))
    exact hfresh (heq ▸ hdrawn)
  constructor
  · intro id' message' hmem
    rw [hlog] at hmem
    obtain heq | hold := List.mem_cons.mp hmem
    · cases heq
      exact ⟨draw, List.mem_cons_self, hkey⟩
    · obtain ⟨draw', hdrawn, hother⟩ := h.keyed id' message' hold
      exact ⟨draw', List.mem_cons_of_mem _ hdrawn, hother⟩
  · intro first second message₁ message₂ hfirst hsecond hsame
    rw [hlog] at hfirst hsecond
    obtain heq | hold := List.mem_cons.mp hfirst <;>
      obtain heq' | hold' := List.mem_cons.mp hsecond
    · cases heq
      cases heq'
      rfl
    · cases heq
      exact absurd hsame (hnew second message₂ hold')
    · cases heq'
      exact absurd hsame.symm (hnew first message₁ hold)
    · exact h.distinct first second message₁ message₂ hold hold' hsame

/-- Only an enqueueing step adds an entry for an enqueued job. -/
theorem enqueued_of_step {s s' : EmailOutbox.State} {l : Label}
    (hl : ∀ message now confirmationTokenId passwordResetTokenId,
      l ≠ .enqueue message now confirmationTokenId passwordResetTokenId)
    (hs : step s l = some s') {id : Nat} {message : EmailMessage}
    (h : .enqueued id message ∈ s'.log) : .enqueued id message ∈ s.log := by
  cases effect_of_step hs with
  | nothing => exact h
  | enqueue => exact absurd rfl (hl _ _ _ _)
  | claim | settle => exact (List.mem_cons.mp h).resolve_left (by simp)
  | move _ _ _ _ hmove =>
      apply (List.mem_append.mp h).resolve_left
      intro hnew
      cases hmove.not_milestone hnew
  | cascade => exact (List.mem_append.mp h).resolve_left (by simp)

variable {context : Context}

theorem outboxStep_spec {s s' : DeliveryState} {l : Label}
    (hs : deliveryStep context s (.outbox l) = some s') :
    (∀ message now confirmationTokenId passwordResetTokenId,
        l ≠ .enqueue message now confirmationTokenId passwordResetTokenId)
      ∧ ∃ outbox, step s.outbox l = some outbox ∧ s' = { s with outbox := outbox } := by
  cases l with
  | enqueue => cases hs
  | _ =>
      simp only [deliveryStep, Option.map_eq_some_iff] at hs
      obtain ⟨outbox, hstep, rfl⟩ := hs
      exact ⟨by simp, outbox, hstep, rfl⟩

theorem requestStep_spec {s s' : DeliveryState} {mail : Mail} {now : Int}
    (hs : deliveryStep context s (.request mail now) = some s') :
    mail.draw ∉ s.drawn ∧ ∃ outbox, step s.outbox (.enqueue (mail.message context now) now
        (mail.linkedToken .confirmation) (mail.linkedToken .passwordReset)) = some outbox
      ∧ s' = ⟨outbox, mail.draw :: s.drawn⟩ := by
  rw [deliveryStep] at hs
  split at hs
  · cases hs
  · rename_i hfresh
    obtain ⟨outbox, hstep, rfl⟩ := Option.map_eq_some_iff.mp hs
    exact ⟨hfresh, outbox, hstep, rfl⟩

theorem deliveryInv_step {s s' : DeliveryState} {l : DeliveryLabel} (h : DeliveryInv s)
    (hs : deliveryStep context s l = some s') : DeliveryInv s' := by
  cases l with
  | request mail now =>
      obtain ⟨hfresh, outbox, hstep, rfl⟩ := requestStep_spec hs
      have hquiet : outbox.log = s.outbox.log → DeliveryInv ⟨outbox, mail.draw :: s.drawn⟩ :=
        fun hlog => h.quiet (List.subset_cons_self _ _) fun _ _ hmem => hlog ▸ hmem
      rw [step] at hstep
      split at hstep
      · cases hstep
        exact hquiet rfl
      · cases hstep
        exact h.request hfresh (mail.idempotencyKey context now) rfl
  | outbox l =>
      obtain ⟨hl, outbox, hstep, rfl⟩ := outboxStep_spec hs
      exact h.quiet (List.Subset.refl _) fun _ _ => enqueued_of_step hl hstep

theorem deliveryInv_reachable {s : DeliveryState} (h : DeliveryReachable context s) :
    DeliveryInv s := by
  refine Transition.Reachable.invariant (fun s hinit => ?_)
    (fun _ _ _ hinv _ hs => deliveryInv_step hinv hs) h
  subst hinit
  constructor <;> simp [DeliveryState.empty, State.empty]

theorem outbox_reachable {s : DeliveryState} (h : DeliveryReachable context s) :
    EmailOutbox.Reachable s.outbox := by
  induction h with
  | start hinit => exact .start (hinit ▸ rfl)
  | @next s s' l _ _ hs ih =>
      cases l with
      | request mail now =>
          obtain ⟨_, outbox, hstep, rfl⟩ := requestStep_spec hs
          exact ih.next trivial hstep
      | outbox l =>
          obtain ⟨_, outbox, hstep, rfl⟩ := outboxStep_spec hs
          exact ih.next trivial hstep

/-- **Every duplicate is recognisable.** In every run, all requests made for one job are the same,
whichever workers made them and however the provider answered before, and they carry the key the job
was enqueued with. The keys of two jobs ever enqueued differ, though one may be long gone. -/
theorem deliveries_recognisable (sender : ResendEmailSender) {s : DeliveryState}
    (h : DeliveryReachable context s) :
    (∀ claimed claimed', .handed claimed ∈ s.outbox.log → .handed claimed' ∈ s.outbox.log →
      claimed.id = claimed'.id → ∀ uuid uuid' results results',
        ∀ post ∈ (sender.send claimed.message uuid results).1,
        ∀ post' ∈ (sender.send claimed'.message uuid' results').1, post = post')
    ∧ (∀ claimed, .handed claimed ∈ s.outbox.log → ∃ message,
        .enqueued claimed.id message ∈ s.outbox.log ∧ ∀ uuid results,
        ∀ post ∈ (sender.send claimed.message uuid results).1,
          message.idempotencyKey = some post.idempotencyKey)
    ∧ ∀ id id' message message', .enqueued id message ∈ s.outbox.log →
        .enqueued id' message' ∈ s.outbox.log → id ≠ id' →
        message.idempotencyKey ≠ message'.idempotencyKey := by
  have hinv := deliveryInv_reachable h
  have hfate := fateInv_reachable (outbox_reachable h)
  have hkeyed : ∀ claimed, .handed claimed ∈ s.outbox.log → ∃ key,
      claimed.message.idempotencyKey = some key
        ∧ ∀ uuid, ResendEmailSender.idempotencyKey claimed.message uuid = key := by
    intro claimed hhanded
    obtain ⟨draw, _, hkey⟩ := hinv.keyed _ _ (hfate.claimed claimed (hfate.handed claimed hhanded))
    exact ⟨draw.key, hkey, ResendEmailSender.idempotencyKey_of_key hkey draw.key_ne⟩
  refine ⟨?_, ?_, ?_⟩
  · intro claimed claimed' hhanded hhanded' hid uuid uuid' results results' post hpost post' hpost'
    have henqueued := hfate.claimed claimed (hfate.handed claimed hhanded)
    have henqueued' := hfate.claimed claimed' (hfate.handed claimed' hhanded')
    have hmessage : claimed.message = claimed'.message :=
      hfate.enqueued_unique _ _ _ henqueued (hid ▸ henqueued')
    obtain ⟨key, _, hkey⟩ := hkeyed claimed hhanded
    rw [ResendEmailSender.eq_of_mem_send hpost, ResendEmailSender.eq_of_mem_send hpost',
      ResendEmailSender.post, ResendEmailSender.post, ← hmessage, hkey, hkey]
  · intro claimed hhanded
    obtain ⟨key, hmessage, hkey⟩ := hkeyed claimed hhanded
    refine ⟨claimed.message, hfate.claimed claimed (hfate.handed claimed hhanded), ?_⟩
    intro uuid results post hpost
    rw [ResendEmailSender.eq_of_mem_send hpost, hmessage, ResendEmailSender.post, hkey]
  · intro id id' message message' hmem hmem' hne hsame
    exact hne (hinv.distinct id id' message message' hmem hmem' hsame)

/-- Two workers hand over a job linked to the first confirmation token, the second after the lease
of the first. The first password reset token has the same id. -/
def duplicatedRun : List DeliveryLabel :=
  [.request (.token .confirmation confirmedUser "raw" 0) 0,
    .request (.token .passwordReset confirmedUser "other" 0) 0,
    .outbox (.claim 0 0 120 [] "first"), .outbox (.handOver 0),
    .outbox (.claim 1 200 120 [] "second"), .outbox (.handOver 1)]

def duplicatedClaim (attempts : Nat) (lockToken : String) : ClaimedEmailJob :=
  ⟨0, attempts, lockToken, confirmationEmail plainContext confirmedUser "raw" 0 0⟩

theorem deliveries_recognisable_duplicated :
    ∃ s, Transition.run (deliveryStep plainContext) .empty duplicatedRun = some s
      ∧ .handed (duplicatedClaim 1 "first") ∈ s.outbox.log
      ∧ .handed (duplicatedClaim 2 "second") ∈ s.outbox.log
      ∧ ∀ uuid uuid' results results',
        ∀ post ∈ ((ResendEmailSender.mk "key" "Events").send
          (duplicatedClaim 1 "first").message uuid results).1,
        ∀ post' ∈ ((ResendEmailSender.mk "key" "Events").send
          (duplicatedClaim 2 "second").message uuid' results').1, post = post' := by
  have hrun : ∃ s, Transition.run (deliveryStep plainContext) .empty duplicatedRun = some s
      ∧ .handed (duplicatedClaim 1 "first") ∈ s.outbox.log
      ∧ .handed (duplicatedClaim 2 "second") ∈ s.outbox.log :=
    ⟨_, rfl, List.mem_cons_of_mem _ (List.mem_cons_of_mem _ List.mem_cons_self),
      List.mem_cons_self⟩
  obtain ⟨s, hrun, hfirst, hsecond⟩ := hrun
  have hreach : DeliveryReachable plainContext s := by
    apply Transition.reachable_of_run _ _ _ hrun
    · rfl
    · exact fun _ _ _ _ _ _ _ => trivial
  exact ⟨s, hrun, hfirst, hsecond,
    (deliveries_recognisable (.mk "key" "Events") hreach).1 _ _ hfirst hsecond rfl⟩

end EventsApi
