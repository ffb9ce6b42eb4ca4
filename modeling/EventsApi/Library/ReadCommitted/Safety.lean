import EventsApi.Library.ReadCommitted.Interference

/-!
# One transaction at a time

Interleavings are taken apart by what each transaction relies on. A discipline names an invariant of
the world and, for every transaction, what it relies on the others for. A program is safe if each of
its operations keeps the invariant and what the others rely on, whatever they did since the
operation before. If every handler is safe, the invariant holds in every reachable configuration,
and every finished client meets its postcondition.
-/

namespace ReadCommitted

variable {S : Schema} {Req ε α β : Type}

structure Discipline (S : Schema) (Req : Type) where
  inv : World S Req → Prop
  rely : Txn → World S Req → World S Req → Prop
  /-- The side condition on operations under which the invariant is claimed. -/
  allowed : Txn → World S Req → Kind S → Prop
  rely_refl : ∀ t w, rely t w w
  rely_trans : ∀ {t w₁ w₂ w₃}, rely t w₁ w₂ → rely t w₂ w₃ → rely t w₁ w₃
  quiet : ∀ {w w'}, Quiet w w' → inv w → inv w' ∧ ∀ t, rely t w w'
  rollback : ∀ t {w}, w.Sound → inv w →
    inv (w.finish t false) ∧ ∀ u, u ≠ t → rely u w (w.finish t false)

namespace Discipline

variable (D : Discipline S Req)

/-- A step of transaction `t` that keeps the invariant and what the others rely on. -/
def Keeps (t : Txn) (w w' : World S Req) : Prop :=
  D.inv w' ∧ ∀ u, u ≠ t → D.rely u w w'

/-- Any number of steps of the others. -/
structure Interferes (t : Txn) (w w' : World S Req) : Prop where
  others : Others t w w'
  rely : D.rely t w w'
  sound : w'.Sound
  inv : D.inv w'

variable {D}

theorem Keeps.trans {t : Txn} {w₁ w₂ w₃ : World S Req} (h : D.Keeps t w₁ w₂)
    (h' : D.Keeps t w₂ w₃) : D.Keeps t w₁ w₃ :=
  ⟨h'.1, fun u hne => D.rely_trans (h.2 u hne) (h'.2 u hne)⟩

theorem Interferes.refl {t : Txn} {w : World S Req} (hsound : w.Sound) (hinv : D.inv w) :
    D.Interferes t w w :=
  ⟨.refl t w, D.rely_refl t w, hsound, hinv⟩

theorem Interferes.trans {t : Txn} {w₁ w₂ w₃ : World S Req} (h : D.Interferes t w₁ w₂)
    (h' : D.Interferes t w₂ w₃) : D.Interferes t w₁ w₃ :=
  ⟨h.others.trans h'.others, D.rely_trans h.rely h'.rely, h'.sound, h'.inv⟩

variable (D)

/-- An assertion about the world that the others leave true. -/
def Stable (t : Txn) (P : World S Req → Prop) : Prop :=
  ∀ {w w'}, P w → D.Interferes t w w' → P w'

/-- Every operation of the program keeps the discipline, and every end of it meets the
postcondition. -/
def Safe (t : Txn) (Q : Except ε α → World S Req → Prop) : Prog S ε α → World S Req → Prop
  | .pure value, w => Q (.ok value) w
  | .raise error, w => Q (.error error) w
  | .exec op next, w => ∀ w₁, D.Interferes t w w₁ → D.allowed t w₁ op.kind →
      ∀ choice answer w₂, op.exec t choice w₁ = some (answer, w₂) →
        D.Keeps t w₁ w₂ ∧ Safe t Q (next answer) w₂

variable {D} {t : Txn}

/-- The rule for one operation: before it an assertion that the others leave true, after it what the
rest of the program starts from. -/
theorem Safe.exec {Q : Except ε α → World S Req → Prop} {J : World S Req → Prop}
    {K : β → World S Req → Prop} {op : Op S β} {next : β → Prog S ε α} {w : World S Req}
    (hstable : D.Stable t J) (h : J w)
    (hop : ∀ {w choice answer w'}, J w → w.Sound → D.inv w → D.allowed t w op.kind →
      op.exec t choice w = some (answer, w') → D.Keeps t w w' ∧ K answer w')
    (hnext : ∀ answer w, K answer w → D.Safe t Q (next answer) w) :
    D.Safe t Q (.exec op next) w := by
  intro w₁ hw hallowed choice answer w₂ hexec
  obtain ⟨hkeeps, hK⟩ := hop (hstable h hw) hw.sound hw.inv hallowed hexec
  exact ⟨hkeeps, hnext answer w₂ hK⟩

theorem Safe.perform_bind {Q : Except ε α → World S Req → Prop} {J : World S Req → Prop}
    {K : β → World S Req → Prop} {op : Op S β} {next : β → Prog S ε α} {w : World S Req}
    (hstable : D.Stable t J) (h : J w)
    (hop : ∀ {w choice answer w'}, J w → w.Sound → D.inv w → D.allowed t w op.kind →
      op.exec t choice w = some (answer, w') → D.Keeps t w w' ∧ K answer w')
    (hnext : ∀ answer w, K answer w → D.Safe t Q (next answer) w) :
    D.Safe t Q (Prog.perform op >>= next) w :=
  Safe.exec hstable h hop hnext

theorem Safe.scalar_bind {Q : Except ε α → World S Req → Prop} {J : World S Req → Prop}
    {T : S.Table} {K : List (Nat × S.Row T) → World S Req → Prop} {p : Nat → S.Row T → Bool}
    {next : Option (Nat × S.Row T) → Prog S ε α} {w : World S Req}
    (hstable : D.Stable t J) (h : J w)
    (hop : ∀ {w choice rows w'}, J w → w.Sound → D.inv w → D.allowed t w (.select T) →
      (Op.select T p).exec t choice w = some (rows, w') → D.Keeps t w w' ∧ K rows w')
    (hnext : ∀ rows w, K rows w → D.Safe t Q (next rows.head?) w) :
    D.Safe t Q (Prog.scalar T p >>= next) w :=
  Safe.exec hstable h hop hnext

theorem Safe.interfere {Q : Except ε α → World S Req → Prop} (hstable : ∀ r, D.Stable t (Q r))
    {p : Prog S ε α} {w w' : World S Req} (h : D.Safe t Q p w) (hw : D.Interferes t w w') :
    D.Safe t Q p w' := by
  cases p with
  | pure value => exact hstable _ h hw
  | raise error => exact hstable _ h hw
  | exec op next => exact fun w₁ hw₁ => h w₁ (hw.trans hw₁)

theorem Safe.mono {Q Q' : Except ε α → World S Req → Prop} (hmono : ∀ r w, Q r w → Q' r w)
    {p : Prog S ε α} {w : World S Req} (h : D.Safe t Q p w) : D.Safe t Q' p w := by
  induction p generalizing w with
  | pure value => exact hmono _ _ h
  | raise error => exact hmono _ _ h
  | exec op next ih =>
      intro w₁ hw₁ hallowed choice answer w₂ hexec
      obtain ⟨hkeeps, hnext⟩ := h w₁ hw₁ hallowed choice answer w₂ hexec
      exact ⟨hkeeps, ih answer hnext⟩

theorem Safe.bind {Q : Except ε α → World S Req → Prop} {Q' : Except ε β → World S Req → Prop}
    {p : Prog S ε α} {next : α → Prog S ε β} {w : World S Req} (h : D.Safe t Q p w)
    (hok : ∀ value w, Q (.ok value) w → D.Safe t Q' (next value) w)
    (herror : ∀ error w, Q (.error error) w → Q' (.error error) w) :
    D.Safe t Q' (p.bind next) w := by
  induction p generalizing w with
  | pure value => exact hok value w h
  | raise error => exact herror error w h
  | exec op rest ih =>
      intro w₁ hw₁ hallowed choice answer w₂ hexec
      obtain ⟨hkeeps, hrest⟩ := h w₁ hw₁ hallowed choice answer w₂ hexec
      exact ⟨hkeeps, ih answer hrest⟩

theorem Safe.mapError {f : ε → ε} {Q Q' : Except ε α → World S Req → Prop} {p : Prog S ε α}
    {w : World S Req} (h : D.Safe t Q p w) (hok : ∀ value w, Q (.ok value) w → Q' (.ok value) w)
    (herror : ∀ error w, Q (.error error) w → Q' (.error (f error)) w) :
    D.Safe t Q' (p.mapError f) w := by
  induction p generalizing w with
  | pure value => exact hok value w h
  | raise error => exact herror error w h
  | exec op rest ih =>
      intro w₁ hw hallowed choice answer w₂ hexec
      obtain ⟨hkeeps, hrest⟩ := h w₁ hw hallowed choice answer w₂ hexec
      exact ⟨hkeeps, ih answer hrest⟩

/-- A postcondition on the value that is returned. -/
def OnSuccess (P : α → World S Req → Prop) : Except ε α → World S Req → Prop
  | .ok value, w => P value w
  | .error _, _ => True

theorem OnSuccess.stable {P : α → World S Req → Prop} (hstable : ∀ value, D.Stable t (P value))
    (r : Except ε α) : D.Stable t (OnSuccess P r) := by
  intro w w' h hw
  cases r with
  | ok value => exact hstable value h hw
  | error error => trivial

theorem Safe.bind_onSuccess {P : α → World S Req → Prop} {Q : Except ε β → World S Req → Prop}
    {p : Prog S ε α} {next : α → Prog S ε β} {w : World S Req} (h : D.Safe t (OnSuccess P) p w)
    (hok : ∀ value w, P value w → D.Safe t Q (next value) w)
    (herror : ∀ error w, Q (.error error) w) : D.Safe t Q (p.bind next) w :=
  h.bind hok fun error w _ => herror error w

/-- The rule for locking rows one after the other: `J` is an assertion about the rows to come and
those found so far. -/
theorem Safe.lockEach {T : S.Table} {p : Nat → S.Row T → Bool} {f : S.Row T → Option (S.Row T)}
    {J : List Nat → List (Nat × S.Row T) → World S Req → Prop}
    (hstable : ∀ ids rows, D.Stable t (J ids rows))
    (hlock : ∀ {id ids rows w choice found w'}, J (id :: ids) rows w → w.Sound → D.inv w →
      D.allowed t w (.lock T) → (Op.lock T id (p id) f).exec t choice w = some (found, w') →
      D.Keeps t w w' ∧ J ids (rows ++ (found.map (id, ·)).toList) w')
    {ids : List Nat} (rows : List (Nat × S.Row T)) {w : World S Req} (h : J ids rows w) :
    D.Safe t (fun (r : Except ε _) w => ∃ more, r = .ok more ∧ J [] (rows ++ more) w)
      (Prog.lockEach T p f ids) w := by
  induction ids generalizing rows w with
  | nil => exact ⟨[], rfl, by rwa [List.append_nil]⟩
  | cons id ids ih =>
      intro w₁ hw₁ hallowed choice found w₂ hexec
      obtain ⟨hkeeps, hJ⟩ := hlock (hstable (id :: ids) rows h hw₁) hw₁.sound hw₁.inv hallowed hexec
      refine ⟨hkeeps, (ih _ hJ).bind ?_ ?_⟩
      · intro value w hvalue
        obtain ⟨more, heq, hmore⟩ := hvalue
        cases heq
        exact ⟨_, rfl, by rwa [← List.append_assoc]⟩
      · intro error w hvalue
        obtain ⟨_, heq, _⟩ := hvalue
        cases heq

/-! ### Whole systems -/

/-- A client that has done nothing yet. -/
structure Fresh (t : Txn) (w : World S Req) : Prop where
  unlocked : ∀ T id, ¬ (w.slot T id).HeldBy t
  undrawn : ∀ token, (token, t) ∉ w.drawn
  untraced : ∀ e ∈ w.trace, e.txn ≠ t

theorem Fresh.uncommitted {w : World S Req} (h : Fresh t w) : ¬ w.HasCommitted t := by
  rintro ⟨e, he, hown, _⟩
  exact h.untraced e he hown

theorem Fresh.others {w w' : World S Req} (h : Fresh t w) (hw : Others t w w') : Fresh t w' where
  unlocked T id := hw.not_mine T id (h.unlocked T id)
  undrawn token hmem := h.undrawn token (hw.mem_drawn_of_own hmem)
  untraced e he hown := h.untraced e (hw.mem_trace_of_own he hown) hown

theorem Fresh.quiet_spawn {w : World S Req} (h : Fresh t w) (hnone : w.request t = none)
    (request : Req) :
    Quiet w { w with request := Function.update w.request t (some request) } where
  slot := rfl
  next := rfl
  drawn := rfl
  trace := rfl
  clock_le := Int.le_refl _
  request u request' hrequest := by
    have hne : u ≠ t := by
      rintro rfl
      cases hnone.symm.trans hrequest
    simpa [hne] using hrequest
  newcomer u hne := by
    have hu : u = t := by
      by_contra hu
      exact hne (by simp [hu])
    exact hu ▸ h.untraced

variable (D) in
/-- What is proved of every handler, and of the clients that stop. -/
structure Verified (system : System S Req ε α)
    (Q : Req → Txn → Except ε α → World S Req → Prop) : Prop where
  stable : ∀ request t r, D.Stable t (Q request t r)
  close : ∀ request t r w, w.Sound → D.inv w → Q request t r w → Q request t r (w.finish t false)
  lost : ∀ request t w, w.request t = some request → Q request t (.error system.lost) w
  handler : ∀ request t w, w.Sound → D.inv w → Fresh t w → w.request t = some request →
    D.Safe t (Q request t) (system.handler request) w

variable {system : System S Req ε α} {Q : Req → Txn → Except ε α → World S Req → Prop}

/-- Where a client stands. -/
def Stands (D : Discipline S Req) (Q : Req → Txn → Except ε α → World S Req → Prop)
    (c : Config S Req ε α) (t : Txn) : Prop :=
  match c.client t with
  | none => Fresh t c.world ∧ c.world.request t = none
  | some p => ∃ request, c.world.request t = some request ∧ D.Safe t (Q request t) p c.world

theorem Stands.interfere (hverified : D.Verified system Q) {c c' : Config S Req ε α} {t : Txn}
    (h : Stands D Q c t) (hclient : c'.client t = c.client t)
    (hw : D.Interferes t c.world c'.world)
    (hrequest : c.world.request t = none → c'.world.request t = none) : Stands D Q c' t := by
  unfold Stands at h ⊢
  rw [hclient]
  split at h
  · exact ⟨h.1.others hw.others, hrequest h.2⟩
  · obtain ⟨request, hreq, hsafe⟩ := h
    exact ⟨request, hw.others.request t request hreq,
      hsafe.interfere (hverified.stable request t) hw⟩

/-- The invariant of configurations. -/
structure Holds (D : Discipline S Req) (Q : Req → Txn → Except ε α → World S Req → Prop)
    (c : Config S Req ε α) : Prop where
  sound : c.world.Sound
  inv : D.inv c.world
  stands : ∀ t, Stands D Q c t

theorem holds_initial {c : Config S Req ε α} (h : c.Initial) (hinv : D.inv c.world) :
    Holds D Q c where
  sound := ⟨h.1.beyond, by rw [h.1.undrawn]; exact List.nodup_nil⟩
  inv := hinv
  stands t := by
    unfold Stands
    rw [h.2 t]
    refine ⟨⟨fun T id hheld => ?_, fun token => ?_, fun e => ?_⟩, h.1.unrequested t⟩
    · obtain ⟨version, hversion⟩ := hheld
      rw [h.1.unlocked T id] at hversion
      cases hversion
    · rw [h.1.undrawn]
      exact List.not_mem_nil
    · rw [h.1.untraced]
      exact fun he => absurd he List.not_mem_nil

/-- A step of one client leaves the others where they stand. -/
theorem Holds.step_of_keeps (hverified : D.Verified system Q) {c c' : Config S Req ε α} {t : Txn}
    (h : Holds D Q c) (hothers : ∀ u, u ≠ t → Others u c.world c'.world)
    (hclient : ∀ u, u ≠ t → c'.client u = c.client u) (hkeeps : D.Keeps t c.world c'.world)
    (hsound : c'.world.Sound) (hrequest : c'.world.request = c.world.request)
    (hself : Stands D Q c' t) : Holds D Q c' where
  sound := hsound
  inv := hkeeps.1
  stands u := by
    by_cases hu : u = t
    · exact hu ▸ hself
    · refine (h.stands u).interfere hverified (hclient u hu) ?_ fun hnone => by rwa [hrequest]
      exact ⟨hothers u hu, hkeeps.2 u hu, hsound, hkeeps.1⟩

/-- A step of nobody leaves everybody where they stand. -/
theorem Holds.step_of_quiet {c c' : Config S Req ε α} (h : Holds D Q c)
    (hquiet : Quiet c.world c'.world)
    (hstands : ∀ t, D.Interferes t c.world c'.world → Stands D Q c' t) : Holds D Q c' := by
  obtain ⟨hinv, hrely⟩ := D.quiet hquiet h.inv
  have hsound : c'.world.Sound :=
    ⟨fun T id hle => by rw [hquiet.slot]; exact h.sound.beyond T id (hquiet.next ▸ hle),
      hquiet.drawn ▸ h.sound.drawn_nodup⟩
  exact ⟨hsound, hinv, fun t => hstands t ⟨hquiet.others t, hrely t, hsound, hinv⟩⟩

theorem Holds.rollback (hverified : D.Verified system Q) {c c' : Config S Req ε α} {t : Txn}
    (h : Holds D Q c) (hworld : c'.world = c.world.finish t false)
    (hclient : ∀ u, u ≠ t → c'.client u = c.client u) (hself : Stands D Q c' t) :
    Holds D Q c' := by
  refine h.step_of_keeps hverified (fun u hu => ?_) hclient ?_ ?_ ?_ hself
  · rw [hworld]
    exact others_finish hu false
  · rw [hworld]
    exact D.rollback t h.sound h.inv
  · rw [hworld]
    exact h.sound.finish false
  · rw [hworld]
    rfl

theorem Holds.step (hverified : D.Verified system Q) {c c' : Config S Req ε α} {l : Label Req}
    (h : Holds D Q c) (hallowed : c.Meets D.allowed l) (hs : system.step c l = some c') :
    Holds D Q c' := by
  cases l with
  | spawn t request =>
      simp only [System.step] at hs
      split at hs
      · cases hs
      · rename_i hnone
        cases hs
        have hfresh := h.stands t
        unfold Stands at hfresh
        rw [hnone] at hfresh
        apply h.step_of_quiet (hfresh.1.quiet_spawn hfresh.2 request)
        intro u hw
        by_cases hu : u = t
        · subst hu
          unfold Stands
          simp only [Function.update_self]
          refine ⟨request, rfl, hverified.handler request u _ hw.sound hw.inv ?_ ?_⟩
          · exact hfresh.1.others hw.others
          · simp
        · exact (h.stands u).interfere hverified (by simp [hu]) hw (by simp [hu])
  | exec t choice =>
      simp only [System.step] at hs
      split at hs
      · rename_i op next hclient
        split at hs
        · cases hs
        · rename_i answer world hexec
          cases hs
          have hstands := h.stands t
          unfold Stands at hstands
          rw [hclient] at hstands
          obtain ⟨request, hreq, hsafe⟩ := hstands
          have hkind : D.allowed t c.world op.kind := by
            simpa only [Config.Meets, hclient] using hallowed
          obtain ⟨hkeeps, hnext⟩ := hsafe c.world (.refl h.sound h.inv) hkind choice answer world
            hexec
          have hrequest := Op.exec_request hexec
          refine h.step_of_keeps hverified (fun u hu => Op.exec_others h.sound hexec hu)
            (fun u hu => by simp [hu]) hkeeps (Op.exec_sound h.sound hexec) hrequest ?_
          unfold Stands
          simp only [Function.update_self]
          exact ⟨request, by rw [hrequest, hreq], hnext⟩
      · cases hs
  | close t =>
      have hself : ∀ r, (∀ request, D.Safe t (Q request t) (Prog.ofExcept r) c.world →
          Q request t r c.world) → c.client t = some (Prog.ofExcept r) →
          Stands D Q { c with world := c.world.finish t false } t := by
        intro r hleaf hclient
        have hstands := h.stands t
        unfold Stands at hstands ⊢
        simp only [hclient] at hstands ⊢
        obtain ⟨request, hreq, hsafe⟩ := hstands
        have hclose := hverified.close request t r c.world h.sound h.inv (hleaf request hsafe)
        refine ⟨request, hreq, ?_⟩
        cases r <;> exact hclose
      simp only [System.step] at hs
      split at hs
      · rename_i value hclient
        cases hs
        exact h.rollback hverified rfl (fun _ _ => rfl)
          (hself (.ok value) (fun _ hsafe => hsafe) hclient)
      · rename_i error hclient
        cases hs
        exact h.rollback hverified rfl (fun _ _ => rfl)
          (hself (.error error) (fun _ hsafe => hsafe) hclient)
      · cases hs
  | crash t =>
      simp only [System.step] at hs
      split at hs
      · rename_i op next hclient
        cases hs
        have hstands := h.stands t
        unfold Stands at hstands
        simp only [hclient] at hstands
        obtain ⟨request, hreq, _⟩ := hstands
        apply h.rollback hverified rfl (fun u hu => by simp [hu])
        unfold Stands
        simp only [Function.update_self]
        exact ⟨request, hreq, hverified.lost request t _ hreq⟩
      · cases hs
  | tick duration =>
      cases hs
      exact h.step_of_quiet (.tick c.world duration) fun t hw =>
        (h.stands t).interfere hverified rfl hw id

/-- Every step keeps the invariant, and what all but one rely on. -/
theorem Holds.step_keeps {c c' : Config S Req ε α} {l : Label Req} (h : Holds D Q c)
    (hallowed : c.Meets D.allowed l) (hs : system.step c l = some c') :
    ∃ t, D.Keeps t c.world c'.world := by
  have hquiet : ∀ {w}, Quiet c.world w → D.Keeps 0 c.world w := fun hw =>
    ⟨(D.quiet hw h.inv).1, fun u _ => (D.quiet hw h.inv).2 u⟩
  cases l with
  | spawn t request =>
      simp only [System.step] at hs
      split at hs
      · cases hs
      · rename_i hnone
        cases hs
        have hstands := h.stands t
        unfold Stands at hstands
        rw [hnone] at hstands
        exact ⟨0, hquiet (hstands.1.quiet_spawn hstands.2 request)⟩
  | exec t choice =>
      simp only [System.step] at hs
      split at hs
      · rename_i op next hclient
        split at hs
        · cases hs
        · rename_i answer world hexec
          cases hs
          have hstands := h.stands t
          unfold Stands at hstands
          rw [hclient] at hstands
          obtain ⟨_, _, hsafe⟩ := hstands
          have hkind : D.allowed t c.world op.kind := by
            simpa only [Config.Meets, hclient] using hallowed
          exact ⟨t, (hsafe c.world (.refl h.sound h.inv) hkind choice answer world hexec).1⟩
      · cases hs
  | close t =>
      simp only [System.step] at hs
      split at hs
      · cases hs
        exact ⟨t, D.rollback t h.sound h.inv⟩
      · cases hs
        exact ⟨t, D.rollback t h.sound h.inv⟩
      · cases hs
  | crash t =>
      simp only [System.step] at hs
      split at hs
      · cases hs
        exact ⟨t, D.rollback t h.sound h.inv⟩
      · cases hs
  | tick duration =>
      cases hs
      exact ⟨0, hquiet (.tick c.world duration)⟩

/-- **Soundness.** If every handler is safe, the invariant holds in every reachable configuration,
and every client stands where its program is safe. -/
theorem Verified.holds (hverified : D.Verified system Q) {init : Config S Req ε α → Prop}
    (hinit : ∀ c, init c → c.Initial ∧ D.inv c.world) {c : Config S Req ε α}
    (h : Transition.Reachable system.step init (fun c l => c.Meets D.allowed l) c) :
    Holds D Q c :=
  h.invariant (fun c hc => holds_initial (hinit c hc).1 (hinit c hc).2)
    (fun _ _ _ hholds hallowed hs => hholds.step hverified hallowed hs)

/-- What everybody relies on the others not to make false lasts for the rest of the run. -/
theorem Verified.lasts (hverified : D.Verified system Q) {init : Config S Req ε α → Prop}
    (hinit : ∀ c, init c → c.Initial ∧ D.inv c.world) {P : World S Req → Prop}
    (hrely : ∀ {t w w'}, D.rely t w w' → P w → P w') {c c' : Config S Req ε α}
    (h : Transition.Reachable system.step init (fun c l => c.Meets D.allowed l) c)
    (hP : P c.world)
    (h' : Transition.Reachable system.step (· = c) (fun c l => c.Meets D.allowed l) c') :
    P c'.world := by
  induction h' with
  | start hc => exact hc ▸ hP
  | next hreach hallowed hs ih =>
      obtain ⟨t, hkeeps⟩ := (hverified.holds hinit (h.trans hreach)).step_keeps hallowed hs
      exact hrely (hkeeps.2 (t + 1) (Nat.succ_ne_self t)) ih

/-- A client that ended meets its postcondition. -/
theorem Holds.outcome {c : Config S Req ε α} (h : Holds D Q c) {t : Txn} {r : Except ε α}
    (hclient : c.client t = some (.ofExcept r)) :
    ∃ request, c.world.request t = some request ∧ Q request t r c.world := by
  have hstands := h.stands t
  unfold Stands at hstands
  rw [hclient] at hstands
  obtain ⟨request, hreq, hsafe⟩ := hstands
  exact ⟨request, hreq, by cases r <;> exact hsafe⟩

end Discipline

end ReadCommitted
