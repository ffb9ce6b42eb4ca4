import EventsApi.Library.ReadCommitted.TableStep
import Mathlib.Data.Fintype.EquivFin

/-!
# Transactions that run alone

What a transaction does when nothing else happens until it has ended: that it gets to an end at all,
and what holds there, whatever the order in which its statements find their rows.
-/

namespace ReadCommitted

variable {S : Schema} {Req ε α β : Type}

/-- The transaction can run alone to its end, and every such run meets the postcondition. -/
def Prog.Alone (t : Txn) (Q : Except ε α → World S Req → Prop) (p : Prog S ε α)
    (w : World S Req) : Prop :=
  (∃ r w', p.Runs t w r w') ∧ ∀ r w', p.Runs t w r w' → Q r w'

namespace Prog.Alone

variable {t : Txn} {Q : Except ε α → World S Req → Prop} {w : World S Req}

theorem pure {value : α} (h : Q (.ok value) (w.finish t false)) :
    (Prog.pure value : Prog S ε α).Alone t Q w := by
  refine ⟨⟨_, _, .pure value w⟩, ?_⟩
  rintro r w' ⟨⟩
  exact h

theorem raise {error : ε} (h : Q (.error error) (w.finish t false)) :
    (Prog.raise error : Prog S ε α).Alone t Q w := by
  refine ⟨⟨_, _, .raise error w⟩, ?_⟩
  rintro r w' ⟨⟩
  exact h

/-- The rule for one operation: it need not wait, and the rest runs alone after it. -/
theorem exec {op : Op S β} {next : β → Prog S ε α}
    (hready : ∃ choice answer w₁, op.exec t choice w = some (answer, w₁))
    (hnext : ∀ choice answer w₁, op.exec t choice w = some (answer, w₁) →
      (next answer).Alone t Q w₁) : (Prog.exec op next).Alone t Q w := by
  constructor
  · obtain ⟨choice, answer, w₁, hexec⟩ := hready
    obtain ⟨r, w', hruns⟩ := (hnext choice answer w₁ hexec).1
    exact ⟨r, w', .exec hexec hruns⟩
  · intro r w' hruns
    obtain ⟨choice, answer, w₁, hexec, hrest⟩ := Prog.runs_exec.mp hruns
    exact (hnext choice answer w₁ hexec).2 r w' hrest

theorem now {next : Int → Prog S ε α} (hnext : (next w.clock).Alone t Q w) :
    (Prog.exec .now next).Alone t Q w := by
  refine exec ⟨{}, w.clock, w, rfl⟩ fun choice answer w₁ hexec => ?_
  obtain ⟨rfl, rfl⟩ := exec_now hexec
  exact hnext

theorem commit {next : Unit → Prog S ε α}
    (hnext : (next ()).Alone t Q ((w.finish t true).note t .committed)) :
    (Prog.exec .commit next).Alone t Q w := by
  refine exec ⟨{}, (), _, rfl⟩ fun choice answer w₁ hexec => ?_
  obtain rfl := exec_commit hexec
  exact hnext

variable {T : S.Table}

theorem select {p : Nat → S.Row T → Bool} {next : List (Nat × S.Row T) → Prog S ε α}
    (hnext : ∀ choice rows w₁, (Op.select T p).exec t choice w = some (rows, w₁) →
      (next rows).Alone t Q w₁) : (Prog.exec (.select T p) next).Alone t Q w := by
  refine exec ⟨{ order := w.matching t T p }, ?_⟩ hnext
  simp only [Op.exec]
  exact ⟨_, _, if_pos (List.Perm.refl _)⟩

/-- A lock that is free, on a row that matches. -/
theorem lock {id : Nat} {p : S.Row T → Bool} {f : S.Row T → Option (S.Row T)} {row : S.Row T}
    {next : Option (S.Row T) → Prog S ε α} (havailable : (w.slot T id).availableTo t = true)
    (hview : (w.slot T id).view t = some row) (hp : p row = true)
    (hnext : (next (some row)).Alone t Q ((w.write t T id (f row)).note t (.locked T id row))) :
    (Prog.exec (.lock T id p f) next).Alone t Q w := by
  have hexec : ∀ choice, (Op.lock T id p f).exec t choice w
      = some (some row, (w.write t T id (f row)).note t (.locked T id row)) := by
    intro choice
    simp only [Op.exec, havailable, hview, hp, if_true]
  refine exec ⟨{}, _, _, hexec {}⟩ fun choice answer w₁ h => ?_
  obtain ⟨rfl, rfl⟩ := Prod.mk.inj (Option.some.inj ((hexec choice).symm.trans h))
  exact hnext

end Prog.Alone

/-! ### Without waiting -/

theorem exists_undrawn (drawn : List (String × Txn)) :
    ∃ token, (drawn.any (·.1 == token)) = false := by
  obtain ⟨token, htoken⟩ := Infinite.exists_notMem_finset (drawn.map (·.1)).toFinset
  refine ⟨token, List.any_eq_false.mpr fun e he heq => htoken ?_⟩
  rw [List.mem_toFinset, ← beq_iff_eq.mp heq]
  exact List.mem_map_of_mem he

/-- Nobody but the transaction holds a lock. -/
def LocksFree (t : Txn) (w : World S Req) : Prop :=
  ∀ T id u, (w.slot T id).HeldBy u → u = t

theorem LocksFree.available {t : Txn} {w : World S Req} (h : LocksFree t w) (T : S.Table)
    (id : Nat) : (w.slot T id).availableTo t = true := by
  rw [Slot.availableTo_iff]
  cases hheld : (w.slot T id).held with
  | none => exact .inl rfl
  | some held => exact .inr (h T id held.1 ⟨held.2, hheld⟩ ▸ ⟨held.2, hheld⟩)

theorem LocksFree.insertWaits {t : Txn} {w : World S Req} (h : LocksFree t w) (T : S.Table)
    (row : S.Row T) : w.insertWaits t T row = false := by
  rw [World.insertWaits, List.any_eq_false]
  intro id _
  cases hheld : (w.slot T id).held with
  | none => exact Bool.false_ne_true
  | some held => simp [h T id held.1 ⟨held.2, hheld⟩]

theorem LocksFree.exec {t : Txn} {choice : Choice} {op : Op S β} {answer : β} {w w' : World S Req}
    (h : LocksFree t w) (hsound : w.Sound) (hexec : op.exec t choice w = some (answer, w')) :
    LocksFree t w' := by
  intro T id u hheld
  by_contra hne
  refine (Op.exec_others hsound hexec hne).not_mine T id (fun hbefore => ?_) hheld
  exact hne (h T id u hbefore)

/-- A transaction that finds no locks runs to its end, whatever its program. -/
theorem LocksFree.exists_runs {t : Txn} {w : World S Req} (h : LocksFree t w) (hsound : w.Sound)
    (p : Prog S ε α) : ∃ r w', p.Runs t w r w' := by
  induction p generalizing w with
  | pure value => exact ⟨_, _, .pure value w⟩
  | raise error => exact ⟨_, _, .raise error w⟩
  | exec op next ih =>
      have hready : ∃ choice answer w₁, op.exec t choice w = some (answer, w₁) := by
        cases op with
        | select T p =>
            refine ⟨{ order := w.matching t T p }, ?_⟩
            simp only [Op.exec]
            exact ⟨_, _, if_pos (List.Perm.refl _)⟩
        | lock T id p f =>
            refine ⟨{}, ?_⟩
            simp only [Op.exec, h.available, if_true]
            cases hview : (w.slot T id).view t with
            | none => exact ⟨_, _, rfl⟩
            | some row =>
                cases hp : p row with
                | true => exact ⟨_, _, if_pos hp⟩
                | false => exact ⟨_, _, if_neg (ne_true_of_eq_false hp)⟩
        | insert T row =>
            refine ⟨{}, ?_⟩
            simp only [Op.exec, h.insertWaits, Bool.false_eq_true, if_false]
            cases hclash : w.insertClashes t T (row (w.next T)) with
            | true => exact ⟨_, _, rfl⟩
            | false => exact ⟨_, _, rfl⟩
        | commit => exact ⟨{}, _, _, rfl⟩
        | now => exact ⟨{}, _, _, rfl⟩
        | draw =>
            obtain ⟨token, htoken⟩ := exists_undrawn w.drawn
            refine ⟨{ token := token }, ?_⟩
            simp only [Op.exec, htoken, Bool.false_eq_true, if_false]
            exact ⟨_, _, rfl⟩
      obtain ⟨choice, answer, w₁, hexec⟩ := hready
      obtain ⟨r, w', hruns⟩ := ih answer (h.exec hsound hexec) (Op.exec_sound hsound hexec)
      exact ⟨r, w', .exec hexec hruns⟩

/-! ### What is left behind -/

/-- Every way through the program, taken alone, comes to an end with this postcondition. The locks
are not given back yet. -/
def Prog.Ensures (t : Txn) (Q : Except ε α → World S Req → Prop) :
    Prog S ε α → World S Req → Prop
  | .pure value, w => Q (.ok value) w
  | .raise error, w => Q (.error error) w
  | .exec op next, w => ∀ choice answer w₁, op.exec t choice w = some (answer, w₁) →
      (next answer).Ensures t Q w₁

namespace Prog.Ensures

variable {t : Txn} {Q : Except ε α → World S Req → Prop} {Q' : Except ε β → World S Req → Prop}
  {p : Prog S ε α} {w w' : World S Req}

theorem runs {r : Except ε α} (h : p.Ensures t Q w) (hruns : p.Runs t w r w') :
    ∃ w₁, Q r w₁ ∧ w' = w₁.finish t false := by
  induction hruns with
  | pure value w => exact ⟨w, h, rfl⟩
  | raise error w => exact ⟨w, h, rfl⟩
  | exec hexec _ ih => exact ih (h _ _ _ hexec)

theorem mono {Q₁ : Except ε α → World S Req → Prop} (h : p.Ensures t Q w)
    (hmono : ∀ r w, Q r w → Q₁ r w) : p.Ensures t Q₁ w := by
  induction p generalizing w with
  | pure value => exact hmono _ _ h
  | raise error => exact hmono _ _ h
  | exec op next ih => exact fun choice answer w₁ hexec => ih answer (h choice answer w₁ hexec)

theorem bind {next : α → Prog S ε β} (h : p.Ensures t Q w)
    (hok : ∀ value w, Q (.ok value) w → (next value).Ensures t Q' w)
    (herror : ∀ error w, Q (.error error) w → Q' (.error error) w) :
    (p.bind next).Ensures t Q' w := by
  induction p generalizing w with
  | pure value => exact hok value w h
  | raise error => exact herror error w h
  | exec op rest ih => exact fun choice answer w₁ hexec => ih answer (h choice answer w₁ hexec)

theorem mapError {f : ε → ε} {Q₁ : Except ε α → World S Req → Prop} (h : p.Ensures t Q w)
    (hok : ∀ value w, Q (.ok value) w → Q₁ (.ok value) w)
    (herror : ∀ error w, Q (.error error) w → Q₁ (.error (f error)) w) :
    (p.mapError f).Ensures t Q₁ w := by
  induction p generalizing w with
  | pure value => exact hok value w h
  | raise error => exact herror error w h
  | exec op rest ih => exact fun choice answer w₁ hexec => ih answer (h choice answer w₁ hexec)

theorem bind_onSuccess {P : α → World S Req → Prop} {next : α → Prog S ε β}
    (h : p.Ensures t (Discipline.OnSuccess P) w)
    (hok : ∀ value w, P value w → (next value).Ensures t Q' w)
    (herror : ∀ error w, Q' (.error error) w) : (p.bind next).Ensures t Q' w :=
  h.bind hok fun error w _ => herror error w

theorem perform_bind {op : Op S α} {next : α → Prog S ε β}
    (h : ∀ choice answer w₁, op.exec t choice w = some (answer, w₁) →
      (next answer).Ensures t Q' w₁) : (Prog.perform op >>= next).Ensures t Q' w :=
  h

theorem scalar_bind {T : S.Table} {p : Nat → S.Row T → Bool}
    {next : Option (Nat × S.Row T) → Prog S ε β}
    (h : ∀ choice rows w₁, (Op.select T p).exec t choice w = some (rows, w₁) →
      (next rows.head?).Ensures t Q' w₁) : (Prog.scalar T p >>= next).Ensures t Q' w :=
  h

/-- What every operation of the program keeps is there at its end. -/
theorem of_all {P : ∀ β : Type, Op S β → Prop} {J : World S Req → Prop}
    (hkeeps : ∀ {β : Type} {op : Op S β} {choice : Choice} {answer : β} {w w' : World S Req},
      P β op → J w → op.exec t choice w = some (answer, w') → J w')
    (hall : p.All P) (h : J w) : p.Ensures t (fun _ => J) w := by
  induction p generalizing w with
  | pure value => exact h
  | raise error => exact h
  | exec op next ih =>
      exact fun choice answer w₁ hexec => ih answer (hall.2 answer) (hkeeps hall.1 h hexec)

end Prog.Ensures

/-! ### One request after the other -/

/-- A request, the time at which it was served, and what came of it. -/
structure Served (Req ε α : Type) where
  time : Int
  request : Req
  reply : Except ε α

/-- The service takes one request at a time, none earlier than the one before. The history is the
latest first. -/
inductive System.Serially (system : System S Req ε α) (w : World S Req) :
    List (Served Req ε α) → World S Req → Prop where
  | start : Serially system w [] w
  | next {history : List (Served Req ε α)} {w₁ w₂ : World S Req} {t : Txn}
      {served : Served Req ε α} (h : Serially system w history w₁)
      (hlater : w₁.clock ≤ served.time)
      (hruns : (system.handler served.request).Runs t { w₁ with clock := served.time } served.reply
        w₂) : Serially system w (served :: history) w₂

/-- Follow a program through these choices. -/
def Prog.play (t : Txn) : List Choice → Prog S ε α → World S Req →
    Option (Except ε α × World S Req)
  | _, .pure value, w => some (.ok value, w.finish t false)
  | _, .raise error, w => some (.error error, w.finish t false)
  | [], .exec _ _, _ => none
  | choice :: choices, .exec op next, w =>
      match op.exec t choice w with
      | none => none
      | some (answer, w₁) => (next answer).play t choices w₁

theorem Prog.runs_of_play {t : Txn} {choices : List Choice} {p : Prog S ε α} {w w' : World S Req}
    {r : Except ε α} (h : p.play t choices w = some (r, w')) : p.Runs t w r w' := by
  induction choices generalizing p w with
  | nil =>
      cases p with
      | pure value =>
          cases h
          exact .pure value w
      | raise error =>
          cases h
          exact .raise error w
      | exec op next => cases h
  | cons choice choices ih =>
      cases p with
      | pure value =>
          cases h
          exact .pure value w
      | raise error =>
          cases h
          exact .raise error w
      | exec op next =>
          rw [play] at h
          split at h
          · cases h
          · exact .exec ‹_› (ih h)

/-- A request with the choices that its transaction makes. -/
structure Attempt (Req : Type) where
  txn : Txn
  time : Int
  request : Req
  choices : List Choice

/-- Serve these requests, the last one of them first in the list. -/
def System.serve (system : System S Req ε α) (w : World S Req) :
    List (Attempt Req) → Option (List (Served Req ε α) × World S Req)
  | [] => some ([], w)
  | attempt :: earlier =>
      match system.serve w earlier with
      | none => none
      | some (history, w₁) =>
          if w₁.clock ≤ attempt.time then
            match (system.handler attempt.request).play attempt.txn attempt.choices
                { w₁ with clock := attempt.time } with
            | none => none
            | some (reply, w₂) => some (⟨attempt.time, attempt.request, reply⟩ :: history, w₂)
          else none

theorem System.serially_of_serve {system : System S Req ε α} {w w' : World S Req}
    {attempts : List (Attempt Req)} {history : List (Served Req ε α)}
    (h : system.serve w attempts = some (history, w')) : system.Serially w history w' := by
  induction attempts generalizing history w' with
  | nil =>
      cases h
      exact .start
  | cons attempt earlier ih =>
      rw [serve] at h
      split at h
      · cases h
      · rename_i hearlier
        split at h
        · rename_i hlater
          split at h
          · cases h
          · rename_i hplay
            cases h
            exact .next (ih hearlier) hlater (Prog.runs_of_play hplay)
        · cases h

end ReadCommitted
