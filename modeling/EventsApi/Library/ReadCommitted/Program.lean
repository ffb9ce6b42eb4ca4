import EventsApi.Library.ReadCommitted.Store
import EventsApi.Library.Transition
import Mathlib.Data.List.Perm.Basic

/-!
# Transactions as programs

A request handler is a tree of database statements and their answers. Each operation is one atomic
step on the world: a plain `SELECT`, the locking of one row, an `INSERT`, `COMMIT`, and the reading
of the clock or of the random generator. An `UPDATE`, a `DELETE` or a `SELECT FOR UPDATE` is a
`SELECT` of the statement's snapshot followed by the locking of the rows found, one after the other:
each waits for the lock, looks at the newest version, and leaves the row alone if it no longer
matches.

Clients take their steps in any order. A client may stop at any point, and then its transaction is
rolled back.
-/

namespace ReadCommitted

variable {S : Schema} {Req : Type}

inductive Op (S : Schema) : Type → Type where
  | select (T : S.Table) (p : Nat → S.Row T → Bool) : Op S (List (Nat × S.Row T))
  | lock (T : S.Table) (id : Nat) (p : S.Row T → Bool) (f : S.Row T → Option (S.Row T)) :
      Op S (Option (S.Row T))
  | insert (T : S.Table) (row : Nat → S.Row T) : Op S (Option Nat)
  | commit : Op S Unit
  | now : Op S Int
  | draw : Op S String

/-- What an operation leaves open: the order in which a statement finds its rows, and the random
token. -/
structure Choice where
  order : List Nat := []
  token : String := ""

/-- The answer and the next world, or nothing if the operation has to wait. -/
def Op.exec (t : Txn) (choice : Choice) : {β : Type} → Op S β → World S Req →
    Option (β × World S Req)
  | _, .select T p, w =>
      if choice.order.Perm (w.matching t T p) then
        let rows := choice.order.filterMap fun id => ((w.slot T id).view t).map (id, ·)
        some (rows, w.note t (.selected T rows))
      else none
  | _, .lock T id p f, w =>
      if (w.slot T id).availableTo t then
        match (w.slot T id).view t with
        | none => some (none, w)
        | some row =>
            if p row then some (some row, (w.write t T id (f row)).note t (.locked T id row))
            else some (none, w.write t T id (some row))
      else none
  | _, .insert T row, w =>
      if w.insertWaits t T (row (w.next T)) then none
      else if w.insertClashes t T (row (w.next T)) then some (none, w)
      else some (some (w.next T),
        (w.allocate t T (row (w.next T))).note t (.inserted T (w.next T)))
  | _, .commit, w => some ((), (w.finish t true).note t .committed)
  | _, .now, w => some (w.clock, w)
  | _, .draw, w =>
      if w.drawn.any (·.1 == choice.token) then none
      else some (choice.token, { w with drawn := (choice.token, t) :: w.drawn })

/-- What an operation is about, its arguments left out. -/
inductive Kind (S : Schema) where
  | select (T : S.Table)
  | lock (T : S.Table)
  | insert (T : S.Table)
  | commit
  | now
  | draw

def Op.kind : {β : Type} → Op S β → Kind S
  | _, .select T _ => .select T
  | _, .lock T _ _ _ => .lock T
  | _, .insert T _ => .insert T
  | _, .commit => .commit
  | _, .now => .now
  | _, .draw => .draw

inductive Prog (S : Schema) (ε α : Type) : Type 1 where
  | pure (value : α)
  | raise (error : ε)
  | exec {β : Type} (op : Op S β) (next : β → Prog S ε α)

namespace Prog

variable {ε α β : Type}

def bind : Prog S ε α → (α → Prog S ε β) → Prog S ε β
  | .pure value, next => next value
  | .raise error, _ => .raise error
  | .exec op rest, next => .exec op fun answer => (rest answer).bind next

instance : Monad (Prog S ε) where
  pure := .pure
  bind := bind

def ofExcept : Except ε α → Prog S ε α
  | .ok value => .pure value
  | .error error => .raise error

def perform (op : Op S β) : Prog S ε β := .exec op .pure

@[simp]
theorem bind_eq (p : Prog S ε α) (next : α → Prog S ε β) : (p >>= next) = p.bind next := rfl

@[simp]
theorem pure_eq (value : α) : (Pure.pure value : Prog S ε α) = .pure value := rfl

@[simp]
theorem pure_bind (value : α) (next : α → Prog S ε β) :
    (Prog.pure value).bind next = next value := rfl

@[simp]
theorem raise_bind (error : ε) (next : α → Prog S ε β) :
    (Prog.raise error).bind next = .raise error := rfl

@[simp]
theorem exec_bind {γ : Type} (op : Op S γ) (rest : γ → Prog S ε α) (next : α → Prog S ε β) :
    (Prog.exec op rest).bind next = .exec op fun answer => (rest answer).bind next := rfl

@[simp]
theorem perform_bind (op : Op S α) (next : α → Prog S ε β) :
    (perform op).bind next = .exec op next := rfl

theorem bind_assoc {γ : Type} (p : Prog S ε α) (f : α → Prog S ε β) (g : β → Prog S ε γ) :
    (p.bind f).bind g = p.bind fun value => (f value).bind g := by
  induction p with
  | pure value => rfl
  | raise error => rfl
  | exec op next ih => exact congrArg (Prog.exec op) (funext ih)

/-- `try ... except`, where the handler raises in turn. -/
def mapError (f : ε → ε) : Prog S ε α → Prog S ε α
  | .pure value => .pure value
  | .raise error => .raise (f error)
  | .exec op next => .exec op fun answer => (next answer).mapError f

/-! ### Statements -/

def select (T : S.Table) (p : Nat → S.Row T → Bool) : Prog S ε (List (Nat × S.Row T)) :=
  perform (.select T p)

/-- `session.scalar(select(T).where(p))`. -/
def scalar (T : S.Table) (p : Nat → S.Row T → Bool) : Prog S ε (Option (Nat × S.Row T)) := do
  let rows ← select T p
  return rows.head?

/-- Lock rows one after the other, and apply the change to those that still match. -/
def lockEach (T : S.Table) (p : Nat → S.Row T → Bool) (f : S.Row T → Option (S.Row T)) :
    List Nat → Prog S ε (List (Nat × S.Row T))
  | [] => .pure []
  | id :: ids => .exec (.lock T id (p id) f) fun found =>
      (lockEach T p f ids).bind fun rest => .pure ((found.map (id, ·)).toList ++ rest)

def statement (T : S.Table) (p : Nat → S.Row T → Bool) (f : S.Row T → Option (S.Row T)) :
    Prog S ε (List (Nat × S.Row T)) := do
  let rows ← select T p
  lockEach T p f (rows.map (·.1))

/-- `session.scalar(select(T).where(p).with_for_update())`. -/
def scalarForUpdate (T : S.Table) (p : Nat → S.Row T → Bool) :
    Prog S ε (Option (Nat × S.Row T)) := do
  let rows ← statement T p some
  return rows.head?

def updateWhere (T : S.Table) (p : Nat → S.Row T → Bool) (f : S.Row T → S.Row T) :
    Prog S ε (List (Nat × S.Row T)) :=
  statement T p fun row => some (f row)

def deleteWhere (T : S.Table) (p : Nat → S.Row T → Bool) : Prog S ε (List (Nat × S.Row T)) :=
  statement T p fun _ => none

def commit : Prog S ε Unit := perform .commit

def now : Prog S ε Int := perform .now

def draw : Prog S ε String := perform .draw

/-- A transaction that runs alone, to its end and the close of its session. -/
inductive Runs (t : Txn) : Prog S ε α → World S Req → Except ε α → World S Req → Prop where
  | pure (value : α) (w : World S Req) : Runs t (.pure value) w (.ok value) (w.finish t false)
  | raise (error : ε) (w : World S Req) : Runs t (.raise error) w (.error error) (w.finish t false)
  | exec {β : Type} {op : Op S β} {next : β → Prog S ε α} {choice : Choice} {answer : β}
      {w w₁ w₂ : World S Req} {r : Except ε α} (hexec : op.exec t choice w = some (answer, w₁))
      (hnext : Runs t (next answer) w₁ r w₂) : Runs t (.exec op next) w r w₂

section Runs

variable {t : Txn} {w w' : World S Req} {r : Except ε α}

theorem runs_raise {error : ε} :
    Runs t (.raise error : Prog S ε α) w r w' ↔ r = .error error ∧ w' = w.finish t false := by
  constructor
  · rintro ⟨⟩
    exact ⟨rfl, rfl⟩
  · rintro ⟨rfl, rfl⟩
    exact .raise error w

theorem runs_exec {op : Op S β} {next : β → Prog S ε α} :
    Runs t (.exec op next) w r w' ↔
      ∃ choice answer w₁, op.exec t choice w = some (answer, w₁)
        ∧ Runs t (next answer) w₁ r w' := by
  constructor
  · rintro ⟨⟩
    exact ⟨_, _, _, ‹_›, ‹_›⟩
  · rintro ⟨choice, answer, w₁, hexec, hnext⟩
    exact .exec hexec hnext

end Runs

end Prog

/-! ### Clients -/

/-- How requests are handled, and the outcome of a client that is cut off. -/
structure System (S : Schema) (Req ε α : Type) where
  handler : Req → Prog S ε α
  lost : ε

structure Config (S : Schema) (Req ε α : Type) where
  world : World S Req
  client : Txn → Option (Prog S ε α)

inductive Label (Req : Type) where
  | spawn (t : Txn) (request : Req)
  | exec (t : Txn) (choice : Choice)
  | close (t : Txn)
  | crash (t : Txn)
  | tick (duration : Nat)

variable {ε α : Type}

def System.step (system : System S Req ε α) (c : Config S Req ε α) :
    Label Req → Option (Config S Req ε α)
  | .spawn t request =>
      match c.client t with
      | some _ => none
      | none => some
          { world := { c.world with request := Function.update c.world.request t (some request) }
            client := Function.update c.client t (some (system.handler request)) }
  | .exec t choice =>
      match c.client t with
      | some (.exec op next) =>
          match op.exec t choice c.world with
          | none => none
          | some (answer, world) => some
              { world := world
                client := Function.update c.client t (some (next answer)) }
      | _ => none
  | .close t =>
      match c.client t with
      | some (.pure _) | some (.raise _) => some { c with world := c.world.finish t false }
      | _ => none
  | .crash t =>
      match c.client t with
      | some (.exec _ _) => some
          { world := c.world.finish t false
            client := Function.update c.client t (some (.raise system.lost)) }
      | _ => none
  | .tick duration => some { c with world := { c.world with clock := c.world.clock + duration } }

/-- What a client that has ended ended with. -/
def Config.outcome (c : Config S Req ε α) (t : Txn) : Option (Except ε α) :=
  match c.client t with
  | some (.pure value) => some (.ok value)
  | some (.raise error) => some (.error error)
  | _ => none

theorem Config.client_of_outcome {c : Config S Req ε α} {t : Txn} {r : Except ε α}
    (h : c.outcome t = some r) : c.client t = some (.ofExcept r) := by
  unfold outcome at h
  split at h
  · cases h
    assumption
  · cases h
    assumption
  · cases h

/-- A side condition on the operations, as one on the steps of a run. -/
def Config.Meets (allowed : Txn → World S Req → Kind S → Prop) (c : Config S Req ε α) :
    Label Req → Prop
  | .exec t _ =>
      match c.client t with
      | some (.exec op _) => allowed t c.world op.kind
      | _ => True
  | _ => True

instance {allowed : Txn → World S Req → Kind S → Prop}
    [∀ t w kind, Decidable (allowed t w kind)] (c : Config S Req ε α) (l : Label Req) :
    Decidable (c.Meets allowed l) :=
  match l with
  | .exec t _ =>
      match h : c.client t with
      | some (.exec op _) =>
          decidable_of_iff (allowed t c.world op.kind) (by simp only [Config.Meets, h])
      | some (.pure _) => .isTrue (by simp only [Config.Meets, h])
      | some (.raise _) => .isTrue (by simp only [Config.Meets, h])
      | none => .isTrue (by simp only [Config.Meets, h])
  | .spawn .. => .isTrue trivial
  | .close _ => .isTrue trivial
  | .crash _ => .isTrue trivial
  | .tick _ => .isTrue trivial

theorem Config.meets_of_forall {allowed : Txn → World S Req → Kind S → Prop}
    {c : Config S Req ε α} {l : Label Req} (h : ∀ t w kind, allowed t w kind) :
    c.Meets allowed l := by
  cases l with
  | exec t choice =>
      unfold Config.Meets
      dsimp only
      split
      · exact h _ _ _
      · trivial
  | spawn | close | crash | tick => trivial

/-- Nothing has run yet: no lock is held, nothing is drawn, traced or requested. -/
structure World.Initial (w : World S Req) : Prop where
  unlocked : ∀ T id, (w.slot T id).held = none
  beyond : ∀ T id, w.next T ≤ id → w.slot T id = Slot.empty
  undrawn : w.drawn = []
  untraced : w.trace = []
  unrequested : ∀ t, w.request t = none

def Config.Initial (c : Config S Req ε α) : Prop := c.world.Initial ∧ ∀ t, c.client t = none

end ReadCommitted
