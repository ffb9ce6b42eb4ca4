import Mathlib.Logic.Function.Basic
import Mathlib.Data.List.Range

/-!
# Rows under READ COMMITTED

A row lives in a slot: the version last committed and, while a transaction holds the row lock, the
version that transaction would leave. Everybody else goes on seeing the committed one. A table is a
sequence of slots, the index of a slot is the primary key of its row, and a slot once used is never
used again.

Besides the tables, a world holds what transactions share otherwise (the clock, the random tokens
drawn so far) and a trace of what they did, which no statement reads.
-/

namespace ReadCommitted

abbrev Txn := Nat

structure Slot (ρ : Type) where
  committed : Option ρ
  held : Option (Txn × Option ρ)

namespace Slot

variable {ρ : Type}

def empty : Slot ρ := ⟨none, none⟩

/-- The version a transaction sees: its own, if it holds the lock. -/
def view (t : Txn) (s : Slot ρ) : Option ρ :=
  match s.held with
  | some (holder, version) => if holder = t then version else s.committed
  | none => s.committed

/-- The lock is free, or the transaction's own. -/
def availableTo (t : Txn) (s : Slot ρ) : Bool :=
  match s.held with
  | some (holder, _) => holder == t
  | none => true

def put (t : Txn) (version : Option ρ) (s : Slot ρ) : Slot ρ :=
  { s with held := some (t, version) }

/-- The end of a transaction gives its locks back, and keeps its versions or forgets them. -/
def release (t : Txn) (keep : Bool) (s : Slot ρ) : Slot ρ :=
  match s.held with
  | some (holder, version) =>
      if holder = t then ⟨if keep then version else s.committed, none⟩ else s
  | none => s

def HeldBy (t : Txn) (s : Slot ρ) : Prop := ∃ version, s.held = some (t, version)

instance (t : Txn) (s : Slot ρ) : Decidable (s.HeldBy t) :=
  match h : s.held with
  | some (holder, version) =>
      decidable_of_iff (holder = t) (by simp [HeldBy, h])
  | none => .isFalse (by simp [HeldBy, h])

/-- A version that somebody sees, or will see if its transaction commits. -/
def HasVersion (s : Slot ρ) (row : ρ) : Prop :=
  s.committed = some row ∨ ∃ t, s.held = some (t, some row)

variable {t u : Txn} {s : Slot ρ}

@[simp]
theorem view_put (version : Option ρ) : (s.put t version).view t = version := by
  simp [view, put]

theorem view_of_held {version : Option ρ} (h : s.held = some (t, version)) :
    s.view t = version := by
  simp [view, h]

theorem view_eq_committed (h : ¬ s.HeldBy t) : s.view t = s.committed := by
  unfold view
  split
  · rename_i holder version heq
    refine if_neg fun hholder => h ⟨version, ?_⟩
    rw [heq, hholder]
  · rfl

theorem hasVersion_of_view {row : ρ} (h : s.view t = some row) : s.HasVersion row := by
  unfold view at h
  split at h
  · rename_i holder version heq
    split at h
    · exact Or.inr ⟨holder, by rw [heq, h]⟩
    · exact Or.inl h
  · exact Or.inl h

theorem availableTo_iff : s.availableTo t = true ↔ s.held = none ∨ s.HeldBy t := by
  unfold availableTo HeldBy
  split
  · rename_i holder version heq
    simp [heq]
  · rename_i heq
    simp [heq]

theorem not_heldBy_of_available (h : s.availableTo t = true) (hne : u ≠ t) : ¬ s.HeldBy u := by
  rintro ⟨version, hheld⟩
  rcases availableTo_iff.mp h with hfree | ⟨version', hown⟩
  · simp [hfree] at hheld
  · rw [hown] at hheld
    cases hheld
    exact hne rfl

theorem release_of_not_held (keep : Bool) (h : ¬ s.HeldBy t) : s.release t keep = s := by
  unfold release
  split
  · rename_i holder version heq
    refine if_neg fun hholder => h ⟨version, ?_⟩
    rw [heq, hholder]
  · rfl

theorem release_of_held (keep : Bool) {version : Option ρ} (h : s.held = some (t, version)) :
    s.release t keep = ⟨if keep then version else s.committed, none⟩ := by
  simp [release, h]

@[simp]
theorem release_false_committed : (s.release t false).committed = s.committed := by
  by_cases h : s.HeldBy t
  · obtain ⟨version, hversion⟩ := h
    rw [release_of_held false hversion]
    rfl
  · rw [release_of_not_held false h]

/-- What a commit keeps is what its transaction sees. -/
theorem release_true_committed : (s.release t true).committed = s.view t := by
  by_cases h : s.HeldBy t
  · obtain ⟨version, hversion⟩ := h
    rw [release_of_held true hversion, view_of_held hversion]
    rfl
  · rw [release_of_not_held true h, view_eq_committed h]

theorem release_committed (keep : Bool) :
    (s.release t keep).committed = if keep then s.view t else s.committed := by
  cases keep with
  | true => exact release_true_committed
  | false => exact release_false_committed

theorem held_of_release {keep : Bool} {version : Option ρ}
    (h : (s.release t keep).held = some (u, version)) : u ≠ t ∧ s.release t keep = s := by
  by_cases hown : s.HeldBy t
  · obtain ⟨own, hown⟩ := hown
    rw [release_of_held keep hown] at h
    cases h
  · rw [release_of_not_held keep hown] at h ⊢
    refine ⟨?_, rfl⟩
    rintro rfl
    exact hown ⟨version, h⟩

theorem hasVersion_of_release {keep : Bool} {row : ρ} (h : (s.release t keep).HasVersion row) :
    s.HasVersion row := by
  by_cases hheld : s.HeldBy t
  · obtain ⟨version, hversion⟩ := hheld
    rw [release_of_held keep hversion] at h
    cases keep with
    | true =>
        refine Or.inr ⟨t, ?_⟩
        rcases h with hcommitted | ⟨_, hnone⟩
        · rw [hversion, ← hcommitted]
          rfl
        · cases hnone
    | false =>
        rcases h with hcommitted | ⟨_, hnone⟩
        · exact Or.inl hcommitted
        · cases hnone
  · rwa [release_of_not_held keep hheld] at h

end Slot

/-- The tables of a database, their rows, and the pairs of rows a unique constraint keeps apart. -/
structure Schema where
  Table : Type
  Row : Table → Type
  clash : (T : Table) → Row T → Row T → Bool
  tableEq : DecidableEq Table
  rowEq : (T : Table) → DecidableEq (Row T)

attribute [instance] Schema.tableEq Schema.rowEq

inductive Event (S : Schema) where
  | selected (T : S.Table) (rows : List (Nat × S.Row T))
  | locked (T : S.Table) (id : Nat) (row : S.Row T)
  | inserted (T : S.Table) (id : Nat)
  | committed

/-- What a transaction did, and when. -/
structure Entry (S : Schema) where
  txn : Txn
  clock : Int
  event : Event S

structure World (S : Schema) (Req : Type) where
  slot : (T : S.Table) → Nat → Slot (S.Row T)
  next : S.Table → Nat
  clock : Int
  drawn : List (String × Txn)
  trace : List (Entry S)
  request : Txn → Option Req

namespace World

variable {S : Schema} {Req : Type}

def setSlot (w : World S Req) (T : S.Table) (id : Nat) (s : Slot (S.Row T)) : World S Req :=
  { w with slot := Function.update w.slot T (Function.update (w.slot T) id s) }

/-- Leave a version in a row, whose lock the transaction then holds. -/
def write (w : World S Req) (t : Txn) (T : S.Table) (id : Nat) (version : Option (S.Row T)) :
    World S Req :=
  w.setSlot T id ((w.slot T id).put t version)

def note (w : World S Req) (t : Txn) (event : Event S) : World S Req :=
  { w with trace := ⟨t, w.clock, event⟩ :: w.trace }

def finish (w : World S Req) (t : Txn) (keep : Bool) : World S Req :=
  { w with slot := fun T id => (w.slot T id).release t keep }

/-- The rows a statement finds: those that match in the versions its transaction sees. -/
def matching (w : World S Req) (t : Txn) (T : S.Table) (p : Nat → S.Row T → Bool) : List Nat :=
  (List.range (w.next T)).filter fun id => ((w.slot T id).view t).any (p id)

/-- Another transaction is changing a row that the new one clashes with, before or after. -/
def insertWaits (w : World S Req) (t : Txn) (T : S.Table) (row : S.Row T) : Bool :=
  (List.range (w.next T)).any fun id =>
    match (w.slot T id).held with
    | none => false
    | some (holder, version) =>
        holder != t && version != (w.slot T id).committed
          && ((w.slot T id).committed.any (S.clash T row) || version.any (S.clash T row))

/-- A row that the transaction sees clashes with the new one. -/
def insertClashes (w : World S Req) (t : Txn) (T : S.Table) (row : S.Row T) : Bool :=
  (List.range (w.next T)).any fun id => ((w.slot T id).view t).any (S.clash T row)

/-- Put a new row in the next slot, under the lock of its transaction. -/
def allocate (w : World S Req) (t : Txn) (T : S.Table) (row : S.Row T) : World S Req :=
  { w.write t T (w.next T) (some row) with
    next := Function.update w.next T (w.next T + 1) }

def HasCommitted (w : World S Req) (t : Txn) : Prop :=
  ∃ entry ∈ w.trace, entry.txn = t ∧ entry.event = .committed

instance (event : Event S) : Decidable (event = .committed) :=
  match event with
  | .committed => .isTrue rfl
  | .selected .. => .isFalse (by rintro ⟨⟩)
  | .locked .. => .isFalse (by rintro ⟨⟩)
  | .inserted .. => .isFalse (by rintro ⟨⟩)

instance (w : World S Req) (t : Txn) : Decidable (w.HasCommitted t) :=
  inferInstanceAs (Decidable (∃ entry ∈ w.trace, entry.txn = t ∧ entry.event = .committed))

variable {w : World S Req} {t u : Txn} {T : S.Table} {id : Nat}

@[simp]
theorem setSlot_slot_self (s : Slot (S.Row T)) : (w.setSlot T id s).slot T id = s := by
  simp [setSlot]

theorem setSlot_slot_of_ne (s : Slot (S.Row T)) {T' : S.Table} {id' : Nat}
    (h : ¬ (T' = T ∧ id' = id)) : (w.setSlot T id s).slot T' id' = w.slot T' id' := by
  by_cases hT : T' = T
  · subst hT
    have hid : id' ≠ id := fun heq => h ⟨rfl, heq⟩
    simp [setSlot, hid]
  · simp [setSlot, hT]

@[simp]
theorem write_slot_self (version : Option (S.Row T)) :
    (w.write t T id version).slot T id = (w.slot T id).put t version := by
  simp [write]

theorem write_slot_of_ne (version : Option (S.Row T)) {T' : S.Table} {id' : Nat}
    (h : ¬ (T' = T ∧ id' = id)) : (w.write t T id version).slot T' id' = w.slot T' id' :=
  setSlot_slot_of_ne _ h

theorem held_of_finish {keep : Bool} {version : Option (S.Row T)}
    (h : ((w.finish t keep).slot T id).held = some (u, version)) :
    u ≠ t ∧ (w.finish t keep).slot T id = w.slot T id :=
  Slot.held_of_release h

/-- A transaction that holds nothing ends without a trace in the rows. -/
theorem finish_slot (keep : Bool) (h : ∀ T id, ¬ (w.slot T id).HeldBy t) :
    (w.finish t keep).slot = w.slot := by
  funext T id
  exact Slot.release_of_not_held keep (h T id)

theorem allocate_heldBy (w : World S Req) (row : S.Row T) :
    ((w.allocate t T row).slot T (w.next T)).HeldBy t :=
  ⟨some row, congrArg Slot.held (write_slot_self (some row))⟩

theorem mem_matching {p : Nat → S.Row T → Bool} :
    id ∈ w.matching t T p ↔
      id < w.next T ∧ ∃ row, (w.slot T id).view t = some row ∧ p id row = true := by
  simp [matching, Option.any_eq_true]

theorem nodup_matching (p : Nat → S.Row T → Bool) : (w.matching t T p).Nodup :=
  List.nodup_range.filter _

theorem not_insertClashes_iff {row : S.Row T} : w.insertClashes t T row = false ↔
    ∀ id < w.next T, ∀ other, (w.slot T id).view t = some other → S.clash T row other = false := by
  simp [insertClashes, Option.any_eq_false]

end World

end ReadCommitted
