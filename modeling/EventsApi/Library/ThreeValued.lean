import Mathlib.Data.Option.Basic
import Mathlib.Order.Defs.LinearOrder

/-!
# Three-valued logic

A comparison with a missing operand is neither true nor false, the connectives pass that third value
on, and a WHERE clause keeps a row only when its condition is true. `none` is the third value.
-/

namespace ThreeValued

/-- A truth value: true, false, or unknown. -/
abbrev Truth := Option Bool

/-- A condition admits a row when it is true, not merely when it is not false. -/
def holds (t : Truth) : Bool := t == some true

def neg (t : Truth) : Truth := t.map (!·)

def conj : Truth → Truth → Truth
  | some false, _ => some false
  | _, some false => some false
  | some true, some true => some true
  | _, _ => none

def disj : Truth → Truth → Truth
  | some true, _ => some true
  | _, some true => some true
  | some false, some false => some false
  | _, _ => none

def conjAll (ts : List Truth) : Truth := ts.foldr conj (some true)

def disjAll (ts : List Truth) : Truth := ts.foldr disj (some false)

variable {α : Type}

/-- `x IS NULL`, which is never unknown itself. -/
def isNull (x : Option α) : Truth := some x.isNone

/-- `x IS NOT NULL`. -/
def isNotNull (x : Option α) : Truth := some x.isSome

/-- A comparison of two nullable operands. -/
def comparison (r : α → α → Bool) : Option α → Option α → Truth
  | some x, some y => some (r x y)
  | _, _ => none

/-- `CASE WHEN c THEN a ELSE b END`: the branch is taken only when the condition is true. -/
def caseWhen {β : Type} (c : Truth) (a b : β) : β := if holds c then a else b

@[simp]
theorem holds_some (b : Bool) : holds (some b) = b := by
  cases b <;> rfl

@[simp]
theorem holds_none : holds none = false := rfl

@[simp]
theorem holds_conj (s t : Truth) : holds (conj s t) = (holds s && holds t) := by
  rcases s with _ | _ | _ <;> rcases t with _ | _ | _ <;> rfl

@[simp]
theorem holds_disj (s t : Truth) : holds (disj s t) = (holds s || holds t) := by
  rcases s with _ | _ | _ <;> rcases t with _ | _ | _ <;> rfl

@[simp]
theorem holds_isNull (x : Option α) : holds (isNull x) = x.isNone := by
  simp [isNull]

@[simp]
theorem holds_isNotNull (x : Option α) : holds (isNotNull x) = x.isSome := by
  simp [isNotNull]

@[simp]
theorem holds_comparison (r : α → α → Bool) (x y : Option α) :
    holds (comparison r x y) = true ↔ ∃ a b, x = some a ∧ y = some b ∧ r a b = true := by
  cases x <;> cases y <;> simp [comparison]

theorem holds_conjAll (ts : List Truth) : holds (conjAll ts) = ts.all holds := by
  induction ts with
  | nil => rfl
  | cons t ts ih => simpa [conjAll] using congrArg (holds t && ·) ih

theorem holds_disjAll (ts : List Truth) : holds (disjAll ts) = ts.any holds := by
  induction ts with
  | nil => rfl
  | cons t ts ih => simpa [disjAll] using congrArg (holds t || ·) ih

/-! ### Known truth values

Negation swaps admitted and refused rows only where the condition is known. -/

theorem isSome_conj {s t : Truth} (hs : s.isSome) (ht : t.isSome) : (conj s t).isSome := by
  rcases s with _ | _ | _ <;> rcases t with _ | _ | _ <;> simp_all [conj]

theorem isSome_conj_of_left {s t : Truth} (hs : s.isSome) (ht : s = some true → t.isSome) :
    (conj s t).isSome := by
  obtain _ | _ | _ := s
  · simp at hs
  · simp [conj]
  · exact isSome_conj rfl (ht rfl)

theorem isSome_conjAll {ts : List Truth} (h : ∀ t ∈ ts, t.isSome) : (conjAll ts).isSome := by
  induction ts with
  | nil => rfl
  | cons t ts ih =>
      exact isSome_conj (h t List.mem_cons_self) (ih fun u hu => h u (List.mem_cons_of_mem _ hu))

/-- A disjunction is known if one side is, whenever that side does not settle it. -/
theorem isSome_disj_of_left {s t : Truth} (hs : s.isSome) (ht : s = some false → t.isSome) :
    (disj s t).isSome := by
  obtain _ | _ | _ := s
  · simp at hs
  · obtain ⟨b, rfl⟩ := Option.isSome_iff_exists.mp (ht rfl)
    cases b <;> rfl
  · simp [disj]

theorem holds_neg_of_isSome {t : Truth} (ht : t.isSome) : holds (neg t) = !holds t := by
  obtain _ | _ | _ := t
  · simp at ht
  · rfl
  · rfl

end ThreeValued
