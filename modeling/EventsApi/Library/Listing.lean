import Mathlib.Order.Compare
import Mathlib.Order.Std
import Mathlib.Data.List.Perm.Basic
import Mathlib.Data.List.Range

/-!
# Ordered listings and their pages

`ORDER BY` sorts by a list of keys, each with a direction and a side for missing values. Rows that
all keys call equal may come in any order, so an execution of `ORDER BY` is any function that
permutes the rows into an order the keys allow. Once the keys tell every two rows apart, all
executions agree, and `LIMIT`/`OFFSET` windows cut one fixed list.
-/

namespace Listing

inductive Direction where
  | asc
  | desc
  deriving DecidableEq

/-- The side missing values are sorted to. -/
inductive Nulls where
  | first
  | last
  deriving DecidableEq

/-- Missing values sort after all others when ascending and before them when descending. -/
def Direction.nulls : Direction → Nulls
  | .asc => .last
  | .desc => .first

variable {κ : Type}

def compareDirected [Ord κ] : Direction → κ → κ → Ordering
  | .asc, x, y => compare x y
  | .desc, x, y => compare y x

def compareNullable [Ord κ] (direction : Direction) (nulls : Nulls) :
    Option κ → Option κ → Ordering
  | none, none => .eq
  | none, some _ => match nulls with
      | .first => .lt
      | .last => .gt
  | some _, none => match nulls with
      | .first => .gt
      | .last => .lt
  | some x, some y => compareDirected direction x y

instance [LinearOrder κ] (direction : Direction) :
    Std.TransCmp (compareDirected direction : κ → κ → Ordering) := by
  cases direction with
  | asc => exact inferInstanceAs (Std.TransCmp fun x y : κ => compare x y)
  | desc => exact inferInstanceAs (Std.TransCmp fun x y : κ => compare y x)

instance [LinearOrder κ] (direction : Direction) (nulls : Nulls) :
    Std.TransCmp (compareNullable direction nulls : Option κ → Option κ → Ordering) where
  eq_swap {a b} := by
    cases a <;> cases b <;> cases nulls <;>
      first | rfl | exact @Std.OrientedCmp.eq_swap _ (compareDirected direction) _ _ _
  isLE_trans {a b c} hab hbc := by
    cases a <;> cases b <;> cases c <;> cases nulls <;>
      first
      | rfl
      | exact absurd hab Bool.false_ne_true
      | exact absurd hbc Bool.false_ne_true
      | exact @Std.TransCmp.isLE_trans _ (compareDirected direction) _ _ _ _ hab hbc

/-- A sort key: a comparison that is a total preorder. -/
structure SortKey (α : Type) where
  cmp : α → α → Ordering
  transCmp : Std.TransCmp cmp

variable {α : Type}

/-- The key of a nullable column, with the nulls on the side given. -/
def SortKey.column [LinearOrder κ] (direction : Direction) (nulls : Nulls) (expr : α → Option κ) :
    SortKey α where
  cmp a b := compareNullable direction nulls (expr a) (expr b)
  transCmp :=
    { eq_swap := Std.OrientedCmp.eq_swap
      isLE_trans := Std.TransCmp.isLE_trans }

/-- Compare by the first key that tells the rows apart. -/
def compareKeys : List (SortKey α) → α → α → Ordering
  | [], _, _ => .eq
  | key :: keys, a, b => (key.cmp a b).then (compareKeys keys a b)

instance (keys : List (SortKey α)) : Std.TransCmp (compareKeys keys) := by
  induction keys with
  | nil => exact { eq_swap := rfl, isLE_trans := fun _ _ => rfl }
  | cons key keys ih =>
      have := key.transCmp
      exact inferInstanceAs (Std.TransCmp (compareLex key.cmp (compareKeys keys)))

theorem compareKeys_eq_iff {keys : List (SortKey α)} {a b : α} :
    compareKeys keys a b = .eq ↔ ∀ key ∈ keys, key.cmp a b = .eq := by
  induction keys with
  | nil => simp [compareKeys]
  | cons key keys ih => simp [compareKeys, ih]

/-- An execution of `ORDER BY`: the same rows, in an order the comparison allows. -/
structure Executor (α : Type) where
  sort : (α → α → Ordering) → List α → List α
  perm : ∀ cmp rows, (sort cmp rows).Perm rows
  sorted : ∀ cmp, Std.TransCmp cmp → ∀ rows,
    (sort cmp rows).Pairwise fun a b => (cmp a b).isLE

/-- Merge sort is one execution: it keeps equal rows in the order given. -/
def Executor.mergeSort (α : Type) : Executor α where
  sort cmp rows := rows.mergeSort fun a b => (cmp a b).isLE
  perm cmp rows := List.mergeSort_perm rows _
  sorted cmp htrans rows := by
    refine List.pairwise_mergeSort (fun a b c => Std.TransCmp.isLE_trans) (fun a b => ?_) rows
    have hswap : cmp b a = (cmp a b).swap := Std.OrientedCmp.eq_swap
    rw [hswap]
    cases cmp a b <;> rfl

/-- **The sorted order is unique** on rows that the comparison tells apart: any arrangement of them
that the comparison allows is the result of every execution. -/
theorem Executor.sort_eq (executor : Executor α) {cmp : α → α → Ordering} (hcmp : Std.TransCmp cmp)
    {rows arranged : List α} (hdistinct : ∀ a ∈ rows, ∀ b ∈ rows, cmp a b = .eq → a = b)
    (hperm : arranged.Perm rows) (hsorted : arranged.Pairwise fun a b => (cmp a b).isLE) :
    executor.sort cmp rows = arranged := by
  have hsame := (executor.perm cmp rows).trans hperm.symm
  refine hsame.eq_of_pairwise ?_ (executor.sorted cmp hcmp rows) hsorted
  intro a b ha hb hab hba
  apply hdistinct a ((executor.perm cmp rows).mem_iff.mp ha) b (hperm.mem_iff.mp hb)
  exact Std.OrientedCmp.isLE_antisymm hab hba

/-- **All executions agree** on rows that the comparison tells apart. -/
theorem Executor.sort_eq_sort (left right : Executor α) {cmp : α → α → Ordering}
    (hcmp : Std.TransCmp cmp) {rows : List α}
    (hdistinct : ∀ a ∈ rows, ∀ b ∈ rows, cmp a b = .eq → a = b) :
    left.sort cmp rows = right.sort cmp rows :=
  left.sort_eq hcmp hdistinct (right.perm cmp rows) (right.sorted cmp hcmp rows)

/-- **Leaving rows out commutes with sorting**, whichever executions do the two sorts. -/
theorem Executor.sort_filter (left right : Executor α) {cmp : α → α → Ordering}
    (hcmp : Std.TransCmp cmp) {rows : List α}
    (hdistinct : ∀ a ∈ rows, ∀ b ∈ rows, cmp a b = .eq → a = b) (keep : α → Bool) :
    left.sort cmp (rows.filter keep) = (right.sort cmp rows).filter keep :=
  left.sort_eq hcmp
    (fun a ha b hb => hdistinct a (List.mem_of_mem_filter ha) b (List.mem_of_mem_filter hb))
    ((right.perm cmp rows).filter keep) ((right.sorted cmp hcmp rows).filter keep)

/-- **Groups sort apart.** Where the comparison puts one group of the rows before the other, the
result is the one group sorted and then the other. -/
theorem Executor.sort_eq_append (executor : Executor α) {cmp : α → α → Ordering}
    (hcmp : Std.TransCmp cmp) {rows : List α}
    (hdistinct : ∀ a ∈ rows, ∀ b ∈ rows, cmp a b = .eq → a = b) (first : α → Bool)
    (hfirst : ∀ a ∈ rows, ∀ b ∈ rows, first a = true → first b = false → (cmp a b).isLE) :
    executor.sort cmp rows = executor.sort cmp (rows.filter first)
      ++ executor.sort cmp (rows.filter fun row => !first row) := by
  refine executor.sort_eq hcmp hdistinct ?_ ?_
  · exact ((executor.perm cmp _).append (executor.perm cmp _)).trans
      (List.filter_append_perm first rows)
  · rw [List.pairwise_append]
    refine ⟨executor.sorted cmp hcmp _, executor.sorted cmp hcmp _, fun a ha b hb => ?_⟩
    obtain ⟨ha, hin⟩ := List.mem_filter.mp ((executor.perm cmp _).mem_iff.mp ha)
    obtain ⟨hb, hout⟩ := List.mem_filter.mp ((executor.perm cmp _).mem_iff.mp hb)
    exact hfirst a ha b hb hin (by simpa using hout)

/-- Comparisons that agree on the rows sort them alike. -/
theorem Executor.sort_congr (executor : Executor α) {cmp cmp' : α → α → Ordering}
    (hcmp : Std.TransCmp cmp) (hcmp' : Std.TransCmp cmp') {rows : List α}
    (hdistinct : ∀ a ∈ rows, ∀ b ∈ rows, cmp a b = .eq → a = b)
    (h : ∀ a ∈ rows, ∀ b ∈ rows, cmp a b = cmp' a b) :
    executor.sort cmp rows = executor.sort cmp' rows := by
  refine executor.sort_eq hcmp hdistinct (executor.perm cmp' rows) ?_
  refine (executor.sorted cmp' hcmp' rows).imp_of_mem fun {a b} ha hb hle => ?_
  rw [h a ((executor.perm cmp' rows).mem_iff.mp ha) b ((executor.perm cmp' rows).mem_iff.mp hb)]
  exact hle

/-- Compare by a value of the rows in one direction, and upwards by another value on ties. -/
def compareBy {ι : Type} [LinearOrder κ] [LinearOrder ι] (direction : Direction) (key : α → κ)
    (tie : α → ι) (a b : α) : Ordering :=
  (compareDirected direction (key a) (key b)).then (compare (tie a) (tie b))

instance {ι : Type} [LinearOrder κ] [LinearOrder ι] (direction : Direction) (key : α → κ)
    (tie : α → ι) : Std.TransCmp (compareBy direction key tie) := by
  have hkey : Std.TransCmp fun a b : α => compareDirected direction (key a) (key b) :=
    { eq_swap := Std.OrientedCmp.eq_swap
      isLE_trans := Std.TransCmp.isLE_trans }
  have htie : Std.TransCmp fun a b : α => compare (tie a) (tie b) :=
    { eq_swap := Std.OrientedCmp.eq_swap
      isLE_trans := Std.TransCmp.isLE_trans }
  exact inferInstanceAs (Std.TransCmp (compareLex _ _))

/-- `LIMIT limit OFFSET offset`. -/
def window (offset limit : Nat) (rows : List α) : List α := (rows.drop offset).take limit

theorem flatMap_window (size pages : Nat) (rows : List α) :
    (List.range pages).flatMap (fun page => window (page * size) size rows)
      = rows.take (pages * size) := by
  induction pages with
  | zero => simp
  | succ pages ih =>
      rw [List.range_succ, List.flatMap_append, ih, Nat.add_one_mul, List.take_add]
      simp [window]

theorem window_map {β : Type} (f : α → β) (offset limit : Nat) (rows : List α) :
    (window offset limit rows).map f = window offset limit (rows.map f) := by
  rw [window, List.map_take, List.map_drop, window]

theorem window_eq_nil {offset limit : Nat} {rows : List α} (h : rows.length ≤ offset) :
    window offset limit rows = [] := by
  rw [window, List.drop_eq_nil_of_le h, List.take_nil]

end Listing
