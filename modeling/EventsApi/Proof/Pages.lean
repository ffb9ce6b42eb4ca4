import EventsApi.Events.Repository
import Mathlib.Data.List.Nodup

/-!
# Pages tile one listing

Every ordering mode ends with the primary key, so the keys tell every two rows of a table apart and
all executions of the query sort alike. The count and the list share their WHERE clause, and the
offsets of consecutive pages are consecutive multiples of the page size.
-/

namespace EventsApi

open ThreeValued Listing

variable {Num : Type} [LinearOrder Num] [Zero Num]

@[simp]
theorem admits_withPage (context : QueryContext) (filters : EventFilters Num) {page size : Nat}
    (hpage : 1 ≤ page) (hsize : 1 ≤ size ∧ size ≤ maxPageSize) (restrictToIds : Option (List Int))
    (now : Int) :
    admits context (filters.withPage page size hpage hsize) restrictToIds now
      = admits context filters restrictToIds now := rfl

@[simp]
theorem applyOrdering_withPage (context : QueryContext) (filters : EventFilters Num)
    {page size : Nat} (hpage : 1 ≤ page) (hsize : 1 ≤ size ∧ size ≤ maxPageSize) :
    applyOrdering context (filters.withPage page size hpage hsize)
      = applyOrdering context filters := rfl

theorem idKey_mem_applyOrdering (context : QueryContext) (filters : EventFilters Num) :
    SortKey.column .asc Direction.asc.nulls (fun event : Event Num => some event.id)
      ∈ applyOrdering context filters := by
  unfold applyOrdering
  split <;> simp

theorem id_eq_of_compareKeys_eq {context : QueryContext} {filters : EventFilters Num}
    {a b : Event Num} (h : compareKeys (applyOrdering context filters) a b = .eq) :
    a.id = b.id := by
  have hid := compareKeys_eq_iff.mp h _ (idKey_mem_applyOrdering context filters)
  exact compare_eq_iff_eq.mp hid

/-- **The ordering is strict on a table.** -/
theorem compareKeys_strict (context : QueryContext) (filters : EventFilters Num)
    (table : EventTable Num) (restrictToIds : Option (List Int)) (now : Int) :
    ∀ a ∈ table.rows.filter (admits context filters restrictToIds now),
      ∀ b ∈ table.rows.filter (admits context filters restrictToIds now),
        compareKeys (applyOrdering context filters) a b = .eq → a = b := by
  intro a ha b hb heq
  exact List.inj_on_of_nodup_map table.ids_nodup (List.mem_of_mem_filter ha)
    (List.mem_of_mem_filter hb) (id_eq_of_compareKeys_eq heq)

theorem admits_restrict_nil (context : QueryContext) (filters : EventFilters Num) (now : Int)
    (event : Event Num) : admits context filters (some []) now event = false := by
  simp [admits, buildFilters, holds_conjAll]

/-- The listing behind all pages: the admitted rows, sorted once. -/
def listing (context : QueryContext) (table : EventTable Num) (filters : EventFilters Num)
    (restrictToIds : Option (List Int)) (now : Int) : List (Event Num) :=
  (Executor.mergeSort _).sort (compareKeys (applyOrdering context filters))
    (table.rows.filter (admits context filters restrictToIds now))

theorem listing_perm (context : QueryContext) (table : EventTable Num)
    (filters : EventFilters Num) (restrictToIds : Option (List Int)) (now : Int) :
    (listing context table filters restrictToIds now).Perm
      (table.rows.filter (admits context filters restrictToIds now)) :=
  (Executor.mergeSort _).perm _ _

/-- The count and the page as the two queries give them, for a restriction to no ids too. -/
def generalQuery (context : QueryContext) (executor : Executor (Event Num))
    (table : EventTable Num) (filters : EventFilters Num) (restrictToIds : Option (List Int))
    (now : Int) : Nat × List (Event Num) :=
  let rows := table.rows.filter (admits context filters restrictToIds now)
  (rows.length, window filters.offset filters.pageSize
    (executor.sort (compareKeys (applyOrdering context filters)) rows))

/-- **The shortcut agrees with the query it skips.** -/
theorem countAndList_eq_generalQuery (context : QueryContext) (executor : Executor (Event Num))
    (table : EventTable Num) (filters : EventFilters Num) (restrictToIds : Option (List Int))
    (now : Int) :
    countAndList context executor table filters restrictToIds now
      = generalQuery context executor table filters restrictToIds now := by
  unfold countAndList
  split
  · rename_i hempty
    subst hempty
    have hnone : table.rows.filter (admits context filters (some []) now) = [] :=
      List.filter_eq_nil_iff.mpr fun event _ => by simp [admits_restrict_nil]
    have hsort := (executor.perm (compareKeys (applyOrdering context filters)) []).eq_nil
    simp [generalQuery, hnone, hsort, window]
  · rfl

/-- **One page.** However the database executes the sort, a page is a window of the listing and the
total is the listing's length. -/
theorem countAndList_eq (context : QueryContext) (executor : Executor (Event Num))
    (table : EventTable Num) (filters : EventFilters Num) (restrictToIds : Option (List Int))
    (now : Int) :
    countAndList context executor table filters restrictToIds now
      = ((listing context table filters restrictToIds now).length,
        window filters.offset filters.pageSize
          (listing context table filters restrictToIds now)) := by
  rw [countAndList_eq_generalQuery, generalQuery, listing,
    Executor.sort_eq_sort executor (Executor.mergeSort _) inferInstance
      (compareKeys_strict context filters table restrictToIds now),
    ((Executor.mergeSort _).perm _ _).length_eq]

/-- **Pages tile the listing.** For each table, filter set, restriction and instant there is one
listing, holding every admitted event once and no other, such that for every page size and every
execution of every query the total is its length, pages 1 to `n` laid end to end are its first `n`
pagefuls, enough pages give all of it, and a page past its end is empty. -/
theorem countAndList_pages (context : QueryContext) (table : EventTable Num)
    (filters : EventFilters Num) (restrictToIds : Option (List Int)) (now : Int) :
    ∃ events : List (Event Num),
      events.Nodup
      ∧ (∀ event, event ∈ events
          ↔ event ∈ table.rows ∧ admits context filters restrictToIds now event = true)
      ∧ ∀ (size : Nat) (hsize : 1 ≤ size ∧ size ≤ maxPageSize)
          (executor : Nat → Executor (Event Num)),
        let result := fun page : Nat =>
          countAndList context (executor page) table
            (filters.withPage (page + 1) size (Nat.le_add_left 1 page) hsize) restrictToIds now
        (∀ page, (result page).1 = events.length)
        ∧ (∀ pages, (List.range pages).flatMap (fun page => (result page).2)
            = events.take (pages * size))
        ∧ (∀ pages, events.length ≤ pages * size →
            (List.range pages).flatMap (fun page => (result page).2) = events)
        ∧ ∀ page, events.length ≤ page * size → (result page).2 = [] := by
  refine ⟨listing context table filters restrictToIds now, ?_, fun event => ?_,
    fun size hsize executor => ?_⟩
  · exact (listing_perm context table filters restrictToIds now).nodup_iff.mpr
      ((List.Nodup.of_map _ table.ids_nodup).filter _)
  · rw [(listing_perm context table filters restrictToIds now).mem_iff, List.mem_filter]
  · intro result
    have hresult : ∀ page, result page
        = ((listing context table filters restrictToIds now).length,
          window (page * size) size (listing context table filters restrictToIds now)) :=
      fun page => countAndList_eq context (executor page) table _ restrictToIds now
    have htile : ∀ pages, (List.range pages).flatMap (fun page => (result page).2)
        = (listing context table filters restrictToIds now).take (pages * size) := by
      intro pages
      simp only [hresult]
      exact flatMap_window size pages _
    refine ⟨fun page => by rw [hresult], htile, fun pages henough => ?_, fun page hpast => ?_⟩
    · rw [htile, List.take_of_length_le henough]
    · rw [hresult]
      exact window_eq_nil hpast

end EventsApi
