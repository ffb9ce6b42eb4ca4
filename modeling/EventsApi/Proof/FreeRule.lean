import EventsApi.Events.Repository

/-!
# One price rule, written twice

`Event.is_free` and the SQL expression behind `?free=true` read prices and descriptions alike. They
part on the ticket fields: Python's truthiness calls an empty text missing, `IS NULL` does not. The
disagreement is exactly the rows that would be free but for an empty ticket text.
-/

namespace EventsApi

open ThreeValued

theorem fold_of_ascii (cf : Like.CaseFold) {text : String}
    (htext : (text.toList.all fun c => decide (c.toNat < 128) && !c.isUpper) = true) :
    cf.fold text = text.toList := by
  have hchars : ∀ chars : List Char, (∀ c ∈ chars, c.toNat < 128 ∧ c.isUpper = false) →
      chars.flatMap cf.foldChar = chars := by
    intro chars hchars
    induction chars with
    | nil => rfl
    | cons c chars ih =>
        have hc := hchars c List.mem_cons_self
        rw [List.flatMap_cons, cf.foldChar_ascii c hc.1 hc.2,
          ih fun d hd => hchars d (List.mem_cons_of_mem _ hd)]
        rfl
  apply hchars _
  intro c hc
  have hc' := List.all_eq_true.mp htext c hc
  rw [Bool.and_eq_true, decide_eq_true_eq, Bool.not_eq_true'] at hc'
  exact hc'

theorem ilike_priceMention (cf : Like.CaseFold) (description : String) :
    Like.ilike cf (some description) (Like.containing priceMention)
      = some (mentionsPrice cf (some description)) := by
  have hfold : cf.fold (Like.containing priceMention) = '%' :: (priceMention.toList ++ ['%']) :=
    fold_of_ascii cf (by decide)
  have hliteral : Like.Literal priceMention.toList := by
    simp [Like.Literal, Like.Special, priceMention]
  rw [Like.ilike, Option.map_some, hfold, Option.some_inj, Bool.eq_iff_iff,
    Like.accepts_containing hliteral, mentionsPrice, decide_eq_true_iff, Option.getD_some]

theorem mentionsPrice_none (cf : Like.CaseFold) : mentionsPrice cf none = false := by
  rw [mentionsPrice, decide_eq_false_iff_not, Option.getD_none]
  exact fun h => absurd (List.infix_nil.mp h) (by decide)

variable {Num : Type} [LinearOrder Num] [Zero Num]

theorem holds_priceClause (price : Option Num) :
    holds (disj (isNull price) (comparison (· == ·) price (some 0))) = priceFalsy price := by
  cases price <;> simp [priceFalsy, comparison]

theorem holds_descriptionClause (cf : Like.CaseFold) (description : Option String) :
    holds (disj (isNull description)
      (neg (Like.ilike cf description (Like.containing priceMention))))
      = !mentionsPrice cf description := by
  cases description with
  | none => simp [mentionsPrice_none]
  | some description =>
      rw [ilike_priceMention, holds_disj, holds_isNull, holds_neg_of_isSome rfl, holds_some]
      rfl

theorem holds_isFreeExpression (cf : Like.CaseFold) (event : Event Num) :
    holds (event.isFreeExpression cf) = (priceFalsy event.priceFrom && priceFalsy event.priceTo
      && event.ticketUrl.isNone && event.ticketPurchaseNote.isNone
      && !mentionsPrice cf event.description) := by
  rw [Event.isFreeExpression, holds_conjAll]
  simp only [List.all_cons, List.all_nil, holds_priceClause, holds_descriptionClause, holds_isNull,
    Bool.and_true, Bool.and_assoc]

/-- The row would be free, except that a ticket field is present and empty. -/
def EmptyTicketText (cf : Like.CaseFold) (event : Event Num) : Prop :=
  priceFalsy event.priceFrom = true ∧ priceFalsy event.priceTo = true
    ∧ textFalsy event.ticketUrl = true ∧ textFalsy event.ticketPurchaseNote = true
    ∧ (event.ticketUrl = some "" ∨ event.ticketPurchaseNote = some "")
    ∧ mentionsPrice cf event.description = false

/-- **The two rules agree exactly off the empty ticket texts.** Everything but the ticket fields is
read alike, so only those are split. -/
theorem isFree_eq_expression_iff (cf : Like.CaseFold) (event : Event Num) :
    event.isFree cf = holds (event.isFreeExpression cf) ↔ ¬ EmptyTicketText cf event := by
  have hmissing : ∀ text : Option String,
      textFalsy text = (text.isNone || decide (text = some "")) := by
    intro text
    cases text <;> simp [textFalsy, beq_eq_decide]
  rw [holds_isFreeExpression, Event.isFree, EmptyTicketText, hmissing, hmissing]
  cases priceFalsy event.priceFrom <;> cases priceFalsy event.priceTo <;>
    cases mentionsPrice cf event.description <;> try simp
  · -- nothing but the ticket fields is left to decide
    cases event.ticketUrl with
    | none => cases event.ticketPurchaseNote <;> simp
    | some url =>
        cases event.ticketPurchaseNote with
        | none => simp
        | some note =>
            by_cases hurl : url = "" <;> by_cases hnote : note = "" <;> simp [hurl, hnote]

theorem admits_onlyFree (context : QueryContext) (now : Int) (event : Event Num) :
    admits context onlyFree none now event = holds (event.isFreeExpression context.caseFold) := by
  simp [admits, buildFilters, onlyFree, textFalsy, holds_conjAll]

theorem filter_eq_filter_iff {α : Type} {p q : α → Bool} {rows : List α} :
    rows.filter p = rows.filter q ↔ ∀ row ∈ rows, p row = q row := by
  constructor
  · intro heq row hrow
    have hmem : row ∈ rows.filter p ↔ row ∈ rows.filter q := by rw [heq]
    simp only [List.mem_filter, hrow, true_and] at hmem
    exact Bool.eq_iff_iff.mpr hmem
  · exact List.filter_congr

/-- **The free flag and the free filter.** The flag in the response and the SQL predicate give one
answer on a row, and `?free=true` lists the flagged rows of a table, exactly when no row is free but
for an empty ticket text. -/
theorem free_flag_agrees_with_free_filter (context : QueryContext) (priceText : Num → String)
    (now : Int) :
    (∀ event : Event Num, event.isFree context.caseFold
        = holds (event.isFreeExpression context.caseFold)
      ↔ ¬ EmptyTicketText context.caseFold event) ∧
    ∀ table : EventTable Num,
      table.rows.filter (fun event =>
          (EventResponse.fromEvent context.caseFold priceText event).free)
        = table.rows.filter (admits context onlyFree none now)
      ↔ ∀ event ∈ table.rows, ¬ EmptyTicketText context.caseFold event := by
  refine ⟨isFree_eq_expression_iff context.caseFold, fun table => ?_⟩
  rw [filter_eq_filter_iff]
  apply forall₂_congr
  intro event _
  rw [admits_onlyFree]
  exact isFree_eq_expression_iff context.caseFold event

/-- An event with an empty ticket link and no other evidence of a price. -/
def emptyTicketUrl : Event Int := { Event.bare Int 1 "Koncertas" with ticketUrl := some "" }

theorem emptyTicketUrl_disagrees :
    emptyTicketUrl.isFree .ascii = true ∧
      holds (emptyTicketUrl.isFreeExpression .ascii) = false := by
  decide

end EventsApi
