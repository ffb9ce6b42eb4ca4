import EventsApi.Library.Like

/-!
# The event row

`app/events/models.py`. The price rule is written twice there: `is_free` runs in Python on a loaded
row, `_is_free_expression` compiles to SQL. Both are embedded as they stand, one with Python's
truthiness and one in three-valued logic.

Prices range over an arbitrary linear order with a zero, so nothing depends on how a NUMERIC column
is represented. Wall-clock columns count microseconds.
-/

namespace EventsApi

open ThreeValued

/-- Substring in a description that implies a ticket price: "kaina" is Lithuanian for "price". -/
def priceMention : String := "kaina"

structure Event (Num : Type) where
  id : Int
  title : String
  popularityCounter : Int
  startTime : Option Int
  endTime : Option Int
  venueName : Option String
  address : Option String
  city : Option String
  lat : Option Num
  lng : Option Num
  description : Option String
  imageUrl : Option String
  imageUrlStored : Option String
  priceFrom : Option Num
  priceTo : Option Num
  organizerName : Option String
  category : Option String
  ticketUrl : Option String
  sourceUrl : Option String
  ticketPurchaseNote : Option String

/-- A row with its required columns only. -/
def Event.bare (Num : Type) (id : Int) (title : String) : Event Num where
  id := id
  title := title
  popularityCounter := 0
  startTime := none
  endTime := none
  venueName := none
  address := none
  city := none
  lat := none
  lng := none
  description := none
  imageUrl := none
  imageUrlStored := none
  priceFrom := none
  priceTo := none
  organizerName := none
  category := none
  ticketUrl := none
  sourceUrl := none
  ticketPurchaseNote := none

/-- Python's `not text`: missing and empty text are both false. -/
def textFalsy (text : Option String) : Bool := text.all (· == "")

/-- Python's `first or second` on texts. -/
def textOr (first second : Option String) : Option String :=
  if textFalsy first then second else first

variable {Num : Type} [LinearOrder Num] [Zero Num]

/-- Python's `not price`: a missing price and a zero one are both false. -/
def priceFalsy (price : Option Num) : Bool := price.all (· == 0)

/-- `PRICE_MENTION in (description or "").casefold()`. -/
def mentionsPrice (cf : Like.CaseFold) (description : Option String) : Bool :=
  decide (priceMention.toList <:+: cf.fold (description.getD ""))

namespace Event

variable (cf : Like.CaseFold) (event : Event Num)

/-- Whether the event carries no evidence of costing money, evaluated in Python. -/
def isFree : Bool :=
  priceFalsy event.priceFrom
    && priceFalsy event.priceTo
    && textFalsy event.ticketUrl
    && textFalsy event.ticketPurchaseNote
    && !mentionsPrice cf event.description

/-- The same rule as the SQL expression the hybrid property compiles to. -/
def isFreeExpression : Truth :=
  conjAll [
    disj (isNull event.priceFrom) (comparison (· == ·) event.priceFrom (some 0)),
    disj (isNull event.priceTo) (comparison (· == ·) event.priceTo (some 0)),
    isNull event.ticketUrl,
    isNull event.ticketPurchaseNote,
    disj (isNull event.description)
      (neg (Like.ilike cf event.description (Like.containing priceMention)))]

/-- Street address, falling back to the venue name. -/
def displayAddress : Option String := textOr event.address event.venueName

/-- Re-hosted image if one exists, otherwise the original source URL. -/
def preferredImageUrl : Option String := textOr event.imageUrlStored event.imageUrl

end Event

end EventsApi
