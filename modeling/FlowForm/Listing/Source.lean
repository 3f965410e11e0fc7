import FlowForm.Listing.Parser

/-!
# Sources of code

A **source** gives the items of a function from an entry address on. There are two built-in
ones: the text of a listing, and a list of items in strictly ascending address order.
-/

namespace FlowForm

/-- A **source of code**: gives the items from an entry address on. -/
structure Source where
  name : String
  itemsFrom : Nat → Except ListingError (List Item)

namespace Source

/-- The items from the one at `entry` on. -/
def suffixAt (items : List Item) (entry : Nat) : Except ListingError (List Item) :=
  match items.dropWhile (·.address != entry) with
  | [] => .error (.entryNotFound entry)
  | item :: rest => .ok (item :: rest)

/-- The source over the items of a parsed listing, which stand at the addresses from zero on. -/
def ofItems (items : List Item) : Source where
  name := "ir-parser"
  itemsFrom := suffixAt items

/-- The source over the text of a listing. -/
def ofText (text : String) : Except ListingError Source := do
  return ofItems (← Listing.parse text)

/-- The first item that does not stand above the one before it, and that one. -/
def firstDescent? (items : List Item) : Option (Item × Item) :=
  (items.zip items.tail).find? fun (previous, item) => item.address ≤ previous.address

/-- The source over items in strictly ascending address order. -/
def ofListing (items : List Item) : Except ListingError Source :=
  match firstDescent? items with
  | some (previous, item) => .error (.unordered item.address previous.address)
  | none => .ok { name := "listing", itemsFrom := suffixAt items }

end Source

end FlowForm
