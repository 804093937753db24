import ForexMarket.Model.Client

/- What the client prints of a response (`request_handler.cpp`). A value is written to
   `std::cout` as the text `dump` makes of it. What was printed before an exception is not
   modelled, and neither are the prompts. -/
namespace ForexMarket

/-- The options of the menu that make a request. -/
inductive RequestType where
  | postOffer
  | cancelOffer
  | getQuotes
  | getBalance
  | getActive
  | getClosed
  deriving DecidableEq, Repr

namespace RequestType

/-- The option of the menu; the last one ends the session. -/
def ofOption (option : Int) : Option RequestType :=
  if option = 1 then some postOffer
  else if option = 2 then some cancelOffer
  else if option = 3 then some getQuotes
  else if option = 4 then some getBalance
  else if option = 5 then some getActive
  else if option = 6 then some getClosed
  else none

/-- `MakeRequest`: the type that is sent. -/
def name : RequestType → Bytes
  | postOffer => requests.postOffer
  | cancelOffer => requests.cancel
  | getQuotes => requests.quotes
  | getBalance => requests.balance
  | getActive => requests.activeOffers
  | getClosed => requests.closedDeals

end RequestType

namespace Client

/-- A line that shows a member of a value. -/
def printMember (label : String) (key : Bytes) (v : Json) : Except Json.Exception Bytes := do
  let member ← v.at' key
  let shown ← member.dumped
  return text label ++ shown ++ text "\n"

/-- `NullableIntToString`. -/
def nullableIntToString : Json → Except Json.Exception Bytes
  | .null => .ok (text "none")
  | v => v.getInt.map Json.dumpInteger

def printQuote (label : String) (key : Bytes) (v : Json) : Except Json.Exception Bytes := do
  let member ← v.at' key
  let shown ← nullableIntToString member
  return text label ++ shown ++ text "\n"

namespace GetQuotesHandler

def printResult (response : Json) : Except Json.Exception Bytes := do
  let quote ← printQuote "    Last Deal Price: " jsonField.quote response
  let ask ← printQuote "    Ask quote      : " jsonField.askQuote response
  let bid ← printQuote "    Bid quote      : " jsonField.bidQuote response
  let spread ← printQuote "    Spread         : " jsonField.spread response
  return text "Quotes\n" ++ quote ++ ask ++ bid ++ spread

end GetQuotesHandler

namespace GetBalanceRequest

def printResult (response : Json) : Except Json.Exception Bytes := do
  let usd ← printMember "    USD: " jsonField.usd response
  let rub ← printMember "    RUB: " jsonField.rub response
  return text "Your Balance\n" ++ usd ++ rub

end GetBalanceRequest

/-- An offer in a list, with the blank line after it. -/
def printOffer (v : Json) : Except Json.Exception Bytes := do
  let offerId ← printMember "        Offer id: " jsonField.offerId v
  let amount ← printMember "        Amount  : " jsonField.amount v
  let price ← printMember "        Price   : " jsonField.price v
  return offerId ++ amount ++ price ++ text "\n"

/-- A deal in a list. -/
def printDeal (v : Json) : Except Json.Exception Bytes := do
  let amount ← printMember "        Amount  : " jsonField.amount v
  let price ← printMember "        Price   : " jsonField.price v
  return amount ++ price ++ text "\n"

/-- A list under its heading, or nothing if it is empty. -/
def printList (heading : String) (print : Json → Except Json.Exception Bytes) (v : Json) :
    Except Json.Exception Bytes :=
  if v.empty then .ok []
  else do
    let entries ← v.items.mapM print
    return text heading ++ entries.flatten

namespace GetActiveOffersRequest

def printResult (response : Json) : Except Json.Exception Bytes := do
  let buy ← response.at' jsonField.buy
  let buyText ← printList "     Buy offers:\n" printOffer buy
  let sell ← response.at' jsonField.sell
  let sellText ← printList "     Sell offers:\n" printOffer sell
  let none := if buy.empty && sell.empty then text "You do not have any active offers.\n" else []
  return text "Your Active Offers\n" ++ buyText ++ sellText ++ none

end GetActiveOffersRequest

namespace GetClosedDealsRequest

def printResult (response : Json) : Except Json.Exception Bytes := do
  let buy ← response.at' jsonField.buy
  let buyText ← printList "     Buy deals:\n" printDeal buy
  let sell ← response.at' jsonField.sell
  let sellText ← printList "     Sell deals:\n" printDeal sell
  let buySell ← response.at' jsonField.buySell
  let buySellText ← printList "    Buy-Sell deals:\n" printDeal buySell
  let none :=
    if buy.empty && sell.empty && buySell.empty then text "You do not have any closed deals.\n"
    else []
  return text "Your Active Offers\n" ++ buyText ++ sellText ++ buySellText ++ none

end GetClosedDealsRequest

namespace PostOfferRequest

def printResult (response : Json) : Except Json.Exception Bytes := do
  let shown ← response.getString
  return shown ++ text "\n"

end PostOfferRequest

namespace CancleOfferRequest

def printResult (response : Json) : Except Json.Exception Bytes := do
  let success ← (response.at' jsonField.success).bind Json.getBool
  return text (if success then "Offer has been canceled successfully.\n"
    else "Unable to cancle offer. Please make sure it is active buy checking active offers list.\n")

end CancleOfferRequest

/-- `PrintResult` of the handler `MakeRequest` makes. -/
def printResult : RequestType → Json → Except Json.Exception Bytes
  | .postOffer => PostOfferRequest.printResult
  | .cancelOffer => CancleOfferRequest.printResult
  | .getQuotes => GetQuotesHandler.printResult
  | .getBalance => GetBalanceRequest.printResult
  | .getActive => GetActiveOffersRequest.printResult
  | .getClosed => GetClosedDealsRequest.printResult

end Client

end ForexMarket
