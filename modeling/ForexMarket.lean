import ForexMarket.Proofs.Stored
import ForexMarket.Theorems.Amortized
import ForexMarket.Theorems.Arithmetic
import ForexMarket.Theorems.Atomicity
import ForexMarket.Theorems.Audit
import ForexMarket.Theorems.BookInvariant
import ForexMarket.Model.Exchange
import ForexMarket.Theorems.Clients
import ForexMarket.Theorems.Comparisons
import ForexMarket.Theorems.Connections
import ForexMarket.Theorems.Sending
import ForexMarket.Theorems.Decoding
import ForexMarket.Theorems.Execution
import ForexMarket.Theorems.Filing
import ForexMarket.Theorems.Framing
import ForexMarket.Theorems.Freshness
import ForexMarket.Theorems.Input
import ForexMarket.Theorems.Ledger
import ForexMarket.Theorems.Offers
import ForexMarket.Theorems.Passwords
import ForexMarket.Theorems.Priority
import ForexMarket.Theorems.Quotes
import ForexMarket.Theorems.Reports
import ForexMarket.Theorems.Restart
import ForexMarket.Theorems.Script
import ForexMarket.Theorems.Serving
import ForexMarket.Theorems.Sessions
import ForexMarket.Theorems.Splitting
import ForexMarket.Theorems.Totality
import ForexMarket.Theorems.Undo
import ForexMarket.Theorems.UserNames
