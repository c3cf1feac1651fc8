import ApostolRates.AsOfHistory
import ApostolRates.Coverage
import ApostolRates.Repetition
import ApostolRates.ExchangeOrder
import ApostolRates.Concurrency
import ApostolRates.StoredRates
import ApostolRates.SuccessGuard
import ApostolRates.ReplyUpdates
import ApostolRates.DateOrder
import ApostolRates.Database
import ApostolRates.Book
import ApostolRates.InOrder
import ApostolRates.Independence
import ApostolRates.Permanence
import ApostolRates.Provenance
import ApostolRates.Isolation
import ApostolRates.Serializable
import ApostolRates.Unblocked
import ApostolRates.Delivery
import ApostolRates.Directory
import ApostolRates.View
import ApostolRates.Ranked
import ApostolRates.Deadlock
import ApostolRates.Continuity
