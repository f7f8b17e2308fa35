import OstrichServer.Http.GrammarVerdict
import OstrichServer.Http.Segmentation
import OstrichServer.Http.PlainPath
import OstrichServer.Http.Components
import OstrichServer.Http.ValidateHost
import OstrichServer.Http.Version
import OstrichServer.AtomicList.Removal
import OstrichServer.EventThread.Wakeup
import OstrichServer.EventThread.Delivery
import OstrichServer.EventThread.IdleEvents
import OstrichServer.Timers.Promotion
import OstrichServer.Processor.AssignThread
import OstrichServer.HashTable.Lookup
import OstrichServer.Dictionary.StringKeys
import OstrichServer.Dictionary.FiniteMap
import OstrichServer.Dictionary.Upsert
import OstrichServer.Dictionary.Load
import OstrichServer.Dictionary.MaskedIndex
import OstrichServer.Config.Store
import OstrichServer.Config.Rejection
import OstrichServer.Strings.Search
import OstrichServer.Http.BoundedLoop
import OstrichServer.Http.HeaderRecord
import OstrichServer.ChainedDictionary.Rebuild
import OstrichServer.ChainedDictionary.Membership
import OstrichServer.EventPoll.Registration
import OstrichServer.SpinLock.Backoff
import OstrichServer.AtomicList.Packing
import OstrichServer.Dictionary.NextPower
import OstrichServer.AtomicList.Linearization
import OstrichServer.SpinLock.Exclusion
import OstrichServer.Dictionary.EntryLock
import OstrichServer.Processor.Scheduling
import OstrichServer.Foundations.Blocks
import OstrichServer.Arrays.Growable
import OstrichServer.Arrays.Pointers
import OstrichServer.Arrays.BinarySearch
import OstrichServer.Http.RoundTrip
import OstrichServer.Http.Browsers
import OstrichServer.ChainedDictionary.Memory
import OstrichServer.ChainedDictionary.Layout
import OstrichServer.ChainedDictionary.Ownership
import OstrichServer.ChainedDictionary.Ledger
import OstrichServer.ChainedDictionary.AllKeys
import OstrichServer.Dictionary.Hashes
import OstrichServer.HashTable.Crypttable
