import Etar.AsyncIo
import Etar.Error
import Etar.Pax
import Etar.Header
import Etar.Guard
import Etar.Scan
import Etar.GuardSpec
import Etar.GuardRun
import Etar.Cap
import Etar.Entry
import Etar.Open
import Etar.Reader
import Etar.Framing
import Etar.Gnu
import Etar.ReaderRun
import Etar.PullSpec
import Etar.NextSpec
import Etar.Records
import Etar.Follow
import Etar.Sizes
import Etar.CleanEnd
import Etar.AsyncSink
import Etar.Builder
import Etar.PackRun
import Etar.Pack
import Etar.Writer
import Etar.PackSpec
import Etar.Sinks
import Etar.WriterRun
import Etar.Buffered
import Etar.Compress
import Etar.Targets
import Etar.Members
import Etar.GnuCoding
import Etar.RawZstd
import Etar.PaxGrammar
import Etar.Paths
import Etar.PackExact
import Etar.Gates
import Etar.Causes
import Etar.FirstError
import Etar.Cause
import Etar.Ratio
import Etar.Callers
import Etar.Bounded
import Etar.GuardState
import Etar.Sniffing
import Etar.Admitted
import Etar.Appends
import Etar.ReadBack
import Etar.RoundTrip
import Etar.WriteBack
import Etar.Cursor
import Etar.Finished
import Etar.Ledger
import Etar.Torn
import Etar.Journal
import Etar.Unfinished
import Etar.ReadAhead
import Etar.Repack
import Etar.Returning
import Etar.Budget
import Etar.Agreement
import Etar.Truncated
import Etar.Salvage
import Etar.Inflated
