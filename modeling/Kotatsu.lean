import Kotatsu.Async.Aggregate.Siblings
import Kotatsu.Async.Cancellation
import Kotatsu.Async.Each
import Kotatsu.Async.Io.Reader
import Kotatsu.Async.Io.Udp
import Kotatsu.Async.Relay
import Kotatsu.Async.Sync.Mutex
import Kotatsu.Async.Sync.Semaphore
import Kotatsu.Async.Sync.Woken
import Kotatsu.Cli.Competition
import Kotatsu.Cli.Expansion
import Kotatsu.Cli.Table.Parse
import Kotatsu.Codec.Bincode.Recursive
import Kotatsu.Codec.Blob.RoundTrip
import Kotatsu.Codec.Dyn.Object
import Kotatsu.Codec.Fbs.MapView
import Kotatsu.Codec.Json.Builder
import Kotatsu.Codec.Json.Schema.Cycles
import Kotatsu.Codec.Untagged
import Kotatsu.Fs.Path.Windows
import Kotatsu.Fs.Remove
import Kotatsu.Fs.Walk
import Kotatsu.Ipc.Codec.Arrival
import Kotatsu.Ipc.Codec.Json.Peek
import Kotatsu.Ipc.Lsp.FilePath
import Kotatsu.Ipc.Lsp.Order
import Kotatsu.Ipc.Lsp.Scan
import Kotatsu.Ipc.Peer.Output
import Kotatsu.Ipc.Peer.Requests
import Kotatsu.Support.Glob.Escape
import Kotatsu.Support.Glob.Root
import Kotatsu.Support.HybridVector.Runs
import Kotatsu.Support.ReplaceInvalid
import Kotatsu.Support.Utf16RoundTrip
import Kotatsu.Sys.Batch
import Kotatsu.Sys.Cmd.Expand
import Kotatsu.Sys.Env
import Kotatsu.Zest.ReadBack
import Kotatsu.Zest.Reports
