import Pepper.Theory.Log.Survival
import Pepper.Theory.Kafka.Overlap
import Pepper.Theory.Native.Zeroing
import Pepper.Theory.Network.Replay
import Pepper.Theory.Merkle.Lookup
import Pepper.Theory.Namespace.Replay
import Pepper.Theory.Consensus.Folding
import Pepper.Theory.Kafka.Assignments
import Pepper.Theory.Log.Crash
import Pepper.Theory.Kafka.Retention
import Pepper.Theory.Transactions.Lifecycle
import Pepper.Theory.Partition.Refusals
import Pepper.Theory.Partition.Watermarks
import Pepper.Theory.Dag.Traversal
import Pepper.Theory.Rsm.ReadGate
import Pepper.Theory.Transactions.Stream
import Pepper.Theory.Protocol.Chunks
import Pepper.Theory.Buffer
import Pepper.Theory.ExtentHeader
import Pepper.Theory.Kafka.Compaction
import Pepper.Theory.Log.Counters
import Pepper.Theory.Merkle.Depth
import Pepper.Theory.Namespace.Retention
