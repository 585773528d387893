import TinyPointerTrees.AhoCorasick.Complexity
import TinyPointerTrees.AhoCorasick.Ownership
import TinyPointerTrees.Art.Canonical
import TinyPointerTrees.Art.Compression
import TinyPointerTrees.Art.Epoche
import TinyPointerTrees.Art.GracePeriods
import TinyPointerTrees.Art.Linearizable
import TinyPointerTrees.Art.NodeLock
import TinyPointerTrees.Art.PrefixBytes
import TinyPointerTrees.Art.Shrink
import TinyPointerTrees.TinyPtr.Encoding
import TinyPointerTrees.TinyPtr.HashDistributionSim
import TinyPointerTrees.TinyPtr.Linearizable
import TinyPointerTrees.TinyPtr.Progress
import TinyPointerTrees.TinyPtr.Primes
import TinyPointerTrees.TinyPtr.SequenceLock
import TinyPointerTrees.TinyPtr.Statistics
import TinyPointerTrees.TinyPtr.TwoChoice
import TinyPointerTrees.Trie.BulkCreate
import TinyPointerTrees.Trie.Indexing
import TinyPointerTrees.Trie.Overflow
import TinyPointerTrees.Trie.ValueDeletion
