import LearnSpdk.Lib.ColorTree
import LearnSpdk.Lib.RedBlack
import LearnSpdk.Lib.SearchTree
import LearnSpdk.Lib.LinkedTree
import LearnSpdk.Spec.RedBlackTree
import LearnSpdk.Proofs.RedBlackFixup
import LearnSpdk.Proofs.RedBlackTree
import LearnSpdk.Lib.FiniteMap
import LearnSpdk.Lib.RedBlackLinks
import LearnSpdk.Lib.TreeRotation
import LearnSpdk.Lib.ColorPaths
import LearnSpdk.Lib.TreeWalk
import LearnSpdk.Spec.RBTree
import LearnSpdk.Proofs.Checkers
import LearnSpdk.Proofs.RedBlackTreeRuns
import LearnSpdk.Proofs.Rotations
import LearnSpdk.Lib.LessDefined
import LearnSpdk.Proofs.RedBlackExits
import LearnSpdk.Proofs.RedBlackDepth
import LearnSpdk.Proofs.RBTreeGuards
import LearnSpdk.Proofs.RBTreeFixup
import LearnSpdk.Proofs.RBTree
import LearnSpdk.Proofs.RBTreeRuns
import LearnSpdk.Proofs.RBTreeDepth
import LearnSpdk.Proofs.Traversals
import LearnSpdk.Proofs.RBTreeLevels
import LearnSpdk.Lib.TreeMap
import LearnSpdk.Proofs.Bisimulation
import LearnSpdk.Spec.BPlusTree
import LearnSpdk.Lib.Chain
import LearnSpdk.Lib.Fences
import LearnSpdk.Proofs.BPlusLeaf
import LearnSpdk.Proofs.BPlusDescent
import LearnSpdk.Proofs.BPlusChain
import LearnSpdk.Proofs.BPlusRow
import LearnSpdk.Proofs.BPlusLookup
import LearnSpdk.Proofs.BPlusRange
import LearnSpdk.Proofs.BPlusShape
import LearnSpdk.Proofs.BPlusLevels
import LearnSpdk.Proofs.BPlusBound
import LearnSpdk.Spec.BPlusAccess
import LearnSpdk.Proofs.BPlusAccess
import LearnSpdk.Spec.BPlusCheck
import LearnSpdk.Proofs.BPlusCheck
import LearnSpdk.Proofs.BPlusRemove
import LearnSpdk.Proofs.BPlusLedger
import LearnSpdk.Lib.LinkedQueue
import LearnSpdk.Lib.Schedule
import LearnSpdk.Spec.LockfreeQueue
import LearnSpdk.Proofs.LockfreeQueue
import LearnSpdk.Proofs.LockfreePayload
import LearnSpdk.Proofs.LockfreeShape
import LearnSpdk.Spec.Threadpool
import LearnSpdk.Proofs.Threadpool
import LearnSpdk.Proofs.ThreadpoolWake
import LearnSpdk.Proofs.LRUCache
import LearnSpdk.Lib.Recency
import LearnSpdk.Proofs.LRUHistory
import LearnSpdk.Proofs.LRUInclusion
import LearnSpdk.Proofs.LRUCapacity
import LearnSpdk.Proofs.Slab
import LearnSpdk.Proofs.FdTable
import LearnSpdk.Proofs.MyfsLedger
import LearnSpdk.Proofs.MyfsAnswers
import LearnSpdk.Proofs.MyfsFile
import LearnSpdk.Proofs.MyfsApi
import LearnSpdk.Spec.MyfsBytes
import LearnSpdk.Proofs.MyfsBytes
import LearnSpdk.Spec.MyfsClusters
import LearnSpdk.Proofs.MyfsClusters
import LearnSpdk.Proofs.Hooks
import LearnSpdk.Spec.Hooks
import LearnSpdk.Spec.Server
import LearnSpdk.Proofs.Server
import LearnSpdk.Proofs.ServerTokens
import LearnSpdk.Proofs.ServerRequests
import LearnSpdk.Proofs.ServerClients
import LearnSpdk.Proofs.ServerAccept
import LearnSpdk.Spec.Nvme
import LearnSpdk.Proofs.Nvme
import LearnSpdk.Proofs.NvmeIo
import LearnSpdk.Lib.Headway
import LearnSpdk.Proofs.JsonConfig
import LearnSpdk.Spec.JsonConfig
import LearnSpdk.Proofs.JsonConfigRuns
import LearnSpdk.Proofs.JsonConfigLoad
import LearnSpdk.Lib.Tally
import LearnSpdk.Proofs.LockfreeProgress
import LearnSpdk.Proofs.ThreadpoolProgress
import LearnSpdk.Lib.Interleaving
import LearnSpdk.Proofs.LockfreeHistory
import LearnSpdk.Proofs.LockfreeTest
import LearnSpdk.Proofs.LockfreeTestRuns
import LearnSpdk.Proofs.LockfreeTestEnds
