import Minired.Lib.Transducer
import Minired.Bytes
import Minired.Dict
import Minired.DictMap
import Minired.Lib.Chain
import Minired.Lib.Tower
import Minired.Double
import Minired.Numbers
import Minired.SkipList
import Minired.SkipListInv
import Minired.SkipListOrder
import Minired.SkipListMap
import Minired.ZSet
import Minired.ZSetMap
import Minired.ZSetAgree
import Minired.Lib.LittleEndian
import Minired.Object
import Minired.Rdb
import Minired.RdbCodec
import Minired.ZSetAdditions
import Minired.RdbRoundTrip
import Minired.RdbTables
import Minired.RdbFailure
import Minired.RdbReject
import Minired.Lib.Posix
import Minired.SaveOverlap
import Minired.Expiry
import Minired.Lib.Relational
import Minired.Lib.Triple
import Minired.Commands
import Minired.CommandsSync
import Minired.ExpiredKeys
import Minired.Sweep
import Minired.Lib.Framing
import Minired.Resp
import Minired.NumberScan
import Minired.RespItem
import Minired.RespStrict
import Minired.RespStable
import Minired.Server
import Minired.Lib.Appending
import Minired.Replies
import Minired.Exceptions
import Minired.Delivery
import Minired.EventLoop
import Minired.EventLoopInv
import Minired.Fragmentation
import Minired.EndOfStream
import Minired.StoredValues
import Minired.Footprint
import Minired.LiveKey
import Minired.FailedCommands
import Minired.EmptyContainers
import Minired.Enumerations
import Minired.Frame
import Minired.SweepRace
import Minired.Lib.ShiftRegister
import Minired.Checksum
import Minired.Lib.Layout
import Minired.RdbLayout
import Minired.RdbCorruption
import Minired.RdbComplete
import Minired.WrongType
import Minired.Increments
import Minired.Deadlines
import Minired.Lib.Glob
import Minired.KeyPattern
import Minired.ZaddReply
import Minired.CountReplies
import Minired.Lib.TwoWay
import Minired.LinkedList
import Minired.LinkedListDeque
import Minired.LinkedListAccess
import Minired.Lib.Block
import Minired.Sds
import Minired.Appends
import Minired.Lib.BoundedSweep
import Minired.SweepProgress
import Minired.RdbTrace
import Minired.RespPointers
import Minired.ChecksumTable
import Minired.Lib.Words
import Minired.InlineCommand
import Minired.RespOverflow
import Minired.WriteInterest
import Minired.ClientPointers
import Minired.ClientSimulation
import Minired.EpollLoop
import Minired.Lib.Refinement
import Minired.Keyspace
import Minired.KeyspaceRules
import Minired.KeyspaceCommands
import Minired.Linearizable
import Minired.Durability
import Minired.Lib.Heap
import Minired.DictPointers
import Minired.DictOwnership
import Minired.SharedKeys
import Minired.KqueueLoop
import Minired.SkipListAccess
