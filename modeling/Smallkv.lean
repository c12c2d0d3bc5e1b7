import Smallkv.Lib.Arena
import Smallkv.Base
import Smallkv.Lib.Assoc
import Smallkv.MemTable.SkipList
import Smallkv.MemTable.Towers
import Smallkv.MemTable.OrderedMap
import Smallkv.MemTable.MemTable
import Smallkv.MemTable.Levels
import Smallkv.MemTable.Counters
import Smallkv.Lib.Cursor
import Smallkv.MemTable.Iteration
import Smallkv.Lib.PrefixCode
import Smallkv.Memory.Conservation
import Smallkv.Memory.PoolArithmetic
import Smallkv.Memory.Reallocate
import Smallkv.Memory.Outcomes
import Smallkv.Memory.Reporting
import Smallkv.Storage.Codec
import Smallkv.Storage.FileWriter
import Smallkv.Storage.WriterBuffer
import Smallkv.Storage.Durability
import Smallkv.Storage.Path
import Smallkv.Storage.WalFrames
import Smallkv.Cache.Lru
import Smallkv.Cache.Cache
import Smallkv.Cache.Ownership
import Smallkv.Cache.Handles
import Smallkv.Cache.Tidy
import Smallkv.DB.DBImpl
import Smallkv.DB.Readers
import Smallkv.DB.Tiers
import Smallkv.DB.Recovery
import Smallkv.DB.FlushLog
import Smallkv.DB.Overlay
import Smallkv.DB.FlushTest
import Smallkv.DB.Sessions
import Smallkv.DB.Closing
import Smallkv.DB.ReadPath
import Smallkv.DB.Frame
import Smallkv.DB.TierAnswers
import Smallkv.Table.DataBlock
import Smallkv.Table.FilterSound
import Smallkv.Table.SSTableBuilder
import Smallkv.MemTable.Flush
import Smallkv.Lib.Extents
import Smallkv.Table.Groups
import Smallkv.Table.Blocks
import Smallkv.Table.Layout
import Smallkv.Table.IndexOffsets
import Smallkv.Lib.Separators
import Smallkv.Table.Routing
import Smallkv.Table.RestartPoints
import Smallkv.Table.RestartSelection
import Smallkv.Table.Records
import Smallkv.Table.FrontCoding
import Smallkv.Table.ReadBack
import Smallkv.Table.IndexReload
import Smallkv.DB.ReadYourWrites
import Smallkv.Table.Filling
import Smallkv.Table.Building
import Smallkv.DB.FlushComplete
import Smallkv.Table.FilterFinish
import Smallkv.Table.ShortestKey
import Smallkv.Lib.Dialogue
import Smallkv.Lib.Loops
import Smallkv.MemTable.Walks
import Smallkv.Cli.Parse
import Smallkv.Lib.SharedMutex
import Smallkv.Lib.MutexProgress
import Smallkv.Sync.Lock
import Smallkv.Cache.Sections
import Smallkv.Cache.Contents
import Smallkv.DB.Clients
import Smallkv.DB.FreshPuts
import Smallkv.DB.Determined
import Smallkv.DB.Batches
import Smallkv.Table.FilterExact
import Smallkv.Table.Collisions
import Smallkv.Cli.Session
import Smallkv.Cache.Sharing
import Smallkv.Storage.FileReader
import Smallkv.DB.LogContents
import Smallkv.DB.Misses
import Smallkv.Table.IndexAccepts
import Smallkv.DB.Returns
import Smallkv.Table.Decoding
import Smallkv.DB.OnDisk
