import LevelDB.Util.Bloom
import LevelDB.Util.LruCache
import LevelDB.Util.PosixMmapFile
import LevelDB.Table.BlockBounds
import LevelDB.Table.BlockReader
import LevelDB.Table.BlockSeek
import LevelDB.Table.TableGet
import LevelDB.Table.TwoLevelStatus
import LevelDB.Db.MemTable
import LevelDB.Db.SkipListIterator
import LevelDB.Db.LogFailures
import LevelDB.Db.LogOffsets
import LevelDB.Db.RecoverLog
import LevelDB.Db.DescriptorFile
import LevelDB.Db.FileName
import LevelDB.Db.OutputCut
import LevelDB.Db.SeekStats
import LevelDB.Db.VersionRefs
import LevelDB.Db.ConcurrentReads
import LevelDB.Db.EngineIterators
import LevelDB.Db.QueuedWrites
import LevelDB.Db.BackgroundWork
import LevelDB.Db.OpenStatus
import LevelDB.Db.StorageSync
