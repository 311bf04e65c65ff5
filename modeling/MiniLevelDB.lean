import MiniLevelDB.Lib.ListOrder
import MiniLevelDB.Lib.Program
import MiniLevelDB.Lib.SkipSearch
import MiniLevelDB.Slice
import MiniLevelDB.Status
import MiniLevelDB.Coding
import MiniLevelDB.Crc32c
import MiniLevelDB.FileOps
import MiniLevelDB.LogWriter
import MiniLevelDB.LogLayout
import MiniLevelDB.LogReader
import MiniLevelDB.LogWalk
import MiniLevelDB.LogRoundTrip
import MiniLevelDB.LogFaults
import MiniLevelDB.DbFormat
import MiniLevelDB.WriteBatch
import MiniLevelDB.MemTable
import MiniLevelDB.BlockBuilder
import MiniLevelDB.Block
import MiniLevelDB.BlockLayout
import MiniLevelDB.TableFormat
import MiniLevelDB.TableBuilder
import MiniLevelDB.Table
import MiniLevelDB.TableRoundTrip
import MiniLevelDB.TableSearch
import MiniLevelDB.FileName
import MiniLevelDB.DbImpl
import MiniLevelDB.MemTableList
import MiniLevelDB.LogAltered
import MiniLevelDB.Replay
import MiniLevelDB.ReadPath
import MiniLevelDB.Directory
import MiniLevelDB.Opening
import MiniLevelDB.Lib.ReflectedCrc
import MiniLevelDB.Crc32cBits
import MiniLevelDB.Bursts
import MiniLevelDB.SkipTowers
import MiniLevelDB.LogFragments
import MiniLevelDB.BatchGrammar
import MiniLevelDB.BatchMemory
import MiniLevelDB.BlockMoves
import MiniLevelDB.BlockSafety
import MiniLevelDB.BlockProgress
import MiniLevelDB.LastSeq
import MiniLevelDB.Writing
import MiniLevelDB.Worlds
import MiniLevelDB.Runs
import MiniLevelDB.Random
import MiniLevelDB.ArenaBlocks
import MiniLevelDB.Progress
import MiniLevelDB.Layers
import MiniLevelDB.Contents
import MiniLevelDB.FileNumbers
import MiniLevelDB.Sizes
import MiniLevelDB.RunDirectory
import MiniLevelDB.Numbering
import MiniLevelDB.ReadAfterWrites
import MiniLevelDB.Reopening
import MiniLevelDB.WriteOutcome
import MiniLevelDB.Recovery
import MiniLevelDB.HugeTable
import MiniLevelDB.Lib.Lockstep
import MiniLevelDB.FlakyDisk
import MiniLevelDB.FlushFailures
import MiniLevelDB.NullSafety
import MiniLevelDB.Usable
import MiniLevelDB.FlushRecovery
import MiniLevelDB.Lib.Simulation
import MiniLevelDB.SkipReaders
import MiniLevelDB.Store
import MiniLevelDB.Lib.Failure
import MiniLevelDB.CallFailures
import MiniLevelDB.FailStop
import MiniLevelDB.RandomPeriod
import MiniLevelDB.Hash
import MiniLevelDB.OpenAgain
import MiniLevelDB.WriteAtomic
import MiniLevelDB.TableDamage
import MiniLevelDB.CallsReturn
import MiniLevelDB.LogFramed
import MiniLevelDB.SeekReads
import MiniLevelDB.FlippedBits
