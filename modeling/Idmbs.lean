import Idmbs.Common.Re
import Idmbs.Common.LowerBound
import Idmbs.Lib.Chain
import Idmbs.Lib.Chunks
import Idmbs.Lib.Comparator
import Idmbs.Lib.SearchTree
import Idmbs.Lib.Recency
import Idmbs.Lib.Bytes
import Idmbs.Lib.CString
import Idmbs.Common.CommonDefs
import Idmbs.Storage.PagePool
import Idmbs.Storage.PageBookkeeping
import Idmbs.Storage.PageRecovery
import Idmbs.Storage.TableMeta
import Idmbs.Storage.CreateIndex
import Idmbs.Storage.CreateTable
import Idmbs.Storage.PersistFile
import Idmbs.BPlusTree.Node
import Idmbs.BPlusTree.Handler
import Idmbs.BPlusTree.Checks
import Idmbs.BPlusTree.View
import Idmbs.BPlusTree.Moves
import Idmbs.BPlusTree.WellFormed
import Idmbs.BPlusTree.Account
import Idmbs.BPlusTree.Lookup
import Idmbs.BPlusTree.InsertParent
import Idmbs.BPlusTree.Insert
import Idmbs.BPlusTree.Siblings
import Idmbs.BPlusTree.Redistribute
import Idmbs.BPlusTree.Coalesce
import Idmbs.BPlusTree.Delete
import Idmbs.BPlusTree.IndexRuns
import Idmbs.BPlusTree.IndexBalance
import Idmbs.BPlusTree.IndexMarks
import Idmbs.BPlusTree.IndexChecks
import Idmbs.BPlusTree.Validate
import Idmbs.BPlusTree.Scanner
import Idmbs.BPlusTree.Scan
import Idmbs.BPlusTree.InsertFailure
import Idmbs.BPlusTree.FixUserKey
import Idmbs.BPlusTree.KeyOrder
import Idmbs.CLog.Record
import Idmbs.CLog.Codec
import Idmbs.CLog.Buffer
import Idmbs.CLog.Stream
import Idmbs.CLog.FirstRecord
import Idmbs.CLog.Commit
import Idmbs.CLog.Recover
import Idmbs.CLog.Reader
import Idmbs.CLog.Recovery
import Idmbs.CLog.Termination
import Idmbs.CLog.RecoverObjects
import Idmbs.CLog.Returns
import Idmbs.Parse.ParseDefs
import Idmbs.Resolve.Tuple
import Idmbs.Resolve.Filter
import Idmbs.Storage.ConditionFilter
import Idmbs.Execute.IndexScan
import Idmbs.Parse.Grammar
import Idmbs.Parse.Actions
import Idmbs.Parse.QueryKind
import Idmbs.Parse.Stored
import Idmbs.Storage.RowOps
import Idmbs.Storage.BitMap
import Idmbs.Storage.RecordFile
import Idmbs.Storage.PageBytes
import Idmbs.Storage.PageRuns
import Idmbs.Storage.PageRedo
import Idmbs.Storage.RecordPins
import Idmbs.Storage.RecordScan
import Idmbs.Storage.RecordFilterScan
import Idmbs.Storage.RecordMap
import Idmbs.Storage.IndexEntries
import Idmbs.Execute.DeleteOperator
import Idmbs.Storage.BufferTransparency
import Idmbs.Storage.BufferClose
import Idmbs.Storage.BufferLru
import Idmbs.Storage.TxnMark
import Idmbs.Resolve.TupleOrder
import Idmbs.Parse.Columns
import Idmbs.Resolve.SelectStatement
import Idmbs.Parse.Bounds
import Idmbs.Storage.Layout
import Idmbs.Storage.TableJson
import Idmbs.Storage.RowEncoding
import Idmbs.Storage.FindIndex
import Idmbs.CLog.Lsn
import Idmbs.Storage.TableScan
import Idmbs.Storage.BitSearch
import Idmbs.BPlusTree.ItemSearch
import Idmbs.BPlusTree.ItemLookup
import Idmbs.CLog.Copy
import Idmbs.Lib.ItemPool
import Idmbs.Storage.MemPool
import Idmbs.Storage.LruCache
import Idmbs.Storage.LruRecency
import Idmbs.Storage.FrameManager
import Idmbs.Storage.TxnOps
import Idmbs.Common.PrefixTree
import Idmbs.Common.PrefixTreeWords
import Idmbs.Execute.TupleText
import Idmbs.Execute.SelectOperator
import Idmbs.Execute.TableSession
import Idmbs.Execute.SessionRefines
import Idmbs.CLog.MiniTxn
import Idmbs.Execute.SessionLog
import Idmbs.BPlusTree.SortedIndex
import Idmbs.Storage.IndexRefines
import Idmbs.BPlusTree.ValidTree
import Idmbs.Lib.LongestMatch
import Idmbs.Lib.Phrases
import Idmbs.Parse.Lexer
import Idmbs.Parse.Statements
import Idmbs.Storage.OpenTables
import Idmbs.Storage.PoolRefines
import Idmbs.Storage.RecordSpace
import Idmbs.Storage.PageSlots
