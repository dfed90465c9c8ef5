import CwDb.Apps.Splitter
import CwDb.Core.Dbms
import CwDb.Core.DbmsMirror
import CwDb.Core.Saving
import CwDb.Core.StringPool
import CwDb.Core.TableVersions
import CwDb.Core.Tidy
import CwDb.Core.Value
import CwDb.Core.VersionFiles
import CwDb.Foundation.AListRel
import CwDb.Foundation.BPlusTree
import CwDb.Foundation.BPlusUpdate
import CwDb.Foundation.Following
import CwDb.Foundation.Kleene
import CwDb.Foundation.LittleEndian
import CwDb.Foundation.LongestMatch
import CwDb.Foundation.Outcome
import CwDb.Foundation.Packing
import CwDb.Foundation.Refinement
import CwDb.Foundation.Rewriting
import CwDb.Foundation.SortedMap
import CwDb.Net.Normalise
import CwDb.Net.Server
import CwDb.Sql.Ast
import CwDb.Sql.Executor
import CwDb.Sql.Grammar
import CwDb.Sql.IntServer
import CwDb.Sql.Lexer
import CwDb.Sql.Literal
import CwDb.Sql.Pieces
import CwDb.Sql.RowList
import CwDb.Sql.Scanning
import CwDb.Sql.Schema
import CwDb.Sql.Selection
import CwDb.Sql.StatementMirror
import CwDb.Sql.Statements
import CwDb.Sql.TidyServer
import CwDb.Sql.UpdateOrder
import CwDb.Sql.Where
import CwDb.Storage.Database
import CwDb.Storage.DiskMirror
import CwDb.Storage.Files
import CwDb.Storage.Index.Build
import CwDb.Storage.Index.BulkBuild
import CwDb.Storage.Index.Erase
import CwDb.Storage.Index.Exchange
import CwDb.Storage.Index.Fill
import CwDb.Storage.Index.Following
import CwDb.Storage.Index.Held
import CwDb.Storage.Index.IndexMap
import CwDb.Storage.Index.InnerMend
import CwDb.Storage.Index.Insert
import CwDb.Storage.Index.Insertion
import CwDb.Storage.Index.IntIndex
import CwDb.Storage.Index.IntMap
import CwDb.Storage.Index.IntRuns
import CwDb.Storage.Index.Layout
import CwDb.Storage.Index.LeafMend
import CwDb.Storage.Index.LeafSplit
import CwDb.Storage.Index.Lookup
import CwDb.Storage.Index.PageFile
import CwDb.Storage.Index.PagedRuns
import CwDb.Storage.Index.PagedStore
import CwDb.Storage.Index.Pending
import CwDb.Storage.Index.Refresh
import CwDb.Storage.Index.Relief
import CwDb.Storage.Index.Removal
import CwDb.Storage.Index.RootOverflow
import CwDb.Storage.Index.Runs
import CwDb.Storage.Index.Search
import CwDb.Storage.Index.Splitting
import CwDb.Storage.Index.Store
import CwDb.Storage.Index.WriteLog
import CwDb.Storage.IndexCalls
import CwDb.Storage.IndexContents
import CwDb.Storage.Page
import CwDb.Storage.PageArray
import CwDb.Storage.PageCodec
import CwDb.Storage.PageReads
import CwDb.Storage.Pager
import CwDb.Storage.RowAtomic
import CwDb.Storage.Table
import CwDb.Storage.TableFile
import CwDb.Storage.TableFormat
import CwDb.Storage.TableIndex
import CwDb.Storage.TableInvariant
import CwDb.Storage.TableMirror
import CwDb.Storage.TableRows
import CwDb.Storage.Truncation
import CwDb.Storage.ValueIO
