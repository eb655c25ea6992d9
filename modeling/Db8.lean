import Db8.Bytes.Lex
import Db8.Bytes.SortedSet
import Db8.Core.Err
import Db8.Core.Object
import Db8.Db.Key
import Db8.Db.Extractor
import Db8.Db.Query
import Db8.Db.Index
import Db8.Db.QueryObject
import Db8.Db.QueryOrder
import Db8.Db.QueryPlan
import Db8.Db.QueryRoundTrip
import Db8.Db.RangeOrder
import Db8.Db.PlanBounds
import Db8.Db.PlanExact
import Db8.Db.IsamQuery
import Db8.Db.Scan
import Db8.Db.ScanExact
import Db8.Db.Ordering
import Db8.Db.ExtractorDefaults
import Db8.Db.Fetch
import Db8.Db.Limits
import Db8.Core.Base64
import Db8.Core.Base64Sizes
import Db8.Db.Paging
import Db8.Db.PageKeys
import Db8.Db.Serve
import Db8.Db.PagingExact
import Db8.Bytes.Runs
import Db8.Db.Distinct
import Db8.Bytes.SortedMap
import Db8.Db.Kind
import Db8.Db.QuotaEngine
import Db8.Db.QuotaRequest
import Db8.Db.QuotaMirror
import Db8.Db.QuotaFreeing
import Db8.Db.QuotaBound
import Db8.Db.Req
import Db8.Db.DelQuery
import Db8.Db.DelSweep
import Db8.Db.DelAgain
import Db8.Db.DelDurable
import Db8.Db.DelCount
import Db8.Luna.Request
import Db8.Luna.Atomic
import Db8.Luna.Programs
import Db8.Luna.Retry
import Db8.Core.JsonWriter
import Db8.Core.ServiceMessage
import Db8.Luna.ServiceHandler
import Db8.Luna.Handling
import Db8.Luna.Responses
import Db8.Luna.OneReply
import Db8.Db.KindGraph
import Db8.Db.PermissionEngine
import Db8.Db.PermissionPuts
import Db8.Db.Escalation
import Db8.DbEngine.Sequence
import Db8.Core.Convert
import Db8.Db.PutObj
import Db8.Db.Revisions
import Db8.Graph.Acyclic
import Db8.Db.KindLinks
import Db8.Db.KindRooted
import Db8.Db.Access
import Db8.Db.MergeQuery
import Db8.Db.MergeLaws
import Db8.Db.MergeOnce
import Db8.Db.SearchPaging
import Db8.Core.ReadBack
import Db8.Db.SearchRanges
import Db8.Db.SearchIds
import Db8.Graph.Visit
import Db8.Db.IndexLocale
import Db8.Db.IndexUpdate
import Db8.Db.KeySweep
import Db8.Db.KindDeletion
import Db8.Db.KindCleared
import Db8.Core.Codec
import Db8.Core.Compare
import Db8.Core.PropMap
import Db8.Db.KindIdRuns
import Db8.Db.KindState
import Db8.Db.TokenRuns
import Db8.Db.ObjectHeader
import Db8.Db.StoredObject
import Db8.Db.StoredRead
import Db8.Db.StoredRoundTrip
import Db8.Core.JsonParser
import Db8.Core.IntegerTokens
import Db8.Core.JsonChunks
import Db8.Core.JsonRestart
import Db8.Core.JsonEnding
import Db8.Db.Load
import Db8.Db.Dump
import Db8.Db.DumpChain
import Db8.Db.QueryFilter
import Db8.Db.FilterExact
import Db8.Db.RevisionSets
import Db8.Steps
import Db8.Core.Signal
import Db8.Core.MessageDispatcher
import Db8.Bytes.Places
import Db8.DbEngine.LevelTxn
import Db8.DbEngine.LevelIterator
import Db8.DbEngine.LevelCursor
import Db8.DbEngine.LevelRefines
import Db8.DbEngine.LevelCommit
import Db8.Core.NumberLexer
import Db8.Core.NumberParser
import Db8.Core.NumberChecks
import Db8.Core.NumberExact
import Db8.Core.NumberText
import Db8.Core.JsonTerminated
import Db8.Core.JsonText
import Db8.Core.JsonRoundTrip
import Db8.Core.ObjectFilter
import Db8.Core.FilterRuns
import Db8.Core.Projection
import Db8.Db.SelectFind
import Db8.Db.KeyProduct
import Db8.Db.RangeContains
import Db8.Db.SubObjectIds
import Db8.Core.Buffer
import Db8.Core.BufferRuns
import Db8.Heap.Handles
import Db8.Core.Vector
import Db8.Core.VectorRuns
import Db8.Core.HashLinks
import Db8.Core.HashTables
import Db8.Core.HashRuns
import Db8.Sorting.QuickSort
import Db8.Db.SearchLoad
import Db8.Db.CursorReuse
import Db8.DbEngine.DelPrefix
import Db8.Db.IndexMirror
import Db8.Db.FindObjects
import Db8.Db.Watches
import Db8.Db.WatchKeys
import Db8.Db.WatchCalls
import Db8.Db.WatchRuns
import Db8.Core.Normalize
import Db8.Luna.ServiceClient
