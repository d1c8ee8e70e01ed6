import Tadis.PageDeletion
import Tadis.PageView
import Tadis.Allocation
import Tadis.Transition
import Tadis.PageStore
import Tadis.Restart
import Tadis.RecordPage
import Tadis.SlotRefinement
import Tadis.Pull
import Tadis.TableHeap
import Tadis.DensePool
import Tadis.RecordScanner
import Tadis.TableScan
import Tadis.ScanExactness
import Tadis.Sessions
import Tadis.Ast
import Tadis.Tuple
import Tadis.Executer
import Tadis.Binder
import Tadis.RowCodec
import Tadis.SelectProject
import Tadis.Lexer
import Tadis.Recognition
import Tadis.Parser
import Tadis.Lexemes
import Tadis.ParserRules
import Tadis.Grammar
import Tadis.Sentences
import Tadis.Acceptance
import Tadis.ValuePlaces
import Tadis.Conditions
import Tadis.Metadata
import Tadis.FreeGap
import Tadis.FailedAllocation
import Tadis.RejectedInsert
import Tadis.ScannerPins
import Tadis.FramePartition
import Tadis.HeaderLimit
import Tadis.HeaderCounters
import Tadis.Closing
import Tadis.ColumnList
import Tadis.TableState
import Tadis.InsertReport
import Tadis.NameResolution
import Tadis.ThreeWay
import Tadis.ValueOrder
import Tadis.DeleteSentences
import Tadis.StringLiterals
import Tadis.JsonBounds
import Tadis.LexerCalls
import Tadis.Rendering
import Tadis.FloatLiterals
import Tadis.PageIds
import Tadis.Recency
import Tadis.LruRefinement
import Tadis.JsonSpacing
import Tadis.FileTransparency
import Tadis.Residency
import Tadis.ResidentHeap
import Tadis.Cursor
import Tadis.Machine
import Tadis.HeapClients
import Tadis.ScanWindow
import Tadis.Engine
import Tadis.Relations
import Tadis.StoredRelations
import Tadis.EngineRefinement
import Tadis.EngineQueries
import Tadis.ParseErrors
import Tadis.EngineRestart
import Tadis.MetadataNames
import Tadis.ShellSessions
import Tadis.EngineInvariants
import Tadis.StatementSafety
import Tadis.StatementText
import Tadis.Durability
import Tadis.ParsedStatements
import Tadis.Startup
import Tadis.Locality
import Tadis.ListingOrder
import Tadis.Replay
