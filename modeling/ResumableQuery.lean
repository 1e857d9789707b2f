import ResumableQuery.Document.Parser
import ResumableQuery.Plan.Pages
import ResumableQuery.Plan.Pushdown
import ResumableQuery.Session.Basic
import ResumableQuery.Proofs.Continuation
import ResumableQuery.Proofs.Cursor.ChangingStore
import ResumableQuery.Proofs.Cursor.NestedResumption
import ResumableQuery.Proofs.Cursor.Protocol
import ResumableQuery.Proofs.Cursor.RowPages
import ResumableQuery.Proofs.Cursor.Sequential
import ResumableQuery.Proofs.Cursor.SharedBudget
import ResumableQuery.Proofs.Expression.KeyColumns
import ResumableQuery.Proofs.Expression.SemanticEquality
import ResumableQuery.Proofs.Plan.FieldPushdown
import ResumableQuery.Proofs.Plan.Identity
import ResumableQuery.Proofs.Plan.Pushdown
import ResumableQuery.Proofs.Plan.RequiredValues
import ResumableQuery.Proofs.Plan.Selection
import ResumableQuery.Proofs.Plan.TimeLimits
import ResumableQuery.Proofs.RecordStore.History
import ResumableQuery.Proofs.RecordStore.Isolation
import ResumableQuery.Proofs.Search.CompletionEntries
import ResumableQuery.Proofs.Search.CompletionPages
import ResumableQuery.Proofs.Search.FieldNames
import ResumableQuery.Proofs.Search.Hits
import ResumableQuery.Proofs.Search.Markers
import ResumableQuery.Proofs.Search.Positions
import ResumableQuery.Proofs.Search.Similarity
import ResumableQuery.Proofs.Search.Tokens
import ResumableQuery.Proofs.Tuple.Unpacking
import ResumableQuery.Proofs.WireFormat
