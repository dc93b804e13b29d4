import RecordGraph.Backend.Script
import RecordGraph.Main
import RecordGraph.Proofs.FetchWalk
import RecordGraph.Proofs.PathIdentity
import RecordGraph.Proofs.RoundTrip
import RecordGraph.Proofs.SaveCalls
import RecordGraph.Proofs.PathSymbols
import RecordGraph.Proofs.PathReading
import RecordGraph.Proofs.PathGrammar
import RecordGraph.Proofs.PathDisplay
import RecordGraph.Proofs.CascadeWalk
import RecordGraph.Proofs.Resolving
import RecordGraph.Proofs.Unread
import RecordGraph.Proofs.Freshness
import RecordGraph.Proofs.SaveStages
import RecordGraph.Proofs.Links
import RecordGraph.Proofs.Refusal
import RecordGraph.Proofs.InsertedRow
import RecordGraph.Proofs.Provenance
import RecordGraph.Proofs.Exactness
import RecordGraph.Proofs.SavedNode
import RecordGraph.Proofs.StoppedSave
import RecordGraph.Proofs.SingleInsert
import RecordGraph.Proofs.StatementText
import RecordGraph.Proofs.Spellings
import RecordGraph.Proofs.DeleteCascade
import RecordGraph.Proofs.QuietReads
import RecordGraph.Proofs.DeletedRows
import RecordGraph.Proofs.Resaving
import RecordGraph.Proofs.Events
import RecordGraph.Proofs.Selections
import RecordGraph.Proofs.Histories
import RecordGraph.Proofs.SingleReads
import RecordGraph.Proofs.AssignmentSplit
import RecordGraph.Proofs.TokenPositions
import RecordGraph.Proofs.AssignedPath
import RecordGraph.Proofs.PathScan
import RecordGraph.Proofs.PathFaults
import RecordGraph.Proofs.ResolvedFirst
import RecordGraph.Proofs.OwnWrites
import RecordGraph.Proofs.ResumedResolution
import RecordGraph.Proofs.WorkspaceTables
import RecordGraph.Proofs.MisdirectedRuns
import RecordGraph.Proofs.Literals
import RecordGraph.Proofs.TypedValues
import RecordGraph.Proofs.ConfigFile
import RecordGraph.Proofs.ReplacedConfig
import RecordGraph.Proofs.ResolutionOrder
