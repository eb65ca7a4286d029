import VarRecovery.Access.Cell
import VarRecovery.Access.Collect
import VarRecovery.Access.Intrinsic
import VarRecovery.Access.Lowering
import VarRecovery.Access.Materialize
import VarRecovery.Access.Popularity
import VarRecovery.Access.Trace
import VarRecovery.Address
import VarRecovery.Calling.Binding
import VarRecovery.Calling.Convention
import VarRecovery.Calling.Decl
import VarRecovery.Calling.InternedRecord
import VarRecovery.Calling.Pieces
import VarRecovery.Calling.Record
import VarRecovery.Calling.RecordText
import VarRecovery.Calling.Register
import VarRecovery.Code.Func
import VarRecovery.Code.Graph
import VarRecovery.Code.Id
import VarRecovery.Code.Inst
import VarRecovery.Code.Links
import VarRecovery.Code.Listing
import VarRecovery.Code.Module
import VarRecovery.Code.Signature
import VarRecovery.Code.Text
import VarRecovery.Code.Value
import VarRecovery.DataLayout
import VarRecovery.FreshName
import VarRecovery.Image
import VarRecovery.Imm
import VarRecovery.Json.Basic
import VarRecovery.Json.Number
import VarRecovery.Json.Reader
import VarRecovery.Json.Text
import VarRecovery.Pointer.DeadCode
import VarRecovery.Pointer.Displacement
import VarRecovery.Pointer.Path
import VarRecovery.Pointer.Phi
import VarRecovery.Pointer.Simplification
import VarRecovery.Proofs.Access.Collect
import VarRecovery.Proofs.Access.Form
import VarRecovery.Proofs.Access.Lowering
import VarRecovery.Proofs.Access.Materialize
import VarRecovery.Proofs.Access.Plain
import VarRecovery.Proofs.Access.Recorded
import VarRecovery.Proofs.Access.Trace
import VarRecovery.Proofs.Address
import VarRecovery.Proofs.AddressSpace
import VarRecovery.Proofs.Calling.Binding
import VarRecovery.Proofs.Calling.InternedRecord
import VarRecovery.Proofs.Calling.Pieces
import VarRecovery.Proofs.Calling.Record
import VarRecovery.Proofs.Calling.Register
import VarRecovery.Proofs.Calling.Rereading
import VarRecovery.Proofs.Code.Chain
import VarRecovery.Proofs.Code.Closed
import VarRecovery.Proofs.Code.Extension
import VarRecovery.Proofs.Code.Form
import VarRecovery.Proofs.Code.Func
import VarRecovery.Proofs.Code.Graph
import VarRecovery.Proofs.Code.Inst
import VarRecovery.Proofs.Code.Links
import VarRecovery.Proofs.Code.Listing
import VarRecovery.Proofs.Code.Module
import VarRecovery.Proofs.Code.Revision
import VarRecovery.Proofs.Code.Tracking
import VarRecovery.Proofs.Code.Valid
import VarRecovery.Proofs.DataLayout
import VarRecovery.Proofs.Declaring
import VarRecovery.Proofs.EntityPointers
import VarRecovery.Proofs.FreshName
import VarRecovery.Proofs.Placement
import VarRecovery.Proofs.Pointer.Candidates
import VarRecovery.Proofs.Pointer.DeadCode
import VarRecovery.Proofs.Pointer.Decidable
import VarRecovery.Proofs.Pointer.Displacement
import VarRecovery.Proofs.Pointer.Edit
import VarRecovery.Proofs.Pointer.Effects
import VarRecovery.Proofs.Pointer.Fixpoint
import VarRecovery.Proofs.Pointer.Frontier
import VarRecovery.Proofs.Pointer.Growth
import VarRecovery.Proofs.Pointer.Phi
import VarRecovery.Proofs.Pointer.Soundness
import VarRecovery.Proofs.Pointer.Steps
import VarRecovery.Proofs.Pointer.Termination
import VarRecovery.Proofs.Pointer.Tracking
import VarRecovery.Proofs.Recovering
import VarRecovery.Proofs.Recovery
import VarRecovery.Proofs.Region.Apart
import VarRecovery.Proofs.Region.Coverage
import VarRecovery.Proofs.Region.Denotation
import VarRecovery.Proofs.Region.EntityTable
import VarRecovery.Proofs.Region.FieldList
import VarRecovery.Proofs.Region.Form
import VarRecovery.Proofs.Region.Frame
import VarRecovery.Proofs.Region.FrameRedirection
import VarRecovery.Proofs.Region.GepOffset
import VarRecovery.Proofs.Region.Globals
import VarRecovery.Proofs.Region.Homes
import VarRecovery.Proofs.Region.OneHome
import VarRecovery.Proofs.Region.OperandPositions
import VarRecovery.Proofs.Region.Redirection
import VarRecovery.Proofs.Region.Rehoming
import VarRecovery.Proofs.Region.Resolution
import VarRecovery.Proofs.Region.Retrace
import VarRecovery.Proofs.Region.Retyping
import VarRecovery.Proofs.Region.Run
import VarRecovery.Proofs.Region.StackAddresses
import VarRecovery.Proofs.Region.Tracking
import VarRecovery.Proofs.Region.Variables
import VarRecovery.Proofs.Stages
import VarRecovery.Proofs.Ty.Arena
import VarRecovery.Proofs.Ty.ArenaReading
import VarRecovery.Proofs.Ty.Expr
import VarRecovery.Proofs.Ty.Meaning
import VarRecovery.Proofs.Ty.Reading
import VarRecovery.Proofs.Ty.Token
import VarRecovery.Proofs.TypeLayout
import VarRecovery.Recovering
import VarRecovery.Recovery
import VarRecovery.RecoveryError
import VarRecovery.Region.EntityTable
import VarRecovery.Region.EntryCursor
import VarRecovery.Region.FieldList
import VarRecovery.Region.Frame
import VarRecovery.Region.Globals
import VarRecovery.Region.Run
import VarRecovery.Target
import VarRecovery.Ty.Arena
import VarRecovery.Ty.Basic
import VarRecovery.Ty.Expr
import VarRecovery.Ty.Reading
import VarRecovery.Ty.Store
import VarRecovery.Ty.Text
import VarRecovery.Ty.Token
import VarRecovery.Warning
import VarRecovery.Word
import VarRecovery.Proofs.Access.Written
import VarRecovery.Proofs.Region.Progress
import VarRecovery.Proofs.StoredBytes
import VarRecovery.Proofs.Region.FrameTiling
import VarRecovery.Proofs.EntityNames
import VarRecovery.Proofs.Code.Replacement
import VarRecovery.Proofs.Pointer.Path
import VarRecovery.Proofs.Pointer.FoldedPath
import VarRecovery.Proofs.Access.Lowered
import VarRecovery.Proofs.Access.LoweredCalls
import VarRecovery.Proofs.SecondRecovery
import VarRecovery.Proofs.Region.NaturalLayout
import VarRecovery.Proofs.Region.Stretches
import VarRecovery.Proofs.Region.Covering
import VarRecovery.Proofs.Access.Search
import VarRecovery.Proofs.Access.Expressions
import VarRecovery.Proofs.Pointer.Sweep
import VarRecovery.Proofs.Calling.Returns
import VarRecovery.Proofs.Region.FrameOrder
import VarRecovery.Proofs.Region.Insertions
import VarRecovery.Proofs.Region.EntryCursor
import VarRecovery.Proofs.Access.Popularity
