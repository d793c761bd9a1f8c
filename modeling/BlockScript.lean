import BlockScript.Command.FileTree
import BlockScript.Command.Generate
import BlockScript.Command.Options
import BlockScript.Command.Path
import BlockScript.Command.Serve
import BlockScript.Decimal.Binary
import BlockScript.Decimal.Shortest
import BlockScript.Diagnostic.Basic
import BlockScript.Diagnostic.Finding
import BlockScript.Graph.Block
import BlockScript.Graph.Container
import BlockScript.Graph.Index
import BlockScript.Graph.Nesting
import BlockScript.Graph.Parameter
import BlockScript.Graph.Snapshot
import BlockScript.Graph.Wiring
import BlockScript.Json.Basic
import BlockScript.Json.Display
import BlockScript.Json.Printer
import BlockScript.Json.Reader
import BlockScript.Json.Sendable
import BlockScript.Json.Token
import BlockScript.Main
import BlockScript.Naming.Binder
import BlockScript.Naming.Binding
import BlockScript.Naming.Identifier
import BlockScript.Proofs.AgreeingScopes
import BlockScript.Proofs.AlikeGraphs
import BlockScript.Proofs.AppendedBlock
import BlockScript.Proofs.Assignments
import BlockScript.Proofs.BalancedBraces
import BlockScript.Proofs.CapturedParameters
import BlockScript.Proofs.ChainRuns
import BlockScript.Proofs.CleanSnapshot
import BlockScript.Proofs.CrossScopeConnections
import BlockScript.Proofs.CycleReports
import BlockScript.Proofs.DefinitionBeforeUse
import BlockScript.Proofs.DependencyOrder
import BlockScript.Proofs.DocumentRoundTrip
import BlockScript.Proofs.EmissionLayout
import BlockScript.Proofs.FirstConnections
import BlockScript.Proofs.Forest
import BlockScript.Proofs.GivenNames
import BlockScript.Proofs.ImplicitInputs
import BlockScript.Proofs.InScopeConnections
import BlockScript.Proofs.Layout
import BlockScript.Proofs.LayoutEntries
import BlockScript.Proofs.LayoutFindings
import BlockScript.Proofs.Lists
import BlockScript.Proofs.MaximalRuns
import BlockScript.Proofs.NestingCircles
import BlockScript.Proofs.NewNames
import BlockScript.Proofs.OwnResults
import BlockScript.Proofs.PipelineText
import BlockScript.Proofs.Presentation
import BlockScript.Proofs.QuotedArguments
import BlockScript.Proofs.RenderedOnce
import BlockScript.Proofs.ScopeInputs
import BlockScript.Proofs.ScopeNames
import BlockScript.Proofs.Scopes
import BlockScript.Proofs.ScriptParts
import BlockScript.Proofs.SortedScopes
import BlockScript.Proofs.StatementOrder
import BlockScript.Proofs.StatementsInOrder
import BlockScript.Proofs.StrictGeneration
import BlockScript.Proofs.StrictQueries
import BlockScript.Proofs.TableViews
import BlockScript.Proofs.TextMarks
import BlockScript.Proofs.UnrelatedBlocks
import BlockScript.Proofs.ViewTree
import BlockScript.Proofs.VisibleProducers
import BlockScript.Proofs.Wiring
import BlockScript.Proofs.WrittenScopes
import BlockScript.Schema.Fault
import BlockScript.Schema.Field
import BlockScript.Schema.Graph
import BlockScript.Schema.Report
import BlockScript.Scope.Basic
import BlockScript.Scope.Chain
import BlockScript.Scope.Order
import BlockScript.Script.Emission
import BlockScript.Script.Entry
import BlockScript.Script.Generation
import BlockScript.Service.Log
import BlockScript.Service.Render
import BlockScript.Service.Settings
import BlockScript.Text.Blank
import BlockScript.Text.Lines
import BlockScript.Text.Numeral
import BlockScript.Text.Quoted
import BlockScript.Text.Utf8
import BlockScript.Text.Wide
import BlockScript.Web.App
import BlockScript.Web.Message
import BlockScript.Web.Target
import BlockScript.Web.Template
