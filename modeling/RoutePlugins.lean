import RoutePlugins.Imports.AliasRecord
import RoutePlugins.Proofs.Cli.GatedCommands
import RoutePlugins.Proofs.Digest.Contents
import RoutePlugins.Proofs.Imports.Faults
import RoutePlugins.Proofs.Imports.SourceOrder
import RoutePlugins.Proofs.Json.Uncommented
import RoutePlugins.Proofs.Ledger.Persisted
import RoutePlugins.Proofs.Pipeline.CommitAtomicity
import RoutePlugins.Proofs.Pipeline.Containment
import RoutePlugins.Proofs.Pipeline.Independence
import RoutePlugins.Proofs.Pipeline.PhaseSchedule
import RoutePlugins.Proofs.Plugin.CollectedCalls
import RoutePlugins.Proofs.Project.Aliases
import RoutePlugins.Proofs.Project.IgnoredNames
import RoutePlugins.Proofs.Routes.Layouts
import RoutePlugins.Proofs.Store.InnerReads
import RoutePlugins.Proofs.Store.SharedHistory
import RoutePlugins.Proofs.Text.Previewed
import RoutePlugins.Proofs.Text.Scrubbed
import RoutePlugins.Proofs.Tree.Edits
