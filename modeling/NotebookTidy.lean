import NotebookTidy.Editor.Bus
import NotebookTidy.Engine.Sample
import NotebookTidy.Main
import NotebookTidy.Storage.Memory
import NotebookTidy.Proofs.Source.Boundary
import NotebookTidy.Proofs.Source.Places
import NotebookTidy.Proofs.Source.Cut
import NotebookTidy.Proofs.Source.Splice
import NotebookTidy.Proofs.Source.Reordering
import NotebookTidy.Proofs.Engine.Recoding
import NotebookTidy.Proofs.Engine.ColumnOrder
import NotebookTidy.Proofs.Glob.Search
import NotebookTidy.Proofs.Glob.Slices
import NotebookTidy.Proofs.Workspace.Scope
import NotebookTidy.Proofs.Path.Components
import NotebookTidy.Proofs.Path.Normal
import NotebookTidy.Proofs.Storage.Listing
import NotebookTidy.Proofs.Keyed
import NotebookTidy.Proofs.Config.Lookup
import NotebookTidy.Proofs.Config.Order
import NotebookTidy.Proofs.Config.Override
import NotebookTidy.Proofs.Toml.Ordered
import NotebookTidy.Proofs.Config.ExtendChain
import NotebookTidy.Proofs.Config.ExtendOutcome
import NotebookTidy.Proofs.Config.ExtendTarget
import NotebookTidy.Proofs.Config.Layers
import NotebookTidy.Proofs.Config.MoreOverrides
import NotebookTidy.Proofs.Config.Regrouping
import NotebookTidy.Proofs.Config.Containment
import NotebookTidy.Proofs.Config.Discovery
import NotebookTidy.Proofs.Json.Legible
import NotebookTidy.Proofs.Json.Position
import NotebookTidy.Proofs.Json.Written
import NotebookTidy.Proofs.Json.RoundTrip
import NotebookTidy.Proofs.Notebook.Cells
import NotebookTidy.Proofs.Notebook.Transform
import NotebookTidy.Proofs.Workspace.ImportSorting
import NotebookTidy.Proofs.Editor.Documents
import NotebookTidy.Proofs.Editor.Serving
import NotebookTidy.Proofs.Path.Spelling
import NotebookTidy.Proofs.Path.Rooted
import NotebookTidy.Proofs.Config.Alike
import NotebookTidy.Proofs.Storage.Placing
import NotebookTidy.Proofs.Workspace.Uniform
import NotebookTidy.Proofs.Workspace.Depth
import NotebookTidy.Proofs.Editor.Governing
import NotebookTidy.Proofs.Workspace.Sharing
import NotebookTidy.Proofs.Storage.Mirrored
import NotebookTidy.Proofs.Config.Backends
import NotebookTidy.Proofs.Decimal.Rounding
import NotebookTidy.Proofs.Decimal.Shortest
import NotebookTidy.Proofs.Json.Numbers
import NotebookTidy.Proofs.Json.Floats
import NotebookTidy.Proofs.Notebook.Reread
import NotebookTidy.Proofs.Editor.Notebooks
import NotebookTidy.Proofs.Storage.Rewriting
import NotebookTidy.Proofs.Batch.Tidying
import NotebookTidy.Proofs.Batch.Independence
import NotebookTidy.Proofs.Batch.Runs
import NotebookTidy.Proofs.Batch.FinalFeed
import NotebookTidy.Proofs.Toml.Quoting
import NotebookTidy.Proofs.Toml.StringForms
import NotebookTidy.Proofs.Toml.Scalars
import NotebookTidy.Proofs.Toml.Reread
import NotebookTidy.Proofs.Toml.Inline
import NotebookTidy.Proofs.Engine.Settings
import NotebookTidy.Proofs.Storage.History
import NotebookTidy.Proofs.Editor.CellOrder
import NotebookTidy.Proofs.Path.Order
import NotebookTidy.Proofs.Path.Absolute
import NotebookTidy.Proofs.Batch.Targets
import NotebookTidy.Proofs.Batch.Aliases
import NotebookTidy.Proofs.Text.Bytes
import NotebookTidy.Proofs.Source.Fields
import NotebookTidy.Proofs.Engine.Stripping
import NotebookTidy.Proofs.Engine.ImportBlock
import NotebookTidy.Proofs.Editor.Toggling
