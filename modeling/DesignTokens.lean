import DesignTokens.Main
import DesignTokens.Proofs.Token.Substitution
import DesignTokens.Proofs.Keyed
import DesignTokens.Proofs.Token.Resolution
import DesignTokens.Proofs.Token.Loading
import DesignTokens.Proofs.Workspace.PathNames
import DesignTokens.Proofs.Workspace.Tree
import DesignTokens.Proofs.Workspace.Route
import DesignTokens.Proofs.Workspace.Directories
import DesignTokens.Proofs.Layer.Outputs
import DesignTokens.Proofs.Layer.Determinism
import DesignTokens.Proofs.Workspace.Listing
import DesignTokens.Proofs.Workspace.JsonFiles
import DesignTokens.Proofs.Cache.Fingerprint
import DesignTokens.Proofs.Layer.Flavors
import DesignTokens.Proofs.Layer.Sources
import DesignTokens.Proofs.Build.Layout
import DesignTokens.Proofs.Build.Steps
import DesignTokens.Proofs.Build.Rebuild
import DesignTokens.Proofs.Build.Progress
import DesignTokens.Proofs.Build.History
import DesignTokens.Proofs.Build.Settings
import DesignTokens.Proofs.Build.Restricted
import DesignTokens.Proofs.Json.Characters
import DesignTokens.Proofs.Placeholder.Braces
import DesignTokens.Proofs.Placeholder.Scanning
import DesignTokens.Proofs.Placeholder.Replacement
import DesignTokens.Proofs.Token.SourceText
import DesignTokens.Proofs.Token.Linking
import DesignTokens.Proofs.Token.Expansion
import DesignTokens.Proofs.Token.Failures
import DesignTokens.Proofs.Token.Merging
import DesignTokens.Proofs.Token.Masking
import DesignTokens.Proofs.Token.Unrelated
import DesignTokens.Proofs.Workspace.Variation
import DesignTokens.Proofs.Layer.Masking
import DesignTokens.Proofs.Workspace.Operations
import DesignTokens.Proofs.Workspace.Rework
import DesignTokens.Proofs.Cache.Decision
import DesignTokens.Proofs.Layer.Operations
import DesignTokens.Proofs.Layer.Refill
import DesignTokens.Proofs.Layer.Furnish
import DesignTokens.Proofs.Build.Attempts
import DesignTokens.Proofs.Build.Steady
import DesignTokens.Proofs.Build.FixedPoint
import DesignTokens.Proofs.CommandLine.Status
import DesignTokens.Proofs.Project.Removal
import DesignTokens.Proofs.Json.Numbers
import DesignTokens.Proofs.Json.Readback
import DesignTokens.Proofs.Cache.Readback
import DesignTokens.Proofs.Cache.Persistence
import DesignTokens.Proofs.Project.Scaffold
import DesignTokens.Proofs.Workspace.Lockstep
import DesignTokens.Proofs.Workspace.Alike
import DesignTokens.Proofs.Workspace.Obstacles
import DesignTokens.Proofs.Layer.Traversal
import DesignTokens.Proofs.Layer.Confinement
import DesignTokens.Proofs.Layer.Mirror
import DesignTokens.Proofs.Build.Isolation
import DesignTokens.Proofs.Text.Shown
import DesignTokens.Proofs.Style.Mode
import DesignTokens.Proofs.Layer.Emission
import DesignTokens.Proofs.CommandLine.Listing
import DesignTokens.Proofs.Token.Tree
import DesignTokens.Proofs.Placeholder.Occurrences
import DesignTokens.Proofs.Cache.Reasons
import DesignTokens.Proofs.Layer.Additions
import DesignTokens.Proofs.Layer.Renewal
import DesignTokens.Proofs.Text.Bytes
import DesignTokens.Proofs.Text.Lines
import DesignTokens.Proofs.CustomProperty
import DesignTokens.Proofs.Token.Branches
import DesignTokens.Proofs.Token.Rearrangement
import DesignTokens.Proofs.Style.Grouping
import DesignTokens.Proofs.Style.Declarations
import DesignTokens.Proofs.Style.Switching
import DesignTokens.Proofs.TypedModule.Order
import DesignTokens.Proofs.TypedModule.Aliases
import DesignTokens.Proofs.TypedModule.Bindings
import DesignTokens.Proofs.Number.Rounding
import DesignTokens.Proofs.Number.Shortest
import DesignTokens.Proofs.Number.Numeral
import DesignTokens.Proofs.TypedModule.Readback
import DesignTokens.Proofs.Style.Precedence
import DesignTokens.Proofs.Style.Malformed
import DesignTokens.Proofs.Toml.Strings
import DesignTokens.Proofs.Toml.Documents
import DesignTokens.Proofs.Toml.Tables
import DesignTokens.Proofs.Project.Retry
import DesignTokens.Proofs.Project.Configuration
import DesignTokens.Proofs.Layer.Coverage
import DesignTokens.Proofs.Token.Literals
import DesignTokens.Proofs.Text.Blanks
import DesignTokens.Proofs.Text.Digits
import DesignTokens.Proofs.Token.Sequencing
import DesignTokens.Proofs.Token.Nesting
import DesignTokens.Proofs.Project.DefaultName
import DesignTokens.Proofs.Build.Sizes
import DesignTokens.Proofs.Build.Table
import DesignTokens.Proofs.Style.Properties
