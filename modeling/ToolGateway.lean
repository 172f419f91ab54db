import ToolGateway.Main
import ToolGateway.Proofs.Reference.Memory
import ToolGateway.Proofs.Reference.Replacement
import ToolGateway.Proofs.Reload.Serving
import ToolGateway.Proofs.Reload.Compiled
import ToolGateway.Proofs.Schema.Supply
import ToolGateway.Proofs.Scope.Discovery
import ToolGateway.Proofs.Tool.Names
import ToolGateway.Proofs.Operation.Composition
import ToolGateway.Proofs.Operation.Layout
import ToolGateway.Proofs.Registry
import ToolGateway.Proofs.Reload.Exclusion
import ToolGateway.Proofs.Request.Target
import ToolGateway.Proofs.Tool.Chain
import ToolGateway.Proofs.Redaction
import ToolGateway.Proofs.Reload.Listing
import ToolGateway.Proofs.Tool.Ordered
import ToolGateway.Proofs.Tool.Schemas
import ToolGateway.Proofs.Reload.Changes
import ToolGateway.Proofs.Tool.Compilation
import ToolGateway.Proofs.Schema.Lookup
import ToolGateway.Proofs.Schema.Barren
import ToolGateway.Proofs.Schema.Frame
import ToolGateway.Proofs.Schema.Patterns
import ToolGateway.Proofs.Operation.Naming
import ToolGateway.Proofs.Operation.Parameters
import ToolGateway.Proofs.Request.Query
import ToolGateway.Proofs.Request.Cookies
import ToolGateway.Proofs.Exchange.Headers
import ToolGateway.Proofs.Request.Lists
import ToolGateway.Proofs.Exchange.Correction
import ToolGateway.Proofs.Tool.Handling
import ToolGateway.Proofs.Scope.Approximation
import ToolGateway.Proofs.Reference.Collisions
import ToolGateway.Proofs.Reference.Faults
import ToolGateway.Proofs.Reference.Fragments
import ToolGateway.Proofs.Reference.Preloading
import ToolGateway.Proofs.Reload.Versions
import ToolGateway.Proofs.Exchange.Limits
import ToolGateway.Proofs.Templates
import ToolGateway.Proofs.Times
