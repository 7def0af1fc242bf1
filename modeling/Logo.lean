import Logo.Host.Sample
import Logo.Main
import Logo.Value.Builder
import Logo.Proofs.Locality
import Logo.Proofs.Paths
import Logo.Proofs.Reading
import Logo.Proofs.Precedence
import Logo.Proofs.Break
import Logo.Proofs.Pausing
import Logo.Proofs.Returning
import Logo.Proofs.HostAssignment
import Logo.Proofs.Items
import Logo.Proofs.Lines
import Logo.Proofs.Undisturbed
import Logo.Proofs.Joining
import Logo.Proofs.Shortest
import Logo.Proofs.PlainSources
import Logo.Proofs.Bench
import Logo.Proofs.Discipline
import Logo.Proofs.Scoping
import Logo.Proofs.Callee
import Logo.Proofs.Parentheses
import Logo.Proofs.Depth
import Logo.Proofs.Refusals
import Logo.Proofs.Calls
import Logo.Proofs.Inputs
import Logo.Proofs.Sinks
import Logo.Proofs.Comments
import Logo.Proofs.Positions
import Logo.Proofs.Grouping
import Logo.Proofs.Unread
import Logo.Proofs.Blame
import Logo.Proofs.Definitions
import Logo.Proofs.Literals
import Logo.Proofs.Cells
import Logo.Proofs.Equality
import Logo.Proofs.SharedLists
import Logo.Proofs.Floats
import Logo.Proofs.Selectors
import Logo.Proofs.Strides
import Logo.Proofs.Passes
