import ApplianceConfig.Document.Equality
import ApplianceConfig.Main
import ApplianceConfig.Proofs.Grammar.Productions
import ApplianceConfig.Proofs.Grammar.Reading
import ApplianceConfig.Proofs.Grammar.Recognition
import ApplianceConfig.Proofs.Document.Writable
import ApplianceConfig.Proofs.Document.Lines
import ApplianceConfig.Proofs.Document.Written
import ApplianceConfig.Proofs.Document.RoundTrip
import ApplianceConfig.Proofs.Tree.Growth
import ApplianceConfig.Proofs.Compile.Refinement
import ApplianceConfig.Proofs.Compile.Result
import ApplianceConfig.Proofs.Compile.Session
import ApplianceConfig.Proofs.Template.Document
import ApplianceConfig.Proofs.Compile.Failure
import ApplianceConfig.Proofs.Compile.Safety
import ApplianceConfig.Proofs.Tree.Arena
import ApplianceConfig.Proofs.Tree.Reachable
import ApplianceConfig.Proofs.Tree.Traversal
import ApplianceConfig.Proofs.Render.Decomposition
import ApplianceConfig.Proofs.Compile.Answers
import ApplianceConfig.Proofs.Compile.Objects
import ApplianceConfig.Proofs.Tree.Paths
import ApplianceConfig.Proofs.Render.References
import ApplianceConfig.Proofs.Compile.Questions
import ApplianceConfig.Proofs.Document.Readable
import ApplianceConfig.Proofs.Grammar.Words
import ApplianceConfig.Proofs.Document.Spelled
import ApplianceConfig.Proofs.Compile.Spelling
import ApplianceConfig.Proofs.Render.Grammatical
import ApplianceConfig.Proofs.Compile.Faults
import ApplianceConfig.Proofs.Render.Progress
import ApplianceConfig.Proofs.Compile.Release
import ApplianceConfig.Proofs.Topology.Building
import ApplianceConfig.Proofs.Topology.Outcome
import ApplianceConfig.Proofs.Compile.Renumbering
import ApplianceConfig.Proofs.Topology.Exchange
import ApplianceConfig.Proofs.Grammar.Stopping
import ApplianceConfig.Proofs.Grammar.Image
import ApplianceConfig.Proofs.Render.Repetition
import ApplianceConfig.Proofs.Topology.Entries
import ApplianceConfig.Proofs.Grammar.Expectation
import ApplianceConfig.Proofs.Grammar.Layout
import ApplianceConfig.Proofs.Document.Merging
import ApplianceConfig.Proofs.Document.Concatenation
import ApplianceConfig.Proofs.Grammar.Tails
import ApplianceConfig.Proofs.Document.Nesting
import ApplianceConfig.Proofs.Grammar.Tiling
import ApplianceConfig.Proofs.Grammar.Quoting
import ApplianceConfig.Proofs.Tree.Order
import ApplianceConfig.Proofs.Tree.Keys
import ApplianceConfig.Proofs.Tree.Shared
import ApplianceConfig.Proofs.Tree.Atomic
import ApplianceConfig.Proofs.Compile.Counters
import ApplianceConfig.Proofs.Render.Requests
import ApplianceConfig.Proofs.Tree.Prefixes
import ApplianceConfig.Proofs.Topology.Folders
import ApplianceConfig.Proofs.Topology.Placement
import ApplianceConfig.Proofs.Compile.Members
import ApplianceConfig.Proofs.Compile.Services
import ApplianceConfig.Proofs.Compile.Availability
import ApplianceConfig.Proofs.Compile.RuleLists
import ApplianceConfig.Proofs.Document.Strings
import ApplianceConfig.Proofs.Compile.RuleGate
import ApplianceConfig.Proofs.Compile.Placeholders
import ApplianceConfig.Proofs.Version.Reading
import ApplianceConfig.Proofs.Password
import ApplianceConfig.Proofs.Template.Transparency
import ApplianceConfig.Proofs.Document.Absorption
import ApplianceConfig.Proofs.Document.Editing
import ApplianceConfig.Proofs.Document.NormalForms
import ApplianceConfig.Proofs.Grammar.Refinement
