import TruthTrees.Argument.Validity
import TruthTrees.Main
import TruthTrees.Text.Grammar
import TruthTrees.Text.Row
import TruthTrees.Text.Spelling
import TruthTrees.Tree.Built
import TruthTrees.Proofs.FreshTerms
import TruthTrees.Proofs.Substitution
import TruthTrees.Proofs.Links
import TruthTrees.Proofs.Paths
import TruthTrees.Proofs.Grafting
import TruthTrees.Proofs.Runs
import TruthTrees.Proofs.TermSupply
import TruthTrees.Proofs.Soundness
import TruthTrees.Proofs.Closure
import TruthTrees.Proofs.Decomposition
import TruthTrees.Proofs.Countermodels
import TruthTrees.Proofs.Vocabulary
import TruthTrees.Proofs.Witnesses
import TruthTrees.Proofs.Termination
import TruthTrees.Proofs.Conversion
import TruthTrees.Proofs.Placement
import TruthTrees.Proofs.Scanning
import TruthTrees.Proofs.Writing
import TruthTrees.Proofs.Building
import TruthTrees.Proofs.Choice
import TruthTrees.Proofs.Preferences
import TruthTrees.Proofs.Fixpoints
import TruthTrees.Proofs.Limits
import TruthTrees.Proofs.Rows
import TruthTrees.Proofs.Splitting
import TruthTrees.Proofs.Capitals
import TruthTrees.Proofs.Drawings
import TruthTrees.Proofs.Growth
import TruthTrees.Proofs.QuantifierRules
import TruthTrees.Proofs.Brackets
import TruthTrees.Proofs.Queries
import TruthTrees.Argument.RawLines
import TruthTrees.Proofs.FreeOccurrences
import TruthTrees.Proofs.Lines
import TruthTrees.Proofs.Entries
