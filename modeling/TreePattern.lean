import TreePattern.Json.Options
import TreePattern.Json.Pattern
import TreePattern.Json.Table
import TreePattern.Json.Tree
import TreePattern.Plan.Compile
import TreePattern.Plan.Walk
import TreePattern.Tree.Build
import TreePattern.Proofs.Emission
import TreePattern.Proofs.Reach
import TreePattern.Proofs.Meaning
import TreePattern.Proofs.Entry
import TreePattern.Proofs.Resumption
import TreePattern.Proofs.Refusal
import TreePattern.Proofs.Visit
import TreePattern.Proofs.Pairing
import TreePattern.Proofs.Trace
import TreePattern.Proofs.Listening
import TreePattern.Proofs.Navigation
import TreePattern.Proofs.Genuine
import TreePattern.Proofs.RangeText
import TreePattern.Proofs.ReadBack
import TreePattern.Proofs.Extraction
import TreePattern.Proofs.Seeds
import TreePattern.Proofs.Loosening
import TreePattern.Proofs.Canonical
import TreePattern.Proofs.Faults
import TreePattern.Proofs.Growth
import TreePattern.Proofs.Lexical
import TreePattern.Proofs.WordGrammar
import TreePattern.Proofs.ChildGrammar
import TreePattern.Proofs.Keys
import TreePattern.Proofs.Renumbering
