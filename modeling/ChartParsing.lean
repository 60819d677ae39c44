import ChartParsing.Grammar.Draft
import ChartParsing.Grammar.Derivation
import ChartParsing.Tree.Outline
import ChartParsing.Forest.Census
import ChartParsing.Forest.Equality
import ChartParsing.Forest.Listing
import ChartParsing.PostOrder
import ChartParsing.Parser
import ChartParsing.Splice.Basic
import ChartParsing.Proofs.Chart.Rows
import ChartParsing.Proofs.Chart.RuleScans
import ChartParsing.Proofs.Grammar.RuleLookup
import ChartParsing.Proofs.Chart.Entries
import ChartParsing.Proofs.Grammar.Splitting
import ChartParsing.Proofs.Grammar.Drafts
import ChartParsing.Proofs.Grammar.Interleavings
import ChartParsing.Proofs.Chart.Membership
import ChartParsing.Proofs.Forest.Unfolding
import ChartParsing.Proofs.Forest.Censuses
import ChartParsing.Proofs.Forest.Ambiguity
import ChartParsing.Proofs.Forest.Bounds
import ChartParsing.Proofs.Forest.Extrema
import ChartParsing.Proofs.Forest.Heights
import ChartParsing.Proofs.Forest.Permutations
import ChartParsing.Proofs.Forest.Ways
import ChartParsing.Proofs.Forest.Resharing
import ChartParsing.Proofs.Forest.Selections
import ChartParsing.Proofs.Chart.Building
import ChartParsing.Proofs.Chart.Joints
import ChartParsing.Proofs.Chart.Demands
import ChartParsing.Proofs.Chart.Derivations
import ChartParsing.Proofs.Chart.Flags
import ChartParsing.Proofs.Chart.InPlace
import ChartParsing.Proofs.Chart.InBounds
import ChartParsing.Proofs.Chart.Numbering
import ChartParsing.Proofs.Chart.Occurrences
import ChartParsing.Proofs.Chart.Shapes
import ChartParsing.Proofs.Chart.Sharing
import ChartParsing.Proofs.Chart.Windows
import ChartParsing.Proofs.Distinct
import ChartParsing.Proofs.PostOrder
import ChartParsing.Proofs.ValuesInOrder
import ChartParsing.Proofs.Related
import ChartParsing.Proofs.Splice.Censuses
import ChartParsing.Proofs.Splice.Replacements
import ChartParsing.Proofs.Splice.Memory
import ChartParsing.Proofs.Splice.Running
import ChartParsing.Proofs.Splice.Labels
import ChartParsing.Proofs.Splice.Conflicts
import ChartParsing.Proofs.Splice.Lookup
import ChartParsing.Proofs.Splice.Tables
import ChartParsing.Proofs.Splice.Faults
import ChartParsing.Proofs.Splice.Forests
import ChartParsing.Proofs.Splice.Defined
import ChartParsing.Proofs.Splice.Sharing
import ChartParsing.Proofs.Splice.Plain
import ChartParsing.Proofs.Splice.Trees
import ChartParsing.Proofs.Splice.Yield
import ChartParsing.Proofs.Splice.Consistency
import ChartParsing.Proofs.Splice.Parses
import ChartParsing.Proofs.Grammar.Reordering
import ChartParsing.Proofs.Splice.Reordering
import ChartParsing.Proofs.Text.Literals
import ChartParsing.Proofs.Tree.Places
import ChartParsing.Proofs.Tree.Outlines
import ChartParsing.Proofs.Tree.Lines
import ChartParsing.Proofs.Tree.Leaves
