import BindingIdl.Main
import BindingIdl.Proofs.Text.Stretch
import BindingIdl.Proofs.Token.Words
import BindingIdl.Proofs.Token.Spelling
import BindingIdl.Proofs.Token.Gaps
import BindingIdl.Proofs.Token.Accounting
import BindingIdl.Proofs.Token.Formatting
import BindingIdl.Proofs.Token.Places
import BindingIdl.Proofs.Token.Joining
import BindingIdl.Proofs.Token.Excerpt
import BindingIdl.Proofs.Declaration.Shift
import BindingIdl.Proofs.Declaration.Renaming
import BindingIdl.Proofs.Grammar.Derivation
import BindingIdl.Proofs.Grammar.Reading
import BindingIdl.Proofs.Grammar.Soundness
import BindingIdl.Proofs.Grammar.Completeness
import BindingIdl.Proofs.Grammar.Trees
import BindingIdl.Proofs.Grammar.Spans
import BindingIdl.Proofs.Grammar.Numbering
import BindingIdl.Proofs.Grammar.Reports
import BindingIdl.Proofs.Grammar.Parallel
import BindingIdl.Proofs.Grammar.Progress
import BindingIdl.Proofs.Grammar.FileEnd
import BindingIdl.Proofs.Grammar.Joining
import BindingIdl.Proofs.Grammar.Relaxed
import BindingIdl.Proofs.Grammar.Violations
import BindingIdl.Proofs.Grammar.Termination
import BindingIdl.Proofs.Grammar.ErrorCount
import BindingIdl.Proofs.Grammar.Confinement
import BindingIdl.Proofs.Grammar.Segments
import BindingIdl.Proofs.Grammar.Unclosed
import BindingIdl.Proofs.Grammar.Nesting
import BindingIdl.Proofs.Grammar.Excerpt
import BindingIdl.Proofs.Symbol.Names
import BindingIdl.Proofs.Symbol.Collection
import BindingIdl.Proofs.Symbol.Indexes
import BindingIdl.Proofs.Symbol.History
import BindingIdl.Proofs.Symbol.Scoping
import BindingIdl.Proofs.Symbol.Resolution
import BindingIdl.Proofs.Module.Lowering
import BindingIdl.Proofs.Module.References
import BindingIdl.Proofs.Module.Canonical
import BindingIdl.Proofs.Module.Placement
import BindingIdl.Proofs.Module.Fidelity
import BindingIdl.Proofs.Module.Survivors
import BindingIdl.Proofs.Module.Legality
import BindingIdl.Proofs.Module.Handover
import BindingIdl.Proofs.Module.Qualification
import BindingIdl.Proofs.Module.Rearrangement
import BindingIdl.Proofs.Module.RootStub
import BindingIdl.Proofs.Module.Coherence
import BindingIdl.Proofs.Module.Walk
import BindingIdl.Proofs.Settings.Strictness
import BindingIdl.Proofs.Diagnostic.Location
import BindingIdl.Proofs.Compilation.Stages
import BindingIdl.Proofs.Diagnostic.Advice
import BindingIdl.Proofs.Printing.Pieces
import BindingIdl.Proofs.Printing.Layout
import BindingIdl.Proofs.Printing.Derivation
import BindingIdl.Proofs.Printing.RoundTrip
import BindingIdl.Proofs.Dependency.Mentions
import BindingIdl.Proofs.Dependency.Components
import BindingIdl.Proofs.Dependency.BuildOrder
import BindingIdl.Proofs.Dependency.Neighbours
