import GrammarShapes.Cursor.Outline
import GrammarShapes.Cursor.Table
import GrammarShapes.Grammar.Loading
import GrammarShapes.Grammar.Sample
import GrammarShapes.Grammar.Writing
import GrammarShapes.Proofs.Expansion.Collected
import GrammarShapes.Schema.Document
import GrammarShapes.Settings.Loader
import GrammarShapes.Source.Document
import GrammarShapes.Source.Lines
import GrammarShapes.Tree.Cursor
import GrammarShapes.Tree.Arena
import GrammarShapes.Tree.Parenthesized
import GrammarShapes.Proofs.Expansion.Reach
import GrammarShapes.Proofs.Expansion.Plain
import GrammarShapes.Proofs.Expansion.Levels
import GrammarShapes.Proofs.Expansion.Resolved
import GrammarShapes.Proofs.Expansion.Settled
import GrammarShapes.Proofs.Expansion.Union
import GrammarShapes.Proofs.Expansion.Untangled
import GrammarShapes.Proofs.Tree.VerifiedWalk
import GrammarShapes.Proofs.Tree.Parenthesized
import GrammarShapes.Proofs.Schema.Queries
import GrammarShapes.Proofs.Schema.Resolution
import GrammarShapes.Proofs.Grammar.Reload
import GrammarShapes.Proofs.Expansion.Records
import GrammarShapes.Proofs.Expansion.CutCycles
import GrammarShapes.Proofs.Schema.Opacity
import GrammarShapes.Proofs.Grammar.Loaders
import GrammarShapes.Proofs.Grammar.WireFormat
import GrammarShapes.Proofs.Expansion.Limit
import GrammarShapes.Proofs.Expansion.Grouping
import GrammarShapes.Proofs.Schema.Extras
import GrammarShapes.Proofs.Schema.RoundTrip
import GrammarShapes.Proofs.Cursor.Discipline
import GrammarShapes.Proofs.Tree.Tour
import GrammarShapes.Proofs.Tree.Visits
import GrammarShapes.Proofs.Tree.Outlines
import GrammarShapes.Proofs.Source.Ranges
import GrammarShapes.Proofs.Source.Lines
import GrammarShapes.Proofs.Settings.Loading
import GrammarShapes.Proofs.Tree.ArenaCursor
