import KarelKit.Main
import KarelKit.Proofs.Token.Numeral
import KarelKit.Proofs.Token.Spelling
import KarelKit.Proofs.Token.Cutting
import KarelKit.Proofs.Token.Layout
import KarelKit.Proofs.Token.Slicing
import KarelKit.Proofs.Token.Reading
import KarelKit.Proofs.Token.Tiling
import KarelKit.Proofs.Language.Basic
import KarelKit.Proofs.Language.Outline
import KarelKit.Proofs.Language.Repetition
import KarelKit.Proofs.Language.Solid
import KarelKit.Proofs.Rule.Follows
import KarelKit.Proofs.Rule.Repetition
import KarelKit.Proofs.Rule.Guidance
import KarelKit.Proofs.Rule.Whole
import KarelKit.Proofs.Grammar.Lexical
import KarelKit.Proofs.Grammar.Value
import KarelKit.Proofs.Grammar.NamedType
import KarelKit.Proofs.Grammar.DataType
import KarelKit.Proofs.Grammar.Declarations
import KarelKit.Proofs.Grammar.Derivation
import KarelKit.Proofs.Declaration.Settle
import KarelKit.Proofs.Grammar.Soundness
import KarelKit.Proofs.Grammar.Completeness
import KarelKit.Proofs.Grammar.Parsing
import KarelKit.Proofs.Declaration.WellFormed
import KarelKit.Proofs.Declaration.Tokens
import KarelKit.Proofs.Declaration.Printing
import KarelKit.Proofs.Grammar.Placement
import KarelKit.Proofs.Grammar.ViablePrefix
import KarelKit.Proofs.Grammar.RoundTrip
import KarelKit.Proofs.Grammar.Interruption
import KarelKit.Proofs.Grammar.Canonical
import KarelKit.Proofs.Grammar.Weaving
import KarelKit.Proofs.Grammar.Comments
import KarelKit.Proofs.Grammar.Parts
import KarelKit.Proofs.Pendant.Hover
import KarelKit.Proofs.Json.Equality
import KarelKit.Proofs.Json.Fields
import KarelKit.Proofs.Declaration.Encoding
import KarelKit.Proofs.Pendant.RoundTrip
import KarelKit.Proofs.Pendant.Schema
import KarelKit.Proofs.Pendant.Agreement
import KarelKit.Proofs.Pendant.Decoding
import KarelKit.Proofs.Grammar.Expectations
import KarelKit.Proofs.Grammar.Nesting
import KarelKit.Proofs.Token.MaximalMunch
import KarelKit.Proofs.Token.Scanning
import KarelKit.Proofs.Json.Scalars
import KarelKit.Proofs.Json.Reading
import KarelKit.Proofs.Json.Printing
import KarelKit.Proofs.Command.Modes
import KarelKit.Proofs.Declaration.Matching
import KarelKit.Proofs.Rule.Matching
import KarelKit.Proofs.Grammar.Matching
import KarelKit.Proofs.Token.Blanks
import KarelKit.Proofs.Token.LineEndings
import KarelKit.Proofs.Token.Relayout
import KarelKit.Proofs.Grammar.Relayout
import KarelKit.Proofs.Token.Recasing
import KarelKit.Proofs.Grammar.Names
import KarelKit.Proofs.Grammar.Recasing
import KarelKit.Proofs.Grammar.Joining
import KarelKit.Proofs.Source.EditorPosition
import KarelKit.Proofs.Grammar.Legibility
import KarelKit.Proofs.Walk.Basic
import KarelKit.Proofs.Walk.Grammar
import KarelKit.Proofs.Walk.Log
import KarelKit.Proofs.Walk.Outcome
import KarelKit.Proofs.Rule.Attempt
import KarelKit.Proofs.Walk.Performs
import KarelKit.Proofs.Walk.Repetition
import KarelKit.Proofs.Walk.DataType
import KarelKit.Proofs.Walk.Declarations
import KarelKit.Proofs.Walk.Entries
