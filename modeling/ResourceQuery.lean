import ResourceQuery.Main
import ResourceQuery.Pattern.Matching
import ResourceQuery.Proofs.Number.ReadBack
import ResourceQuery.Proofs.Converter.ReadBack
import ResourceQuery.Proofs.Term.Basic
import ResourceQuery.Proofs.Parser.Shape
import ResourceQuery.Proofs.Parser.Reading
import ResourceQuery.Proofs.Shorthand.Expansion
import ResourceQuery.Proofs.CanonicalText.RoundTrip
import ResourceQuery.Proofs.Filter.Meaning
import ResourceQuery.Proofs.Filter.Confinement
import ResourceQuery.Proofs.Filter.ProgramText
import ResourceQuery.Proofs.Filter.Pruning
import ResourceQuery.Proofs.Parser.Grammar
import ResourceQuery.Proofs.Parser.Conservation
import ResourceQuery.Proofs.Shorthand.Context
import ResourceQuery.Proofs.Shorthand.Spelling
import ResourceQuery.Proofs.Parser.Clauses
import ResourceQuery.Proofs.Shorthand.EncodedSign
import ResourceQuery.Proofs.CanonicalText.Legible
import ResourceQuery.Proofs.CanonicalText.Inert
import ResourceQuery.Proofs.Entries
import ResourceQuery.Proofs.Query.Clauses
import ResourceQuery.Proofs.Query.Outline
import ResourceQuery.Proofs.Query.RoundTrip
import ResourceQuery.Proofs.Query.FixedPoint
import ResourceQuery.Proofs.Filter.Negation
import ResourceQuery.Proofs.Query.Session
import ResourceQuery.Proofs.Shorthand.Nesting
import ResourceQuery.Proofs.Parser.Conjunction
import ResourceQuery.Proofs.CanonicalText.TwiceEncoded
import ResourceQuery.Proofs.Filter.WellFormed
import ResourceQuery.Proofs.Query.SortClause
import ResourceQuery.Proofs.Parser.Culprit
import ResourceQuery.Proofs.Time.Calendar
import ResourceQuery.Proofs.Time.IsoDate
import ResourceQuery.Proofs.Converter.Dates
import ResourceQuery.Proofs.Converter.Numerals
import ResourceQuery.Proofs.Pattern.Glob
import ResourceQuery.Proofs.Token.Lossless
import ResourceQuery.Proofs.Shorthand.SlashedRuns
import ResourceQuery.Proofs.Shorthand.OperatorSigns
import ResourceQuery.Proofs.Json.View
import ResourceQuery.Proofs.CanonicalText.SingleWord
