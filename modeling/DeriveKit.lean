import DeriveKit.Text
import DeriveKit.Binary64
import DeriveKit.Path
import DeriveKit.Attribute
import DeriveKit.Datum
import DeriveKit.Literal
import DeriveKit.Declaration
import DeriveKit.Token
import DeriveKit.Reader
import DeriveKit.Metadata
import DeriveKit.Source
import DeriveKit.Config
import DeriveKit.Shape
import DeriveKit.Failure
import DeriveKit.Log
import DeriveKit.Lookup
import DeriveKit.Derive
import DeriveKit.Growth
import DeriveKit.Session.Basic
import DeriveKit.Session.Run
import DeriveKit.Proofs.Equality
import DeriveKit.Proofs.FirstList
import DeriveKit.Proofs.DeriveMerge
import DeriveKit.Proofs.FieldGrowth
import DeriveKit.Proofs.DeriveRuns
import DeriveKit.Proofs.Grammar
import DeriveKit.Proofs.ExactReaders
import DeriveKit.Proofs.Repetitions
import DeriveKit.Proofs.TypeReading
import DeriveKit.Proofs.AttributeReading
import DeriveKit.Proofs.SnippetReading
import DeriveKit.Proofs.Lexemes
import DeriveKit.Proofs.FirstError
import DeriveKit.Proofs.Coherence
import DeriveKit.Proofs.LiteralText
import DeriveKit.Proofs.Words
import DeriveKit.Proofs.EntryTrees
import DeriveKit.Proofs.AttributeRoundTrip
import DeriveKit.Proofs.Parameters
import DeriveKit.Proofs.VerbatimRoundTrip
import DeriveKit.Proofs.TypeRoundTrip
import DeriveKit.Proofs.Magnitude
import DeriveKit.Proofs.RealText
import DeriveKit.Proofs.ReadMetadata
import DeriveKit.Proofs.Rereading
import DeriveKit.Proofs.LookupLocality
import DeriveKit.Proofs.MergeLookups
import DeriveKit.Proofs.HandlerRuns
import DeriveKit.Proofs.Offences
import DeriveKit.Proofs.LeftmostOffence
import DeriveKit.Proofs.StringSpellings
import DeriveKit.Proofs.StringPieces
import DeriveKit.Proofs.WrittenTokens
import DeriveKit.Proofs.Places
import DeriveKit.Proofs.ClosedTexts
import DeriveKit.Proofs.LookupAgreement
import DeriveKit.Proofs.LookupRecords
import DeriveKit.Proofs.WrappedSnippets
import DeriveKit.Proofs.Joins
import DeriveKit.Proofs.WrittenPaths
import DeriveKit.Proofs.ConstructionForms
import DeriveKit.Proofs.Listings
import DeriveKit.Proofs.PathReaders
