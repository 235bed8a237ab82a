import EvmAssembly.SourceText
import EvmAssembly.ParseError
import EvmAssembly.OperationTable
import EvmAssembly.NumericLiteral
import EvmAssembly.KeccakHash
import EvmAssembly.Statement
import EvmAssembly.LexicalFault
import EvmAssembly.SignatureScan
import EvmAssembly.WordScan
import EvmAssembly.StatementScan
import EvmAssembly.SourceScan
import EvmAssembly.ParseTree
import EvmAssembly.ProgramNode
import EvmAssembly.ProgramParse
import EvmAssembly.ProgramSession
import EvmAssembly.CommandLine
import EvmAssembly.Main
import EvmAssembly.Proofs.CharacterRuns
import EvmAssembly.Proofs.SignatureGrammar
import EvmAssembly.Proofs.WordGrammar
import EvmAssembly.Proofs.MnemonicLookup
import EvmAssembly.Proofs.StatementGrammar
import EvmAssembly.Proofs.SourceGrammar
import EvmAssembly.Proofs.LineGrammar
import EvmAssembly.Proofs.LineDerivation
import EvmAssembly.Proofs.HexadecimalText
import EvmAssembly.Proofs.ListingRoundTrip
import EvmAssembly.Proofs.PlaceValue
import EvmAssembly.Proofs.LiteralValue
import EvmAssembly.Proofs.CheckedBuild
import EvmAssembly.Proofs.ErrorPlaces
import EvmAssembly.Proofs.PushLiteral
import EvmAssembly.Proofs.WordStops
import EvmAssembly.Proofs.StatementStops
import EvmAssembly.Proofs.SourcePlaces
import EvmAssembly.Proofs.SourceStops
import EvmAssembly.Proofs.Displacement
import EvmAssembly.Proofs.LineComposition
import EvmAssembly.Proofs.LayoutForms
import EvmAssembly.Proofs.TreeTiling
import EvmAssembly.Proofs.LayoutIndependence
import EvmAssembly.Proofs.StatementNodes
import EvmAssembly.Proofs.TracedRuns
import EvmAssembly.Proofs.QuotedBytes
import EvmAssembly.Proofs.SessionRuns
import EvmAssembly.Proofs.ReportedErrors
import EvmAssembly.Proofs.CommandLineRuns
import EvmAssembly.Proofs.ColourRemoval
import EvmAssembly.Proofs.ShownBoxes
import EvmAssembly.Proofs.OutputLines
import EvmAssembly.Proofs.CommandLineOutcome
import EvmAssembly.Proofs.SelectorPush
import EvmAssembly.Proofs.RadixReading
import EvmAssembly.Proofs.SpongeInPlace
import EvmAssembly.Proofs.SpongePadding
import EvmAssembly.Proofs.BlockInjectivity
import EvmAssembly.Proofs.SelectorExtent
import EvmAssembly.Proofs.ArgumentPositions
import EvmAssembly.Proofs.HexadecimalDecoders
import EvmAssembly.Proofs.ListingOffsets
import EvmAssembly.Proofs.PathNames
import EvmAssembly.Proofs.ProgramEquality
import EvmAssembly.Proofs.PinnedErrors
import EvmAssembly.Proofs.EncodingLookup
import EvmAssembly.Proofs.LetterCase
import EvmAssembly.Proofs.CursorScan
import EvmAssembly.Proofs.CursorSteps
import EvmAssembly.Proofs.SignatureDescent
import EvmAssembly.Proofs.CursorWords
import EvmAssembly.Proofs.CursorStatements
import EvmAssembly.Proofs.CursorRuns
