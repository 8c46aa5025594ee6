import WordTex.TextCuts
import WordTex.WhiteSpace
import WordTex.DigitText
import WordTex.CharacterStyle
import WordTex.Substitution
import WordTex.CharacterTable
import WordTex.FillInBlank
import WordTex.QuotePairs
import WordTex.LatexText
import WordTex.StyledText
import WordTex.StyleNesting
import WordTex.Dictionary
import WordTex.DocumentTree
import WordTex.DocumentWalk
import WordTex.SiblingGroups
import WordTex.LatexDocument
import WordTex.DecimalRange
import WordTex.JsonValue
import WordTex.JsonText
import WordTex.DocumentJson
import WordTex.DocumentFromJson
import WordTex.XmlTree
import WordTex.XmlMarkup
import WordTex.XmlReading
import WordTex.NongraphicCharacters
import WordTex.QuotedText
import WordTex.Notices
import WordTex.SymbolFonts
import WordTex.FieldInstruction
import WordTex.OpenField
import WordTex.RunProperties
import WordTex.ParagraphItems
import WordTex.ReadErrors
import WordTex.PartReading
import WordTex.ParagraphReading
import WordTex.PackageParts
import WordTex.SideParts
import WordTex.DocumentReading
import WordTex.Bytes
import WordTex.Checksum
import WordTex.Deflate
import WordTex.ExtraFields
import WordTex.TextEncodings
import WordTex.Archive
import WordTex.WordPackage
import WordTex.Conversion
import WordTex.Proofs.TexLexemes
import WordTex.Proofs.EscapedText
import WordTex.Proofs.DocumentWalks
import WordTex.Proofs.LatexSafety
import WordTex.Proofs.OpenCommands
import WordTex.Proofs.StyleLevels
import WordTex.Proofs.SpanCuts
import WordTex.Proofs.EnclosingCommands
import WordTex.Proofs.PlacedTexts
import WordTex.Proofs.FieldEvents
import WordTex.Proofs.ParagraphEvents
import WordTex.Proofs.ParagraphText
import WordTex.Proofs.EventStyles
import WordTex.Proofs.CollectedNodes
import WordTex.Proofs.FieldNodes
import WordTex.Proofs.ParagraphFields
import WordTex.Proofs.BodyReading
import WordTex.Proofs.Dictionaries
import WordTex.Proofs.DocumentRuns
import WordTex.Proofs.DocumentSafety
import WordTex.Proofs.ReadingSuccess
import WordTex.Proofs.TextStyles
import WordTex.Proofs.DividedRuns
import WordTex.Proofs.SiblingJoins
import WordTex.Proofs.OmittedLabels
import WordTex.Proofs.IndependentParagraphs
import WordTex.Proofs.WrittenNodes
import WordTex.Proofs.MarkedLatex
import WordTex.Proofs.DanglingReferences
import WordTex.Proofs.CommandArguments
import WordTex.Proofs.WrittenArguments
import WordTex.Proofs.ReadLabels
import WordTex.Proofs.ReferenceTargets
import WordTex.Proofs.UniqueLabels
import WordTex.Proofs.MarkPaths
import WordTex.Proofs.ByteOrder
import WordTex.Proofs.InsertedParts
import WordTex.Proofs.ReadablePackages
import WordTex.Proofs.UnknownMarks
import WordTex.Proofs.CitedNotes
import WordTex.Proofs.DocumentRoundTrip
import WordTex.Proofs.KeptStacks
import WordTex.Proofs.DocumentShape
import WordTex.Proofs.BlankLines
import WordTex.Proofs.ArchivesInMemory
import WordTex.Proofs.IndependentSideParts
import WordTex.Proofs.ElementRoundTrip
import WordTex.Proofs.ControlWords
import WordTex.Proofs.SubstitutedTexts
import WordTex.Proofs.PairedQuotes
import WordTex.Proofs.QuotedSegments
import WordTex.Proofs.RunBoundaries
import WordTex.Proofs.ContinuedCommands
import WordTex.Proofs.NeutralizedSpecials
import WordTex.Proofs.ComposedLetters
import WordTex.Proofs.UnclosedFields
import WordTex.Proofs.PassedElements
import WordTex.Proofs.ParagraphNotices
import WordTex.Proofs.IndependentNotes
import WordTex.Proofs.InstructionWords
import WordTex.Proofs.CommandTrees
import WordTex.Proofs.OrderedPlaces
import WordTex.Proofs.DocumentOrder
import WordTex.Proofs.GrowingTrees
import WordTex.Proofs.MaximalRuns
import WordTex.Proofs.SymbolCodes
import WordTex.Proofs.ElementOrder
