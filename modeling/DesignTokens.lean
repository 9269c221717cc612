import DesignTokens.Options.FromYaml
import DesignTokens.Project
import DesignTokens.Proofs.Script.Balance
import DesignTokens.Proofs.Script.NestReading
import DesignTokens.Proofs.Script.ParserNests
import DesignTokens.Proofs.Script.Depth
import DesignTokens.Proofs.Script.ObjectGrammar
import DesignTokens.Proofs.Script.OutermostLiterals
import DesignTokens.Proofs.Overlay
import DesignTokens.Proofs.Script.Joining
import DesignTokens.Proofs.Extraction.Concatenation
import DesignTokens.Proofs.TokenTree
import DesignTokens.Proofs.Theme
import DesignTokens.Proofs.Script.QuotedText
import DesignTokens.Proofs.Script.Spelling
import DesignTokens.Proofs.Script.TreeLiteral
import DesignTokens.Proofs.Extraction.ThemeText
import DesignTokens.Proofs.Extraction.Ancestry
import DesignTokens.Proofs.Markup.Interpolation
import DesignTokens.Proofs.Markup.Values
import DesignTokens.Proofs.Markup.Segments
import DesignTokens.Proofs.Markup.Modes
import DesignTokens.Proofs.Validation.Repetition
import DesignTokens.Proofs.Validation.Suggestions
import DesignTokens.Proofs.Validation.Acceptance
import DesignTokens.Proofs.Markup.Words
import DesignTokens.Proofs.Resolution
import DesignTokens.Proofs.Validation.Extension
import DesignTokens.Proofs.Script.Attempts
import DesignTokens.Proofs.Script.TreePaths
import DesignTokens.Proofs.Script.NestingLimit
import DesignTokens.Proofs.Script.NestedLiterals
import DesignTokens.Proofs.Script.Delimiters
import DesignTokens.Proofs.Script.Tiling
import DesignTokens.Proofs.Text
import DesignTokens.IndexedMap
import DesignTokens.Proofs.IndexedMap
import DesignTokens.Proofs.Script.Trivia
import DesignTokens.Proofs.EditDistance
import DesignTokens.Proofs.TokenData
import DesignTokens.Proofs.Markup.Placement
import DesignTokens.Proofs.Validation.Reports
import DesignTokens.Proofs.Validation.Rewriting
import DesignTokens.Proofs.Flattening
import DesignTokens.Proofs.Markup.Rescanning
import DesignTokens.Proofs.Validation.Offsets
import DesignTokens.Proofs.Script.ExpressionRuns
import DesignTokens.Proofs.Script.Spans
import DesignTokens.Proofs.Extraction.DepthLimit
import DesignTokens.Proofs.Extraction.Labels
import DesignTokens.Proofs.Markup.PlainValues
import DesignTokens.Proofs.Validation.ClassLists
import DesignTokens.Proofs.Utility.LongestMatch
import DesignTokens.Proofs.Validation.VariantChains
import DesignTokens.Proofs.Validation.Partition
import DesignTokens.Proofs.Ranking
import DesignTokens.Proofs.Script.RegularExpressions
import DesignTokens.Proofs.Extraction.LineEnds
import DesignTokens.Proofs.Script.IntegerSpellings
import DesignTokens.Proofs.Script.CursorReading
import DesignTokens.Proofs.Script.Termination
import DesignTokens.Proofs.Script.OffsetTokens
