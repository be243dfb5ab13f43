import ColumnAudit.Audit.Comparison
import ColumnAudit.Audit.Run
import ColumnAudit.CommandLine.Arguments
import ColumnAudit.Config.Decoding
import ColumnAudit.Config.Field
import ColumnAudit.Config.Loading
import ColumnAudit.Files.Access
import ColumnAudit.Program
import ColumnAudit.Schema.Catalog
import ColumnAudit.Source.SourceFile
import ColumnAudit.Yaml.Grammar
import ColumnAudit.Yaml.Outline
import ColumnAudit.Main
import ColumnAudit.Proofs.Audit.Totals
import ColumnAudit.Proofs.Text.Scan
import ColumnAudit.Proofs.Number.Binary64
import ColumnAudit.Proofs.Text.Blank
import ColumnAudit.Proofs.Text.Word
import ColumnAudit.Proofs.Audit.Run
import ColumnAudit.Proofs.Source.QueryPatterns
import ColumnAudit.Proofs.Audit.Agreement
import ColumnAudit.Proofs.Program
import ColumnAudit.Proofs.Source.QueryCall
import ColumnAudit.Proofs.Schema.Declaration
import ColumnAudit.Proofs.Audit.Independence
import ColumnAudit.Proofs.Source.LongerText
import ColumnAudit.Proofs.Audit.Growth
import ColumnAudit.Proofs.Files.Members
import ColumnAudit.Proofs.Audit.Folder
import ColumnAudit.Proofs.Outcome
import ColumnAudit.Proofs.Schema.Comment
import ColumnAudit.Proofs.Schema.CommentedBody
import ColumnAudit.Proofs.Schema.CommentedSchema
import ColumnAudit.Proofs.Schema.ConstraintClause
import ColumnAudit.Proofs.Source.QuotedArgument
import ColumnAudit.Proofs.Files.Writing
import ColumnAudit.Proofs.Invocation
import ColumnAudit.Proofs.Yaml.Spot
import ColumnAudit.Proofs.Yaml.PlainScalar
import ColumnAudit.Proofs.Yaml.QuotedScalar
import ColumnAudit.Proofs.Yaml.LiteralBlock
import ColumnAudit.Proofs.Yaml.TokenState
import ColumnAudit.Proofs.Yaml.Point
import ColumnAudit.Proofs.Yaml.ScalarToken
import ColumnAudit.Proofs.Yaml.KeyToken
import ColumnAudit.Proofs.Yaml.OutlineTokens
import ColumnAudit.Proofs.Yaml.OutlineNodes
import ColumnAudit.Proofs.Config.PlainText
import ColumnAudit.Proofs.Config.RoundTrip
import ColumnAudit.Proofs.Schema.Layout
import ColumnAudit.Proofs.Source.KeyLines
import ColumnAudit.Proofs.Source.CallsAgree
import ColumnAudit.Proofs.Source.PayloadKeys
import ColumnAudit.Proofs.Source.PredicateCalls
import ColumnAudit.Proofs.Schema.Migration
import ColumnAudit.Proofs.Audit.EntrySets
import ColumnAudit.Proofs.Audit.GrowingSchema
import ColumnAudit.Proofs.Number.Nearest
import ColumnAudit.Proofs.Number.Significand
import ColumnAudit.Proofs.Number.ReadBack
import ColumnAudit.Proofs.Number.Numeral
import ColumnAudit.Proofs.Json.Reader
import ColumnAudit.Proofs.Json.RoundTrip
import ColumnAudit.Proofs.Audit.Percentage
import ColumnAudit.Proofs.Audit.Discovery
import ColumnAudit.Proofs.Audit.Hundredths
import ColumnAudit.Proofs.Audit.Document
import ColumnAudit.Proofs.Table
import ColumnAudit.Proofs.Config.Roots
import ColumnAudit.Proofs.Schema.PrefixCounts
import ColumnAudit.Proofs.Text.Pattern
import ColumnAudit.Proofs.Source.SnakeNames
import ColumnAudit.Schema.OffsetReading
import ColumnAudit.Proofs.Schema.OffsetReading
