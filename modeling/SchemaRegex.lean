import SchemaRegex.Main
import SchemaRegex.Proofs.CodepointSet.Expression
import SchemaRegex.Proofs.Machine.Reuse
import SchemaRegex.Proofs.Machine.Stack
import SchemaRegex.Proofs.Matching.Ends
import SchemaRegex.Proofs.Pattern.ClassSyntax
import SchemaRegex.Proofs.Unicode.RoundTrip
import SchemaRegex.Proofs.Unicode.BlockLines
import SchemaRegex.Proofs.Unicode.BlockSets
import SchemaRegex.Proofs.Unicode.Decoding
import SchemaRegex.Proofs.Pattern.Breaking
import SchemaRegex.Proofs.Pattern.Violations
import SchemaRegex.Proofs.Pattern.Offences
import SchemaRegex.Proofs.Pattern.ErrorPlaces
import SchemaRegex.Proofs.Pattern.NestingLimit
import SchemaRegex.Proofs.Pattern.PatternSyntax
import SchemaRegex.Proofs.Pattern.CommonPatterns
import SchemaRegex.Proofs.Program.Size
import SchemaRegex.Proofs.CodepointSet.Sweep
import SchemaRegex.Proofs.CodepointSet.Merging
import SchemaRegex.Proofs.Matching.Utf16
import SchemaRegex.Proofs.Matching.Quoting
import SchemaRegex.Proofs.Pattern.Composition
import SchemaRegex.Proofs.Pattern.Commits
import SchemaRegex.Proofs.Pattern.Anchors
import SchemaRegex.Proofs.Pattern.Guarantees
import SchemaRegex.Proofs.Pattern.Failing
import SchemaRegex.Proofs.Pattern.RecordedFailures
import SchemaRegex.Proofs.Pattern.HyphenBeforeSubtraction
import SchemaRegex.Proofs.Pattern.SyntaxErrors
import SchemaRegex.Proofs.Machine.InsertionOrder
import SchemaRegex.Proofs.Program.Listing
import SchemaRegex.Proofs.Unicode.AlternatingRuns
import SchemaRegex.Proofs.Pattern.QuantifierRoundTrip
import SchemaRegex.Proofs.Machine.DepthFirst
import SchemaRegex.Proofs.Pattern.Alternatives
