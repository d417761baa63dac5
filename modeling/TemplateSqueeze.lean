import TemplateSqueeze.Command.Directory
import TemplateSqueeze.Command.Host
import TemplateSqueeze.Command.Memory
import TemplateSqueeze.Command.Options
import TemplateSqueeze.Command.Squeeze
import TemplateSqueeze.Edit.Basic
import TemplateSqueeze.Edit.Guard
import TemplateSqueeze.Edit.Joint
import TemplateSqueeze.Grammar.Arguments
import TemplateSqueeze.Grammar.Declaration
import TemplateSqueeze.Grammar.Element
import TemplateSqueeze.Grammar.Expression
import TemplateSqueeze.Grammar.Function
import TemplateSqueeze.Grammar.Lexical
import TemplateSqueeze.Grammar.Pattern
import TemplateSqueeze.Grammar.Program
import TemplateSqueeze.Grammar.Reader
import TemplateSqueeze.Grammar.Semicolon
import TemplateSqueeze.Grammar.Statement
import TemplateSqueeze.Grammar.Types
import TemplateSqueeze.Json.Basic
import TemplateSqueeze.Json.Double
import TemplateSqueeze.Json.Reader
import TemplateSqueeze.Language
import TemplateSqueeze.Main
import TemplateSqueeze.Path
import TemplateSqueeze.Proofs.Command.Fixtures
import TemplateSqueeze.Proofs.Edit.Accepted
import TemplateSqueeze.Proofs.Edit.Aligned
import TemplateSqueeze.Proofs.Edit.Determined
import TemplateSqueeze.Proofs.Edit.Joint
import TemplateSqueeze.Proofs.Edit.Origins
import TemplateSqueeze.Proofs.Edit.Outermost
import TemplateSqueeze.Proofs.Edit.Separate
import TemplateSqueeze.Proofs.Edit.Shrink
import TemplateSqueeze.Proofs.Edit.Splice
import TemplateSqueeze.Proofs.Edit.Total
import TemplateSqueeze.Proofs.Json.Reader
import TemplateSqueeze.Proofs.SourceMap.Bounds
import TemplateSqueeze.Proofs.SourceMap.Carried
import TemplateSqueeze.Proofs.SourceMap.Choice
import TemplateSqueeze.Proofs.SourceMap.Destinations
import TemplateSqueeze.Proofs.SourceMap.Exact
import TemplateSqueeze.Proofs.SourceMap.Fresh
import TemplateSqueeze.Proofs.SourceMap.Lookup
import TemplateSqueeze.Proofs.SourceMap.Mappings
import TemplateSqueeze.Proofs.SourceMap.Passes
import TemplateSqueeze.Proofs.SourceMap.RoundTrip
import TemplateSqueeze.Proofs.SourceMap.Stretch
import TemplateSqueeze.Proofs.SourceMap.Vlq
import TemplateSqueeze.Proofs.Template.Cooked
import TemplateSqueeze.Proofs.Template.Faithful
import TemplateSqueeze.Proofs.Template.Lexemes
import TemplateSqueeze.Proofs.Template.LineEnds
import TemplateSqueeze.Proofs.Template.Literal
import TemplateSqueeze.Proofs.Template.Meaning
import TemplateSqueeze.Proofs.Template.Origins
import TemplateSqueeze.Proofs.Template.Runs
import TemplateSqueeze.Proofs.Template.Scan
import TemplateSqueeze.Proofs.Template.Settled
import TemplateSqueeze.Proofs.Template.Sweep
import TemplateSqueeze.Proofs.Template.Tiling
import TemplateSqueeze.Proofs.Template.Traced
import TemplateSqueeze.Proofs.Text.Caret
import TemplateSqueeze.Proofs.Text.Count
import TemplateSqueeze.Proofs.Text.Cut
import TemplateSqueeze.Proofs.Text.Lines
import TemplateSqueeze.Proofs.Text.Position
import TemplateSqueeze.Proofs.Tree.Place
import TemplateSqueeze.Proofs.Tree.Visits
import TemplateSqueeze.Proofs.Tree.Walk
import TemplateSqueeze.Settings
import TemplateSqueeze.Source
import TemplateSqueeze.SourceMap.Basic
import TemplateSqueeze.SourceMap.Carry
import TemplateSqueeze.SourceMap.Mappings
import TemplateSqueeze.SourceMap.Read
import TemplateSqueeze.SourceMap.Vlq
import TemplateSqueeze.SourceMap.Write
import TemplateSqueeze.Template.Lexeme
import TemplateSqueeze.Template.Literal
import TemplateSqueeze.Template.Marker
import TemplateSqueeze.Template.Segment
import TemplateSqueeze.Template.Squeeze
import TemplateSqueeze.Text.Basic
import TemplateSqueeze.Text.Chars
import TemplateSqueeze.Text.LineTable
import TemplateSqueeze.Text.Visible
import TemplateSqueeze.Tree.Basic
import TemplateSqueeze.Tree.Cursor
import TemplateSqueeze.Tree.Walk
