import Styling.Rule.Note
import Styling.Source.Reader
import Styling.Stylesheet
import Styling.Token.Stream
import Styling.Value.Named
import Styling.Value.Order
import Styling.Rule.StreamReader
import Styling.Grammar.StreamReader
import Styling.Proofs.Component.Arrangement
import Styling.Proofs.Rule.Declaration
import Styling.Proofs.Rule.Item
import Styling.Proofs.Token.Stream
import Styling.Proofs.Rule.StreamReader
import Styling.Proofs.Rule.Basic
import Styling.Proofs.Rule.Isolation
import Styling.Proofs.Source.Filter
import Styling.Proofs.Token.Sequence
import Styling.Proofs.Number.Literal
import Styling.Proofs.Token.Failure
import Styling.Proofs.Grammar.Products
import Styling.Proofs.Value.Recovery
import Styling.Proofs.Selector.Parse
import Styling.Turn
import Styling.Proofs.Stylesheet.Recovery
import Styling.Token.CharReader
import Styling.Proofs.Source.Reader
import Styling.Proofs.Token.CharReader
import Styling.Proofs.Token.Formation
import Styling.Proofs.Component.Closed
import Styling.Proofs.Rule.Semicolon
import Styling.Proofs.Rule.InlineBlock
import Styling.Proofs.Grammar.Taking
import Styling.Proofs.Grammar.Answers
import Styling.Proofs.Grammar.Elements
import Styling.Proofs.Selector.Written
import Styling.Proofs.Selector.Part
import Styling.Proofs.Selector.Compound
import Styling.Proofs.Selector.Accepted
import Styling.Proofs.Component.Balanced
import Styling.Proofs.Selector.PseudoClass
import Styling.Proofs.Style.LastWriter
import Styling.Proofs.Value.Location
import Styling.Proofs.Value.Agreement
import Styling.Proofs.Stylesheet.Importance
import Styling.Proofs.Value.Setting
import Styling.Proofs.Component.Owed
import Styling.Proofs.Component.Outline
import Styling.Proofs.Rule.Outline
import Styling.Proofs.Stylesheet.Outline
import Styling.Proofs.Stylesheet.OpenEnd
import Styling.Proofs.Rule.WellFormed
import Styling.Proofs.Token.Order
import Styling.Proofs.Stylesheet.Reports
import Styling.Proofs.Grammar.StreamReader
import Styling.Proofs.Selector.Stream
import Styling.Proofs.Source.Slice
import Styling.Proofs.Token.NameBoundary
import Styling.Proofs.Token.Boundary
import Styling.Proofs.Token.Reread
import Styling.Proofs.Selector.Unplaced
import Styling.Proofs.Rule.Prelude
import Styling.Proofs.Token.Lexeme
import Styling.Proofs.Token.Name
import Styling.Proofs.Token.Spelling
import Styling.Proofs.Token.Ahead
import Styling.Proofs.Selector.Plain
import Styling.Proofs.Selector.Printed
import Styling.Proofs.Component.WellFormed
import Styling.Proofs.Number.Binary
import Styling.Proofs.Value.Order
import Styling.Proofs.Token.Integer
import Styling.Proofs.Rule.DeclarationReader
import Styling.Proofs.Selector.Matching
import Styling.Proofs.Value.Cursor
import Styling.Proofs.Style.Shorthand
import Styling.Proofs.Text.Ascii
import Styling.Proofs.Token.Escaped
import Styling.Proofs.Source.Session
import Styling.Proofs.Source.Normal
import Styling.Proofs.Identity.Notation
import Styling.Proofs.Token.Maximal
import Styling.Proofs.Token.Session
import Styling.Proofs.Number.Integral
import Styling.Proofs.Style.Finite
