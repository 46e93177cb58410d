import Jade.Describe
import Jade.Engine
import Jade.Main
import Jade.Proofs.Dialect.Arguments
import Jade.Proofs.Dialect.Braces
import Jade.Proofs.Dialect.Callers
import Jade.Proofs.Dialect.Calls
import Jade.Proofs.Dialect.Depths
import Jade.Proofs.Dialect.Interpolated
import Jade.Proofs.Dialect.Isolation
import Jade.Proofs.Dialect.Loops
import Jade.Proofs.Dialect.Modes
import Jade.Proofs.Dialect.Nesting
import Jade.Proofs.Dialect.Values
import Jade.Proofs.Emitter.Layout
import Jade.Proofs.Loader
import Jade.Proofs.Macro
import Jade.Proofs.Markup.Decoded
import Jade.Proofs.Node.Removal
import Jade.Proofs.Outline.RoundTrip
import Jade.Proofs.Reader.Content
import Jade.Proofs.Reader.Greedy
import Jade.Proofs.Reader.Shorthand
import Jade.Proofs.Reader.Termination
import Jade.Proofs.Reader.TextLayout
import Jade.Proofs.Script.Dictionary
import Jade.Proofs.Source.LineNumbers
import Jade.Proofs.Token.Occurrences
import Jade.Proofs.Token.Quotations
import Jade.Proofs.Token.Spaced
import Jade.Token.Pattern
