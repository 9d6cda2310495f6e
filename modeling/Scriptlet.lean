import Scriptlet.CommandLine
import Scriptlet.Grammar.Derivation
import Scriptlet.Grammar.Statement
import Scriptlet.Main
import Scriptlet.Recognition.Session
import Scriptlet.Proofs.Halting
import Scriptlet.Proofs.Lists
import Scriptlet.Proofs.Recognition.Scan
import Scriptlet.Proofs.Recognition.Simulation
import Scriptlet.Proofs.Recognition.Verdict
import Scriptlet.Proofs.Recognition.Language
import Scriptlet.Proofs.Recognition.Completion
import Scriptlet.Proofs.Lexicon.Classification
import Scriptlet.Proofs.Lexing.Segments
import Scriptlet.Proofs.Grammar.Leading
import Scriptlet.Proofs.Grammar.Validation
import Scriptlet.Proofs.Lexing.Tiling
import Scriptlet.Proofs.Location
import Scriptlet.Proofs.Lexicon.Lookahead
import Scriptlet.Proofs.Lexing.Concatenation
import Scriptlet.Proofs.Lexing.Printing
import Scriptlet.Proofs.Diagnostic.Quotation
import Scriptlet.Proofs.Recognition.Agreement
import Scriptlet.Proofs.Lexing.Blanking
import Scriptlet.Proofs.Recognition.Session
import Scriptlet.Proofs.Recognition.Prefixes
import Scriptlet.Proofs.Recognition.Expectations
import Scriptlet.Proofs.Grammar.Trees
import Scriptlet.Proofs.Json.Strings
import Scriptlet.Proofs.Json.Parts
import Scriptlet.Proofs.Json.Reading
import Scriptlet.Proofs.Json.Printing
import Scriptlet.Proofs.Json.Encoding
import Scriptlet.Proofs.Recognition.Limits
import Scriptlet.Proofs.CommandLine
import Scriptlet.Proofs.Lexicon.Longest
import Scriptlet.Proofs.Lexing.Extension
import Scriptlet.Proofs.Recognition.Depth
import Scriptlet.Proofs.Recognition.Levels
import Scriptlet.Proofs.Grammar.Ebnf
import Scriptlet.Proofs.Grammar.Traversal
import Scriptlet.Proofs.Grammar.Recursion
import Scriptlet.Proofs.Grammar.Order
import Scriptlet.Proofs.Grammar.Sweeping
import Scriptlet.Proofs.Lexing.Offsets
