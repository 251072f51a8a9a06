import Mixfix.Assembly
import Mixfix.Parser.Section
import Mixfix.Table.Printer
import Mixfix.Proofs.Assembly.Language
import Mixfix.Proofs.Assembly.Totality
import Mixfix.Proofs.Executor.Acceptance
import Mixfix.Proofs.Executor.Binding
import Mixfix.Proofs.Executor.Completeness
import Mixfix.Proofs.Grammar.Preservation
import Mixfix.Proofs.LevelGraph.Insertion
import Mixfix.Proofs.Parser.Sections
import Mixfix.Proofs.Node
import Mixfix.Proofs.Parser.Spans
import Mixfix.Proofs.Executor.Spans
import Mixfix.Proofs.Parser.Built
import Mixfix.Proofs.Executor.Termination
import Mixfix.Proofs.Assembly.Termination
import Mixfix.Proofs.LevelGraph.Successors
import Mixfix.Proofs.Assembly.Accepted
import Mixfix.Proofs.Assembly.Priorities
import Mixfix.Proofs.Executor.Configuration
import Mixfix.Proofs.LevelGraph.Enumeration
import Mixfix.Proofs.LevelGraph.Orders
import Mixfix.Proofs.Assembly.Screening
import Mixfix.Proofs.Assembly.Reordering
import Mixfix.Proofs.Executor.Names
import Mixfix.Proofs.Assembly.Cleaning
import Mixfix.Proofs.Grammar.Spelling
import Mixfix.Proofs.Executor.Results
import Mixfix.Proofs.Plan.Walk
import Mixfix.Proofs.Grammar.Fresh
import Mixfix.Proofs.Automaton.Discovery
import Mixfix.Proofs.Window.Blocks
import Mixfix.Proofs.Automaton.Beginnings
import Mixfix.Proofs.LevelGraph.Heights
import Mixfix.Proofs.Plan.Conflicts
import Mixfix.Proofs.Assembly.Conflicts
import Mixfix.Proofs.Registry.Calls
import Mixfix.Proofs.Registry.Declarations
import Mixfix.Proofs.Plan.Guesses
import Mixfix.Proofs.Lexer.Bounds
import Mixfix.Proofs.Node.Hoisting
import Mixfix.Proofs.Automaton.LeastClosure
