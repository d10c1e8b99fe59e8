import Scripting.Grammar
import Scripting.Proofs.Code
import Scripting.Proofs.Constants
import Scripting.Proofs.Locks
import Scripting.Proofs.Parsing.Statement
import Scripting.Proofs.Parsing.Strings
import Scripting.Proofs.QualifiedNames
import Scripting.Proofs.Regime.Sizes
import Scripting.Proofs.Sharing
import Scripting.Proofs.Signals
import Scripting.Proofs.Sizes
import Scripting.Proofs.Wrapping
import Scripting.Session.Scripts
import Scripting.Text.Quoted
import Scripting.Token.Dialect
import Scripting.Workbench
import Scripting.Proofs.Overloads
import Scripting.Proofs.Progress
import Scripting.Proofs.Capture.Mentions
import Scripting.Proofs.Capture.Scoped
import Scripting.Proofs.Capture.State
import Scripting.Proofs.Closures
import Scripting.Proofs.RoundTrip.Quoted
import Scripting.Proofs.RoundTrip.Tokens
import Scripting.Proofs.RoundTrip.Literals
import Scripting.Proofs.RoundTrip.Parsing
import Scripting.Proofs.RoundTrip.Printing
import Scripting.Proofs.Printed
import Scripting.Proofs.Course.Act
import Scripting.Proofs.Course.Leads
import Scripting.Proofs.Course.Survey
import Scripting.Proofs.Course.Basic
import Scripting.Proofs.Course.Call
import Scripting.Proofs.Course.Evaluation
import Scripting.Proofs.Course.Import
import Scripting.Proofs.Course.Loading
import Scripting.Proofs.Course.Watch
import Scripting.Proofs.Course.Variables
import Scripting.Proofs.Imports
import Scripting.Proofs.Consumption
import Scripting.Proofs.Precedence
import Scripting.Proofs.Spelling
import Scripting.Proofs.Nesting
import Scripting.Proofs.SharedVariables
import Scripting.Proofs.Pointers
import Scripting.Proofs.Course.Lending
import Scripting.Proofs.Budget
import Scripting.Proofs.Selection
import Scripting.Proofs.Places
import Scripting.Proofs.Assignment.Remains
import Scripting.Proofs.Comparison
import Scripting.Proofs.Access.Opening
import Scripting.Proofs.Access.Compound
import Scripting.Proofs.Scripted.Evaluation
import Scripting.Proofs.Pieces
import Scripting.Proofs.Characters
import Scripting.Proofs.Numerals
import Scripting.Proofs.Access.Changing
import Scripting.Proofs.Access.Writing
import Scripting.Proofs.Updating
import Scripting.Proofs.Foresight
import Scripting.Proofs.Restart
import Scripting.Proofs.LiteralLimits
import Scripting.Proofs.Workbench
import Scripting.Proofs.PointerCalls
import Scripting.Proofs.Exports
import Scripting.Proofs.Chains
import Scripting.Proofs.Operators
import Scripting.Proofs.Natives
import Scripting.Proofs.Parsing.Faults
import Scripting.Proofs.Powers
import Scripting.Proofs.Combining
import Scripting.Proofs.Parsing.Checks
import Scripting.Proofs.Parsing.Ledger
import Scripting.Proofs.SingleExpressions
import Scripting.Proofs.WellFormed
import Scripting.Proofs.RoundTrip.Delivered
import Scripting.Proofs.Merging
