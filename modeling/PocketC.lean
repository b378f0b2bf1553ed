import PocketC.Grammar.Program
import PocketC.Proofs.Grammar.Completeness
import PocketC.Proofs.Grammar.Earliest
import PocketC.Proofs.Grammar.EndlessRow
import PocketC.Proofs.Grammar.IndexFirst
import PocketC.Proofs.Grammar.Literals
import PocketC.Proofs.Grammar.Nodes
import PocketC.Proofs.Grammar.Operations
import PocketC.Proofs.Names.Binds
import PocketC.Proofs.Names.BoundAt
import PocketC.Proofs.Names.Lexical
import PocketC.Proofs.Names.Outward
import PocketC.Proofs.Output.Formats
import PocketC.Proofs.Output.Grouping
import PocketC.Proofs.Output.Values
import PocketC.Proofs.Print.RoundTrip
import PocketC.Proofs.Run.Arithmetic
import PocketC.Proofs.Run.ArrayLengths
import PocketC.Proofs.Run.ArraySizes
import PocketC.Proofs.Run.Assigned
import PocketC.Proofs.Run.Conditionals
import PocketC.Proofs.Run.Containment
import PocketC.Proofs.Run.Echoes
import PocketC.Proofs.Run.Effects
import PocketC.Proofs.Run.ForLoops
import PocketC.Proofs.Run.FunctionOrder
import PocketC.Proofs.Run.FunctionTable
import PocketC.Proofs.Run.Isolation
import PocketC.Proofs.Run.Layout
import PocketC.Proofs.Run.LiveScopes
import PocketC.Proofs.Run.Printing
import PocketC.Proofs.Run.Repetition
import PocketC.Proofs.Run.Shadowing
import PocketC.Proofs.Run.Stores
import PocketC.Proofs.Run.Termination
import PocketC.Proofs.Run.Twins
import PocketC.Proofs.Run.VoidArguments
import PocketC.Proofs.Token.Munch
import PocketC.Proofs.Token.Places
import PocketC.Proofs.Token.Rendering
import PocketC.Run.Session
import PocketC.Token.Scan
