import AwkCore.Context.Compile
import AwkCore.Heap.Cells
import AwkCore.Heap.Deeds
import AwkCore.Heap.Desk
import AwkCore.Heap.Shelf
import AwkCore.Main
import AwkCore.Proofs.CommandLine.Arguments
import AwkCore.Proofs.CommandLine.Listing
import AwkCore.Proofs.Context.Compile
import AwkCore.Proofs.Context.Requests
import AwkCore.Proofs.Heap.Aliases
import AwkCore.Proofs.Heap.Archive
import AwkCore.Proofs.Heap.Cells
import AwkCore.Proofs.Heap.Deeds
import AwkCore.Proofs.Numeral.Grammar
import AwkCore.Proofs.Program.Appending
import AwkCore.Proofs.Program.CarriageReturns
import AwkCore.Proofs.Program.Continuations
import AwkCore.Proofs.Program.Ending
import AwkCore.Proofs.Program.Joining
import AwkCore.Proofs.Program.LineNumbers
import AwkCore.Proofs.Program.Numbers
import AwkCore.Proofs.Program.Positions
import AwkCore.Proofs.Program.Quoting
import AwkCore.Proofs.Program.Reading
import AwkCore.Proofs.Program.Rendering
import AwkCore.Proofs.Regex.Atoms
import AwkCore.Proofs.Regex.Parts
import AwkCore.Proofs.Regex.Quoting
import AwkCore.Proofs.Scanner.Operators
import AwkCore.Proofs.Scanner.Slashes
import AwkCore.Proofs.Scanner.WellFormed
import AwkCore.Proofs.Sequence.Growth
import AwkCore.Proofs.Table.Balance
import AwkCore.Proofs.Table.Churn
import AwkCore.Proofs.Table.Probing
import AwkCore.Proofs.Texts.Capacity
import AwkCore.Proofs.Texts.Owners
import AwkCore.Proofs.Value.Input
import AwkCore.Proofs.Value.Order
import AwkCore.Proofs.Value.Whole
