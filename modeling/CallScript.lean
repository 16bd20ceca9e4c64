import CallScript.Assembly
import CallScript.Assembly.Check
import CallScript.Assembly.Encode
import CallScript.Bytes.Cursor
import CallScript.Bytes.Padding
import CallScript.Bytes.Word
import CallScript.Call
import CallScript.Call.Dump
import CallScript.Call.Parse
import CallScript.Call.Print
import CallScript.Command
import CallScript.Command.Options
import CallScript.Compile
import CallScript.Config
import CallScript.Config.OfJson
import CallScript.Event
import CallScript.Files.Path
import CallScript.Files.Tree
import CallScript.Image
import CallScript.InstructionSet
import CallScript.InstructionSet.OfConfig
import CallScript.Json
import CallScript.Json.Read
import CallScript.Listing
import CallScript.Listing.Field
import CallScript.Listing.Indentation
import CallScript.Listing.Statement
import CallScript.Main
import CallScript.OpcodeTable
import CallScript.Proofs.Assembling
import CallScript.Proofs.Bounds
import CallScript.Proofs.Checking
import CallScript.Proofs.Code
import CallScript.Proofs.Commands
import CallScript.Proofs.Disassembling
import CallScript.Proofs.Dumping
import CallScript.Proofs.Emission
import CallScript.Proofs.Endianness
import CallScript.Proofs.Enlisting
import CallScript.Proofs.Files
import CallScript.Proofs.Grammar
import CallScript.Proofs.Header
import CallScript.Proofs.Layout
import CallScript.Proofs.Lexicon
import CallScript.Proofs.Lines
import CallScript.Proofs.Literals
import CallScript.Proofs.Moving
import CallScript.Proofs.Names
import CallScript.Proofs.Nesting
import CallScript.Proofs.Numeral
import CallScript.Proofs.Operands
import CallScript.Proofs.Patterns
import CallScript.Proofs.Presentation
import CallScript.Proofs.Printing
import CallScript.Proofs.Recoding
import CallScript.Proofs.Recompiling
import CallScript.Proofs.Registry
import CallScript.Proofs.RoundTrip
import CallScript.Proofs.Scanning
import CallScript.Proofs.Seams
import CallScript.Proofs.ShiftReduce
import CallScript.Proofs.Spacing
import CallScript.Proofs.Splitting
import CallScript.Proofs.Symbols
import CallScript.Proofs.Tiling
import CallScript.Proofs.Truncation
import CallScript.Proofs.Utf8
import CallScript.Proofs.ViablePrefix
import CallScript.Result
import CallScript.SymbolTable
import CallScript.Text.Numeral
import CallScript.Text.Position
import CallScript.Text.Quoted
import CallScript.Text.Utf8
import CallScript.Text.Width
import CallScript.Token
import CallScript.Token.Scan
import CallScript.Workbench
