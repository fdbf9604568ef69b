import AccuAsm.Text.Basic
import AccuAsm.Text.Glyph
import AccuAsm.Text.Blank
import AccuAsm.Text.Printable
import AccuAsm.Text.LowerCase
import AccuAsm.Text.Quoted
import AccuAsm.Numeral
import AccuAsm.Diagnostic
import AccuAsm.Literal
import AccuAsm.Value
import AccuAsm.Line
import AccuAsm.Path
import AccuAsm.Dictionary
import AccuAsm.Scope
import AccuAsm.Memory
import AccuAsm.Program.Instr
import AccuAsm.Program.Basic
import AccuAsm.Program.Workbench
import AccuAsm.Block
import AccuAsm.Image
import AccuAsm.Json.Basic
import AccuAsm.Json.Token
import AccuAsm.Json.Reader
import AccuAsm.InstructionSet.Basic
import AccuAsm.InstructionSet.Validity
import AccuAsm.InstructionSet.Document
import AccuAsm.Keyword
import AccuAsm.NamePattern
import AccuAsm.Lowering
import AccuAsm.Translator.Basic
import AccuAsm.Translator.Statement
import AccuAsm.Translator.Run
import AccuAsm.Style
import AccuAsm.Session
import AccuAsm.Storage
import AccuAsm.CommandLine.Arguments
import AccuAsm.CommandLine.History
import AccuAsm.CommandLine.Console
import AccuAsm.CommandLine.Run
import AccuAsm.CommandLine.Inspector
import AccuAsm.Main
import AccuAsm.Proofs.Steps
import AccuAsm.Proofs.Atomicity
import AccuAsm.Proofs.Nesting
import AccuAsm.Proofs.Outline
import AccuAsm.Proofs.Reading
import AccuAsm.Proofs.Agreement
import AccuAsm.Proofs.Layout
import AccuAsm.Proofs.Growth
import AccuAsm.Proofs.Pass
import AccuAsm.Proofs.Machine
import AccuAsm.Proofs.Staging
import AccuAsm.Proofs.Execution
import AccuAsm.Proofs.Hazards
import AccuAsm.Proofs.Meaning
import AccuAsm.Proofs.OpenBlocks
import AccuAsm.Proofs.Ledger
import AccuAsm.Proofs.Numerals
import AccuAsm.Proofs.Literals
import AccuAsm.Proofs.OperandTokens
import AccuAsm.Proofs.Operands
import AccuAsm.Proofs.Refusals
import AccuAsm.Proofs.Buffer
import AccuAsm.Proofs.Displacement
import AccuAsm.Proofs.Validity
import AccuAsm.Proofs.Opcodes
import AccuAsm.Proofs.Listing
import AccuAsm.Proofs.Tokens
import AccuAsm.Proofs.ListingGrammar
import AccuAsm.Proofs.Remarks
import AccuAsm.Proofs.Files
import AccuAsm.Proofs.Delivery
import AccuAsm.Proofs.Outputs
import AccuAsm.Proofs.Documents
import AccuAsm.Proofs.Disassembly
import AccuAsm.Proofs.Cells
import AccuAsm.Proofs.Enclosure
import AccuAsm.Proofs.ScopeTree
import AccuAsm.Proofs.Constants
import AccuAsm.Proofs.Lookups
import AccuAsm.Proofs.Views
import AccuAsm.Proofs.Sources
import AccuAsm.Proofs.Annotations
import AccuAsm.Proofs.Dialogue
import AccuAsm.Proofs.Rendering
import AccuAsm.Proofs.Registry
