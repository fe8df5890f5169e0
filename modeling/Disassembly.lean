import Disassembly.Main
import Disassembly.Proofs.Encoding
import Disassembly.Proofs.Reading
import Disassembly.Proofs.InstructionLength
import Disassembly.Proofs.OpcodeTable
import Disassembly.Proofs.Tiling
import Disassembly.Proofs.Losslessness
import Disassembly.Proofs.Concatenation
import Disassembly.Proofs.RunShape
import Disassembly.Proofs.Patching
import Disassembly.Proofs.PresentationProtocol
import Disassembly.Proofs.LineByLine
import Disassembly.Proofs.LineLayout
import Disassembly.Proofs.PlainText
import Disassembly.Proofs.Colours
import Disassembly.Proofs.Visibility
import Disassembly.Proofs.Readability
import Disassembly.Proofs.Truncation
import Disassembly.Proofs.DecoderNotices
import Disassembly.Proofs.Notices
import Disassembly.Proofs.CommandOutcome
import Disassembly.Proofs.ColumnProjection
import Disassembly.Proofs.TabulatedLines
import Disassembly.Proofs.Nesting
import Disassembly.Proofs.Aliases
import Disassembly.Proofs.CursorDiscipline
import Disassembly.Proofs.PartialOperations
