import JarText.Archive
import JarText.Bytes
import JarText.Bytes.Lemmas
import JarText.ClassFile
import JarText.Code.Body
import JarText.Code.Instruction
import JarText.Code.Opcode
import JarText.Command.Arguments
import JarText.Command.Listing
import JarText.Command.Outcome
import JarText.Command.Run
import JarText.Constant
import JarText.Descriptor
import JarText.Edit
import JarText.Fault
import JarText.FileTree
import JarText.Files
import JarText.Filter
import JarText.Hash.Blake3
import JarText.Jar
import JarText.JarFile
import JarText.Json.Basic
import JarText.Json.Fault
import JarText.Json.Reader
import JarText.Main
import JarText.Pool
import JarText.Reader
import JarText.Scan.ArchiveScan
import JarText.Scan.ClassScan
import JarText.Scan.Location
import JarText.Scan.Use
import JarText.Sheet
import JarText.Text.Blank
import JarText.Text.Case
import JarText.Text.CodePage437
import JarText.Text.ModifiedUtf8
import JarText.Text.Quoted
import JarText.Text.Ranges
import JarText.Text.Unprintable
import JarText.Text.Utf8
import JarText.Zip.BitSink
import JarText.Zip.BitSource
import JarText.Zip.BlockCodes
import JarText.Zip.Checksum
import JarText.Zip.CodeLengths
import JarText.Zip.Container
import JarText.Zip.Deflate
import JarText.Zip.Directory
import JarText.Zip.Entry
import JarText.Zip.Fields
import JarText.Zip.Inflate
import JarText.Zip.Piece
import JarText.Zip.PrefixCode
import JarText.Proofs.PoolCodec
import JarText.Proofs.ClassCodec
import JarText.Proofs.PushedPool
import JarText.Proofs.PoolLookup
import JarText.Proofs.TextCodec
import JarText.Proofs.TextSplice
import JarText.Proofs.InstructionFormat
import JarText.Proofs.CodeRows
import JarText.Proofs.FirstLoads
import JarText.Proofs.RunTrace
import JarText.Proofs.CancelledRuns
import JarText.Proofs.ClassEdits
import JarText.Proofs.NameUses
import JarText.Proofs.ArchiveEdits
import JarText.Proofs.EditRuns
import JarText.Proofs.EditEffects
import JarText.Proofs.FailedEdits
import JarText.Proofs.EditBatches
import JarText.Proofs.RenameWarnings
import JarText.Proofs.EditedScan
import JarText.Proofs.Rescan
import JarText.Proofs.ListedEdits
import JarText.Proofs.Outcomes
import JarText.Proofs.ArchiveSimulation
import JarText.Proofs.BitRows
import JarText.Proofs.PrefixWords
import JarText.Proofs.ChosenLengths
import JarText.Proofs.BlockPieces
import JarText.Proofs.LengthItems
import JarText.Proofs.StatedLengths
import JarText.Proofs.ContentPieces
import JarText.Proofs.CompressedContent
import JarText.Proofs.PlainText
import JarText.Proofs.ZipCodec
import JarText.Proofs.SavedJar
import JarText.Proofs.JarSessions
import JarText.Proofs.DeflateSize
import JarText.Proofs.SmallFiles
import JarText.Proofs.WrittenFiles
import JarText.Proofs.CommandSteps
import JarText.Proofs.ListedTargets
import JarText.Proofs.RevisedJars
import JarText.Proofs.SheetWorkflow
import JarText.Proofs.JsonText
import JarText.Proofs.SheetText
import JarText.Proofs.TextUnits
import JarText.Proofs.ClassBounds
import JarText.Proofs.CodeParts
import JarText.Proofs.ScannableClasses
import JarText.Proofs.DescriptorTypes
import JarText.Proofs.DescriptorGrammar
import JarText.Proofs.ShownNames
import JarText.Proofs.LineLookup
import JarText.Proofs.LineTables
import JarText.Proofs.PoolShape
import JarText.Proofs.SmallLetters
import JarText.Proofs.QueryWords
import JarText.Proofs.ListingLines
import JarText.Proofs.RetextedPool
import JarText.Proofs.SwitchLengths
