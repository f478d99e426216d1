import Diana.Lib.Field
import Diana.Lib.DispatchTree
import Diana.Lib.Post
import Diana.Lib.Repetition
import Diana.Lib.OrdMap
import Diana.Lib.PartialBytes
import Diana.Lib.Copies
import Diana.Lib.Indices
import Diana.Lib.SortedVec
import Diana.Lib.Separators
import Diana.Lib.Rotate
import Diana.Lib.FlatMemory
import Diana.Lib.LittleEndian
import Diana.Lib.Patches
import Diana.Lib.Chain
import Diana.Lib.BinarySearch
import Diana.Lib.CString
import Diana.Status
import Diana.A64.Machine
import Diana.A32.Decode
import Diana.A32.ItState
import Diana.Patcher.MoveA64
import Diana.Patcher.EmitA64
import Diana.Patcher.NearA64
import Diana.Patcher.FarA64
import Diana.Patcher.MoveA64Correct
import Diana.Patcher.RelX86
import Diana.Patcher.MoveX86
import Diana.Patcher.MoveA32
import Diana.Patcher.StreamX86
import Diana.Patcher.StreamArm
import Diana.Analyze.Owner
import Diana.Analyze.Session
import Diana.Analyze.Termination
import Diana.Analyze.MemoryStream
import Diana.Analyze.X86
import Diana.Analyze.Coverage
import Diana.Analyze.Tally
import Diana.Analyze.Runs
import Diana.Analyze.References
import Diana.Analyze.Rollback
import Diana.Decoder.Context
import Diana.Decoder.Search
import Diana.Decoder.WordTables
import Diana.Lib.CyclicRun
import Diana.Decoder.BitMasks
import Diana.Decoder.Bounds
import Diana.Decoder.Prefixes
import Diana.Decoder.ParseCmd
import Diana.Decoder.PrefixRuns
import Diana.Processor.Context
import Diana.Processor.Operands
import Diana.Processor.Arith
import Diana.Processor.Commands
import Diana.Processor.ExecOnce
import Diana.Processor.Effects
import Diana.Processor.WriteAddress
import Diana.Processor.AddSub
import Diana.Processor.ArithCommands
import Diana.Processor.Flags
import Diana.Processor.Shifts
import Diana.Processor.Division
import Diana.Processor.Multiplication
import Diana.Processor.StringCommands
import Diana.Processor.RepStrings
import Diana.Processor.StackWalk
import Diana.Processor.Memory
import Diana.Processor.Stack
import Diana.Processor.FlagCommands
import Diana.Processor.CallReturn
import Diana.Processor.Jumps
import Diana.Processor.BitStrings
import Diana.Processor.BetweenCommands
import Diana.Orthia.Basic
import Diana.Orthia.Storage
import Diana.Orthia.CommonFormat
import Diana.Orthia.Metadata
import Diana.Orthia.Modules
import Diana.Orthia.Overlay
import Diana.Orthia.VirtualSpace
import Diana.Orthia.VmAlloc
import Diana.Orthia.Regions
import Diana.Orthia.SavedProcess
import Diana.Orthia.Capture
import Diana.Orthia.Floating
import Diana.Orthia.FloatingFormat
import Diana.Orthia.FloatingRoundtrip
import Diana.Orthia.FloatingCollect
import Diana.Orthia.FloatingReferences
import Diana.Orthia.FloatingOrder
import Diana.Orthia.FloatingCorrect
import Diana.Orthia.DatabaseSaver
import Diana.Orthia.Reports
import Diana.Orthia.Tokenizer
import Diana.Orthia.Literals
import Diana.Orthia.Tiling
import Diana.Elf.Layout
import Diana.Elf.ProgramHeaders
import Diana.Elf.Dynamic
import Diana.Elf.Lookup
import Diana.Elf.Tables
import Diana.Elf.Init
import Diana.Elf.Relocate
import Diana.Elf.RelocateExact
import Diana.Elf.MapEx
import Diana.Elf.MapContent
import Diana.Pe.Relocs
import Diana.Pe.Imports
import Diana.Pe.RelocsExact
import Diana.Pe.ProcAddress
import Diana.Pe.QueryExports
import Diana.Pe.ExportReports
import Diana.Pe.ExportsComplete
import Diana.Pe.PeFile
import Diana.Pe.MapEx
import Diana.Pe.MapBounds
import Diana.Streams.MemoryStream
import Diana.Orthia.Expressions
import Diana.Orthia.ExpressionGaps
import Diana.Orthia.Locality
import Diana.Orthia.Release
import Diana.Orthia.RegionReaders
import Diana.Orthia.Journal
import Diana.Lib.ChangePoints
import Diana.Orthia.Arm64StackWalk
import Diana.Orthia.ArmCodeMap
import Diana.Orthia.MetaInfo
import Diana.Orthia.ArmCodeQuery
import Diana.Orthia.ArmCodeResave
import Diana.Lib.Decimal
import Diana.Lib.Calendar
import Diana.Lib.Sha1
import Diana.Lib.Sha256
import Diana.Lib.BlockStream
import Diana.Orthia.Sha1
import Diana.Orthia.Sha256
import Diana.Orthia.ProcStamp
import Diana.Orthia.FolderXml
import Diana.Orthia.CapturedRegions
import Diana.Orthia.FolderFiles
import Diana.Containers.List
import Diana.Containers.Stack
import Diana.Lib.Links
import Diana.Elf.NormalizeDyn
import Diana.Streams.CopyData
import Diana.Orthia.NamesCache
import Diana.Orthia.Sections
import Diana.Analyze.LandingPads
import Diana.Analyze.TrackArm64
import Diana.Lib.Extension
import Diana.Analyze.KnownRegisters
import Diana.Analyze.JumpTables
import Diana.Lib.BinaryPoly
import Diana.Lib.Bits
import Diana.Processor.Aes
import Diana.Processor.Extensions
import Diana.Processor.CarryLess
import Diana.Processor.ExtensionCommands
import Diana.Processor.Sha
import Diana.Processor.Decimal
import Diana.Orthia.ThreadPool
