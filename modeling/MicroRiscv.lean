import MicroRiscv.Lib.Bits
import MicroRiscv.Lib.Slots
import MicroRiscv.Lib.SlotsTiming
import MicroRiscv.Lib.Subtraction
import MicroRiscv.Lib.Rounding
import MicroRiscv.Lib.Stuttering
import MicroRiscv.Lib.Segment
import MicroRiscv.Lib.Crc
import MicroRiscv.Lib.ByteMemory
import MicroRiscv.Lib.Handshake
import MicroRiscv.Lib.Until
import MicroRiscv.Lib.Utf8
import MicroRiscv.Datapath
import MicroRiscv.Platform
import MicroRiscv.Divider
import MicroRiscv.SingleCycle
import MicroRiscv.Pipeline
import MicroRiscv.Isa
import MicroRiscv.Decoder
import MicroRiscv.Rv32i
import MicroRiscv.Finish
import MicroRiscv.PipelineSlots
import MicroRiscv.PipelineRefinement
import MicroRiscv.PipelineHalt
import MicroRiscv.Divu
import MicroRiscv.DivuRuns
import MicroRiscv.DivExtension
import MicroRiscv.Qsort
import MicroRiscv.QsortMain
import MicroRiscv.QsortTransformed
import MicroRiscv.FrameChecksum
import MicroRiscv.Encoding
import MicroRiscv.PipelineReset
import MicroRiscv.DividerProtocol
import MicroRiscv.DividerGates
import MicroRiscv.FrameBurst
import MicroRiscv.QsortMemory
import MicroRiscv.MemoryRefinement
import MicroRiscv.Stdin
import MicroRiscv.Machine
import MicroRiscv.Assembly
import MicroRiscv.AssemblyRules
import MicroRiscv.QsortAsm
import MicroRiscv.QsortAsmAgrees
import MicroRiscv.QsortAsmFrame
import MicroRiscv.ThreeStage
import MicroRiscv.ThreeStageRefinement
import MicroRiscv.TwoStage
import MicroRiscv.PipelineTiming
import MicroRiscv.MachineSimulation
import MicroRiscv.MachineRuns
import MicroRiscv.QsortAsmCores
import MicroRiscv.Json
import MicroRiscv.Lib.Fallible
import MicroRiscv.SwitchServer
import MicroRiscv.SwitchEntries
import MicroRiscv.SwitchTicks
import MicroRiscv.SwitchRollback
import MicroRiscv.Lib.DelayLine
import MicroRiscv.SwitchClient
import MicroRiscv.SwitchTransport
import MicroRiscv.SwitchWire
import MicroRiscv.SwitchSystem
import MicroRiscv.SwitchSessions
import MicroRiscv.SwitchDelivery
import MicroRiscv.JsonLexer
import MicroRiscv.JsonParser
import MicroRiscv.JsonSerializer
import MicroRiscv.JsonLexerBytes
import MicroRiscv.JsonSerializerBytes
import MicroRiscv.SwitchText
