import SpaceWasm.Designations
import SpaceWasm.EmptySection
import SpaceWasm.FlatCode
import SpaceWasm.GlobalWrites
import SpaceWasm.IndexSpaces
import SpaceWasm.IntegerInstr
import SpaceWasm.Integers
import SpaceWasm.Isolation
import SpaceWasm.JumpArithmetic
import SpaceWasm.LinearMemory
import SpaceWasm.MemoryMatching
import SpaceWasm.PageSafety
import SpaceWasm.PauseProtocol
import SpaceWasm.VectorBounds
