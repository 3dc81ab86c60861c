import MachineCode.Names
import MachineCode.Proofs.Buffer
import MachineCode.Proofs.Displacement
import MachineCode.Session.Report
import MachineCode.Proofs.BranchWord
import MachineCode.Proofs.Ledger
import MachineCode.Proofs.Linking
import MachineCode.Proofs.X86Linking
import MachineCode.Proofs.A64Linking
import MachineCode.Proofs.Agreement
import MachineCode.Proofs.Serve
import MachineCode.Proofs.Run
import MachineCode.Proofs.X86Resolution
import MachineCode.Proofs.A64Resolution
import MachineCode.Proofs.A64Execution
import MachineCode.Proofs.Finalize
import MachineCode.Proofs.Atomicity
import MachineCode.Proofs.PoolLoad
import MachineCode.Proofs.Chains
import MachineCode.Proofs.A64Chains
import MachineCode.Proofs.X86Chains
import MachineCode.Proofs.Binding
import MachineCode.Proofs.CodeFrame
import MachineCode.Proofs.Assertions
import MachineCode.Proofs.Lockstep
import MachineCode.Proofs.Growth
import MachineCode.Proofs.A64Reach
import MachineCode.Proofs.BufferRefinement
import MachineCode.Proofs.Isolation
import MachineCode.Proofs.X86Decode
import MachineCode.Proofs.X86Program
import MachineCode.Proofs.X86Stream
import MachineCode.Proofs.Bitmask
import MachineCode.Proofs.A64Data
import MachineCode.Proofs.A64Transfer
import MachineCode.Proofs.A64Core
import MachineCode.Proofs.A64Constant
import MachineCode.Proofs.A64ConstantLength
import MachineCode.Proofs.AddressSpace
import MachineCode.Proofs.A64Loads
import MachineCode.Proofs.A64PoolWord
import MachineCode.Proofs.X86Execution
import MachineCode.Proofs.X86Immediate
import MachineCode.Proofs.X86Stack
import MachineCode.Proofs.A64Select
import MachineCode.Proofs.A64Holding
import MachineCode.Proofs.A64AddressUnits
import MachineCode.Proofs.RefusedLink
import MachineCode.Proofs.A64Shift
import MachineCode.Proofs.Truthful
import MachineCode.Proofs.Alignment
import MachineCode.Proofs.Reserve
import MachineCode.Proofs.Walk
