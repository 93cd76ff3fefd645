import Zvmone.State.Conservation
import Zvmone.State.GasBounds
import Zvmone.State.StaticCalls
import Zvmone.State.Rollback
import Zvmone.State.MptHash
import Zvmone.State.ShortNodes
import Zvmone.State.StateRoot
import Zvmone.State.PrecompileDispatch
import Zvmone.State.RlpItems
import Zvmone.Vm.ControlFlow
import Zvmone.Vm.AdvancedRuns
import Zvmone.State.FiniteTree
import Zvmone.Vm.Reuse
import Zvmone.Vm.JumpDestinations
import Zvmone.State.StorageGas
import Zvmone.State.BaseFee
import Zvmone.State.PrecompileBuffer
import Zvmone.State.Finalize
import Zvmone.State.BlockGas
import Zvmone.State.CopyInstructions
import Zvmone.State.DumpReading
import Zvmone.State.DeployedCode
import Zvmone.State.ReturnData
import Zvmone.State.Assertions
import Zvmone.State.AccessHistory
import Zvmone.Vm.LimbOperations
import Zvmone.State.BloomBits
import Zvmone.State.MptNodes
import Zvmone.State.NewAddresses
import Zvmone.Vm.PushValues
import Zvmone.Vm.GasOverflowRuns
import Zvmone.Vm.InterpretersAgree
import Zvmone.State.Journal
import Zvmone.Vm.FrameAuthority
import Zvmone.State.ExternalAccounts
import Zvmone.State.ListRoots
import Zvmone.State.InterchangeBlocks
import Zvmone.State.Traces
