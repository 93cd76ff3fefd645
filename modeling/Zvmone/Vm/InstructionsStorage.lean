import Zvmone.Vm.Instructions

/-! # Storage instructions

`SLOAD` and `SSTORE` with the cost tables of `instructions_storage.cpp`. -/

namespace Zvmone

namespace Core

open InstrM Instr

/-- `StorageCostSpec`: the gas cost specification for storage instructions. -/
structure StorageCostSpec where
  warmAccess : Int
  set : Int
  reset : Int
  clear : Int

/-- `storage_cost_spec`: the net cost schedule. -/
def storageCostSpec : StorageCostSpec :=
  ⟨warmStorageReadCost, 20000, 5000 - coldSloadCost, 4800⟩

/-- `StorageStoreCost`. -/
structure StorageStoreCost where
  gasCost : Int
  gasRefund : Int

/-- `sstore_costs`: the cost and the refund of `SSTORE` by the storage status. -/
def sstoreCosts (status : StorageStatus) : StorageStoreCost :=
  let c := storageCostSpec
  match status with
  | .assigned => ⟨c.warmAccess, 0⟩
  | .added => ⟨c.set, 0⟩
  | .deleted => ⟨c.reset, c.clear⟩
  | .modified => ⟨c.reset, 0⟩
  | .deletedAdded => ⟨c.warmAccess, -c.clear⟩
  | .modifiedDeleted => ⟨c.warmAccess, c.clear⟩
  | .deletedRestored => ⟨c.warmAccess, c.reset - c.warmAccess - c.clear⟩
  | .addedDeleted => ⟨c.warmAccess, c.set - c.warmAccess⟩
  | .modifiedRestored => ⟨c.warmAccess, c.reset - c.warmAccess⟩

/-- `sload`: a cold slot costs more. -/
def sload : InstrM Unit := do
  let key ← top
  let recipient := (← state).msg.recipient
  if (← host (HostCall.accessStorage recipient key)) = AccessStatus.cold then
    charge (coldSloadCost - warmStorageReadCost)
  setTop (← host (HostCall.getStorage recipient key))

/-- `sstore`: the gas must exceed the stipend, the host tells the status that selects the costs. -/
def sstore : InstrM Unit := do
  if (← state).InStaticMode then
    exit .staticModeViolation
  if (← read fun c => c.gasLeft) ≤ 2300 then
    exit .outOfGas
  let key ← pop
  let value ← pop
  let recipient := (← state).msg.recipient
  let accessStatus ← host (HostCall.accessStorage recipient key)
  let gasCostCold := if accessStatus = AccessStatus.cold then coldSloadCost else 0
  let status ← host (HostCall.setStorage recipient key value)
  let cost := sstoreCosts status
  charge (cost.gasCost + gasCostCold)
  modifyState fun s => { s with gasRefund := s.gasRefund + cost.gasRefund }

end Core

end Zvmone
