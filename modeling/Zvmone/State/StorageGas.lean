import Zvmone.State.HostSteps
import Zvmone.Vm.InstructionsStorage

/-! # The gas metering of storage writes

A write to a storage slot costs the warm access and what it moves the potential `netStorageCost` of
the slot by. Over a sequence of writes the potentials telescope: what the sequence costs depends on
the original and the last value only (`storage_metering_path_independent`). -/

namespace Zvmone

open Host Zvmone.Core Instr

/-! ### The storage table -/

/-- The rows of the storage table for an original, a current and a new value. -/
def StorageStatus.Row : StorageStatus → Bytes32 → Bytes32 → Bytes32 → Prop
  -- `0 → 0 → Z`, `X → X → 0`, `X → X → Z`
  | .added, o, c, v => o = 0 ∧ c = 0 ∧ v ≠ 0
  | .deleted, o, c, v => o ≠ 0 ∧ c = o ∧ v = 0
  | .modified, o, c, v => o ≠ 0 ∧ c = o ∧ v ≠ 0 ∧ v ≠ o
  -- `X → 0 → Z`, `X → Y → 0`
  | .deletedAdded, o, c, v => o ≠ 0 ∧ c = 0 ∧ v ≠ 0 ∧ v ≠ o
  | .modifiedDeleted, o, c, v => o ≠ 0 ∧ c ≠ 0 ∧ c ≠ o ∧ v = 0
  -- `X → 0 → X`, `0 → Y → 0`, `X → Y → X`
  | .deletedRestored, o, c, v => o ≠ 0 ∧ c = 0 ∧ v = o
  | .addedDeleted, o, c, v => o = 0 ∧ c ≠ 0 ∧ v = 0
  | .modifiedRestored, o, c, v => o ≠ 0 ∧ c ≠ 0 ∧ c ≠ o ∧ v = o
  -- Nothing changes, or `0 → Y → Z`, `X → Y → Z`
  | .assigned, o, c, v => v = c ∨ c ≠ 0 ∧ c ≠ o ∧ v ≠ 0 ∧ v ≠ o

/-- A triple of values is in the row of its status. -/
theorem row_storageStatus (original current value : Bytes32) :
    (storageStatus current original value).Row original current value := by
  unfold storageStatus
  dsimp only
  split_ifs <;> simp only [StorageStatus.Row] <;> grind

/-- A triple of values in the row of a status gets it. -/
theorem StorageStatus.Row.storageStatus_eq {status : StorageStatus} {o c v : Bytes32}
    (h : status.Row o c v) : storageStatus c o v = status := by
  unfold storageStatus
  dsimp only
  cases status <;> simp only [Row] at h <;> split_ifs <;> grind

/-- Every triple of values gets the status of its row in the storage table, and no other. -/
theorem storageStatus_eq_iff {current original value : Bytes32} {status : StorageStatus} :
    storageStatus current original value = status ↔ status.Row original current value := by
  constructor
  · rintro rfl
    exact row_storageStatus original current value
  · exact StorageStatus.Row.storageStatus_eq

/-! ### The price of a write -/

/-- The warm gas cost of a storage write minus its refund. -/
def Core.StorageStoreCost.net (cost : StorageStoreCost) : Int := cost.gasCost - cost.gasRefund

/-- What it costs, apart from the accesses, that a slot has a value other than the original one. -/
def netStorageCost (original value : Bytes32) : Int :=
  if value = original then 0
  else if original = 0 then 19900
  else if value = 0 then -2000
  else 2800

/-- Writing the original value back costs nothing in the end. -/
@[simp] theorem netStorageCost_self (original : Bytes32) : netStorageCost original original = 0 :=
  if_pos rfl

/-- A write costs the warm access and the change of the potential. -/
theorem net_sstoreCosts (current original value : Bytes32) :
    (sstoreCosts (storageStatus current original value)).net
      = 100 + (netStorageCost original value - netStorageCost original current) := by
  have hrow := row_storageStatus original current value
  unfold netStorageCost
  cases hstatus : storageStatus current original value <;> rw [hstatus] at hrow <;>
    simp only [StorageStatus.Row] at hrow <;> simp only [StorageStoreCost.net, sstoreCosts,
      storageCostSpec, warmStorageReadCost, coldSloadCost] <;> grind

/-! ### Sequences of writes -/

/-- The account after a write to one slot. -/
def Account.write (acc : Account) (key value : Bytes32) : Account :=
  { acc with storage := acc.storage.insert key { acc.storage.slot key with current := value } }

/-- A slot after it was written. -/
@[simp] theorem Account.write_slot (acc : Account) (key value : Bytes32) :
    (acc.write key value).storage.slot key = { acc.storage.slot key with current := value } := by
  unfold write Storage.slot
  rw [AList.getD_insert, if_pos rfl]

/-- `set_storage` on an existing account. -/
theorem setStorage_of_find {hs : HostState} {addr : Address} {acc : Account}
    (hfind : hs.state.find addr = some acc) (key value : Bytes32) :
    setStorage addr key value hs =
      .ok (storageStatus (acc.storage.slot key).current (acc.storage.slot key).original value,
        setAcc hs addr (acc.write key value)) := by
  unfold setStorage
  rw [StateRun.bind_eq_ok]
  refine ⟨acc, hs, getAccount_eq_ok.2 ⟨hfind, rfl⟩, ?_⟩
  rw [StateRun.bind_eq_ok]
  exact ⟨(), _, setAccount_eq_ok.2 rfl, rfl⟩

/-- The total price of writes with the given statuses. -/
def totalNet (statuses : List StorageStatus) : Int :=
  (statuses.map fun status => (sstoreCosts status).net).sum

/-- The price of writing the values to the slot of an account, one after the other. -/
theorem setStorage_mapM {addr : Address} {key : Bytes32} (values : List Bytes32) {hs : HostState}
    {acc : Account} (hfind : hs.state.find addr = some acc) :
    ∃ statuses hs', values.mapM (setStorage addr key) hs = .ok (statuses, hs') ∧
      statuses.length = values.length ∧
      totalNet statuses = 100 * values.length
        + (netStorageCost (acc.storage.slot key).original
            (values.getLastD (acc.storage.slot key).current)
          - netStorageCost (acc.storage.slot key).original (acc.storage.slot key).current) := by
  induction values generalizing hs acc with
  | nil => exact ⟨[], hs, rfl, rfl, by simp [totalNet]⟩
  | cons value values ih =>
    have hrun := setStorage_of_find hfind key value
    obtain ⟨statuses, hs', hrest, hlength, htotal⟩ :=
      @ih (setAcc hs addr (acc.write key value)) _ (State.find_set_self ..)
    generalize hstatus : storageStatus _ _ _ = status at hrun
    refine ⟨status :: statuses, hs', ?_, congrArg (· + 1) hlength, ?_⟩
    · rw [List.mapM_cons, StateRun.bind_eq_ok]
      exact ⟨status, _, hrun, StateRun.bind_eq_ok.2 ⟨statuses, hs', hrest, rfl⟩⟩
    · -- The potential of the value between the first write and the others cancels.
      rw [totalNet, List.map_cons, List.sum_cons, ← hstatus, net_sstoreCosts, ← totalNet, htotal,
        Account.write_slot, List.getLastD_cons, List.length_cons]
      push_cast
      ring

/-- **Storage writes are metered independently of the path.** Writing `values` and then `last` to a
slot whose current value is the original one costs, over all statuses that `set_storage` returns,
the warm accesses and a price that depends on the original and the last value only; and every
status is the one of the storage table. -/
theorem storage_metering_path_independent {hs : HostState} {addr : Address} {acc : Account}
    {key : Bytes32} (hfind : hs.state.find addr = some acc)
    (hclean : (acc.storage.slot key).current = (acc.storage.slot key).original)
    (values : List Bytes32) (last : Bytes32) :
    (∃ statuses hs', (values ++ [last]).mapM (setStorage addr key) hs = .ok (statuses, hs') ∧
      statuses.length = values.length + 1 ∧
      totalNet statuses = 100 * (values.length + 1)
        + netStorageCost (acc.storage.slot key).original last) ∧
      ∀ original current value status,
        storageStatus current original value = status ↔ status.Row original current value := by
  refine ⟨?_, fun _ _ _ _ => storageStatus_eq_iff⟩
  obtain ⟨statuses, hs', hrun, hlength, htotal⟩ :=
    @setStorage_mapM addr key (values ++ [last]) hs acc hfind
  refine ⟨statuses, hs', hrun, by rw [hlength, List.length_append, List.length_singleton], ?_⟩
  rw [htotal, hclean, netStorageCost_self, List.getLastD_concat, List.length_append,
    List.length_singleton]
  push_cast
  ring

/-- The one account of the example below, with an empty storage. -/
def cleanAccounts : HostState := ⟨⟨(∅ : AList fun _ : Address => Account).insert 1 {}⟩, [], fun _ => ∅⟩

/-- The metering of two writes in a state of clean slots. -/
theorem storage_metering_path_independent_added :
    (∃ statuses hs', ([5] ++ [7]).mapM (setStorage 1 0) cleanAccounts = .ok (statuses, hs') ∧
      statuses.length = 2 ∧ totalNet statuses = 100 * 2 + 19900) ∧
      ∀ original current value status,
        storageStatus current original value = status ↔ status.Row original current value := by
  exact @storage_metering_path_independent cleanAccounts 1 {} 0 rfl rfl [5] 7

end Zvmone
