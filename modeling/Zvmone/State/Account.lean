import Zvmone.Library.AssocList
import Zvmone.Zvmc

/-! # Accounts and the state

`StorageValue`, `Account` and the account map `State` of the state library. The unordered maps are
association lists with distinct keys, in any order. A reference to an account is modelled by its
address: assignments through it write the account back with `State.set`. -/

namespace Zvmone

/-- `StorageValue`: the representation of the account storage value. -/
structure StorageValue where
  current : Bytes32 := 0
  original : Bytes32 := 0
  accessStatus : AccessStatus := .cold
  deriving DecidableEq, Repr

/-- The account storage map. -/
abbrev Storage := AList fun _ : Bytes32 => StorageValue

/-- `storage[key]`: an absent key stands for the default value. -/
def Storage.slot (storage : Storage) (key : Bytes32) : StorageValue := storage.getD key {}

/-- `Account`. -/
structure Account where
  nonce : BitVec 64 := 0
  balance : Word := 0
  storage : Storage := ∅
  code : Bytes := []
  destructed : Bool := false
  erasable : Bool := false
  accessStatus : AccessStatus := .cold
  deriving DecidableEq

namespace Account

/-- `NonceMax`: the maximum allowed nonce value. -/
def nonceMax : BitVec 64 := BitVec.allOnes 64

/-- `is_empty`. -/
def IsEmpty (acc : Account) : Prop := acc.code = [] ∧ acc.nonce = 0 ∧ acc.balance = 0

instance (acc : Account) : Decidable acc.IsEmpty := inferInstanceAs (Decidable (_ ∧ _ ∧ _))

end Account

/-- `State`: the account map. -/
structure State where
  accounts : AList fun _ : Address => Account
  deriving DecidableEq

namespace State

/-- `find`: the account at the address if it exists. -/
def find (s : State) (addr : Address) : Option Account := s.accounts.lookup addr

/-- `get`: the account must exist. -/
def get (s : State) (addr : Address) : Except Fault Account :=
  match s.find addr with
  | some acc => .ok acc
  | none => .error .assertion

/-- Write an account back. -/
def set (s : State) (addr : Address) (acc : Account) : State := ⟨s.accounts.insert addr acc⟩

/-- `insert`: there must not exist any account under the address before. -/
def insert (s : State) (addr : Address) (acc : Account := {}) : Except Fault State :=
  match s.find addr with
  | some _ => .error .assertion
  | none => .ok (s.set addr acc)

/-- `get_or_insert`: an existing account or the inserted new one. -/
def getOrInsert (s : State) (addr : Address) (account : Account := {}) : Account × State :=
  match s.find addr with
  | some acc => (acc, s)
  | none => (account, s.set addr account)

/-- `touch`: mark an existing account as erasable or insert a new erasable account. -/
def touch (s : State) (addr : Address) : Account × State :=
  let (acc, s) := s.getOrInsert addr
  let acc := { acc with erasable := true }
  (acc, s.set addr acc)

/-- Reading after an account was written. -/
theorem find_set (s : State) (addr a : Address) (acc : Account) :
    (s.set addr acc).find a = if a = addr then some acc else s.find a :=
  AList.lookup_insert_eq_ite ..

/-- Reading the account that was written. -/
@[simp] theorem find_set_self (s : State) (addr : Address) (acc : Account) :
    (s.set addr acc).find addr = some acc := by
  rw [find_set, if_pos rfl]

/-- Reading another account. -/
theorem find_set_of_ne (s : State) {addr a : Address} (h : a ≠ addr) (acc : Account) :
    (s.set addr acc).find a = s.find a := by
  rw [find_set, if_neg h]

/-- The last account that is written counts. -/
@[simp] theorem set_set (s : State) (addr : Address) (acc acc' : Account) :
    (s.set addr acc).set addr acc' = s.set addr acc' := by
  simp [set, AList.insert_insert]

/-- `get_or_insert` returns an account that is there. -/
theorem getOrInsert_of_find {s : State} {addr : Address} {acc : Account}
    (h : s.find addr = some acc) (account : Account) : s.getOrInsert addr account = (acc, s) := by
  simp only [getOrInsert, h]

/-- `get_or_insert` inserts an account that is absent. -/
theorem getOrInsert_of_absent {s : State} {addr : Address} (h : s.find addr = none)
    (account : Account) : s.getOrInsert addr account = (account, s.set addr account) := by
  simp only [getOrInsert, h]

/-- Touching is marking the account, or the default one, as erasable. -/
theorem touch_eq (s : State) (addr : Address) :
    s.touch addr = ({ (s.find addr).getD {} with erasable := true },
      s.set addr { (s.find addr).getD {} with erasable := true }) := by
  unfold touch
  cases h : s.find addr with
  | some acc => simp [getOrInsert_of_find h]
  | none => simp [getOrInsert_of_absent h]

end State

end Zvmone
