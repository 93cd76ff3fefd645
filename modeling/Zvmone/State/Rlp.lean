import Zvmone.Zvmc

/-! # RLP encoding

The encoders of `rlp.hpp`. The assertion of `encode_length` that a payload has at most `0xffffff`
bytes makes them partial: `none` stands for a failed assertion. -/

namespace Zvmone

namespace Rlp

/-- `internal::encode_length`. -/
def encodeLength (shortBase longBase : UInt8) (l : Nat) : Option Bytes :=
  if l > 0xffffff then none
  else
    let l0 := UInt8.ofNat l
    let l1 := UInt8.ofNat (l >>> 8)
    if l ≤ 55 then some [shortBase + l0]
    else if l ≤ 0xff then some [longBase + 1, l0]
    else if l ≤ 0xffff then some [longBase + 2, l1, l0]
    else some [longBase + 3, UInt8.ofNat (l >>> 16), l1, l0]

/-- `internal::wrap_list`. -/
def wrapList (content : Bytes) : Option Bytes :=
  (encodeLength 192 247 content.length).map (· ++ content)

/-- `trim`: remove the leading zero bytes. -/
def trim (b : Bytes) : Bytes := b.dropWhile (· = 0)

/-- `encode(bytes_view)`. -/
def encode (data : Bytes) : Option Bytes :=
  match data with
  | [b] => if b < 128 then some [b] else (encodeLength 128 183 1).map (· ++ data)
  | data => (encodeLength 128 183 data.length).map (· ++ data)

/-- `encode(uint64_t)`. -/
def encodeUInt64 (x : BitVec 64) : Option Bytes := encode (trim (BigEndian.store 8 x.toNat))

/-- `encode(const intx::uint256&)`. -/
def encodeWord (x : Word) : Option Bytes := encode (trim (BigEndian.store 32 x.toNat))

/-- `encode_tuple`: the encoded elements as a list. -/
def encodeTuple (elements : List (Option Bytes)) : Option Bytes :=
  elements.mapM id >>= fun es => wrapList es.flatten

/-- `internal::encode_container`. -/
def encodeContainer {α : Type} (encode : α → Option Bytes) (xs : List α) : Option Bytes :=
  encodeTuple (xs.map encode)

end Rlp

end Zvmone
