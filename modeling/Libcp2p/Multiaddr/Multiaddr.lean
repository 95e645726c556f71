import Libcp2p.Multiaddr.ProtoUtils

/-!
# Multiaddress objects

The object of `multiaddr.c` holds an address as text and as bytes. Here are its constructors, whose allocations succeed,
and the operations on an object, which are told which of their own allocations do. The pointers they are given are not
`NULL`, and an object that was freed is `none`.
-/

namespace Libcp2p

/-- `struct multi_address`: the text, and the `bsize` bytes. -/
structure MultiAddress where
  string : List UInt8
  bytes : List UInt8
  deriving DecidableEq, Repr

/-- `multi_address_new_from_bytes`. -/
def multiAddressNewFromBytes (byteaddress : List UInt8) : Except Fault (Option MultiAddress) := do
  match ← bytesToString byteaddress with
  | none => .ok none
  | some string => .ok (some ⟨string, byteaddress⟩)

/-- `multi_address_new_from_string`, which copies the text to a buffer of 800 characters. -/
def multiAddressNewFromString (straddress : List UInt8) : Except Fault (Option MultiAddress) := do
  let string ← strcpy 800 straddress
  match ← stringToBytes string with
  | none => .ok none
  | some bytes => .ok (some ⟨string, bytes⟩)

/-! ## Operations -/

/-- The bytes recomputed from a new text, with the value returned: the object is freed where there are none. -/
def updateBytes (string : List UInt8) : Except Fault (Int × Option MultiAddress) := do
  match ← stringToBytes string with
  | none => .ok (0, none)
  | some bytes => .ok (1, some ⟨string, bytes⟩)

/-- Which allocations of `multi_address_encapsulate` succeed. -/
structure EncapsulateAllocs where
  exstr : Bool
  string : Bool
  deriving DecidableEq, Repr

/-- `multi_address_encapsulate`: the value returned, and the object afterwards. -/
def multiAddressEncapsulate (result : MultiAddress) (string : List UInt8) (allocs : EncapsulateAllocs) :
    Except Fault (Int × Option MultiAddress) :=
  -- the old bytes are gone by now
  if !allocs.exstr then .ok (1, some ⟨result.string, []⟩)
  else do
    let exstrSize := if string.head? = some 47 then result.string.length + 1 else result.string.length
    let exstr ← strcpy exstrSize result.string
    if !allocs.string then .ok (0, none)
    else do
      let stringSize := string.length + exstr.length + 1
      let newString ← strcpy stringSize exstr
      let newString ← strcat stringSize newString (if string.head? = some 47 then string.drop 1 else string)
      updateBytes newString

/-- `multi_address_decapsulate`: the value returned, and the object afterwards. -/
def multiAddressDecapsulate (result : MultiAddress) (srci : List UInt8) : Except Fault (Int × Option MultiAddress) :=
  let procstr := result.string.map fun c => if c = 47 then 32 else c
  match strpos procstr srci with
  | none => .ok (0, some ⟨procstr, result.bytes⟩)
  | some pos => updateBytes ((procstr.take pos).map fun c => if c = 32 then 47 else c)

/-- Which allocations of `multi_address_copy` succeed. -/
structure CopyAllocs where
  out : Bool
  bytes : Bool
  string : Bool
  deriving DecidableEq, Repr

/-- `multi_address_copy`: the text of the copy, and its bytes unless these fields are never set. -/
def multiAddressCopy (ma : MultiAddress) (allocs : CopyAllocs) :
    Except Fault (Option (List UInt8 × Option (List UInt8))) :=
  if !allocs.out then .ok none
  else if 0 < ma.bytes.length then
    if !allocs.bytes then .ok none
    else if !allocs.string then .ok none
    else .ok (some (ma.string, some ma.bytes))
  else
    -- `bsize` is read before it was set
    if !allocs.string then .error .indeterminate
    else .ok (some (ma.string, none))

end Libcp2p
