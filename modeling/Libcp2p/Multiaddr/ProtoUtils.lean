import Libcp2p.Encoding.Base32Decode
import Libcp2p.Multiaddr.VarHex

/-!
# Multiaddresses as text and as bytes

The protocol table and the two conversions of `protoutils.c`: `stringToBytes` goes through the tokens of a text and
collects hexadecimal digits in a buffer of 800 characters, `bytesToString` goes through the digits of an array and
collects text in a buffer of 800 characters. Every buffer of fixed size has its size here, a write past it is a fault,
and so is a read past the digits and their NUL. Allocations succeed.
-/

namespace Libcp2p

/-! ## Protocols -/

/-- A protocol: its code, the size of its addresses in bits and its name. -/
structure Protocol where
  deccode : Nat
  size : Int
  name : List UInt8
  deriving DecidableEq, Repr

/-- The list that `load_protocols` makes. -/
def protocols : List Protocol :=
  [⟨4, 32, ascii ['i', 'p', '4']⟩, ⟨41, 128, ascii ['i', 'p', '6']⟩, ⟨6, 16, ascii ['t', 'c', 'p']⟩,
    ⟨17, 16, ascii ['u', 'd', 'p']⟩, ⟨33, 16, ascii ['d', 'c', 'c', 'p']⟩, ⟨132, 16, ascii ['s', 'c', 't', 'p']⟩,
    ⟨301, 0, ascii ['u', 'd', 't']⟩, ⟨302, 0, ascii ['u', 't', 'p']⟩, ⟨42, -1, ascii ['i', 'p', 'f', 's']⟩,
    ⟨480, 0, ascii ['h', 't', 't', 'p']⟩, ⟨443, 0, ascii ['h', 't', 't', 'p', 's']⟩, ⟨477, 0, ascii ['w', 's']⟩,
    ⟨444, 10, ascii ['o', 'n', 'i', 'o', 'n']⟩,
    ⟨275, 0, ascii ['l', 'i', 'b', 'p', '2', 'p', '-', 'w', 'e', 'b', 'r', 't', 'c', '-', 's', 't', 'a', 'r']⟩]

/-- `proto_with_name`. -/
def protoWithName (name : List UInt8) : Option Protocol := protocols.find? fun p => name = p.name

/-- `proto_with_deccode`. -/
def protoWithDeccode (deccode : Nat) : Option Protocol := protocols.find? fun p => p.deccode = deccode

/-! ## Addresses -/

/-- `valid_digit`. -/
def validDigit (s : List UInt8) : Bool := s.all fun c => 48 ≤ c && c ≤ 57

/-- The loop of `is_valid_ipv4` over the tokens that are left. A token whose number is out of range is looked at again
and again. -/
def isValidIpv4Loop : (ptr : List (List UInt8)) → (dots : Nat) → (err : Bool) → Except Fault Bool
  | [], dots, err => .ok (!err && dots = 3)
  | ptr :: rest, dots, err =>
    if 0 ≤ atoi ptr ∧ atoi ptr ≤ 255 then
      isValidIpv4Loop rest (if rest = [] then dots else dots + 1) (err || !validDigit ptr)
    else .error .diverge

/-- `is_valid_ipv4`. -/
def isValidIpv4 (s : List UInt8) : Except Fault Bool :=
  isValidIpv4Loop (tokens 46 s) 0 (tokens 46 s).isEmpty

/-- The number `ip2int` makes of four tokens; it reads the one that is missing through a null pointer. -/
def ip2int (s : List UInt8) : Except Fault Nat := do
  let ip ← strcpy 16 s
  match tokens 46 ip with
  | t1 :: t2 :: t3 :: t4 :: _ =>
    let result := atoi t1 * 2 ^ 24 + atoi t2 * 2 ^ 16 + atoi t3 * 2 ^ 8 + atoi t4
    if 0 ≤ result then .ok result.toNat else .error .conversion
  | _ => .error .outOfBounds

/-- `int2ip`, whose four numbers always fit in its 16 characters. -/
def int2ip (inputintip : Nat) : List UInt8 :=
  decimal (inputintip / 2 ^ 24 % 256) ++ 46 :: (decimal (inputintip / 2 ^ 16 % 256) ++
    46 :: (decimal (inputintip / 2 ^ 8 % 256) ++ 46 :: decimal (inputintip % 256)))

/-- Zeros in front of the two or three digits of a port. -/
def padPort : List UInt8 → List UInt8
  | [c0, c1] => [48, 48, c0, c1]
  | [c0, c1, c2] => [48, c0, c1, c2]
  | woot => woot

/-- The ports of `address_string_to_bytes`, for tcp and for udp. -/
def portToBytes (incoming : List UInt8) : Except Fault (Option (List UInt8 × Nat)) :=
  if atoi incoming < 65536 ∧ 0 < atoi incoming then do
    let woot ← strcpy 5 (intToHex (atoi incoming).toNat)
    .ok (some (padPort woot, 5))
  else .ok none

/-- The peer ids of `address_string_to_bytes`: the bytes of the base32 text as digits, after a prefix with their
number. -/
def ipfsToBytes (incoming : List UInt8) : Except Fault (Option (List UInt8 × Nat)) :=
  match libp2pEncodingBase32Decode incoming
      (List.replicate (libp2pEncodingBase32DecodeSize incoming.length) 0) with
  | none => .ok none
  | some (result, resultLength) => do
    let addrEncoded ← strcpy 300 (hexLowerText (result.take resultLength))
    let prefixed ← strcpy 3 (numToHexVar32 addrEncoded.length)
    .ok (some (prefixed ++ addrEncoded, addrEncoded.length + 3))

/-- `address_string_to_bytes`: the string it writes to `results` and `*results_size`, or nothing where it returns 1. -/
def addressStringToBytes (protocol : Protocol) (incoming : List UInt8) :
    Except Fault (Option (List UInt8 × Nat)) :=
  match protocol.deccode with
  | 4 => do
    let testip ← strcpy 16 incoming
    let valid ← isValidIpv4 testip
    if valid then do
      let iip ← ip2int incoming
      let stringy ← strcpy 800 (intToHex iip)
      .ok (some (stringy, stringy.length))
    else .ok none
  | 6 => portToBytes incoming
  | 17 => portToBytes incoming
  | 42 => ipfsToBytes incoming
  | _ => .ok none

/-! ## From text to bytes -/

/-- The loop of `string_to_bytes` over the tokens that are left, `protx` being the protocol whose address is next:
`processed` and `malf` afterwards. -/
def stringToBytesLoop : (wp : List (List UInt8)) → (protx : Option Protocol) → (processed : List UInt8) →
    (malf : Bool) → Except Fault (List UInt8 × Bool)
  | [], _, processed, malf => .ok (processed, malf)
  | wp :: rest, none, processed, malf =>
    match protoWithName wp with
    | none => .ok (processed, true)
    | some protx => do
      let processed ← strcat 800 processed (intToHex protx.deccode)
      stringToBytesLoop rest (some protx) processed malf
  | wp :: rest, some protx, processed, malf => do
    match ← addressStringToBytes protx wp with
    | none => stringToBytesLoop rest none processed true
    | some (stob, stobSize) => do
      let appended ← strcat 800 processed (stob.take stobSize)
      -- the NUL is written once more, after the size that was reported
      if processed.length + stobSize < 800 then stringToBytesLoop rest none appended malf
      else .error .outOfBounds

/-- `string_to_bytes`: the bytes, or nothing where it returns 0. -/
def stringToBytes (strx : List UInt8) : Except Fault (Option (List UInt8)) :=
  if strx.head? ≠ some 47 then .ok none
  else do
    let (processed, malf) ← stringToBytesLoop (tokens 47 strx) none [] false
    if malf then .ok none
    else do
      let finalbytes ← hexToVar processed
      .ok (some finalbytes)

/-! ## From bytes to text -/

/-- The text of an address, from its digits. Only ip4, tcp and udp have one. -/
def addressText (name address : List UInt8) : Except Fault (List UInt8) :=
  if name = ascii ['i', 'p', '4'] then .ok (int2ip (hexToInt address))
  else if name = ascii ['t', 'c', 'p'] then strcpy 5 (decimal (hexToInt address))
  else if name = ascii ['u', 'd', 'p'] then strcpy 5 (decimal (hexToInt address))
  else .ok []

/-- The text of a peer id, from the digits after its code, or nothing where it cannot be encoded. -/
def ipfsText (digits : List UInt8) : Except Fault (Option (List UInt8)) := do
  let prefixedvarint ← readBytes (digits ++ [0]) 2
  let addrsize := hexVarToNum32 prefixedvarint
  let ipfsAddr ← readBytes ((digits ++ [0]).drop 2) addrsize
  let addrbuf ← hexToVar (cstr ipfsAddr)
  match ← libp2pEncodingBase32Encode addrbuf (cstr ipfsAddr).length with
  | none => .ok none
  | some (b32, _) => do
    let text ← cString b32
    .ok (some text)

/-- `strcat(buffer, "/")` before `bytes_to_string` returns 1. -/
def closeString (buffer : List UInt8) : Except Fault (Option (List UInt8)) := do
  let buffer ← strcat 800 buffer [47]
  .ok (some buffer)

/-- The loop of `bytes_to_string` at the digits `hex` that are left, with the text `buffer` so far. -/
def bytesToStringLoop : (fuel : Nat) → (hex buffer : List UInt8) → Except Fault (Option (List UInt8))
  | 0, _, _ => .error .diverge
  | fuel + 1, hex, buffer => do
    let pid ← readBytes (hex ++ [0]) 2
    match protoWithDeccode (hexToInt (cstr pid)) with
    | none => closeString buffer
    | some protocol =>
      if protocol.name ≠ ascii ['i', 'p', 'f', 's'] then do
        let addressSize := (protocol.size / 4).toNat
        let address ← readBytes (hex.drop 2 ++ [0]) addressSize
        let buffer ← strcat 800 buffer (47 :: (protocol.name ++ [47]))
        let text ← addressText protocol.name (cstr address)
        let buffer ← strcat 800 buffer text
        let rest := hex.drop (2 + addressSize)
        if rest ≠ [] then bytesToStringLoop fuel rest buffer else closeString buffer
      else do
        match ← ipfsText (hex.drop 2) with
        | none => .ok none
        | some text => do
          let buffer ← strcat 800 buffer (47 :: (protocol.name ++ [47]))
          let buffer ← strcat 800 buffer text
          closeString buffer

/-- `bytes_to_string`: the text it leaves in a buffer of 800 characters that held the empty string, or nothing where it
returns 0. -/
def bytesToString (inBytes : List UInt8) : Except Fault (Option (List UInt8)) :=
  bytesToStringLoop (inBytes.length + 1) (varToHex inBytes) []

end Libcp2p
