import Libcp2p.Multiaddr.Multiaddr

/-!
# Texts of any kind

What `stringToBytes` does on a text that need not be an address. The loop goes through pairs of a protocol and the token
after it until it comes to a protocol it does not know. Each address is too long for a buffer, or has a number that
`is_valid_ipv4` never gets past, or is rejected, or is converted to digits (`addressStringToBytes_eq`).

* `visited`: the protocols the loop comes to, up to an address that it never gets past.
* `stringToBytes_eq`: the result, from what is visited.
* `multiAddressNewFromString_returns_iff`: exactly the texts on which `multi_address_new_from_string` returns.
* `multiAddressNewFromString_inBounds_iff`: exactly the texts on which it stays inside its buffers.
-/

namespace Libcp2p

/-! ## Addresses -/

/-- The bytes of a base32 text. -/
def base32Value (text : List UInt8) : Option (List UInt8) := base32DecodeCtx text text.length

/-- The number of a token is that of an octet. -/
def OctetRange (t : List UInt8) : Prop := 0 ≤ atoi t ∧ atoi t ≤ 255

instance (t : List UInt8) : Decidable (OctetRange t) := inferInstanceAs (Decidable (_ ∧ _))

/-- A token of an ip4 address: digits, of a number in range. -/
def octet (t : List UInt8) : Bool := validDigit t && decide (OctetRange t)

/-- The number of an ip4 address, whose tokens may be separated by any number of dots. -/
def quadValue (address : List UInt8) : Option Nat :=
  match tokens 46 address with
  | [t1, t2, t3, t4] =>
    if octet t1 && octet t2 && octet t3 && octet t4 then
      some (atoi t1 * 2 ^ 24 + atoi t2 * 2 ^ 16 + atoi t3 * 2 ^ 8 + atoi t4).toNat
    else none
  | _ => none

/-- The digits of an address, if it has any: what `address_string_to_bytes` writes where its buffers are large
enough. -/
def addressHex (protocol : Protocol) (address : List UInt8) : Option (List UInt8) :=
  match protocol.deccode with
  | 4 => (quadValue address).map intToHex
  | 6 => if 0 < atoi address ∧ atoi address < 65536 then some (hexUpperText (beBytes 2 (atoi address).toNat)) else none
  | 17 => if 0 < atoi address ∧ atoi address < 65536 then some (hexUpperText (beBytes 2 (atoi address).toNat)) else none
  | 42 => (base32Value address).map fun d => numToHexVar32 (2 * d.length) ++ hexLowerText d
  | _ => none

/-- An address that does not fit in a buffer: an ip4 address of 16 characters or more, a peer id of 150 bytes or
more. -/
def Overlong (protocol : Protocol) (address : List UInt8) : Prop :=
  (protocol.deccode = 4 ∧ 16 ≤ address.length) ∨
    (protocol.deccode = 42 ∧ ∃ d, base32Value address = some d ∧ 150 ≤ d.length)

instance (protocol : Protocol) (address : List UInt8) : Decidable (Overlong protocol address) :=
  inferInstanceAs (Decidable (_ ∨ _))

/-- An ip4 address with a number that is out of range, at which `is_valid_ipv4` stays for ever. -/
def Endless (protocol : Protocol) (address : List UInt8) : Prop :=
  protocol.deccode = 4 ∧ ∃ t ∈ tokens 46 address, ¬ OctetRange t

instance (protocol : Protocol) (address : List UInt8) : Decidable (Endless protocol address) :=
  inferInstanceAs (Decidable (_ ∧ _))

section Ip4

variable {address : List UInt8}

/-- The loop of `is_valid_ipv4` over any tokens. -/
theorem isValidIpv4Loop_eq (ts : List (List UInt8)) (dots : Nat) (err : Bool) :
    isValidIpv4Loop ts dots err =
      if ∀ t ∈ ts, OctetRange t then .ok (!err && ts.all validDigit && decide (dots + (ts.length - 1) = 3))
      else .error .diverge := by
  induction ts generalizing dots err with
  | nil => simp [isValidIpv4Loop]
  | cons t ts ih =>
    rw [isValidIpv4Loop, ih]
    change (if OctetRange t then _ else _) = _
    by_cases ht : OctetRange t
    · by_cases hts : ∀ t ∈ ts, OctetRange t
      · rw [if_pos ht, if_pos hts, if_pos (List.forall_mem_cons.mpr ⟨ht, hts⟩)]
        cases ts with
        | nil => simp
        | cons t' ts =>
          have hdots : dots + 1 + ts.length = dots + (ts.length + 1) := by omega
          simp [hdots, Bool.and_assoc]
      · rw [if_pos ht, if_neg hts, if_neg fun h => hts (List.forall_mem_cons.mp h).2]
    · rw [if_neg ht, if_neg fun h => ht (List.forall_mem_cons.mp h).1]

/-- An address whose numbers are in range is valid exactly when it has four tokens of digits. -/
theorem isValidIpv4_eq (h : ∀ t ∈ tokens 46 address, OctetRange t) :
    isValidIpv4 address = .ok (quadValue address).isSome := by
  rw [isValidIpv4, isValidIpv4Loop_eq, if_pos h, quadValue]
  generalize tokens 46 address = ts at h
  rcases ts with _ | ⟨t1, _ | ⟨t2, _ | ⟨t3, _ | ⟨t4, _ | ⟨t5, ts⟩⟩⟩⟩⟩
  · rfl
  · simp
  · simp
  · simp
  · simp only [List.forall_mem_cons] at h
    obtain ⟨h1, h2, h3, h4, -⟩ := h
    have hvalid : (octet t1 && octet t2 && octet t3 && octet t4) = [t1, t2, t3, t4].all validDigit := by
      simp [octet, h1, h2, h3, h4, Bool.and_assoc]
    dsimp only
    rw [hvalid]
    cases [t1, t2, t3, t4].all validDigit <;> rfl
  · simp

/-- A valid address is converted to its number. -/
theorem ip2int_eq {n : Nat} (hlen : address.length < 16) (h : quadValue address = some n) : ip2int address = .ok n := by
  rw [quadValue] at h
  rw [ip2int, strcpy_ok hlen, ok_bind]
  split at h
  · rename_i t1 t2 t3 t4 ht
    split at h
    · rename_i hoctets
      simp only [octet, Bool.and_eq_true, decide_eq_true_eq] at hoctets
      obtain ⟨⟨⟨⟨-, h1⟩, -, h2⟩, -, h3⟩, -, h4⟩ := hoctets
      have hnonneg : 0 ≤ atoi t1 * 2 ^ 24 + atoi t2 * 2 ^ 16 + atoi t3 * 2 ^ 8 + atoi t4 := by
        unfold OctetRange at h1 h2 h3 h4
        omega
      cases h
      simp only [ht, if_pos hnonneg]
    · cases h
  · cases h

end Ip4

section Base32

variable {text d : List UInt8}

theorem base32Value_eq_some : base32Value text = some d ↔ Base32Groups text d := by
  rw [base32Value, base32DecodeCtx_eq_some]
  constructor
  · rintro ⟨d', hd, rfl⟩
    have hle := hd.length_le
    rwa [List.take_of_length_le (by omega)]
  · intro h
    have hle := h.length_le
    exact ⟨d, h, (List.take_of_length_le (by omega)).symm⟩

/-- The decoder is given room for every text. -/
theorem libp2pEncodingBase32Decode_eq (text : List UInt8) :
    libp2pEncodingBase32Decode text (List.replicate (libp2pEncodingBase32DecodeSize text.length) 0) =
      (base32Value text).map fun d =>
        (overlay (List.replicate (libp2pEncodingBase32DecodeSize text.length) 0) d, d.length) := by
  have hctx : base32DecodeCtx text (libp2pEncodingBase32DecodeSize text.length) = base32Value text := by
    apply Option.ext
    intro d
    rw [base32Value_eq_some, base32DecodeCtx_eq_some]
    constructor
    · rintro ⟨d', hd, rfl⟩
      have hle := hd.length_le
      rwa [List.take_of_length_le (by unfold libp2pEncodingBase32DecodeSize; omega)]
    · intro h
      have hle := h.length_le
      exact ⟨d, h, (List.take_of_length_le (by unfold libp2pEncodingBase32DecodeSize; omega)).symm⟩
  rw [libp2pEncodingBase32Decode, List.length_replicate, hctx]
  cases base32Value text <;> rfl

end Base32

/-- A number is written as bytes. -/
theorem intToHex_encodes (n : Nat) : ∃ w, Base16Encodes (intToHex n) w := by
  obtain ⟨bytes, -, h⟩ := intToHex_shortest n
  rw [h]
  exact ⟨bytes, hexUpperText_encodes bytes⟩

/-- A number of at most `k + 1` bytes has at most twice as many digits. -/
theorem length_intToHex_le {k n : Nat} (h : n < 256 ^ (k + 1)) : (intToHex n).length ≤ 2 * (k + 1) := by
  have hdigits : (numeral hexUpper 16 n).length ≤ 2 * (k + 1) :=
    length_numeral_le (by decide) (by omega) (show n < 16 ^ (2 * (k + 1)) by rwa [Nat.pow_mul])
  rw [intToHex_eq_pad]
  split
  · rw [List.length_cons]
    omega
  · exact hdigits

theorem length_numToHexVar32 (n : Nat) : (numToHexVar32 n).length = 2 := by
  rw [numToHexVar32_eq, hexUpperText, length_hexText]
  rfl

/-! ## One address -/

section Address

variable (protocol : Protocol) (address : List UInt8)

theorem quadValue_lt {n : Nat} (h : quadValue address = some n) : n < 2 ^ 32 := by
  rw [quadValue] at h
  split at h
  · split at h
    · rename_i hoctets
      simp only [octet, Bool.and_eq_true, decide_eq_true_eq] at hoctets
      unfold OctetRange at hoctets
      cases h
      omega
    · cases h
  · cases h

/-- The digits of an ip4 address. -/
theorem ip4ToBytes_eq (h : protocol.deccode = 4) :
    addressStringToBytes protocol address =
      if 16 ≤ address.length then .error .outOfBounds
      else if ∃ t ∈ tokens 46 address, ¬ OctetRange t then .error .diverge
      else .ok ((quadValue address).map fun n => (intToHex n, (intToHex n).length)) := by
  rw [addressStringToBytes, h]
  by_cases hlen : 16 ≤ address.length
  · rw [strcpy, if_neg (by omega), if_pos hlen]
    rfl
  · rw [if_neg hlen, strcpy_ok (by omega), ok_bind]
    by_cases hrange : ∃ t ∈ tokens 46 address, ¬ OctetRange t
    · rw [if_pos hrange, isValidIpv4, isValidIpv4Loop_eq, if_neg (by simpa using hrange), error_bind]
      rfl
    · rw [if_neg hrange, isValidIpv4_eq (by simpa using hrange), ok_bind]
      cases hq : quadValue address with
      | none => rfl
      | some n =>
        have hfits : (intToHex n).length < 800 := by
          have hle := length_intToHex_le (k := 3) (quadValue_lt address hq)
          omega
        rw [Option.isSome_some, if_pos rfl, ip2int_eq (by omega) hq, ok_bind, strcpy_ok hfits, ok_bind]
        rfl

/-- The digits of a port. -/
theorem portToBytes_eq :
    portToBytes address =
      if 0 < atoi address ∧ atoi address < 65536 then .ok (some (hexUpperText (beBytes 2 (atoi address).toNat), 5))
      else .ok none := by
  by_cases h : 0 < atoi address ∧ atoi address < 65536
  · rw [if_pos h, portToBytes, if_pos (by omega)]
    generalize hport : (atoi address).toNat = port
    have hlt : port < 65536 := by omega
    rw [strcpy_ok (Nat.lt_succ_of_le (length_intToHex_le (k := 1) hlt)), ok_bind]
    congr 3
    by_cases hone : port < 256
    · have hbytes : beBytes 2 port = [0] ++ [UInt8.ofNat port] := by
        simp [beBytes, Nat.div_eq_of_lt hone]
      rw [intToHex_eq (.inl rfl) hone, show beBytes (0 + 1) port = [UInt8.ofNat port] from rfl, hexUpperText_ofNat,
        hbytes, hexUpperText, hexText_append, ← hexUpperText, hexUpperText_ofNat]
      rfl
    · rw [intToHex_eq (k := 1) (.inr (by omega)) (show port < 256 ^ 2 from hlt)]
      rfl
  · rw [if_neg h, portToBytes, if_neg (by omega)]

/-- The digits of a peer id, after a prefix with their number. -/
theorem ipfsToBytes_eq :
    ipfsToBytes address =
      if ∃ d, base32Value address = some d ∧ 150 ≤ d.length then .error .outOfBounds
      else .ok ((base32Value address).map fun d =>
        (numToHexVar32 (2 * d.length) ++ hexLowerText d, 2 * d.length + 3)) := by
  rw [ipfsToBytes, libp2pEncodingBase32Decode_eq]
  cases hd : base32Value address with
  | none => simp
  | some d =>
    simp only [Option.map_some, Option.some.injEq, exists_eq_left', take_overlay]
    by_cases hlen : 150 ≤ d.length
    · rw [if_pos hlen, strcpy, if_neg (by rw [length_hexLowerText]; omega), error_bind]
    · rw [if_neg hlen, strcpy_ok (by rw [length_hexLowerText]; omega), ok_bind, length_hexLowerText,
        strcpy_ok (by rw [length_numToHexVar32]; decide), ok_bind]

/-- **One address**: too long, never left, or converted to digits if it has any. -/
theorem addressStringToBytes_eq :
    addressStringToBytes protocol address =
      if Overlong protocol address then .error .outOfBounds
      else if Endless protocol address then .error .diverge
      else .ok ((addressHex protocol address).map fun hex =>
        (hex, if protocol.deccode = 4 then hex.length else hex.length + 1)) := by
  by_cases h4 : protocol.deccode = 4
  · rw [ip4ToBytes_eq protocol address h4]
    simp [Overlong, Endless, addressHex, h4, Function.comp_def]
  · have hendless : ¬ Endless protocol address := fun h => h4 h.1
    by_cases h42 : protocol.deccode = 42
    · have hsize (d : List UInt8) : (numToHexVar32 (2 * d.length) ++ hexLowerText d).length + 1 = 2 * d.length + 3 := by
        rw [List.length_append, length_numToHexVar32, length_hexLowerText]
        omega
      rw [addressStringToBytes, h42, if_neg hendless]
      refine (ipfsToBytes_eq address).trans ?_
      simp only [Overlong, addressHex, h42, Option.map_map, Function.comp_def, hsize]
      simp
    · have hshort : ¬ Overlong protocol address := by
        rintro (⟨h, -⟩ | ⟨h, -⟩)
        · exact h4 h
        · exact h42 h
      rw [if_neg hshort, if_neg hendless]
      simp only [h4, if_false]
      have hport (hhex : addressHex protocol address = if 0 < atoi address ∧ atoi address < 65536 then
          some (hexUpperText (beBytes 2 (atoi address).toNat)) else none) :
          portToBytes address = .ok ((addressHex protocol address).map fun hex => (hex, hex.length + 1)) := by
        rw [portToBytes_eq, hhex]
        split
        · simp [hexUpperText, length_hexText]
        · rfl
      by_cases h6 : protocol.deccode = 6
      · rw [addressStringToBytes, h6]
        exact hport (by rw [addressHex, h6]; rfl)
      · by_cases h17 : protocol.deccode = 17
        · rw [addressStringToBytes, h17]
          exact hport (by rw [addressHex, h17]; rfl)
        · simp [addressStringToBytes, addressHex]

theorem addressHex_encodes {hex : List UInt8} (h : addressHex protocol address = some hex) :
    ∃ w, Base16Encodes hex w := by
  unfold addressHex at h
  split at h
  · obtain ⟨n, -, rfl⟩ := Option.map_eq_some_iff.mp h
    exact intToHex_encodes n
  · split at h
    · cases h
      exact ⟨_, hexUpperText_encodes _⟩
    · cases h
  · split at h
    · cases h
      exact ⟨_, hexUpperText_encodes _⟩
    · cases h
  · obtain ⟨d, -, rfl⟩ := Option.map_eq_some_iff.mp h
    rw [numToHexVar32_eq]
    exact ⟨_, (hexUpperText_encodes _).append (hexLowerText_encodes d)⟩
  · cases h

theorem addressHex_of_endless (h : Endless protocol address) : addressHex protocol address = none := by
  obtain ⟨h4, t, ht, hrange⟩ := h
  rw [addressHex, h4]
  apply Option.map_eq_none_iff.mpr
  rw [quadValue]
  split
  · rename_i t1 t2 t3 t4 htokens
    rw [htokens] at ht
    apply if_neg
    simp only [octet, Bool.and_eq_true, decide_eq_true_eq]
    simp only [List.mem_cons, List.not_mem_nil, or_false] at ht
    rintro ⟨⟨⟨⟨-, h1⟩, -, h2⟩, -, h3⟩, -, h4⟩
    rcases ht with rfl | rfl | rfl | rfl <;> contradiction
  · rfl

end Address

/-! ## Sequences of tokens -/

/-- A protocol that the loop of `string_to_bytes` comes to, and the token after it. -/
structure Visit where
  protocol : Protocol
  address : Option (List UInt8)
  deriving DecidableEq, Repr

namespace Visit

/-- The address is too long for a buffer. -/
def Overlong (v : Visit) : Prop := ∃ a, v.address = some a ∧ Libcp2p.Overlong v.protocol a

/-- The address is never left. -/
def Endless (v : Visit) : Prop := ∃ a, v.address = some a ∧ Libcp2p.Endless v.protocol a

instance : DecidablePred Overlong := fun v => inferInstanceAs (Decidable (∃ a, v.address = some a ∧ _))

instance : DecidablePred Endless := fun v => inferInstanceAs (Decidable (∃ a, v.address = some a ∧ _))

/-- The digits of a code and of the address after it, if that has any. -/
def hex (v : Visit) : List UInt8 := intToHex v.protocol.deccode ++ (v.address.bind (addressHex v.protocol)).getD []

end Visit

/-- What the loop comes to: protocols with the token after them, up to a name it does not know or an address it never
leaves. -/
def visited : List (List UInt8) → List Visit
  | [] => []
  | [name] => match protoWithName name with
    | none => []
    | some protocol => [⟨protocol, none⟩]
  | name :: address :: rest => match protoWithName name with
    | none => []
    | some protocol => ⟨protocol, some address⟩ :: if Endless protocol address then [] else visited rest

/-- The digits of everything visited. -/
def visitedHex (ts : List (List UInt8)) : List UInt8 := (visited ts).flatMap Visit.hex

/-- Pairs of a known protocol and an address that has digits; a protocol may be left over at the end. -/
def pairsAdmitted : List (List UInt8) → Bool
  | [] => true
  | [name] => (protoWithName name).isSome
  | name :: address :: rest => match protoWithName name with
    | none => false
    | some protocol => (addressHex protocol address).isSome && pairsAdmitted rest

section Loop

variable {processed done : List UInt8}

/-- The digits of an address, and at most two for the code of its protocol. -/
theorem Visit.length_hex_le {protocol : Protocol} {address hex : List UInt8} (hcode : protocol.deccode < 256)
    (hhex : addressHex protocol address = some hex) : (Visit.hex ⟨protocol, some address⟩).length ≤ 2 + hex.length := by
  rw [Visit.hex, Option.bind_some, hhex, Option.getD_some, List.length_append]
  exact Nat.add_le_add_right (length_intToHex_le (k := 0) hcode) _

theorem Visit.hex_encodes (v : Visit) : ∃ w, Base16Encodes v.hex w := by
  obtain ⟨code, hcode⟩ := intToHex_encodes v.protocol.deccode
  cases h : v.address.bind (addressHex v.protocol) with
  | none => exact ⟨code, by simpa [Visit.hex, h] using hcode⟩
  | some hex =>
    obtain ⟨a, -, ha⟩ := Option.bind_eq_some_iff.mp h
    obtain ⟨w, hw⟩ := addressHex_encodes _ _ ha
    exact ⟨code ++ w, by simpa [Visit.hex, h] using hcode.append hw⟩

theorem visitedHex_encodes (ts : List (List UInt8)) : ∃ w, Base16Encodes (visitedHex ts) w := by
  unfold visitedHex
  induction visited ts with
  | nil => exact ⟨[], .nil⟩
  | cons v vs ih =>
    obtain ⟨w, hw⟩ := v.hex_encodes
    obtain ⟨ws, hws⟩ := ih
    exact ⟨w ++ ws, hw.append hws⟩

/-- The result of the loop, from what is visited. -/
def loopResult (ts : List (List UInt8)) (processed : List UInt8) (malf : Bool) : Except Fault (List UInt8 × Bool) :=
  if (∃ v ∈ visited ts, v.Overlong) ∨ 800 ≤ (processed ++ visitedHex ts).length then .error .outOfBounds
  else if ∃ v ∈ visited ts, v.Endless then .error .diverge
  else .ok (processed ++ visitedHex ts, malf || !pairsAdmitted ts)

section Pair

variable {name address : List UInt8} {rest : List (List UInt8)} {p : Protocol} (hname : protoWithName name = some p)

include hname

/-- A pair whose address is left. -/
theorem loopResult_pair (malf : Bool) (hover : ¬ Overlong p address) (hend : ¬ Endless p address) :
    loopResult (name :: address :: rest) processed malf =
      if 800 ≤ (processed ++ Visit.hex ⟨p, some address⟩).length then .error .outOfBounds
      else loopResult rest (processed ++ Visit.hex ⟨p, some address⟩) (malf || (addressHex p address).isNone) := by
  have hvisited : visited (name :: address :: rest) = ⟨p, some address⟩ :: visited rest := by
    simp [visited, hname, hend]
  have hhex : visitedHex (name :: address :: rest) = Visit.hex ⟨p, some address⟩ ++ visitedHex rest := by
    simp [visitedHex, hvisited]
  have hover' : ¬ Visit.Overlong ⟨p, some address⟩ := by simpa [Visit.Overlong] using hover
  have hend' : ¬ Visit.Endless ⟨p, some address⟩ := by simpa [Visit.Endless] using hend
  have hadmitted : pairsAdmitted (name :: address :: rest) = ((addressHex p address).isSome && pairsAdmitted rest) := by
    simp [pairsAdmitted, hname]
  have hmalf : (malf || !pairsAdmitted (name :: address :: rest)) =
      (malf || (addressHex p address).isNone || !pairsAdmitted rest) := by
    rw [hadmitted]
    cases addressHex p address <;> cases malf <;> rfl
  rw [loopResult, loopResult, hmalf, hhex, hvisited]
  simp only [List.mem_cons, exists_eq_or_imp, hover', hend', false_or, List.append_assoc]
  by_cases hfull : 800 ≤ (processed ++ Visit.hex ⟨p, some address⟩).length
  · have hmore : 800 ≤ (processed ++ (Visit.hex ⟨p, some address⟩ ++ visitedHex rest)).length := by
      simp only [List.length_append] at hfull ⊢
      omega
    rw [if_pos hfull, if_pos (.inr hmore)]
  · rw [if_neg hfull]

/-- The loop at a pair, when the code of the protocol fits. -/
theorem stringToBytesLoop_pair (malf : Bool) (hfits : (processed ++ intToHex p.deccode).length < 800) :
    stringToBytesLoop (name :: address :: rest) none processed malf =
      stringToBytesLoop (address :: rest) (some p) (processed ++ intToHex p.deccode) malf := by
  rw [stringToBytesLoop, hname]
  dsimp only
  rw [strcat, strcpy_ok hfits, ok_bind]

end Pair

/-- The digits of an address are appended if they fit. -/
theorem stringToBytesLoop_address {p : Protocol} {address hex w : List UInt8} {size : Nat}
    (haddr : addressStringToBytes p address = .ok (some (hex, size))) (hp : Base16Encodes processed done)
    (hhex : Base16Encodes hex w) (hle : hex.length ≤ size) (hle' : size ≤ hex.length + 1) (rest : List (List UInt8))
    (malf : Bool) :
    stringToBytesLoop (address :: rest) (some p) processed malf =
      if 800 ≤ (processed ++ hex).length then .error .outOfBounds
      else stringToBytesLoop rest none (processed ++ hex) malf := by
  have heven := hp.length
  have heven' := hhex.length
  rw [stringToBytesLoop, haddr, ok_bind]
  dsimp only
  rw [List.take_of_length_le hle, strcat, strcpy]
  by_cases hfull : 800 ≤ (processed ++ hex).length
  · rw [if_pos hfull, if_neg (by omega), error_bind]
  · -- all lengths are even, so there is room for one more
    rw [if_neg hfull, if_pos (by omega), ok_bind, if_pos (by rw [List.length_append] at hfull; omega)]

/-- A code that does not fit. -/
theorem loopResult_full {ts : List (List UInt8)} {v : Visit} {vs : List Visit} (hv : visited ts = v :: vs) (malf : Bool)
    (hfull : ¬ (processed ++ intToHex v.protocol.deccode).length < 800) :
    loopResult ts processed malf = .error .outOfBounds := by
  apply if_pos
  right
  simp only [visitedHex, hv, List.flatMap_cons, Visit.hex, List.length_append] at hfull ⊢
  omega

/-- **The loop over any tokens.** -/
theorem stringToBytesLoop_eq (ts : List (List UInt8)) (malf : Bool) (hp : Base16Encodes processed done)
    (hroom : processed.length < 800) : stringToBytesLoop ts none processed malf = loopResult ts processed malf := by
  induction ts using visited.induct generalizing processed done malf with
  | case1 => simp [stringToBytesLoop, loopResult, visited, visitedHex, pairsAdmitted, hroom]
  | case2 name h => simp [stringToBytesLoop, loopResult, visited, visitedHex, pairsAdmitted, h, hroom]
  | case3 name p h =>
    have hvisited : visited [name] = [⟨p, none⟩] := by simp [visited, h]
    rw [stringToBytesLoop, h]
    dsimp only
    rw [strcat, strcpy]
    by_cases hfits : (processed ++ intToHex p.deccode).length < 800
    · have hnot : ¬ 800 ≤ (processed ++ intToHex p.deccode).length := Nat.not_le.mpr hfits
      rw [if_pos hfits, ok_bind, stringToBytesLoop]
      simp [loopResult, hvisited, visitedHex, Visit.hex, Visit.Overlong, Visit.Endless, pairsAdmitted, h] at hnot ⊢
      omega
    · rw [if_neg hfits, loopResult_full hvisited malf hfits, error_bind]
  | case4 name address rest h => simp [stringToBytesLoop, loopResult, visited, visitedHex, pairsAdmitted, h, hroom]
  | case5 name address rest p h ih =>
    obtain ⟨code, hcode⟩ := intToHex_encodes p.deccode
    obtain ⟨vs, hvisited⟩ : ∃ vs, visited (name :: address :: rest) = ⟨p, some address⟩ :: vs := by
      rw [visited, h]
      exact ⟨_, rfl⟩
    by_cases hfits : (processed ++ intToHex p.deccode).length < 800
    · have haddr := addressStringToBytes_eq p address
      rw [stringToBytesLoop_pair h malf hfits]
      by_cases hover : Overlong p address
      · have hmem : ∃ v ∈ visited (name :: address :: rest), v.Overlong := by
          rw [hvisited]
          exact ⟨_, List.mem_cons_self, address, rfl, hover⟩
        rw [if_pos hover] at haddr
        rw [stringToBytesLoop, haddr, error_bind, loopResult, if_pos (.inl hmem)]
      · by_cases hend : Endless p address
        · have hone : visited (name :: address :: rest) = [⟨p, some address⟩] := by simp [visited, h, hend]
          have hhex : visitedHex (name :: address :: rest) = intToHex p.deccode := by
            simp [visitedHex, hone, Visit.hex, addressHex_of_endless p address hend]
          rw [if_neg hover, if_pos hend] at haddr
          rw [stringToBytesLoop, haddr, error_bind, loopResult, hhex, hone,
            if_neg (by simpa [Visit.Overlong, hover] using hfits), if_pos (by simpa [Visit.Endless] using hend)]
        · rw [if_neg hover, if_neg hend] at haddr
          rw [loopResult_pair h malf hover hend]
          cases hhex : addressHex p address with
          | none =>
            have hv : Visit.hex ⟨p, some address⟩ = intToHex p.deccode := by simp [Visit.hex, hhex]
            rw [hhex] at haddr
            rw [hv, if_neg (Nat.not_le.mpr hfits), stringToBytesLoop, haddr]
            simpa using ih true (hp.append hcode) hfits
          | some hex =>
            obtain ⟨w, hw⟩ := addressHex_encodes _ _ hhex
            have hv : Visit.hex ⟨p, some address⟩ = intToHex p.deccode ++ hex := by simp [Visit.hex, hhex]
            rw [hhex, Option.map_some] at haddr
            rw [stringToBytesLoop_address haddr (hp.append hcode) hw (by split <;> omega) (by split <;> omega), hv,
              ← List.append_assoc]
            by_cases hfull : 800 ≤ (processed ++ intToHex p.deccode ++ hex).length
            · rw [if_pos hfull, if_pos hfull]
            · rw [if_neg hfull, if_neg hfull]
              simpa using ih malf ((hp.append hcode).append hw) (Nat.not_le.mp hfull)
    · rw [stringToBytesLoop, h, loopResult_full hvisited malf hfits]
      dsimp only
      rw [strcat, strcpy, if_neg hfits, error_bind]

end Loop

/-- Everything visited fits in its buffer: the addresses one by one, and all digits together. -/
def VisitedFit (ts : List (List UInt8)) : Prop :=
  (∀ v ∈ visited ts, ¬ v.Overlong) ∧ (visitedHex ts).length < 800

instance : DecidablePred VisitedFit := fun _ => inferInstanceAs (Decidable (_ ∧ _))

/-- **From any text to bytes.** -/
theorem stringToBytes_eq (strx : List UInt8) :
    ∃ bytes, Base16Encodes (visitedHex (tokens 47 strx)) bytes ∧ stringToBytes strx =
      if strx.head? ≠ some 47 then .ok none
      else if ¬ VisitedFit (tokens 47 strx) then .error .outOfBounds
      else if ∃ v ∈ visited (tokens 47 strx), v.Endless then .error .diverge
      else if pairsAdmitted (tokens 47 strx) then .ok (some bytes) else .ok none := by
  obtain ⟨bytes, hbytes⟩ := visitedHex_encodes (tokens 47 strx)
  have hfit : ¬ VisitedFit (tokens 47 strx) ↔
      (∃ v ∈ visited (tokens 47 strx), v.Overlong) ∨ 800 ≤ (visitedHex (tokens 47 strx)).length := by
    rw [VisitedFit, not_and_or, Nat.not_lt]
    simp
  refine ⟨bytes, hbytes, ?_⟩
  rw [stringToBytes, stringToBytesLoop_eq _ false .nil (by decide), loopResult, List.nil_append]
  by_cases hhead : strx.head? ≠ some 47
  · rw [if_pos hhead, if_pos hhead]
  · rw [if_neg hhead, if_neg hhead]
    by_cases h : VisitedFit (tokens 47 strx)
    · rw [if_neg (mt hfit.mpr (not_not.mpr h)), if_neg (not_not.mpr h)]
      split
      · rfl
      · rw [ok_bind]
        cases pairsAdmitted (tokens 47 strx) with
        | true => simp [hexToVar_eq hbytes]
        | false => rfl
    · rw [if_pos (hfit.mp h), if_pos h, error_bind]

/-! ## Addresses that are converted -/

/-- A known protocol and an address of it that fits in its buffer, is left again and has digits. -/
structure Convertible (protocol : Protocol) (address : List UInt8) : Prop where
  known : protoWithName protocol.name = some protocol
  fits : ¬ Overlong protocol address
  leaves : ¬ Endless protocol address
  digits : (addressHex protocol address).isSome

section Pairs

variable {strx : List UInt8} {pairs : List (Protocol × List UInt8)} (hpairs : ∀ q ∈ pairs, Convertible q.1 q.2)

include hpairs

theorem visited_pairs : visited (pairs.flatMap fun q => [q.1.name, q.2]) = pairs.map fun q => ⟨q.1, some q.2⟩ := by
  induction pairs with
  | nil => rfl
  | cons q pairs ih =>
    obtain ⟨hknown, -, hleaves, -⟩ := hpairs q List.mem_cons_self
    have ih := ih fun q hq => hpairs q (List.mem_cons_of_mem _ hq)
    rw [List.flatMap_cons, List.cons_append, List.singleton_append, visited, hknown]
    simp only [if_neg hleaves, ih, List.map_cons]

theorem pairsAdmitted_pairs : pairsAdmitted (pairs.flatMap fun q => [q.1.name, q.2]) = true := by
  induction pairs with
  | nil => rfl
  | cons q pairs ih =>
    obtain ⟨hknown, -, -, hdigits⟩ := hpairs q List.mem_cons_self
    have ih := ih fun q hq => hpairs q (List.mem_cons_of_mem _ hq)
    rw [List.flatMap_cons, List.cons_append, List.singleton_append, pairsAdmitted, hknown]
    simp only [hdigits, ih, Bool.and_self]

/-- Pairs that are converted one by one are converted together if all their digits fit. -/
theorem stringToBytes_pairs (hhead : strx.head? = some 47)
    (htokens : tokens 47 strx = pairs.flatMap fun q => [q.1.name, q.2]) :
    ∃ bytes, Base16Encodes (pairs.flatMap fun q => Visit.hex ⟨q.1, some q.2⟩) bytes ∧
      stringToBytes strx =
        if (pairs.flatMap fun q => Visit.hex ⟨q.1, some q.2⟩).length < 800 then .ok (some bytes)
        else .error .outOfBounds := by
  have hvisited := visited_pairs hpairs
  have hhex : visitedHex (tokens 47 strx) = pairs.flatMap fun q => Visit.hex ⟨q.1, some q.2⟩ := by
    rw [htokens, visitedHex, hvisited, List.flatMap_map]
  obtain ⟨bytes, hbytes, h⟩ := stringToBytes_eq strx
  refine ⟨bytes, hhex ▸ hbytes, ?_⟩
  have hover : ∀ v ∈ visited (tokens 47 strx), ¬ v.Overlong ∧ ¬ v.Endless := by
    rw [htokens, hvisited]
    intro v hv
    obtain ⟨q, hq, rfl⟩ := List.mem_map.mp hv
    obtain ⟨-, hfits, hleaves, -⟩ := hpairs q hq
    simp [Visit.Overlong, Visit.Endless, hfits, hleaves]
  have hend : ¬ ∃ v ∈ visited (tokens 47 strx), v.Endless := by
    rintro ⟨v, hv, hend⟩
    exact (hover v hv).2 hend
  have hadmitted : pairsAdmitted (tokens 47 strx) = true := by rw [htokens, pairsAdmitted_pairs hpairs]
  rw [h, if_neg (not_not.mpr hhead), if_neg hend, if_pos hadmitted, ← hhex]
  by_cases hfit : (visitedHex (tokens 47 strx)).length < 800
  · rw [if_neg (not_not.mpr ⟨fun v hv => (hover v hv).1, hfit⟩), if_pos hfit]
  · rw [if_pos fun hv => hfit hv.2, if_neg hfit]

end Pairs

/-! ## Which texts are handled -/

/-- `is_valid_ipv4` ends exactly on the addresses whose tokens are all in range. -/
theorem isValidIpv4_returns_iff (address : List UInt8) :
    (∃ r, isValidIpv4 address = .ok r) ↔ ∀ t ∈ tokens 46 address, OctetRange t := by
  rw [isValidIpv4, isValidIpv4Loop_eq]
  split <;> simp_all

theorem multiAddressNewFromString_eq {straddress : List UInt8} (hlen : straddress.length < 800) :
    multiAddressNewFromString straddress =
      (stringToBytes straddress).map fun r => r.map fun bytes => ⟨straddress, bytes⟩ := by
  rw [multiAddressNewFromString, strcpy_ok hlen, ok_bind]
  rcases stringToBytes straddress with e | _ | bytes <;> rfl

/-- Whether a conversion returns. -/
theorem stringToBytes_returns_iff (strx : List UInt8) :
    (∃ r, stringToBytes strx = .ok r) ↔ (strx.head? = some 47 →
      VisitedFit (tokens 47 strx) ∧ ∀ v ∈ visited (tokens 47 strx), ¬ v.Endless) := by
  obtain ⟨bytes, -, h⟩ := stringToBytes_eq strx
  rw [h]
  by_cases hhead : strx.head? = some 47
  · rw [if_neg (not_not.mpr hhead)]
    by_cases hfit : VisitedFit (tokens 47 strx)
    · rw [if_neg (not_not.mpr hfit)]
      by_cases hend : ∃ v ∈ visited (tokens 47 strx), v.Endless
      · simp [hend, hhead]
      · rw [if_neg hend]
        split <;> simp_all
    · simp [hfit, hhead]
  · simp [hhead]

/-- **Termination.** On a text of less than 800 characters that starts with a slash, `multi_address_new_from_string`
returns exactly when everything it comes to fits in its buffer and no ip4 address has a number out of range; the loop of
`is_valid_ipv4` ends exactly when every token is in range. -/
theorem multiAddressNewFromString_returns_iff (straddress : List UInt8) (hlen : straddress.length < 800) :
    ((∃ r, multiAddressNewFromString straddress = .ok r) ↔ (straddress.head? = some 47 →
        VisitedFit (tokens 47 straddress) ∧ ∀ v ∈ visited (tokens 47 straddress), ¬ v.Endless)) ∧
      ∀ address, (∃ r, isValidIpv4 address = .ok r) ↔ ∀ t ∈ tokens 46 address, OctetRange t := by
  refine ⟨?_, isValidIpv4_returns_iff⟩
  rw [← stringToBytes_returns_iff, multiAddressNewFromString_eq hlen]
  rcases stringToBytes straddress with e | r
  · simp [Except.map]
  · simp [Except.map]

/-- The text `/ip4/127.0.0.1`. -/
theorem multiAddressNewFromString_returns_localhost :
    ∃ r, multiAddressNewFromString (ascii ['/', 'i', 'p', '4', '/', '1', '2', '7', '.', '0', '.', '0', '.', '1']) =
      .ok r :=
  (multiAddressNewFromString_returns_iff _ (by decide)).1.mpr (by decide +kernel)

/-- The text `/ip4/256` is looked at for ever. -/
theorem multiAddressNewFromString_endless :
    (ascii ['/', 'i', 'p', '4', '/', '2', '5', '6']).length < 800 ∧
      multiAddressNewFromString (ascii ['/', 'i', 'p', '4', '/', '2', '5', '6']) = .error .diverge ∧
      isValidIpv4 (ascii ['2', '5', '6']) = .error .diverge := by
  decide +kernel

/-- **Buffers.** On a text of less than 800 characters that starts with a slash, `multi_address_new_from_string` stays
inside its buffers exactly when everything that it comes to fits in them. -/
theorem multiAddressNewFromString_inBounds_iff (straddress : List UInt8) (hlen : straddress.length < 800) :
    multiAddressNewFromString straddress ≠ .error .outOfBounds ↔
      (straddress.head? = some 47 → VisitedFit (tokens 47 straddress)) := by
  obtain ⟨bytes, -, h⟩ := stringToBytes_eq straddress
  rw [multiAddressNewFromString_eq hlen, h]
  by_cases hhead : straddress.head? = some 47
  · rw [if_neg (not_not.mpr hhead)]
    by_cases hfit : VisitedFit (tokens 47 straddress)
    · rw [if_neg (not_not.mpr hfit)]
      refine iff_of_true ?_ fun _ => hfit
      split
      · simp [Except.map]
      · split <;> simp [Except.map]
    · simp [hfit, hhead, Except.map]
  · simp [hhead, Except.map]

/-- The text `/tcp/80`. -/
theorem multiAddressNewFromString_inBounds_tcp :
    multiAddressNewFromString (ascii ['/', 't', 'c', 'p', '/', '8', '0']) ≠ .error .outOfBounds :=
  (multiAddressNewFromString_inBounds_iff _ (by decide)).mpr (by decide +kernel)

/-- The 16 characters of the ip4 address in `/ip4/100.100.100.1000` do not fit. -/
theorem multiAddressNewFromString_overlong :
    (ascii ['/', 'i', 'p', '4', '/', '1', '0', '0', '.', '1', '0', '0', '.', '1', '0', '0', '.', '1', '0', '0',
        '0']).length < 800 ∧
      multiAddressNewFromString (ascii ['/', 'i', 'p', '4', '/', '1', '0', '0', '.', '1', '0', '0', '.', '1', '0', '0',
        '.', '1', '0', '0', '0']) = .error .outOfBounds := by
  decide +kernel

end Libcp2p
