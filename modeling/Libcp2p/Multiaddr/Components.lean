import Libcp2p.Multiaddr.AnyText

/-!
# Components of multiaddresses

A canonical address is a sequence of components, each with a text and with bytes of its own. This module is about the
way from text to bytes: which digits `addressStringToBytes` makes of the text of a component, and `stringToBytes` of a
sequence of them.

* `Written c w`: the address of `c` is converted to digits that denote `w`. For ports and peer ids `w` is what it should
  be (`written_port`, `written_ipfs`), for an ip4 address exactly when its first octet is not zero
  (`written_ip4`): leading zero bytes are lost.
* `stringToBytes_canonicalText`: the text of a sequence is converted, component by component, as long as the digits fit
  in the buffer of 800 characters.
-/

namespace Libcp2p

/-- A component of an address. -/
inductive Component
  | ip4 (a b c d : UInt8)
  | tcp (port : Nat)
  | udp (port : Nat)
  | ipfs (id : List UInt8)
  deriving DecidableEq, Repr

namespace Component

/-- The protocol of a component. -/
def protocol : Component → Protocol
  | ip4 _ _ _ _ => ⟨4, 32, ascii ['i', 'p', '4']⟩
  | tcp _ => ⟨6, 16, ascii ['t', 'c', 'p']⟩
  | udp _ => ⟨17, 16, ascii ['u', 'd', 'p']⟩
  | ipfs _ => ⟨42, -1, ascii ['i', 'p', 'f', 's']⟩

/-- The address in dotted decimal, in decimal, or in padded base32. -/
def address : Component → List UInt8
  | ip4 a b c d =>
    decimal a.toNat ++ 46 :: (decimal b.toNat ++ 46 :: (decimal c.toNat ++ 46 :: decimal d.toNat))
  | tcp port => decimal port
  | udp port => decimal port
  | ipfs id => base32Text id

/-- The address in bytes: of fixed width, or after a prefix that counts its hexadecimal digits. -/
def addressBytes : Component → List UInt8
  | ip4 a b c d => [a, b, c, d]
  | tcp port => beBytes 2 port
  | udp port => beBytes 2 port
  | ipfs id => UInt8.ofNat (2 * id.length % 256 ||| 0x80) :: id

/-- The code of the protocol, as a byte. -/
def code (c : Component) : UInt8 := UInt8.ofNat c.protocol.deccode

/-- The bytes of a component. -/
def bytes (c : Component) : List UInt8 := c.code :: c.addressBytes

/-- The text of a component. -/
def text (c : Component) : List UInt8 := 47 :: (c.protocol.name ++ 47 :: c.address)

/-- The values that the text form admits. -/
def Valid : Component → Prop
  | ip4 _ _ _ _ => True
  | tcp port => 1 ≤ port ∧ port ≤ 65535
  | udp port => 1 ≤ port ∧ port ≤ 65535
  | ipfs id => 1 ≤ id.length ∧ id.length ≤ 149

theorem protoWithName_name (c : Component) : protoWithName c.protocol.name = some c.protocol := by
  cases c <;> rfl

theorem deccode_lt (c : Component) : c.protocol.deccode < 256 := by
  cases c <;> simp [protocol]

theorem intToHex_deccode (c : Component) : intToHex c.protocol.deccode = hexUpperText [c.code] :=
  intToHex_eq (.inl rfl) c.deccode_lt

/-- A name is a token. -/
theorem name_token (c : Component) : c.protocol.name ≠ [] ∧ 47 ∉ c.protocol.name := by
  have all : ∀ p ∈ protocols, p.name ≠ [] ∧ 47 ∉ p.name := by decide
  apply all
  cases c <;> simp [protocol, protocols]

/-- The names of the four protocols. -/
def names : List (List UInt8) :=
  [ascii ['i', 'p', '4'], ascii ['t', 'c', 'p'], ascii ['u', 'd', 'p'], ascii ['i', 'p', 'f', 's']]

theorem name_mem (c : Component) : c.protocol.name ∈ names := by
  cases c <;> simp [protocol, names]

/-- Every name has the letter `p`, and none a space. -/
theorem name_letter (c : Component) : 112 ∈ c.protocol.name ∧ 32 ∉ c.protocol.name := by
  have all : ∀ name ∈ names, 112 ∈ name ∧ 32 ∉ name := by decide
  exact all _ c.name_mem

/-- No name is contained in another. -/
theorem name_eq_of_contains {c c' : Component} (h : c.protocol.name <:+: c'.protocol.name) :
    c.protocol.name = c'.protocol.name := by
  have all : ∀ name ∈ names, ∀ name' ∈ names, name <:+: name' → name = name' := by decide
  exact all _ c.name_mem _ c'.name_mem h

end Component

/-- The text of a sequence of components, with a slash at its end. -/
def canonicalText (cs : List Component) : List UInt8 := cs.flatMap Component.text ++ [47]

/-- The bytes of a sequence of components. -/
def canonicalBytes (cs : List Component) : List UInt8 := cs.flatMap Component.bytes

/-! ## Dotted decimal -/

section Quad

variable (a b c d : UInt8)

theorem notMem_decimal {x : UInt8} (hx : x < 48) (n : Nat) : x ∉ decimal n := by
  intro h
  exact absurd (mem_decimal h).1 (by rwa [UInt8.not_le])

theorem tokens_quad : tokens 46 (Component.ip4 a b c d).address =
    [decimal a.toNat, decimal b.toNat, decimal c.toNat, decimal d.toNat] := by
  have hword (n : Nat) : tokens 46 (decimal n) = [decimal n] :=
    tokens_of_notMem (decimal_ne_nil n) (notMem_decimal (by decide) n)
  simp only [Component.address, tokens_append_cons, hword, List.cons_append, List.nil_append]

theorem length_decimal_byte (x : UInt8) : (decimal x.toNat).length ≤ 3 :=
  length_decimal_le (k := 3) (by omega) (Nat.lt_trans x.toNat_lt (by omega))

theorem length_quad_lt : (Component.ip4 a b c d).address.length < 16 := by
  have ha := length_decimal_byte a
  have hb := length_decimal_byte b
  have hc := length_decimal_byte c
  have hd := length_decimal_byte d
  simp only [Component.address, List.length_append, List.length_cons]
  omega

theorem atoi_byte (x : UInt8) : atoi (decimal x.toNat) = x.toNat := atoi_decimal (Nat.lt_trans x.toNat_lt (by decide))

theorem validDigit_decimal (n : Nat) : validDigit (decimal n) = true := by
  apply List.all_eq_true.mpr
  intro x hx
  simpa using mem_decimal hx

theorem octet_decimal (x : UInt8) : octet (decimal x.toNat) = true := by
  have hx := x.toNat_lt
  rw [octet, validDigit_decimal, Bool.true_and]
  apply decide_eq_true
  rw [OctetRange, atoi_byte]
  omega

theorem octetRange_of_mem_quad {t : List UInt8} (ht : t ∈ tokens 46 (Component.ip4 a b c d).address) :
    OctetRange t := by
  have hoctet : octet t = true := by
    rw [tokens_quad] at ht
    simp only [List.mem_cons, List.not_mem_nil, or_false] at ht
    rcases ht with rfl | rfl | rfl | rfl <;> exact octet_decimal _
  rw [octet, Bool.and_eq_true, decide_eq_true_eq] at hoctet
  exact hoctet.2

theorem quadValue_quad : quadValue (Component.ip4 a b c d).address = some (beNat [a, b, c, d]) := by
  have hsum : (a.toNat : Int) * 2 ^ 24 + b.toNat * 2 ^ 16 + c.toNat * 2 ^ 8 + d.toNat = (beNat [a, b, c, d] : Nat) := by
    simp only [beNat, List.foldl_cons, List.foldl_nil]
    push_cast
    omega
  rw [quadValue, tokens_quad]
  simp only [octet_decimal, Bool.and_self, if_true, atoi_byte, hsum, Int.toNat_natCast]

theorem addressHex_quad : addressHex (Component.ip4 a b c d).protocol (Component.ip4 a b c d).address =
    some (intToHex (beNat [a, b, c, d])) := by
  simp only [addressHex, Component.protocol, quadValue_quad, Option.map_some]

theorem length_hex_quad : (intToHex (beNat [a, b, c, d])).length ≤ 8 :=
  length_intToHex_le (k := 3) (beNat_lt [a, b, c, d])

theorem convertible_ip4 : Convertible (Component.ip4 a b c d).protocol (Component.ip4 a b c d).address := by
  have hlen := length_quad_lt a b c d
  refine ⟨rfl, ?_, ?_, ?_⟩
  · rintro (⟨-, hlong⟩ | ⟨⟨⟩, -⟩)
    omega
  · rintro ⟨-, t, ht, hrange⟩
    exact hrange (octetRange_of_mem_quad a b c d ht)
  · rw [addressHex_quad]
    rfl

end Quad

/-! ## The digits of a component -/

section Written

variable {c : Component} {w : List UInt8}

/-- The address of `c` is converted to digits that denote `w`, with a size that is theirs or one more. -/
def Written (c : Component) (w : List UInt8) : Prop :=
  ∃ hex size, addressStringToBytes c.protocol c.address = .ok (some (hex, size)) ∧ hex.length ≤ size ∧
    size ≤ hex.length + 1 ∧ Base16Encodes hex w

/-- An address that is converted to digits. -/
theorem Convertible.written {hex : List UInt8} (h : Convertible c.protocol c.address)
    (hhex : addressHex c.protocol c.address = some hex) (hw : Base16Encodes hex w) : Written c w := by
  refine ⟨hex, if c.protocol.deccode = 4 then hex.length else hex.length + 1, ?_, ?_, ?_, hw⟩
  · rw [addressStringToBytes_eq, if_neg h.fits, if_neg h.leaves, hhex, Option.map_some]
  · split <;> omega
  · split <;> omega

/-- An ip4 address is converted without its leading zero bytes. -/
theorem written_ip4 (a b c d : UInt8) :
    ∃ w, Written (.ip4 a b c d) w ∧ (a ≠ 0 → w = [a, b, c, d]) ∧ (a = 0 → w.length ≤ 3) := by
  have hval : beNat [a, b, c, d] = a.toNat * 256 ^ 3 + beNat [b, c, d] := by
    simp only [beNat, List.foldl_cons, List.foldl_nil]
    omega
  obtain ⟨w, hw, htext⟩ := intToHex_shortest (beNat [a, b, c, d])
  have hhex := addressHex_quad a b c d
  rw [htext] at hhex
  refine ⟨w, (convertible_ip4 a b c d).written hhex (hexUpperText_encodes w), ?_, ?_⟩
  · intro ha
    by_contra hne
    -- fewer bytes denote less than the first byte does
    have hpos : 0 < a.toNat := Nat.pos_of_ne_zero fun h => ha (UInt8.toNat_inj.mp h)
    have hshort : w.length < 4 := hw.lt_length [a, b, c, d] (List.cons_ne_nil _ _) rfl (Ne.symm hne)
    have hpow : 256 ^ w.length ≤ 256 ^ 3 := Nat.pow_le_pow_right (by decide) (by omega)
    have hlt := beNat_lt w
    rw [hw.value] at hlt
    omega
  · rintro rfl
    have hrest : beNat [b, c, d] < 256 ^ (2 + 1) := beNat_lt _
    exact hw.length_le (by rw [hval, UInt8.toNat_zero]; omega)

/-- A port is converted to two bytes. -/
theorem addressHex_port {protocol : Protocol} {port : Nat} (hp : protocol.deccode = 6 ∨ protocol.deccode = 17)
    (h1 : 1 ≤ port) (h : port ≤ 65535) : addressHex protocol (decimal port) = some (hexUpperText (beBytes 2 port)) := by
  have hatoi : atoi (decimal port) = port := atoi_decimal (by omega)
  rcases hp with hp | hp <;>
    simp [addressHex, hp, hatoi, show 0 < port by omega, show port < 65536 by omega]

theorem convertible_port {protocol : Protocol} {port : Nat} (hknown : protoWithName protocol.name = some protocol)
    (hp : protocol.deccode = 6 ∨ protocol.deccode = 17) (h1 : 1 ≤ port) (h : port ≤ 65535) :
    Convertible protocol (decimal port) := by
  refine ⟨hknown, ?_, ?_, ?_⟩
  · rintro (⟨h4, -⟩ | ⟨h42, -⟩) <;> omega
  · rintro ⟨h4, -⟩
    omega
  · rw [addressHex_port hp h1 h]
    rfl

theorem written_port {port : Nat} (h1 : 1 ≤ port) (h : port ≤ 65535) (hc : c.address = decimal port)
    (hp : c.protocol.deccode = 6 ∨ c.protocol.deccode = 17) : Written c (beBytes 2 port) := by
  have hconv := convertible_port c.protoWithName_name hp h1 h
  rw [← hc] at hconv
  exact hconv.written (by rw [hc]; exact addressHex_port hp h1 h) (hexUpperText_encodes _)

theorem addressHex_peer {text id : List UInt8} (htext : Base32Groups text id) :
    addressHex (Component.ipfs id).protocol text = some (numToHexVar32 (2 * id.length) ++ hexLowerText id) := by
  simp only [addressHex, Component.protocol, base32Value_eq_some.mpr htext, Option.map_some]

theorem length_hex_peer (id : List UInt8) :
    (numToHexVar32 (2 * id.length) ++ hexLowerText id).length = 2 + 2 * id.length := by
  rw [List.length_append, length_numToHexVar32, length_hexLowerText]

/-- The text of a peer id of up to 149 bytes is converted, whatever the bits that its padding leaves over. -/
theorem convertible_ipfs {text id : List UInt8} (htext : Base32Groups text id) (h : id.length ≤ 149) :
    Convertible (Component.ipfs id).protocol text := by
  have hvalue := base32Value_eq_some.mpr htext
  refine ⟨rfl, ?_, ?_, ?_⟩
  · rintro (⟨⟨⟩, -⟩ | ⟨-, d, hd, hlong⟩)
    rw [hvalue] at hd
    cases hd
    omega
  · rintro ⟨⟨⟩, -⟩
  · rw [addressHex_peer htext]
    rfl

/-- A peer id of up to 149 bytes is converted, after a prefix with the number of its digits. -/
theorem written_ipfs {id : List UInt8} (h : id.length ≤ 149) :
    Written (.ipfs id) (Component.ipfs id).addressBytes := by
  have htext := (base32Text_encodes id).groups
  refine (convertible_ipfs htext h).written (addressHex_peer htext) ?_
  rw [numToHexVar32_eq]
  exact (hexUpperText_encodes _).append (hexLowerText_encodes id)

end Written

/-! ## Sequences of components -/

section Sequences

variable {c : Component} {cs : List Component} {processed done : List UInt8}

/-- One component: its digits are appended if they fit. -/
theorem stringToBytesLoop_component {w : List UInt8} (hw : Written c w) (hp : Base16Encodes processed done)
    (rest : List (List UInt8)) (malf : Bool) :
    ∃ hex, Base16Encodes hex (c.code :: w) ∧
      stringToBytesLoop (c.protocol.name :: c.address :: rest) none processed malf =
        if (processed ++ hex).length < 800 then stringToBytesLoop rest none (processed ++ hex) malf
        else .error .outOfBounds := by
  obtain ⟨hex, size, haddr, hle, hle', hhex⟩ := hw
  have hcode : Base16Encodes (hexUpperText [c.code]) [c.code] := hexUpperText_encodes _
  refine ⟨hexUpperText [c.code] ++ hex, hcode.append hhex, ?_⟩
  rw [← c.intToHex_deccode] at hcode ⊢
  by_cases hfits : (processed ++ intToHex c.protocol.deccode).length < 800
  · rw [stringToBytesLoop_pair c.protoWithName_name malf hfits,
      stringToBytesLoop_address haddr (hp.append hcode) hhex hle hle', List.append_assoc]
    by_cases hfull : 800 ≤ (processed ++ (intToHex c.protocol.deccode ++ hex)).length
    · rw [if_pos hfull, if_neg (Nat.not_lt.mpr hfull)]
    · rw [if_neg hfull, if_pos (Nat.not_le.mp hfull)]
  · have hover : ¬ (processed ++ (intToHex c.protocol.deccode ++ hex)).length < 800 := by
      simp only [List.length_append] at hfits ⊢
      omega
    rw [stringToBytesLoop, c.protoWithName_name, if_neg hover]
    dsimp only
    rw [strcat, strcpy, if_neg hfits, error_bind]

/-- The tokens of a sequence. -/
def componentTokens (cs : List Component) : List (List UInt8) := cs.flatMap fun c => [c.protocol.name, c.address]

theorem mem_componentTokens {w : List UInt8} (h : w ∈ componentTokens cs) :
    ∃ c ∈ cs, w = c.protocol.name ∨ w = c.address := by
  simpa [componentTokens] using h

/-- A slash before each token, and one at the end. -/
theorem canonicalText_eq (cs : List Component) : canonicalText cs = (componentTokens cs).flatMap (47 :: ·) ++ [47] := by
  simp only [canonicalText, componentTokens, List.flatMap_assoc, List.flatMap_cons, List.flatMap_nil, List.append_nil]
  rfl

theorem Component.Valid.ne_nil (h : c.Valid) : c ≠ .ipfs [] := by
  rintro rfl
  exact absurd h.1 (by decide)

/-- An address is a token. -/
theorem Component.address_token (h : c ≠ .ipfs []) : c.address ≠ [] ∧ 47 ∉ c.address := by
  have hdecimal (n : Nat) : 47 ∉ decimal n := notMem_decimal (by decide) n
  cases c with
  | ip4 a b c d => simp [address, hdecimal]
  | tcp port => exact ⟨decimal_ne_nil port, hdecimal port⟩
  | udp port => exact ⟨decimal_ne_nil port, hdecimal port⟩
  | ipfs id =>
    refine ⟨?_, notMem_base32Text (by decide) (by decide) id⟩
    intro hnil
    have hlen := length_base32Text id
    have hpos : 0 < id.length := List.length_pos_of_ne_nil fun hid => h (congrArg _ hid)
    rw [show base32Text id = [] from hnil, List.length_nil] at hlen
    omega

/-- No address has that letter, or a space. -/
theorem Component.notMem_address (c : Component) : 112 ∉ c.address ∧ 32 ∉ c.address := by
  have hdecimal (n : Nat) : 112 ∉ decimal n ∧ 32 ∉ decimal n := by
    refine ⟨?_, notMem_decimal (by decide) n⟩
    intro h
    exact absurd (mem_decimal h).2 (by decide)
  cases c with
  | ip4 a b c d => simp [address, hdecimal]
  | tcp port | udp port => exact hdecimal port
  | ipfs id => exact ⟨notMem_base32Text (by decide) (by decide) id, notMem_base32Text (by decide) (by decide) id⟩

/-- The tokens of a component, in front of a slash. -/
theorem tokens_text (h : c ≠ .ipfs []) (t : List UInt8) :
    tokens 47 (c.text ++ 47 :: t) = c.protocol.name :: c.address :: tokens 47 t := by
  obtain ⟨hne, hslash⟩ := Component.address_token h
  have htext : c.text ++ 47 :: t = 47 :: (c.protocol.name ++ 47 :: (c.address ++ 47 :: t)) := by
    simp [Component.text]
  rw [htext, tokens_cons, tokens_append_cons, tokens_append_cons, tokens_of_notMem c.name_token.1 c.name_token.2,
    tokens_of_notMem hne hslash]
  rfl

/-- The tokens of the text of components. -/
theorem tokens_canonicalText (h : ∀ c ∈ cs, c.Valid) : tokens 47 (canonicalText cs) = componentTokens cs := by
  rw [canonicalText_eq, tokens_snoc, tokens_flatMap]
  intro w hw
  obtain ⟨c, hc, rfl | rfl⟩ := mem_componentTokens hw
  · exact c.name_token
  · exact Component.address_token (h c hc).ne_nil

theorem Component.Valid.convertible (h : c.Valid) : Convertible c.protocol c.address := by
  cases c with
  | ip4 a b c d => exact convertible_ip4 a b c d
  | tcp port => exact convertible_port rfl (.inl rfl) h.1 h.2
  | udp port => exact convertible_port rfl (.inr rfl) h.1 h.2
  | ipfs id => exact convertible_ipfs (base32Text_encodes id).groups h.2

/-- The digits of a component. -/
def Component.hex (c : Component) : List UInt8 := Visit.hex ⟨c.protocol, some c.address⟩

/-- The text of a sequence of components is converted exactly when its digits fit in their buffer. -/
theorem stringToBytes_components (hvalid : ∀ c ∈ cs, c.Valid) :
    ∃ bytes, Base16Encodes (cs.flatMap Component.hex) bytes ∧
      stringToBytes (canonicalText cs) =
        if (cs.flatMap Component.hex).length < 800 then .ok (some bytes) else .error .outOfBounds := by
  have hpairs : ∀ q ∈ cs.map fun c => (c.protocol, c.address), Convertible q.1 q.2 := by
    intro q hq
    obtain ⟨c, hc, rfl⟩ := List.mem_map.mp hq
    exact (hvalid c hc).convertible
  have htokens : tokens 47 (canonicalText cs) =
      (cs.map fun c => (c.protocol, c.address)).flatMap fun q => [q.1.name, q.2] := by
    rw [tokens_canonicalText hvalid, List.flatMap_map]
    rfl
  have h := stringToBytes_pairs hpairs (by cases cs <;> rfl) htokens
  rw [List.flatMap_map] at h
  exact h

/-- What an address is written as follows the code of its protocol. -/
theorem Written.hex {w : List UInt8} (h : c.Valid) (hw : Written c w) : Base16Encodes c.hex (c.code :: w) := by
  obtain ⟨hex, size, haddr, -, -, hhex⟩ := hw
  have hdigits : addressHex c.protocol c.address = some hex := by
    rw [addressStringToBytes_eq, if_neg h.convertible.fits, if_neg h.convertible.leaves] at haddr
    obtain ⟨hex', hx, heq⟩ := Option.map_eq_some_iff.mp (Except.ok.inj haddr)
    rw [hx, (Prod.mk.inj heq).1]
  have hcode : Base16Encodes (intToHex c.protocol.deccode) [c.code] := by
    rw [c.intToHex_deccode]
    exact hexUpperText_encodes _
  rw [Component.hex, Visit.hex, Option.bind_some, hdigits]
  exact hcode.append hhex

/-- **From text to bytes.** The text of a sequence of components is converted exactly when its digits fit in the buffer
of 800 characters. -/
theorem stringToBytes_canonicalText {w : Component → List UInt8} (hvalid : ∀ c ∈ cs, c.Valid)
    (hw : ∀ c ∈ cs, Written c (w c)) :
    stringToBytes (canonicalText cs) =
      if (cs.flatMap fun c => c.code :: w c).length < 400 then .ok (some (cs.flatMap fun c => c.code :: w c))
      else .error .outOfBounds := by
  obtain ⟨bytes, hbytes, hconv⟩ := stringToBytes_components hvalid
  have hhex : Base16Encodes (cs.flatMap Component.hex) (cs.flatMap fun c => c.code :: w c) :=
    .flatMap fun c hc => (hw c hc).hex (hvalid c hc)
  have hfit : (cs.flatMap Component.hex).length < 800 ↔ (cs.flatMap fun c => c.code :: w c).length < 400 := by
    rw [hhex.length]
    omega
  rw [hconv, hbytes.unique hhex]
  simp only [hfit]

end Sequences

end Libcp2p
