import Libcp2p.Multiaddr.Agreement
import Libcp2p.Multiaddr.Components

/-!
# Encapsulating and decapsulating

`multi_address_decapsulate` turns all slashes into spaces, searches for the name of a protocol and cuts the text there.
For a canonical address the first match is the component of that protocol, since no name is contained in another and
every name has a letter that no address has.

* `spaced` and `slashed`: the two replacements, of which the second undoes the first (`slashed_spaced`).
* `strpos_spaced_canonicalText`: the first match.
* `encapsulate_decapsulate`: a component that is appended and taken off again leaves the address as it was.
-/

namespace Libcp2p

/-! ## Slashes and spaces -/

/-- Slashes replaced by spaces. -/
def spaced (s : List UInt8) : List UInt8 := s.map fun c => if c = 47 then 32 else c

/-- Spaces replaced by slashes. -/
def slashed (s : List UInt8) : List UInt8 := s.map fun c => if c = 32 then 47 else c

section Replace

variable {s t : List UInt8}

theorem spaced_append (s t : List UInt8) : spaced (s ++ t) = spaced s ++ spaced t := List.map_append

theorem slashed_spaced (h : 32 ∉ s) : slashed (spaced s) = s := by
  have hsame : ∀ c ∈ s, (if (if c = 47 then 32 else c) = 32 then 47 else if c = 47 then 32 else c) = c := by
    intro c hc
    by_cases hslash : c = 47
    · simp [hslash]
    · have hspace : c ≠ 32 := fun heq => h (heq ▸ hc)
      simp [hslash, hspace]
  rw [slashed, spaced, List.map_map]
  exact (List.map_congr_left hsame).trans (List.map_id s)

theorem spaced_of_notMem (h : 47 ∉ s) : spaced s = s := by
  have hsame : ∀ c ∈ s, (if c = 47 then 32 else c) = c := by
    intro c hc
    exact if_neg fun (heq : c = 47) => h (heq ▸ hc)
  exact (List.map_congr_left hsame).trans (List.map_id s)

theorem spaced_words {ws : List (List UInt8)} (h : ∀ w ∈ ws, 47 ∉ w) :
    spaced (ws.flatMap (47 :: ·)) = ws.flatMap (32 :: ·) := by
  induction ws with
  | nil => rfl
  | cons w ws ih =>
    rw [List.flatMap_cons, spaced_append, ih fun w hw => h w (List.mem_cons_of_mem _ hw), List.flatMap_cons]
    congr 1
    exact congrArg (32 :: ·) (spaced_of_notMem (h w List.mem_cons_self))

end Replace

/-! ## Canonical texts -/

section Canonical

variable {cs : List Component} {x : Component}

theorem canonicalText_concat (cs : List Component) (x : Component) :
    canonicalText (cs ++ [x]) = canonicalText cs ++ (x.protocol.name ++ 47 :: (x.address ++ [47])) := by
  simp [canonicalText, Component.text]

/-- Words have neither slashes nor spaces. -/
theorem notMem_componentTokens (hvalid : ∀ c ∈ cs, c.Valid) : ∀ w ∈ componentTokens cs, 47 ∉ w ∧ 32 ∉ w := by
  intro w hw
  obtain ⟨c, hc, rfl | rfl⟩ := mem_componentTokens hw
  · exact ⟨c.name_token.2, c.name_letter.2⟩
  · exact ⟨(Component.address_token (hvalid c hc).ne_nil).2, c.notMem_address.2⟩

theorem space_notMem_canonicalText (hvalid : ∀ c ∈ cs, c.Valid) : 32 ∉ canonicalText cs := by
  intro h
  rw [canonicalText_eq, List.mem_append, List.mem_flatMap] at h
  rcases h with ⟨w, hw, h⟩ | h
  · rcases List.mem_cons.mp h with h | h
    · cases h
    · exact (notMem_componentTokens hvalid w hw).2 h
  · simp at h

/-- **The first match** of the name of a protocol is behind the components of other protocols. -/
theorem strpos_spaced_canonicalText (hvalid : ∀ c ∈ cs, c.Valid) (hne : ∀ c ∈ cs, c.protocol ≠ x.protocol) :
    strpos (spaced (canonicalText (cs ++ [x]))) x.protocol.name = some (canonicalText cs).length := by
  have hwords : ∀ w ∈ componentTokens cs, ¬ x.protocol.name <:+: w := by
    intro w hw hcontains
    obtain ⟨c, hc, rfl | rfl⟩ := mem_componentTokens hw
    · have hname := Component.name_eq_of_contains hcontains
      have hprotocol := c.protoWithName_name
      rw [← hname, x.protoWithName_name] at hprotocol
      exact hne c hc (Option.some.inj hprotocol).symm
    · exact c.notMem_address.1 (hcontains.subset x.name_letter.1)
  have hslash : ∀ w ∈ componentTokens cs, 47 ∉ w := fun w hw => (notMem_componentTokens hvalid w hw).1
  have htext : spaced (canonicalText (cs ++ [x])) = (componentTokens cs).flatMap (32 :: ·) ++
      32 :: (x.protocol.name ++ spaced (47 :: (x.address ++ [47]))) := by
    rw [canonicalText_concat, spaced_append, spaced_append, canonicalText_eq, spaced_append, spaced_words hslash,
      spaced_of_notMem x.name_token.2, List.append_assoc]
    rfl
  have hlen : (canonicalText cs).length = ((componentTokens cs).flatMap (32 :: ·)).length + 1 := by
    rw [canonicalText_eq, List.length_append, ← spaced_words hslash, spaced, List.length_map]
    rfl
  rw [htext, strpos_words x.name_token.1 x.name_letter.2 hwords, strpos_start (List.prefix_append _ _), hlen]
  simp

end Canonical

/-! ## The round trip -/

section RoundTrip

variable {cs : List Component} {x : Component} {ma : MultiAddress} (hvalid : ∀ c ∈ cs, c.Valid)

include hvalid

/-- Taking off what was appended recomputes the bytes of the old text. -/
theorem multiAddressDecapsulate_concat (hne : ∀ c ∈ cs, c.protocol ≠ x.protocol)
    (hstring : ma.string = canonicalText (cs ++ [x])) :
    multiAddressDecapsulate ma x.protocol.name = updateBytes (canonicalText cs) := by
  have hmatch : strpos (ma.string.map fun c => if c = 47 then 32 else c) x.protocol.name =
      some (canonicalText cs).length := by
    rw [hstring]
    exact strpos_spaced_canonicalText hvalid hne
  have htake : (ma.string.map fun c => if c = 47 then 32 else c).take (canonicalText cs).length =
      spaced (canonicalText cs) := by
    rw [hstring, canonicalText_concat, List.map_append]
    apply List.take_left'
    rw [List.length_map]
  simp only [multiAddressDecapsulate, hmatch, htake]
  exact congrArg updateBytes (slashed_spaced (space_notMem_canonicalText hvalid))

/-- What an address that was created from canonical text holds. -/
theorem created_canonical (hma : multiAddressNewFromString (canonicalText cs) = .ok (some ma)) :
    ma.string = canonicalText cs ∧ stringToBytes (canonicalText cs) = .ok (some ma.bytes) ∧
      (cs.flatMap Component.hex).length = 2 * ma.bytes.length := by
  obtain ⟨hstring, hagrees⟩ := multiAddressNewFromString_created hma
  rw [MultiAddress.Agrees, hstring] at hagrees
  refine ⟨hstring, hagrees, ?_⟩
  obtain ⟨bytes, hencodes, hbytes⟩ := stringToBytes_components hvalid
  rw [hagrees] at hbytes
  split at hbytes
  · cases hbytes
    exact hencodes.length
  · cases hbytes

end RoundTrip

theorem updateBytes_eq {string bytes : List UInt8} (h : stringToBytes string = .ok (some bytes)) :
    updateBytes string = .ok (1, some ⟨string, bytes⟩) := by
  rw [updateBytes, h, ok_bind]

/-- The digits of a component that has an address of at most 50 bytes. -/
theorem Component.length_hex_le {x : Component} (hx : x.Valid) (hid : ∀ id, x = .ipfs id → id.length ≤ 50) :
    x.hex.length ≤ 104 := by
  unfold Component.hex
  cases x with
  | ip4 a b c d =>
    have hquad := length_hex_quad a b c d
    have hle := Visit.length_hex_le (ip4 a b c d).deccode_lt (addressHex_quad a b c d)
    omega
  | tcp port | udp port =>
    refine Nat.le_trans (Visit.length_hex_le (deccode_lt _) (addressHex_port (by simp [protocol]) hx.1 hx.2)) ?_
    rw [hexUpperText, length_hexText, length_beBytes]
    omega
  | ipfs id =>
    have hlen := hid id rfl
    have hle := Visit.length_hex_le (ipfs id).deccode_lt (addressHex_peer (base32Text_encodes id).groups)
    rw [length_hex_peer] at hle
    exact Nat.le_trans hle (by omega)

/-- **Encapsulating and decapsulating.** To an address made from canonical text of less than 300 bytes, a component of
another protocol with an address of at most 50 bytes can be appended; text and bytes then are those of the longer
sequence, and taking the component off again restores both. -/
theorem encapsulate_decapsulate (cs : List Component) (x : Component) (ma : MultiAddress) (hvalid : ∀ c ∈ cs, c.Valid)
    (hma : multiAddressNewFromString (canonicalText cs) = .ok (some ma)) (hbytes : ma.bytes.length < 300)
    (hx : x.Valid) (hid : ∀ id, x = .ipfs id → id.length ≤ 50) (hne : ∀ c ∈ cs, c.protocol ≠ x.protocol) :
    ∃ ma', multiAddressEncapsulate ma (x.text ++ [47]) ⟨true, true⟩ = .ok (1, some ma') ∧
      ma'.string = canonicalText cs ++ (x.protocol.name ++ 47 :: (x.address ++ [47])) ∧
      stringToBytes ma'.string = .ok (some ma'.bytes) ∧
      multiAddressDecapsulate ma' x.protocol.name = .ok (1, some ma) := by
  obtain ⟨hstring, hconverts, hdigits⟩ := created_canonical hvalid hma
  have hvalid' : ∀ c ∈ cs ++ [x], c.Valid := by
    intro c hc
    rcases List.mem_append.mp hc with hc | hc
    · exact hvalid c hc
    · rw [List.mem_singleton.mp hc]
      exact hx
  obtain ⟨bytes, -, hnew⟩ := stringToBytes_components hvalid'
  have hfits : ((cs ++ [x]).flatMap Component.hex).length < 800 := by
    have hle := Component.length_hex_le hx hid
    simp only [List.flatMap_append, List.flatMap_cons, List.flatMap_nil, List.append_nil, List.length_append]
    omega
  rw [if_pos hfits] at hnew
  have happended : ma.string ++ (x.text ++ [47]).drop 1 = canonicalText (cs ++ [x]) := by
    rw [hstring, canonicalText_concat]
    simp [Component.text]
  refine ⟨⟨canonicalText (cs ++ [x]), bytes⟩, ?_, canonicalText_concat cs x, hnew, ?_⟩
  · rw [multiAddressEncapsulate_slash rfl, if_pos rfl, happended, updateBytes_eq hnew]
  · rw [multiAddressDecapsulate_concat hvalid hne rfl, updateBytes_eq hconverts, ← hstring]

/-- The port 4001 on `/ip4/127.0.0.1/`. -/
theorem encapsulate_decapsulate_localhost :
    ∃ ma', multiAddressEncapsulate ⟨canonicalText [.ip4 127 0 0 1], [4, 127, 0, 0, 1]⟩
        ((Component.tcp 4001).text ++ [47]) ⟨true, true⟩ = .ok (1, some ma') ∧
      ma'.string = canonicalText [.ip4 127 0 0 1] ++
        ((Component.tcp 4001).protocol.name ++ 47 :: ((Component.tcp 4001).address ++ [47])) ∧
      stringToBytes ma'.string = .ok (some ma'.bytes) ∧
      multiAddressDecapsulate ma' (Component.tcp 4001).protocol.name =
        .ok (1, some ⟨canonicalText [.ip4 127 0 0 1], [4, 127, 0, 0, 1]⟩) :=
  encapsulate_decapsulate [.ip4 127 0 0 1] (.tcp 4001) ⟨canonicalText [.ip4 127 0 0 1], [4, 127, 0, 0, 1]⟩
    (by simp [Component.Valid]) (by decide +kernel) (by decide) (by simp [Component.Valid]) (by simp)
    (by simp [Component.protocol])

end Libcp2p
