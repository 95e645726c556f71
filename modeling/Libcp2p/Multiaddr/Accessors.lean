import Libcp2p.Multiaddr.AnyText
import Libcp2p.Multiaddr.Components

/-!
# Accessors

The accessors of `multiaddr.c` do not use the parsed form: family and kind come from the first byte, ip address, port
and peer id from searches in the text. They are told whether their allocation succeeds.

* `ipText`: the texts `/ip4/<quad>/<transport>/<port>`, perhaps with `/ipfs/<id>` after it.
* `multi_address_accessors`: on every such text, with or without a slash at its end, the address is created and all
  accessors agree with its components.
-/

namespace Libcp2p

/-! ## The functions -/

/-- `AF_INET`. -/
def AF_INET : Int := 2

/-- `AF_INET6`. -/
def AF_INET6 : Int := 10

/-- `multi_address_is_ip` of an object whose pointer to the bytes is not null. -/
def multiAddressIsIp (ma : MultiAddress) : Except Fault Int :=
  match ma.bytes with
  | [] => .error .outOfBounds
  | byte :: _ => .ok (if byte = 4 ∨ byte = 41 then 1 else 0)

/-- `multi_address_get_ip_family`. -/
def multiAddressGetIpFamily (ma : MultiAddress) : Except Fault Int :=
  match ma.bytes with
  | [] => .error .outOfBounds
  | byte :: _ => if byte = 4 then .ok AF_INET else if byte = 41 then .ok AF_INET6 else .ok 0

/-- `multi_address_get_ip_address`: what it writes to `ip`, or nothing where it returns 0. -/
def multiAddressGetIpAddress (ma : MultiAddress) (alloc : Bool) : Except Fault (Option (List UInt8)) :=
  if ¬ ascii ['/', 'i', 'p', '4', '/'] <+: ma.string ∧ ¬ ascii ['/', 'i', 'p', '6', '/'] <+: ma.string then .ok none
  else if strpos ma.string (ascii ['/', 't', 'c', 'p', '/']) = none ∧
      strpos ma.string (ascii ['/', 'u', 'd', 'p', '/']) = none then .ok none
  else if !alloc then .ok none
  else
    let str := ma.string.drop 5
    match strpos str [47] with
    | none => .error .outOfBounds
    | some pos => .ok (some (str.take pos))

/-- `multi_address_get_ip_port`. -/
def multiAddressGetIpPort (ma : MultiAddress) : Int :=
  match (strpos ma.string (ascii ['/', 't', 'c', 'p', '/'])).or
      (strpos ma.string (ascii ['/', 'u', 'd', 'p', '/'])) with
  | none => -1
  | some pos =>
    let ptr := ma.string.drop (pos + 5)
    match strpos ptr [47] with
    | none => atoi ptr
    | some endPtr => atoi (ptr.take endPtr)

/-- `multi_address_get_peer_id`; a null pointer is `none`. -/
def multiAddressGetPeerId (ma : MultiAddress) (alloc : Bool) : Option (List UInt8) :=
  match strpos ma.string (ascii ['/', 'i', 'p', 'f', 's', '/']) with
  | none => none
  | some pos =>
    let ptr := ma.string.drop (pos + 6)
    if ptr = [] then none
    else
      let strLen := (strpos ptr [47]).getD ptr.length
      if 0 < strLen ∧ alloc then some (ptr.take strLen) else none

/-! ## Texts with an ip address and a port -/

/-- The end of a text: nothing, or a slash. -/
def finalSlash (slash : Bool) : List UInt8 := if slash then [47] else []

/-- The text after the port: a peer id if there is one, and perhaps a slash. -/
def peerText (peer : Option (List UInt8)) (slash : Bool) : List UInt8 :=
  match peer with
  | none => finalSlash slash
  | some id => 47 :: (ascii ['i', 'p', 'f', 's'] ++ 47 :: (id ++ finalSlash slash))

/-- The text `/ip4/<quad>/<transport>/<port>[/ipfs/<id>]`, perhaps with a slash at its end. -/
def ipText (a b c d : UInt8) (transport : List UInt8) (port : Nat) (peer : Option (List UInt8)) (slash : Bool) :
    List UInt8 :=
  (Component.ip4 a b c d).text ++ 47 :: (transport ++ 47 :: (decimal port ++ peerText peer slash))

section Search

variable {a b c d : UInt8} {transport : List UInt8} {port : Nat} {peer : Option (List UInt8)} {slash : Bool}
  {w : List UInt8}

/-- The word for which the accessors search: it has a letter that no address has. -/
structure Sought (w : List UInt8) : Prop where
  slash : 47 ∉ w
  letter : 112 ∈ w

theorem sought_name (c : Component) : Sought c.protocol.name := ⟨c.name_token.2, c.name_letter.1⟩

theorem Sought.ne {u : List UInt8} (h : Sought w) (hu : 112 ∉ u) : w ≠ u := by
  rintro rfl
  exact hu h.letter

theorem finalSlash_eq (slash : Bool) : finalSlash slash = [] ∨ ∃ t, finalSlash slash = 47 :: t := by
  cases slash
  · exact .inl rfl
  · exact .inr ⟨[], rfl⟩

theorem peerText_eq (peer : Option (List UInt8)) (slash : Bool) :
    peerText peer slash = [] ∨ ∃ t, peerText peer slash = 47 :: t := by
  cases peer with
  | none => exact finalSlash_eq slash
  | some id => exact .inr ⟨_, rfl⟩

/-- Neither ip addresses nor ports have a letter or a slash. -/
theorem notMem_decimal_pair (n : Nat) : 47 ∉ decimal n ∧ 112 ∉ decimal n :=
  ⟨notMem_decimal (by decide) n, (Component.tcp n).notMem_address.1⟩

theorem notMem_quad_pair : 47 ∉ (Component.ip4 a b c d).address ∧ 112 ∉ (Component.ip4 a b c d).address :=
  ⟨(Component.address_token (c := .ip4 a b c d) nofun).2, (Component.ip4 a b c d).notMem_address.1⟩

theorem strpos_finalSlash (slash : Bool) : strpos (finalSlash slash) (47 :: (w ++ [47])) = none := by
  cases slash
  · rfl
  · exact strpos_last_segment List.not_mem_nil

/-- Behind the port there is `ipfs` with the id, or nothing to be found. -/
theorem strpos_peerText (hw : Sought w) (hid : ∀ id ∈ peer, 47 ∉ id ∧ 112 ∉ id) :
    strpos (peerText peer slash) (47 :: (w ++ [47])) =
      if w = ascii ['i', 'p', 'f', 's'] ∧ peer.isSome then some 0 else none := by
  cases peer with
  | none => simp [peerText, strpos_finalSlash]
  | some id =>
    obtain ⟨hslash, hletter⟩ := hid id rfl
    rw [peerText, strpos_segment hw.slash (by decide),
      strpos_other_segment hw.slash hslash (hw.ne hletter) (finalSlash_eq slash), strpos_finalSlash]
    simp

/-- A search goes past the ip address. -/
theorem strpos_ip4 (hw : Sought w) (hne : w ≠ ascii ['i', 'p', '4']) (t : List UInt8) :
    strpos ((Component.ip4 a b c d).text ++ 47 :: t) (47 :: (w ++ [47])) =
      (strpos (47 :: t) (47 :: (w ++ [47]))).map (· + (Component.ip4 a b c d).text.length) := by
  have htext : (Component.ip4 a b c d).text ++ 47 :: t =
      47 :: (ascii ['i', 'p', '4'] ++ 47 :: ((Component.ip4 a b c d).address ++ 47 :: t)) := by
    simp [Component.text, Component.protocol]
  have hlen : (Component.ip4 a b c d).text.length = (Component.ip4 a b c d).address.length + 1 + 4 := by
    simp [Component.text, Component.protocol, ascii]
  obtain ⟨hslash, hletter⟩ := notMem_quad_pair (a := a) (b := b) (c := c) (d := d)
  rw [htext, strpos_segment hw.slash (by decide), if_neg hne, strpos_segment hw.slash hslash, if_neg (hw.ne hletter),
    Option.map_map, hlen]
  rfl

/-- The transport is found behind the ip address. -/
theorem strpos_ipText_transport (hw : Sought transport) (hne : transport ≠ ascii ['i', 'p', '4']) :
    strpos (ipText a b c d transport port peer slash) (47 :: (transport ++ [47])) =
      some (Component.ip4 a b c d).text.length := by
  rw [ipText, strpos_ip4 hw hne, strpos_segment hw.slash hw.slash, if_pos rfl]
  simp

/-- What is neither ip address nor transport is searched for behind the port. -/
theorem strpos_ipText_other (hw : Sought w) (hne : w ≠ ascii ['i', 'p', '4']) (ht : 47 ∉ transport)
    (hne' : w ≠ transport) :
    strpos (ipText a b c d transport port peer slash) (47 :: (w ++ [47])) =
      (strpos (peerText peer slash) (47 :: (w ++ [47]))).map
        (· + ((Component.ip4 a b c d).text ++ 47 :: (transport ++ 47 :: decimal port)).length) := by
  obtain ⟨hslash, hletter⟩ := notMem_decimal_pair port
  rw [ipText, strpos_ip4 hw hne, strpos_segment hw.slash ht, if_neg hne',
    strpos_other_segment hw.slash hslash (hw.ne hletter) (peerText_eq _ _), Option.map_map, Option.map_map]
  congr 1
  funext n
  simp only [Function.comp_apply, List.length_append, List.length_cons]
  omega

end Search

/-! ## The accessors agree -/

section Accessors

variable {a b c d : UInt8} {transport : List UInt8} {port : Nat} {peer : Option (List UInt8)} {slash : Bool}
  {ma : MultiAddress} (ht : transport = ascii ['t', 'c', 'p'] ∨ transport = ascii ['u', 'd', 'p'])
  (hid : ∀ id ∈ peer, 47 ∉ id ∧ 112 ∉ id ∧ id ≠ [])
  (hstring : ma.string = ipText a b c d transport port peer slash)

include ht hid hstring

/-- One of the two searches for a transport finds it. -/
theorem strpos_transport :
    (strpos ma.string (ascii ['/', 't', 'c', 'p', '/'])).or (strpos ma.string (ascii ['/', 'u', 'd', 'p', '/'])) =
      some (Component.ip4 a b c d).text.length := by
  have htcp : Sought (ascii ['t', 'c', 'p']) := sought_name (.tcp 0)
  have hudp : Sought (ascii ['u', 'd', 'p']) := sought_name (.udp 0)
  have hfound (h : Sought transport) (hne : transport ≠ ascii ['i', 'p', '4']) :
      strpos ma.string (47 :: (transport ++ [47])) = some (Component.ip4 a b c d).text.length := by
    rw [hstring, strpos_ipText_transport h hne]
  rcases ht with rfl | rfl
  · have h := hfound htcp (by decide)
    change (strpos ma.string (47 :: (ascii ['t', 'c', 'p'] ++ [47]))).or _ = _
    rw [h, Option.some_or]
  · have h := hfound hudp (by decide)
    have hnone : strpos ma.string (47 :: (ascii ['t', 'c', 'p'] ++ [47])) = none := by
      rw [hstring, strpos_ipText_other htcp (by decide) hudp.slash (by decide),
        strpos_peerText htcp fun id h => ⟨(hid id h).1, (hid id h).2.1⟩, if_neg fun h => absurd h.1 (by decide)]
      rfl
    change (strpos ma.string (47 :: (ascii ['t', 'c', 'p'] ++ [47]))).or
      (strpos ma.string (47 :: (ascii ['u', 'd', 'p'] ++ [47]))) = _
    rw [hnone, h, Option.none_or]

theorem multiAddressGetIpAddress_ipText :
    multiAddressGetIpAddress ma true = .ok (some (Component.ip4 a b c d).address) := by
  have hfound := strpos_transport ht hid hstring
  have htext : ma.string = ascii ['/', 'i', 'p', '4', '/'] ++ ((Component.ip4 a b c d).address ++
      47 :: (transport ++ 47 :: (decimal port ++ peerText peer slash))) := by
    rw [hstring, ipText, Component.text, Component.protocol]
    simp [ascii]
  have hdrop : ma.string.drop 5 = (Component.ip4 a b c d).address ++
      47 :: (transport ++ 47 :: (decimal port ++ peerText peer slash)) := by
    rw [htext]
    rfl
  rw [multiAddressGetIpAddress, if_neg, if_neg]
  · simp only [Bool.not_true, Bool.false_eq_true, if_false, hdrop]
    rw [strpos_delimiter notMem_quad_pair.1]
    simp only [List.take_left]
  · rintro ⟨htcp, hudp⟩
    rw [htcp, hudp] at hfound
    cases hfound
  · rintro ⟨hip4, -⟩
    exact hip4 (htext ▸ List.prefix_append _ _)

theorem multiAddressGetIpPort_ipText (hport : port < 2 ^ 31) : multiAddressGetIpPort ma = port := by
  have hlen : transport.length = 3 := by
    rcases ht with rfl | rfl <;> rfl
  have hdrop : ma.string.drop ((Component.ip4 a b c d).text.length + 5) = decimal port ++ peerText peer slash := by
    have htext : ma.string = ((Component.ip4 a b c d).text ++ 47 :: (transport ++ [47])) ++
        (decimal port ++ peerText peer slash) := by
      rw [hstring, ipText]
      simp
    rw [htext]
    apply List.drop_left'
    simp [hlen]
  rw [multiAddressGetIpPort, strpos_transport ht hid hstring]
  simp only [hdrop]
  rcases peerText_eq peer slash with hnil | ⟨t, hcons⟩
  · rw [hnil, List.append_nil, strpos_delimiter_none (notMem_decimal_pair port).1]
    exact atoi_decimal hport
  · rw [hcons, strpos_delimiter (notMem_decimal_pair port).1]
    simp only [List.take_left]
    exact atoi_decimal hport

theorem multiAddressGetPeerId_ipText : multiAddressGetPeerId ma true = peer := by
  have hipfs : Sought (ascii ['i', 'p', 'f', 's']) := sought_name (.ipfs [])
  have htr : 47 ∉ transport ∧ ascii ['i', 'p', 'f', 's'] ≠ transport := by
    rcases ht with rfl | rfl <;> decide
  have hsearch : strpos ma.string (ascii ['/', 'i', 'p', 'f', 's', '/']) = if peer.isSome then
      some ((Component.ip4 a b c d).text ++ 47 :: (transport ++ 47 :: decimal port)).length else none := by
    change strpos ma.string (47 :: (ascii ['i', 'p', 'f', 's'] ++ [47])) = _
    rw [hstring, strpos_ipText_other hipfs (by decide) htr.1 htr.2,
      strpos_peerText hipfs fun id h => ⟨(hid id h).1, (hid id h).2.1⟩]
    cases peer <;> simp
  rw [multiAddressGetPeerId, hsearch]
  cases peer with
  | none => rfl
  | some id =>
    obtain ⟨hslash, -, hne⟩ := hid id rfl
    have hdrop : ma.string.drop (((Component.ip4 a b c d).text ++ 47 :: (transport ++ 47 :: decimal port)).length + 6) =
        id ++ finalSlash slash := by
      have htext : ma.string = ((Component.ip4 a b c d).text ++ 47 :: (transport ++ 47 :: decimal port)) ++
          ascii ['/', 'i', 'p', 'f', 's', '/'] ++ (id ++ finalSlash slash) := by
        rw [hstring, ipText, peerText]
        simp [ascii]
      rw [htext]
      apply List.drop_left'
      rw [List.length_append]
      rfl
    have hpos : 0 < id.length := List.length_pos_of_ne_nil hne
    simp only [Option.isSome_some, if_true, hdrop]
    rw [if_neg (by simp [hne])]
    cases slash with
    | false => simp [finalSlash, strpos_delimiter_none hslash, hpos]
    | true => simp [finalSlash, strpos_delimiter hslash, hpos]

end Accessors

/-! ## The address is created -/

section Creation

variable {a b c d : UInt8} {transport : List UInt8} {port : Nat} {peer : Option (List UInt8)} {slash : Bool}

/-- The protocols and addresses of a text. -/
def ipPairs (a b c d : UInt8) (transport : Protocol) (port : Nat) (peer : Option (List UInt8)) :
    List (Protocol × List UInt8) :=
  ((Component.ip4 a b c d).protocol, (Component.ip4 a b c d).address) :: (transport, decimal port) ::
    (peer.map fun id => ((Component.ipfs []).protocol, id)).toList

theorem ipText_eq (p : Protocol) : ipText a b c d p.name port peer slash =
    ((ipPairs a b c d p port peer).flatMap fun q => [q.1.name, q.2]).flatMap (47 :: ·) ++ finalSlash slash := by
  cases peer <;> simp [ipText, ipPairs, peerText, Component.text, Component.protocol]

theorem tokens_ipText {p : Protocol} (hp : p.name ≠ [] ∧ 47 ∉ p.name)
    (hid : ∀ id ∈ peer, 47 ∉ id ∧ 112 ∉ id ∧ id ≠ []) :
    tokens 47 (ipText a b c d p.name port peer slash) =
      (ipPairs a b c d p port peer).flatMap fun q => [q.1.name, q.2] := by
  have hquad := Component.address_token (c := .ip4 a b c d) (by simp)
  have hwords : ∀ w ∈ (ipPairs a b c d p port peer).flatMap (fun q => [q.1.name, q.2]), w ≠ [] ∧ 47 ∉ w := by
    intro w hw
    have hcases : w = ascii ['i', 'p', '4'] ∨ w = (Component.ip4 a b c d).address ∨ w = p.name ∨ w = decimal port ∨
        ∃ id ∈ peer, w = ascii ['i', 'p', 'f', 's'] ∨ w = id := by
      cases peer <;> simpa [ipPairs, Component.protocol] using hw
    rcases hcases with rfl | rfl | rfl | rfl | ⟨id, hmem, rfl | rfl⟩
    · decide
    · exact hquad
    · exact hp
    · exact ⟨decimal_ne_nil port, (notMem_decimal_pair port).1⟩
    · decide
    · exact ⟨(hid w hmem).2.2, (hid w hmem).1⟩
  rw [ipText_eq]
  cases slash with
  | false => rw [finalSlash, if_neg (by decide), List.append_nil, tokens_flatMap hwords]
  | true => rw [finalSlash, if_pos rfl, tokens_snoc, tokens_flatMap hwords]

/-- What the text of a peer id does not have. -/
theorem notMem_peer {text id : List UInt8} (h : Base32Encodes text id) (hid : 1 ≤ id.length) :
    47 ∉ text ∧ 112 ∉ text ∧ text ≠ [] := by
  refine ⟨h.groups.notMem (by decide) (by decide), h.groups.notMem (by decide) (by decide), ?_⟩
  rintro rfl
  have hlen := h.length
  rw [List.length_nil] at hlen
  omega

theorem length_ipText (hname : transport.length = 3) (h : port ≤ 65535)
    (hpeer : ∀ text ∈ peer, ∃ id, Base32Encodes text id ∧ 1 ≤ id.length ∧ id.length ≤ 149) :
    (ipText a b c d transport port peer slash).length < 800 := by
  have hquad := length_quad_lt a b c d
  have hport : (decimal port).length ≤ 5 := length_decimal_le (k := 5) (by omega) (by omega)
  have hfinal : (finalSlash slash).length ≤ 1 := by cases slash <;> decide
  have hpeerText : (peerText peer slash).length ≤ 247 := by
    cases peer with
    | none => exact Nat.le_trans hfinal (by decide)
    | some text =>
      obtain ⟨id, hencodes, -, hlen⟩ := hpeer text rfl
      have htext := hencodes.length
      simp only [peerText, ascii, List.length_cons, List.length_append, List.length_map, List.length_nil]
      omega
  simp only [ipText, Component.text, Component.protocol, ascii, hname, List.length_cons, List.length_append,
    List.length_map, List.length_nil]
  omega

section

variable {p : Protocol} (hp : p.deccode = 6 ∨ p.deccode = 17) (h1 : 1 ≤ port) (h : port ≤ 65535)
  (hpeer : ∀ text ∈ peer, ∃ id, Base32Encodes text id ∧ 1 ≤ id.length ∧ id.length ≤ 149)

include hp h1 h hpeer

theorem convertible_ipPairs (hknown : protoWithName p.name = some p) :
    ∀ q ∈ ipPairs a b c d p port peer, Convertible q.1 q.2 := by
  intro q hq
  simp only [ipPairs, List.mem_cons, Option.mem_toList, Option.map_eq_some_iff] at hq
  rcases hq with rfl | rfl | ⟨text, htext, rfl⟩
  · exact convertible_ip4 a b c d
  · exact convertible_port hknown hp h1 h
  · obtain ⟨id, hencodes, -, hlen⟩ := hpeer text htext
    exact convertible_ipfs hencodes.groups hlen

/-- The digits of a text fit in their buffer many times. -/
theorem length_hex_ipPairs :
    ((ipPairs a b c d p port peer).flatMap fun q => Visit.hex ⟨q.1, some q.2⟩).length < 800 := by
  have hip4 : (Visit.hex ⟨(Component.ip4 a b c d).protocol, some (Component.ip4 a b c d).address⟩).length ≤ 10 := by
    have hle := Visit.length_hex_le (Component.ip4 a b c d).deccode_lt (addressHex_quad a b c d)
    have hquad := length_hex_quad a b c d
    omega
  have hport : (Visit.hex ⟨p, some (decimal port)⟩).length ≤ 6 := by
    have hle := Visit.length_hex_le (by omega) (addressHex_port hp h1 h)
    rw [hexUpperText, length_hexText, length_beBytes] at hle
    exact hle
  have hid (text : List UInt8) (htext : text ∈ peer) :
      (Visit.hex ⟨(Component.ipfs []).protocol, some text⟩).length ≤ 302 := by
    obtain ⟨id, hencodes, -, hlen⟩ := hpeer text htext
    have hle := Visit.length_hex_le (Component.ipfs id).deccode_lt (addressHex_peer hencodes.groups)
    rw [length_hex_peer] at hle
    exact Nat.le_trans hle (by omega)
  cases peer with
  | none =>
    simp only [ipPairs, Option.map_none, Option.toList_none, List.flatMap_cons, List.flatMap_nil, List.length_append,
      List.length_nil]
    omega
  | some text =>
    have hid := hid text rfl
    simp only [ipPairs, Option.map_some, Option.toList_some, List.flatMap_cons, List.flatMap_nil, List.length_append,
      List.length_nil]
    omega

/-- The address is created, and its first byte is the code of ip4. -/
theorem multiAddressNewFromString_ipText (hknown : protoWithName p.name = some p)
    (hname : p.name.length = 3 ∧ 47 ∉ p.name) :
    ∃ bytes, multiAddressNewFromString (ipText a b c d p.name port peer slash) =
      .ok (some ⟨ipText a b c d p.name port peer slash, 4 :: bytes⟩) := by
  have hid : ∀ text ∈ peer, 47 ∉ text ∧ 112 ∉ text ∧ text ≠ [] := by
    intro text hmem
    obtain ⟨id, hencodes, hlen, -⟩ := hpeer text hmem
    exact notMem_peer hencodes hlen
  have hne : p.name ≠ [] := List.ne_nil_of_length_pos (by omega)
  have htokens : tokens 47 (ipText a b c d p.name port peer slash) = _ := tokens_ipText ⟨hne, hname.2⟩ hid
  obtain ⟨bytes, hbytes, hconv⟩ := stringToBytes_pairs (convertible_ipPairs hp h1 h hpeer hknown) rfl htokens
  rw [if_pos (length_hex_ipPairs hp h1 h hpeer)] at hconv
  obtain ⟨bytes, rfl⟩ : ∃ rest, bytes = 4 :: rest := by
    rw [ipPairs, List.flatMap_cons, Visit.hex, Component.intToHex_deccode, List.append_assoc] at hbytes
    exact hbytes.exists_cons fun _ h => hexValue_hexUpper h
  refine ⟨bytes, ?_⟩
  rw [multiAddressNewFromString_eq (length_ipText hname.1 h hpeer), hconv]
  rfl

end

end Creation

/-- **Accessors.** For every ip4 address, transport, port and optional peer id, with or without a slash at the end of
the text, the address is created from it, and every accessor gives back the component it is for. -/
theorem multi_address_accessors (a b c d : UInt8) (transport : List UInt8)
    (ht : transport = ascii ['t', 'c', 'p'] ∨ transport = ascii ['u', 'd', 'p']) (port : Nat) (h1 : 1 ≤ port)
    (h : port ≤ 65535) (peer : Option (List UInt8))
    (hpeer : ∀ text ∈ peer, ∃ id, Base32Encodes text id ∧ 1 ≤ id.length ∧ id.length ≤ 149) (slash : Bool) :
    ∃ ma, multiAddressNewFromString (ipText a b c d transport port peer slash) = .ok (some ma) ∧
      multiAddressGetIpAddress ma true = .ok (some (Component.ip4 a b c d).address) ∧ multiAddressGetIpPort ma = port ∧
      multiAddressGetIpFamily ma = .ok AF_INET ∧ multiAddressIsIp ma = .ok 1 ∧
      multiAddressGetPeerId ma true = peer := by
  have hid : ∀ text ∈ peer, 47 ∉ text ∧ 112 ∉ text ∧ text ≠ [] := by
    intro text hmem
    obtain ⟨id, hencodes, hlen, -⟩ := hpeer text hmem
    exact notMem_peer hencodes hlen
  obtain ⟨bytes, hma⟩ : ∃ bytes, multiAddressNewFromString (ipText a b c d transport port peer slash) =
      .ok (some ⟨ipText a b c d transport port peer slash, 4 :: bytes⟩) := by
    rcases ht with rfl | rfl
    · exact multiAddressNewFromString_ipText (p := (Component.tcp 0).protocol) (.inl rfl) h1 h hpeer rfl (by decide)
    · exact multiAddressNewFromString_ipText (p := (Component.udp 0).protocol) (.inr rfl) h1 h hpeer rfl (by decide)
  refine ⟨_, hma, multiAddressGetIpAddress_ipText ht hid rfl, multiAddressGetIpPort_ipText ht hid rfl (by omega), rfl,
    rfl, multiAddressGetPeerId_ipText ht hid rfl⟩

/-- The text `/ip4/127.0.0.1/tcp/4001/ipfs/AE======/`. -/
theorem multi_address_accessors_localhost :
    ∃ ma, multiAddressNewFromString (ipText 127 0 0 1 (ascii ['t', 'c', 'p']) 4001 (some (base32Text [1])) true) =
        .ok (some ma) ∧ multiAddressGetIpAddress ma true = .ok (some (Component.ip4 127 0 0 1).address) ∧
      multiAddressGetIpPort ma = (4001 : Nat) ∧ multiAddressGetIpFamily ma = .ok AF_INET ∧ multiAddressIsIp ma = .ok 1 ∧
      multiAddressGetPeerId ma true = some (base32Text [1]) := by
  refine multi_address_accessors 127 0 0 1 _ (.inl rfl) 4001 (by decide) (by decide) _ ?_ true
  rintro text ⟨⟩
  exact ⟨[1], base32Text_encodes [1], by decide, by decide⟩

end Libcp2p
