import Libcp2p.Multiaddr.Reading

/-!
# Round trips of canonical addresses

Which canonical addresses survive the way from text to bytes and back.

* `components_round_trip_iff`: a sequence of ip4 addresses and ports does exactly when no ip4 address starts with the
  octet zero and every port is below 10000.
* `ipfs_round_trip_iff`: a peer id between such components does exactly when nothing follows it, its length is one of 5,
  9, 10, 13, 14, 15, 17 to 63, and text and digits fit in their buffers.
-/

namespace Libcp2p

namespace Component

/-- An ip4 address, or a port from 1 to 65535. -/
def Transport : Component → Prop
  | ip4 _ _ _ _ => True
  | tcp port => 1 ≤ port ∧ port ≤ 65535
  | udp port => 1 ≤ port ∧ port ≤ 65535
  | ipfs _ => False

/-- The values that keep their form: an ip4 address with a first octet, a port with at most four digits. -/
def Kept : Component → Prop
  | ip4 a _ _ _ => a ≠ 0
  | tcp port => 1 ≤ port ∧ port < 10000
  | udp port => 1 ≤ port ∧ port < 10000
  | ipfs _ => False

variable {c : Component}

theorem Transport.valid (h : c.Transport) : c.Valid := by
  cases c with
  | ipfs id => exact h.elim
  | _ => exact h

theorem Transport.fixed (h : c.Transport) : c.Fixed := by
  cases c with
  | ip4 a b c d => trivial
  | tcp port | udp port => exact Nat.lt_succ_of_le h.2
  | ipfs id => exact h.elim

theorem Kept.transport (h : c.Kept) : c.Transport := by
  cases c with
  | ip4 a b c d => trivial
  | tcp port | udp port => exact ⟨h.1, Nat.le_trans (Nat.le_of_lt h.2) (by decide)⟩
  | ipfs id => exact h.elim

theorem Kept.printable (h : c.Kept) : c.Printable := by
  cases c with
  | ip4 a b c d => trivial
  | tcp port | udp port => exact h.2
  | ipfs id => trivial

/-- What is written for a component is its address exactly where no leading zero byte is lost. -/
theorem Transport.written (h : c.Transport) :
    ∃ w, Written c w ∧ w.length ≤ c.addressBytes.length ∧
      (c.addressBytes.length ≤ w.length → c.Printable → c.Kept) ∧ (c.Kept → w = c.addressBytes) := by
  cases c with
  | ip4 a b c d =>
    obtain ⟨w, hw, hkeep, hlose⟩ := written_ip4 a b c d
    refine ⟨w, hw, ?_, ?_, hkeep⟩
    · by_cases ha : a = 0
      · exact Nat.le_succ_of_le (hlose ha)
      · rw [hkeep ha]
        exact Nat.le_refl _
    · rintro hlen - rfl
      exact absurd (Nat.le_trans hlen (hlose rfl)) (by simp [addressBytes])
  | tcp port | udp port =>
    exact ⟨_, written_port h.1 h.2 rfl (by simp [protocol]), Nat.le_refl _, fun _ hprint => ⟨h.1, hprint⟩, fun _ => rfl⟩
  | ipfs id => exact h.elim

theorem Kept.written (h : c.Kept) : Written c c.addressBytes := by
  obtain ⟨w, hw, -, -, hkeep⟩ := h.transport.written
  rwa [hkeep h] at hw

/-- There are at least as many characters in the text as digits in the bytes. -/
theorem Transport.length_bytes (h : c.Transport) : 2 * c.bytes.length ≤ c.text.length := by
  have hpos (n : Nat) : 1 ≤ (decimal n).length := List.length_pos_of_ne_nil (decimal_ne_nil n)
  cases c with
  | ip4 a b c d =>
    have ha := hpos a.toNat
    have hb := hpos b.toNat
    have hc := hpos c.toNat
    have hd := hpos d.toNat
    simp only [bytes, addressBytes, text, protocol, address, ascii, List.length_cons, List.length_append,
      List.length_map, List.length_nil]
    omega
  | tcp port | udp port =>
    have hport := hpos port
    simp only [bytes, addressBytes, text, protocol, address, ascii, List.length_cons, List.length_append,
      List.length_map, List.length_nil, length_beBytes]
    omega
  | ipfs id => exact h.elim

end Component

section Lengths

variable {α β : Type} {cs : List α} {f g : α → List β}

theorem length_flatMap_le (h : ∀ c ∈ cs, (f c).length ≤ (g c).length) :
    (cs.flatMap f).length ≤ (cs.flatMap g).length := by
  induction cs with
  | nil => exact Nat.le_refl _
  | cons c cs ih =>
    rw [List.flatMap_cons, List.flatMap_cons, List.length_append, List.length_append]
    exact Nat.add_le_add (h c List.mem_cons_self) (ih fun c hc => h c (List.mem_cons_of_mem _ hc))

/-- Where pieces are not longer but their total is not shorter, no piece is shorter. -/
theorem length_le_of_flatMap_le (h : ∀ c ∈ cs, (f c).length ≤ (g c).length)
    (hle : (cs.flatMap g).length ≤ (cs.flatMap f).length) : ∀ c ∈ cs, (g c).length ≤ (f c).length := by
  induction cs with
  | nil => exact fun c hc => by cases hc
  | cons c cs ih =>
    rw [List.flatMap_cons, List.flatMap_cons, List.length_append, List.length_append] at hle
    have hc := h c List.mem_cons_self
    have hcs := length_flatMap_le fun c hc => h c (List.mem_cons_of_mem _ hc)
    intro d hd
    rcases List.mem_cons.mp hd with rfl | hd
    · omega
    · exact ih (fun c hc => h c (List.mem_cons_of_mem _ hc)) (by omega) d hd

end Lengths

section Transports

variable {cs : List Component}

/-- The fuel is enough. -/
theorem length_le_canonicalBytes (cs : List Component) : cs.length ≤ (canonicalBytes cs).length := by
  induction cs with
  | nil => exact Nat.le_refl _
  | cons c cs ih =>
    simp only [canonicalBytes, List.flatMap_cons, List.length_append, List.length_cons, Component.bytes] at ih ⊢
    omega

/-- A sequence of components of fixed size and what follows it, from its bytes. -/
theorem bytesToString_components (tail : List UInt8) (hcs : ∀ c ∈ cs, c.Fixed) (hne : cs ≠ [] ∨ tail ≠ []) :
    ∃ fuel, bytesToString (canonicalBytes cs ++ tail) =
      if (∀ c ∈ cs, c.Printable) ∧ (cs.flatMap Component.text).length < 800 then
        if tail = [] then closeString (cs.flatMap Component.text)
        else bytesToStringLoop (fuel + 1) (hexLowerText tail) (cs.flatMap Component.text)
      else .error .outOfBounds := by
  have hle := length_le_canonicalBytes cs
  obtain ⟨fuel, hfuel⟩ : ∃ fuel, (canonicalBytes cs ++ tail).length + 1 = cs.length + (fuel + 1) := by
    rw [List.length_append]
    exact ⟨(canonicalBytes cs).length + tail.length - cs.length, by omega⟩
  refine ⟨fuel, ?_⟩
  rw [bytesToString, hfuel, varToHex, bytesToStringLoop_components hcs hne (by simp), List.nil_append]

/-- An address of components of fixed size, from its bytes. -/
theorem bytesToString_fixed (hcs : ∀ c ∈ cs, c.Fixed) (hne : cs ≠ []) : bytesToString (canonicalBytes cs) =
    if (∀ c ∈ cs, c.Printable) ∧ (canonicalText cs).length < 800 then .ok (some (canonicalText cs))
    else .error .outOfBounds := by
  obtain ⟨fuel, h⟩ := bytesToString_components [] hcs (.inl hne)
  have hle : (cs.flatMap Component.text).length ≤ (canonicalText cs).length := (List.prefix_append _ _).length_le
  rw [List.append_nil, if_pos rfl, closeString_eq] at h
  rw [h]
  change (if (∀ c ∈ cs, c.Printable) ∧ _ then
    if (canonicalText cs).length < 800 then _ else _ else _) = _
  by_cases hprint : ∀ c ∈ cs, c.Printable
  · by_cases hfit : (canonicalText cs).length < 800
    · rw [if_pos ⟨hprint, by omega⟩, if_pos hfit, if_pos ⟨hprint, hfit⟩]
      rfl
    · rw [if_neg hfit, ite_self, if_neg fun h => hfit h.2]
  · rw [if_neg fun h => hprint h.1, if_neg fun h => hprint h.1]

/-- An address of components, from its text. -/
theorem multiAddressNewFromString_canonicalText {w : Component → List UInt8} (hvalid : ∀ c ∈ cs, c.Valid)
    (hw : ∀ c ∈ cs, Written c (w c)) : multiAddressNewFromString (canonicalText cs) =
      if (canonicalText cs).length < 800 ∧ (cs.flatMap fun c => c.code :: w c).length < 400 then
        .ok (some ⟨canonicalText cs, cs.flatMap fun c => c.code :: w c⟩)
      else .error .outOfBounds := by
  rw [multiAddressNewFromString, strcpy]
  by_cases hfit : (canonicalText cs).length < 800
  · rw [if_pos hfit, ok_bind, stringToBytes_canonicalText hvalid hw]
    by_cases hdigits : (cs.flatMap fun c => c.code :: w c).length < 400
    · rw [if_pos hdigits, if_pos ⟨hfit, hdigits⟩, ok_bind]
    · rw [if_neg hdigits, if_neg fun h => hdigits h.2, error_bind]
  · rw [if_neg hfit, if_neg fun h => hfit h.1, error_bind]

/-- Digits that come from a text of ip4 addresses and ports always fit. -/
theorem length_canonicalBytes_lt (hcs : ∀ c ∈ cs, c.Transport) (hlen : (canonicalText cs).length < 800) :
    (canonicalBytes cs).length < 400 := by
  have hle : 2 * (canonicalBytes cs).length ≤ (cs.flatMap Component.text).length := by
    clear hlen
    induction cs with
    | nil => exact Nat.le_refl _
    | cons c cs ih =>
      have hc := (hcs c List.mem_cons_self).length_bytes
      have ih := ih fun c hc => hcs c (List.mem_cons_of_mem _ hc)
      simp only [canonicalBytes, List.flatMap_cons, List.length_append] at ih ⊢
      omega
  rw [canonicalText, List.length_append, List.length_singleton] at hlen
  omega

/-- **Round trips of ip4 addresses and ports.** -/
theorem components_round_trip_iff (cs : List Component) (hne : cs ≠ []) (hcs : ∀ c ∈ cs, c.Transport)
    (hlen : (canonicalText cs).length < 800) :
    (multiAddressNewFromString (canonicalText cs) = .ok (some ⟨canonicalText cs, canonicalBytes cs⟩) ∧
      multiAddressNewFromBytes (canonicalBytes cs) = .ok (some ⟨canonicalText cs, canonicalBytes cs⟩)) ↔
      ∀ c ∈ cs, c.Kept := by
  have hvalid : ∀ c ∈ cs, c.Valid := fun c hc => (hcs c hc).valid
  have hbytes := bytesToString_fixed (fun c hc => (hcs c hc).fixed) hne
  constructor
  · rintro ⟨hstring, hback⟩
    rw [multiAddressNewFromBytes, hbytes] at hback
    have hprint : ∀ c ∈ cs, c.Printable := by
      by_contra hprint
      rw [if_neg fun h => hprint h.1] at hback
      cases hback
    -- every component was written in full, because nothing is missing in the end
    choose! w hw hwle hwkeep _ using fun (c : Component) (hc : c.Transport) => hc.written
    rw [multiAddressNewFromString_canonicalText hvalid fun c hc => hw c (hcs c hc)] at hstring
    have heq : (cs.flatMap fun c => c.code :: w c) = canonicalBytes cs := by
      split at hstring
      · exact congrArg MultiAddress.bytes (Option.some.inj (Except.ok.inj hstring))
      · cases hstring
    have hfull := length_le_of_flatMap_le (f := fun c => Component.code c :: w c) (g := Component.bytes)
      (fun c hc => Nat.succ_le_succ (hwle c (hcs c hc))) (Nat.le_of_eq (congrArg List.length heq).symm)
    intro c hc
    exact hwkeep c (hcs c hc) (Nat.le_of_succ_le_succ (hfull c hc)) (hprint c hc)
  · intro hkept
    have hw := multiAddressNewFromString_canonicalText hvalid fun c hc => (hkept c hc).written
    have hprint : ∀ c ∈ cs, c.Printable := fun c hc => (hkept c hc).printable
    refine ⟨hw.trans (if_pos ⟨hlen, length_canonicalBytes_lt hcs hlen⟩), ?_⟩
    rw [multiAddressNewFromBytes, hbytes, if_pos ⟨hprint, hlen⟩, ok_bind]

/-- The address `/ip4/127.0.0.1/tcp/4001/`. -/
theorem components_round_trip_iff_localhost :
    multiAddressNewFromString (canonicalText [.ip4 127 0 0 1, .tcp 4001]) =
        .ok (some ⟨canonicalText [.ip4 127 0 0 1, .tcp 4001], [4, 127, 0, 0, 1, 6, 15, 161]⟩) ∧
      multiAddressNewFromBytes [4, 127, 0, 0, 1, 6, 15, 161] =
        .ok (some ⟨canonicalText [.ip4 127 0 0 1, .tcp 4001], [4, 127, 0, 0, 1, 6, 15, 161]⟩) :=
  (components_round_trip_iff [.ip4 127 0 0 1, .tcp 4001] (by simp) (by simp [Component.Transport]) (by decide)).mpr
    (by simp [Component.Kept])

/-- The address `/ip4/0.0.0.1/` loses three bytes, and the bytes of `/tcp/10000/` cannot be printed. -/
theorem components_not_round_trip :
    multiAddressNewFromString (canonicalText [.ip4 0 0 0 1]) = .ok (some ⟨canonicalText [.ip4 0 0 0 1], [4, 1]⟩) ∧
      multiAddressNewFromString (canonicalText [.tcp 10000]) = .ok (some ⟨canonicalText [.tcp 10000], [6, 39, 16]⟩) ∧
      multiAddressNewFromBytes [6, 39, 16] = .error .outOfBounds := by
  decide +kernel

end Transports

/-! ## Peer ids -/

section Ipfs

variable {d : List UInt8} {before after : List Component}

/-- A peer id after components of fixed size, from its bytes. -/
theorem bytesToString_ipfs (hbefore : ∀ c ∈ before, c.Fixed) (p : UInt8) (bs : List UInt8) :
    bytesToString (canonicalBytes before ++ 42 :: p :: bs) =
      if (∀ c ∈ before, c.Printable) ∧ PeerIdRead p bs ∧
          (before.flatMap Component.text ++ peerIdText (bs.take (p.toNat % 128 / 2))).length < 800 then
        .ok (some (before.flatMap Component.text ++ peerIdText (bs.take (p.toNat % 128 / 2))))
      else .error .outOfBounds := by
  obtain ⟨fuel, h⟩ := bytesToString_components (42 :: p :: bs) hbefore (.inr (List.cons_ne_nil _ _))
  rw [h, if_neg (List.cons_ne_nil _ _), bytesToStringLoop_ipfs]
  have hle : (before.flatMap Component.text).length ≤
      (before.flatMap Component.text ++ peerIdText (bs.take (p.toNat % 128 / 2))).length :=
    (List.prefix_append _ _).length_le
  by_cases hprint : ∀ c ∈ before, c.Printable
  · by_cases hfit : PeerIdRead p bs ∧
        (before.flatMap Component.text ++ peerIdText (bs.take (p.toNat % 128 / 2))).length < 800
    · rw [if_pos ⟨hprint, by have := hfit.2; omega⟩, if_pos hfit, if_pos ⟨hprint, hfit⟩]
    · rw [if_neg hfit, ite_self, if_neg fun h => hfit h.2]
  · rw [if_neg fun h => hprint h.1, if_neg fun h => hprint h.1]

/-- The lengths of the peer ids that come back: announced in full, and with fewer characters in base32 than hexadecimal
digits. -/
def PeerIdLength (n : Nat) : Prop := n < 64 ∧ (n + 4) / 5 * 8 < 2 * n

/-- The digit count that is written in front of a peer id is read modulo 128. -/
theorem announced_length (n : Nat) : (UInt8.ofNat (2 * n % 256 ||| 0x80)).toNat % 128 / 2 = n % 64 ∧
    (UInt8.ofNat (2 * n % 256 ||| 0x80)).toNat % 2 = 0 := by
  have all : ∀ x < 256, (UInt8.ofNat (x ||| 0x80)).toNat % 128 = x % 128 := by decide +kernel
  have h := all (2 * n % 256) (Nat.mod_lt _ (by decide))
  omega

/-- Bytes with a peer id in them: at most 63 bytes of it are printed, and nothing behind it. -/
theorem bytesToString_canonicalBytes_ipfs (hbefore : ∀ c ∈ before, c.Kept) (d : List UInt8) (after : List Component) :
    bytesToString (canonicalBytes (before ++ .ipfs d :: after)) =
      if (base32Text (d.take (d.length % 64))).length < 2 * (d.length % 64) ∧
          (canonicalText (before ++ [.ipfs (d.take (d.length % 64))])).length < 800 then
        .ok (some (canonicalText (before ++ [.ipfs (d.take (d.length % 64))])))
      else .error .outOfBounds := by
  obtain ⟨hmod, heven⟩ := announced_length d.length
  have hle : d.length % 64 ≤ d.length := Nat.mod_le _ _
  have hbytes : canonicalBytes (before ++ .ipfs d :: after) =
      canonicalBytes before ++ 42 :: UInt8.ofNat (2 * d.length % 256 ||| 0x80) :: (d ++ canonicalBytes after) := by
    simp [canonicalBytes, Component.bytes, Component.addressBytes, Component.code, Component.protocol]
  have htext (d : List UInt8) :
      before.flatMap Component.text ++ peerIdText d = canonicalText (before ++ [.ipfs d]) := by
    simp [canonicalText, peerIdText]
  have hread : PeerIdRead (UInt8.ofNat (2 * d.length % 256 ||| 0x80)) (d ++ canonicalBytes after) ↔
      (base32Text (d.take (d.length % 64))).length < 2 * (d.length % 64) := by
    rw [PeerIdRead, hmod, List.take_append_of_le_length hle]
    refine ⟨fun h => h.2.2, fun h => ⟨?_, .inl heven, h⟩⟩
    rw [List.length_append]
    omega
  rw [hbytes, bytesToString_ipfs fun c hc => (hbefore c hc).transport.fixed, hmod, List.take_append_of_le_length hle,
    htext]
  refine if_congr ?_ rfl rfl
  rw [hread]
  exact and_iff_right fun c hc => (hbefore c hc).printable

/-- Only the whole of a short peer id at the end has the text that is printed. -/
theorem canonicalText_take_eq (hd : 1 ≤ d.length)
    (h : canonicalText (before ++ [.ipfs (d.take (d.length % 64))]) = canonicalText (before ++ .ipfs d :: after)) :
    after = [] ∧ d.length < 64 := by
  have hlen := congrArg List.length h
  simp only [canonicalText, List.flatMap_append, List.flatMap_cons, List.flatMap_nil, List.append_nil,
    List.length_append, Component.text, Component.protocol, Component.address, List.length_cons, length_base32Text,
    List.length_take] at hlen
  cases after with
  | nil => exact ⟨rfl, by omega⟩
  | cons c after =>
    simp only [List.flatMap_cons, Component.text, List.length_append, List.length_cons] at hlen
    omega

/-- **Round trips of peer ids.** -/
theorem ipfs_round_trip_iff (d : List UInt8) (before after : List Component) (hd : 1 ≤ d.length) (hd' : d.length ≤ 149)
    (hbefore : ∀ c ∈ before, c.Kept) (hafter : ∀ c ∈ after, c.Kept) :
    (∃ bytes, multiAddressNewFromString (canonicalText (before ++ .ipfs d :: after)) =
        .ok (some ⟨canonicalText (before ++ .ipfs d :: after), bytes⟩) ∧
      multiAddressNewFromBytes bytes = .ok (some ⟨canonicalText (before ++ .ipfs d :: after), bytes⟩)) ↔
      after = [] ∧ PeerIdLength d.length ∧ (canonicalText (before ++ .ipfs d :: after)).length < 800 ∧
        (canonicalBytes (before ++ .ipfs d :: after)).length < 400 := by
  have hcs : ∀ c ∈ before ++ .ipfs d :: after, c.Valid ∧ Written c c.addressBytes := by
    intro c hc
    rcases List.mem_append.mp hc with hc | hc
    · exact ⟨(hbefore c hc).transport.valid, (hbefore c hc).written⟩
    · rcases List.mem_cons.mp hc with rfl | hc
      · exact ⟨⟨hd, hd'⟩, written_ipfs hd'⟩
      · exact ⟨(hafter c hc).transport.valid, (hafter c hc).written⟩
  have hstring : multiAddressNewFromString (canonicalText (before ++ .ipfs d :: after)) =
      if (canonicalText (before ++ .ipfs d :: after)).length < 800 ∧
          (canonicalBytes (before ++ .ipfs d :: after)).length < 400 then
        .ok (some ⟨canonicalText (before ++ .ipfs d :: after), canonicalBytes (before ++ .ipfs d :: after)⟩)
      else .error .outOfBounds :=
    multiAddressNewFromString_canonicalText (fun c hc => (hcs c hc).1) fun c hc => (hcs c hc).2
  have hback := bytesToString_canonicalBytes_ipfs hbefore d after
  constructor
  · rintro ⟨bytes, hto, hfrom⟩
    rw [hstring] at hto
    split at hto
    next hfit =>
      obtain rfl : canonicalBytes (before ++ .ipfs d :: after) = bytes :=
        congrArg MultiAddress.bytes (Option.some.inj (Except.ok.inj hto))
      rw [multiAddressNewFromBytes, hback] at hfrom
      split at hfrom
      next hshort =>
        have htext := congrArg MultiAddress.string (Option.some.inj (Except.ok.inj hfrom))
        obtain ⟨hnil, hlt⟩ := canonicalText_take_eq hd htext
        have hn := hshort.1
        rw [Nat.mod_eq_of_lt hlt, List.take_length, length_base32Text] at hn
        exact ⟨hnil, ⟨hlt, hn⟩, hfit⟩
      next => cases hfrom
    next => cases hto
  · rintro ⟨rfl, ⟨hlt, hn⟩, hfit⟩
    refine ⟨canonicalBytes (before ++ [.ipfs d]), hstring.trans (if_pos hfit), ?_⟩
    rw [Nat.mod_eq_of_lt hlt, List.take_length, length_base32Text, if_pos ⟨hn, hfit.1⟩] at hback
    rw [multiAddressNewFromBytes, hback, ok_bind]

/-- A peer id of 34 bytes after `/ip4/127.0.0.1/tcp/4001`. -/
theorem ipfs_round_trip_iff_multihash : ∃ bytes,
    multiAddressNewFromString (canonicalText [.ip4 127 0 0 1, .tcp 4001, .ipfs (18 :: 32 :: List.replicate 32 171)]) =
        .ok (some ⟨canonicalText [.ip4 127 0 0 1, .tcp 4001, .ipfs (18 :: 32 :: List.replicate 32 171)], bytes⟩) ∧
      multiAddressNewFromBytes bytes =
        .ok (some ⟨canonicalText [.ip4 127 0 0 1, .tcp 4001, .ipfs (18 :: 32 :: List.replicate 32 171)], bytes⟩) :=
  (ipfs_round_trip_iff (18 :: 32 :: List.replicate 32 171) [.ip4 127 0 0 1, .tcp 4001] [] (by decide) (by decide)
    (by simp [Component.Kept]) (by simp)).mpr ⟨rfl, by simp [PeerIdLength], by decide +kernel, by decide⟩

/-- A peer id of one byte cannot be printed, one of 69 bytes comes back as its first 5 bytes, and a port behind a peer
id is dropped. -/
theorem ipfs_not_round_trip :
    (multiAddressNewFromString (canonicalText [.ipfs [7]]) = .ok (some ⟨canonicalText [.ipfs [7]], [42, 130, 7]⟩) ∧
        multiAddressNewFromBytes [42, 130, 7] = .error .outOfBounds) ∧
      (multiAddressNewFromString (canonicalText [.ipfs (List.replicate 69 7)]) =
          .ok (some ⟨canonicalText [.ipfs (List.replicate 69 7)], 42 :: 138 :: List.replicate 69 7⟩) ∧
        multiAddressNewFromBytes (42 :: 138 :: List.replicate 69 7) =
          .ok (some ⟨canonicalText [.ipfs (List.replicate 5 7)], 42 :: 138 :: List.replicate 69 7⟩)) ∧
      (multiAddressNewFromString (canonicalText [.ipfs [1, 2, 3, 4, 5], .tcp 80]) =
          .ok (some ⟨canonicalText [.ipfs [1, 2, 3, 4, 5], .tcp 80], [42, 138, 1, 2, 3, 4, 5, 6, 0, 80]⟩) ∧
        multiAddressNewFromBytes [42, 138, 1, 2, 3, 4, 5, 6, 0, 80] =
          .ok (some ⟨canonicalText [.ipfs [1, 2, 3, 4, 5]], [42, 138, 1, 2, 3, 4, 5, 6, 0, 80]⟩)) := by
  decide +kernel

end Ipfs

end Libcp2p
