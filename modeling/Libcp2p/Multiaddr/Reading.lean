import Libcp2p.Multiaddr.Components

/-!
# From bytes to text

`bytesToString` works on the digits of an array; here is what it does with the bytes themselves.

* `bytesToStringLoop_fixed`: an ip4 address or a port is printed and the loop goes on behind it; a port that has five
  digits does not fit in the five characters of its buffer.
* `ipfsText_cons`: a peer id is read as far as its prefix says, and printed if the text is shorter than its digits; the
  loop then ends, whatever follows.
* `bytesToStringLoop_components`: a sequence of components and what comes after it.
-/

namespace Libcp2p

/-! ## Digits of bytes -/

section Digits

variable {bs : List UInt8} {m : Nat}

theorem take_hexLowerText (bs : List UInt8) (m : Nat) : (hexLowerText bs).take (2 * m) = hexLowerText (bs.take m) := by
  induction m generalizing bs with
  | zero => rfl
  | succ m ih =>
    cases bs with
    | nil => simp [hexLowerText, hexText]
    | cons b bs =>
      rw [Nat.mul_succ, List.take_succ_cons, hexLowerText, hexText, hexText]
      exact congrArg _ (congrArg _ (ih bs))

theorem drop_hexLowerText (bs : List UInt8) (m : Nat) : (hexLowerText bs).drop (2 * m) = hexLowerText (bs.drop m) := by
  induction m generalizing bs with
  | zero => rfl
  | succ m ih =>
    cases bs with
    | nil => simp [hexLowerText, hexText]
    | cons b bs => exact ih bs

theorem hexLowerText_eq_nil : hexLowerText bs = [] ↔ bs = [] := by
  cases bs with
  | nil => exact iff_of_true rfl rfl
  | cons b bs => exact iff_of_false (List.cons_ne_nil _ _) (List.cons_ne_nil _ _)

/-- Reading the digits of `m` bytes in front of the NUL. -/
theorem readBytes_hexLowerText (bs : List UInt8) (m : Nat) : readBytes (hexLowerText bs ++ [0]) (2 * m) =
    if m ≤ bs.length then .ok (hexLowerText (bs.take m)) else .error .outOfBounds := by
  rw [readBytes, List.length_append, length_hexLowerText, List.length_singleton]
  by_cases h : m ≤ bs.length
  · rw [if_pos h, if_pos (by omega), List.take_append_of_le_length (by rw [length_hexLowerText]; omega),
      take_hexLowerText]
  · rw [if_neg h, if_neg (by omega)]

theorem zero_notMem_hexLowerText (bs : List UInt8) : 0 ∉ hexLowerText bs := (hexLowerText_encodes bs).zero_notMem

theorem cstr_hexLowerText (bs : List UInt8) : cstr (hexLowerText bs) = hexLowerText bs :=
  cstr_of_notMem (zero_notMem_hexLowerText bs)

theorem hexToInt_hexLowerText (h : bs.length ≤ 8) : hexToInt (hexLowerText bs) = beNat bs :=
  hexToInt_hexText (fun _ hd => hexValue_hexLower hd) h

end Digits

/-- Reading one digit more than those of `m` bytes: it is the first digit of the next byte, or the NUL. -/
theorem readBytes_hexLowerText_odd (bs : List UInt8) (m : Nat) :
    readBytes (hexLowerText bs ++ [0]) (2 * m + 1) =
      if m ≤ bs.length then .ok (hexLowerText (bs.take m) ++ [(hexLowerText (bs.drop m)).headD 0])
      else .error .outOfBounds := by
  rw [readBytes, List.length_append, length_hexLowerText, List.length_singleton]
  by_cases h : m ≤ bs.length
  · rw [if_pos h, if_pos (by omega)]
    have hsplit : hexLowerText bs ++ [0] = hexLowerText (bs.take m) ++ (hexLowerText (bs.drop m) ++ [0]) := by
      rw [← List.append_assoc, hexLowerText, ← hexText_append, List.take_append_drop]
    have hlen : (hexLowerText (bs.take m)).length = 2 * m := by
      rw [length_hexLowerText, List.length_take_of_le h]
    rw [hsplit, ← hlen, List.take_length_add_append]
    cases bs.drop m <;> rfl
  · rw [if_neg h, if_neg (by omega)]

/-- Half a byte at the end does not fit in the array. -/
theorem hexToVar_snoc {payload d : List UInt8} (h : Base16Encodes payload d) (c : UInt8) :
    hexToVar (payload ++ [c]) = .error .outOfBounds := by
  induction h with
  | nil => rfl
  | pair _ _ _ ih => rw [List.cons_append, List.cons_append, hexToVar, ih, error_bind]

/-! ## One component -/

section Fixed

variable {c : Component} {fuel : Nat} {bs buffer : List UInt8}

/-- An address of fixed size: an ip4 address or a port. -/
def Component.Fixed : Component → Prop
  | ip4 _ _ _ _ => True
  | tcp port => port < 65536
  | udp port => port < 65536
  | ipfs _ => False

/-- The text of the address fits in the buffer it is printed to. -/
def Component.Printable : Component → Prop
  | ip4 _ _ _ _ => True
  | tcp port => port < 10000
  | udp port => port < 10000
  | ipfs _ => True

instance : (c : Component) → Decidable c.Printable
  | .ip4 _ _ _ _ => isTrue trivial
  | .tcp port => inferInstanceAs (Decidable (port < 10000))
  | .udp port => inferInstanceAs (Decidable (port < 10000))
  | .ipfs _ => isTrue trivial

theorem strcpy_decimal (port : Nat) :
    strcpy 5 (decimal port) = if port < 10000 then .ok (decimal port) else .error .outOfBounds := by
  by_cases h : port < 10000
  · have hlen : (decimal port).length ≤ 4 := length_decimal_le (k := 4) (by omega) h
    rw [if_pos h, strcpy_ok (by omega)]
  · have hlen : 4 < (decimal port).length := lt_length_decimal (k := 4) (by omega)
    rw [if_neg h, strcpy, if_neg (by omega)]

theorem int2ip_beNat (a b c d : UInt8) : int2ip (beNat [a, b, c, d]) = (Component.ip4 a b c d).address := by
  have ha := a.toNat_lt
  have hb := b.toNat_lt
  have hc := c.toNat_lt
  have hd := d.toNat_lt
  have hval : beNat [a, b, c, d] = ((a.toNat * 256 + b.toNat) * 256 + c.toNat) * 256 + d.toNat := by
    simp only [beNat, List.foldl_cons, List.foldl_nil]
    omega
  have h1 : beNat [a, b, c, d] / 2 ^ 24 % 256 = a.toNat := by omega
  have h2 : beNat [a, b, c, d] / 2 ^ 16 % 256 = b.toNat := by omega
  have h3 : beNat [a, b, c, d] / 2 ^ 8 % 256 = c.toNat := by omega
  have h4 : beNat [a, b, c, d] % 256 = d.toNat := by omega
  rw [int2ip, h1, h2, h3, h4]
  rfl

/-- The text made of the bytes of an address. -/
theorem addressText_addressBytes (hc : c.Fixed) :
    addressText c.protocol.name (hexLowerText c.addressBytes) =
      if c.Printable then .ok c.address else .error .outOfBounds := by
  have hport {port : Nat} (h : port < 65536) : hexToInt (hexLowerText (beBytes 2 port)) = port := by
    rw [hexToInt_hexLowerText (by simp), beNat_beBytes h]
  cases c with
  | ip4 a b c d =>
    rw [if_pos (show (Component.ip4 a b c d).Printable from trivial), ← int2ip_beNat,
      ← hexToInt_hexLowerText (show [a, b, c, d].length ≤ 8 by simp)]
    rfl
  | tcp port =>
    have htext (address : List UInt8) :
        addressText (ascii ['t', 'c', 'p']) address = strcpy 5 (decimal (hexToInt address)) := rfl
    rw [Component.protocol, htext, Component.addressBytes, hport hc]
    exact strcpy_decimal port
  | udp port =>
    have htext (address : List UInt8) :
        addressText (ascii ['u', 'd', 'p']) address = strcpy 5 (decimal (hexToInt address)) := rfl
    rw [Component.protocol, htext, Component.addressBytes, hport hc]
    exact strcpy_decimal port
  | ipfs id => exact hc.elim

/-- The digits of an address are as many as its protocol says. -/
theorem length_addressBytes (hc : c.Fixed) : (c.protocol.size / 4).toNat = 2 * c.addressBytes.length := by
  cases c with
  | ipfs id => exact hc.elim
  | _ => simp [Component.protocol, Component.addressBytes]

theorem protoWithDeccode_code (c : Component) : protoWithDeccode c.code.toNat = some c.protocol := by
  cases c <;> rfl

/-- The code in front of the digits. -/
theorem readBytes_pid (code : UInt8) (bs : List UInt8) :
    readBytes (hexLowerText (code :: bs) ++ [0]) 2 = .ok (hexLowerText [code]) :=
  readBytes_hexLowerText (code :: bs) 1

theorem hexToInt_pid (code : UInt8) : hexToInt (cstr (hexLowerText [code])) = code.toNat := by
  rw [cstr_hexLowerText, hexToInt_hexLowerText (by simp), beNat_singleton]

/-- A protocol other than ipfs: the digits of its address are read, if they are all there. -/
theorem bytesToStringLoop_protocol {code : UInt8} {protocol : Protocol} {m : Nat}
    (hp : protoWithDeccode code.toNat = some protocol) (hname : protocol.name ≠ ascii ['i', 'p', 'f', 's'])
    (hsize : (protocol.size / 4).toNat = 2 * m) (fuel : Nat) (bs buffer : List UInt8) :
    bytesToStringLoop (fuel + 1) (hexLowerText (code :: bs)) buffer =
      if m ≤ bs.length then do
        let buffer ← strcat 800 buffer (47 :: (protocol.name ++ [47]))
        let text ← addressText protocol.name (hexLowerText (bs.take m))
        let buffer ← strcat 800 buffer text
        if bs.drop m = [] then closeString buffer else bytesToStringLoop fuel (hexLowerText (bs.drop m)) buffer
      else .error .outOfBounds := by
  have hdrop : (hexLowerText (code :: bs)).drop 2 = hexLowerText bs := drop_hexLowerText (code :: bs) 1
  have hrest : (hexLowerText (code :: bs)).drop (2 + 2 * m) = hexLowerText (bs.drop m) := by
    rw [← List.drop_drop, hdrop, drop_hexLowerText]
  rw [bytesToStringLoop, readBytes_pid, ok_bind, hexToInt_pid, hp]
  simp only [hname, ne_eq, not_false_eq_true, if_true, hsize, hdrop, hrest, readBytes_hexLowerText, hexLowerText_eq_nil,
    ite_not]
  by_cases h : m ≤ bs.length
  · simp only [if_pos h, ok_bind, cstr_hexLowerText]
  · simp only [if_neg h, error_bind]

/-- **A component of fixed size** is printed if there is room, and the loop goes on behind it. -/
theorem bytesToStringLoop_fixed (hc : c.Fixed) (fuel : Nat) (bs buffer : List UInt8) :
    bytesToStringLoop (fuel + 1) (hexLowerText (c.bytes ++ bs)) buffer =
      if c.Printable ∧ (buffer ++ c.text).length < 800 then
        if bs = [] then closeString (buffer ++ c.text)
        else bytesToStringLoop fuel (hexLowerText bs) (buffer ++ c.text)
      else .error .outOfBounds := by
  have hname : c.protocol.name ≠ ascii ['i', 'p', 'f', 's'] := by
    cases c with
    | ipfs id => exact hc.elim
    | _ => simp [Component.protocol, ascii]
  have htext : 47 :: (c.protocol.name ++ [47]) ++ c.address = c.text := by
    simp [Component.text]
  have hbytes : c.bytes ++ bs = c.code :: (c.addressBytes ++ bs) := rfl
  rw [hbytes, bytesToStringLoop_protocol (protoWithDeccode_code c) hname (length_addressBytes hc), if_pos (by simp),
    List.take_left, List.drop_left, addressText_addressBytes hc]
  by_cases hprint : c.Printable
  · rw [if_pos hprint]
    simp only [ok_bind]
    rw [strcat_strcat, htext, strcat, strcpy]
    by_cases hfit : (buffer ++ c.text).length < 800
    · rw [if_pos hfit, if_pos ⟨hprint, hfit⟩, ok_bind]
    · rw [if_neg hfit, if_neg fun h => hfit h.2, error_bind]
  · rw [if_neg hprint, if_neg fun h => hprint h.1, strcat, strcpy]
    split <;> rfl

end Fixed

/-! ## Peer ids -/

section Ipfs

variable {bs buffer d : List UInt8} {n : Nat}

/-- A text that leaves no room for its NUL is cut off. -/
theorem libp2pEncodingBase32Encode_cut (hn : 1 ≤ n) (h : n ≤ (base32Text d).length) :
    libp2pEncodingBase32Encode d n = .ok (some ((base32Text d).take n, n)) := by
  have hlen : ((base32Text d).take n).length = n := by
    rw [List.length_take]
    omega
  have henc : base32Encode d (List.replicate n 0) = (base32Text d).take n := by
    unfold base32Encode overlay
    simp [hlen]
  have hne : (base32Text d).take n ≠ [] := List.ne_nil_of_length_pos (by omega)
  unfold libp2pEncodingBase32Encode
  simp only [henc, List.getLast?_eq_some_getLast hne]
  split
  · next hnone => cases hnone
  · next hzero =>
    have hmem := List.getLast_mem hne
    rw [Option.some.inj hzero] at hmem
    exact absurd (List.mem_of_mem_take hmem) (zero_notMem_base32Text d)
  · rfl

/-- The base32 text of `d`, made in a buffer of `n` characters and read as a string. -/
def b32String (d : List UInt8) (n : Nat) : Except Fault (Option (List UInt8)) := do
  match ← libp2pEncodingBase32Encode d n with
  | none => .ok none
  | some (b32, _) => do
    let text ← cString b32
    .ok (some text)

theorem b32String_eq (d : List UInt8) (n : Nat) :
    b32String d n = if (base32Text d).length < n then .ok (some (base32Text d)) else .error .outOfBounds := by
  by_cases h : (base32Text d).length < n
  · obtain ⟨k, hk⟩ : ∃ k, n - (base32Text d).length = k + 1 := ⟨n - (base32Text d).length - 1, by omega⟩
    rw [if_pos h, b32String, libp2pEncodingBase32Encode_eq h, ok_bind, hk, List.replicate_succ]
    simp only [cString_append (zero_notMem_base32Text d), ok_bind]
  · rw [if_neg h, b32String]
    rcases Nat.eq_zero_or_pos n with rfl | hn
    · rfl
    · rw [libp2pEncodingBase32Encode_cut hn (by omega), ok_bind]
      have hzero : 0 ∉ (base32Text d).take n := fun hmem => zero_notMem_base32Text d (List.mem_of_mem_take hmem)
      simp only [cString, if_neg hzero, error_bind]

/-- The number of bytes that the prefix `p` announces, and whether `bs` has them: an odd number of digits is accepted
where the NUL is one of them. -/
def PeerIdRead (p : UInt8) (bs : List UInt8) : Prop :=
  p.toNat % 128 / 2 ≤ bs.length ∧ (p.toNat % 2 = 0 ∨ p.toNat % 128 / 2 = bs.length) ∧
    (base32Text (bs.take (p.toNat % 128 / 2))).length < 2 * (p.toNat % 128 / 2)

instance (p : UInt8) (bs : List UInt8) : Decidable (PeerIdRead p bs) := inferInstanceAs (Decidable (_ ∧ _ ∧ _))

/-- **A peer id** is read as far as its prefix says, and printed if its text is shorter than its digits. -/
theorem ipfsText_cons (p : UInt8) (bs : List UInt8) : ipfsText (hexLowerText (p :: bs)) =
    if PeerIdRead p bs then .ok (some (base32Text (bs.take (p.toNat % 128 / 2)))) else .error .outOfBounds := by
  have hpre : readBytes (hexLowerText (p :: bs) ++ [0]) 2 = .ok (hexLowerText [p]) := readBytes_pid p bs
  have hdrop : (hexLowerText (p :: bs) ++ [0]).drop 2 = hexLowerText bs ++ [0] := rfl
  have hsize : hexVarToNum32 (hexLowerText [p]) = p.toNat % 128 :=
    hexVarToNum32_hexText (fun _ hd => hexValue_hexLower hd) p
  have hstart : ipfsText (hexLowerText (p :: bs)) =
      (readBytes (hexLowerText bs ++ [0]) (p.toNat % 128) >>= fun ipfsAddr =>
        hexToVar (cstr ipfsAddr) >>= fun addrbuf => b32String addrbuf (cstr ipfsAddr).length) := by
    rw [ipfsText, hpre, ok_bind, hsize, hdrop]
    rfl
  have hwhole {m : Nat} (hm : m ≤ bs.length) :
      (hexToVar (hexLowerText (bs.take m)) >>= fun addrbuf => b32String addrbuf (hexLowerText (bs.take m)).length) =
      if (base32Text (bs.take m)).length < 2 * m then .ok (some (base32Text (bs.take m))) else .error .outOfBounds := by
    rw [hexToVar_eq (hexLowerText_encodes _), ok_bind, b32String_eq, length_hexLowerText, List.length_take_of_le hm]
  obtain ⟨m, hm⟩ : ∃ m, p.toNat % 128 / 2 = m := ⟨_, rfl⟩
  have hread : PeerIdRead p bs ↔
      m ≤ bs.length ∧ (p.toNat % 2 = 0 ∨ m = bs.length) ∧ (base32Text (bs.take m)).length < 2 * m := by
    rw [PeerIdRead, hm]
  rw [hstart, hm, if_congr hread rfl rfl]
  by_cases hle : m ≤ bs.length
  · by_cases heven : p.toNat % 2 = 0
    · rw [show p.toNat % 128 = 2 * m by omega, readBytes_hexLowerText, if_pos hle, ok_bind, cstr_hexLowerText,
        hwhole hle]
      simp [hle, heven]
    · rw [show p.toNat % 128 = 2 * m + 1 by omega, readBytes_hexLowerText_odd, if_pos hle, ok_bind]
      by_cases hall : m = bs.length
      · -- the last digit read is the NUL
        have hcstr : cstr (hexLowerText (bs.take m) ++ [(hexLowerText (bs.drop m)).headD 0]) =
            hexLowerText (bs.take m) := by
          rw [hall, List.drop_length]
          exact cstr_append_zero (zero_notMem_hexLowerText _) []
        rw [hcstr, hwhole hle]
        simp [hall]
      · -- half a byte is left over
        obtain ⟨b, bs', hbs⟩ := List.exists_cons_of_ne_nil (show bs.drop m ≠ [] by simp; omega)
        have hhead : (hexLowerText (bs.drop m)).headD 0 ≠ 0 := by
          intro h
          apply zero_notMem_hexLowerText (bs.drop m)
          rw [hbs] at h ⊢
          exact List.mem_cons.mpr (.inl h.symm)
        have hzero : 0 ∉ hexLowerText (bs.take m) ++ [(hexLowerText (bs.drop m)).headD 0] := by
          intro h
          rcases List.mem_append.mp h with h | h
          · exact zero_notMem_hexLowerText _ h
          · exact hhead (List.mem_singleton.mp h).symm
        rw [cstr_of_notMem hzero, hexToVar_snoc (hexLowerText_encodes _), error_bind]
        simp [heven, hall]
  · rw [if_neg fun h => hle h.1]
    by_cases heven : p.toNat % 2 = 0
    · rw [show p.toNat % 128 = 2 * m by omega, readBytes_hexLowerText, if_neg hle, error_bind]
    · rw [show p.toNat % 128 = 2 * m + 1 by omega, readBytes_hexLowerText_odd, if_neg hle, error_bind]

theorem closeString_eq (buffer : List UInt8) :
    closeString buffer =
      if (buffer ++ [47]).length < 800 then .ok (some (buffer ++ [47])) else .error .outOfBounds := by
  rw [closeString, strcat, strcpy]
  split <;> rfl

/-- The text of a peer id in an address, with the slash behind it. -/
def peerIdText (d : List UInt8) : List UInt8 := (Component.ipfs d).text ++ [47]

/-- The loop ends with a peer id, whatever follows it. -/
theorem bytesToStringLoop_ipfs (fuel : Nat) (p : UInt8) (bs buffer : List UInt8) :
    bytesToStringLoop (fuel + 1) (hexLowerText (42 :: p :: bs)) buffer =
      if PeerIdRead p bs ∧ (buffer ++ peerIdText (bs.take (p.toNat % 128 / 2))).length < 800 then
        .ok (some (buffer ++ peerIdText (bs.take (p.toNat % 128 / 2))))
      else .error .outOfBounds := by
  have hproto : protoWithDeccode (42 : UInt8).toNat = some ⟨42, -1, ascii ['i', 'p', 'f', 's']⟩ := rfl
  have hdrop : (hexLowerText (42 :: p :: bs)).drop 2 = hexLowerText (p :: bs) := drop_hexLowerText (42 :: p :: bs) 1
  rw [bytesToStringLoop, readBytes_pid, ok_bind, hexToInt_pid, hproto]
  simp only [ne_eq, not_true_eq_false, if_false, hdrop, ipfsText_cons]
  by_cases hread : PeerIdRead p bs
  · rw [if_pos hread, ok_bind]
    generalize bs.take (p.toNat % 128 / 2) = d
    have htext : 47 :: (ascii ['i', 'p', 'f', 's'] ++ [47]) ++ base32Text d ++ [47] = peerIdText d := by
      simp [peerIdText, Component.text, Component.protocol, Component.address]
    simp only [closeString]
    rw [strcat_strcat, strcat_strcat, htext, strcat, strcpy]
    by_cases hfit : (buffer ++ peerIdText d).length < 800
    · rw [if_pos hfit, if_pos ⟨hread, hfit⟩, ok_bind]
    · rw [if_neg hfit, if_neg fun h => hfit h.2, error_bind]
  · rw [if_neg hread, if_neg fun h => hread h.1, error_bind]

/-- An array that ends with the code of ipfs. -/
theorem bytesToStringLoop_ipfs_nil (fuel : Nat) (buffer : List UInt8) :
    bytesToStringLoop (fuel + 1) (hexLowerText [42]) buffer = .error .outOfBounds := by
  rw [bytesToStringLoop, readBytes_pid, ok_bind, hexToInt_pid]
  rfl

end Ipfs

/-! ## Sequences -/

section Sequences

variable {cs : List Component} {tail buffer : List UInt8}

/-- **A sequence of components of fixed size** is printed if there is room, and the loop goes on behind it. -/
theorem bytesToStringLoop_components (hcs : ∀ c ∈ cs, c.Fixed) (hne : cs ≠ [] ∨ tail ≠ []) (hroom : buffer.length < 800)
    (fuel : Nat) :
    bytesToStringLoop (cs.length + fuel) (hexLowerText (canonicalBytes cs ++ tail)) buffer =
      if (∀ c ∈ cs, c.Printable) ∧ (buffer ++ cs.flatMap Component.text).length < 800 then
        if tail = [] then closeString (buffer ++ cs.flatMap Component.text)
        else bytesToStringLoop fuel (hexLowerText tail) (buffer ++ cs.flatMap Component.text)
      else .error .outOfBounds := by
  induction cs generalizing buffer with
  | nil =>
    have htail : tail ≠ [] := hne.resolve_left fun h => h rfl
    simp [canonicalBytes, htail, hroom]
  | cons c cs ih =>
    have hc := hcs c List.mem_cons_self
    have hbytes : canonicalBytes (c :: cs) ++ tail = c.bytes ++ (canonicalBytes cs ++ tail) := by
      simp [canonicalBytes]
    have htext : buffer ++ (c :: cs).flatMap Component.text = buffer ++ c.text ++ cs.flatMap Component.text := by
      simp
    have hle : (buffer ++ c.text).length ≤ (buffer ++ c.text ++ cs.flatMap Component.text).length :=
      (List.prefix_append _ _).length_le
    rw [hbytes, List.length_cons, Nat.add_right_comm, bytesToStringLoop_fixed hc, htext]
    by_cases hfirst : c.Printable ∧ (buffer ++ c.text).length < 800
    · rw [if_pos hfirst]
      by_cases hlast : canonicalBytes cs ++ tail = []
      · obtain ⟨hnil, rfl⟩ := List.append_eq_nil_iff.mp hlast
        cases cs with
        | cons c' cs => cases hnil
        | nil =>
          rw [if_pos hlast, if_pos, if_pos rfl]
          · simp
          · simpa using hfirst
      · have hne : cs ≠ [] ∨ tail ≠ [] := by
          rw [← not_and_or]
          rintro ⟨rfl, rfl⟩
          exact hlast rfl
        rw [if_neg hlast, ih (fun c hc => hcs c (List.mem_cons_of_mem _ hc)) hne hfirst.2]
        have hall : (∀ d ∈ c :: cs, d.Printable) ↔ ∀ d ∈ cs, d.Printable := by
          simp [hfirst.1]
        simp only [hall]
    · rw [if_neg hfirst, if_neg]
      rintro ⟨hall, hfit⟩
      exact hfirst ⟨hall c List.mem_cons_self, by omega⟩

end Sequences

end Libcp2p
