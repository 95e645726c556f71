import Libcp2p.Multiaddr.RoundTrip

/-!
# Arbitrary arrays

What `multi_address_new_from_bytes` does with an array that nobody checked. It never returns `NULL`: a code that is not
known ends the text, a protocol without a text form prints its name only, and what is cut off is read past the end.

* `Printed bs t`: what one can say of an array for which the loop prints `t`, piece by piece (`printed_of_loop`).
* `Printed.reread`: the text of an array is never converted to more bytes than the array has, and to the array itself
  only if it is made of components that keep their form, with a peer id at most at the end.
* `from_bytes_well_iff`: these arrays, as far as text and digits fit in their buffers, are exactly those that are
  treated as they should be.
-/

namespace Libcp2p

/-! ## Arrays that should be rejected -/

/-- The number of bytes of the address behind a code, if it has an address conversion. -/
def addressWidth (code : UInt8) (rest : List UInt8) : Option Nat :=
  match code with
  | 4 => some 4
  | 6 => some 2
  | 17 => some 2
  | 42 => some (1 + (rest.headD 0).toNat % 128 / 2)
  | _ => none

/-- An array with an unknown code or a protocol without an address conversion, or with an address that is cut off. -/
inductive Malformed : List UInt8 → Prop
  | code {code rest} (h : addressWidth code rest = none) : Malformed (code :: rest)
  | truncated {code rest m} (h : addressWidth code rest = some m) (hlen : rest.length < m) : Malformed (code :: rest)
  | next {code rest m} (h : addressWidth code rest = some m) (hlen : m ≤ rest.length)
      (hrest : Malformed (rest.drop m)) :
    Malformed (code :: rest)

/-- What should happen with an array: nothing is read outside it, an address is returned only if the array is the exact
byte form of its text, and a malformed array is rejected. -/
def FromBytesWell (bs : List UInt8) : Prop :=
  ∃ r, multiAddressNewFromBytes bs = .ok r ∧ (∀ ma, r = some ma → stringToBytes ma.string = .ok (some bs)) ∧
    (Malformed bs → r = none)

/-! ## What is printed -/

section Printed

variable {bs buffer : List UInt8} {code : UInt8} {r : Option (List UInt8)}

/-- The protocols whose addresses are not converted, neither from text nor to it. -/
def bareProtocols : List Protocol :=
  [⟨41, 128, ascii ['i', 'p', '6']⟩, ⟨33, 16, ascii ['d', 'c', 'c', 'p']⟩, ⟨132, 16, ascii ['s', 'c', 't', 'p']⟩]

/-- The text that is printed for an array. -/
inductive Printed : List UInt8 → List UInt8 → Prop
  | nil : Printed [] [47]
  | unknown {code rest} (hcode : protoWithDeccode code.toNat = none) : Printed (code :: rest) [47]
  | fixed {c : Component} {bs t} (hc : c.Fixed) (hprint : c.Printable) (h : Printed bs t) :
    Printed (c.bytes ++ bs) (c.text ++ t)
  | bare {p code address bs t} (hp : p ∈ bareProtocols) (hcode : protoWithDeccode code.toNat = some p)
    (hne : address ≠ []) (h : Printed bs t) : Printed (code :: (address ++ bs)) (47 :: (p.name ++ 47 :: t))
  | ipfs {p bs} (h : PeerIdRead p bs) : Printed (42 :: p :: bs) (peerIdText (bs.take (p.toNat % 128 / 2)))

/-- The codes that one byte can hold. -/
theorem protoWithDeccode_byte (code : UInt8) :
    protoWithDeccode code.toNat = none ∨ code ∈ ([4, 6, 17] : List UInt8) ∨ code = 42 ∨
      ∃ p ∈ bareProtocols, protoWithDeccode code.toNat = some p := by
  have all : ∀ p ∈ protocols, p.deccode < 256 →
      UInt8.ofNat p.deccode ∈ ([4, 6, 17] : List UInt8) ∨ UInt8.ofNat p.deccode = 42 ∨ p ∈ bareProtocols := by
    decide
  cases hp : protoWithDeccode code.toNat with
  | none => exact .inl rfl
  | some p =>
    have hcode : p.deccode = code.toNat := by simpa using List.find?_some hp
    have hp := all p (List.mem_of_find?_eq_some hp) (by rw [hcode]; exact code.toNat_lt)
    rw [hcode, UInt8.ofNat_toNat] at hp
    rcases hp with hfixed | hipfs | hbare
    · exact .inr (.inl hfixed)
    · exact .inr (.inr (.inl hipfs))
    · exact .inr (.inr (.inr ⟨p, hbare, rfl⟩))

/-- A protocol that prints its name only. -/
theorem bareProtocols_facts {p : Protocol} (hp : p ∈ bareProtocols) :
    p.name ≠ ascii ['i', 'p', 'f', 's'] ∧ (∃ m, 0 < m ∧ (p.size / 4).toNat = 2 * m) ∧
      ∀ address, addressText p.name address = .ok [] := by
  simp only [bareProtocols, List.mem_cons, List.not_mem_nil, or_false] at hp
  rcases hp with rfl | rfl | rfl
  · exact ⟨by decide, ⟨16, by decide, rfl⟩, fun _ => rfl⟩
  · exact ⟨by decide, ⟨2, by decide, rfl⟩, fun _ => rfl⟩
  · exact ⟨by decide, ⟨2, by decide, rfl⟩, fun _ => rfl⟩

/-- An address of fixed size that is complete. -/
theorem exists_fixed (hcode : code ∈ [4, 6, 17]) :
    ∃ p m, protoWithDeccode code.toNat = some p ∧ p.name ≠ ascii ['i', 'p', 'f', 's'] ∧ (p.size / 4).toNat = 2 * m ∧
      ∀ rest, m ≤ rest.length → ∃ c : Component, c.Fixed ∧ code :: rest = c.bytes ++ rest.drop m := by
  have hport (a b : UInt8) : beBytes 2 (beNat [a, b]) = [a, b] := beBytes_beNat [a, b]
  have hlt (a b : UInt8) : beNat [a, b] < 65536 := by simpa using beNat_lt [a, b]
  have hpair {rest : List UInt8} (hlen : 2 ≤ rest.length) : ∃ a b r, rest = a :: b :: r := by
    obtain ⟨a, r, rfl⟩ := List.exists_cons_of_length_pos (Nat.lt_of_succ_lt hlen)
    obtain ⟨b, r, rfl⟩ := List.exists_cons_of_length_pos (Nat.lt_of_succ_lt_succ hlen)
    exact ⟨a, b, r, rfl⟩
  simp only [List.mem_cons, List.not_mem_nil, or_false] at hcode
  rcases hcode with rfl | rfl | rfl
  · refine ⟨_, 4, rfl, by decide, by decide, ?_⟩
    intro rest hlen
    obtain ⟨a, b, rest, rfl⟩ := hpair (Nat.le_trans (by decide) hlen)
    obtain ⟨c, d, rest, rfl⟩ := hpair (Nat.le_of_succ_le_succ (Nat.le_of_succ_le_succ hlen))
    exact ⟨.ip4 a b c d, trivial, rfl⟩
  · refine ⟨_, 2, rfl, by decide, by decide, ?_⟩
    intro rest hlen
    obtain ⟨a, b, rest, rfl⟩ := hpair hlen
    refine ⟨.tcp (beNat [a, b]), hlt a b, ?_⟩
    rw [Component.bytes, Component.addressBytes, hport]
    rfl
  · refine ⟨_, 2, rfl, by decide, by decide, ?_⟩
    intro rest hlen
    obtain ⟨a, b, rest, rfl⟩ := hpair hlen
    refine ⟨.udp (beNat [a, b]), hlt a b, ?_⟩
    rw [Component.bytes, Component.addressBytes, hport]
    rfl

/-- The text ends where a slash is appended. -/
theorem closeString_eq_ok (h : closeString buffer = .ok r) : r = some (buffer ++ [47]) := by
  rw [closeString_eq] at h
  split at h
  · exact (Except.ok.inj h).symm
  · cases h

/-- The loop at a code that is not known. -/
theorem bytesToStringLoop_unknown (hcode : protoWithDeccode code.toNat = none) (fuel : Nat) (rest buffer : List UInt8) :
    bytesToStringLoop (fuel + 1) (hexLowerText (code :: rest)) buffer = closeString buffer := by
  rw [bytesToStringLoop, readBytes_pid, ok_bind, hexToInt_pid, hcode]

/-- **What the loop prints.** It never gives up. -/
theorem printed_of_loop {fuel : Nat} (hne : bs ≠ []) (h : bytesToStringLoop fuel (hexLowerText bs) buffer = .ok r) :
    ∃ t, r = some (buffer ++ t) ∧ Printed bs t := by
  induction fuel generalizing bs buffer with
  | zero => cases h
  | succ fuel ih =>
    -- what follows a piece is printed by the rest of the loop
    have hrest {bs buffer : List UInt8}
        (h : (if bs = [] then closeString buffer else bytesToStringLoop fuel (hexLowerText bs) buffer) = .ok r) :
        ∃ t, r = some (buffer ++ t) ∧ Printed bs t := by
      by_cases hnil : bs = []
      · rw [if_pos hnil] at h
        subst hnil
        exact ⟨[47], closeString_eq_ok h, .nil⟩
      · rw [if_neg hnil] at h
        exact ih hnil h
    obtain ⟨code, rest, rfl⟩ := List.exists_cons_of_ne_nil hne
    rcases protoWithDeccode_byte code with hcode | hcode | rfl | ⟨p, hp, hcode⟩
    · rw [bytesToStringLoop_unknown hcode] at h
      exact ⟨[47], closeString_eq_ok h, .unknown hcode⟩
    · obtain ⟨p, m, hproto, hname, hsize, hfixed⟩ := exists_fixed hcode
      by_cases hlen : m ≤ rest.length
      · obtain ⟨c, hc, heq⟩ := hfixed rest hlen
        rw [heq, bytesToStringLoop_fixed hc] at h
        split at h
        · next hfits =>
          obtain ⟨t, hr, ht⟩ := hrest h
          exact ⟨c.text ++ t, by rw [hr, List.append_assoc], heq ▸ .fixed hc hfits.1 ht⟩
        · cases h
      · rw [bytesToStringLoop_protocol hproto hname hsize, if_neg hlen] at h
        cases h
    · cases rest with
      | nil =>
        rw [bytesToStringLoop_ipfs_nil] at h
        cases h
      | cons p bs =>
        rw [bytesToStringLoop_ipfs] at h
        split at h
        · next hread => exact ⟨_, (Except.ok.inj h).symm, .ipfs hread.1⟩
        · cases h
    · obtain ⟨hname, ⟨m, hm, hsize⟩, htext⟩ := bareProtocols_facts hp
      rw [bytesToStringLoop_protocol hcode hname hsize] at h
      split at h
      · next hlen =>
        obtain ⟨buffer', hbuffer, h⟩ := bind_eq_ok.mp h
        rw [htext, ok_bind] at h
        obtain ⟨buffer'', hbuffer', h⟩ := bind_eq_ok.mp h
        obtain rfl := strcat_eq_ok hbuffer
        obtain rfl := strcat_eq_ok hbuffer'
        obtain ⟨t, hr, ht⟩ := hrest h
        refine ⟨47 :: (p.name ++ 47 :: t), by simp [hr], ?_⟩
        have hne : rest.take m ≠ [] := List.ne_nil_of_length_pos (by rw [List.length_take]; omega)
        have hprinted : Printed (code :: (rest.take m ++ rest.drop m)) _ := .bare hp hcode hne ht
        rwa [List.take_append_drop] at hprinted
      · cases h

end Printed

/-! ## What is read back -/

section Reread

variable {bs t processed done processed' : List UInt8} {c : Component} {cs : List Component}

/-- A word that was not understood is not forgotten. -/
theorem stringToBytesLoop_malf {wp : List (List UInt8)} {protx : Option Protocol} {malf : Bool}
    (h : stringToBytesLoop wp protx processed true = .ok (processed', malf)) : malf = true := by
  induction wp generalizing protx processed with
  | nil => exact (Prod.mk.inj (Except.ok.inj h)).2.symm
  | cons w wp ih =>
    cases protx with
    | none =>
      rw [stringToBytesLoop] at h
      split at h
      · exact (Prod.mk.inj (Except.ok.inj h)).2.symm
      · obtain ⟨_, -, h⟩ := bind_eq_ok.mp h
        exact ih h
    | some protx =>
      rw [stringToBytesLoop] at h
      obtain ⟨r, -, h⟩ := bind_eq_ok.mp h
      cases r with
      | none => exact ih h
      | some stob =>
        obtain ⟨_, -, h⟩ := bind_eq_ok.mp h
        split at h
        · exact ih h
        · cases h

/-- An address that is not converted spoils the whole. -/
theorem stringToBytesLoop_none {p : Protocol} {name address : List UInt8} (hname : protoWithName name = some p)
    (haddress : addressStringToBytes p address = .ok none) (rest : List (List UInt8)) :
    stringToBytesLoop (name :: address :: rest) none processed false ≠ .ok (processed', false) := by
  intro h
  rw [stringToBytesLoop, hname] at h
  obtain ⟨_, -, h⟩ := bind_eq_ok.mp h
  rw [stringToBytesLoop, haddress, ok_bind] at h
  cases stringToBytesLoop_malf h

/-- A protocol that has no conversion from text either. -/
theorem bareProtocols_text {p : Protocol} (hp : p ∈ bareProtocols) :
    protoWithName p.name = some p ∧ p.deccode < 256 ∧ (p.name ≠ [] ∧ 47 ∉ p.name) ∧
      ∀ address, addressStringToBytes p address = .ok none := by
  simp only [bareProtocols, List.mem_cons, List.not_mem_nil, or_false] at hp
  rcases hp with rfl | rfl | rfl
  · exact ⟨rfl, by decide, by decide, fun _ => rfl⟩
  · exact ⟨rfl, by decide, by decide, fun _ => rfl⟩
  · exact ⟨rfl, by decide, by decide, fun _ => rfl⟩

/-- Every text starts with a slash. -/
theorem Printed.eq_cons (h : Printed bs t) : ∃ u, t = 47 :: u := by
  cases h <;> exact ⟨_, rfl⟩

theorem Component.Fixed.ne_nil (h : c.Fixed) : c ≠ .ipfs [] := by
  rintro rfl
  exact h

/-- A value of fixed size that the text form does not admit is the port zero. -/
theorem Component.Fixed.transport_or (h : c.Fixed) :
    c.Transport ∨ addressStringToBytes c.protocol c.address = .ok none := by
  cases c with
  | ip4 a b c d => exact .inl trivial
  | tcp port | udp port =>
    rcases Nat.eq_zero_or_pos port with rfl | hpos
    · exact .inr (by decide)
    · exact .inl ⟨hpos, Nat.le_of_lt_succ h⟩
  | ipfs id => exact h.elim

/-- Components that keep their form, and at most one peer id at their end. -/
def Restored (cs : List Component) : Prop :=
  ∃ before last, cs = before ++ last ∧ (∀ c ∈ before, c.Kept) ∧
    (last = [] ∨ ∃ d, last = [.ipfs d] ∧ PeerIdLength d.length)

theorem Restored.cons (hc : c.Kept) (h : Restored cs) : Restored (c :: cs) := by
  obtain ⟨before, last, rfl, hbefore, hlast⟩ := h
  exact ⟨c :: before, last, rfl, List.forall_mem_cons.mpr ⟨hc, hbefore⟩, hlast⟩

/-- **What is read back** of the text of an array has at most as many bytes as the array, and is the array itself only
if that is made of components that keep their form. -/
theorem Printed.reread (h : Printed bs t) (hp : Base16Encodes processed done)
    (hloop : stringToBytesLoop (tokens 47 t) none processed false = .ok (processed', false)) :
    ∃ x, Base16Encodes processed' (done ++ x) ∧ x.length ≤ bs.length ∧
      (x = bs → ∃ cs, Restored cs ∧ bs = canonicalBytes cs) := by
  induction h generalizing processed done with
  | nil =>
    obtain rfl : processed = processed' := (Prod.mk.inj (Except.ok.inj hloop)).1
    exact ⟨[], by rwa [List.append_nil], Nat.le_refl _, fun _ => ⟨[], ⟨[], [], rfl, by simp, .inl rfl⟩, rfl⟩⟩
  | unknown _ =>
    obtain rfl : processed = processed' := (Prod.mk.inj (Except.ok.inj hloop)).1
    exact ⟨[], by rwa [List.append_nil], Nat.zero_le _, fun h => by cases h⟩
  | @fixed c bs t hc hprint h ih =>
    obtain ⟨u, rfl⟩ := h.eq_cons
    rw [tokens_text hc.ne_nil] at hloop
    rcases hc.transport_or with htransport | hnone
    · obtain ⟨w, hw, hwle, hwkeep, -⟩ := htransport.written
      obtain ⟨hex, hhex, heq⟩ := stringToBytesLoop_component hw hp (tokens 47 u) false
      rw [heq] at hloop
      split at hloop
      · rw [tokens_cons] at ih
        obtain ⟨x, hx, hxle, hxeq⟩ := ih (hp.append hhex) hloop
        rw [List.append_assoc] at hx
        refine ⟨c.code :: w ++ x, hx, ?_, ?_⟩
        · simp only [Component.bytes, List.length_append, List.length_cons]
          omega
        · intro hall
          -- the lengths leave no room for a piece that is shorter
          have hlen := congrArg List.length hall
          simp only [Component.bytes, List.length_append, List.length_cons] at hlen
          obtain ⟨hcode, rfl⟩ := List.append_inj hall (by simp only [Component.bytes, List.length_cons]; omega)
          obtain ⟨cs, hcs, hbs⟩ := hxeq rfl
          refine ⟨c :: cs, hcs.cons (hwkeep (by omega) hprint), ?_⟩
          rw [hbs]
          rfl
      · cases hloop
    · exact absurd hloop (stringToBytesLoop_none c.protoWithName_name hnone _)
  | @bare p code address bs t hbare _ hne h ih =>
    obtain ⟨hname, hlt, htoken, hnone⟩ := bareProtocols_text hbare
    have htokens : tokens 47 (47 :: (p.name ++ 47 :: t)) = p.name :: tokens 47 t := by
      rw [tokens_cons, tokens_append_cons, tokens_of_notMem htoken.1 htoken.2]
      rfl
    rw [htokens] at hloop
    cases hwp : tokens 47 t with
    | cons w wp =>
      rw [hwp] at hloop
      exact absurd hloop (stringToBytesLoop_none hname (hnone w) wp)
    | nil =>
      -- the name stands alone at the end of the text
      rw [hwp, stringToBytesLoop, hname] at hloop
      obtain ⟨_, hcat, hloop⟩ := bind_eq_ok.mp hloop
      obtain rfl := strcat_eq_ok hcat
      obtain rfl : processed ++ intToHex p.deccode = processed' := (Prod.mk.inj (Except.ok.inj hloop)).1
      have haddress := List.length_pos_of_ne_nil hne
      refine ⟨[UInt8.ofNat p.deccode], ?_, ?_, ?_⟩
      · rw [intToHex_eq (.inl rfl) hlt]
        exact hp.append (hexUpperText_encodes _)
      · simp
      · intro hall
        have hlen := congrArg List.length hall
        simp only [List.length_cons, List.length_append, List.length_nil] at hlen
        omega
  | @ipfs p bs h =>
    obtain ⟨hle, -, hshort⟩ := h
    obtain ⟨d, hd⟩ : ∃ d, bs.take (p.toNat % 128 / 2) = d := ⟨_, rfl⟩
    have hlen : d.length = p.toNat % 128 / 2 := by
      rw [← hd, List.length_take_of_le hle]
    rw [hd, length_base32Text] at hshort
    have hne : Component.ipfs d ≠ .ipfs [] := by
      rintro ⟨⟩
      simp only [List.length_nil] at hlen hshort
      omega
    have hwritten : Written (.ipfs d) (Component.ipfs d).addressBytes := written_ipfs (by omega)
    obtain ⟨hex, hhex, heq⟩ := stringToBytesLoop_component hwritten hp (tokens 47 []) false
    rw [hd, peerIdText, tokens_text hne, heq] at hloop
    split at hloop
    · obtain rfl : processed ++ hex = processed' := (Prod.mk.inj (Except.ok.inj hloop)).1
      refine ⟨(Component.ipfs d).bytes, hp.append hhex, ?_, ?_⟩
      · simp only [Component.bytes, Component.addressBytes, List.length_cons]
        omega
      · intro hall
        refine ⟨[.ipfs d], ⟨[], [.ipfs d], rfl, by simp, .inr ⟨d, rfl, by omega, by omega⟩⟩, ?_⟩
        rw [← hall]
        simp [canonicalBytes]
    · cases hloop

/-- An array that comes back is made of components that keep their form. -/
theorem Printed.eq_canonicalBytes (h : Printed bs t) (hback : stringToBytes t = .ok (some bs)) :
    ∃ cs, Restored cs ∧ bs = canonicalBytes cs := by
  obtain ⟨u, rfl⟩ := h.eq_cons
  rw [stringToBytes, if_neg (by simp)] at hback
  obtain ⟨⟨processed, malf⟩, hloop, hback⟩ := bind_eq_ok.mp hback
  cases malf with
  | true => cases hback
  | false =>
    obtain ⟨x, hx, -, hrestored⟩ := h.reread .nil hloop
    simp only [Bool.false_eq_true, if_false, hexToVar_eq hx, ok_bind] at hback
    exact hrestored (Option.some.inj (Except.ok.inj hback))

end Reread

/-! ## Exact arrays -/

section Exact

variable {c : Component} {cs : List Component}

theorem Restored.mem (h : Restored cs) (hc : c ∈ cs) : c.Kept ∨ ∃ d, c = .ipfs d ∧ PeerIdLength d.length := by
  obtain ⟨before, last, rfl, hbefore, hlast⟩ := h
  rcases List.mem_append.mp hc with hc | hc
  · exact .inl (hbefore c hc)
  · rcases hlast with rfl | ⟨d, rfl, hd⟩
    · cases hc
    · exact .inr ⟨d, List.mem_singleton.mp hc, hd⟩

theorem PeerIdLength.valid {d : List UInt8} (h : PeerIdLength d.length) : (Component.ipfs d).Valid := by
  obtain ⟨hlt, hshort⟩ := h
  exact ⟨by omega, by omega⟩

/-- Restored components, from text to bytes. -/
theorem Restored.stringToBytes_eq (h : Restored cs) : stringToBytes (canonicalText cs) =
    if (canonicalBytes cs).length < 400 then .ok (some (canonicalBytes cs)) else .error .outOfBounds := by
  apply stringToBytes_canonicalText
  · intro c hc
    rcases h.mem hc with hkept | ⟨d, rfl, hd⟩
    · exact hkept.transport.valid
    · exact hd.valid
  · intro c hc
    rcases h.mem hc with hkept | ⟨d, rfl, hd⟩
    · exact hkept.written
    · exact written_ipfs hd.valid.2

/-- Restored components, from bytes to text. -/
theorem Restored.bytesToString_eq (h : Restored cs) (hne : cs ≠ []) : bytesToString (canonicalBytes cs) =
    if (canonicalText cs).length < 800 then .ok (some (canonicalText cs)) else .error .outOfBounds := by
  obtain ⟨before, last, rfl, hbefore, rfl | ⟨d, rfl, hlt, hshort⟩⟩ := h
  · rw [List.append_nil] at hne ⊢
    rw [bytesToString_fixed (fun c hc => (hbefore c hc).transport.fixed) hne]
    exact if_congr (and_iff_right fun c hc => (hbefore c hc).printable) rfl rfl
  · rw [bytesToString_canonicalBytes_ipfs hbefore, Nat.mod_eq_of_lt hlt, List.take_length, length_base32Text]
    exact if_congr (and_iff_right hshort) rfl rfl

/-- The address behind the code of a restored component is complete. -/
theorem addressWidth_code (h : c.Kept ∨ ∃ d, c = .ipfs d ∧ PeerIdLength d.length) (rest : List UInt8) :
    addressWidth c.code (c.addressBytes ++ rest) = some c.addressBytes.length := by
  cases c with
  | ip4 a b c d => rfl
  | tcp port | udp port => rfl
  | ipfs d =>
    obtain ⟨_, ⟨⟩, hlt, -⟩ := h.resolve_left fun hkept => hkept
    have hmod := (announced_length d.length).1
    rw [Nat.mod_eq_of_lt hlt] at hmod
    change some (1 + (UInt8.ofNat (2 * d.length % 256 ||| 0x80)).toNat % 128 / 2) = some (d.length + 1)
    rw [hmod, Nat.add_comm]

theorem Restored.not_malformed (h : Restored cs) : ¬ Malformed (canonicalBytes cs) := by
  have hcs : ∀ c ∈ cs, c.Kept ∨ ∃ d, c = .ipfs d ∧ PeerIdLength d.length := fun c hc => h.mem hc
  clear h
  induction cs with
  | nil => exact fun h => nomatch h
  | cons c cs ih =>
    have hwidth := addressWidth_code (hcs c List.mem_cons_self) (canonicalBytes cs)
    have hbytes : canonicalBytes (c :: cs) = c.code :: (c.addressBytes ++ canonicalBytes cs) := by
      simp [canonicalBytes, Component.bytes]
    rw [hbytes]
    intro h
    cases h with
    | code h =>
      rw [hwidth] at h
      cases h
    | truncated h hlen =>
      obtain rfl := Option.some.inj (hwidth.symm.trans h)
      rw [List.length_append] at hlen
      omega
    | next h hlen hrest =>
      obtain rfl := Option.some.inj (hwidth.symm.trans h)
      rw [List.drop_left] at hrest
      exact ih (fun c hc => hcs c (List.mem_cons_of_mem _ hc)) hrest

/-- **Arrays that are treated as they should be.** -/
theorem from_bytes_well_iff (bs : List UInt8) : FromBytesWell bs ↔
    ∃ cs, cs ≠ [] ∧ Restored cs ∧ bs = canonicalBytes cs ∧ (canonicalText cs).length < 800 ∧ bs.length < 400 := by
  constructor
  · rintro ⟨r, hr, hexact, -⟩
    obtain ⟨string, hstring, hr⟩ := bind_eq_ok.mp hr
    have hne : bs ≠ [] := by
      rintro rfl
      cases hstring
    obtain ⟨t, rfl, hprinted⟩ := printed_of_loop hne hstring
    obtain rfl := Except.ok.inj hr
    rw [List.nil_append] at hstring hexact
    obtain ⟨cs, hcs, rfl⟩ := hprinted.eq_canonicalBytes (hexact _ rfl)
    have hcsne : cs ≠ [] := fun hnil => hne (hnil ▸ rfl)
    have hback := hexact _ rfl
    rw [hcs.bytesToString_eq hcsne] at hstring
    split at hstring
    · next htext =>
      obtain rfl := Option.some.inj (Except.ok.inj hstring)
      simp only [hcs.stringToBytes_eq] at hback
      split at hback
      · next hbytes => exact ⟨cs, hcsne, hcs, rfl, htext, hbytes⟩
      · cases hback
    · cases hstring
  · rintro ⟨cs, hne, hcs, rfl, htext, hbytes⟩
    refine ⟨some ⟨canonicalText cs, canonicalBytes cs⟩, ?_, ?_, fun h => absurd h hcs.not_malformed⟩
    · rw [multiAddressNewFromBytes, hcs.bytesToString_eq hne, if_pos htext, ok_bind]
    · rintro ma ⟨⟩
      rw [hcs.stringToBytes_eq, if_pos hbytes]

/-- A code that is not known gives the address `/`, and an ip4 address of one byte is read past its end. -/
theorem from_bytes_not_well :
    (multiAddressNewFromBytes [99] = .ok (some ⟨[47], [99]⟩) ∧ stringToBytes [47] = .ok (some []) ∧
      ¬ FromBytesWell [99]) ∧
      multiAddressNewFromBytes [4, 1] = .error .outOfBounds ∧ ¬ FromBytesWell [4, 1] := by
  have hunknown : multiAddressNewFromBytes [99] = .ok (some ⟨[47], [99]⟩) := by decide
  have hshort : multiAddressNewFromBytes [4, 1] = .error .outOfBounds := by decide
  refine ⟨⟨hunknown, by decide, ?_⟩, hshort, ?_⟩
  · rintro ⟨r, hr, -, hreject⟩
    cases hreject (.code rfl)
    cases hunknown.symm.trans hr
  · rintro ⟨r, hr, -⟩
    cases hshort.symm.trans hr

end Exact

end Libcp2p
