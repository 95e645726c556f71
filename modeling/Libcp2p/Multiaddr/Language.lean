import Libcp2p.Multiaddr.AnyText

/-!
# Which texts are accepted

The header documents texts `/<protocol>/<address>`, any number of them one after the other. `Documented` is that form,
`Admitted` the form that `string_to_bytes` really accepts: it looks at tokens, so that repeated slashes and dots count
as one, reads ports by `atoi`, and asks for an address only where a token is left.

* `addressHex_isSome_iff`: the addresses that are accepted.
* `Documented.admitted`: every documented text is of the accepted form.
* `stringToBytes_accepts_iff`: where it returns, `string_to_bytes` accepts exactly the admitted texts, hence agrees
  with the documentation exactly on the texts that are not admitted or are documented.
-/

namespace Libcp2p

/-! ## The documented form -/

/-- A decimal number from `lo` to `hi`: digits only. -/
def DecimalIn (lo hi : Nat) (t : List UInt8) : Prop :=
  t ≠ [] ∧ (∀ c ∈ t, 48 ≤ c ∧ c ≤ 57) ∧ lo ≤ digitsValue t ∧ digitsValue t ≤ hi

/-- The documented addresses of a protocol. -/
inductive DocumentedAddress : (name address : List UInt8) → Prop
  | ip4 {t1 t2 t3 t4 : List UInt8} (h1 : DecimalIn 0 255 t1) (h2 : DecimalIn 0 255 t2) (h3 : DecimalIn 0 255 t3)
    (h4 : DecimalIn 0 255 t4) :
    DocumentedAddress (ascii ['i', 'p', '4']) (t1 ++ 46 :: (t2 ++ 46 :: (t3 ++ 46 :: t4)))
  | tcp {t : List UInt8} (h : DecimalIn 1 65535 t) : DocumentedAddress (ascii ['t', 'c', 'p']) t
  | udp {t : List UInt8} (h : DecimalIn 1 65535 t) : DocumentedAddress (ascii ['u', 'd', 'p']) t
  | ipfs {t d : List UInt8} (h : Base32Encodes t d) (hne : t ≠ []) : DocumentedAddress (ascii ['i', 'p', 'f', 's']) t

/-- The documented form of a text: pairs of a protocol and its address, at least one, with a slash before each of them
and perhaps one at the end. -/
def Documented (strx : List UInt8) : Prop :=
  ∃ pairs : List (List UInt8 × List UInt8), pairs ≠ [] ∧ (∀ q ∈ pairs, DocumentedAddress q.1 q.2) ∧
    (strx = pairs.flatMap (fun q => 47 :: (q.1 ++ 47 :: q.2)) ∨
      strx = pairs.flatMap (fun q => 47 :: (q.1 ++ 47 :: q.2)) ++ [47])

/-! ## The accepted form -/

/-- The accepted addresses of a protocol: four numbers with any number of dots around them, a port as `atoi` reads it,
groups of base32 that may each be padded. -/
inductive AdmittedAddress : (name address : List UInt8) → Prop
  | ip4 {address t1 t2 t3 t4 : List UInt8} (h : tokens 46 address = [t1, t2, t3, t4])
    (hoctets : ∀ t ∈ [t1, t2, t3, t4], octet t = true) : AdmittedAddress (ascii ['i', 'p', '4']) address
  | tcp {address : List UInt8} (h : 0 < atoi address) (h' : atoi address < 65536) :
    AdmittedAddress (ascii ['t', 'c', 'p']) address
  | udp {address : List UInt8} (h : 0 < atoi address) (h' : atoi address < 65536) :
    AdmittedAddress (ascii ['u', 'd', 'p']) address
  | ipfs {address d : List UInt8} (h : Base32Groups address d) : AdmittedAddress (ascii ['i', 'p', 'f', 's']) address

/-- The accepted sequences of tokens: protocols with their addresses, and perhaps a protocol without one at the end. -/
inductive AdmittedTokens : List (List UInt8) → Prop
  | nil : AdmittedTokens []
  | last {name : List UInt8} (h : ∃ protocol ∈ protocols, name = protocol.name) : AdmittedTokens [name]
  | pair {name address : List UInt8} {rest : List (List UInt8)} (h : AdmittedAddress name address)
    (hrest : AdmittedTokens rest) : AdmittedTokens (name :: address :: rest)

/-- The accepted form of a text. -/
def Admitted (strx : List UInt8) : Prop := strx.head? = some 47 ∧ AdmittedTokens (tokens 47 strx)

section Accepted

variable {name : List UInt8} {protocol : Protocol}

theorem protoWithName_eq_some (h : protoWithName name = some protocol) : protocol ∈ protocols ∧ name = protocol.name :=
  ⟨List.mem_of_find?_eq_some h, by simpa using List.find?_some h⟩

theorem protoWithName_isSome_iff : (protoWithName name).isSome ↔ ∃ protocol ∈ protocols, name = protocol.name := by
  simp [protoWithName]

/-- The protocols that have addresses, by code and by name. -/
theorem deccode_iff_name (h : protoWithName name = some protocol) :
    (protocol.deccode = 4 ↔ name = ascii ['i', 'p', '4']) ∧ (protocol.deccode = 6 ↔ name = ascii ['t', 'c', 'p']) ∧
      (protocol.deccode = 17 ↔ name = ascii ['u', 'd', 'p']) ∧
      (protocol.deccode = 42 ↔ name = ascii ['i', 'p', 'f', 's']) := by
  have all : ∀ p ∈ protocols, (p.deccode = 4 ↔ p.name = ascii ['i', 'p', '4']) ∧
      (p.deccode = 6 ↔ p.name = ascii ['t', 'c', 'p']) ∧ (p.deccode = 17 ↔ p.name = ascii ['u', 'd', 'p']) ∧
      (p.deccode = 42 ↔ p.name = ascii ['i', 'p', 'f', 's']) := by decide
  obtain ⟨hmem, rfl⟩ := protoWithName_eq_some h
  exact all protocol hmem

theorem quadValue_isSome_iff {address : List UInt8} : (quadValue address).isSome ↔
    ∃ t1 t2 t3 t4, tokens 46 address = [t1, t2, t3, t4] ∧ ∀ t ∈ [t1, t2, t3, t4], octet t = true := by
  rw [quadValue]
  constructor
  · intro h
    split at h
    · rename_i t1 t2 t3 t4 ht
      refine ⟨t1, t2, t3, t4, ht, ?_⟩
      split at h
      · rename_i hoctets
        simpa [and_assoc] using hoctets
      · cases h
    · cases h
  · rintro ⟨t1, t2, t3, t4, ht, hoctets⟩
    have hall : (octet t1 && octet t2 && octet t3 && octet t4) = true := by simpa [and_assoc] using hoctets
    simp only [ht, if_pos hall]
    rfl

/-- An address has digits exactly when it is of the accepted form. -/
theorem addressHex_isSome_iff (h : protoWithName name = some protocol) (address : List UInt8) :
    (addressHex protocol address).isSome ↔ AdmittedAddress name address := by
  obtain ⟨h4, h6, h17, h42⟩ := deccode_iff_name h
  constructor
  · intro hs
    unfold addressHex at hs
    split at hs
    · rename_i hcode
      rw [Option.isSome_map] at hs
      obtain ⟨t1, t2, t3, t4, ht, hoctets⟩ := quadValue_isSome_iff.mp hs
      rw [h4.mp hcode]
      exact .ip4 ht hoctets
    · rename_i hcode
      split at hs
      · rename_i hrange
        rw [h6.mp hcode]
        exact .tcp hrange.1 hrange.2
      · cases hs
    · rename_i hcode
      split at hs
      · rename_i hrange
        rw [h17.mp hcode]
        exact .udp hrange.1 hrange.2
      · cases hs
    · rename_i hcode
      rw [Option.isSome_map] at hs
      obtain ⟨d, hd⟩ := Option.isSome_iff_exists.mp hs
      rw [h42.mp hcode]
      exact .ipfs (base32Value_eq_some.mp hd)
    · cases hs
  · intro ha
    cases ha with
    | ip4 ht hoctets =>
      rw [addressHex, h4.mpr rfl]
      exact (Option.isSome_map ..).trans (quadValue_isSome_iff.mpr ⟨_, _, _, _, ht, hoctets⟩)
    | tcp hpos hlt =>
      rw [addressHex, h6.mpr rfl]
      simp [hpos, hlt]
    | udp hpos hlt =>
      rw [addressHex, h17.mpr rfl]
      simp [hpos, hlt]
    | ipfs hd =>
      rw [addressHex, h42.mpr rfl]
      simp [base32Value_eq_some.mpr hd]

/-- A protocol with addresses is known. -/
theorem AdmittedAddress.exists_protocol {address : List UInt8} (h : AdmittedAddress name address) :
    ∃ protocol, protoWithName name = some protocol := by
  cases h <;> exact ⟨_, rfl⟩

theorem pairsAdmitted_iff (ts : List (List UInt8)) : pairsAdmitted ts = true ↔ AdmittedTokens ts := by
  induction ts using pairsAdmitted.induct with
  | case1 => exact iff_of_true rfl .nil
  | case2 name =>
    rw [pairsAdmitted, protoWithName_isSome_iff]
    constructor
    · exact .last
    · intro h
      cases h with
      | last h => exact h
  | case3 name address rest hname =>
    rw [pairsAdmitted, hname]
    refine iff_of_false (by simp) ?_
    intro h
    cases h with
    | pair ha hrest =>
      obtain ⟨protocol, hprotocol⟩ := ha.exists_protocol
      rw [hname] at hprotocol
      cases hprotocol
  | case4 name address rest protocol hname ih =>
    rw [pairsAdmitted, hname]
    dsimp only
    rw [Bool.and_eq_true, addressHex_isSome_iff hname, ih]
    constructor
    · rintro ⟨ha, hrest⟩
      exact .pair ha hrest
    · intro h
      cases h with
      | pair ha hrest => exact ⟨ha, hrest⟩

end Accepted

section Numbers

variable {lo hi : Nat} {t : List UInt8}

theorem DecimalIn.atoi_eq (h : DecimalIn lo hi t) (hhi : hi < 2 ^ 31) : atoi t = digitsValue t :=
  atoi_digits h.2.1 (Nat.lt_of_le_of_lt h.2.2.2 hhi)

theorem DecimalIn.notMem {c : UInt8} (h : DecimalIn lo hi t) (hc : c < 48) : c ∉ t := by
  intro hmem
  exact absurd (h.2.1 c hmem).1 (by rwa [UInt8.not_le])

theorem DecimalIn.octet (h : DecimalIn 0 255 t) : octet t = true := by
  have hatoi := h.atoi_eq (by decide)
  have hdigit : validDigit t = true := by
    apply List.all_eq_true.mpr
    intro c hc
    simpa using h.2.1 c hc
  have hle := h.2.2.2
  rw [Libcp2p.octet, hdigit, Bool.true_and]
  apply decide_eq_true
  constructor <;> rw [hatoi] <;> omega

end Numbers

/-! ## Documented texts are accepted -/

section Documented

variable {name address strx : List UInt8}

theorem DocumentedAddress.admitted (h : DocumentedAddress name address) : AdmittedAddress name address := by
  cases h with
  | @ip4 t1 t2 t3 t4 h1 h2 h3 h4 =>
    have hword {t : List UInt8} (ht : DecimalIn 0 255 t) : tokens 46 t = [t] :=
      tokens_of_notMem ht.1 (ht.notMem (by decide))
    have htokens : tokens 46 (t1 ++ 46 :: (t2 ++ 46 :: (t3 ++ 46 :: t4))) = [t1, t2, t3, t4] := by
      simp only [tokens_append_cons, hword h1, hword h2, hword h3, hword h4, List.cons_append, List.nil_append]
    apply AdmittedAddress.ip4 htokens
    simp only [List.forall_mem_cons, h1.octet, h2.octet, h3.octet, h4.octet]
    simp
  | tcp ht =>
    have hatoi := ht.atoi_eq (by decide)
    obtain ⟨-, -, hlo, hhi⟩ := ht
    exact .tcp (by omega) (by omega)
  | udp ht =>
    have hatoi := ht.atoi_eq (by decide)
    obtain ⟨-, -, hlo, hhi⟩ := ht
    exact .udp (by omega) (by omega)
  | ipfs hd => exact .ipfs hd.groups

/-- Protocol and address are tokens. -/
theorem DocumentedAddress.tokens (h : DocumentedAddress name address) :
    (name ≠ [] ∧ 47 ∉ name) ∧ address ≠ [] ∧ 47 ∉ address := by
  cases h with
  | ip4 h1 h2 h3 h4 =>
    refine ⟨by decide, by simp, ?_⟩
    simp [h1.notMem, h2.notMem, h3.notMem, h4.notMem]
  | tcp ht => exact ⟨by decide, ht.1, ht.notMem (by decide)⟩
  | udp ht => exact ⟨by decide, ht.1, ht.notMem (by decide)⟩
  | ipfs hd hne => exact ⟨by decide, hne, hd.groups.notMem (by decide) (by decide)⟩

/-- The tokens of a documented text are its pairs. -/
theorem Documented.exists_pairs (h : Documented strx) : strx.head? = some 47 ∧
    ∃ pairs : List (List UInt8 × List UInt8), pairs ≠ [] ∧ (∀ q ∈ pairs, DocumentedAddress q.1 q.2) ∧
      Libcp2p.tokens 47 strx = pairs.flatMap fun q => [q.1, q.2] := by
  obtain ⟨pairs, hne, hpairs, hstrx⟩ := h
  have htext : pairs.flatMap (fun q => 47 :: (q.1 ++ 47 :: q.2)) =
      (pairs.flatMap fun q => [q.1, q.2]).flatMap (47 :: ·) := by
    simp [List.flatMap_assoc]
  have hwords : ∀ w ∈ pairs.flatMap (fun q => [q.1, q.2]), w ≠ [] ∧ 47 ∉ w := by
    intro w hw
    obtain ⟨q, hq, hw⟩ := List.mem_flatMap.mp hw
    have ht := (hpairs q hq).tokens
    simp only [List.mem_cons, List.not_mem_nil, or_false] at hw
    rcases hw with rfl | rfl
    · exact ht.1
    · exact ht.2
  refine ⟨?_, pairs, hne, hpairs, ?_⟩
  · obtain ⟨q, qs, rfl⟩ := List.exists_cons_of_ne_nil hne
    rcases hstrx with rfl | rfl <;> rfl
  · rcases hstrx with rfl | rfl
    · rw [htext, tokens_flatMap hwords]
    · rw [tokens_snoc, htext, tokens_flatMap hwords]

theorem Documented.admitted (h : Documented strx) : Admitted strx := by
  obtain ⟨hhead, pairs, -, hpairs, htokens⟩ := h.exists_pairs
  refine ⟨hhead, ?_⟩
  rw [htokens]
  clear htokens
  induction pairs with
  | nil => exact .nil
  | cons q qs ih =>
    exact .pair (hpairs q List.mem_cons_self).admitted (ih fun q hq => hpairs q (List.mem_cons_of_mem _ hq))

/-- A documented tcp address has digits only. -/
theorem DocumentedAddress.tcp_digits (h : DocumentedAddress name address) (hname : name = ascii ['t', 'c', 'p']) :
    ∀ c ∈ address, 48 ≤ c ∧ c ≤ 57 := by
  cases h with
  | tcp ht => exact ht.2.1
  | _ => exact absurd hname (by decide)

end Documented

theorem stringToBytes_isSome_iff {strx : List UInt8} (hreturns : ∃ r, stringToBytes strx = .ok r) :
    (∃ bytes, stringToBytes strx = .ok (some bytes)) ↔ Admitted strx := by
  obtain ⟨bytes, -, h⟩ := stringToBytes_eq strx
  rw [Admitted, ← pairsAdmitted_iff]
  by_cases hhead : strx.head? = some 47
  · obtain ⟨hfit, hend⟩ := (stringToBytes_returns_iff strx).mp hreturns hhead
    rw [h, if_neg (not_not.mpr hhead), if_neg (not_not.mpr hfit), if_neg (by simpa using hend)]
    cases pairsAdmitted (tokens 47 strx) <;> simp [hhead]
  · rw [h, if_pos hhead]
    simp [hhead]

/-- **The accepted language.** Where it returns, `string_to_bytes` accepts exactly the admitted texts, and so it agrees
with the documentation on a text exactly when that is documented or not admitted. -/
theorem stringToBytes_accepts_iff (strx : List UInt8) (hreturns : ∃ r, stringToBytes strx = .ok r) :
    ((∃ bytes, stringToBytes strx = .ok (some bytes)) ↔ Admitted strx) ∧
      (((∃ bytes, stringToBytes strx = .ok (some bytes)) ↔ Documented strx) ↔ (Admitted strx → Documented strx)) := by
  have haccepts := stringToBytes_isSome_iff hreturns
  refine ⟨haccepts, ?_⟩
  rw [haccepts]
  constructor
  · intro h hadmitted
    exact h.mp hadmitted
  · intro h
    exact ⟨h, Documented.admitted⟩

/-- The text `/tcp/80`. -/
theorem stringToBytes_accepts_tcp :
    (∃ bytes, stringToBytes (ascii ['/', 't', 'c', 'p', '/', '8', '0']) = .ok (some bytes)) ↔
      Admitted (ascii ['/', 't', 'c', 'p', '/', '8', '0']) :=
  (stringToBytes_accepts_iff _ ⟨some [6, 0, 80], by decide +kernel⟩).1

/-- A protocol without its address, no address at all and a port with a stray letter are accepted, and none of them is
documented. -/
theorem stringToBytes_accepts_undocumented :
    stringToBytes (ascii ['/', 'i', 'p', '4']) = .ok (some [4]) ∧ ¬ Documented (ascii ['/', 'i', 'p', '4']) ∧
      stringToBytes (ascii ['/']) = .ok (some []) ∧ ¬ Documented (ascii ['/']) ∧
      stringToBytes (ascii ['/', 't', 'c', 'p', '/', '8', '0', 'x']) = .ok (some [6, 0, 80]) ∧
      ¬ Documented (ascii ['/', 't', 'c', 'p', '/', '8', '0', 'x']) := by
  refine ⟨by decide +kernel, ?_, by decide +kernel, ?_, by decide +kernel, ?_⟩
  · intro h
    obtain ⟨-, pairs, hne, -, htokens⟩ := h.exists_pairs
    rw [show tokens 47 (ascii ['/', 'i', 'p', '4']) = [ascii ['i', 'p', '4']] by decide +kernel] at htokens
    obtain ⟨q, qs, rfl⟩ := List.exists_cons_of_ne_nil hne
    cases (List.cons.inj htokens).2
  · intro h
    obtain ⟨-, pairs, hne, -, htokens⟩ := h.exists_pairs
    obtain ⟨q, qs, rfl⟩ := List.exists_cons_of_ne_nil hne
    cases htokens
  · intro h
    obtain ⟨-, pairs, hne, hpairs, htokens⟩ := h.exists_pairs
    rw [show tokens 47 (ascii ['/', 't', 'c', 'p', '/', '8', '0', 'x']) =
      [ascii ['t', 'c', 'p'], ascii ['8', '0', 'x']] by decide +kernel] at htokens
    obtain ⟨q, qs, rfl⟩ := List.exists_cons_of_ne_nil hne
    obtain ⟨hname, haddress⟩ := List.cons.inj htokens
    have hdigits := (hpairs q List.mem_cons_self).tcp_digits hname.symm
    rw [← (List.cons.inj haddress).1] at hdigits
    -- the letter `x`
    exact absurd (hdigits 120 (by simp [ascii])).2 (by decide)

end Libcp2p
