import Libcp2p.Lib.Buffer
import Libcp2p.Multiaddr.Reading

/-!
# Dotted quads

The functions on ip4 addresses as the source has them: `is_valid_ipv4` and `ip2int` call `strtok` for one token after
another, and `int2ip` prints into an array of 16 characters.

* `isValidIpv4Run_ok`, `isValidIpv4Run_diverge`: the loop of `is_valid_ipv4` ends after as many rounds as there are
  tokens, or it never ends; `isValidIpv4` is what it returns.
* `ip2intTokens_eq`: `ip2int` takes the first four tokens.
* `int2ip_round_trip`: every 32-bit number is printed as a dotted quad, which is valid and read back.
-/

namespace Libcp2p

/-! ## The functions -/

/-- At most `fuel` tests of the loop condition of `is_valid_ipv4`, where `ptr` is the last token and what is left
behind it. A number out of range sets `err` and leaves `ptr` where it is. -/
def isValidIpv4While : (fuel : Nat) → (ptr : Option (List UInt8 × List UInt8)) → (dots : Nat) → (err : Bool) →
    Option Bool
  | 0, _, _, _ => none
  | _ + 1, none, dots, err => some (!err && dots = 3)
  | fuel + 1, some (ptr, rest), dots, err =>
    let err := err || !validDigit ptr
    if 0 ≤ atoi ptr ∧ atoi ptr ≤ 255 then
      isValidIpv4While fuel (strtok 46 rest) (if (strtok 46 rest).isSome then dots + 1 else dots) err
    else isValidIpv4While fuel (some (ptr, rest)) dots true

/-- `is_valid_ipv4` of a string: what it returns if its loop ends within `fuel` tests. -/
def isValidIpv4Run (fuel : Nat) (ipStr : List UInt8) : Option Bool :=
  isValidIpv4While fuel (strtok 46 ipStr) 0 (strtok 46 ipStr).isNone

/-- The numbers of `n` tokens, the first of them at `iproc`. There is no number behind a null pointer. -/
def ip2intLoop : (n : Nat) → (iproc : Option (List UInt8 × List UInt8)) → Except Fault (List Int)
  | 0, _ => .ok []
  | _ + 1, none => .error .outOfBounds
  | n + 1, some (iproc, rest) => do
    let ipats ← ip2intLoop n (strtok 46 rest)
    .ok (atoi iproc :: ipats)

/-- `ip2int`, whose powers of two are exact. -/
def ip2intTokens (ipconvertint : List UInt8) : Except Fault Nat := do
  let ip ← strcpy 16 ipconvertint
  let ipats ← ip2intLoop 4 (strtok 46 ip)
  let result := ipats.getD 0 0 * 2 ^ 24 + ipats.getD 1 0 * 2 ^ 16 + ipats.getD 2 0 * 2 ^ 8 + ipats.getD 3 0
  if 0 ≤ result then .ok result.toNat else .error .conversion

/-- `int2ip` of an `int`: what its array holds. -/
def int2ipArray (inputintip : Int) : Except Fault (List UInt8) :=
  sprintf (List.replicate 16 0) 0 (int2ip (inputintip % 2 ^ 32).toNat)

/-! ## The loop of `is_valid_ipv4` -/

section Loop

variable {ptr : Option (List UInt8 × List UInt8)} {dots fuel : Nat} {err r : Bool}

/-- A number out of range is looked at for ever. -/
theorem isValidIpv4While_endless {t : List UInt8} (h : ¬ OctetRange t) (fuel : Nat) (rest : List UInt8) (dots : Nat)
    (err : Bool) : isValidIpv4While fuel (some (t, rest)) dots err = none := by
  induction fuel generalizing err with
  | zero => rfl
  | succ fuel ih =>
    rw [isValidIpv4While]
    exact (if_neg h).trans (ih true)

/-- One round at a number in range goes on to the next token. -/
theorem isValidIpv4Loop_cons {t rest : List UInt8} (h : OctetRange t) :
    isValidIpv4Loop (tokensFrom 46 (some (t, rest))) dots err =
      isValidIpv4Loop (tokensFrom 46 (strtok 46 rest)) (if (strtok 46 rest).isSome then dots + 1 else dots)
        (err || !validDigit t) := by
  rw [tokensFrom, isValidIpv4Loop]
  refine (if_pos h).trans ?_
  rw [tokens_eq_tokensFrom]
  cases strtok 46 rest with
  | none => rfl
  | some p => rfl

/-- **The loop ends where it returns**, one test after its last token. -/
theorem isValidIpv4While_ok (h : isValidIpv4Loop (tokensFrom 46 ptr) dots err = .ok r)
    (hfuel : (tokensFrom 46 ptr).length < fuel) : isValidIpv4While fuel ptr dots err = some r := by
  induction fuel generalizing ptr dots err with
  | zero => cases hfuel
  | succ fuel ih =>
    cases ptr with
    | none =>
      rw [isValidIpv4While]
      exact congrArg some (Except.ok.inj h)
    | some p =>
      obtain ⟨t, rest⟩ := p
      by_cases ht : OctetRange t
      · rw [isValidIpv4Loop_cons ht] at h
        rw [tokensFrom, tokens_eq_tokensFrom, List.length_cons] at hfuel
        rw [isValidIpv4While]
        exact (if_pos ht).trans (ih h (by omega))
      · rw [tokensFrom, isValidIpv4Loop] at h
        cases (if_neg ht).symm.trans h

/-- Where it returns nothing it never ends. -/
theorem isValidIpv4While_error {e : Fault} (h : isValidIpv4Loop (tokensFrom 46 ptr) dots err = .error e) :
    isValidIpv4While fuel ptr dots err = none := by
  induction fuel generalizing ptr dots err with
  | zero => rfl
  | succ fuel ih =>
    cases ptr with
    | none => cases h
    | some p =>
      obtain ⟨t, rest⟩ := p
      by_cases ht : OctetRange t
      · rw [isValidIpv4Loop_cons ht] at h
        rw [isValidIpv4While]
        exact (if_pos ht).trans (ih h)
      · exact isValidIpv4While_endless ht _ _ _ _

end Loop

section Strings

variable {s : List UInt8} {fuel : Nat}

theorem isValidIpv4_eq_loop (s : List UInt8) :
    isValidIpv4 s = isValidIpv4Loop (tokensFrom 46 (strtok 46 s)) 0 (strtok 46 s).isNone := by
  rw [isValidIpv4, tokens_eq_tokensFrom]
  cases strtok 46 s with
  | none => rfl
  | some p => rfl

theorem isValidIpv4Run_ok {r : Bool} (h : isValidIpv4 s = .ok r) (hfuel : (tokens 46 s).length < fuel) :
    isValidIpv4Run fuel s = some r := by
  rw [isValidIpv4_eq_loop] at h
  rw [tokens_eq_tokensFrom] at hfuel
  exact isValidIpv4While_ok h hfuel

theorem isValidIpv4Run_diverge {e : Fault} (h : isValidIpv4 s = .error e) (fuel : Nat) :
    isValidIpv4Run fuel s = none := by
  rw [isValidIpv4_eq_loop] at h
  exact isValidIpv4While_error h

/-! ## `ip2int` -/

/-- The numbers of as many tokens as there are. -/
theorem ip2intLoop_eq (n : Nat) (iproc : Option (List UInt8 × List UInt8)) :
    ip2intLoop n iproc =
      if n ≤ (tokensFrom 46 iproc).length then .ok (((tokensFrom 46 iproc).take n).map atoi)
      else .error .outOfBounds := by
  induction n generalizing iproc with
  | zero => simp [ip2intLoop]
  | succ n ih =>
    cases iproc with
    | none => rfl
    | some p =>
      obtain ⟨t, rest⟩ := p
      rw [ip2intLoop, ih, tokensFrom, tokens_eq_tokensFrom, List.length_cons, List.take_succ_cons, List.map_cons]
      by_cases h : n ≤ (tokensFrom 46 (strtok 46 rest)).length
      · rw [if_pos h, if_pos (by omega), ok_bind]
      · rw [if_neg h, if_neg (by omega), error_bind]

/-- `ip2int` takes the first four tokens. -/
theorem ip2intTokens_eq (s : List UInt8) : ip2intTokens s = ip2int s := by
  unfold ip2intTokens ip2int
  cases strcpy 16 s with
  | error e => rfl
  | ok ip =>
    rw [ok_bind, ok_bind, ip2intLoop_eq, ← tokens_eq_tokensFrom]
    generalize tokens 46 ip = ts
    rcases ts with _ | ⟨t1, _ | ⟨t2, _ | ⟨t3, _ | ⟨t4, ts⟩⟩⟩⟩
    · rfl
    · rfl
    · rfl
    · rfl
    · rw [if_pos (by simp)]
      rfl

end Strings

/-! ## Every number -/

/-- A 32-bit number has four bytes. -/
theorem exists_beNat_quad {x : Nat} (hx : x < 2 ^ 32) : ∃ a b c d : UInt8, beNat [a, b, c, d] = x := by
  have hbytes := beNat_beBytes (w := 4) hx
  exact ⟨_, _, _, _, hbytes⟩

theorem isValidIpv4_quad (a b c d : UInt8) : isValidIpv4 (Component.ip4 a b c d).address = .ok true := by
  rw [isValidIpv4_eq fun t ht => octetRange_of_mem_quad a b c d ht, quadValue_quad]
  rfl

/-- The array of `int2ip` holds the quad of the bytes of its number, which is negative as an `int` for half of them. -/
theorem int2ipArray_quad (a b c d : UInt8) :
    ∃ rest, int2ipArray (toInt32 (beNat [a, b, c, d])) = .ok ((Component.ip4 a b c d).address ++ 0 :: rest) := by
  have hlt : beNat [a, b, c, d] < 256 ^ 4 := beNat_lt [a, b, c, d]
  have hunsigned : (toInt32 (beNat [a, b, c, d]) % 2 ^ 32).toNat = beNat [a, b, c, d] := by
    unfold toInt32
    omega
  have hlen := length_quad_lt a b c d
  obtain ⟨k, hk⟩ : ∃ k, 16 - (Component.ip4 a b c d).address.length = k + 1 :=
    ⟨15 - (Component.ip4 a b c d).address.length, by omega⟩
  have hprint := sprintf_zeros [] hlen
  rw [hk, List.replicate_succ] at hprint
  rw [int2ipArray, hunsigned, int2ip_beNat]
  exact ⟨_, hprint⟩

theorem zero_notMem_quad (a b c d : UInt8) : 0 ∉ (Component.ip4 a b c d).address := by
  have hdecimal (n : Nat) : 0 ∉ decimal n := notMem_decimal (by decide) n
  simp [Component.address, hdecimal]

/-- **Every 32-bit number is a dotted quad.** `int2ip` prints at most 15 characters: four numbers up to 255 with dots
between them. The loop of `is_valid_ipv4` over them ends at its fifth test and accepts them, and `ip2int` returns the
number. -/
theorem int2ip_round_trip (x : UInt32) :
    ∃ result text, int2ipArray (toInt32 x.toNat) = .ok result ∧ cString result = .ok text ∧ text.length ≤ 15 ∧
      (∃ a b c d : UInt8, text = decimal a.toNat ++ 46 :: (decimal b.toNat ++ 46 :: (decimal c.toNat ++
        46 :: decimal d.toNat))) ∧
      (∀ fuel, 5 ≤ fuel → isValidIpv4Run fuel text = some true) ∧ ip2intTokens text = .ok x.toNat := by
  obtain ⟨a, b, c, d, hx⟩ := exists_beNat_quad x.toNat_lt
  obtain ⟨rest, hresult⟩ := int2ipArray_quad a b c d
  have hlen := length_quad_lt a b c d
  rw [← hx]
  refine ⟨_, _, hresult, cString_append (zero_notMem_quad a b c d) rest, by omega, ⟨a, b, c, d, rfl⟩, ?_, ?_⟩
  · intro fuel hfuel
    have htokens : (tokens 46 (Component.ip4 a b c d).address).length = 4 := by
      rw [tokens_quad]
      rfl
    exact isValidIpv4Run_ok (isValidIpv4_quad a b c d) (by omega)
  · rw [ip2intTokens_eq, ip2int_eq hlen (quadValue_quad a b c d)]

end Libcp2p
