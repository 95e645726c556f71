import Libcp2p.Lib.CMemory

/-!
# AES encryption

`libp2p_crypto_aes_encrypt` is to pad its input with zeros to a multiple of the block size, but adds the remainder of
the size where it should add what is missing to the next multiple: `paddedSize` is a multiple of 16 only for the
remainders 0 and 8. For all other sizes mbedtls refuses the length, and the function then frees its parameter instead
of the buffer.

* `paddedSize_eq`, `add_mod_sixteen_iff`: the size after padding, and where it is a multiple of 16.
* `libp2pCryptoAesEncrypt_aligned`, `libp2pCryptoAesEncrypt_refused`: what the function does for these and for the
  others.
* `aes_round_trip_iff`: exactly for these sizes the input is encrypted and decrypted again.
-/

namespace Libcp2p

/-! ## The functions -/

/-- AES-256 in CBC mode, as mbedtls has it: some pair of functions, one undoing the other on whole blocks. Both return
their output and what they leave in `iv`. -/
structure AesCbc where
  encrypt : (key iv input : List UInt8) → List UInt8 × List UInt8
  decrypt : (key iv input : List UInt8) → List UInt8 × List UInt8
  length_encrypt : ∀ {key iv input : List UInt8}, key.length = 32 → iv.length = 16 → input.length % 16 = 0 →
    (encrypt key iv input).1.length = input.length
  decrypt_encrypt : ∀ {key iv input : List UInt8}, key.length = 32 → iv.length = 16 → input.length % 16 = 0 →
    (decrypt key iv (encrypt key iv input).1).1 = input

/-- A cipher that combines each byte with the first bytes of the key and the iv. -/
def xorCipher : AesCbc where
  encrypt key iv input := (input.map (· ^^^ (key.headD 0 ^^^ iv.headD 0)), iv)
  decrypt key iv input := (input.map (· ^^^ (key.headD 0 ^^^ iv.headD 0)), iv)
  length_encrypt _ _ _ := List.length_map _
  decrypt_encrypt _ _ _ := by
    rw [List.map_map]
    exact List.map_id'' (fun x => by rw [Function.comp_apply, UInt8.xor_assoc, UInt8.xor_self, UInt8.xor_zero]) _

/-- What the functions get from outside: which allocations succeed, and whether the caller's variable for the output is
itself a block of its own on the heap. -/
structure AesEnv where
  paddedInput : Bool
  output : Bool
  variableOnHeap : Bool
  deriving DecidableEq, Repr

/-- What is left behind by a call that returns 1: `*output`, whose length is `*output_size`, and `iv`. -/
structure AesOutput where
  output : List UInt8
  iv : List UInt8
  deriving DecidableEq, Repr

/-- `mbedtls_aes_crypt_cbc` with one of the two functions; nothing for a length that it refuses. -/
def mbedtlsAesCryptCbc (crypt : (iv input : List UInt8) → List UInt8 × List UInt8) (outputAllocated : Bool)
    (iv input : List UInt8) : Except Fault (Option AesOutput) :=
  if input.length % 16 ≠ 0 then .ok none
  else if input ≠ [] ∧ !outputAllocated then .error .outOfBounds
  else .ok (some ⟨(crypt iv input).1, (crypt iv input).2⟩)

/-- `new_size`, an `int`. -/
def paddedSize (inputSize : Nat) : Int :=
  let newSize := toInt32 inputSize
  if newSize.tmod 16 ≠ 0 then toInt32 (newSize + newSize.tmod 16) else newSize

/-- The end of `libp2p_crypto_aes_encrypt`: on an error it calls `free(output)`, not `free(*output)`. -/
def aesEncryptFinish (env : AesEnv) : Option AesOutput → Except Fault (Option AesOutput)
  | some result => .ok (some result)
  | none => if env.variableOnHeap then .ok none else .error .invalidFree

/-- `libp2p_crypto_aes_encrypt`; nothing where it returns 0. A negative size is more than there can be memory for. -/
def libp2pCryptoAesEncrypt (cbc : AesCbc) (env : AesEnv) (key iv input : List UInt8) :
    Except Fault (Option AesOutput) :=
  let newSize := paddedSize input.length
  if newSize < 0 ∨ !env.paddedInput then .ok none
  else if newSize < input.length then .error .outOfBounds
  else do
    let paddedInput := input ++ List.replicate (newSize.toNat - input.length) 0
    let result ← mbedtlsAesCryptCbc (cbc.encrypt key) env.output iv paddedInput
    aesEncryptFinish env result

/-- `libp2p_crypto_aes_decrypt`; nothing where it returns 0. -/
def libp2pCryptoAesDecrypt (cbc : AesCbc) (env : AesEnv) (key iv input : List UInt8) :
    Except Fault (Option AesOutput) :=
  mbedtlsAesCryptCbc (cbc.decrypt key) env.output iv input

/-! ## Padding -/

/-- The input with as many zeros as are missing to the next multiple of 16. -/
def zeroPadded (input : List UInt8) : List UInt8 := input ++ List.replicate ((16 - input.length % 16) % 16) 0

theorem length_zeroPadded (input : List UInt8) :
    (zeroPadded input).length = input.length + (16 - input.length % 16) % 16 := by
  rw [zeroPadded, List.length_append, List.length_replicate]

theorem length_zeroPadded_mod (input : List UInt8) : (zeroPadded input).length % 16 = 0 := by
  rw [length_zeroPadded]
  omega

/-- `new_size` adds the remainder. -/
theorem paddedSize_eq {n : Nat} (h : n < 2 ^ 30) : paddedSize n = (n + n % 16 : Nat) := by
  have hn : toInt32 n = n := toInt32_natCast (by omega)
  have hrem : ((n : Int).tmod 16) = (n % 16 : Nat) := by
    rw [Int.tmod_eq_emod_of_nonneg (by omega)]
    omega
  unfold paddedSize
  simp only [hn, hrem]
  split
  · exact toInt32_natCast (by omega)
  · omega

/-- The remainder is what is missing to a multiple of 16 exactly for the remainders 0 and 8. -/
theorem add_mod_sixteen_iff (n : Nat) : (n + n % 16) % 16 = 0 ↔ n % 16 = 0 ∨ n % 16 = 8 := by omega

section Sizes

variable (cbc : AesCbc) {env : AesEnv} {key iv input : List UInt8}

/-- What mbedtls is called with: the remainder of the size is added as zeros. -/
theorem libp2pCryptoAesEncrypt_eq (henv : env.paddedInput = true) (hmax : input.length < 2 ^ 30) :
    libp2pCryptoAesEncrypt cbc env key iv input =
      mbedtlsAesCryptCbc (cbc.encrypt key) env.output iv (input ++ List.replicate (input.length % 16) 0) >>=
        aesEncryptFinish env := by
  have hsize := paddedSize_eq hmax
  unfold libp2pCryptoAesEncrypt
  simp only [hsize, henv]
  rw [if_neg (by simp only [Bool.not_true, Bool.false_eq_true, or_false]; omega), if_neg (by omega), Int.toNat_natCast,
    Nat.add_sub_cancel_left]

theorem mbedtlsAesCryptCbc_blocks {crypt : (iv input : List UInt8) → List UInt8 × List UInt8} {outputAllocated : Bool}
    (halloc : outputAllocated = true) (hblocks : input.length % 16 = 0) :
    mbedtlsAesCryptCbc crypt outputAllocated iv input = .ok (some ⟨(crypt iv input).1, (crypt iv input).2⟩) := by
  rw [mbedtlsAesCryptCbc, if_neg (not_not.mpr hblocks), halloc, if_neg (by simp)]

/-- For the remainders 0 and 8 the zeros are those that were missing, and mbedtls encrypts. -/
theorem libp2pCryptoAesEncrypt_aligned (henv : env.paddedInput = true) (hout : env.output = true)
    (hmax : input.length < 2 ^ 30) (hrem : input.length % 16 = 0 ∨ input.length % 16 = 8) :
    libp2pCryptoAesEncrypt cbc env key iv input =
      .ok (some ⟨(cbc.encrypt key iv (zeroPadded input)).1, (cbc.encrypt key iv (zeroPadded input)).2⟩) := by
  have hpad : input ++ List.replicate (input.length % 16) 0 = zeroPadded input := by
    rw [zeroPadded]
    congr 2
    omega
  rw [libp2pCryptoAesEncrypt_eq cbc henv hmax, hpad, mbedtlsAesCryptCbc_blocks hout (length_zeroPadded_mod input),
    ok_bind]
  rfl

/-- For every other remainder mbedtls refuses the length. -/
theorem libp2pCryptoAesEncrypt_refused (henv : env.paddedInput = true) (hmax : input.length < 2 ^ 30)
    (hrem : ¬ (input.length % 16 = 0 ∨ input.length % 16 = 8)) :
    libp2pCryptoAesEncrypt cbc env key iv input = if env.variableOnHeap then .ok none else .error .invalidFree := by
  have hlen : (input ++ List.replicate (input.length % 16) 0).length % 16 ≠ 0 := by
    rw [List.length_append, List.length_replicate]
    exact mt (add_mod_sixteen_iff _).mp hrem
  rw [libp2pCryptoAesEncrypt_eq cbc henv hmax, mbedtlsAesCryptCbc, if_pos hlen, ok_bind]
  rfl

/-- What was encrypted is decrypted with the iv that the encryption started from. -/
theorem libp2pCryptoAesDecrypt_encrypt (hout : env.output = true) (hkey : key.length = 32) (hiv : iv.length = 16)
    {padded : List UInt8} (hblocks : padded.length % 16 = 0) :
    ∃ iv', libp2pCryptoAesDecrypt cbc env key iv (cbc.encrypt key iv padded).1 = .ok (some ⟨padded, iv'⟩) := by
  have hlen := cbc.length_encrypt hkey hiv hblocks
  rw [libp2pCryptoAesDecrypt, mbedtlsAesCryptCbc_blocks hout (by rw [hlen]; exact hblocks),
    cbc.decrypt_encrypt hkey hiv hblocks]
  exact ⟨_, rfl⟩

end Sizes

/-! ## The round trip -/

/-- Encryption succeeds on the input padded to the next multiple of 16, and decrypting with the same key and iv gives
the padded input back. -/
def AesRoundTrip (cbc : AesCbc) (env : AesEnv) (key iv input : List UInt8) : Prop :=
  ∃ encrypted decrypted, libp2pCryptoAesEncrypt cbc env key iv input = .ok (some encrypted) ∧
    encrypted.output = (cbc.encrypt key iv (zeroPadded input)).1 ∧
    libp2pCryptoAesDecrypt cbc env key iv encrypted.output = .ok (some decrypted) ∧ decrypted.output = zeroPadded input

/-- **AES round trip**, for every cipher: exactly the inputs whose size has the remainder 0 or 8 modulo 16 are encrypted
and decrypted again; on all others encryption fails, and frees what it did not allocate. -/
theorem aes_round_trip_iff (cbc : AesCbc) (env : AesEnv) (key iv input : List UInt8) (hkey : key.length = 32)
    (hiv : iv.length = 16) (hmax : input.length < 2 ^ 30) (hpadded : env.paddedInput = true)
    (hout : env.output = true) :
    (AesRoundTrip cbc env key iv input ↔ input.length % 16 = 0 ∨ input.length % 16 = 8) ∧
    (¬ (input.length % 16 = 0 ∨ input.length % 16 = 8) → libp2pCryptoAesEncrypt cbc env key iv input =
      if env.variableOnHeap then .ok none else .error .invalidFree) := by
  refine ⟨?_, libp2pCryptoAesEncrypt_refused cbc hpadded hmax⟩
  constructor
  · rintro ⟨encrypted, decrypted, henc, -⟩
    by_contra hrem
    rw [libp2pCryptoAesEncrypt_refused cbc hpadded hmax hrem] at henc
    split at henc
    · cases henc
    · cases henc
  · intro hrem
    obtain ⟨iv', hdec⟩ := libp2pCryptoAesDecrypt_encrypt cbc hout hkey hiv (length_zeroPadded_mod input)
    exact ⟨_, _, libp2pCryptoAesEncrypt_aligned cbc hpadded hout hmax hrem, rfl, hdec, rfl⟩

/-- Eight bytes, with a cipher that changes them. -/
theorem aes_round_trip_iff_half_block :
    (AesRoundTrip xorCipher ⟨true, true, false⟩ (List.replicate 32 5) (List.replicate 16 3) (List.replicate 8 7) ↔
      8 % 16 = 0 ∨ 8 % 16 = 8) ∧
    (¬ (8 % 16 = 0 ∨ 8 % 16 = 8) → libp2pCryptoAesEncrypt xorCipher ⟨true, true, false⟩ (List.replicate 32 5)
      (List.replicate 16 3) (List.replicate 8 7) = .error .invalidFree) :=
  aes_round_trip_iff xorCipher ⟨true, true, false⟩ (List.replicate 32 5) (List.replicate 16 3) (List.replicate 8 7)
    List.length_replicate List.length_replicate (by rw [List.length_replicate]; omega) rfl rfl

/-- One byte is padded to two and refused, whatever the cipher. -/
theorem aes_one_byte_refused :
    ¬ ∃ cbc, AesRoundTrip cbc ⟨true, true, false⟩ (List.replicate 32 0) (List.replicate 16 0) [7] := by
  rintro ⟨cbc, encrypted, decrypted, henc, -⟩
  rw [libp2pCryptoAesEncrypt_refused cbc rfl (by simp) (by simp)] at henc
  cases henc

end Libcp2p
