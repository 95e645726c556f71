import Mathlib.Data.List.Induction
import Mathlib.Data.List.TakeWhile
import Libcp2p.Lib.Hex

/-!
# C strings and numerals

A string is the list of its bytes before the NUL. `tokens` is what successive calls of `strtok` return, `numeral` what
`printf` writes for a number and `strtol` what is read back.

* `tokens_eq_tokensFrom`: the tokens, by one call of `strtok` after another.
* `tokens_append_cons`: a delimiter splits a string into two that are tokenized on their own.
* `numeral_eq`: the digits of a number, least significant digit last.
* `atoi_decimal`: a decimal numeral is read as its number.
-/

namespace Libcp2p

/-- The bytes of ASCII characters. -/
def ascii (cs : List Char) : List UInt8 := cs.map fun c => UInt8.ofNat c.toNat

/-- The string at the front of a buffer that has a NUL after it. -/
def cstr (buf : List UInt8) : List UInt8 := buf.takeWhile (· ≠ 0)

theorem cstr_of_notMem {s : List UInt8} (h : 0 ∉ s) : cstr s = s := by
  have hall : ∀ c ∈ s, decide (c ≠ 0) = true := fun c hc => decide_eq_true fun heq => h (heq ▸ hc)
  rw [cstr, ← List.append_nil s, List.takeWhile_append_of_pos hall]
  rfl

theorem cstr_append_zero {s : List UInt8} (h : 0 ∉ s) (t : List UInt8) : cstr (s ++ 0 :: t) = s := by
  have hall : ∀ c ∈ s, decide (c ≠ 0) = true := fun c hc => decide_eq_true fun heq => h (heq ▸ hc)
  rw [cstr, List.takeWhile_append_of_pos hall]
  simp

/-- The position where `strstr` finds `needle`. -/
def strpos (haystack needle : List UInt8) : Option Nat :=
  if needle <+: haystack then some 0
  else match haystack with
    | [] => none
    | _ :: haystack => (strpos haystack needle).map (· + 1)

section Search

variable {d : UInt8} {u w t needle : List UInt8}

theorem strpos_start (h : needle <+: t) : strpos t needle = some 0 := by
  rw [strpos.eq_def, if_pos h]

/-- A search goes past a character where the string looked for does not start. -/
theorem strpos_cons {c : UInt8} (h : ¬ needle <+: c :: t) : strpos (c :: t) needle = (strpos t needle).map (· + 1) := by
  rw [strpos.eq_def, if_neg h]

/-- A search goes past a string in which there is no start. -/
theorem strpos_append (h : ∀ v, v ≠ [] → v <:+ u → ¬ needle <+: v ++ t) :
    strpos (u ++ t) needle = (strpos t needle).map (· + u.length) := by
  induction u with
  | nil => simp
  | cons c u ih =>
    have hc : ¬ needle <+: c :: (u ++ t) := h (c :: u) (List.cons_ne_nil _ _) (List.suffix_refl _)
    rw [List.cons_append, strpos_cons hc, ih fun v hne hv => h v hne (hv.trans (List.suffix_cons c u))]
    cases strpos t needle with
    | none => rfl
    | some n => simp [Nat.add_assoc]

/-- What starts with a delimiter does not start in a word. -/
theorem strpos_word (hu : d ∉ u) (t : List UInt8) :
    strpos (u ++ t) (d :: w) = (strpos t (d :: w)).map (· + u.length) := by
  apply strpos_append
  rintro v hne hv ⟨s, hs⟩
  obtain ⟨c, v, rfl⟩ := List.exists_cons_of_ne_nil hne
  exact hu (hv.subset (List.mem_cons.mpr (.inl (List.cons.inj hs).1)))

/-- A word and the delimiter after it, at the front of a string. -/
theorem append_delimiter_isPrefix_iff (hw : d ∉ w) (hu : d ∉ u) : w ++ [d] <+: u ++ d :: t ↔ w = u := by
  constructor
  · rintro ⟨s, hs⟩
    rw [List.append_assoc, List.singleton_append] at hs
    rcases List.append_eq_append_iff.mp hs with ⟨as, rfl, has⟩ | ⟨as, rfl, has⟩
    · cases as with
      | nil => simp
      | cons c as => exact absurd (by rw [(List.cons.inj has).1]; simp) hu
    · cases as with
      | nil => simp
      | cons c as => exact absurd (by rw [(List.cons.inj has).1]; simp) hw
  · rintro rfl
    exact ⟨t, by simp⟩

/-- The search for a word between delimiters, at the first word of a string. -/
theorem strpos_segment (hw : d ∉ w) (hu : d ∉ u) (t : List UInt8) :
    strpos (d :: (u ++ d :: t)) (d :: (w ++ [d])) =
      if w = u then some 0 else (strpos (d :: t) (d :: (w ++ [d]))).map (· + (u.length + 1)) := by
  have hstart : d :: (w ++ [d]) <+: d :: (u ++ d :: t) ↔ w = u := by
    rw [List.prefix_cons_inj, append_delimiter_isPrefix_iff hw hu]
  by_cases h : w = u
  · rw [if_pos h, strpos_start (hstart.mpr h)]
  · rw [if_neg h, strpos_cons (mt hstart.mp h), strpos_word hu, Option.map_map]
    rfl

/-- A last word has no delimiter after it. -/
theorem strpos_last_segment (hu : d ∉ u) : strpos (d :: u) (d :: (w ++ [d])) = none := by
  have hstart : ¬ d :: (w ++ [d]) <+: d :: u := by
    intro h
    exact hu ((List.prefix_cons_inj d).mp h |>.subset (by simp))
  have hword := strpos_word (w := w ++ [d]) hu []
  rw [List.append_nil] at hword
  rw [strpos_cons hstart, hword]
  rfl

/-- The search goes past another word, which ends the string or has a delimiter after it. -/
theorem strpos_other_segment (hw : d ∉ w) (hu : d ∉ u) (hne : w ≠ u) (ht : t = [] ∨ ∃ t', t = d :: t') :
    strpos (d :: (u ++ t)) (d :: (w ++ [d])) = (strpos t (d :: (w ++ [d]))).map (· + (u.length + 1)) := by
  rcases ht with rfl | ⟨t', rfl⟩
  · rw [List.append_nil, strpos_last_segment hu]
    rfl
  · rw [strpos_segment hw hu, if_neg hne]

/-- What has no delimiter ends before one. -/
theorem isPrefix_of_delimiter (hw : d ∉ w) (h : w <+: u ++ d :: t) : w <+: u := by
  obtain ⟨s, hs⟩ := h
  rcases List.append_eq_append_iff.mp hs with ⟨as, rfl, -⟩ | ⟨as, rfl, has⟩
  · exact List.prefix_append _ _
  · cases as with
    | nil => simp
    | cons c as => exact absurd (by rw [(List.cons.inj has).1]; simp) hw

/-- The search for what has no delimiter goes past words that do not contain it. -/
theorem strpos_words {us : List (List UInt8)} (hne : w ≠ []) (hw : d ∉ w) (hus : ∀ u ∈ us, ¬ w <:+: u)
    (t : List UInt8) :
    strpos (us.flatMap (d :: ·) ++ d :: t) w = (strpos t w).map (· + ((us.flatMap (d :: ·)).length + 1)) := by
  have hskip (s : List UInt8) : strpos (d :: s) w = (strpos s w).map (· + 1) := by
    apply strpos_cons
    intro h
    obtain ⟨c, w, rfl⟩ := List.exists_cons_of_ne_nil hne
    exact hw (List.mem_cons.mpr (.inl ((List.cons_prefix_cons.mp h).1.symm)))
  induction us with
  | nil => exact hskip t
  | cons u us ih =>
    obtain ⟨s, hs⟩ : ∃ s, us.flatMap (d :: ·) ++ d :: t = d :: s := by
      cases us <;> exact ⟨_, rfl⟩
    have hpast : strpos (u ++ (us.flatMap (d :: ·) ++ d :: t)) w =
        (strpos (us.flatMap (d :: ·) ++ d :: t) w).map (· + u.length) := by
      rw [hs]
      apply strpos_append
      intro v _ hv h
      exact hus u List.mem_cons_self ((isPrefix_of_delimiter hw h).isInfix.trans hv.isInfix)
    rw [List.flatMap_cons, List.cons_append, List.cons_append, List.append_assoc, hskip, hpast,
      ih fun u hu => hus u (List.mem_cons_of_mem _ hu)]
    cases strpos t w with
    | none => rfl
    | some n =>
      simp only [Option.map_some, List.length_cons, List.length_append]
      congr 1
      omega

/-- The search for a delimiter. -/
theorem strpos_delimiter (hu : d ∉ u) (t : List UInt8) : strpos (u ++ d :: t) [d] = some u.length := by
  rw [strpos_word hu, strpos_start (by simp)]
  simp

theorem strpos_delimiter_none (hu : d ∉ u) : strpos u [d] = none := by
  have hword := strpos_word (w := []) hu []
  rw [List.append_nil] at hword
  rw [hword]
  rfl

end Search

/-! ## Tokens -/

section Tokens

variable {d : UInt8} {s w : List UInt8}

/-- What successive calls of `strtok` with the delimiter `d` return. -/
def tokens (d : UInt8) (s : List UInt8) : List (List UInt8) := (s.splitOn d).filter (· ≠ [])

theorem tokens_append_cons (d : UInt8) (s t : List UInt8) : tokens d (s ++ d :: t) = tokens d s ++ tokens d t := by
  rw [tokens, List.splitOn_append_cons_of_beq s t (beq_self_eq_true d), List.filter_append]
  rfl

theorem tokens_cons (d : UInt8) (t : List UInt8) : tokens d (d :: t) = tokens d t := tokens_append_cons d [] t

theorem tokens_snoc (d : UInt8) (s : List UInt8) : tokens d (s ++ [d]) = tokens d s := by
  rw [tokens_append_cons]
  exact List.append_nil _

/-- A string without the delimiter is one token. -/
theorem tokens_of_notMem (hne : w ≠ []) (h : d ∉ w) : tokens d w = [w] := by
  rw [tokens, List.splitOn_eq_singleton h]
  simp [hne]

/-- Words with a delimiter before each are the tokens. -/
theorem tokens_flatMap {ws : List (List UInt8)} (h : ∀ w ∈ ws, w ≠ [] ∧ d ∉ w) :
    tokens d (ws.flatMap (d :: ·)) = ws := by
  induction ws with
  | nil => rfl
  | cons w ws ih =>
    obtain ⟨hne, hmem⟩ := h w List.mem_cons_self
    have ih := ih fun w hw => h w (List.mem_cons_of_mem _ hw)
    rw [List.flatMap_cons, List.cons_append, tokens_cons]
    cases ws with
    | nil => rw [List.flatMap_nil, List.append_nil, tokens_of_notMem hne hmem]
    | cons w' ws =>
      rw [List.flatMap_cons, List.cons_append, tokens_cons] at ih
      rw [List.flatMap_cons, List.cons_append, tokens_append_cons, tokens_of_notMem hne hmem, ih]
      rfl

/-- One call of `strtok` with the delimiter `d`, where `s` is left of the string: the token, and what is left behind the
delimiter after it, which the call overwrites with a NUL. -/
def strtok (d : UInt8) (s : List UInt8) : Option (List UInt8 × List UInt8) :=
  match s.dropWhile (· = d) with
  | [] => none
  | c :: s => some ((c :: s).takeWhile (· ≠ d), ((c :: s).dropWhile (· ≠ d)).tail)

/-- A token and those that are left behind it. -/
def tokensFrom (d : UInt8) : Option (List UInt8 × List UInt8) → List (List UInt8)
  | none => []
  | some (t, rest) => t :: tokens d rest

theorem tokens_dropWhile (d : UInt8) (s : List UInt8) : tokens d (s.dropWhile (· = d)) = tokens d s := by
  induction s with
  | nil => rfl
  | cons c s ih =>
    rw [List.dropWhile_cons]
    by_cases h : c = d
    · rw [if_pos (decide_eq_true h), ih, h, tokens_cons]
    · rw [if_neg (by simpa using h)]

/-- A string that does not begin with the delimiter begins with a token. -/
theorem tokens_takeWhile {c : UInt8} (hc : c ≠ d) (t : List UInt8) :
    tokens d (c :: t) = (c :: t).takeWhile (· ≠ d) :: tokens d ((c :: t).dropWhile (· ≠ d)).tail := by
  have hword : d ∉ (c :: t).takeWhile (· ≠ d) := by
    intro hmem
    have hpass := List.mem_takeWhile_imp hmem
    exact of_decide_eq_true hpass rfl
  have hne : (c :: t).takeWhile (· ≠ d) ≠ [] := by
    rw [List.takeWhile_cons, if_pos (decide_eq_true hc)]
    exact List.cons_ne_nil _ _
  have hsplit : (c :: t).takeWhile (· ≠ d) ++ (c :: t).dropWhile (· ≠ d) = c :: t := List.takeWhile_append_dropWhile
  cases hrest : (c :: t).dropWhile (· ≠ d) with
  | nil =>
    rw [hrest, List.append_nil] at hsplit
    rw [hsplit] at hword hne ⊢
    exact tokens_of_notMem hne hword
  | cons x rest =>
    have hx : x = d := by
      have hhead := List.head_dropWhile_not (p := (· ≠ d)) (l := c :: t) (by rw [hrest]; exact List.cons_ne_nil _ _)
      simp only [hrest, List.head_cons] at hhead
      simpa using hhead
    rw [hrest, hx] at hsplit
    have htokens := tokens_append_cons d ((c :: t).takeWhile (· ≠ d)) rest
    rw [hsplit, tokens_of_notMem hne hword] at htokens
    exact htokens

/-- The tokens are what successive calls of `strtok` return. -/
theorem tokens_eq_tokensFrom (d : UInt8) (s : List UInt8) : tokens d s = tokensFrom d (strtok d s) := by
  rw [← tokens_dropWhile, strtok]
  cases hs : s.dropWhile (· = d) with
  | nil => rfl
  | cons c t =>
    have hc : c ≠ d := by
      have hhead := List.head_dropWhile_not (p := (· = d)) (l := s) (by rw [hs]; exact List.cons_ne_nil _ _)
      simp only [hs, List.head_cons] at hhead
      simpa using hhead
    exact tokens_takeWhile hc t

end Tokens

/-! ## Writing numbers -/

section Numerals

variable {digit : Nat → UInt8} {b n k : Nat}

/-- The digits of `n` in base `b`, with fuel. -/
def numeralLoop (digit : Nat → UInt8) (b : Nat) : (fuel n : Nat) → List UInt8
  | 0, _ => []
  | fuel + 1, n => if n < b then [digit n] else numeralLoop digit b fuel (n / b) ++ [digit (n % b)]

/-- The digits of `n` in base `b`, most significant first, without leading zeros. -/
def numeral (digit : Nat → UInt8) (b n : Nat) : List UInt8 := numeralLoop digit b (n + 1) n

theorem numeralLoop_fuel (hb : 2 ≤ b) {fuel : Nat} (h : n < fuel) :
    numeralLoop digit b fuel n = numeral digit b n := by
  induction n using Nat.strongRecOn generalizing fuel with
  | ind n ih =>
    obtain ⟨fuel, rfl⟩ : ∃ f, fuel = f + 1 := ⟨fuel - 1, by omega⟩
    rw [numeral, numeralLoop, numeralLoop]
    by_cases hn : n < b
    · rw [if_pos hn, if_pos hn]
    · have hlt : n / b < n := Nat.div_lt_self (by omega) hb
      rw [if_neg hn, if_neg hn, ih (n / b) hlt (by omega), ih (n / b) hlt hlt]

theorem numeral_eq (digit : Nat → UInt8) (hb : 2 ≤ b) (n : Nat) :
    numeral digit b n = if n < b then [digit n] else numeral digit b (n / b) ++ [digit (n % b)] := by
  rw [numeral, numeralLoop]
  by_cases hn : n < b
  · rw [if_pos hn, if_pos hn]
  · rw [if_neg hn, if_neg hn, numeralLoop_fuel hb (Nat.div_lt_self (by omega) hb)]

/-- Induction on the digits of a number. -/
theorem numeral_induction {P : Nat → Prop} (hb : 2 ≤ b) (hone : ∀ n < b, P n)
    (hmore : ∀ n, b ≤ n → P (n / b) → P n) (n : Nat) : P n := by
  induction n using Nat.strongRecOn with
  | ind n ih =>
    by_cases hn : n < b
    · exact hone n hn
    · exact hmore n (by omega) (ih _ (Nat.div_lt_self (by omega) hb))

theorem numeral_ne_nil (hb : 2 ≤ b) : numeral digit b n ≠ [] := by
  rw [numeral_eq digit hb]
  split <;> simp

theorem mem_numeral (hb : 2 ≤ b) {c : UInt8} (h : c ∈ numeral digit b n) : ∃ v < b, c = digit v := by
  induction n using numeral_induction hb with
  | hone n hn =>
    rw [numeral_eq digit hb, if_pos hn] at h
    exact ⟨n, hn, List.mem_singleton.mp h⟩
  | hmore n hn ih =>
    rw [numeral_eq digit hb, if_neg (by omega)] at h
    rcases List.mem_append.mp h with h | h
    · exact ih h
    · exact ⟨n % b, Nat.mod_lt _ (by omega), List.mem_singleton.mp h⟩

/-- A number below `b ^ k` has at most `k` digits. -/
theorem length_numeral_le (hb : 2 ≤ b) (hk : 1 ≤ k) (h : n < b ^ k) : (numeral digit b n).length ≤ k := by
  induction n using numeral_induction hb generalizing k with
  | hone n hn =>
    rw [numeral_eq digit hb, if_pos hn]
    exact hk
  | hmore n hn ih =>
    obtain ⟨k, rfl⟩ : ∃ j, k = j + 1 := ⟨k - 1, by omega⟩
    have hk : 1 ≤ k := by
      rcases Nat.eq_zero_or_pos k with rfl | hk
      · rw [Nat.zero_add, Nat.pow_one] at h
        omega
      · exact hk
    rw [numeral_eq digit hb, if_neg (by omega), List.length_append, List.length_singleton]
    exact Nat.succ_le_succ (ih hk (Nat.div_lt_of_lt_mul (by rwa [Nat.pow_succ, Nat.mul_comm] at h)))

/-- A number that is at least `b ^ k` has more than `k` digits. -/
theorem lt_length_numeral (hb : 2 ≤ b) (h : b ^ k ≤ n) : k < (numeral digit b n).length := by
  induction k generalizing n with
  | zero => exact List.length_pos_of_ne_nil (numeral_ne_nil hb)
  | succ k ih =>
    have hpow : b ≤ b ^ (k + 1) := Nat.le_self_pow (by omega) b
    have hdiv : b ^ k ≤ n / b := (Nat.le_div_iff_mul_le (by omega)).mpr (by rwa [Nat.pow_succ] at h)
    rw [numeral_eq digit hb, if_neg (by omega), List.length_append, List.length_singleton]
    exact Nat.succ_lt_succ (ih hdiv)

end Numerals

/-! ## Reading numbers -/

/-- `isspace`. -/
def isSpace (c : UInt8) : Bool := c = 32 || 9 ≤ c && c ≤ 13

/-- A digit is no NUL, no white space, no sign and no `x`. -/
theorem hexValue_facts {c : UInt8} {v : Nat} (h : hexValue c = some v) :
    c ≠ 0 ∧ isSpace c = false ∧ c ≠ 43 ∧ c ≠ 45 ∧ c ≠ 120 ∧ c ≠ 88 ∧ v < 16 := by
  have all : ∀ c : UInt8, ∀ v ∈ hexValue c,
      c ≠ 0 ∧ isSpace c = false ∧ c ≠ 43 ∧ c ≠ 45 ∧ c ≠ 120 ∧ c ≠ 88 ∧ v < 16 := forall_byte (by decide +kernel)
  exact all c v h

/-- The value of a digit in a base up to 16. -/
def digitValue (base : Nat) (c : UInt8) : Option Nat := (hexValue c).filter (· < base)

/-- The value of the digits at the front of a string, after digits of the value `acc`. -/
def strtolDigits (base : Nat) : (acc : Nat) → List UInt8 → Nat
  | acc, [] => acc
  | acc, c :: s => match digitValue base c with
    | none => acc
    | some v => strtolDigits base (base * acc + v) s

/-- The string without a `0x` that is followed by a digit. -/
def skip0x : List UInt8 → List UInt8
  | 48 :: x :: c :: s => if (x = 120 ∨ x = 88) ∧ (digitValue 16 c).isSome then c :: s else 48 :: x :: c :: s
  | s => s

/-- `strtol(s, NULL, base)`: white space, a sign, digits; values out of range become the nearest `long`. -/
def strtol (base : Nat) (s : List UInt8) : Int :=
  let clamp (i : Int) : Int := max (-2 ^ 63) (min i (2 ^ 63 - 1))
  let digits (s : List UInt8) : Nat := strtolDigits base 0 (if base = 16 then skip0x s else s)
  match s.dropWhile isSpace with
  | 45 :: s => clamp (-digits s)
  | 43 :: s => clamp (digits s)
  | s => clamp (digits s)

/-- `atoi`, which is `strtol` converted to an `int`. -/
def atoi (s : List UInt8) : Int := toInt32 (strtol 10 s)

/-! ## Decimal numbers -/

/-- The digit `d`. -/
def decimalDigit (d : Nat) : UInt8 := UInt8.ofNat (48 + d)

/-- What `%d` and `%lu` write for `n`. -/
def decimal (n : Nat) : List UInt8 := numeral decimalDigit 10 n

theorem decimal_eq (n : Nat) :
    decimal n = if n < 10 then [decimalDigit n] else decimal (n / 10) ++ [decimalDigit (n % 10)] :=
  numeral_eq decimalDigit (by decide) n

theorem decimal_ne_nil (n : Nat) : decimal n ≠ [] := numeral_ne_nil (by decide)

theorem length_decimal_le {k n : Nat} (hk : 1 ≤ k) (h : n < 10 ^ k) : (decimal n).length ≤ k :=
  length_numeral_le (by decide) hk h

theorem lt_length_decimal {k n : Nat} (h : 10 ^ k ≤ n) : k < (decimal n).length := lt_length_numeral (by decide) h

theorem mem_decimal {n : Nat} {c : UInt8} (h : c ∈ decimal n) : 48 ≤ c ∧ c ≤ 57 := by
  have all : ∀ d < 10, 48 ≤ decimalDigit d ∧ decimalDigit d ≤ 57 := by decide
  obtain ⟨d, hd, rfl⟩ := mem_numeral (by decide) h
  exact all d hd

/-- The number that a string of decimal digits denotes. -/
def digitsValue (s : List UInt8) : Nat := s.foldl (fun acc c => 10 * acc + (c.toNat - 48)) 0

/-- Decimal digits are read to their end. -/
theorem strtolDigits_digits {s : List UInt8} (h : ∀ c ∈ s, 48 ≤ c ∧ c ≤ 57) (acc : Nat) :
    strtolDigits 10 acc s = s.foldl (fun acc c => 10 * acc + (c.toNat - 48)) acc := by
  have hvalue : ∀ c : UInt8, 48 ≤ c ∧ c ≤ 57 → digitValue 10 c = some (c.toNat - 48) := forall_byte (by decide +kernel)
  induction s generalizing acc with
  | nil => rfl
  | cons c s ih =>
    rw [strtolDigits, hvalue c (h c List.mem_cons_self)]
    exact ih (fun c hc => h c (List.mem_cons_of_mem _ hc)) _

/-- A string of decimal digits is read as the number it denotes. -/
theorem atoi_digits {s : List UInt8} (h : ∀ c ∈ s, 48 ≤ c ∧ c ≤ 57) (hlt : digitsValue s < 2 ^ 31) :
    atoi s = digitsValue s := by
  have hdigits : strtolDigits 10 0 s = digitsValue s := strtolDigits_digits h 0
  have hstrtol : strtol 10 s = digitsValue s := by
    cases s with
    | nil => rfl
    | cons c s =>
      have hfirst : ∀ c : UInt8, 48 ≤ c ∧ c ≤ 57 → isSpace c = false ∧ c ≠ 43 ∧ c ≠ 45 :=
        forall_byte (by decide +kernel)
      obtain ⟨hspace, hplus, hminus⟩ := hfirst c (h c List.mem_cons_self)
      simp only [strtol, List.dropWhile_cons, hspace]
      simp [hplus, hminus, hdigits]
      omega
  rw [atoi, hstrtol, toInt32_natCast hlt]

theorem digitsValue_decimal (n : Nat) : digitsValue (decimal n) = n := by
  induction n using numeral_induction (show 2 ≤ 10 by decide) with
  | hone n hn =>
    have all : ∀ n < 10, digitsValue [decimalDigit n] = n := by decide
    rw [decimal_eq, if_pos hn, all n hn]
  | hmore n hn ih =>
    have all : ∀ d < 10, (decimalDigit d).toNat - 48 = d := by decide
    rw [decimal_eq, if_neg (by omega)]
    simp only [digitsValue, List.foldl_append, List.foldl_cons, List.foldl_nil] at ih ⊢
    rw [ih, all _ (Nat.mod_lt _ (by decide))]
    omega

/-- A numeral is read as its number. -/
theorem atoi_decimal {n : Nat} (h : n < 2 ^ 31) : atoi (decimal n) = n := by
  have hvalue := digitsValue_decimal n
  rw [atoi_digits (fun c hc => mem_decimal hc) (by rwa [hvalue]), hvalue]

end Libcp2p
