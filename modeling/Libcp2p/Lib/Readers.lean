import Mathlib.Data.List.Basic

/-!
# Readers and the languages they read

A reader takes a value off the front of its input and leaves the rest. A language says which words stand for which
values. `Reads p G` says that the reader `p` reads exactly the language `G`: it succeeds on the inputs that start with a
word of `G`, gives the value of that word and leaves what follows it.

Readers are put together by `Reader.map`, `Reader.guard`, `Reader.bind`, `Reader.choose`, `Reader.times`,
`Reader.manyUntil` and `Reader.wrapped`; for each of them a lemma gives the language of the whole from the languages of
the parts. A language that some reader reads is unambiguous, and no word of it is a strict prefix of another
(`Reads.unique`).
-/

namespace Libcp2p

/-- A reader takes a value off the front of its input and leaves the rest. -/
abbrev Reader (α β : Type) := List α → Option (β × List α)

/-- The reader succeeds exactly on the inputs that start with a word of the language. -/
def Reads {α β : Type} (p : Reader α β) (G : β → List α → Prop) : Prop :=
  ∀ input x rest, p input = some (x, rest) ↔ ∃ w, G x w ∧ input = w ++ rest

/-- The words of a sequence of values: the words of the values one after the other. -/
inductive Words {α β : Type} (G : β → List α → Prop) : List β → List α → Prop
  | nil : Words G [] []
  | cons {x : β} {xs : List β} {u v : List α} (hx : G x u) (hxs : Words G xs v) : Words G (x :: xs) (u ++ v)

/-- Words with any number of heads in front, each of which changes the value. -/
inductive Wrapped {α β τ : Type} (H : τ → List α → Prop) (wrap : τ → β → β) (G : β → List α → Prop) :
    β → List α → Prop
  | base {x : β} {w : List α} (hx : G x w) : Wrapped H wrap G x w
  | wrap {t : τ} {x : β} {u v : List α} (ht : H t u) (hx : Wrapped H wrap G x v) : Wrapped H wrap G (wrap t x) (u ++ v)

/-- Every word of the language starts with a letter that satisfies `P`. -/
def StartsWith {α β : Type} (G : β → List α → Prop) (P : α → Prop) : Prop := ∀ x w, G x w → ∃ a v, w = a :: v ∧ P a

/-- The reader takes something off its input whenever it succeeds. -/
def Shrinks {α β : Type} (p : Reader α β) : Prop :=
  ∀ input x rest, p input = some (x, rest) → rest.length < input.length

section Basics

variable {α β : Type} {p : Reader α β} {G H : β → List α → Prop}

theorem Reads.complete (h : Reads p G) {x : β} {w : List α} (hw : G x w) (rest : List α) :
    p (w ++ rest) = some (x, rest) :=
  (h _ _ _).mpr ⟨w, hw, rfl⟩

theorem Reads.sound (h : Reads p G) {input rest : List α} {x : β} (hp : p input = some (x, rest)) :
    ∃ w, G x w ∧ input = w ++ rest :=
  (h _ _ _).mp hp

theorem Reads.congr (h : Reads p G) (hG : ∀ x w, G x w ↔ H x w) : Reads p H := by
  intro input x rest
  rw [h]
  exact exists_congr fun w => and_congr_left' (hG x w)

/-- **A language that is read is unambiguous and prefix free.** -/
theorem Reads.unique (h : Reads p G) {x y : β} {u v s t : List α} (hx : G x u) (hy : G y v) (he : u ++ s = v ++ t) :
    x = y ∧ u = v ∧ s = t := by
  have hu := h.complete hx s
  rw [he, h.complete hy t] at hu
  obtain ⟨rfl, rfl⟩ := Prod.mk.inj (Option.some.inj hu)
  exact ⟨rfl, List.append_cancel_right he, rfl⟩

theorem Reads.shrinks (h : Reads p G) {P : α → Prop} (hG : StartsWith G P) : Shrinks p := by
  intro input x rest hp
  obtain ⟨w, hw, rfl⟩ := h.sound hp
  obtain ⟨a, v, rfl, -⟩ := hG x w hw
  simp only [List.cons_append, List.length_cons, List.length_append]
  omega

theorem StartsWith.mono {P Q : α → Prop} (h : StartsWith G P) (hPQ : ∀ a, P a → Q a) : StartsWith G Q := by
  intro x w hw
  obtain ⟨a, v, he, ha⟩ := h x w hw
  exact ⟨a, v, he, hPQ a ha⟩

end Basics

/-! ## One value after the other -/

section Sequence

variable {α β γ : Type} {p : Reader α β} {G : β → List α → Prop}

/-- Read a value and change it. -/
def Reader.map (f : β → γ) (p : Reader α β) : Reader α γ := fun input => (p input).map fun r => (f r.1, r.2)

theorem Reads.map (h : Reads p G) (f : β → γ) : Reads (p.map f) fun y w => ∃ x, G x w ∧ f x = y := by
  intro input y rest
  simp only [Reader.map, Option.map_eq_some_iff, Prod.mk.injEq, Prod.exists]
  constructor
  · rintro ⟨x, rest', hp, rfl, rfl⟩
    obtain ⟨w, hw, rfl⟩ := h.sound hp
    exact ⟨w, ⟨x, hw, rfl⟩, rfl⟩
  · rintro ⟨w, ⟨x, hw, rfl⟩, rfl⟩
    exact ⟨x, rest, h.complete hw rest, rfl, rfl⟩

/-- Read a value and check it. -/
def Reader.guard (c : β → Bool) (p : Reader α β) : Reader α β := fun input => (p input).filter fun r => c r.1

theorem Reads.guard (h : Reads p G) (c : β → Bool) : Reads (p.guard c) fun x w => G x w ∧ c x = true := by
  intro input x rest
  simp only [Reader.guard, Option.filter_eq_some_iff]
  rw [h]
  constructor
  · rintro ⟨⟨w, hw, rfl⟩, hc⟩
    exact ⟨w, ⟨hw, hc⟩, rfl⟩
  · rintro ⟨w, ⟨hw, hc⟩, rfl⟩
    exact ⟨⟨w, hw, rfl⟩, hc⟩

/-- Read a value, and then one that may depend on it. -/
def Reader.bind (p : Reader α β) (q : β → Reader α γ) : Reader α γ := fun input => (p input).bind fun r => q r.1 r.2

theorem Reads.bind (h : Reads p G) {q : β → Reader α γ} {K : β → γ → List α → Prop} (hq : ∀ x, Reads (q x) (K x)) :
    Reads (p.bind q) fun y w => ∃ x u v, G x u ∧ K x y v ∧ w = u ++ v := by
  intro input y rest
  simp only [Reader.bind, Option.bind_eq_some_iff, Prod.exists]
  constructor
  · rintro ⟨x, rest', hp, hr⟩
    obtain ⟨u, hu, rfl⟩ := h.sound hp
    obtain ⟨v, hv, rfl⟩ := (hq x).sound hr
    exact ⟨u ++ v, ⟨x, u, v, hu, hv, rfl⟩, (List.append_assoc _ _ _).symm⟩
  · rintro ⟨w, ⟨x, u, v, hu, hv, rfl⟩, rfl⟩
    exact ⟨x, v ++ rest, by rw [List.append_assoc, h.complete hu], (hq x).complete hv rest⟩

/-- Read one letter that satisfies `c`. -/
def Reader.letter (c : α → Bool) : Reader α α
  | [] => none
  | a :: input => if c a then some (a, input) else none

theorem reads_letter (c : α → Bool) : Reads (Reader.letter c) fun a w => c a = true ∧ w = [a] := by
  intro input a rest
  cases input with
  | nil => simp [Reader.letter]
  | cons b input =>
    simp only [Reader.letter, Option.ite_none_right_eq_some, Option.some.injEq, Prod.mk.injEq]
    constructor
    · rintro ⟨hc, rfl, rfl⟩
      exact ⟨[b], ⟨hc, rfl⟩, rfl⟩
    · rintro ⟨w, ⟨hc, rfl⟩, he⟩
      obtain ⟨rfl, rfl⟩ := List.cons.inj he
      exact ⟨hc, rfl, rfl⟩

/-- Read `n` letters. -/
def Reader.take (n : Nat) : Reader α (List α) := fun input =>
  if n ≤ input.length then some (input.take n, input.drop n) else none

theorem reads_take (n : Nat) : Reads (Reader.take n) fun (x w : List α) => w = x ∧ x.length = n := by
  intro input x rest
  simp only [Reader.take, Option.ite_none_right_eq_some, Option.some.injEq, Prod.mk.injEq]
  constructor
  · rintro ⟨hn, rfl, rfl⟩
    exact ⟨_, ⟨rfl, List.length_take_of_le hn⟩, (List.take_append_drop n input).symm⟩
  · rintro ⟨w, ⟨rfl, rfl⟩, rfl⟩
    exact ⟨by simp, by simp, by simp⟩

/-- Choose how to read on by the first letter. -/
def Reader.choose {κ : Type} (key : α → κ) (p : κ → Reader α β) : Reader α β
  | [] => none
  | a :: input => p (key a) (a :: input)

theorem Reads.choose {κ : Type} {key : α → κ} {p : κ → Reader α β} {G : κ → β → List α → Prop}
    (h : ∀ k, Reads (p k) (G k)) (hkey : ∀ k, StartsWith (G k) fun a => key a = k) :
    Reads (Reader.choose key p) fun x w => ∃ k, G k x w := by
  intro input x rest
  constructor
  · intro hp
    cases input with
    | nil => cases hp
    | cons a input =>
      obtain ⟨w, hw, he⟩ := (h (key a)).sound hp
      exact ⟨w, ⟨key a, hw⟩, he⟩
  · rintro ⟨w, ⟨k, hw⟩, rfl⟩
    obtain ⟨a, v, rfl, rfl⟩ := hkey k x w hw
    exact (h (key a)).complete hw rest

end Sequence

/-! ## Loops -/

section Loops

variable {α β τ : Type} {p : Reader α β} {G : β → List α → Prop}

/-- Read a value `n` times. -/
def Reader.times (p : Reader α β) : Nat → Reader α (List β)
  | 0, input => some ([], input)
  | n + 1, input => (p input).bind fun r => (Reader.times p n r.2).map fun s => (r.1 :: s.1, s.2)

theorem Reads.times (h : Reads p G) (n : Nat) : Reads (p.times n) fun xs w => Words G xs w ∧ xs.length = n := by
  intro input xs rest
  induction n generalizing input xs with
  | zero =>
    simp only [Reader.times, Option.some.injEq, Prod.mk.injEq]
    constructor
    · rintro ⟨rfl, rfl⟩
      exact ⟨[], ⟨.nil, rfl⟩, rfl⟩
    · rintro ⟨w, ⟨hw, hl⟩, rfl⟩
      obtain rfl := List.length_eq_zero_iff.mp hl
      cases hw
      exact ⟨rfl, rfl⟩
  | succ n ih =>
    simp only [Reader.times, Option.bind_eq_some_iff, Option.map_eq_some_iff, Prod.exists, Prod.mk.injEq]
    constructor
    · rintro ⟨x, rest', hp, ys, r, hs, rfl, rfl⟩
      obtain ⟨u, hu, rfl⟩ := h.sound hp
      obtain ⟨v, ⟨hv, hl⟩, rfl⟩ := (ih _ _).mp hs
      exact ⟨u ++ v, ⟨.cons hu hv, by simp [hl]⟩, (List.append_assoc _ _ _).symm⟩
    · rintro ⟨w, ⟨hw, hl⟩, rfl⟩
      cases hw with
      | nil => cases hl
      | cons hx hxs =>
        refine ⟨_, _, by rw [List.append_assoc, h.complete hx], _, rest, ?_, rfl, rfl⟩
        exact (ih _ _).mpr ⟨_, ⟨hxs, Nat.succ.inj hl⟩, rfl⟩

/-- Read heads as long as there are any, and then a value; the fuel bounds the number of heads. -/
def Reader.wrappedFuel (head : Reader α τ) (wrap : τ → β → β) (p : Reader α β) : Nat → Reader α β
  | 0, _ => none
  | fuel + 1, input =>
    match head input with
    | some (t, rest) => (Reader.wrappedFuel head wrap p fuel rest).map fun r => (wrap t r.1, r.2)
    | none => p input

/-- Read heads as long as there are any, and then a value. -/
def Reader.wrapped (head : Reader α τ) (wrap : τ → β → β) (p : Reader α β) : Reader α β := fun input =>
  Reader.wrappedFuel head wrap p (input.length + 1) input

section Wrapped

variable {head : Reader α τ} {wrap : τ → β → β} {H : τ → List α → Prop}

theorem Reader.wrappedFuel_eq (hs : Shrinks head) {fuel fuel' : Nat} {input : List α} (hf : input.length < fuel)
    (hf' : input.length < fuel') :
    Reader.wrappedFuel head wrap p fuel input = Reader.wrappedFuel head wrap p fuel' input := by
  induction fuel generalizing fuel' input with
  | zero => omega
  | succ fuel ih =>
    obtain ⟨fuel', rfl⟩ : ∃ f, fuel' = f + 1 := ⟨fuel' - 1, by omega⟩
    simp only [Reader.wrappedFuel]
    cases hh : head input with
    | none => rfl
    | some r =>
      have hlt := hs _ _ _ hh
      exact congrArg (Option.map _) (ih (by omega) (by omega))

theorem Reader.wrapped_of_some (hs : Shrinks head) {input rest : List α} {t : τ} (hh : head input = some (t, rest)) :
    Reader.wrapped head wrap p input = (Reader.wrapped head wrap p rest).map fun r => (wrap t r.1, r.2) := by
  have hlt := hs _ _ _ hh
  rw [Reader.wrapped, Reader.wrapped, Reader.wrappedFuel, hh]
  simp only
  rw [Reader.wrappedFuel_eq hs hlt (Nat.lt_succ_self _)]

theorem Reader.wrapped_of_none {input : List α} (hh : head input = none) :
    Reader.wrapped head wrap p input = p input := by
  rw [Reader.wrapped, Reader.wrappedFuel, hh]

/-- `hdis` keeps the heads and the values apart. -/
theorem Reads.wrapped (h : Reads p G) (hh : Reads head H) (hH : StartsWith H fun _ => True)
    (hdis : ∀ x w, G x w → ∀ rest, head (w ++ rest) = none) :
    Reads (Reader.wrapped head wrap p) (Wrapped H wrap G) := by
  have hs := hh.shrinks hH
  intro input x rest
  constructor
  · induction hn : input.length using Nat.strongRecOn generalizing input x with
    | _ n ih =>
      intro hp
      cases ht : head input with
      | none =>
        rw [Reader.wrapped_of_none ht] at hp
        obtain ⟨w, hw, he⟩ := h.sound hp
        exact ⟨w, .base hw, he⟩
      | some r =>
        obtain ⟨t, tail⟩ := r
        rw [Reader.wrapped_of_some hs ht, Option.map_eq_some_iff] at hp
        obtain ⟨⟨y, r⟩, hp, he⟩ := hp
        obtain ⟨rfl, rfl⟩ := Prod.mk.inj he
        obtain ⟨u, hu, rfl⟩ := hh.sound ht
        obtain ⟨v, hv, rfl⟩ := ih _ (hn ▸ hs _ _ _ ht) tail y rfl hp
        exact ⟨u ++ v, .wrap hu hv, (List.append_assoc _ _ _).symm⟩
  · rintro ⟨w, hw, rfl⟩
    induction hw with
    | base hx => rw [Reader.wrapped_of_none (hdis _ _ hx rest), h.complete hx]
    | wrap ht hx ih =>
      rw [List.append_assoc, Reader.wrapped_of_some hs (hh.complete ht _), ih]
      rfl

end Wrapped

variable [DecidableEq α]

/-- Read values up to the letter `stop`; the fuel bounds their number. -/
def Reader.manyUntilFuel (stop : α) (p : Reader α β) : Nat → Reader α (List β)
  | 0, _ => none
  | _ + 1, [] => none
  | fuel + 1, a :: input =>
    if a = stop then some ([], input)
    else (p (a :: input)).bind fun r => (Reader.manyUntilFuel stop p fuel r.2).map fun s => (r.1 :: s.1, s.2)

/-- Read values up to the letter `stop`. -/
def Reader.manyUntil (stop : α) (p : Reader α β) : Reader α (List β) := fun input =>
  Reader.manyUntilFuel stop p (input.length + 1) input

theorem Reads.manyUntilFuel {stop : α} (h : Reads p G) (hG : StartsWith G (· ≠ stop)) {fuel : Nat} {input rest : List α}
    {xs : List β} (hf : input.length < fuel) :
    Reader.manyUntilFuel stop p fuel input = some (xs, rest) ↔ ∃ w, Words G xs w ∧ input = w ++ stop :: rest := by
  induction fuel generalizing input xs with
  | zero => omega
  | succ fuel ih =>
    cases input with
    | nil => simp [Reader.manyUntilFuel]
    | cons a input =>
      simp only [Reader.manyUntilFuel]
      split_ifs with ha
      · subst ha
        simp only [Option.some.injEq, Prod.mk.injEq]
        constructor
        · rintro ⟨rfl, rfl⟩
          exact ⟨[], .nil, rfl⟩
        · rintro ⟨w, hw, he⟩
          cases hw with
          | nil => exact ⟨rfl, (List.cons.inj he).2⟩
          | cons hx hxs =>
            obtain ⟨b, u, rfl, hb⟩ := hG _ _ hx
            exact absurd (List.cons.inj he).1.symm hb
      · simp only [Option.bind_eq_some_iff, Option.map_eq_some_iff, Prod.exists, Prod.mk.injEq]
        constructor
        · rintro ⟨x, rest', hp, ys, r, hs, rfl, rfl⟩
          have hlt := h.shrinks hG _ _ _ hp
          obtain ⟨u, hu, he⟩ := h.sound hp
          obtain ⟨v, hv, rfl⟩ := (ih (by omega)).mp hs
          exact ⟨u ++ v, .cons hu hv, by rw [he, List.append_assoc]⟩
        · rintro ⟨w, hw, he⟩
          cases hw with
          | nil => exact absurd (List.cons.inj he).1 ha
          | @cons x xs u v hx hxs =>
            rw [List.append_assoc] at he
            have hp := h.complete hx (v ++ stop :: rest)
            rw [← he] at hp
            have hlt := h.shrinks hG _ _ _ hp
            exact ⟨x, _, hp, xs, rest, (ih (by omega)).mpr ⟨v, hxs, rfl⟩, rfl, rfl⟩

theorem Reads.manyUntil {stop : α} (h : Reads p G) (hG : StartsWith G (· ≠ stop)) :
    Reads (Reader.manyUntil stop p) fun xs w => ∃ v, Words G xs v ∧ w = v ++ [stop] := by
  intro input xs rest
  rw [Reader.manyUntil, h.manyUntilFuel hG (Nat.lt_succ_self _)]
  constructor
  · rintro ⟨v, hv, rfl⟩
    exact ⟨_, ⟨v, hv, rfl⟩, by simp⟩
  · rintro ⟨w, ⟨v, hv, rfl⟩, rfl⟩
    exact ⟨v, hv, by simp⟩

/-- How much fuel there is does not matter, as long as it is more than the input. -/
theorem Reader.manyUntilFuel_eq {stop : α} (hs : Shrinks p) {fuel fuel' : Nat} {input : List α}
    (hf : input.length < fuel) (hf' : input.length < fuel') :
    Reader.manyUntilFuel stop p fuel input = Reader.manyUntilFuel stop p fuel' input := by
  induction fuel generalizing fuel' input with
  | zero => omega
  | succ fuel ih =>
    obtain ⟨fuel', rfl⟩ : ∃ f, fuel' = f + 1 := ⟨fuel' - 1, by omega⟩
    cases input with
    | nil => rfl
    | cons a input =>
      simp only [Reader.manyUntilFuel]
      split_ifs
      · rfl
      · cases hp : p (a :: input) with
        | none => rfl
        | some r =>
          have hlt := hs _ _ _ hp
          exact congrArg (Option.map _) (ih (by omega) (by omega))

theorem Reader.manyUntil_stop {stop : α} (input : List α) :
    Reader.manyUntil stop p (stop :: input) = some ([], input) :=
  if_pos rfl

theorem Reader.manyUntil_of_ne {stop : α} (hs : Shrinks p) {input : List α} (hne : input.head? ≠ some stop) :
    Reader.manyUntil stop p input =
      if input = [] then none
      else (p input).bind fun r => (Reader.manyUntil stop p r.2).map fun s => (r.1 :: s.1, s.2) := by
  cases input with
  | nil => rfl
  | cons a input =>
    have ha : a ≠ stop := fun h => hne (congrArg some h)
    rw [if_neg (List.cons_ne_nil _ _), Reader.manyUntil, Reader.manyUntilFuel, if_neg ha]
    cases hp : p (a :: input) with
    | none => rfl
    | some r =>
      have hlt := hs _ _ _ hp
      simp only [Option.bind_some, Reader.manyUntil]
      rw [Reader.manyUntilFuel_eq hs hlt (Nat.lt_succ_self _)]

end Loops

end Libcp2p
