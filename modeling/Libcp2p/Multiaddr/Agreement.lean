import Libcp2p.Lib.Runs
import Libcp2p.Multiaddr.AnyText

/-!
# Text and bytes of an object

An object holds the same address twice. This module says which sequences of calls keep the two in agreement.

* `MultiAddress.Agrees`: the bytes are what `stringToBytes` makes of the text.
* `CallAgrees`: a call returns, what it leaves agrees, and where it fails without freeing the object nothing has
  changed.
* `CallKeeps`: the condition under which a call does (`callAgrees_iff`).
* `multi_address_agree_iff`: over every sequence of calls on an object made from text, the condition is exact.
-/

namespace Libcp2p

variable {ma ma' : MultiAddress}

/-- The bytes are what `string_to_bytes` makes of the text. -/
def MultiAddress.Agrees (ma : MultiAddress) : Prop := stringToBytes ma.string = .ok (some ma.bytes)

/-- The text starts with a slash. -/
theorem MultiAddress.Agrees.head (h : ma.Agrees) : ma.string.head? = some 47 := by
  by_contra hne
  rw [MultiAddress.Agrees, stringToBytes, if_pos hne] at h
  cases h

/-- A call on an object, with the outcome of its allocations. -/
inductive MultiAddressCall
  | encapsulate (string : List UInt8) (allocs : EncapsulateAllocs)
  | decapsulate (srci : List UInt8)
  | copy (allocs : CopyAllocs)
  deriving DecidableEq, Repr

/-- The object after a call, if there is one: the one that was changed, or the copy if it was made. -/
def multiAddressStep (ma : MultiAddress) : MultiAddressCall → Option MultiAddress
  | .encapsulate string allocs => (multiAddressEncapsulate ma string allocs).toOption.bind Prod.snd
  | .decapsulate srci => (multiAddressDecapsulate ma srci).toOption.bind Prod.snd
  | .copy allocs =>
    match multiAddressCopy ma allocs with
    | .ok none => some ma
    | .ok (some (string, some bytes)) => some ⟨string, bytes⟩
    | _ => none

/-- What a call that changes the object should leave: text and bytes that agree, and the object itself if it failed
without freeing it. -/
def LeavesAgreeing (ma : MultiAddress) (r : Except Fault (Int × Option MultiAddress)) : Prop :=
  ∃ ret out, r = .ok (ret, out) ∧ ∀ ma', out = some ma' → ma'.Agrees ∧ (ret = 0 → ma' = ma)

/-- What a call should do. -/
def CallAgrees (ma : MultiAddress) : MultiAddressCall → Prop
  | .encapsulate string allocs => LeavesAgreeing ma (multiAddressEncapsulate ma string allocs)
  | .decapsulate srci => LeavesAgreeing ma (multiAddressDecapsulate ma srci)
  | .copy allocs => ∃ out, multiAddressCopy ma allocs = .ok out ∧
      ∀ string bytes, out = some (string, bytes) → ∃ b, bytes = some b ∧ (⟨string, b⟩ : MultiAddress).Agrees

/-- A text that `string_to_bytes` returns from: it does not start with a slash, or everything in it that is looked at
fits in its buffer and no ip4 address has a number out of range. -/
def Converts (string : List UInt8) : Prop :=
  string.head? = some 47 → VisitedFit (tokens 47 string) ∧ ∀ v ∈ visited (tokens 47 string), ¬v.Endless

theorem converts_iff {string : List UInt8} : Converts string ↔ ∃ r, stringToBytes string = .ok r :=
  (stringToBytes_returns_iff string).symm

/-- The condition on a call. What is appended starts with a slash and the first allocation succeeds, or there are no
bytes to be lost by its failure; what is looked for is found; what is copied has bytes, or there is no room for a copy.
And the new text can be converted. -/
def CallKeeps (ma : MultiAddress) : MultiAddressCall → Prop
  | .encapsulate string allocs =>
    (allocs.exstr = false ∧ ma.bytes = []) ∨
      (allocs.exstr = true ∧ string.head? = some 47 ∧ (allocs.string = true → Converts (ma.string ++ string.drop 1)))
  | .decapsulate srci =>
    ∃ pos, strpos (ma.string.map fun c => if c = 47 then 32 else c) srci = some pos ∧
      Converts (((ma.string.map fun c => if c = 47 then 32 else c).take pos).map fun c => if c = 32 then 47 else c)
  | .copy allocs => ma.bytes ≠ [] ∨ allocs.out = false

/-- Recomputed bytes agree with the text. -/
theorem leavesAgreeing_updateBytes (ma : MultiAddress) (string : List UInt8) :
    LeavesAgreeing ma (updateBytes string) ↔ Converts string := by
  rw [converts_iff]
  constructor
  · rintro ⟨ret, out, h, -⟩
    obtain ⟨r, hr, -⟩ := bind_eq_ok.mp h
    exact ⟨r, hr⟩
  · rintro ⟨r, hr⟩
    cases r with
    | none => exact ⟨0, none, by rw [updateBytes, hr, ok_bind], fun ma' h => by cases h⟩
    | some bytes =>
      refine ⟨1, some ⟨string, bytes⟩, by rw [updateBytes, hr, ok_bind], ?_⟩
      rintro ma' ⟨⟩
      exact ⟨hr, fun h => by cases h⟩

/-- Appending a text that starts with a slash, with its allocations. -/
theorem multiAddressEncapsulate_slash {string : List UInt8} (hslash : string.head? = some 47) (alloc : Bool) :
    multiAddressEncapsulate ma string ⟨true, alloc⟩ =
      if alloc then updateBytes (ma.string ++ string.drop 1) else .ok (0, none) := by
  have hfits : (ma.string ++ string.drop 1).length < string.length + ma.string.length + 1 := by
    rw [List.length_append, List.length_drop]
    omega
  simp only [multiAddressEncapsulate, if_pos hslash]
  rw [strcpy_ok (Nat.lt_succ_self _), ok_bind, strcpy_ok (by omega), ok_bind, strcat, strcpy_ok hfits, ok_bind]
  cases alloc <;> rfl

/-- Appending a text that does not start with a slash writes past the end of the copy. -/
theorem multiAddressEncapsulate_noSlash {string : List UInt8} (hslash : string.head? ≠ some 47) (alloc : Bool) :
    multiAddressEncapsulate ma string ⟨true, alloc⟩ = .error .outOfBounds := by
  simp only [multiAddressEncapsulate, if_neg hslash, strcpy, Nat.lt_irrefl]
  rfl

theorem encapsulate_agrees_iff (h : ma.Agrees) (string : List UInt8) (allocs : EncapsulateAllocs) :
    CallAgrees ma (.encapsulate string allocs) ↔ CallKeeps ma (.encapsulate string allocs) := by
  obtain ⟨exstr, alloc⟩ := allocs
  cases exstr with
  | false =>
    -- the text is still there, the bytes are not
    have hagrees : (⟨ma.string, []⟩ : MultiAddress).Agrees ↔ ma.bytes = [] := by
      rw [MultiAddress.Agrees, h]
      simp
    constructor
    · rintro ⟨ret, out, heq, hout⟩
      cases heq
      exact .inl ⟨rfl, hagrees.mp (hout _ rfl).1⟩
    · rintro (⟨-, hnil⟩ | ⟨⟨⟩, -⟩)
      refine ⟨1, _, rfl, ?_⟩
      rintro ma' ⟨⟩
      exact ⟨hagrees.mpr hnil, fun h => by cases h⟩
  | true =>
    by_cases hslash : string.head? = some 47
    · rw [CallAgrees, multiAddressEncapsulate_slash hslash]
      cases alloc with
      | true => simp [CallKeeps, hslash, leavesAgreeing_updateBytes]
      | false =>
        refine iff_of_true ⟨0, none, rfl, fun ma' h => by cases h⟩ (.inr ⟨rfl, hslash, fun h => by cases h⟩)
    · refine iff_of_false ?_ ?_
      · rintro ⟨ret, out, heq, -⟩
        rw [multiAddressEncapsulate_noSlash hslash] at heq
        cases heq
      · rintro (⟨⟨⟩, -⟩ | ⟨-, hslash', -⟩)
        exact hslash hslash'

theorem decapsulate_agrees_iff (h : ma.Agrees) (srci : List UInt8) :
    CallAgrees ma (.decapsulate srci) ↔ CallKeeps ma (.decapsulate srci) := by
  simp only [CallAgrees, CallKeeps, multiAddressDecapsulate]
  cases hpos : strpos (ma.string.map fun c => if c = 47 then 32 else c) srci with
  | some pos => simp [leavesAgreeing_updateBytes]
  | none =>
    -- the slashes are gone
    refine iff_of_false ?_ (by simp)
    rintro ⟨ret, out, heq, hout⟩
    cases heq
    have hhead := (hout _ rfl).1.head
    simp [h.head] at hhead

theorem copy_agrees_iff (h : ma.Agrees) (allocs : CopyAllocs) :
    CallAgrees ma (.copy allocs) ↔ CallKeeps ma (.copy allocs) := by
  obtain ⟨out, bytes, string⟩ := allocs
  have hfails : (∃ out, (.ok none : Except Fault (Option (List UInt8 × Option (List UInt8)))) = .ok out ∧
      ∀ string bytes, out = some (string, bytes) → ∃ b, bytes = some b ∧ (⟨string, b⟩ : MultiAddress).Agrees) :=
    ⟨none, rfl, fun _ _ h => by cases h⟩
  cases out with
  | false => exact iff_of_true hfails (.inr rfl)
  | true =>
    by_cases hnil : ma.bytes = []
    · refine iff_of_false ?_ (by simp [CallKeeps, hnil])
      rintro ⟨out, heq, hout⟩
      simp only [multiAddressCopy, hnil] at heq
      cases string with
      | false => cases heq
      | true =>
        cases heq
        obtain ⟨b, hb, -⟩ := hout _ _ rfl
        cases hb
    · have hpos : 0 < ma.bytes.length := List.length_pos_of_ne_nil hnil
      refine iff_of_true ?_ (.inl hnil)
      simp only [CallAgrees, multiAddressCopy, if_pos hpos]
      cases bytes with
      | false => exact hfails
      | true =>
        cases string with
        | false => exact hfails
        | true =>
          refine ⟨_, rfl, ?_⟩
          rintro _ _ ⟨⟩
          exact ⟨ma.bytes, rfl, h⟩

/-- **One call.** -/
theorem callAgrees_iff (h : ma.Agrees) (call : MultiAddressCall) : CallAgrees ma call ↔ CallKeeps ma call := by
  cases call with
  | encapsulate string allocs => exact encapsulate_agrees_iff h string allocs
  | decapsulate srci => exact decapsulate_agrees_iff h srci
  | copy allocs => exact copy_agrees_iff h allocs

/-- What a call leaves that does what it should. -/
theorem agrees_multiAddressStep {call : MultiAddressCall} (h : ma.Agrees) (hcall : CallAgrees ma call)
    (hstep : multiAddressStep ma call = some ma') : ma'.Agrees := by
  have hleaves {r : Except Fault (Int × Option MultiAddress)} (hr : LeavesAgreeing ma r)
      (hbind : r.toOption.bind Prod.snd = some ma') : ma'.Agrees := by
    obtain ⟨ret, out, rfl, hout⟩ := hr
    exact (hout ma' hbind).1
  cases call with
  | encapsulate string allocs => exact hleaves hcall hstep
  | decapsulate srci => exact hleaves hcall hstep
  | copy allocs =>
    obtain ⟨out, heq, hout⟩ := hcall
    simp only [multiAddressStep, heq] at hstep
    cases out with
    | none =>
      cases hstep
      exact h
    | some copied =>
      obtain ⟨string, bytes⟩ := copied
      obtain ⟨b, rfl, hb⟩ := hout string bytes rfl
      cases hstep
      exact hb

/-- A new object holds the text it was made from, and bytes that agree with it. -/
theorem multiAddressNewFromString_created {straddress : List UInt8}
    (h : multiAddressNewFromString straddress = .ok (some ma)) : ma.string = straddress ∧ ma.Agrees := by
  obtain ⟨string, hstring, h⟩ := bind_eq_ok.mp h
  obtain ⟨r, hr, h⟩ := bind_eq_ok.mp h
  rw [strcpy] at hstring
  split at hstring
  · cases hstring
    cases r with
    | none => cases h
    | some bytes =>
      cases h
      exact ⟨rfl, hr⟩
  · cases hstring

/-- **Every sequence of calls on an object made from text.** -/
theorem multi_address_agree_iff (straddress : List UInt8) (ma : MultiAddress)
    (h : multiAddressNewFromString straddress = .ok (some ma)) (calls : List MultiAddressCall) :
    ma.Agrees ∧ EachStep multiAddressStep CallAgrees ma calls ↔ EachStep multiAddressStep CallKeeps ma calls := by
  have hagrees := (multiAddressNewFromString_created h).2
  rw [and_iff_right hagrees]
  apply eachStep_congr (I := MultiAddress.Agrees)
  · intro s call hs
    exact callAgrees_iff hs call
  · intro s call s' hs hcall hstep
    exact agrees_multiAddressStep hs ((callAgrees_iff hs call).mpr hcall) hstep
  · exact hagrees

/-- A port is appended to `/ip4/127.0.0.1/`, the object is copied, and the port is removed from the copy. -/
theorem multi_address_agree_iff_port :
    let address := ascii ['/', 'i', 'p', '4', '/', '1', '2', '7', '.', '0', '.', '0', '.', '1', '/']
    let port := ascii ['/', 't', 'c', 'p', '/', '8', '0']
    let ma : MultiAddress := ⟨address, [4, 127, 0, 0, 1]⟩
    let calls : List MultiAddressCall :=
      [.encapsulate port ⟨true, true⟩, .copy ⟨true, true, true⟩, .decapsulate (ascii ['t', 'c', 'p'])]
    ma.Agrees ∧ EachStep multiAddressStep CallAgrees ma calls := by
  intro address port ma calls
  have hstep : multiAddressStep ma (.encapsulate port ⟨true, true⟩) =
      some ⟨address ++ port.drop 1, [4, 127, 0, 0, 1, 6, 0, 80]⟩ := by decide +kernel
  have hcopy : multiAddressStep ⟨address ++ port.drop 1, [4, 127, 0, 0, 1, 6, 0, 80]⟩ (.copy ⟨true, true, true⟩) =
      some ⟨address ++ port.drop 1, [4, 127, 0, 0, 1, 6, 0, 80]⟩ := rfl
  apply (multi_address_agree_iff address ma (by decide +kernel) calls).mpr
  refine ⟨.inr ⟨rfl, rfl, fun _ => converts_iff.mpr ⟨some [4, 127, 0, 0, 1, 6, 0, 80], by decide +kernel⟩⟩,
    fun s hs => ?_⟩
  obtain rfl := Option.some.inj (hstep.symm.trans hs)
  refine ⟨.inl (by simp), fun s hs => ?_⟩
  obtain rfl := Option.some.inj (hcopy.symm.trans hs)
  exact ⟨⟨15, by decide +kernel, converts_iff.mpr ⟨some [4, 127, 0, 0, 1], by decide +kernel⟩⟩, fun _ _ => trivial⟩

/-- Looking for a protocol that is not there leaves spaces in the text, and appending a text without a slash writes past
the end of the copy. -/
theorem multi_address_not_agree :
    let address := ascii ['/', 'i', 'p', '4', '/', '1', '2', '7', '.', '0', '.', '0', '.', '1', '/']
    let spaced := ascii [' ', 'i', 'p', '4', ' ', '1', '2', '7', '.', '0', '.', '0', '.', '1', ' ']
    let ma : MultiAddress := ⟨address, [4, 127, 0, 0, 1]⟩
    multiAddressNewFromString address = .ok (some ma) ∧
      multiAddressDecapsulate ma (ascii ['u', 'd', 'p']) = .ok (0, some ⟨spaced, [4, 127, 0, 0, 1]⟩) ∧
      ¬ CallAgrees ma (.decapsulate (ascii ['u', 'd', 'p'])) ∧
      multiAddressEncapsulate ma (ascii ['t', 'c', 'p', '/', '8', '0']) ⟨true, true⟩ = .error .outOfBounds := by
  intro address spaced ma
  have hspaced : multiAddressDecapsulate ma (ascii ['u', 'd', 'p']) = .ok (0, some ⟨spaced, [4, 127, 0, 0, 1]⟩) := by
    decide +kernel
  refine ⟨by decide +kernel, hspaced, ?_, by decide +kernel⟩
  rintro ⟨ret, out, heq, hout⟩
  cases hspaced.symm.trans heq
  cases (hout _ rfl).1.head

end Libcp2p
