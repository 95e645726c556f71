import Libcp2p.Cbor.Walk

/-!
# What the parser accepts

From the start of a buffer, skipping the tags and advancing once takes the parser over one whole item, however deeply
nested. It succeeds on exactly the buffers that start with a well-formed item, and stops right after it
(`parseOne_iff`). On no buffer does it run into a failed assertion, an access outside the input or an endless loop.

`cbor_value_validate_basic` leaves the tags to the caller: after a tag it only looks at the head of what is tagged
(`validateBasic_iff`).
-/

namespace Libcp2p.Cbor

/-! ## Tags -/

/-- The item without its tags. -/
def Item.untag : Item → Item
  | .tag _ item => item.untag
  | item => item

/-- What skipping the tags of the item at the front of `input` gives. -/
inductive TagsSkipped (d : Nat) (isMap : Bool) (count : Option Nat) (k : Nat) (input : List UInt8) :
    Except Stop CborValue → Prop
  | atItem (it : CborValue) (hpre : Preparsed it) (ha : InContainer isMap count k it)
      (hle : it.ptr.length ≤ input.length) (hno : readHead 6 it.ptr = none)
      (hread : ((readItem UINT32_MAX d input).map fun r => (r.1.untag, r.2)) = readUntagged UINT32_MAX d it.ptr) :
      TagsSkipped d isMap count k input (.ok it)
  | stopped (h : readItem UINT32_MAX d input = none) (e : CborError) :
      TagsSkipped d isMap count k input (.error (.err e))

section Tags

variable {d : Nat} {isMap : Bool} {count : Option Nat} {k : Nat} {it : CborValue}

theorem untag_of_untagged {item : Item} {w : List UInt8} (h : Untagged UINT32_MAX d item w) : item.untag = item := by
  cases d with
  | zero =>
    obtain ⟨m, h⟩ := h
    cases h <;> rfl
  | succ d =>
    obtain ⟨m, h | h⟩ := h <;> cases h <;> rfl

theorem InContainer.remaining_ne_zero (ha : InContainer isMap count k it) : it.remaining ≠ 0 :=
  of_decide_eq_false ha.not_atEnd

/-- `cbor_value_advance_fixed` at a tag. -/
theorem reachedTagged_of_advanceFixed {t : Nat} {rest : List UInt8} (hpre : Preparsed it)
    (ha : InContainer isMap count k it) (hhead : readHead 6 it.ptr = some (t, rest)) (ht : it.type = .tag) :
    ReachedTagged isMap count k rest (cborValueAdvanceFixed it) := by
  have hfix : isFixedType it.type = true := by rw [ht]; rfl
  have heq : cborValueAdvanceFixed it = advanceRecursive 0 it := by
    simp [cborValueAdvanceFixed, cborAssert, ht, isFixedType, ha.remaining_ne_zero, advanceRecursive]
  rw [heq]
  exact reachedTagged_of_advance 0 hpre ha hhead

theorem Preparsed.isTag_iff (hpre : Preparsed it) : cborValueIsTag it = (readHead 6 it.ptr).isSome := by
  obtain ⟨b, bs, hp⟩ := hpre.ne_nil
  rw [cborValueIsTag, Bool.eq_iff_iff, decide_eq_true_iff, hpre.type_eq_tag hp]
  cases hh : readHead 6 it.ptr with
  | none => simpa using hpre.major_ne_six hp hh
  | some r =>
    rw [hp, readHead, List.head?_cons, Option.map_some] at hh
    split_ifs at hh with hm
    simpa using Option.some.inj hm

/-- The loop of `cbor_value_skip_tag`. -/
theorem tagsSkipped_loop (hpre : Preparsed it) (ha : InContainer isMap count k it) {fuel : Nat}
    (hf : it.ptr.length < fuel) :
    TagsSkipped d isMap count k it.ptr (skipTagLoop fuel it) := by
  induction fuel generalizing it with
  | zero => omega
  | succ fuel ih =>
    rw [skipTagLoop, hpre.isTag_iff]
    cases hh : readHead 6 it.ptr with
    | none =>
      refine .atItem it hpre ha (Nat.le_refl _) hh ?_
      rw [readItem_untagged hh]
      cases hr : readUntagged UINT32_MAX d it.ptr with
      | none => rfl
      | some r =>
        obtain ⟨w, hw, -⟩ := (reads_readUntagged UINT32_MAX d).sound hr
        rw [Option.map_some, untag_of_untagged hw]
    | some r =>
      obtain ⟨t, rest⟩ := r
      have ht : it.type = .tag := by simpa [cborValueIsTag, hh] using hpre.isTag_iff
      have hlt := shrinks_readHead 6 _ _ _ hh
      have hread := readItem_tag UINT32_MAX d hh
      have hstep := reachedTagged_of_advanceFixed hpre ha hh ht
      simp only [Option.isSome_some, if_true]
      generalize cborValueAdvanceFixed it = r at hstep ⊢
      cases hstep with
      | stopped hs e => exact .stopped (by rw [hread, readItem_of_not_starts hs]; rfl) e
      | item hs it' hp' hr' ha' =>
        have hrec := ih hp' ha' (by rw [hr']; omega)
        rw [hr'] at hrec
        rw [ok_bind]
        generalize skipTagLoop fuel it' = q at hrec ⊢
        cases hrec with
        | atItem it hpre ha hle hno hread' =>
          refine .atItem it hpre ha (by omega) hno ?_
          rw [hread, ← hread', Option.map_map]
          rfl
        | stopped h e => exact .stopped (by rw [hread, h]; rfl) e

/-- **`cbor_value_skip_tag`** moves over all tags of an item. -/
theorem tagsSkipped (d : Nat) (hpre : Preparsed it) (ha : InContainer isMap count k it) :
    TagsSkipped d isMap count k it.ptr (cborValueSkipTag it) :=
  tagsSkipped_loop hpre ha (Nat.lt_succ_self _)

/-- `cbor_value_advance` at an item of a container. -/
theorem cborValueAdvance_of_inContainer (hpre : Preparsed it) (ha : InContainer isMap count k it) :
    cborValueAdvance it = advanceRecursive maxRecursions it := by
  simp [cborValueAdvance, cborAssert, hpre.type_ne_invalid, ha.remaining_ne_zero]

/-- **Skipping the tags and advancing** moves over the whole item that is read there. -/
theorem skipped_item (hpre : Preparsed it) (ha : InContainer isMap count k it) (hlen : it.ptr.length ≤ SIZE_MAX) :
    Skipped isMap count k (readItem UINT32_MAX maxRecursions it.ptr) (cborValueSkipTag it >>= cborValueAdvance) := by
  have htags := tagsSkipped maxRecursions hpre ha
  generalize cborValueSkipTag it = s at htags ⊢
  cases htags with
  | stopped h e => exact h ▸ .stopped e
  | atItem it' hpre' ha' hle hno hread =>
    have hskip := (advances maxRecursions).item hpre' ha' (by omega) hno
    rw [ok_bind, cborValueAdvance_of_inContainer hpre' ha']
    rw [← hread] at hskip
    generalize advanceRecursive maxRecursions it' = q at hskip ⊢
    cases hitem : readItem UINT32_MAX maxRecursions it.ptr with
    | none =>
      rw [hitem] at hskip
      cases hskip with
      | stopped e => exact .stopped e
    | some r =>
      rw [hitem] at hskip
      cases hskip with
      | moved h => exact .moved h

end Tags

/-! ## One item from the start of a buffer -/

/-- The item at the start of a buffer: `cbor_parser_init`, `cbor_value_skip_tag` and `cbor_value_advance`. -/
def parseOne (buffer : List UInt8) : Except Stop CborValue := do
  let it ← cborParserInit buffer
  let it ← cborValueSkipTag it
  cborValueAdvance it

theorem reached_of_init (buffer : List UInt8) : Reached false (some 1) 0 buffer (cborParserInit buffer) := by
  refine reached_of_preparseValue rfl ?_ ⟨rfl, by simp [CountFits, UINT32_MAX], by simp, rfl, rfl⟩
  rintro (h | ⟨h, -⟩) <;> cases h

/-- The last item of the outermost sequence ends it, whatever follows. -/
theorem Reached.ended_of_one {rest : List UInt8} {r : Except Stop CborValue} (h : Reached false (some 1) 1 rest r) :
    ∃ it, r = .ok it ∧ it.type = .invalid ∧ it.ptr = rest := by
  cases h with
  | ended hc hh it ht hr hp => exact ⟨it, rfl, ht, hp⟩
  | item hc => exact absurd (.inl rfl) hc
  | stopped hin => exact absurd (hin 1 rfl) (Nat.lt_irrefl 1)

/-- The parser does as the reader does. -/
theorem parseOne_eq {buffer : List UInt8} (hlen : buffer.length ≤ SIZE_MAX) :
    (∃ item rest it, readItem UINT32_MAX maxRecursions buffer = some (item, rest) ∧ parseOne buffer = .ok it ∧
      it.type = .invalid ∧ it.ptr = rest) ∨
    (readItem UINT32_MAX maxRecursions buffer = none ∧ ∃ e, parseOne buffer = .error (.err e)) := by
  have hinit := reached_of_init buffer
  unfold parseOne
  generalize cborParserInit buffer = r at hinit ⊢
  cases hinit with
  | ended hc => exact absurd hc (by rintro (h | ⟨h, -⟩) <;> cases h)
  | stopped hin hs hh e => exact .inr ⟨readItem_of_not_starts hs, e, rfl⟩
  | item hc it hpre hr ha =>
    subst hr
    have hskip := skipped_item hpre ha hlen
    rw [ok_bind]
    generalize (cborValueSkipTag it >>= cborValueAdvance) = s at hskip ⊢
    cases hitem : readItem UINT32_MAX maxRecursions it.ptr with
    | none =>
      rw [hitem] at hskip
      cases hskip with
      | stopped e => exact .inr ⟨rfl, e, rfl⟩
    | some r =>
      obtain ⟨item, rest⟩ := r
      rw [hitem] at hskip
      cases hskip with
      | moved h =>
        obtain ⟨it', rfl, ht, hp⟩ := h.ended_of_one
        exact .inl ⟨item, rest, it', rfl, rfl, ht, hp⟩

/-- **The parser accepts exactly the well-formed items**: it gets over the item at the start of a buffer if and only if
the buffer starts with a well-formed encoding with at most `maxRecursions` containers inside each other, and it ends
right after the encoding. Otherwise it reports an error. -/
theorem parseOne_iff {buffer : List UInt8} (hlen : buffer.length ≤ SIZE_MAX) :
    (∀ rest, (∃ it, parseOne buffer = .ok it ∧ it.ptr = rest) ↔
      ∃ item w, Encodes UINT32_MAX maxRecursions item w ∧ buffer = w ++ rest) ∧
    ((∃ it, parseOne buffer = .ok it) ∨ ∃ e, parseOne buffer = .error (.err e)) := by
  have hreads := reads_readItem UINT32_MAX maxRecursions
  rcases parseOne_eq hlen with ⟨item, rest', it, hread, hp, -, hptr⟩ | ⟨hread, e, hp⟩
  · refine ⟨fun rest => ⟨?_, ?_⟩, .inl ⟨it, hp⟩⟩
    · rintro ⟨it', he, rfl⟩
      obtain rfl : it' = it := Except.ok.inj (he.symm.trans hp)
      obtain ⟨w, hw, he⟩ := hreads.sound hread
      exact ⟨item, w, hw, by rw [he, hptr]⟩
    · rintro ⟨item', w, hw, rfl⟩
      rw [hreads.complete hw] at hread
      exact ⟨it, hp, hptr.trans (Prod.mk.inj (Option.some.inj hread)).2.symm⟩
  · refine ⟨fun rest => ⟨?_, ?_⟩, .inr ⟨e, hp⟩⟩
    · rintro ⟨it, he, -⟩
      rw [hp] at he
      cases he
    · rintro ⟨item, w, hw, rfl⟩
      rw [hreads.complete hw] at hread
      cases hread

/-- An array of a number and a tagged open array. -/
theorem parseOne_iff_nested : ∃ item w, Encodes UINT32_MAX maxRecursions item w ∧
    ([0x82, 0x18, 0x2a, 0xc1, 0x9f, 0xff, 0x00] : List UInt8) = w ++ [0x00] :=
  ((parseOne_iff (by decide)).1 [0x00]).mp ⟨_, rfl, rfl⟩

/-! ## `cbor_value_validate_basic` -/

theorem cborValueValidateBasic_eq_ok {it : CborValue} :
    cborValueValidateBasic it = .ok () ↔ ∃ it', cborValueAdvance it = .ok it' := by
  unfold cborValueValidateBasic
  cases cborValueAdvance it with
  | error e => simp
  | ok it' => simp

/-- No tag stands in front of an untagged item. -/
theorem Untagged.readHead_eq_none {d : Nat} {item : Item} {w : List UInt8} (h : Untagged UINT32_MAX d item w)
    (rest : List UInt8) : readHead 6 (w ++ rest) = none := by
  obtain ⟨b, v, rfl, m, hb, h6, -⟩ := Untagged.starts UINT32_MAX d item w h
  exact readHead_of_ne (by omega)

/-- **What `cbor_value_validate_basic` accepts** at the start of a buffer: a well-formed item without tags in front of
it, or a single tag with the head of any item after it. The tagged item itself is not validated. -/
theorem validateBasic_iff {buffer : List UInt8} (hlen : buffer.length ≤ SIZE_MAX) :
    (∃ it, cborParserInit buffer = .ok it ∧ cborValueValidateBasic it = .ok ()) ↔
      (∃ item w rest, Untagged UINT32_MAX maxRecursions item w ∧ buffer = w ++ rest) ∨
      ∃ t h rest, Head 6 t h ∧ startsItem rest = true ∧ buffer = h ++ rest := by
  have hinit := reached_of_init buffer
  have hreads := reads_readUntagged UINT32_MAX maxRecursions
  simp only [cborValueValidateBasic_eq_ok]
  generalize cborParserInit buffer = r at hinit ⊢
  cases hinit with
  | ended hc => exact absurd hc (by rintro (h | ⟨h, -⟩) <;> cases h)
  | stopped hin hs hc e =>
    refine ⟨fun ⟨it, he, _⟩ => (by cases he), ?_⟩
    rintro (⟨item, w, rest, hw, rfl⟩ | ⟨t, h, rest, hh, -, rfl⟩)
    · rw [(show Encodes UINT32_MAX maxRecursions item w from .base hw).startsItem] at hs
      cases hs
    · rw [hh.startsItem (by omega)] at hs
      cases hs
  | item hc it hpre hr ha =>
    subst hr
    simp only [Except.ok.injEq, exists_eq_left', cborValueAdvance_of_inContainer hpre ha]
    cases hh : readHead 6 it.ptr with
    | none =>
      have hskip := (advances maxRecursions).item hpre ha hlen hh
      generalize advanceRecursive maxRecursions it = q at hskip ⊢
      cases hu : readUntagged UINT32_MAX maxRecursions it.ptr with
      | none =>
        rw [hu] at hskip
        cases hskip with
        | stopped e =>
          refine ⟨fun ⟨it, he⟩ => (by cases he), ?_⟩
          rintro (⟨item, w, rest, hw, he⟩ | ⟨t, h, rest, ht, -, he⟩)
          · rw [he, hreads.complete hw] at hu
            cases hu
          · rw [he, (reads_readHead 6).complete ht] at hh
            cases hh
      | some r =>
        obtain ⟨item, rest⟩ := r
        rw [hu] at hskip
        cases hskip with
        | moved h =>
          obtain ⟨it', rfl, -, -⟩ := h.ended_of_one
          obtain ⟨w, hw, he⟩ := hreads.sound hu
          exact ⟨fun _ => .inl ⟨item, w, rest, hw, he⟩, fun _ => ⟨it', rfl⟩⟩
    | some r =>
      obtain ⟨t, rest⟩ := r
      have htag := reachedTagged_of_advance maxRecursions hpre ha hh
      obtain ⟨h, hhead, he⟩ := (reads_readHead 6).sound hh
      generalize advanceRecursive maxRecursions it = q at htag ⊢
      cases htag with
      | item hs it' => exact ⟨fun _ => .inr ⟨t, h, rest, hhead, hs, he⟩, fun _ => ⟨it', rfl⟩⟩
      | stopped hs e =>
        refine ⟨fun ⟨it, he⟩ => (by cases he), ?_⟩
        rintro (⟨item, w, rest', hw, he'⟩ | ⟨t', h', rest', hhead', hs', he'⟩)
        · rw [he', hw.readHead_eq_none] at hh
          cases hh
        · obtain ⟨-, -, rfl⟩ := (reads_readHead 6).unique hhead hhead' (he.symm.trans he')
          rw [hs] at hs'
          cases hs'

/-- A tag and the head of an array whose only item is missing. -/
theorem validateBasic_iff_tag :
    ∃ it, cborParserInit [0xc1, 0x81] = .ok it ∧ cborValueValidateBasic it = .ok () :=
  (validateBasic_iff (by decide)).mpr
    (.inr ⟨1, [0xc1], [0x81], .short _ rfl (by decide) rfl, by decide, rfl⟩)

/-- The parser does not get over the same bytes. -/
example : parseOne [0xc1, 0x81] = .error (.err .unexpectedEOF) := by decide

end Libcp2p.Cbor
