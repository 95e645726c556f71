import Libcp2p.Cbor.Data
import Libcp2p.Cbor.Items

/-!
# Walking over items

Where the iterator of `src/tinycbor/cborparser.c` gets to, against what the readers of `Libcp2p.Cbor.Data` read. Each
step has its possible outcomes as an inductive type: `Reached` for moving to the next item of a container,
`ReachedTagged` for moving past a tag, `Told` for the chunks of a string, `Entered` for entering a container and
`Skipped` for advancing over an item. None of them has a case for a failed assertion or an access outside the input.

`advance_recursive` gets over an item exactly when `readUntagged` reads one with the same number of containers inside
each other, and stands where the reader stops (`advances`). Its induction is on the depth; inside a container it
follows the items (`finished_of_reached`), and inside a string the chunks (`told_of_string`).
-/

namespace Libcp2p.Cbor

/-! ## Moving inside a container -/

/-- The iterator is at item `k` (counted from 0) of a container of `count` items. -/
structure InContainer (isMap : Bool) (count : Option Nat) (k : Nat) (it : CborValue) : Prop where
  remaining : it.remaining = left count k
  countFits : CountFits count
  inside : ∀ n ∈ count, k < n
  containerIsMap : it.flags.containerIsMap = isMap
  nextIsMapKey : it.flags.nextIsMapKey = decide (k % 2 = 1)

/-- A break stands between the key and the value of an entry. -/
def halfEntry (isMap : Bool) (count : Option Nat) (k : Nat) (rest : List UInt8) : Prop :=
  isMap = true ∧ k % 2 = 1 ∧ count = none ∧ rest.head? = some breakByte

/-- What moving to item `k` of a container gives, with `rest` the input from there on: the container is at its end, an
item starts, or an error is reported. -/
inductive Reached (isMap : Bool) (count : Option Nat) (k : Nat) (rest : List UInt8) : Except Stop CborValue → Prop
  | ended (hc : closes count k rest) (hh : ¬halfEntry isMap count k rest) (it : CborValue) (ht : it.type = .invalid)
      (hr : it.remaining = 0) (hp : it.ptr = if count.isSome then rest else rest.tail) :
      Reached isMap count k rest (.ok it)
  | item (hc : ¬closes count k rest) (it : CborValue) (hp : Preparsed it) (hr : it.ptr = rest)
      (ha : InContainer isMap count k it) : Reached isMap count k rest (.ok it)
  | stopped (hin : ∀ n ∈ count, k < n) (hs : startsItem rest = false)
      (hh : ¬closes count k rest ∨ halfEntry isMap count k rest)
      (e : CborError) : Reached isMap count k rest (.error (.err e))

/-- What moving past a tag gives: the tagged item starts, or an error is reported. -/
inductive ReachedTagged (isMap : Bool) (count : Option Nat) (k : Nat) (rest : List UInt8) : Except Stop CborValue → Prop
  | item (hs : startsItem rest = true) (it : CborValue) (hp : Preparsed it) (hr : it.ptr = rest)
      (ha : InContainer isMap count k it) : ReachedTagged isMap count k rest (.ok it)
  | stopped (hs : startsItem rest = false) (e : CborError) : ReachedTagged isMap count k rest (.error (.err e))

section Moving

variable {isMap : Bool} {count : Option Nat} {k : Nat} {it : CborValue} {rest : List UInt8}

theorem startsItem_break {bs : List UInt8} : startsItem (breakByte :: bs) = false := by
  simp [startsItem, show info breakByte = 31 from rfl, show major breakByte = 7 from rfl]

theorem head_ne_break (h : startsItem rest = true) : rest.head? ≠ some breakByte := by
  intro hb
  obtain ⟨bs, rfl⟩ := List.head?_eq_some_iff.mp hb
  rw [startsItem_break] at h
  cases h

theorem InContainer.moveTo (h : InContainer isMap count k it) (ptr : List UInt8) :
    InContainer isMap count k { it with ptr := ptr } :=
  ⟨h.remaining, h.countFits, h.inside, h.containerIsMap, h.nextIsMapKey⟩

/-- Parsing the item the iterator has been moved to. -/
theorem reached_of_preparseValue (hp : it.ptr = rest) (hc : ¬closes count k rest) (ha : InContainer isMap count k it) :
    Reached isMap count k rest (preparseValue it) := by
  subst hp
  by_cases hs : startsItem it.ptr = true
  · obtain ⟨it', he, hp, hptr, hr, hk⟩ := preparseValue_starts hs
    rw [he]
    have hmap : it'.flags.keep.containerIsMap = it.flags.keep.containerIsMap := by rw [hk]
    have hkey : it'.flags.keep.nextIsMapKey = it.flags.keep.nextIsMapKey := by rw [hk]
    exact .item hc it' hp hptr ⟨hr.trans ha.remaining, ha.countFits, ha.inside, hmap.trans ha.containerIsMap,
      hkey.trans ha.nextIsMapKey⟩
  · obtain ⟨e, he⟩ := preparseValue_stops (Bool.eq_false_iff.mpr hs)
    rw [he]
    exact .stopped ha.inside (Bool.eq_false_iff.mpr hs) (.inl hc) e

theorem InContainer.not_closes (ha : InContainer isMap count k it)
    (h : ¬(it.remaining = UINT32_MAX ∧ rest.head? = some breakByte)) :
    ¬closes count k rest := by
  rintro (rfl | ⟨rfl, hb⟩)
  · exact Nat.lt_irrefl k (ha.inside k rfl)
  · exact h ⟨ha.remaining, hb⟩

theorem InContainer.unknown (ha : InContainer isMap count k it) (h : it.remaining = UINT32_MAX) : count = none := by
  cases count with
  | none => rfl
  | some n =>
    have h1 := ha.remaining
    have h2 := ha.countFits n rfl
    simp only [left, Option.map_some, Option.getD_some] at h1
    omega

theorem Reached.length_le {r : Except Stop CborValue} (h : Reached isMap count k rest r) (he : r = .ok it) :
    it.ptr.length ≤ rest.length := by
  cases h with
  | ended hc hh it' ht hr hp =>
    cases he
    rw [hp]
    split
    · exact Nat.le_refl _
    · rw [List.length_tail]
      omega
  | item hc it' hp hr ha =>
    cases he
    exact Nat.le_of_eq (congrArg _ hr)
  | stopped => cases he

/-- `preparse_next_value_nodecrement` after an item that is no tag. -/
theorem reached_of_nodecrement (hp : it.ptr = rest) (ht : it.type ≠ .tag) (ha : InContainer isMap count k it) :
    Reached isMap count k rest (preparseNextValueNodecrement it) := by
  unfold preparseNextValueNodecrement
  split_ifs with hb hx
  · -- the flags say that a value is missing
    rw [hp] at hb
    have hc := ha.unknown hb.1
    obtain ⟨bs, rfl⟩ := List.head?_eq_some_iff.mp hb.2
    have hx := hx.resolve_right ht
    rw [ha.containerIsMap, ha.nextIsMapKey] at hx
    exact .stopped ha.inside startsItem_break (.inr ⟨hx.1, by simpa using hx.2, hc, rfl⟩) _
  · rw [hp] at hb
    have hc := ha.unknown hb.1
    refine .ended (.inr ⟨hc, hb.2⟩) ?_ _ rfl rfl ?_
    · rintro ⟨hm, hk, -⟩
      exact hx (.inl ⟨ha.containerIsMap.trans hm, ha.nextIsMapKey.trans (decide_eq_true hk)⟩)
    · simp [hc, hp]
  · exact reached_of_preparseValue hp (ha.not_closes (hp ▸ hb)) ha

/-- `preparse_next_value` after an item that is no tag. -/
theorem reached_of_next (hp : it.ptr = rest) (ht : it.type ≠ .tag) (ha : InContainer isMap count k it) :
    Reached isMap count (k + 1) rest (preparseNextValue it) := by
  have hkey : (!it.flags.nextIsMapKey) = decide ((k + 1) % 2 = 1) := by
    rw [ha.nextIsMapKey, ← decide_not, decide_eq_decide]
    omega
  unfold preparseNextValue
  cases count with
  | none =>
    have hr : it.remaining = UINT32_MAX := ha.remaining
    simp only [hr, ne_eq, not_true_eq_false, false_and, if_false, ht, not_false_eq_true, decide_true, if_true]
    exact reached_of_nodecrement hp ht ⟨rfl, ha.countFits, by simp, ha.containerIsMap, hkey⟩
  | some n =>
    have hr : it.remaining = n - k := ha.remaining
    have hn : n < UINT32_MAX := ha.countFits n rfl
    have hk : k < n := ha.inside n rfl
    have hne : it.remaining ≠ UINT32_MAX := by omega
    have hdec : (it.remaining + UINT32_MAX) % 2 ^ 32 = n - (k + 1) := by
      unfold UINT32_MAX at *; omega
    simp only [hne, ne_eq, not_false_eq_true, ht, decide_true, and_self, true_and, if_true, hdec]
    split_ifs with h0
    · refine .ended (.inl (congrArg some (by omega))) ?_ _ rfl h0 (by simpa using hp)
      rintro ⟨-, -, hc, -⟩
      cases hc
    · refine reached_of_nodecrement hp ht ⟨rfl, ha.countFits, ?_, ha.containerIsMap, hkey⟩
      rintro m ⟨rfl⟩
      omega

/-- `preparse_next_value` after a tag: the tagged item has to follow. -/
theorem reachedTagged_of_next (hp : it.ptr = rest) (ht : it.type = .tag) (ha : InContainer isMap count k it) :
    ReachedTagged isMap count k rest (preparseNextValue it) := by
  have hnext : preparseNextValue it = preparseNextValueNodecrement it := by
    cases it
    simp_all [preparseNextValue]
  rw [hnext, preparseNextValueNodecrement]
  split_ifs with hb hx
  · obtain ⟨bs, hbs⟩ := List.head?_eq_some_iff.mp hb.2
    rw [hp] at hbs
    exact .stopped (hbs ▸ startsItem_break) _
  · exact absurd (.inr ht) hx
  · subst hp
    by_cases hs : startsItem it.ptr = true
    · have hreach := reached_of_preparseValue rfl (ha.not_closes hb) ha
      obtain ⟨it', he, -⟩ := preparseValue_starts hs
      rw [he] at hreach ⊢
      cases hreach with
      | ended hc => exact absurd hc (ha.not_closes hb)
      | item hc it hp hr ha => exact .item hs it' hp hr ha
    · obtain ⟨e, he⟩ := preparseValue_stops (Bool.eq_false_iff.mpr hs)
      rw [he]
      exact .stopped (Bool.eq_false_iff.mpr hs) e

end Moving

/-! ## The items that are left of a container -/

/-- Read items `k`, `k + 1`, … of a container of `count` items. -/
def readFrom (read : Reader UInt8 Item) (isMap : Bool) (k : Nat) : Option Nat → Reader UInt8 (List Item)
  | some n => read.times (n - k)
  | none => (Reader.manyUntil breakByte read).guard fun items => !isMap || (k + items.length) % 2 == 0

theorem readFrom_zero (read : Reader UInt8 Item) (isMap : Bool) (count : Option Nat) :
    readFrom read isMap 0 count = readEntries read isMap count := by
  cases count with
  | none => simp only [readFrom, readEntries, Nat.zero_add]
  | some n => rfl

section Left

variable {read : Reader UInt8 Item} {isMap : Bool} {count : Option Nat} {k : Nat} {rest : List UInt8}

/-- Nothing is left at the end of a container. -/
theorem readFrom_of_closes (hc : closes count k rest) (hh : ¬halfEntry isMap count k rest) :
    readFrom read isMap k count rest = some ([], if count.isSome then rest else rest.tail) := by
  rcases hc with rfl | ⟨rfl, hb⟩
  · simp [readFrom, Reader.times]
  · obtain ⟨bs, rfl⟩ := List.head?_eq_some_iff.mp hb
    have hk : isMap = true → k % 2 = 0 := by
      intro hm
      by_contra hk
      exact hh ⟨hm, by omega, rfl, rfl⟩
    cases isMap <;> simp [readFrom, Reader.guard, Reader.manyUntil_stop] at hk ⊢
    exact hk

theorem readFrom_of_halfEntry (hh : halfEntry isMap count k rest) : readFrom read isMap k count rest = none := by
  obtain ⟨rfl, hk, rfl, hb⟩ := hh
  obtain ⟨bs, rfl⟩ := List.head?_eq_some_iff.mp hb
  simp [readFrom, Reader.guard, Reader.manyUntil_stop, hk]

/-- One item, and what is left after it. -/
theorem readFrom_of_item (hs : Shrinks read) (hin : ∀ n ∈ count, k < n) (hc : ¬closes count k rest)
    (hnil : read [] = none) :
    readFrom read isMap k count rest =
      (read rest).bind fun r => (readFrom read isMap (k + 1) count r.2).map fun s => (r.1 :: s.1, s.2) := by
  cases count with
  | some n =>
    have hn : n - k = n - (k + 1) + 1 := by have := hin n rfl; omega
    simp only [readFrom, hn, Reader.times]
  | none =>
    have hb : rest.head? ≠ some breakByte := fun hb => hc (.inr ⟨rfl, hb⟩)
    have hpar : ∀ items : List Item, k + (items.length + 1) = k + 1 + items.length := by intro items; omega
    simp only [readFrom, Reader.guard, Reader.manyUntil_of_ne hs hb]
    cases rest with
    | nil => simp [hnil]
    | cons b bs =>
      rw [if_neg (List.cons_ne_nil _ _)]
      cases read (b :: bs) with
      | none => rfl
      | some r =>
        simp only [Option.bind_some]
        cases Reader.manyUntil breakByte read r.2 with
        | none => rfl
        | some s => simp [Option.filter, hpar]

end Left

/-! ## Where an item is read, one starts -/

section Starts

variable {limit d : Nat} {item : Item} {w : List UInt8}

theorem Head.startsItem {m n : Nat} (h : Head m n w) (hm : m ≠ 7) (rest : List UInt8) :
    startsItem (w ++ rest) = true := by
  have hr := (reads_readHead m).complete h rest
  obtain ⟨b, v, rfl, hb, ho⟩ := Head.starts m n w h
  have hi : info b ≠ 31 := of_decide_eq_false ho
  simp only [readHead, List.cons_append, List.head?_cons, Option.map_some, hb, if_true] at hr
  simp [Cbor.startsItem, hi, hr, hb, hm]

theorem startsItem_open {m : Nat} (hm : 2 ≤ m) (hm' : m ≤ 5) (rest : List UInt8) :
    startsItem (initialByte m 31 :: rest) = true := by
  have h := major_initialByte (m := m) (i := 31) (by omega) (by omega)
  have hi := info_initialByte (m := m) (i := 31) (by omega) (by omega)
  simp only [startsItem, hi, h, if_true, decide_eq_true_eq]
  omega

theorem Str.startsItem {m : Nat} {s : List UInt8} (h : Str m s w) (hm : 2 ≤ m) (hm' : m ≤ 5) (rest : List UInt8) :
    startsItem (w ++ rest) = true := by
  cases h with
  | piece hs =>
    obtain ⟨hh⟩ := hs
    rw [List.append_assoc]
    exact hh.startsItem (by omega) _
  | chunks hs => exact startsItem_open hm hm' _

theorem Leaf.startsItem {m : Nat} (h : Leaf m item w) (rest : List UInt8) : startsItem (w ++ rest) = true := by
  cases h with
  | unsigned h => exact h.startsItem (by omega) rest
  | negative h => exact h.startsItem (by omega) rest
  | bytes h => exact h.startsItem (by omega) (by omega) rest
  | text h => exact h.startsItem (by omega) (by omega) rest
  | @simple v hv =>
    have hi := info_initialByte (m := 7) (i := v) (by omega) (by omega)
    simp [Cbor.startsItem, hi, readArg, hv, show v ≠ 31 by omega, show v ≠ 24 by omega]
  | simpleByte hc =>
    have hi := info_initialByte (m := 7) (i := 24) (by omega) (by omega)
    simp [Cbor.startsItem, hi, readArg, argWidth, hc]
  | @float k arg hlo hhi hl =>
    have hi := info_initialByte (m := 7) (i := 24 + k) (by omega) (by omega)
    simp [Cbor.startsItem, hi, readArg, argWidth, hl, show 24 + k ≠ 31 by omega, show k ≠ 0 by omega,
      show 24 + k ≤ 27 by omega]

theorem Container.startsItem {m : Nat} {G : Item → List UInt8 → Prop} (h : Container limit G m item w)
    (rest : List UInt8) :
    startsItem (w ++ rest) = true := by
  cases h with
  | array hh => rw [List.append_assoc]; exact hh.startsItem (by omega) _
  | openArray => exact startsItem_open (by omega) (by omega) _
  | map hh => rw [List.append_assoc]; exact hh.startsItem (by omega) _
  | openMap => exact startsItem_open (by omega) (by omega) _

theorem Encodes.startsItem (h : Encodes limit d item w) (rest : List UInt8) : startsItem (w ++ rest) = true := by
  rcases h with h | ⟨ht, -⟩
  · cases d with
    | zero =>
      obtain ⟨m, h⟩ := h
      exact h.startsItem rest
    | succ d =>
      obtain ⟨m, h | h⟩ := h
      · exact h.startsItem rest
      · exact h.startsItem rest
  · rw [List.append_assoc]
    exact ht.startsItem (by omega) _

/-- No item is read where none starts. -/
theorem readItem_of_not_starts {rest : List UInt8} (h : Cbor.startsItem rest = false) :
    readItem limit d rest = none := by
  cases hr : readItem limit d rest with
  | none => rfl
  | some r =>
    obtain ⟨w, hw, rfl⟩ := (reads_readItem limit d).sound hr
    rw [hw.startsItem] at h
    cases h

theorem shrinks_readItem : Shrinks (readItem limit d) :=
  (reads_readItem limit d).shrinks (Tagged.starts (Untagged.starts limit d))

theorem shrinks_readHead (m : Nat) : Shrinks (readHead m) := (reads_readHead m).shrinks (Head.starts m)

theorem readItem_tag (limit d : Nat) {t : Nat} {input rest : List UInt8} (h : readHead 6 input = some (t, rest)) :
    readItem limit d input = (readItem limit d rest).map fun r => (.tag t r.1, r.2) :=
  Reader.wrapped_of_some (shrinks_readHead 6) h

theorem readItem_untagged {input : List UInt8} (h : readHead 6 input = none) :
    readItem limit d input = readUntagged limit d input :=
  Reader.wrapped_of_none h

end Starts

/-! ## The loop over the items of a container -/

/-- What advancing over an item that is no tag gives, from what is read there. -/
inductive Skipped (isMap : Bool) (count : Option Nat) (k : Nat) :
    Option (Item × List UInt8) → Except Stop CborValue → Prop
  | moved {item : Item} {rest : List UInt8} {m : Except Stop CborValue} (h : Reached isMap count (k + 1) rest m) :
      Skipped isMap count k (some (item, rest)) m
  | stopped (e : CborError) : Skipped isMap count k none (.error (.err e))

/-- `advance` moves over the items that `read` reads, and from a tag to the tagged item. -/
structure Advances (advance : CborValue → Except Stop CborValue) (read : Reader UInt8 Item) : Prop where
  item : ∀ {isMap count k it}, Preparsed it → InContainer isMap count k it → it.ptr.length ≤ SIZE_MAX →
    readHead 6 it.ptr = none → Skipped isMap count k (read it.ptr) (advance it)
  tag : ∀ {isMap count k it t rest}, Preparsed it → InContainer isMap count k it →
    readHead 6 it.ptr = some (t, rest) → ReachedTagged isMap count k rest (advance it)

/-- What the loop over the items of a container gives, from the input after the container. -/
inductive Finished : Option (List UInt8) → Except Stop CborValue → Prop
  | done (it : CborValue) (ht : it.type = .invalid) : Finished (some it.ptr) (.ok it)
  | stopped (e : CborError) : Finished none (.error (.err e))

section Loop

variable {advance : CborValue → Except Stop CborValue} {d : Nat} {isMap : Bool} {count : Option Nat} {k : Nat}
  {rest : List UInt8} {m : Except Stop CborValue}

theorem InContainer.not_atEnd {it : CborValue} (h : InContainer isMap count k it) : cborValueAtEnd it = false := by
  refine decide_eq_false ?_
  rw [h.remaining]
  cases count with
  | none => simp [left, UINT32_MAX]
  | some n => have := h.inside n rfl; simp [left]; omega

/-- **The loop of `advance_recursive`** reads the rest of the container. The induction is on what is left of the input:
every round takes at least the head of an item or of a tag off it. -/
theorem finished_of_reached (hadv : Advances advance (readUntagged UINT32_MAX d)) (h : Reached isMap count k rest m)
    (hlen : rest.length ≤ SIZE_MAX) {fuel : Nat} (hfuel : 0 < fuel) (hf : ∀ it, m = .ok it → it.ptr.length < fuel) :
    Finished ((readFrom (readItem UINT32_MAX d) isMap k count rest).map Prod.snd)
      (m >>= advanceItems advance fuel) := by
  induction fuel generalizing k rest m with
  | zero => omega
  | succ fuel ih =>
    cases h with
    | ended hc hh it ht hr hp =>
      have hend : cborValueAtEnd it = true := decide_eq_true hr
      rw [readFrom_of_closes hc hh, ok_bind, advanceItems, if_pos hend]
      exact hp ▸ .done it ht
    | stopped hin hs hh e =>
      rw [error_bind]
      rcases hh with hc | hh
      · rw [readFrom_of_item shrinks_readItem hin hc (readItem_of_not_starts rfl), readItem_of_not_starts hs]
        exact .stopped e
      · rw [readFrom_of_halfEntry hh]
        exact .stopped e
    | item hc it hp hr ha =>
      subst hr
      have hfit := hf it rfl
      rw [ok_bind, advanceItems, if_neg (by rw [ha.not_atEnd]; exact Bool.false_ne_true),
        readFrom_of_item shrinks_readItem ha.inside hc (readItem_of_not_starts rfl)]
      cases ht : readHead 6 it.ptr with
      | none =>
        rw [readItem_untagged ht]
        have hskip := hadv.item hp ha hlen ht
        cases hu : readUntagged UINT32_MAX d it.ptr with
        | none =>
          rw [hu] at hskip
          generalize advance it = m at hskip ⊢
          cases hskip with
          | stopped e => exact .stopped e
        | some r =>
          obtain ⟨item, rest⟩ := r
          have hlt := shrinks_readItem _ _ _ ((readItem_untagged ht).trans hu)
          rw [hu] at hskip
          generalize advance it = m at hskip ⊢
          cases hskip with
          | moved h =>
            have hrec := ih h (by omega) (by omega) fun it' he => by have := h.length_le he; omega
            simpa [Function.comp_def] using hrec
      | some r =>
        obtain ⟨t, rest⟩ := r
        have hlt := shrinks_readHead 6 _ _ _ ht
        have htag := hadv.tag hp ha ht
        rw [readItem_tag _ _ ht]
        generalize advance it = m at htag ⊢
        cases htag with
        | stopped hs e =>
          rw [readItem_of_not_starts hs]
          exact .stopped e
        | item hs it' hp' hr' ha' =>
          have hc' : ¬closes count k rest := ha'.not_closes fun h => head_ne_break hs h.2
          have hrec := ih (.item hc' it' hp' hr' ha') (by omega) (by omega) fun _ he => by cases he; rw [hr']; omega
          rw [readFrom_of_item shrinks_readItem ha.inside hc' (readItem_of_not_starts rfl)] at hrec
          cases hi : readItem UINT32_MAX d rest with
          | none => simpa [hi] using hrec
          | some r => simpa [hi, Function.comp_def] using hrec

end Loop

/-! ## Strings -/

/-- The iterator is at a string of major type `m`. -/
def AtString (m : Nat) (it : CborValue) : Prop := m = 2 ∧ it.type = .byteString ∨ m = 3 ∧ it.type = .textString

/-- The chunks that `get_string_chunk` gives one after the other, and what it gives after the last one. -/
inductive Chunks : CborValue → List (List UInt8) → Except Stop CborValue → Prop
  | last {it : CborValue} {m : Except Stop CborValue} (h : getStringChunk it = m.map fun next => (none, next)) :
      Chunks it [] m
  | more {it next : CborValue} {c : List UInt8} {cs : List (List UInt8)} {m : Except Stop CborValue}
      (h : getStringChunk it = .ok (some c, next)) (hs : Chunks next cs m) : Chunks it (c :: cs) m

/-- What the chunks of a string are, from what is read there. -/
inductive Told (isMap : Bool) (count : Option Nat) (k : Nat) :
    Option (List UInt8 × List UInt8) → List (List UInt8) → Except Stop CborValue → Prop
  | all {cs : List (List UInt8)} {s rest : List UInt8} {m : Except Stop CborValue} (hs : cs.flatten = s)
      (h : Reached isMap count (k + 1) rest m) : Told isMap count k (some (s, rest)) cs m
  | stopped {cs : List (List UInt8)} (e : CborError) : Told isMap count k none cs (.error (.err e))

section Strings

variable {isMap : Bool} {count : Option Nat} {k m : Nat} {it : CborValue} {b : UInt8} {bs : List UInt8}

theorem toType_textString : (majorType b).toType = .textString ↔ major b = 3 := by
  rcases majorType_cases b with h | h | h | h | h | h | h | h <;> simp [h, CborMajorTypes.toType]

theorem AtString.major_iff (h : AtString m it) (b : UInt8) : (majorType b).toType = it.type ↔ major b = m := by
  rcases h with ⟨rfl, ht⟩ | ⟨rfl, ht⟩ <;> rw [ht]
  · exact toType_byteString
  · exact toType_textString

theorem AtString.ne_tag (h : AtString m it) : it.type ≠ .tag := by
  rcases h with ⟨-, ht⟩ | ⟨-, ht⟩ <;> simp [ht]

theorem AtString.major_le (h : AtString m it) : 2 ≤ m ∧ m ≤ 3 := by
  rcases h with ⟨rfl, -⟩ | ⟨rfl, -⟩ <;> omega

theorem Chunks.congr {it' : CborValue} {cs : List (List UInt8)} {r : Except Stop CborValue} (h : Chunks it' cs r)
    (he : getStringChunk it = getStringChunk it') : Chunks it cs r := by
  cases h with
  | last h => exact .last (he.trans h)
  | more h hs => exact .more (he.trans h) hs

theorem AtString.iterateFrom (h : AtString m it) (ptr : List UInt8) : AtString m (it.iterateFrom ptr) := h

theorem InContainer.iterateFrom (h : InContainer isMap count k it) (ptr : List UInt8) :
    InContainer isMap count k (it.iterateFrom ptr) :=
  ⟨h.remaining, h.countFits, h.inside, h.containerIsMap, h.nextIsMapKey⟩

/-- A chunk and its head are taken off the input. -/
theorem length_of_readStringChunk {next : CborValue} {c : List UInt8} (h : readStringChunk it = .ok (some c, next)) :
    c.length + next.ptr.length < it.ptr.length := by
  unfold readStringChunk at h
  split at h
  · cases h
  · rename_i byte rest hp
    split_ifs at h with hb ht
    · cases hn : preparseNextValue { it with ptr := rest } <;> rw [hn] at h <;> cases h
    · cases ha : readArg (byte :: rest) with
      | none =>
        obtain ⟨e, he⟩ := extractNumber_of_none ha (List.cons_ne_nil _ _)
        rw [he] at h
        cases h
      | some r =>
        obtain ⟨len, ptr⟩ := r
        have hlt := length_of_readArg ha
        simp only [extractNumber_of_readArg ha, ok_bind] at h
        split_ifs at h with hlen
        cases h
        rw [hp, List.length_take, iterateFrom_ptr, List.length_drop]
        omega

theorem length_of_getStringChunk {next : CborValue} {c : List UInt8} (h : getStringChunk it = .ok (some c, next)) :
    c.length + next.ptr.length < it.ptr.length := by
  unfold getStringChunk at h
  split_ifs at h
  · cases hn : preparseNextValue it <;> rw [hn] at h <;> cases h
  · exact length_of_readStringChunk h
  · have hlt := length_of_readStringChunk h
    unfold prepareStringIteration at hlt
    split_ifs at hlt
    · exact hlt
    · rw [iterateFrom_ptr, List.length_tail] at hlt
      omega

theorem Chunks.length_le {cs : List (List UInt8)} {r : Except Stop CborValue} (h : Chunks it cs r) :
    cs.flatten.length + cs.length ≤ it.ptr.length := by
  induction h with
  | last h => simp
  | more h hs ih =>
    have hlt := length_of_getStringChunk h
    simp only [List.flatten_cons, List.length_append, List.length_cons]
    omega

/-- `get_string_chunk` at a piece of a string, or where there is none. -/
theorem readStringChunk_eq (h : AtString m it) (hp : it.ptr = b :: bs) (hb : b ≠ breakByte) :
    (∃ s rest, readPieceOf m it.ptr = some (s, rest) ∧ readStringChunk it = .ok (some s, it.iterateFrom rest)) ∨
    (readPieceOf m it.ptr = none ∧ ∃ e, readStringChunk it = .error (.err e)) := by
  simp only [readStringChunk, hp, if_neg (show b ≠ BreakByte from hb), h.major_iff]
  simp only [readPieceOf, Reader.bind, readHead, List.head?_cons, Option.map_some, Option.some.injEq]
  split_ifs with hm
  · cases ha : readArg (b :: bs) with
    | none =>
      obtain ⟨e, he⟩ := extractNumber_of_none ha (List.cons_ne_nil _ _)
      exact .inr ⟨rfl, e, by rw [he]; rfl⟩
    | some r =>
      obtain ⟨len, ptr⟩ := r
      simp only [extractNumber_of_readArg ha, ok_bind, Option.bind_some, Reader.take]
      by_cases hlen : len ≤ ptr.length
      · rw [if_pos hlen, if_neg (by omega)]
        exact .inl ⟨_, _, rfl, rfl⟩
      · rw [if_neg hlen, if_pos (by omega)]
        exact .inr ⟨rfl, _, rfl⟩
  · exact .inr ⟨rfl, _, rfl⟩

theorem shrinks_readPieceOf (m : Nat) : Shrinks (readPieceOf m) := (reads_readPieceOf m).shrinks (Piece.starts m)

theorem getStringChunk_iterating (hi : it.flags.negativeIntegerOrIteratingStringChunks = true)
    (hu : it.flags.unknownLength = true) : getStringChunk it = readStringChunk it := by
  simp [getStringChunk, hi, cborValueIsLengthKnown, hu]

/-- The chunks from inside a chunked string on. -/
theorem told_of_iterating (h : AtString m it) (hi : it.flags.negativeIntegerOrIteratingStringChunks = true)
    (hu : it.flags.unknownLength = true) (ha : InContainer isMap count k it) : ∃ cs r, Chunks it cs r ∧
      Told isMap count k ((Reader.manyUntil breakByte (readPieceOf m) it.ptr).map fun s => (s.1.flatten, s.2))
        cs r := by
  induction hn : it.ptr.length using Nat.strongRecOn generalizing it with
  | _ n ih =>
    have hget := getStringChunk_iterating hi hu
    cases hp : it.ptr with
    | nil => exact ⟨[], .error (.err .unexpectedEOF), .last (hget.trans (readStringChunk_nil hp)), .stopped _⟩
    | cons b bs =>
      by_cases hb : b = breakByte
      · subst hb
        rw [Reader.manyUntil_stop]
        refine ⟨[], preparseNextValue { it with ptr := bs }, .last (hget.trans ?_), .all rfl ?_⟩
        · simp only [readStringChunk, hp]
          rfl
        · exact reached_of_next rfl h.ne_tag (ha.moveTo bs)
      · rw [← hp, Reader.manyUntil_of_ne (shrinks_readPieceOf m) (by simp [hp, hb]), if_neg (by simp [hp])]
        rcases readStringChunk_eq h hp hb with ⟨s, rest, hr, hc⟩ | ⟨hr, e, hc⟩
        · have hlt := shrinks_readPieceOf m _ _ _ hr
          obtain ⟨cs, r, hcs, htold⟩ := ih _ (hn ▸ hlt) (h.iterateFrom rest) rfl hu (ha.iterateFrom rest) rfl
          refine ⟨s :: cs, r, .more (hget.trans hc) hcs, ?_⟩
          rw [iterateFrom_ptr] at htold
          simp only [hr, Option.bind_some, Option.map_map, Function.comp_def, List.flatten_cons]
          cases hmany : Reader.manyUntil breakByte (readPieceOf m) rest with
          | none =>
            rw [hmany] at htold
            cases htold with
            | stopped e => exact .stopped e
          | some q =>
            rw [hmany] at htold
            cases htold with
            | all hs hr => exact .all (congrArg (s ++ ·) hs) hr
        · exact ⟨[], .error (.err e), .last (hget.trans hc), by rw [hr]; exact .stopped e⟩

theorem Preparsed.open_flags (h : Preparsed it) (hp : it.ptr = b :: bs) (hi : info b = 31) :
    it.flags.negativeIntegerOrIteratingStringChunks = false ∧ it.flags.unknownLength = true := by
  have hs := h.startsItem
  simp only [hp, Cbor.startsItem, hi, if_true, decide_eq_true_eq] at hs
  rw [Preparsed, preparseValue_indefinite hp hi hs] at h
  rw [← Except.ok.inj h]
  exact ⟨rfl, rfl⟩

/-- The first byte of a string has its major type. -/
theorem Preparsed.major_of_string (hpre : Preparsed it) (h : AtString m it) (hp : it.ptr = b :: bs) : major b = m := by
  by_cases h7 : major b = 7
  · exfalso
    rcases hpre.type_of_seven hp h7 with ⟨ht, -⟩ | ⟨ht, -⟩ <;> rcases h with ⟨-, h⟩ | ⟨-, h⟩ <;> rw [h] at ht <;>
      cases ht
  · exact (h.major_iff b).mp (hpre.type_eq hp h7).symm

/-- **The chunks of a string** are those that are read there. -/
theorem told_of_string (hpre : Preparsed it) (h : AtString m it) (ha : InContainer isMap count k it) :
    ∃ cs r, Chunks it cs r ∧ Told isMap count k (readString m it.ptr) cs r := by
  obtain ⟨b, bs, hp⟩ := hpre.ne_nil
  have hm := hpre.major_of_string h hp
  have hle := h.major_le
  by_cases hi : info b = 31
  · obtain ⟨hneg, hu⟩ := hpre.open_flags hp hi
    have hb : b = initialByte m 31 := eq_initialByte hm hi
    have hread : readString m it.ptr =
        (Reader.manyUntil breakByte (readPieceOf m) bs).map fun s => (s.1.flatten, s.2) := by
      have ho : isOpen b = true := decide_eq_true hi
      have hopen : readOpen m (b :: bs) = some (b, bs) := if_pos (decide_eq_true hb)
      simp only [hp, readString, Reader.choose, ho, if_true, Reader.map, Reader.bind, hopen, Option.bind_some]
    -- the first call only steps over the head of the string
    have hstep : getStringChunk it = getStringChunk (it.iterateFrom bs) := by
      simp [getStringChunk, hneg, prepareStringIteration, cborValueIsLengthKnown, hu, hp, CborValue.iterateFrom]
    obtain ⟨cs, r, hcs, htold⟩ := told_of_iterating (h.iterateFrom bs) rfl hu (ha.iterateFrom bs)
    exact ⟨cs, r, hcs.congr hstep, hread ▸ htold⟩
  · have hread : readString m it.ptr = readPieceOf m it.ptr := by
      simp [hp, readString, Reader.choose, isOpen, hi]
    have hs := hpre.startsItem
    simp only [hp, Cbor.startsItem, hi, if_false, decide_eq_true_eq] at hs
    obtain ⟨a, harg⟩ := Option.isSome_iff_exists.mp hs.1
    obtain ⟨hneg, hu, -⟩ := hpre.number hp (by omega) harg
    rw [decide_eq_false (by omega)] at hneg
    have hget : getStringChunk it = readStringChunk it := by
      simp [getStringChunk, hneg, prepareStringIteration, cborValueIsLengthKnown, hu]
    rw [hread]
    rcases readStringChunk_eq h hp (ne_breakByte (.inl (by omega))) with ⟨s, rest, hr, hc⟩ | ⟨hr, e, hc⟩
    · have hlast : getStringChunk (it.iterateFrom rest) =
          (preparseNextValue (it.iterateFrom rest)).map fun next => (none, next) := by
        simp [getStringChunk, cborValueIsLengthKnown, CborValue.iterateFrom, hu]
      refine ⟨[s], _, .more (hget.trans hc) (.last hlast), ?_⟩
      have hreach := reached_of_next rfl (h.iterateFrom rest).ne_tag (ha.iterateFrom rest)
      rw [hr]
      exact .all (by simp) hreach
    · exact ⟨[], .error (.err e), .last (hget.trans hc), hr ▸ .stopped e⟩

/-- The loop of `iterate_string_chunks`, as long as the buffer holds everything. -/
theorem iterateStringChunksLoop_of_chunks {cs : List (List UInt8)} {r : Except Stop CborValue} (h : Chunks it cs r)
    {fuel : Nat} (hf : cs.length < fuel) {copied : List UInt8} (hlen : copied.length + cs.flatten.length ≤ SIZE_MAX) :
    iterateStringChunksLoop SIZE_MAX fuel it copied true = r.map fun next => (copied ++ cs.flatten, true, next) := by
  induction h generalizing fuel copied with
  | @last it r h =>
    obtain ⟨fuel, rfl⟩ : ∃ f, fuel = f + 1 := ⟨fuel - 1, by omega⟩
    cases r <;> simp [iterateStringChunksLoop, h, Except.map]
  | @more it next c cs r h hs ih =>
    obtain ⟨fuel, rfl⟩ : ∃ f, fuel = f + 1 := ⟨fuel - 1, by omega⟩
    simp only [List.flatten_cons, List.length_append, List.length_cons] at hlen hf
    have hle : copied.length + c.length ≤ SIZE_MAX := by omega
    simp only [iterateStringChunksLoop, h, ok_bind, if_neg (Nat.not_lt.mpr hle), hle, decide_true, Bool.and_true]
    rw [ih (by omega) (by rw [List.length_append]; omega), List.append_assoc, List.flatten_cons]

/-- `_cbor_value_copy_string` without a buffer. -/
theorem copyString_of_chunks {cs : List (List UInt8)} {r : Except Stop CborValue} (hs : AtString m it)
    (h : Chunks it cs r) (hlen : it.ptr.length ≤ SIZE_MAX) :
    copyString it SIZE_MAX = r.map fun next => (cs.flatten, next) := by
  have hle := h.length_le
  have hstr : (cborValueIsByteString it || cborValueIsTextString it) = true := by
    rcases hs with ⟨-, ht⟩ | ⟨-, ht⟩ <;> simp [cborValueIsByteString, cborValueIsTextString, ht]
  simp only [copyString, cborAssert, hstr, if_true, ok_bind]
  rw [iterateStringChunksLoop_of_chunks h (by omega) (by rw [List.length_nil]; omega)]
  cases r <;> rfl

end Strings

/-! ## Containers -/

section Containers

variable {isMap : Bool} {count : Option Nat} {k m : Nat} {it : CborValue} {b : UInt8} {bs : List UInt8}

/-- The iterator is at a container, a map or an array. -/
def AtContainer (isMap : Bool) (it : CborValue) : Prop := it.type = if isMap then .map else .array

/-- The major type of a container. -/
def containerMajor (isMap : Bool) : Nat := if isMap then 5 else 4

/-- The items for one of the argument of a container's head. -/
def itemsPer (isMap : Bool) : Nat := if isMap then 2 else 1

/-- What entering a container gives, from what is read there. -/
inductive Entered (isMap : Bool) : Option (Option Nat × List UInt8) → Except Stop CborValue → Prop
  | inside {count : Option Nat} {rest : List UInt8} {r : Except Stop CborValue} (h : Reached isMap count 0 rest r) :
      Entered isMap (some (count, rest)) r
  | stopped (e : CborError) : Entered isMap none (.error (.err e))

theorem AtContainer.isContainer (h : AtContainer isMap it) : cborValueIsContainer it = true := by
  unfold AtContainer at h
  cases isMap <;> simp_all [cborValueIsContainer]

/-- `cbor_value_enter_container` at a container without a length. -/
theorem entered_of_open (h : AtContainer isMap it) (hu : it.flags.unknownLength = true) :
    Reached isMap none 0 it.ptr.tail (cborValueEnterContainer it) := by
  simp only [cborValueEnterContainer, cborAssert, h.isContainer, if_true, ok_bind, hu]
  refine reached_of_nodecrement rfl ?_ ⟨rfl, by simp [CountFits], by simp, ?_, rfl⟩
  · unfold AtContainer at h
    cases isMap <;> simp [h]
  · unfold AtContainer at h
    cases isMap <;> simp [h]

/-- `cbor_value_enter_container` at a container with a length that fits. -/
theorem entered_of_known {n : Nat} {rest : List UInt8} (h : AtContainer isMap it) (hu : it.flags.unknownLength = false)
    (hr : readArg it.ptr = some (n, rest)) (hn : itemsPer isMap * n < UINT32_MAX) :
    Reached isMap (some (itemsPer isMap * n)) 0 rest (cborValueEnterContainer it) := by
  have hcont := h.isContainer
  have hmod : n % 2 ^ 32 = n := by
    unfold itemsPer UINT32_MAX at hn
    cases isMap <;> simp at hn <;> omega
  have hne : n ≠ UINT32_MAX := by
    unfold itemsPer at hn
    cases isMap <;> simp at hn <;> omega
  have hcond : ¬(n % 2 ^ 32 ≠ n ∨ n = UINT32_MAX) := by
    rintro (h | h)
    · exact h hmod
    · exact hne h
  have hhalf : ¬(it.type = .map ∧ n % 2 ^ 32 > UINT32_MAX / 2) := by
    rintro ⟨ht, hgt⟩
    rw [hmod] at hgt
    unfold AtContainer at h
    unfold itemsPer UINT32_MAX at hn
    unfold UINT32_MAX at hgt
    cases isMap <;> simp [ht] at h hn
    omega
  have hrem : (if it.type = .map then n % 2 ^ 32 * 2 else n % 2 ^ 32) = itemsPer isMap * n := by
    rw [hmod]
    unfold AtContainer at h
    cases isMap <;> simp [h, itemsPer, Nat.mul_comm]
  simp only [cborValueEnterContainer, cborAssert, hcont, if_true, ok_bind, hu, Bool.false_eq_true, if_false,
    extractNumberAsserted_of_readArg hr, if_neg hcond, if_neg hhalf, hrem]
  by_cases h0 : n = 0
  · rw [if_pos h0, pure_eq_ok]
    exact .ended (.inl (by simp [h0])) (fun hh => by cases hh.2.2.1) _ rfl (by simp [h0]) rfl
  · rw [if_neg h0]
    refine reached_of_nodecrement rfl ?_ ⟨rfl, by simpa [CountFits] using hn, ?_, ?_, rfl⟩
    · unfold AtContainer at h
      cases isMap <;> simp [h]
    · rintro _ ⟨rfl⟩
      unfold itemsPer
      split <;> omega
    · unfold AtContainer at h
      cases isMap <;> simp [h]

/-- `cbor_value_enter_container` at a container with too many items. -/
theorem enter_of_tooMany {n : Nat} {rest : List UInt8} (h : AtContainer isMap it) (hu : it.flags.unknownLength = false)
    (hr : readArg it.ptr = some (n, rest)) (hn : ¬itemsPer isMap * n < UINT32_MAX) :
    cborValueEnterContainer it = .error (.err .dataTooLarge) := by
  have hcont := h.isContainer
  simp only [cborValueEnterContainer, cborAssert, hcont, if_true, ok_bind, hu, Bool.false_eq_true, if_false,
    extractNumberAsserted_of_readArg hr]
  by_cases hcond : n % 2 ^ 32 ≠ n ∨ n = UINT32_MAX
  · rw [if_pos hcond]
  · have hhalf : it.type = .map ∧ n % 2 ^ 32 > UINT32_MAX / 2 := by
      unfold AtContainer at h
      unfold itemsPer UINT32_MAX at hn
      unfold UINT32_MAX at hcond ⊢
      cases isMap
      · simp at hn
        omega
      · simp at hn h
        exact ⟨h, by omega⟩
    rw [if_neg hcond, if_pos hhalf]

/-- The first byte of a container has its major type. -/
theorem Preparsed.major_of_container (hpre : Preparsed it) (h : AtContainer isMap it) (hp : it.ptr = b :: bs) :
    major b = containerMajor isMap := by
  have h7 : major b ≠ 7 := by
    intro h7
    unfold AtContainer at h
    rcases hpre.type_of_seven hp h7 with ⟨ht, -⟩ | ⟨ht, -⟩ <;> rw [h] at ht <;> cases isMap <;> cases ht
  have ht := hpre.type_eq hp h7
  unfold AtContainer at h
  rw [h] at ht
  rcases majorType_cases b with hb | hb | hb | hb | hb | hb | hb | hb <;> cases isMap <;>
    simp_all [CborMajorTypes.toType, containerMajor]

/-- **`cbor_value_enter_container`**, from the head that is read there. -/
theorem entered (hpre : Preparsed it) (h : AtContainer isMap it) :
    Entered isMap (readCount UINT32_MAX (containerMajor isMap) (itemsPer isMap) it.ptr)
      (cborValueEnterContainer it) := by
  obtain ⟨b, bs, hp⟩ := hpre.ne_nil
  have hm := hpre.major_of_container h hp
  by_cases hi : info b = 31
  · obtain ⟨-, hu⟩ := hpre.open_flags hp hi
    have hread : readCount UINT32_MAX (containerMajor isMap) (itemsPer isMap) it.ptr = some (none, bs) := by
      have ho : isOpen b = true := decide_eq_true hi
      have hopen : readOpen (containerMajor isMap) (b :: bs) = some (b, bs) :=
        if_pos (decide_eq_true (eq_initialByte hm hi))
      simp only [hp, readCount, Reader.choose, ho, if_true, Reader.map, hopen, Option.map_some]
    rw [hread]
    have hreach := entered_of_open h hu
    rw [hp] at hreach
    exact .inside hreach
  · have ho : isOpen b = false := decide_eq_false hi
    have hs := hpre.startsItem
    simp only [hp, Cbor.startsItem, hi, if_false, decide_eq_true_eq] at hs
    obtain ⟨⟨n, rest⟩, harg⟩ := Option.isSome_iff_exists.mp hs.1
    have h7 : major b ≠ 7 := by
      rw [hm]
      unfold containerMajor
      split <;> omega
    have hu := (hpre.number hp h7 harg).2.1
    have hhead : readHead (containerMajor isMap) (b :: bs) = some (n, rest) := by
      simp [readHead, hm, harg]
    simp only [hp, readCount, Reader.choose, ho, Bool.false_eq_true, if_false, Reader.map, Reader.guard, hhead]
    rw [← hp] at harg
    by_cases hn : itemsPer isMap * n < UINT32_MAX
    · rw [Option.filter_some_pos (by simpa using hn)]
      exact .inside (entered_of_known h hu harg hn)
    · rw [Option.filter_some_neg (by simpa using hn), enter_of_tooMany h hu harg hn]
      exact .stopped _

end Containers

/-! ## Items of fixed size -/

section Fixed

variable {isMap : Bool} {count : Option Nat} {k level : Nat} {it : CborValue} {b : UInt8} {bs : List UInt8}

/-- The types of the items that are neither strings nor containers. -/
theorem Preparsed.isFixedType (hpre : Preparsed it) (hp : it.ptr = b :: bs) (hm : ¬(2 ≤ major b ∧ major b ≤ 5)) :
    isFixedType it.type = true := by
  by_cases h7 : major b = 7
  · rcases hpre.type_of_seven hp h7 with ⟨ht, -⟩ | ⟨ht, -⟩
    · rw [ht]; rfl
    · cases hty : it.type <;> simp [hty, CborType.isLiteral] at ht <;> rfl
  · rw [hpre.type_eq hp h7]
    rcases majorType_cases b with h | h | h | h | h | h | h | h <;> simp_all [CborMajorTypes.toType, Cbor.isFixedType]

theorem Preparsed.type_eq_tag (hpre : Preparsed it) (hp : it.ptr = b :: bs) : it.type = .tag ↔ major b = 6 := by
  by_cases h7 : major b = 7
  · rcases hpre.type_of_seven hp h7 with ⟨ht, -⟩ | ⟨ht, -⟩
    · simp [ht, h7]
    · cases hty : it.type <;> simp [hty, CborType.isLiteral] at ht <;> simp [h7]
  · rw [hpre.type_eq hp h7]
    rcases majorType_cases b with h | h | h | h | h | h | h | h <;> simp [h, CborMajorTypes.toType]

/-- `advance_recursive` over an item of fixed size. -/
theorem advanceRecursive_of_readArg {a : Nat} {rest : List UInt8} (hfix : isFixedType it.type = true)
    (ha : readArg it.ptr = some (a, rest)) :
    advanceRecursive level it = preparseNextValue { it with ptr := rest } := by
  have hstr : ¬(it.type = .byteString ∨ it.type = .textString) := by
    rintro (h | h) <;> rw [h] at hfix <;> cases hfix
  rw [advanceRecursive_fixed hfix, advanceInternal, extractNumberAsserted_of_readArg ha, ok_bind]
  exact if_neg hstr

/-- A simple value or a floating-point number ends with its head. -/
theorem readLiteral_of_readArg {a : Nat} {rest : List UInt8} (hm : major b = 7)
    (ha : readArg (b :: bs) = some (a, rest)) (hs : info b = 24 → 32 ≤ beNat (bs.take 1)) :
    ∃ item, readLiteral (b :: bs) = some (item, rest) := by
  have hi := (readArg_isSome.mp (by rw [ha]; rfl : (readArg (b :: bs)).isSome)).1
  simp only [readArg] at ha
  simp only [readLiteral, hm, ne_eq, not_true_eq_false, false_or, if_neg (Nat.not_lt.mpr hi)]
  by_cases h24 : info b < 24
  · rw [if_pos h24] at ha ⊢
    cases ha
    exact ⟨_, rfl⟩
  · rw [if_neg h24] at ha ⊢
    split_ifs at ha with hw
    cases ha
    by_cases h24' : info b = 24
    · rw [h24'] at hw ⊢
      obtain ⟨c, bs, rfl⟩ := List.exists_cons_of_length_pos (l := bs) hw.2
      have hc : 32 ≤ c.toNat := by simpa using hs h24'
      exact ⟨.simple c.toNat, by simp [Reader.letter, hc, argWidth]⟩
    · have hwidth : argWidth (info b) = 2 ^ (info b - 24) := if_neg h24
      rw [if_neg h24', ← hwidth, Reader.take, if_pos hw.2]
      exact ⟨_, rfl⟩

/-- An item of fixed size ends with its head. -/
theorem readLeaf_of_fixed (hs : startsItem (b :: bs) = true) (hm : ¬(2 ≤ major b ∧ major b ≤ 6)) :
    ∃ item a rest, readLeaf (major b) (b :: bs) = some (item, rest) ∧ readArg (b :: bs) = some (a, rest) := by
  have hi : info b ≠ 31 := by
    intro hi
    simp only [startsItem, hi, if_true, decide_eq_true_eq] at hs
    omega
  simp only [startsItem, hi, if_false, decide_eq_true_eq] at hs
  obtain ⟨⟨a, rest⟩, ha⟩ := Option.isSome_iff_exists.mp hs.1
  have hlt := major_lt b
  have hm : major b = 0 ∨ major b = 1 ∨ major b = 7 := by omega
  rcases hm with hm | hm | hm
  · exact ⟨.unsigned a, a, rest, by simp [hm, readLeaf, Reader.map, readHead, ha], ha⟩
  · exact ⟨.negative a, a, rest, by simp [hm, readLeaf, Reader.map, readHead, ha], ha⟩
  · obtain ⟨item, hread⟩ := readLiteral_of_readArg hm ha (hs.2 hm)
    exact ⟨item, a, rest, by rw [hm]; exact hread, ha⟩

end Fixed

/-! ## Advancing over any item -/

section Advance

variable {isMap : Bool} {count : Option Nat} {k level : Nat} {it : CborValue} {b : UInt8} {bs : List UInt8}

theorem readUntagged_leaf {limit d : Nat} (h4 : major b ≠ 4) (h5 : major b ≠ 5) :
    readUntagged limit d (b :: bs) = readLeaf (major b) (b :: bs) := by
  cases d with
  | zero => rfl
  | succ d => simp only [readUntagged, Reader.choose, if_neg h4, if_neg h5]

/-- A container of one more level. -/
theorem readUntagged_container (limit d : Nat) (bs : List UInt8) (hm : major b = containerMajor isMap) :
    ∃ f : List Item → Item, readUntagged limit (d + 1) (b :: bs) =
      (((readCount limit (containerMajor isMap) (itemsPer isMap)).bind
        (readEntries (readItem limit d) isMap)) (b :: bs)).map
        fun r => (f r.1, r.2) := by
  cases isMap with
  | false =>
    have hm : major b = 4 := hm
    exact ⟨.array, by simp only [readUntagged, Reader.choose, hm, if_true]; rfl⟩
  | true =>
    have hm : major b = 5 := hm
    exact ⟨.map, by simp only [readUntagged, Reader.choose, hm, show (5 : Nat) ≠ 4 by omega, if_false, if_true]; rfl⟩

/-- `advance_recursive` over a string. -/
theorem skipped_string (level : Nat) {m : Nat} (hpre : Preparsed it) (h : AtString m it)
    (ha : InContainer isMap count k it) (hlen : it.ptr.length ≤ SIZE_MAX) (f : List UInt8 → Item) :
    Skipped isMap count k ((readString m it.ptr).map fun r => (f r.1, r.2)) (advanceRecursive level it) := by
  obtain ⟨cs, r, hcs, htold⟩ := told_of_string hpre h ha
  have hadv : advanceRecursive level it = r := by
    have hfix : isFixedType it.type = false := by rcases h with ⟨-, ht⟩ | ⟨-, ht⟩ <;> rw [ht] <;> rfl
    have hcont : cborValueIsContainer it = false := by
      rcases h with ⟨-, ht⟩ | ⟨-, ht⟩ <;> simp [cborValueIsContainer, ht]
    have hcopy := copyString_of_chunks h hcs hlen
    cases level <;> cases r <;> simp [advanceRecursive, hfix, hcont, hcopy, Except.map]
  rw [hadv]
  generalize readString m it.ptr = o at htold
  cases htold with
  | all hs hr => exact .moved hr
  | stopped e => exact .stopped e

theorem AtContainer.not_fixed (h : AtContainer isMap it) : isFixedType it.type = false := by
  unfold AtContainer at h
  rw [h]
  cases isMap <;> rfl

theorem AtContainer.ne_tag (h : AtContainer isMap it) : it.type ≠ .tag := by
  unfold AtContainer at h
  rw [h]
  cases isMap <;> simp

theorem containerMajor_lt (isMap : Bool) : containerMajor isMap < 8 := by cases isMap <;> decide

/-- `cbor_value_leave_container` once the loop is at the end of the container. -/
theorem reached_of_leave {isMap' : Bool} {recursed : CborValue} (h : AtContainer isMap' it)
    (ht : recursed.type = .invalid) (ha : InContainer isMap count k it) :
    Reached isMap count (k + 1) recursed.ptr (cborValueLeaveContainer it recursed) := by
  simp only [cborValueLeaveContainer, cborAssert, h.isContainer, ht, decide_true, if_true, ok_bind]
  exact reached_of_next rfl h.ne_tag (ha.moveTo recursed.ptr)

/-- The end of `advance_recursive` over a container, from what the loop gave. -/
theorem skipped_of_finished {isMap' : Bool} {o : Option (List Item × List UInt8)} {s : Except Stop CborValue}
    (h : AtContainer isMap' it) (ha : InContainer isMap count k it) (hfin : Finished (o.map Prod.snd) s)
    (f : List Item → Item) :
    Skipped isMap count k (o.map fun r => (f r.1, r.2)) (s >>= cborValueLeaveContainer it) := by
  cases o with
  | none =>
    cases hfin with
    | stopped e => exact .stopped e
  | some q =>
    obtain ⟨items, rest⟩ := q
    cases hfin with
    | done it' ht => exact .moved (reached_of_leave h ht ha)

/-- `advance_recursive` over a container, if it works for what is inside. -/
theorem skipped_container (hadv : Advances (advanceRecursive level) (readUntagged UINT32_MAX level))
    (hpre : Preparsed it) {isMap' : Bool} (h : AtContainer isMap' it) (ha : InContainer isMap count k it)
    (hlen : it.ptr.length ≤ SIZE_MAX) :
    Skipped isMap count k (readUntagged UINT32_MAX (level + 1) it.ptr) (advanceRecursive (level + 1) it) := by
  obtain ⟨b, bs, hp⟩ := hpre.ne_nil
  have hent := entered hpre h
  have hm := hpre.major_of_container h hp
  obtain ⟨f, hread⟩ := readUntagged_container UINT32_MAX level bs hm
  have hrec : advanceRecursive (level + 1) it = (do
      let recursed ← cborValueEnterContainer it
      let recursed ← advanceItems (advanceRecursive level) (recursed.ptr.length + 1) recursed
      cborValueLeaveContainer it recursed) := by
    simp only [advanceRecursive, h.not_fixed, h.isContainer, Bool.false_eq_true, if_false, Bool.not_true]
  rw [hp] at hent ⊢
  rw [hread, hrec, Reader.bind]
  cases hcount : readCount UINT32_MAX (containerMajor isMap') (itemsPer isMap') (b :: bs) with
  | none =>
    rw [hcount] at hent
    generalize cborValueEnterContainer it = r at hent ⊢
    cases hent with
    | stopped e => exact .stopped e
  | some c =>
    obtain ⟨count', rest⟩ := c
    rw [hcount] at hent
    have hrest : rest.length ≤ SIZE_MAX := by
      obtain ⟨w, -, he⟩ := (reads_readCount (containerMajor_lt isMap')).sound hcount
      rw [hp, he, List.length_append] at hlen
      omega
    generalize cborValueEnterContainer it = r at hent ⊢
    cases hent with
    | inside hreach =>
      rw [Option.bind_some, ← readFrom_zero]
      cases r with
      | error s =>
        exact skipped_of_finished h ha
          (finished_of_reached hadv hreach hrest (Nat.succ_pos 0) fun _ he => by cases he) f
      | ok recursed =>
        exact skipped_of_finished h ha (finished_of_reached hadv hreach hrest (Nat.succ_pos recursed.ptr.length)
          fun _ he => by cases he; exact Nat.lt_succ_self _) f

/-- `advance_recursive` from a tag to the tagged item. -/
theorem reachedTagged_of_advance (level : Nat) {t : Nat} {rest : List UInt8} (hpre : Preparsed it)
    (ha : InContainer isMap count k it) (hhead : readHead 6 it.ptr = some (t, rest)) :
    ReachedTagged isMap count k rest (advanceRecursive level it) := by
  obtain ⟨b, bs, hp⟩ := hpre.ne_nil
  rw [hp, readHead, List.head?_cons, Option.map_some] at hhead
  split_ifs at hhead with hm
  have hm : major b = 6 := Option.some.inj hm
  rw [← hp] at hhead
  rw [advanceRecursive_of_readArg (hpre.isFixedType hp (by omega)) hhead]
  exact reachedTagged_of_next rfl ((hpre.type_eq_tag hp).mpr hm) (ha.moveTo rest)

/-- `advance_recursive` over an item that is neither a container nor a tag. -/
theorem skipped_leaf (hpre : Preparsed it) (ha : InContainer isMap count k it) (hlen : it.ptr.length ≤ SIZE_MAX)
    (hp : it.ptr = b :: bs) (h4 : major b ≠ 4) (h5 : major b ≠ 5) (h6 : major b ≠ 6) :
    Skipped isMap count k (readUntagged UINT32_MAX level it.ptr) (advanceRecursive level it) := by
  rw [hp, readUntagged_leaf h4 h5]
  by_cases hstr : major b = 2 ∨ major b = 3
  · have ht := hpre.type_eq hp (by omega)
    rcases hstr with hm | hm
    · have hs : AtString 2 it := .inl ⟨rfl, ht.trans (toType_byteString.mpr hm)⟩
      have hskip := skipped_string level hpre hs ha hlen .bytes
      rw [hp] at hskip
      rw [hm]
      exact hskip
    · have hs : AtString 3 it := .inr ⟨rfl, ht.trans (toType_textString.mpr hm)⟩
      have hskip := skipped_string level hpre hs ha hlen .text
      rw [hp] at hskip
      rw [hm]
      exact hskip
  · have hstart := hpre.startsItem
    rw [hp] at hstart
    obtain ⟨item, a, rest, hread, harg⟩ := readLeaf_of_fixed hstart (by omega)
    rw [← hp] at harg
    rw [hread, advanceRecursive_of_readArg (hpre.isFixedType hp (by omega)) harg]
    exact .moved (reached_of_next rfl (fun ht => h6 ((hpre.type_eq_tag hp).mp ht)) (ha.moveTo rest))

theorem Preparsed.atContainer (hpre : Preparsed it) (hp : it.ptr = b :: bs) (h : major b = 4 ∨ major b = 5) :
    AtContainer (decide (major b = 5)) it := by
  have ht := hpre.type_eq hp (by omega)
  unfold AtContainer
  rw [ht]
  rcases h with h | h <;> rcases majorType_cases b with hb | hb | hb | hb | hb | hb | hb | hb <;>
    simp_all [CborMajorTypes.toType]

theorem readHead_of_ne {m : Nat} (hm : major b ≠ m) : readHead m (b :: bs) = none :=
  if_neg fun h => hm (Option.some.inj h)

/-- Where no tag is read, none stands. -/
theorem Preparsed.major_ne_six (hpre : Preparsed it) (hp : it.ptr = b :: bs) (h : readHead 6 it.ptr = none) :
    major b ≠ 6 := by
  intro hm
  obtain ⟨n, rest, hr⟩ := hpre.readArg_of_fixed hp (by omega)
  rw [hp, readHead, List.head?_cons, Option.map_some, hm, if_pos rfl, hr] at h
  cases h

/-- Only containers depend on the level. -/
theorem advances_of_container (hcont : ∀ {isMap count k it isMap'}, Preparsed it → AtContainer isMap' it →
      InContainer isMap count k it → it.ptr.length ≤ SIZE_MAX →
      Skipped isMap count k (readUntagged UINT32_MAX level it.ptr) (advanceRecursive level it)) :
    Advances (advanceRecursive level) (readUntagged UINT32_MAX level) := by
  refine ⟨fun {isMap count k it} hpre ha hlen hhead => ?_, reachedTagged_of_advance level⟩
  obtain ⟨b, bs, hp⟩ := hpre.ne_nil
  by_cases hc : major b = 4 ∨ major b = 5
  · exact hcont hpre (hpre.atContainer hp hc) ha hlen
  · exact skipped_leaf hpre ha hlen hp (by omega) (by omega) (hpre.major_ne_six hp hhead)

/-- **`advance_recursive`** moves over the items with at most `level` containers inside each other. -/
theorem advances (level : Nat) : Advances (advanceRecursive level) (readUntagged UINT32_MAX level) := by
  induction level with
  | zero =>
    refine advances_of_container fun {isMap count k it isMap'} hpre h ha hlen => ?_
    obtain ⟨b, bs, hp⟩ := hpre.ne_nil
    have hnone : readUntagged UINT32_MAX 0 it.ptr = none := by
      rw [hp, readUntagged, Reader.choose, hpre.major_of_container h hp]
      cases isMap' <;> rfl
    rw [hnone]
    simp only [advanceRecursive, h.not_fixed, h.isContainer, Bool.false_eq_true, if_false, Bool.not_true]
    exact .stopped _
  | succ level ih => exact advances_of_container fun hpre h ha hlen => skipped_container ih hpre h ha hlen

end Advance

end Libcp2p.Cbor
