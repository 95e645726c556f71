import Libcp2p.Cbor.Validate

/-!
# Looking a key up in a map

`cbor_value_map_find_value` walks over the entries of a map and compares each key that is a text string, chunk by
chunk, with the text it looks for. Its result is that of a search in the list of the entries (`findText`), for every
well-formed map with at most `maxRecursions` containers inside each other in its keys and values, and it stands where
the value begins in the bytes of the map (`mapFindValue_spec`).
-/

namespace Libcp2p.Cbor

/-! ## Comparing a string -/

section Compare

variable {string : List UInt8} {it : CborValue}

/-- Comparing one more chunk. -/
theorem compare_chunk (seen chunk : List UInt8) :
    compareChunk string seen.length (decide (seen <+: string)) chunk = .ok (decide (seen ++ chunk <+: string)) := by
  unfold compareChunk
  by_cases h : seen <+: string ∧ seen.length + chunk.length ≤ string.length
  · obtain ⟨⟨tail, rfl⟩, hl⟩ := h
    rw [List.length_append] at hl
    have hl : chunk.length ≤ tail.length := by omega
    have hdrop : ((seen ++ tail) ++ [0]).drop seen.length = tail ++ [0] := by simp
    have hcmp := memcmpEq_of_le (a := tail ++ [0]) (b := chunk) (n := chunk.length) (by simp; omega) (Nat.le_refl _)
    rw [List.take_append_of_le_length hl, List.take_length] at hcmp
    have hiff : tail.take chunk.length = chunk ↔ seen ++ chunk <+: seen ++ tail := by
      rw [List.prefix_append_right_inj, List.prefix_iff_eq_take, eq_comm]
    rw [if_pos (by simp [hl]), hdrop, hcmp]
    simp only [Except.mapError, hiff]
  · have hnot : ¬seen ++ chunk <+: string := by
      intro hpre
      refine h ⟨(List.prefix_append _ _).trans hpre, ?_⟩
      have := hpre.length_le
      rwa [List.length_append] at this
    rw [if_neg (by simpa using h), decide_eq_false hnot]

/-- Comparing what comes after the last chunk: a C string has its NUL at its end only. -/
theorem compare_end (h0 : 0 ∉ string) (seen : List UInt8) :
    compareNul string seen.length (decide (seen <+: string)) = .ok (decide (seen = string)) := by
  unfold compareNul
  by_cases hseen : seen <+: string
  · obtain ⟨tail, rfl⟩ := hseen
    cases tail with
    | nil => simp
    | cons c tail =>
      have hc : c ≠ 0 := by
        rintro rfl
        exact h0 (by simp)
      simp [memcmpEq, hc, Except.mapError]
  · have hne : seen ≠ string := by
      rintro rfl
      exact hseen (List.prefix_refl _)
    simp [hseen, hne]

/-- The loop of `iterate_string_chunks` with `iterate_memcmp`. -/
theorem compareStringChunksLoop_of_chunks {cs : List (List UInt8)} {r : Except Stop CborValue} (h : Chunks it cs r)
    (h0 : 0 ∉ string) {fuel : Nat} (hf : cs.length < fuel) {seen : List UInt8}
    (hlen : seen.length + cs.flatten.length ≤ SIZE_MAX) :
    compareStringChunksLoop string fuel it seen.length (decide (seen <+: string)) =
      r.map fun next => (decide (seen ++ cs.flatten = string), next) := by
  induction h generalizing fuel seen with
  | @last it r h =>
    obtain ⟨fuel, rfl⟩ : ∃ f, fuel = f + 1 := ⟨fuel - 1, by omega⟩
    simp only [compareStringChunksLoop, h]
    cases r with
    | error e => rfl
    | ok next => simp only [Except.map, ok_bind, compare_end h0, pure_eq_ok, List.flatten_nil, List.append_nil]
  | @more it next c cs r h hs ih =>
    obtain ⟨fuel, rfl⟩ : ∃ f, fuel = f + 1 := ⟨fuel - 1, by omega⟩
    simp only [List.flatten_cons, List.length_append, List.length_cons] at hlen hf
    have hle : ¬seen.length + c.length > SIZE_MAX := by omega
    simp only [compareStringChunksLoop, h, ok_bind, if_neg hle, compare_chunk]
    rw [← List.length_append, ih (by omega) (by rw [List.length_append]; omega), List.append_assoc, List.flatten_cons]

/-- `iterate_string_chunks` with `iterate_memcmp` tells whether the chunks make up the string. -/
theorem compareStringChunks_of_chunks {m : Nat} {cs : List (List UInt8)} {r : Except Stop CborValue}
    (hs : AtString m it) (h : Chunks it cs r) (h0 : 0 ∉ string) (hlen : it.ptr.length ≤ SIZE_MAX) :
    compareStringChunks string it = r.map fun next => (decide (cs.flatten = string), next) := by
  have hle := h.length_le
  have hstr : (cborValueIsByteString it || cborValueIsTextString it) = true := by
    rcases hs with ⟨-, ht⟩ | ⟨-, ht⟩ <;> simp [cborValueIsByteString, cborValueIsTextString, ht]
  simp only [compareStringChunks, cborAssert, hstr, if_true, ok_bind]
  have hloop := compareStringChunksLoop_of_chunks h h0 (show cs.length < it.ptr.length + 2 by omega)
    (show ([] : List UInt8).length + cs.flatten.length ≤ SIZE_MAX by rw [List.length_nil]; omega)
  simpa using hloop

end Compare

/-! ## Keys -/

/-- The item is the text `string`. -/
def Item.isText (string : List UInt8) : Item → Bool
  | .text s => s = string
  | _ => false

/-- The value of the first key that is the text `string`, with tags or without. -/
def findText (string : List UInt8) : List Item → Option Item
  | key :: value :: entries => if key.untag.isText string then some value else findText string entries
  | _ => none

section Keys

variable {string : List UInt8} {isMap : Bool} {count : Option Nat} {k : Nat} {it : CborValue} {key : Item}
  {rest : List UInt8}

/-- Only strings of major type 3 are text. -/
theorem Untagged.not_text {limit d : Nat} {item : Item} {w : List UInt8} (h : Untagged limit d item w)
    (hw : w.head?.map major ≠ some 3) : item.isText string = false := by
  have hleaf : ∀ {m}, Leaf m item w → item.isText string = false := by
    intro m h
    cases h with
    | text h =>
      obtain ⟨b, v, rfl, hb⟩ := Str.starts (by omega) _ _ h
      exact absurd (congrArg some hb) hw
    | _ => rfl
  cases d with
  | zero =>
    obtain ⟨m, h⟩ := h
    exact hleaf h
  | succ d =>
    obtain ⟨m, h | h⟩ := h
    · exact hleaf h
    · cases h <;> rfl

/-- **A key** is compared with `string` if it is a text, and moved over in any case. -/
theorem mapFindKey_of_item (h0 : 0 ∉ string) (hpre : Preparsed it) (ha : InContainer isMap count k it)
    (hlen : it.ptr.length ≤ SIZE_MAX) (hread : readItem UINT32_MAX maxRecursions it.ptr = some (key, rest)) :
    ∃ r, mapFindKey string it = r.map (fun next => (key.untag.isText string, next)) ∧
      Reached isMap count (k + 1) rest r := by
  have htags := tagsSkipped maxRecursions hpre ha
  unfold mapFindKey
  generalize cborValueSkipTag it = s at htags ⊢
  cases htags with
  | stopped h e =>
    rw [hread] at h
    cases h
  | atItem it' hpre' ha' hle hno hread' =>
    rw [hread, Option.map_some] at hread'
    obtain ⟨b, bs, hp⟩ := hpre'.ne_nil
    rw [ok_bind]
    by_cases ht : it'.type = .textString
    · have hs : AtString 3 it' := .inr ⟨rfl, ht⟩
      have hm := hpre'.major_of_string hs hp
      obtain ⟨cs, r, hcs, htold⟩ := told_of_string hpre' hs ha'
      rw [hp, readUntagged_leaf (by omega) (by omega), hm, readLeaf, Reader.map, ← hp] at hread'
      obtain ⟨⟨s, rest'⟩, hstr, he⟩ := Option.map_eq_some_iff.mp hread'.symm
      obtain ⟨hkey, rfl⟩ := Prod.mk.inj he
      rw [hstr] at htold
      cases htold with
      | all hflat hr =>
        refine ⟨r, ?_, hr⟩
        rw [if_pos (by simp [cborValueIsTextString, ht]), compareStringChunks_of_chunks hs hcs h0 (by omega), ← hkey,
          hflat]
        rfl
    · have hskip := (advances maxRecursions).item hpre' ha' (by omega) hno
      rw [if_neg (by simp [cborValueIsTextString, ht]), cborValueAdvance_of_inContainer hpre' ha']
      obtain ⟨w, hw, hword⟩ := (reads_readUntagged UINT32_MAX maxRecursions).sound hread'.symm
      have hnot : key.untag.isText string = false := by
        refine hw.not_text fun hm => ht ?_
        obtain ⟨c, v, rfl, -⟩ := Untagged.starts UINT32_MAX maxRecursions _ _ hw
        obtain ⟨rfl, -⟩ := List.cons.inj (hp.symm.trans hword)
        have hm : major b = 3 := Option.some.inj hm
        rw [hpre'.type_eq hp (by omega), toType_textString]
        exact hm
      rw [← hread'] at hskip
      generalize advanceRecursive maxRecursions it' = q at hskip ⊢
      cases hskip with
      | moved h =>
        refine ⟨q, ?_, h⟩
        rw [hnot]
        cases q <;> rfl

end Keys

/-! ## The search -/

/-- `ptr` is where the value of the first key that is the text `string` begins, in `bytes`, which hold the entries of a
map one after the other and anything after them. -/
inductive FoundAt (string : List UInt8) (value : Item) : List Item → List UInt8 → List UInt8 → Prop
  | here {key : Item} {entries : List Item} {k v t : List UInt8} (hkey : Encodes UINT32_MAX maxRecursions key k)
      (htext : key.untag.isText string = true) (hvalue : Encodes UINT32_MAX maxRecursions value v) :
      FoundAt string value (key :: value :: entries) (k ++ (v ++ t)) (v ++ t)
  | later {key other : Item} {entries : List Item} {k v t ptr : List UInt8}
      (hkey : Encodes UINT32_MAX maxRecursions key k) (htext : key.untag.isText string = false)
      (hother : Encodes UINT32_MAX maxRecursions other v) (h : FoundAt string value entries t ptr) :
      FoundAt string value (key :: other :: entries) (k ++ (v ++ t)) ptr

/-- The iterator found among the entries of a map, which `bytes` hold: it is ready to read the value, where that
begins, or invalid if no key matches. -/
def FoundIn (string : List UInt8) (entries : List Item) (bytes : List UInt8) (it : CborValue) : Prop :=
  match findText string entries with
  | some value => Preparsed it ∧ FoundAt string value entries bytes it.ptr
  | none => it.type = .invalid

/-- The iterator found in a map that `bytes` begin with, after the head of the map. -/
def PointsTo (string : List UInt8) (entries : List Item) (bytes : List UInt8) (it : CborValue) : Prop :=
  ∃ count h body, Count UINT32_MAX 5 2 count h ∧ bytes = h ++ body ∧ FoundIn string entries body it

theorem foundIn_here {string : List UInt8} {key value : Item} {entries : List Item} {k v t : List UInt8}
    {it : CborValue} (hkey : Encodes UINT32_MAX maxRecursions key k) (htext : key.untag.isText string = true)
    (hvalue : Encodes UINT32_MAX maxRecursions value v) (hpre : Preparsed it) (hptr : it.ptr = v ++ t) :
    FoundIn string (key :: value :: entries) (k ++ (v ++ t)) it := by
  unfold FoundIn
  rw [findText, if_pos htext, hptr]
  exact ⟨hpre, .here hkey htext hvalue⟩

theorem FoundIn.later {string : List UInt8} {key other : Item} {entries : List Item} {k v t : List UInt8}
    {it : CborValue} (h : FoundIn string entries t it) (hkey : Encodes UINT32_MAX maxRecursions key k)
    (htext : key.untag.isText string = false) (hother : Encodes UINT32_MAX maxRecursions other v) :
    FoundIn string (key :: other :: entries) (k ++ (v ++ t)) it := by
  unfold FoundIn at h ⊢
  rw [findText, if_neg (by rw [htext]; decide)]
  cases hfind : findText string entries with
  | none =>
    rw [hfind] at h
    exact h
  | some value =>
    rw [hfind] at h
    exact ⟨h.1, .later hkey htext hother h.2⟩

section Search

variable {string : List UInt8} {count : Option Nat} {k : Nat} {it : CborValue} {entries : List Item}
  {rest after : List UInt8} {r : Except Stop CborValue}

/-- Moving on succeeds as long as the rest of the map is there. -/
theorem Reached.exists_ok (h : Reached true count k rest r)
    (hread : readFrom (readItem UINT32_MAX maxRecursions) true k count rest = some (entries, after)) :
    ∃ it, r = .ok it := by
  cases h with
  | ended hc hh it => exact ⟨it, rfl⟩
  | item hc it => exact ⟨it, rfl⟩
  | stopped hin hs hh e =>
    exfalso
    rcases hh with hc | hh
    · rw [readFrom_of_item shrinks_readItem hin hc (readItem_of_not_starts rfl), readItem_of_not_starts hs] at hread
      cases hread
    · rw [readFrom_of_halfEntry hh] at hread
      cases hread

/-- Between the key and the value of an entry a map does not end. -/
theorem Reached.item_of_value (h : Reached true count k rest (.ok it)) (hk : k % 2 = 1)
    (hcount : ∀ n ∈ count, n % 2 = 0) :
    Preparsed it ∧ it.ptr = rest ∧ InContainer true count k it ∧ ¬closes count k rest := by
  cases h with
  | ended hc hh it ht hr hp =>
    exfalso
    rcases hc with rfl | ⟨rfl, hb⟩
    · have := hcount k rfl
      omega
    · exact hh ⟨rfl, hk, rfl, hb⟩
  | item hc it hp hr ha => exact ⟨hp, hr, ha, hc⟩

/-- The first of the items that are left. -/
theorem readFrom_cons (hin : ∀ n ∈ count, k < n) (hc : ¬closes count k rest)
    (hread : readFrom (readItem UINT32_MAX maxRecursions) true k count rest = some (entries, after)) :
    ∃ item items rest', entries = item :: items ∧ readItem UINT32_MAX maxRecursions rest = some (item, rest') ∧
      readFrom (readItem UINT32_MAX maxRecursions) true (k + 1) count rest' = some (items, after) := by
  rw [readFrom_of_item shrinks_readItem hin hc (readItem_of_not_starts rfl)] at hread
  obtain ⟨⟨item, rest'⟩, hitem, hrest⟩ := Option.bind_eq_some_iff.mp hread
  obtain ⟨⟨items, after'⟩, hitems, he⟩ := Option.map_eq_some_iff.mp hrest
  obtain ⟨rfl, rfl⟩ := Prod.mk.inj he
  exact ⟨item, items, rest', rfl, hitem, hitems⟩

/-- **The loop of `cbor_value_map_find_value`**, from the entries that are left of the map. -/
theorem mapFindValueLoop_of_reached (h0 : 0 ∉ string) (h : Reached true count k rest (.ok it)) (hk : k % 2 = 0)
    (hcount : ∀ n ∈ count, n % 2 = 0) (hlen : rest.length ≤ SIZE_MAX)
    (hread : readFrom (readItem UINT32_MAX maxRecursions) true k count rest = some (entries, after)) {fuel : Nat}
    (hf : it.ptr.length < fuel) :
    ∃ el, mapFindValueLoop string fuel it = .ok el ∧ FoundIn string entries rest el := by
  induction fuel generalizing k rest it entries with
  | zero => omega
  | succ fuel ih =>
    cases h with
    | ended hc hh _ ht hr hp =>
      rw [readFrom_of_closes hc hh] at hread
      obtain ⟨rfl, -⟩ := Prod.mk.inj (Option.some.inj hread)
      have hend : cborValueAtEnd it = true := decide_eq_true hr
      exact ⟨{ it with type := .invalid }, by rw [mapFindValueLoop, if_pos hend], rfl⟩
    | item hc _ hpre hr ha =>
      subst hr
      obtain ⟨key, items, rest₁, rfl, hkey, hread₁⟩ := readFrom_cons ha.inside hc hread
      obtain ⟨r₁, hfind, hreach₁⟩ := mapFindKey_of_item h0 hpre ha hlen hkey
      have hlt₁ := shrinks_readItem _ _ _ hkey
      obtain ⟨it₁, rfl⟩ := hreach₁.exists_ok hread₁
      obtain ⟨hpre₁, rfl, ha₁, hc₁⟩ := hreach₁.item_of_value (by omega) hcount
      obtain ⟨value, items, rest₂, rfl, hvalue, hread₂⟩ := readFrom_cons ha₁.inside hc₁ hread₁
      have hlt₂ := shrinks_readItem _ _ _ hvalue
      obtain ⟨u, hu, hword₁⟩ := (reads_readItem UINT32_MAX maxRecursions).sound hkey
      obtain ⟨v, hv, hword₂⟩ := (reads_readItem UINT32_MAX maxRecursions).sound hvalue
      rw [hword₁, hword₂]
      simp only [mapFindValueLoop, ha.not_atEnd, Bool.false_eq_true, if_false, hfind, Except.map, ok_bind]
      cases htext : key.untag.isText string with
      | true =>
        simp only [if_true]
        exact ⟨it₁, hpre₁, foundIn_here hu htext hv hpre₁ hword₂⟩
      | false =>
        simp only [Bool.false_eq_true, if_false]
        have hskip := skipped_item hpre₁ ha₁ (by omega)
        rw [← bind_assoc]
        generalize (cborValueSkipTag it₁ >>= cborValueAdvance) = r at hskip ⊢
        rw [hvalue] at hskip
        cases hskip with
        | moved hreach₂ =>
          obtain ⟨it₂, rfl⟩ := hreach₂.exists_ok hread₂
          have hle := hreach₂.length_le rfl
          obtain ⟨el, hloop, hfound⟩ := ih hreach₂ (by omega) (by omega) hread₂ (by omega)
          exact ⟨el, hloop, hfound.later hu htext hv⟩

/-- **`cbor_value_map_find_value`** at any well-formed map. -/
theorem mapFindValue_of_map (h0 : 0 ∉ string) (hpre : Preparsed it) (ht : it.type = .map)
    (hlen : it.ptr.length ≤ SIZE_MAX)
    (hread : readMap UINT32_MAX (readItem UINT32_MAX maxRecursions) it.ptr = some (entries, after)) :
    ∃ el, cborValueMapFindValue it string = .ok el ∧ PointsTo string entries it.ptr el := by
  obtain ⟨⟨count, rest⟩, hcount, hrest⟩ := Option.bind_eq_some_iff.mp hread
  have hat : AtContainer true it := ht
  have hent := entered hpre hat
  rw [show readCount UINT32_MAX (containerMajor true) (itemsPer true) it.ptr = some (count, rest) from hcount] at hent
  obtain ⟨w, hw, he⟩ := (reads_readCount (by omega)).sound hcount
  have heven : ∀ n ∈ count, n % 2 = 0 := by
    cases hw with
    | unknown => simp
    | known hh hl => simp
  have hle : rest.length ≤ SIZE_MAX := by
    rw [he, List.length_append] at hlen
    omega
  rw [← readFrom_zero] at hrest
  simp only [cborValueMapFindValue, cborAssert, cborValueIsMap, ht, decide_true, if_true, ok_bind]
  generalize cborValueEnterContainer it = r at hent ⊢
  cases hent with
  | inside hreach =>
    obtain ⟨it', rfl⟩ := hreach.exists_ok hrest
    rw [ok_bind]
    obtain ⟨el, hloop, hfound⟩ := mapFindValueLoop_of_reached h0 hreach rfl heven hle hrest (Nat.lt_succ_self _)
    exact ⟨el, hloop, count, w, rest, hw, he, hfound⟩

/-- The same from `cbor_parser_init` on. -/
theorem mapFindValue_of_init (h0 : 0 ∉ string) {w : List UInt8}
    (hmap : Container UINT32_MAX (Encodes UINT32_MAX maxRecursions) 5 (.map entries) w)
    (hlen : (w ++ rest).length ≤ SIZE_MAX) :
    ∃ it el, cborParserInit (w ++ rest) = .ok it ∧ cborValueMapFindValue it string = .ok el ∧
      PointsTo string entries (w ++ rest) el := by
  have hread := (reads_readMap (reads_readItem UINT32_MAX maxRecursions)
    (Tagged.starts (Untagged.starts UINT32_MAX maxRecursions))).complete hmap rest
  have hinit := reached_of_init (w ++ rest)
  generalize cborParserInit (w ++ rest) = r at hinit ⊢
  cases hinit with
  | ended hc => exact absurd hc (by rintro (h | ⟨h, -⟩) <;> cases h)
  | stopped hin hs =>
    rw [hmap.startsItem] at hs
    cases hs
  | item hc it hpre hr ha =>
    obtain ⟨b, v, rfl, hm, -⟩ := Container.starts 5 _ _ hmap
    have hat := hpre.atContainer hr (.inr hm)
    rw [decide_eq_true hm] at hat
    obtain ⟨el, hfind, hel⟩ := mapFindValue_of_map h0 hpre hat (by rw [hr]; exact hlen) (by rw [hr]; exact hread)
    rw [hr] at hel
    exact ⟨it, el, rfl, hfind, hel⟩

end Search

/-- **Looking a key up** in any well-formed encoding of a map, whatever follows it in the buffer: the iterator returned
stands in the map at the value of the first entry whose key, apart from its tags, is the given text, in one piece or in
chunks; it is invalid if no key matches. -/
theorem mapFindValue_spec {entries : List Item} {w : List UInt8}
    (hmap : Container UINT32_MAX (Encodes UINT32_MAX maxRecursions) 5 (.map entries) w) (rest : List UInt8)
    (hlen : (w ++ rest).length ≤ SIZE_MAX) {string : List UInt8} (h0 : 0 ∉ string) :
    ∃ it el count h body, cborParserInit (w ++ rest) = .ok it ∧ cborValueMapFindValue it string = .ok el ∧
      Count UINT32_MAX 5 2 count h ∧ w ++ rest = h ++ body ∧
      (∀ value, findText string entries = some value →
        el.type ≠ .invalid ∧ Preparsed el ∧ FoundAt string value entries body el.ptr) ∧
      (findText string entries = none → el.type = .invalid) := by
  obtain ⟨it, el, hinit, hfind, count, h, body, hcount, hword, hfound⟩ := mapFindValue_of_init h0 hmap hlen
  refine ⟨it, el, count, h, body, hinit, hfind, hcount, hword, fun value hvalue => ?_, fun hnone => ?_⟩
  · unfold FoundIn at hfound
    rw [hvalue] at hfound
    exact ⟨hfound.1.type_ne_invalid, hfound⟩
  · unfold FoundIn at hfound
    rw [hnone] at hfound
    exact hfound

/-- The second of two entries, with a byte after the map. -/
theorem mapFindValue_spec_second :
    ∃ it el count h body, cborParserInit [0xa2, 0x61, 0x61, 0x07, 0x61, 0x62, 0x08, 0xff] = .ok it ∧
      cborValueMapFindValue it [0x62] = .ok el ∧ Count UINT32_MAX 5 2 count h ∧
      [0xa2, 0x61, 0x61, 0x07, 0x61, 0x62, 0x08, 0xff] = h ++ body ∧ el.type ≠ .invalid ∧ Preparsed el ∧
      FoundAt [0x62] (.unsigned 8) [.text [0x61], .unsigned 7, .text [0x62], .unsigned 8] body el.ptr := by
  have hkey : ∀ c : UInt8, Leaf 3 (.text [c]) [0x61, c] := fun c =>
    .text (.piece (.mk (.short 0x61 rfl (by decide) rfl)))
  have hseven : Leaf 0 (.unsigned 7) [0x07] := .unsigned (.short 0x07 rfl (by decide) rfl)
  have height : Leaf 0 (.unsigned 8) [0x08] := .unsigned (.short 0x08 rfl (by decide) rfl)
  have hmap : Container UINT32_MAX (Encodes UINT32_MAX maxRecursions) 5
      (.map [.text [0x61], .unsigned 7, .text [0x62], .unsigned 8])
      ([0xa2] ++ ([0x61, 0x61] ++ ([0x07] ++ ([0x61, 0x62] ++ ([0x08] ++ []))))) :=
    .map (n := 2) (.short 0xa2 rfl (by decide) rfl) rfl (by decide)
      (.cons (hkey 0x61).encodes (.cons hseven.encodes (.cons (hkey 0x62).encodes (.cons height.encodes .nil))))
  obtain ⟨it, el, count, h, body, hinit, hfind, hcount, hword, hfound, -⟩ := mapFindValue_spec hmap [0xff] (by decide)
    (show (0 : UInt8) ∉ [0x62] by decide)
  exact ⟨it, el, count, h, body, hinit, hfind, hcount, hword, hfound _ rfl⟩

end Libcp2p.Cbor
