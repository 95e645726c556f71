import Libcp2p.Cbor.EncoderRuns
import Libcp2p.Cbor.Find

/-!
# From the encoder to the parser

Every data item has a sequence of calls of the encoder that writes it, container by container, with the length of each
array and map given in advance or left open (`Item.calls`). In a buffer that is large enough these calls return no
error and leave a well-formed encoding (`Valid.written`, `Valid.encodes`), so the parser gets over it and the item can
be read back from it (`encode_parse`), and a key of a map that was encoded is found again (`encode_find`).

The simple value 24 is the one the encoder writes and the parser refuses.
-/

namespace Libcp2p.Cbor

/-! ## Encoding an item -/

/-- An item that can be encoded, with at most `d` containers inside each other. The simple values from 24 to 31 are left
out. -/
inductive Valid (limit : Nat) : Nat → Item → Prop
  | unsigned {d n : Nat} (hn : n < 2 ^ 64) : Valid limit d (.unsigned n)
  | negative {d n : Nat} (hn : n < 2 ^ 64) : Valid limit d (.negative n)
  | bytes {d : Nat} {s : List UInt8} (hs : s.length < 2 ^ 64) : Valid limit d (.bytes s)
  | text {d : Nat} {s : List UInt8} (hs : s.length < 2 ^ 64) : Valid limit d (.text s)
  | simple {d v : Nat} (hv : v < 24 ∨ 32 ≤ v) (hv' : v < 256) : Valid limit d (.simple v)
  | float {d k bits : Nat} (hlo : 1 ≤ k) (hhi : k ≤ 3) (hb : bits < 256 ^ 2 ^ k) : Valid limit d (.float k bits)
  | array {d : Nat} {items : List Item} (hl : items.length < limit) (hi : ∀ item ∈ items, Valid limit d item) :
      Valid limit (d + 1) (.array items)
  | map {d : Nat} {entries : List Item} (hl : entries.length < limit) (hn : entries.length % 2 = 0)
      (hi : ∀ item ∈ entries, Valid limit d item) : Valid limit (d + 1) (.map entries)
  | tag {d t : Nat} {item : Item} (ht : t < 2 ^ 64) (hi : Valid limit d item) : Valid limit d (.tag t item)

section Encode

variable (style : Item → Bool)

mutual

/-- The calls that encode an item; `style` says which containers are left open. -/
def Item.calls : Item → List Call
  | .unsigned n => [.uint (UInt64.ofNat n)]
  | .negative n => [.negativeInt (UInt64.ofNat (n + 1))]
  | .bytes s => [.byteString s]
  | .text s => [.textString s]
  | .array items =>
    .createArray (UInt64.ofNat (if style (.array items) then SIZE_MAX else items.length)) ::
      (callsOf items ++ [.closeContainer])
  | .map entries =>
    .createMap (UInt64.ofNat (if style (.map entries) then SIZE_MAX else entries.length / 2)) ::
      (callsOf entries ++ [.closeContainer])
  | .tag t item => .tag (UInt64.ofNat t) :: item.calls
  | .simple v => [.simpleValue (UInt8.ofNat v)]
  | .float k bits => [.floatingPoint (if k = 1 then .halfFloat else if k = 2 then .float else .double) bits]

/-- The calls that encode the items of a container. -/
def callsOf : List Item → List Call
  | [] => []
  | item :: items => item.calls ++ callsOf items

end

mutual

/-- The bytes of an item with the shortest heads. -/
def Item.encode : Item → List UInt8
  | .unsigned n => head 0 n
  | .negative n => head 1 n
  | .bytes s => head 2 s.length ++ s
  | .text s => head 3 s.length ++ s
  | .array items =>
    if style (.array items) then initialByte 4 31 :: (encodeOf items ++ [breakByte])
    else head 4 items.length ++ encodeOf items
  | .map entries =>
    if style (.map entries) then initialByte 5 31 :: (encodeOf entries ++ [breakByte])
    else head 5 (entries.length / 2) ++ encodeOf entries
  | .tag t item => head 6 t ++ item.encode
  | .simple v => head 7 v
  | .float k bits => initialByte 7 (24 + k) :: beBytes (2 ^ k) bits

/-- The bytes of the items of a container. -/
def encodeOf : List Item → List UInt8
  | [] => []
  | item :: items => item.encode ++ encodeOf items

end

end Encode

/-! ## What is encoded is well formed -/

section WellFormed

variable {limit d : Nat} {item : Item} {w : List UInt8}

/-- The shortest head is a head. -/
theorem head_isHead {m n : Nat} (hm : m < 8) (hn : n < 2 ^ 64) : Head m n (head m n) := by
  obtain ⟨b, bs, hb, hmajor, -, -⟩ := head_cons hm hn
  have hread : readHead m (head m n ++ []) = some (n, []) := by
    rw [readHead, readArg_head hm hn, hb]
    simp [hmajor]
  obtain ⟨w, hw, he⟩ := (reads_readHead m).sound hread
  rwa [List.append_cancel_right he]

/-- A simple value has its shortest head as its encoding. -/
theorem leaf_simple {v : Nat} (hv : v < 24 ∨ 32 ≤ v) (hv' : v < 256) : Leaf 7 (.simple v) (head 7 v) := by
  rcases hv with hv | hv
  · have hhead : head 7 v = [initialByte 7 v] := by simp [head, widthCode, hv]
    exact hhead ▸ .simple hv
  · have hnat : (UInt8.ofNat v).toNat = v := by rw [UInt8.toNat_ofNat', Nat.mod_eq_of_lt hv']
    have hhead : head 7 v = [initialByte 7 24, UInt8.ofNat v] := by
      simp [head, widthCode, show ¬v < 24 by omega, show v ≤ 0xff by omega, beBytes]
    have hleaf := Leaf.simpleByte (c := UInt8.ofNat v) (by omega)
    rwa [hnat, ← hhead] at hleaf

theorem words_encodeOf {style : Item → Bool} {items : List Item}
    (h : ∀ item ∈ items, Encodes limit d item (item.encode style)) :
    Words (Encodes limit d) items (encodeOf style items) := by
  induction items with
  | nil => exact .nil
  | cons item items ih =>
    rw [encodeOf]
    exact .cons (h item (List.mem_cons_self ..)) (ih fun i hi => h i (List.mem_cons_of_mem _ hi))

theorem container_map {style : Item → Bool} {entries : List Item} (hl : entries.length < limit)
    (hn : entries.length % 2 = 0) (hlim : limit ≤ 2 ^ 64)
    (h : ∀ item ∈ entries, Encodes limit d item (item.encode style)) :
    Container limit (Encodes limit d) 5 (.map entries) (Item.encode style (.map entries)) := by
  have hwords := words_encodeOf h
  rw [Item.encode]
  split_ifs
  · exact .openMap hn hwords
  · exact .map (head_isHead (by omega) (by omega)) (by omega) hl hwords

/-- **What is encoded is well formed**, whichever containers are left open. -/
theorem Valid.encodes (h : Valid limit d item) (style : Item → Bool) (hlim : limit ≤ 2 ^ 64) :
    Encodes limit d item (item.encode style) := by
  induction h with
  | unsigned hn => exact (Leaf.unsigned (head_isHead (by omega) hn)).encodes
  | negative hn => exact (Leaf.negative (head_isHead (by omega) hn)).encodes
  | bytes hs => exact (Leaf.bytes (.piece (.mk (head_isHead (by omega) hs)))).encodes
  | text hs => exact (Leaf.text (.piece (.mk (head_isHead (by omega) hs)))).encodes
  | simple hv hv' => exact (leaf_simple hv hv').encodes
  | @float d k bits hlo hhi hb =>
    have hleaf := Leaf.float hlo hhi (length_beBytes (2 ^ k) bits)
    rw [beNat_beBytes hb] at hleaf
    exact hleaf.encodes
  | @array d items hl hi ih =>
    have hwords := words_encodeOf ih
    rw [Item.encode]
    split_ifs
    · exact (Container.openArray hwords).encodes
    · exact (Container.array (head_isHead (by omega) (by omega)) hl hwords).encodes
  | map hl hn hi ih => exact (container_map hl hn hlim ih).encodes
  | tag ht hi ih => exact .wrap (head_isHead (by omega) ht) ih

end WellFormed

/-! ## What the calls do to a document -/

/-- The calls lead from one document to the other, and return no error if everything fits. -/
def Document.Runs (size : Nat) (doc : Document) (calls : List Call) (doc' : Document) : Prop :=
  ∃ errs, Document.run size calls doc = some (errs, doc') ∧ doc.bytes.length ≤ doc'.bytes.length ∧
    (doc'.bytes.length ≤ size → ∀ err ∈ errs, err = none)

section Runs

variable {size : Nat} {doc doc₁ doc₂ : Document} {calls calls' : List Call}

theorem Document.run_append (calls calls' : List Call) (doc : Document) :
    Document.run size (calls ++ calls') doc = (Document.run size calls doc).bind fun r =>
      (Document.run size calls' r.2).map fun s => (r.1 ++ s.1, s.2) := by
  induction calls generalizing doc with
  | nil =>
    simp only [List.nil_append, Document.run, Option.bind_some]
    cases Document.run size calls' doc <;> rfl
  | cons call calls ih =>
    simp only [List.cons_append, Document.run, ih]
    cases doc.step size call with
    | none => rfl
    | some r =>
      simp only [Option.bind_some]
      cases Document.run size calls r.2 with
      | none => rfl
      | some s =>
        simp only [Option.bind_some, Option.map_some]
        cases Document.run size calls' s.2 <;> rfl

theorem Document.Runs.append (h : doc.Runs size calls doc₁) (h' : doc₁.Runs size calls' doc₂) :
    doc.Runs size (calls ++ calls') doc₂ := by
  obtain ⟨errs, hrun, hle, herrs⟩ := h
  obtain ⟨errs', hrun', hle', herrs'⟩ := h'
  refine ⟨errs ++ errs', by rw [Document.run_append, hrun, Option.bind_some, hrun']; rfl, by omega, ?_⟩
  intro hsize err herr
  rcases List.mem_append.mp herr with herr | herr
  · exact herrs (by omega) err herr
  · exact herrs' hsize err herr

/-- One call that returns no error unless the buffer is exhausted. -/
theorem Document.Runs.one {call : Call} (h : doc.step size call = some (outOfMemory size doc₁.bytes, doc₁))
    (hle : doc.bytes.length ≤ doc₁.bytes.length) : doc.Runs size [call] doc₁ := by
  refine ⟨[outOfMemory size doc₁.bytes], by rw [Document.run, h]; rfl, hle, ?_⟩
  intro hsize err herr
  rw [List.mem_singleton.mp herr, outOfMemory, if_neg (by omega)]

theorem toNat_ofNat {n : Nat} (h : n ≤ SIZE_MAX) : (UInt64.ofNat n).toNat = n := by
  rw [UInt64.toNat_ofNat']
  exact Nat.mod_eq_of_lt (by unfold SIZE_MAX at h; omega)

theorem toUInt64_pred {n : Nat} (h : n < 2 ^ 64) : toUInt64 ((UInt64.ofNat (n + 1)).toNat - 1) = n := by
  rw [UInt64.toNat_ofNat']
  unfold toUInt64
  omega

/-- The items of a container are counted. -/
theorem runs_callsOf {style : Item → Bool} {items : List Item}
    (h : ∀ item ∈ items, ∀ doc : Document, doc.Runs size (item.calls style) (doc.item (item.encode style)))
    (bytes : List UInt8) (expected : Option Nat) (k : Nat) (frames : List Frame) :
    Document.Runs size ⟨bytes, ⟨expected, k⟩ :: frames⟩ (callsOf style items)
      ⟨bytes ++ encodeOf style items, ⟨expected, k + items.length⟩ :: frames⟩ := by
  induction items generalizing bytes k with
  | nil =>
    rw [callsOf, encodeOf, List.append_nil]
    exact ⟨[], rfl, Nat.le_refl _, by simp⟩
  | cons item items ih =>
    have hitem := h item (List.mem_cons_self ..) ⟨bytes, ⟨expected, k⟩ :: frames⟩
    have hrest := ih (fun i hi => h i (List.mem_cons_of_mem _ hi)) (bytes ++ item.encode style) (k + 1)
    have hk : k + 1 + items.length = k + (item :: items).length := by rw [List.length_cons]; omega
    rw [callsOf, encodeOf, ← List.append_assoc, ← hk]
    exact hitem.append hrest

theorem runs_close_known (bytes : List UInt8) (n : Nat) (frames : List Frame) :
    Document.Runs size ⟨bytes, ⟨some n, n⟩ :: frames⟩ [.closeContainer] ⟨bytes, frames⟩ :=
  .one (by simp [Document.step]) (Nat.le_refl _)

theorem runs_close_open (bytes : List UInt8) (k : Nat) (frames : List Frame) :
    Document.Runs size ⟨bytes, ⟨none, k⟩ :: frames⟩ [.closeContainer] ⟨bytes ++ [breakByte], frames⟩ :=
  .one rfl (by simp)

/-- A container is created, its items are encoded, and it is closed. -/
theorem runs_container {style : Item → Bool} {items : List Item}
    (h : ∀ item ∈ items, ∀ doc : Document, doc.Runs size (item.calls style) (doc.item (item.encode style)))
    {create : Call} {w : List UInt8} {expected : Option Nat}
    (hcreate : doc.step size create = some (outOfMemory size (doc.create w expected).bytes, doc.create w expected))
    (hclose : Document.Runs size
      ⟨doc.bytes ++ w ++ encodeOf style items, ⟨expected, items.length⟩ :: countItem doc.frames⟩
      [.closeContainer] doc₁) :
    doc.Runs size (create :: (callsOf style items ++ [.closeContainer])) doc₁ := by
  have hitems := runs_callsOf h (doc.bytes ++ w) expected 0 (countItem doc.frames)
  rw [Nat.zero_add] at hitems
  exact (Document.Runs.one hcreate (by simp [Document.create])).append (hitems.append hclose)

/-- A container whose number of items is known. -/
theorem runs_known {style : Item → Bool} {items : List Item}
    (h : ∀ item ∈ items, ∀ doc : Document, doc.Runs size (item.calls style) (doc.item (item.encode style)))
    {create : Call} {w : List UInt8}
    (hcreate : doc.step size create =
      some (outOfMemory size (doc.bytes ++ w), doc.create w (some items.length))) :
    doc.Runs size (create :: (callsOf style items ++ [.closeContainer])) (doc.item (w ++ encodeOf style items)) := by
  rw [Document.item, ← List.append_assoc]
  exact runs_container h hcreate (runs_close_known _ _ _)

/-- A container that ends with a break. -/
theorem runs_open {style : Item → Bool} {items : List Item}
    (h : ∀ item ∈ items, ∀ doc : Document, doc.Runs size (item.calls style) (doc.item (item.encode style)))
    {create : Call} {b : UInt8}
    (hcreate : doc.step size create = some (outOfMemory size (doc.bytes ++ [b]), doc.create [b] none)) :
    doc.Runs size (create :: (callsOf style items ++ [.closeContainer]))
      (doc.item (b :: (encodeOf style items ++ [breakByte]))) := by
  have happend : doc.bytes ++ b :: (encodeOf style items ++ [breakByte]) =
      doc.bytes ++ [b] ++ encodeOf style items ++ [breakByte] := by
    simp only [List.append_assoc, List.cons_append, List.nil_append]
  rw [Document.item, happend]
  exact runs_container h hcreate (runs_close_open _ _ _)

theorem runs_item {call : Call} {w : List UInt8}
    (h : doc.step size call = some (outOfMemory size (doc.bytes ++ w), doc.item w)) :
    doc.Runs size [call] (doc.item w) :=
  .one h (by simp [Document.item])

theorem step_createArray {n : Nat} (h : n ≤ SIZE_MAX) :
    doc.step size (.createArray (UInt64.ofNat n)) = some (outOfMemory size (doc.bytes ++ containerHead 4 n),
      doc.create (containerHead 4 n) (if n = SIZE_MAX then none else some n)) := by
  rw [Document.step, toNat_ofNat h]
  rfl

theorem step_createMap {n : Nat} (h : n = SIZE_MAX ∨ n ≤ SIZE_MAX / 2) :
    doc.step size (.createMap (UInt64.ofNat n)) = some (outOfMemory size (doc.bytes ++ containerHead 5 n),
      doc.create (containerHead 5 n) (if n = SIZE_MAX then none else some (2 * n))) := by
  have hn : n ≤ SIZE_MAX := h.elim Nat.le_of_eq fun h => h.trans (Nat.div_le_self _ _)
  rw [Document.step, toNat_ofNat hn, if_neg fun hbad => h.elim hbad.1 (Nat.not_le_of_lt hbad.2)]
  rfl

/-- **The calls for an item** add its bytes to the document, and count as one item. -/
theorem Valid.runs {limit d : Nat} {item : Item} (h : Valid limit d item) (style : Item → Bool)
    (hlim : limit ≤ SIZE_MAX) (size : Nat) (doc : Document) :
    doc.Runs size (item.calls style) (doc.item (item.encode style)) := by
  induction h generalizing doc with
  | @unsigned d n hn =>
    have hcall : doc.Runs size [.uint (UInt64.ofNat n)] (doc.item (head 0 (UInt64.ofNat n).toNat)) := runs_item rfl
    rwa [toNat_ofNat (by unfold SIZE_MAX; omega)] at hcall
  | @negative d n hn =>
    have hcall : doc.Runs size [.negativeInt (UInt64.ofNat (n + 1))]
      (doc.item (head 1 (toUInt64 ((UInt64.ofNat (n + 1)).toNat - 1)))) := runs_item rfl
    rwa [toUInt64_pred hn] at hcall
  | bytes hs => exact runs_item rfl
  | text hs => exact runs_item rfl
  | @simple d v hv hv' =>
    have hnat : (UInt8.ofNat v).toNat = v := by rw [UInt8.toNat_ofNat', Nat.mod_eq_of_lt hv']
    refine runs_item ?_
    rw [Document.step, if_neg (by rw [hnat]; omega), Document.encode, hnat]
    rfl
  | @float d k bits hlo hhi hb =>
    have hk : k = 1 ∨ k = 2 ∨ k = 3 := by omega
    rcases hk with rfl | rfl | rfl <;> exact runs_item rfl
  | @array d items hl hi ih =>
    rw [Item.calls, Item.encode]
    split_ifs with hs
    · exact runs_open ih (by rw [step_createArray (Nat.le_refl _), containerHead, if_pos rfl, if_pos rfl])
    · have hne : items.length ≠ SIZE_MAX := by omega
      exact runs_known ih (by rw [step_createArray (by omega), containerHead, if_neg hne, if_neg hne])
  | @map d entries hl hn hi ih =>
    rw [Item.calls, Item.encode]
    split_ifs with hs
    · exact runs_open ih (by rw [step_createMap (.inl rfl), containerHead, if_pos rfl, if_pos rfl])
    · have hle : entries.length / 2 ≤ SIZE_MAX / 2 := by omega
      have hne : entries.length / 2 ≠ SIZE_MAX := by omega
      have htwice : 2 * (entries.length / 2) = entries.length := by omega
      exact runs_known ih (by rw [step_createMap (.inr hle), containerHead, if_neg hne, if_neg hne, htwice])
  | @tag d t item ht hi ih =>
    have htag : doc.Runs size [.tag (UInt64.ofNat t)] ⟨doc.bytes ++ head 6 (UInt64.ofNat t).toNat, doc.frames⟩ :=
      .one rfl (by simp)
    rw [toNat_ofNat (by unfold SIZE_MAX; omega)] at htag
    have hrun := htag.append (ih ⟨doc.bytes ++ head 6 t, doc.frames⟩)
    rwa [Document.item, List.append_assoc] at hrun

/-- In a buffer that is large enough the calls for an item return no error and leave its bytes. -/
theorem Valid.written {limit d : Nat} {item : Item} (h : Valid limit d item) (style : Item → Bool)
    (hlim : limit ≤ SIZE_MAX) (hsize : (item.encode style).length ≤ size) (hbuf : size < 2 ^ 63) :
    ∃ errs e, runCalls (item.calls style) [cborEncoderInit size] = some (errs, [e]) ∧ (∀ err ∈ errs, err = none) ∧
      e.written = item.encode style := by
  obtain ⟨errs, hrun, -, herrs⟩ := h.runs style hlim size ⟨[], []⟩
  obtain ⟨es, hcalls, hf⟩ := runCalls_refines hbuf (.outermost (writes_init size)) hrun (Nat.lt_of_le_of_lt hsize hbuf)
  cases hf with
  | outermost hw => exact ⟨errs, _, hcalls, herrs hsize, hw.written_eq hsize⟩

end Runs

/-- **From the encoder to the parser**: the calls that encode an item return no error if the buffer is large enough,
and what they write reads as the item again, whichever containers are left open; the parser accepts it and stops after
it. -/
theorem encode_parse {item : Item} (hv : Valid UINT32_MAX maxRecursions item) (style : Item → Bool) {size : Nat}
    (hsize : (item.encode style).length ≤ size) (hbuf : size < 2 ^ 63) (rest : List UInt8)
    (hlen : (item.encode style ++ rest).length ≤ SIZE_MAX) :
    ∃ errs e it, runCalls (item.calls style) [cborEncoderInit size] = some (errs, [e]) ∧ (∀ err ∈ errs, err = none) ∧
      readItem UINT32_MAX maxRecursions (e.written ++ rest) = some (item, rest) ∧
      parseOne (e.written ++ rest) = .ok it ∧ it.ptr = rest := by
  obtain ⟨errs, e, hrun, herrs, hwritten⟩ := hv.written style (by decide) hsize hbuf
  have hread := (reads_readItem UINT32_MAX maxRecursions).complete (hv.encodes style (by decide)) rest
  rw [← hwritten] at hread hlen
  rcases parseOne_eq hlen with ⟨item', rest', it, hread', hp, -, hptr⟩ | ⟨hnone, -⟩
  · obtain ⟨rfl, rfl⟩ := Prod.mk.inj (Option.some.inj (hread.symm.trans hread'))
    exact ⟨errs, e, it, hrun, herrs, hread, hp, hptr⟩
  · cases hread.symm.trans hnone

/-- A tagged array in an array, both left open. -/
theorem encode_parse_tagged : ∃ errs e it,
    runCalls (Item.calls (fun _ => true) (.array [.negative 499, .tag 24 (.array [])]))
      [cborEncoderInit 16] = some (errs, [e]) ∧
    (∀ err ∈ errs, err = none) ∧
    readItem UINT32_MAX maxRecursions (e.written ++ [0xff]) =
      some (.array [.negative 499, .tag 24 (.array [])], [0xff]) ∧
    parseOne (e.written ++ [0xff]) = .ok it ∧ it.ptr = [0xff] := by
  have hvalid : Valid UINT32_MAX maxRecursions (.array [.negative 499, .tag 24 (.array [])]) := by
    refine .array (d := 1023) (by decide) ?_
    simp only [List.forall_mem_cons, List.not_mem_nil, false_implies, implies_true, and_true]
    exact ⟨.negative (by decide), .tag (by decide) (.array (d := 1022) (by decide) (by simp))⟩
  exact encode_parse hvalid (fun _ => true) (by decide) (by decide) [0xff] (by decide)

/-- Why the simple values from 24 on are left out. -/
example : ∃ e, runCalls [.simpleValue 24] [cborEncoderInit 2] = some ([none], [e]) ∧
    parseOne e.written = .error (.err .illegalSimpleType) := ⟨_, rfl, rfl⟩

/-- **From the encoder to a lookup**: in a map that the encoder has written, `cbor_value_map_find_value` finds the
value of the first entry with the given text as its key, with tags or without, and nothing if there is none. -/
theorem encode_find {entries : List Item} (hv : Valid UINT32_MAX (maxRecursions + 1) (.map entries))
    (style : Item → Bool) {size : Nat} (hsize : (Item.encode style (.map entries)).length ≤ size)
    (hbuf : size < 2 ^ 63) (rest : List UInt8)
    (hlen : (Item.encode style (.map entries) ++ rest).length ≤ SIZE_MAX) {string : List UInt8} (h0 : 0 ∉ string) :
    ∃ errs e it el, runCalls (Item.calls style (.map entries)) [cborEncoderInit size] = some (errs, [e]) ∧
      (∀ err ∈ errs, err = none) ∧ cborParserInit (e.written ++ rest) = .ok it ∧
      cborValueMapFindValue it string = .ok el ∧ PointsTo string entries (e.written ++ rest) el := by
  obtain ⟨errs, e, hrun, herrs, hwritten⟩ := hv.written style (by decide) hsize hbuf
  cases hv with
  | map hl hn hi =>
    have hmap := container_map hl hn (by decide) fun item hitem => (hi item hitem).encodes style (by decide)
    obtain ⟨it, el, hinit, hfind, hel⟩ := mapFindValue_of_init h0 hmap hlen
    rw [← hwritten] at hinit hel
    exact ⟨errs, e, it, el, hrun, herrs, hinit, hfind, hel⟩

/-- The second of two entries, in a map that is left open. -/
theorem encode_find_second : ∃ errs e it el,
    runCalls (Item.calls (fun _ => true) (.map [.text [0x61], .unsigned 1, .text [0x62], .array []]))
      [cborEncoderInit 16] = some (errs, [e]) ∧
    (∀ err ∈ errs, err = none) ∧ cborParserInit (e.written ++ []) = .ok it ∧ cborValueMapFindValue it [0x62] = .ok el ∧
    PointsTo [0x62] [.text [0x61], .unsigned 1, .text [0x62], .array []] (e.written ++ []) el := by
  have hvalid : Valid UINT32_MAX (maxRecursions + 1) (.map [.text [0x61], .unsigned 1, .text [0x62], .array []]) := by
    refine .map (by decide) (by decide) ?_
    simp only [List.forall_mem_cons, List.not_mem_nil, false_implies, implies_true, and_true]
    exact ⟨.text (by decide), .unsigned (by decide), .text (by decide), .array (d := 1023) (by decide) (by simp)⟩
  exact encode_find hvalid (fun _ => true) (by decide) (by decide) [] (by decide) (by decide)

end Libcp2p.Cbor
