import Libcp2p.Cbor.Encoder

/-!
# Runs of the encoder

A document is encoded by calls of the functions of `src/tinycbor/cborencoder.c` one after the other, each on the
encoder of the innermost container that is open. The documentation of the encoder promises that the calls may go on
after the buffer is exhausted, and that the encoder then counts the bytes that are missing.

`Document` says what such a run is to achieve, without a buffer: the bytes of all calls one after the other, and the
number of items in each open container. `Document.step` gives the error a call is to return: out of memory exactly when
the bytes so far are more than the buffer holds, and an error at the end of a container exactly when its items were
miscounted. The encoder does the same on every sequence of calls, with any buffer, as long as the document has fewer
than `2 ^ 63` bytes (`runCalls_refines`): the bytes that are missing are counted in a `ptrdiff_t`.
-/

namespace Libcp2p.Cbor

/-! ## Calls -/

/-- A call of the encoder's functions. Containers are closed in the reverse order of their creation. -/
inductive Call
  | uint (value : UInt64)
  | negativeInt (absoluteValue : UInt64)
  | int (value : Int64)
  | simpleValue (value : UInt8)
  | floatingPoint (fpType : CborType) (value : Nat)
  | tag (t : UInt64)
  | byteString (string : List UInt8)
  | textString (string : List UInt8)
  | createArray (length : UInt64)
  | createMap (length : UInt64)
  | closeContainer

/-- A call of one of the functions that encode an item or a tag. -/
def Call.encode : Call → CborEncoder → Option (Option CborError × CborEncoder)
  | .uint value, e => (cborEncodeUint e value.toNat).toOption
  | .negativeInt value, e => (cborEncodeNegativeInt e value.toNat).toOption
  | .int value, e => (cborEncodeInt e value.toInt).toOption
  | .simpleValue value, e => (cborEncodeSimpleValue e value).toOption
  | .floatingPoint fpType value, e => (cborEncodeFloatingPoint e fpType value).toOption
  | .tag t, e => (cborEncodeTag e t.toNat).toOption
  | .byteString string, e => (cborEncodeByteString e string).toOption
  | .textString string, e => (cborEncodeTextString e string).toOption
  | _, _ => none

/-- A call, on the encoders of the open containers from the innermost one to the outermost encoder; `none` if the call
faults or is not allowed there. -/
def Call.run (call : Call) : List CborEncoder → Option (Option CborError × List CborEncoder)
  | [] => none
  | e :: es =>
    match call with
    | .createArray length =>
      (cborEncoderCreateArray e length.toNat).toOption.map fun r => (r.1, r.2.1 :: r.2.2 :: es)
    | .createMap length =>
      (cborEncoderCreateMap e length.toNat).toOption.map fun r => (r.1, r.2.1.toList ++ r.2.2 :: es)
    | .closeContainer =>
      match es with
      | [] => none
      | outer :: es => (cborEncoderCloseContainer outer e).toOption.map fun r => (r.1, r.2 :: es)
    | call => (call.encode e).map fun r => (r.1, r.2 :: es)

/-- The calls one after the other, whatever they return. -/
def runCalls : List Call → List CborEncoder → Option (List (Option CborError) × List CborEncoder)
  | [], es => some ([], es)
  | call :: calls, es =>
    (call.run es).bind fun r => (runCalls calls r.2).map fun s => (r.1 :: s.1, s.2)

/-! ## What the calls are to achieve -/

/-- An open container: how many items it is to have, unless it ends with a break, and how many it has. -/
structure Frame where
  expected : Option Nat
  items : Nat

/-- What has been encoded so far, and the containers that are open. -/
structure Document where
  bytes : List UInt8
  frames : List Frame

/-- One more item in the innermost open container. -/
def countItem : List Frame → List Frame
  | [] => []
  | f :: fs => { f with items := f.items + 1 } :: fs

/-- The error for a buffer of `size` bytes that is to hold `bytes`. -/
def outOfMemory (size : Nat) (bytes : List UInt8) : Option CborError :=
  if size < bytes.length then some .outOfMemory else none

/-- The document with one more item, `w`. -/
def Document.item (doc : Document) (w : List UInt8) : Document := ⟨doc.bytes ++ w, countItem doc.frames⟩

/-- The document with one more container of `expected` items, whose head is `w`. -/
def Document.create (doc : Document) (w : List UInt8) (expected : Option Nat) : Document :=
  ⟨doc.bytes ++ w, ⟨expected, 0⟩ :: countItem doc.frames⟩

/-- The document after a call that encodes an item or a tag. -/
def Document.encode (doc : Document) : Call → Option Document
  | .uint value => some (doc.item (head 0 value.toNat))
  | .negativeInt value => some (doc.item (head 1 (toUInt64 (value.toNat - 1))))
  | .int value =>
    some (doc.item (if value.toInt < 0 then head 1 (-1 - value.toInt).toNat else head 0 value.toInt.toNat))
  | .simpleValue value => some (doc.item (head 7 value.toNat))
  | .floatingPoint .halfFloat value => some (doc.item (initialByte 7 25 :: beBytes 2 value))
  | .floatingPoint .float value => some (doc.item (initialByte 7 26 :: beBytes 4 value))
  | .floatingPoint .double value => some (doc.item (initialByte 7 27 :: beBytes 8 value))
  | .tag t => some ⟨doc.bytes ++ head 6 t.toNat, doc.frames⟩
  | .byteString string => some (doc.item (head 2 string.length ++ string))
  | .textString string => some (doc.item (head 3 string.length ++ string))
  | _ => none

/-- The head of a container of major type `m`, with its number of items if that is known. -/
def containerHead (m length : Nat) : List UInt8 := if length = SIZE_MAX then [initialByte m 31] else head m length

/-- What a call on a buffer of `size` bytes returns and does to the document. -/
def Document.step (size : Nat) (doc : Document) : Call → Option (Option CborError × Document)
  | .createArray length =>
    let doc := doc.create (containerHead 4 length.toNat) (if length.toNat = SIZE_MAX then none else some length.toNat)
    some (Cbor.outOfMemory size doc.bytes, doc)
  | .createMap length =>
    if length.toNat ≠ SIZE_MAX ∧ length.toNat > SIZE_MAX / 2 then some (some .dataTooLarge, doc)
    else
      let doc := doc.create (containerHead 5 length.toNat)
        (if length.toNat = SIZE_MAX then none else some (2 * length.toNat))
      some (Cbor.outOfMemory size doc.bytes, doc)
  | .closeContainer =>
    match doc.frames with
    | [] => none
    | ⟨none, _⟩ :: frames =>
      some (Cbor.outOfMemory size (doc.bytes ++ [breakByte]), ⟨doc.bytes ++ [breakByte], frames⟩)
    | ⟨some n, items⟩ :: frames =>
      let err := if items < n then some .tooFewItems else if items > n then some .tooManyItems
        else Cbor.outOfMemory size doc.bytes
      some (err, ⟨doc.bytes, frames⟩)
  | .simpleValue value =>
    if 25 ≤ value.toNat ∧ value.toNat ≤ 31 then some (some .illegalSimpleType, doc)
    else (doc.encode (.simpleValue value)).map fun doc => (Cbor.outOfMemory size doc.bytes, doc)
  | call => (doc.encode call).map fun doc => (Cbor.outOfMemory size doc.bytes, doc)

/-- The calls one after the other. -/
def Document.run (size : Nat) : List Call → Document → Option (List (Option CborError) × Document)
  | [], doc => some ([], doc)
  | call :: calls, doc =>
    (doc.step size call).bind fun r => (Document.run size calls r.2).map fun s => (r.1 :: s.1, s.2)

/-! ## How the encoder stands for the document -/

/-- The encoder has written `bytes` to a buffer of `size` bytes, or counts what is missing. -/
def Writes (size : Nat) (bytes : List UInt8) (e : CborEncoder) : Prop :=
  if size < bytes.length then e.room = none ∧ e.bytesNeeded = bytes.length - size
  else e.room = some (size - bytes.length) ∧ e.written = bytes

/-- The encoder of a container counts its items; one more than the number left stands in `remaining`. -/
def Counts (e : CborEncoder) (f : Frame) : Prop :=
  e.unknownLength = f.expected.isNone ∧ ∀ n ∈ f.expected, e.remaining = n + 1 - f.items

/-- The encoders of the open containers, from the innermost one on. An outer encoder stands where the container inside
it was created. -/
inductive Follows (size : Nat) : List CborEncoder → Document → Prop
  | outermost {e : CborEncoder} {bytes : List UInt8} (h : Writes size bytes e) : Follows size [e] ⟨bytes, []⟩
  | inside {e : CborEncoder} {es : List CborEncoder} {f : Frame} {fs : List Frame} {bytes earlier : List UInt8}
      (h : Writes size bytes e) (hf : Counts e f) (hes : Follows size es ⟨earlier, fs⟩)
      (hle : earlier.length ≤ bytes.length) : Follows size (e :: es) ⟨bytes, f :: fs⟩

section Append

variable {size : Nat} {bytes : List UInt8} {e : CborEncoder}

theorem writes_init (size : Nat) : Writes size [] (cborEncoderInit size) := by
  simp [Writes, cborEncoderInit]

/-- **`append_to_buffer`**: bytes are written as long as they fit, and counted from then on. -/
theorem appendToBuffer_writes (h : Writes size bytes e) (hsize : size < 2 ^ 63) (w : List UInt8)
    (hfit : (bytes ++ w).length < 2 ^ 63) :
    ∃ e', appendToBuffer e w = .ok (outOfMemory size (bytes ++ w), e') ∧ Writes size (bytes ++ w) e' ∧
      e'.remaining = e.remaining ∧ e'.unknownLength = e.unknownLength := by
  have happ : (bytes ++ w).length = bytes.length + w.length := List.length_append
  unfold Writes at h
  unfold Writes outOfMemory
  split_ifs at h with hfull
  · obtain ⟨hr, hn⟩ := h
    have hmore : size < (bytes ++ w).length := by omega
    simp only [if_pos hmore, appendToBuffer_of_full hr (show 0 < e.bytesNeeded by omega)
      (show e.bytesNeeded + w.length < 2 ^ 63 by omega)]
    exact ⟨_, rfl, ⟨hr, by simp only; omega⟩, rfl, rfl⟩
  · obtain ⟨hr, hw⟩ := h
    by_cases hover : size - bytes.length < w.length
    · have hmore : size < (bytes ++ w).length := by omega
      simp only [if_pos hmore, appendToBuffer_of_lt hr (show w.length < 2 ^ 63 by omega) hover]
      exact ⟨_, rfl, ⟨rfl, by simp only; omega⟩, rfl, rfl⟩
    · have hless : ¬size < (bytes ++ w).length := by omega
      simp only [if_neg hless, appendToBuffer_of_room hr (show size - bytes.length < 2 ^ 63 by omega)
        (show w.length ≤ size - bytes.length by omega)]
      exact ⟨_, rfl, ⟨by rw [happ, Nat.sub_sub], by rw [hw]⟩, rfl, rfl⟩

theorem Writes.written_eq (h : Writes size bytes e) (hle : bytes.length ≤ size) : e.written = bytes := by
  unfold Writes at h
  rw [if_neg (by omega)] at h
  exact h.2

/-- `cbor_encoder_get_extra_bytes_needed`. -/
theorem Writes.extraBytesNeeded_eq (h : Writes size bytes e) (hlen : bytes.length < 2 ^ 63) :
    cborEncoderGetExtraBytesNeeded e = bytes.length - size := by
  unfold Writes at h
  unfold cborEncoderGetExtraBytesNeeded
  split_ifs at h with hb
  · rw [h.1, h.2, Option.isSome_none, if_neg (by simp)]
    omega
  · rw [h.1]
    exact (Nat.sub_eq_zero_of_le (by omega)).symm

end Append

/-! ## The document only grows -/

section Grow

variable {size : Nat} {call : Call} {err : Option CborError} {doc doc' : Document}

/-- What has been encoded stays. -/
theorem Document.encode_prefix (h : doc.encode call = some doc') : doc.bytes <+: doc'.bytes := by
  cases call with
  | floatingPoint fpType value =>
    cases fpType <;> cases h <;> exact List.prefix_append _ _
  | _ => cases h <;> exact List.prefix_append _ _

theorem Document.step_prefix (h : doc.step size call = some (err, doc')) : doc.bytes <+: doc'.bytes := by
  have hencode : ∀ call, ((doc.encode call).map fun doc => (outOfMemory size doc.bytes, doc)) = some (err, doc') →
      doc.bytes <+: doc'.bytes := by
    intro call h
    obtain ⟨doc'', hdoc, he⟩ := Option.map_eq_some_iff.mp h
    obtain ⟨-, rfl⟩ := Prod.mk.inj he
    exact Document.encode_prefix hdoc
  cases call with
  | createArray length =>
    cases h
    exact List.prefix_append _ _
  | createMap length =>
    rw [Document.step] at h
    split at h
    · cases h
      exact List.prefix_rfl
    · cases h
      exact List.prefix_append _ _
  | closeContainer =>
    rw [Document.step] at h
    split at h
    · cases h
    · cases h
      exact List.prefix_append _ _
    · cases h
      exact List.prefix_rfl
  | simpleValue value =>
    rw [Document.step] at h
    split_ifs at h with hv
    · cases h
      exact List.prefix_rfl
    · exact hencode _ h
  | uint value => exact hencode (.uint value) h
  | negativeInt value => exact hencode (.negativeInt value) h
  | int value => exact hencode (.int value) h
  | floatingPoint fpType value => exact hencode (.floatingPoint fpType value) h
  | tag t => exact hencode (.tag t) h
  | byteString string => exact hencode (.byteString string) h
  | textString string => exact hencode (.textString string) h

theorem Document.run_prefix {calls : List Call} {errs : List (Option CborError)}
    (h : Document.run size calls doc = some (errs, doc')) : doc.bytes <+: doc'.bytes := by
  induction calls generalizing doc errs with
  | nil =>
    cases h
    exact List.prefix_rfl
  | cons call calls ih =>
    obtain ⟨⟨err, doc₁⟩, hstep, hrest⟩ := Option.bind_eq_some_iff.mp h
    obtain ⟨⟨errs', doc₂⟩, hrun, he⟩ := Option.map_eq_some_iff.mp hrest
    obtain ⟨-, rfl⟩ := Prod.mk.inj he
    exact (Document.step_prefix hstep).trans (ih hrun)

end Grow

section Steps

variable {size : Nat} {bytes w : List UInt8} {e e' : CborEncoder} {es : List CborEncoder} {fs : List Frame}
  {doc doc' : Document} {err : Option CborError}

theorem Follows.writes (h : Follows size (e :: es) doc) : Writes size doc.bytes e := by
  cases h with
  | outermost h => exact h
  | inside h => exact h

theorem Follows.exists_cons (h : Follows size es doc) : ∃ e es', es = e :: es' := by
  cases h with
  | outermost => exact ⟨_, _, rfl⟩
  | inside => exact ⟨_, _, rfl⟩

/-- There is one encoder for each open container, and the outermost one. -/
theorem Follows.length_eq (h : Follows size (e :: es) doc) : es.length = doc.frames.length := by
  induction es generalizing e doc with
  | nil =>
    cases h with
    | outermost => rfl
    | inside h hf hes => cases hes
  | cons e' es ih =>
    cases h with
    | inside h hf hes hle => rw [List.length_cons, ih hes, List.length_cons]

/-- The innermost encoder may write on. -/
theorem Follows.update (h : Follows size (e :: es) doc) {bytes' : List UInt8} (hw : Writes size bytes' e')
    (hr : e'.remaining = e.remaining) (hu : e'.unknownLength = e.unknownLength)
    (hle : doc.bytes.length ≤ bytes'.length) : Follows size (e' :: es) ⟨bytes', doc.frames⟩ := by
  cases h with
  | outermost h => exact .outermost hw
  | inside h hf hes hle' =>
    exact .inside hw ⟨hu.trans hf.1, fun n hn => hr.trans (hf.2 n hn)⟩ hes (Nat.le_trans hle' hle)

/-- Counting an item. -/
theorem Follows.decrement (h : Follows size (e :: es) doc) :
    Follows size (saturatedDecrement e :: es) ⟨doc.bytes, countItem doc.frames⟩ := by
  cases h with
  | outermost h => exact .outermost h
  | inside h hf hes hle =>
    refine .inside h ⟨hf.1, fun n hn => ?_⟩ hes hle
    simp only [saturatedDecrement, hf.2 n hn]
    omega

/-- A call on the encoder `e` inside `es` returns `r`, which is what it is to return, and leaves `doc`. -/
def Agrees (size : Nat) (es : List CborEncoder) (r : Except Fault (Option CborError × CborEncoder)) (doc : Document) :
    Prop :=
  ∃ e', r = .ok (outOfMemory size doc.bytes, e') ∧ Follows size (e' :: es) doc

variable (hsize : size < 2 ^ 63)

include hsize

/-- Appending to the innermost encoder. -/
theorem Follows.append (h : Follows size (e :: es) doc) (w : List UInt8) (hfit : (doc.bytes ++ w).length < 2 ^ 63) :
    Agrees size es (appendToBuffer e w) ⟨doc.bytes ++ w, doc.frames⟩ := by
  obtain ⟨e', he, hw, hr, hu⟩ := appendToBuffer_writes h.writes hsize w hfit
  exact ⟨e', he, h.update hw hr hu (by simp)⟩

/-- An item whose bytes are appended at once. -/
theorem Follows.item (h : Follows size (e :: es) doc) (w : List UInt8) (hfit : (doc.item w).bytes.length < 2 ^ 63) :
    Agrees size es (appendToBuffer (saturatedDecrement e) w) (doc.item w) :=
  h.decrement.append hsize w hfit

/-- `encode_number` writes an item that is a head. -/
theorem Follows.number (h : Follows size (e :: es) doc) (n : Nat) (type : CborMajorTypes) (m : Nat)
    (hm : type.shifted = 32 * m) (hfit : (doc.item (head m n)).bytes.length < 2 ^ 63) :
    Agrees size es (encodeNumber e n type.shifted) (doc.item (head m n)) := by
  rw [encodeNumber, encodeNumberNoUpdate_head n type m hm]
  exact h.item hsize _ hfit

/-- `encode_string` writes a head and the string. -/
theorem Follows.string (h : Follows size (e :: es) doc) (s : List UInt8) (type : CborMajorTypes) (m : Nat)
    (hm : type.shifted = 32 * m) (hfit : (doc.item (head m s.length ++ s)).bytes.length < 2 ^ 63) :
    Agrees size es (encodeString e s type.shifted) (doc.item (head m s.length ++ s)) := by
  simp only [Document.item, ← List.append_assoc] at hfit ⊢
  have hhead : (doc.bytes ++ head m s.length).length < 2 ^ 63 := by
    rw [List.length_append] at hfit
    omega
  obtain ⟨e', he, hf⟩ := h.number hsize s.length type m hm hhead
  rw [encodeString, he, ok_bind]
  exact hf.append hsize s hfit

/-- The calls that encode an item or a tag. -/
theorem encode_agrees (h : Follows size (e :: es) doc) (call : Call)
    (hc : ∀ v, call = .simpleValue v → ¬(25 ≤ v.toNat ∧ v.toNat ≤ 31)) (hdoc : doc.encode call = some doc')
    (hfit : doc'.bytes.length < 2 ^ 63) :
    ∃ e', call.encode e = some (outOfMemory size doc'.bytes, e') ∧ Follows size (e' :: es) doc' := by
  have hsome : ∀ {r}, Agrees size es r doc' →
      ∃ e', r.toOption = some (outOfMemory size doc'.bytes, e') ∧ Follows size (e' :: es) doc' := by
    rintro r ⟨e', rfl, hf⟩
    exact ⟨e', rfl, hf⟩
  cases call with
  | uint value =>
    cases hdoc
    exact hsome (h.number hsize _ .unsignedInteger 0 rfl hfit)
  | negativeInt value =>
    cases hdoc
    exact hsome (h.number hsize _ .negativeInteger 1 rfl hfit)
  | int value =>
    cases hdoc
    refine hsome ?_
    unfold cborEncodeInt
    split_ifs at hfit ⊢
    · exact h.number hsize _ .negativeInteger 1 rfl hfit
    · exact h.number hsize _ .unsignedInteger 0 rfl hfit
  | simpleValue value =>
    cases hdoc
    refine hsome ?_
    rw [cborEncodeSimpleValue, if_neg (hc value rfl)]
    exact h.number hsize _ .simpleTypes 7 rfl hfit
  | floatingPoint fpType value =>
    cases fpType with
    | halfFloat =>
      cases hdoc
      exact hsome (h.item hsize _ hfit)
    | float =>
      cases hdoc
      exact hsome (h.item hsize _ hfit)
    | double =>
      cases hdoc
      exact hsome (h.item hsize _ hfit)
    | _ => cases hdoc
  | tag t =>
    cases hdoc
    refine hsome ?_
    rw [cborEncodeTag, encodeNumberNoUpdate_head _ .tag 6 rfl]
    exact h.append hsize _ hfit
  | byteString string =>
    cases hdoc
    exact hsome (h.string hsize _ .byteString 2 rfl hfit)
  | textString string =>
    cases hdoc
    exact hsome (h.string hsize _ .textString 3 rfl hfit)
  | createArray length => cases hdoc
  | createMap length => cases hdoc
  | closeContainer => cases hdoc

/-- A container is created: its head is appended to an encoder that takes over the position. -/
theorem Follows.create (h : Follows size (e :: es) doc) {container : CborEncoder} {expected : Option Nat}
    (hw : Writes size doc.bytes container) (hc : Counts container ⟨expected, 0⟩) (w : List UInt8)
    (hfit : (doc.create w expected).bytes.length < 2 ^ 63) :
    Agrees size (saturatedDecrement e :: es) (appendToBuffer container w) (doc.create w expected) := by
  obtain ⟨e', he, hw', hr, hu⟩ := appendToBuffer_writes hw hsize w hfit
  exact ⟨e', he, .inside hw' ⟨hu.trans hc.1, fun n hn => hr.trans (hc.2 n hn)⟩ h.decrement (by simp)⟩

/-- How many items a container is to have for one of its length. -/
def CborMajorTypes.itemsPer (type : CborMajorTypes) : Nat := if type = .map then 2 else 1

/-- `create_container`. -/
theorem create_agrees (h : Follows size (e :: es) doc) (length : UInt64) (type : CborMajorTypes) {m : Nat}
    (hm : type.shifted = 32 * m)
    (hdoc : doc' = doc.create (containerHead m length.toNat)
      (if length.toNat = SIZE_MAX then none else some (type.itemsPer * length.toNat)))
    (hfit : doc'.bytes.length < 2 ^ 63) :
    ∃ container, createContainer e length.toNat type =
        .ok (outOfMemory size doc'.bytes, container, saturatedDecrement e) ∧
      Follows size (container :: saturatedDecrement e :: es) doc' := by
  subst hdoc
  have hset : ∀ r u, Writes size doc.bytes { e with
      remaining := r, unknownLength := u, containerIsMap := decide (type = .map) } := fun _ _ => h.writes
  -- the head is appended in one of three ways; what is left of `create_container` is the same
  have hsome : ∀ {r} {doc' : Document}, Agrees size (saturatedDecrement e :: es) r doc' →
      ∃ container, (r >>= fun c => pure (c.1, c.2, saturatedDecrement e)) =
          .ok (outOfMemory size doc'.bytes, container, saturatedDecrement e) ∧
        Follows size (container :: saturatedDecrement e :: es) doc' := by
    rintro r doc' ⟨e', rfl, hf⟩
    exact ⟨e', rfl, hf⟩
  unfold createContainer containerHead CborIndefiniteLength at *
  by_cases hopen : length.toNat = SIZE_MAX
  · simp only [if_pos hopen, hm] at hfit ⊢
    exact hsome (h.create hsize (hset _ _) ⟨decide_eq_true hopen, by simp⟩ _ hfit)
  · have hlt := length.toNat_lt
    have hmod : (length.toNat + 1) % 2 ^ 64 = length.toNat + 1 :=
      Nat.mod_eq_of_lt (by unfold SIZE_MAX at hopen; omega)
    simp only [if_neg hopen, encodeNumberNoUpdate_head _ type m hm, hmod] at hfit ⊢
    by_cases hmap : type = .map
    · rw [if_pos (decide_eq_true hmap)]
      refine hsome (h.create hsize (hset _ _) ⟨decide_eq_false hopen, ?_⟩ _ hfit)
      rintro n ⟨rfl⟩
      simp only [CborMajorTypes.itemsPer, hmap, if_true]
      omega
    · rw [if_neg (by simpa using hmap)]
      refine hsome (h.create hsize (hset _ _) ⟨decide_eq_false hopen, ?_⟩ _ hfit)
      rintro n ⟨rfl⟩
      simp only [CborMajorTypes.itemsPer, hmap, if_false]
      omega

omit hsize in
/-- The buffer is exhausted once `end` is null. -/
theorem Writes.outOfMemory_eq (h : Writes size bytes e) :
    outOfMemory size bytes = if e.room = none then some .outOfMemory else none := by
  unfold Writes at h
  unfold outOfMemory
  split_ifs at h ⊢ with hb hr hr
  · rfl
  · exact absurd h.1 hr
  · rw [hr] at h
    cases h.1
  · rfl

omit hsize in
/-- The position that `cbor_encoder_close_container` takes over from the container. -/
theorem close_writes {container : CborEncoder} {earlier : List UInt8} (h : Writes size bytes container)
    (he : Writes size earlier e) (hle : earlier.length ≤ bytes.length) :
    Writes size bytes { e with
      written := if e.room.isSome then container.written else e.written
      bytesNeeded := container.bytesNeeded
      room := container.room } := by
  unfold Writes at h ⊢
  by_cases hb : size < bytes.length
  · rw [if_pos hb] at h ⊢
    exact h
  · unfold Writes at he
    rw [if_neg (by omega)] at he
    rw [if_neg hb] at h ⊢
    simp only [he.1, Option.isSome_some, if_true]
    exact h

/-- `cbor_encoder_close_container`. -/
theorem close_agrees {outer : CborEncoder} (h : Follows size (e :: outer :: es) doc)
    (hdoc : doc.step size .closeContainer = some (err, doc')) (hfit : doc'.bytes.length < 2 ^ 63) :
    ∃ outer', cborEncoderCloseContainer outer e = .ok (err, outer') ∧ Follows size (outer' :: es) doc' := by
  cases h with
  | @inside _ _ f fs bytes earlier hw hf hes hle =>
    have hclose := hes.update (close_writes hw hes.writes hle) rfl rfl hle
    obtain ⟨expected, items⟩ := f
    unfold cborEncoderCloseContainer
    cases expected with
    | none =>
      have hu : e.unknownLength = true := hf.1
      cases hdoc
      rw [if_pos hu]
      exact hclose.append hsize [BreakByte] hfit
    | some n =>
      have hu : e.unknownLength = false := hf.1
      have hr : e.remaining = n + 1 - items := hf.2 n rfl
      cases hdoc
      simp only [hu, hr, Bool.false_eq_true, if_false]
      by_cases hfew : items < n
      · rw [if_pos (by omega), if_neg (by omega), if_pos hfew]
        exact ⟨_, rfl, hclose⟩
      · by_cases hmany : items > n
        · rw [if_pos (by omega), if_pos (by omega), if_neg hfew, if_pos hmany]
          exact ⟨_, rfl, hclose⟩
        · rw [if_neg (by omega), if_neg hfew, if_neg hmany, hw.outOfMemory_eq]
          by_cases hroom : e.room = none
          · simp only [if_pos hroom]
            exact ⟨_, rfl, hclose⟩
          · simp only [if_neg hroom]
            exact ⟨_, rfl, hclose⟩

/-- **One call** returns what it is to return and does to the encoders what it is to do to the document. -/
theorem run_agrees (h : Follows size es doc) {call : Call} (hdoc : doc.step size call = some (err, doc'))
    (hfit : doc'.bytes.length < 2 ^ 63) : ∃ es', call.run es = some (err, es') ∧ Follows size es' doc' := by
  cases es with
  | nil => cases h
  | cons e es =>
    -- the calls that are passed on to `Call.encode`
    have hencode : ∀ call : Call, (∀ v, call = .simpleValue v → ¬(25 ≤ v.toNat ∧ v.toNat ≤ 31)) →
        ((doc.encode call).map fun doc => (outOfMemory size doc.bytes, doc)) = some (err, doc') →
        ∃ es', ((call.encode e).map fun r => (r.1, r.2 :: es)) = some (err, es') ∧ Follows size es' doc' := by
      intro call hc hmap
      obtain ⟨doc'', henc, he⟩ := Option.map_eq_some_iff.mp hmap
      obtain ⟨rfl, rfl⟩ := Prod.mk.inj he
      obtain ⟨e', he, hf⟩ := encode_agrees hsize h call hc henc hfit
      exact ⟨_, by rw [he]; rfl, hf⟩
    cases call with
    | createArray length =>
      cases hdoc
      obtain ⟨container, hcreate, hf⟩ := create_agrees hsize h length .array (m := 4) rfl
        (by simp only [CborMajorTypes.itemsPer, reduceCtorEq, if_false, Nat.one_mul]) hfit
      exact ⟨_, by rw [Call.run, cborEncoderCreateArray, hcreate]; rfl, hf⟩
    | createMap length =>
      rw [Document.step] at hdoc
      by_cases hbig : length.toNat ≠ SIZE_MAX ∧ length.toNat > SIZE_MAX / 2
      · have hmap : cborEncoderCreateMap e length.toNat = .ok (some .dataTooLarge, none, e) := if_pos hbig
        rw [if_pos hbig] at hdoc
        cases hdoc
        exact ⟨e :: es, by simp only [Call.run, hmap]; rfl, h⟩
      · rw [if_neg hbig] at hdoc
        cases hdoc
        obtain ⟨container, hcreate, hf⟩ := create_agrees hsize h length .map (m := 5) rfl rfl hfit
        have hmap : cborEncoderCreateMap e length.toNat = createContainer e length.toNat .map >>= fun r =>
          pure (r.1, some r.2.1, r.2.2) := if_neg hbig
        exact ⟨_, by simp only [Call.run, hmap, hcreate]; rfl, hf⟩
    | closeContainer =>
      cases es with
      | nil =>
        cases h with
        | outermost => cases hdoc
        | inside hw hf hes => cases hes
      | cons outer es =>
        obtain ⟨outer', hclose, hf⟩ := close_agrees hsize h hdoc hfit
        exact ⟨_, by rw [Call.run, hclose]; rfl, hf⟩
    | simpleValue value =>
      rw [Document.step] at hdoc
      by_cases hv : 25 ≤ value.toNat ∧ value.toNat ≤ 31
      · rw [if_pos hv] at hdoc
        cases hdoc
        exact ⟨_, by simp only [Call.run, Call.encode, cborEncodeSimpleValue, if_pos hv]; rfl, h⟩
      · rw [if_neg hv] at hdoc
        exact hencode _ (by rintro v ⟨rfl⟩; exact hv) hdoc
    | uint value => exact hencode (.uint value) (by simp) hdoc
    | negativeInt value => exact hencode (.negativeInt value) (by simp) hdoc
    | int value => exact hencode (.int value) (by simp) hdoc
    | floatingPoint fpType value => exact hencode (.floatingPoint fpType value) (by simp) hdoc
    | tag t => exact hencode (.tag t) (by simp) hdoc
    | byteString string => exact hencode (.byteString string) (by simp) hdoc
    | textString string => exact hencode (.textString string) (by simp) hdoc

/-- **A run of the encoder refines the run on the document**: every call returns the same. -/
theorem runCalls_refines (h : Follows size es doc) {calls : List Call} {errs : List (Option CborError)}
    (hdoc : Document.run size calls doc = some (errs, doc')) (hfit : doc'.bytes.length < 2 ^ 63) :
    ∃ es', runCalls calls es = some (errs, es') ∧ Follows size es' doc' := by
  induction calls generalizing es doc errs with
  | nil =>
    cases hdoc
    exact ⟨es, rfl, h⟩
  | cons call calls ih =>
    obtain ⟨⟨err, doc₁⟩, hstep, hrest⟩ := Option.bind_eq_some_iff.mp hdoc
    obtain ⟨⟨errs', doc₂⟩, hrun, he⟩ := Option.map_eq_some_iff.mp hrest
    obtain ⟨rfl, rfl⟩ := Prod.mk.inj he
    have hle : doc₁.bytes.length ≤ doc₂.bytes.length := (Document.run_prefix hrun).length_le
    obtain ⟨es₁, hcall, hf₁⟩ := run_agrees hsize h hstep (Nat.lt_of_le_of_lt hle hfit)
    obtain ⟨es₂, hcalls, hf₂⟩ := ih hf₁ hrun
    exact ⟨es₂, by rw [runCalls, hcall, Option.bind_some, hcalls]; rfl, hf₂⟩

end Steps

/-- **Whatever is encoded**, into a buffer of any size: the calls return what they are to return; as long as the
document fits, the buffer holds it; and otherwise the encoder tells exactly how many bytes are missing. -/
theorem encoder_run {size : Nat} {calls : List Call} {errs : List (Option CborError)} {doc : Document}
    (hdoc : Document.run size calls ⟨[], []⟩ = some (errs, doc)) (hsize : size < 2 ^ 63)
    (hlen : doc.bytes.length < 2 ^ 63) :
    ∃ e es, runCalls calls [cborEncoderInit size] = some (errs, e :: es) ∧ es.length = doc.frames.length ∧
      (doc.bytes.length ≤ size → e.written = doc.bytes) ∧
      cborEncoderGetExtraBytesNeeded e = doc.bytes.length - size := by
  obtain ⟨es, hcalls, hf⟩ := runCalls_refines hsize (.outermost (writes_init size)) hdoc hlen
  obtain ⟨e, es, rfl⟩ := hf.exists_cons
  exact ⟨e, es, hcalls, hf.length_eq, hf.writes.written_eq, hf.writes.extraBytesNeeded_eq hlen⟩

/-- An array of two numbers in a buffer of two bytes: three bytes are missing at the end. -/
theorem encoder_run_short : ∃ (e : CborEncoder) (doc : Document),
    runCalls [.createArray 2, .uint 1, .int (-500), .closeContainer] [cborEncoderInit 2] =
      some ([none, none, some .outOfMemory, some .outOfMemory], [e]) ∧
    doc.bytes = [0x82, 0x01, 0x39, 0x01, 0xf3] ∧ cborEncoderGetExtraBytesNeeded e = doc.bytes.length - 2 := by
  have hdoc : Document.run 2 [.createArray 2, .uint 1, .int (-500), .closeContainer] ⟨[], []⟩ =
      some ([none, none, some .outOfMemory, some .outOfMemory], ⟨[0x82, 0x01, 0x39, 0x01, 0xf3], []⟩) := rfl
  obtain ⟨e, es, hcalls, hes, -, hextra⟩ := encoder_run hdoc (by decide) (by decide)
  obtain rfl := List.eq_nil_of_length_eq_zero hes
  exact ⟨e, _, hcalls, rfl, hextra⟩

end Libcp2p.Cbor
