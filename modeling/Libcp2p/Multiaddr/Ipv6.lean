import Libcp2p.Lib.CString

/-!
# The validator of ip6 addresses

`is_valid_ipv6` reads a text in one pass, with counts of the digits of the group it is in and of the groups so far,
where `::` counts as one. The count starts again after a `::` at the beginning, and is compared with eight only for
equality.

* `scanGroups`: how far groups go, and how many there are; the loop is computed from it (`isValidIpv6Loop_eq`,
  `isValidIpv6Loop_past`).
* `Rfc4291.isValid`: every text of an address is accepted; `rfc4291_or_overlong`: what else is.
* `is_valid_ipv6_iff`: the answer is right exactly on the texts that are not `Ipv6Overlong`.
-/

namespace Libcp2p

/-! ## The code -/

/-- `MAX_HEX_NUMBER_COUNT`. -/
def MAX_HEX_NUMBER_COUNT : Nat := 8

/-- `ishexdigit`. -/
def ishexdigit (ch : UInt8) : Bool := (48 ≤ ch && ch ≤ 57) || (97 ≤ ch && ch ≤ 102) || (65 ≤ ch && ch ≤ 70)

/-- `hncount++`, on an `int`. -/
def incHncount (hncount : Nat) : Except Fault Nat :=
  if hncount + 1 < 2 ^ 31 then .ok (hncount + 1) else .error .overflow

/-- The loop of `is_valid_ipv6` and what comes after it, `str` being the characters before the NUL. -/
def isValidIpv6Loop : (hdcount hncount : Nat) → (packed : Bool) → (str : List UInt8) → Except Fault Bool
  | _, hncount, packed, [] => .ok (!(hncount < MAX_HEX_NUMBER_COUNT && !packed))
  | hdcount, hncount, packed, c :: str =>
    if c = 58 then
      match str with
      | [] => .ok false
      | d :: str =>
        if d = 58 then
          if packed then .ok false
          else
            match str with
            | [] =>
              if hncount < MAX_HEX_NUMBER_COUNT then do
                let _ ← incHncount hncount
                .ok true
              else .ok false
            | e :: str =>
              if ishexdigit e then do
                let hncount ← incHncount hncount
                if hncount = MAX_HEX_NUMBER_COUNT then .ok false
                else do
                  let hncount ← incHncount hncount
                  isValidIpv6Loop 1 hncount true str
              else .ok false
        else if !ishexdigit d then .ok false
        else if hncount = MAX_HEX_NUMBER_COUNT then .ok false
        else do
          let hncount ← incHncount hncount
          isValidIpv6Loop 1 hncount packed str
    else if ishexdigit c then
      if hdcount = 4 then .ok false else isValidIpv6Loop (hdcount + 1) hncount packed str
    else .ok false

/-- The part of `is_valid_ipv6` after a `::` at the beginning. -/
def isValidIpv6Groups (packed : Bool) : (str : List UInt8) → Except Fault Bool
  | [] => .ok false
  | c :: str => if ishexdigit c then isValidIpv6Loop 1 1 packed str else .ok false

/-- `is_valid_ipv6`, of the characters before the NUL. -/
def isValidIpv6 : (str : List UInt8) → Except Fault Bool
  | [] => .ok false
  | c :: str =>
    if c = 58 then
      match str with
      | [] => .ok false
      | d :: str => if d ≠ 58 then .ok false else if str = [] then .ok true else isValidIpv6Groups true str
    else isValidIpv6Groups false (c :: str)

/-! ## The texts of addresses -/

/-- A group: one to four hexadecimal digits. -/
structure HexGroup (g : List UInt8) : Prop where
  pos : 1 ≤ g.length
  le : g.length ≤ 4
  digits : ∀ c ∈ g, (hexValue c).isSome

/-- Groups with a colon between them. -/
def groupsText : List (List UInt8) → List UInt8
  | [] => []
  | g :: gs => g ++ gs.flatMap (58 :: ·)

/-- The texts that RFC 4291 gives an address in hexadecimal: eight groups, or at most seven with one `::`. -/
inductive Rfc4291 : List UInt8 → Prop
  | full {gs : List (List UInt8)} (h : ∀ g ∈ gs, HexGroup g) (hlen : gs.length = 8) : Rfc4291 (groupsText gs)
  | packed {gs gs' : List (List UInt8)} (h : ∀ g ∈ gs, HexGroup g) (h' : ∀ g ∈ gs', HexGroup g)
    (hlen : gs.length + gs'.length ≤ 7) : Rfc4291 (groupsText gs ++ 58 :: 58 :: groupsText gs')

/-- `::` before eight groups, or eight groups before `::` and more groups; when these overflow the count, anything may
follow. -/
inductive Ipv6Overlong : List UInt8 → Prop
  | leading {gs : List (List UInt8)} (h : ∀ g ∈ gs, HexGroup g) (hlen : gs.length = 8) :
    Ipv6Overlong (58 :: 58 :: groupsText gs)
  | inside {gs gs' : List (List UInt8)} {rest : List UInt8} (h : ∀ g ∈ gs, HexGroup g) (hlen : gs.length = 8)
    (h' : ∀ g ∈ gs', HexGroup g) (hne : gs' ≠ []) (hrest : rest = [] ∨ 2 ^ 31 ≤ gs'.length + 9) :
    Ipv6Overlong (groupsText gs ++ 58 :: 58 :: (groupsText gs' ++ rest))

/-! ## Groups in a row -/

theorem ishexdigit_eq (c : UInt8) : ishexdigit c = (hexValue c).isSome := by
  unfold ishexdigit hexValue
  split_ifs <;> simp_all

/-- How many groups follow the one that the text starts in, `hdcount` digits of which have been read, and what comes
after them. -/
def scanGroups : (hdcount : Nat) → List UInt8 → Nat × List UInt8
  | _, [] => (0, [])
  | hdcount, c :: s =>
    if c = 58 then
      match s with
      | [] => (0, [c])
      | d :: s => if ishexdigit d then ((scanGroups 1 s).1 + 1, (scanGroups 1 s).2) else (0, c :: d :: s)
    else if ishexdigit c && hdcount < 4 then scanGroups (hdcount + 1) s
    else (0, c :: s)

section Scan

variable {hdcount hncount n : Nat} {packed : Bool} {s t r : List UInt8} {gs gs' : List (List UInt8)}

theorem ne_colon_of_ishexdigit {c : UInt8} (h : ishexdigit c = true) : c ≠ 58 := by
  rintro rfl
  cases h

/-- A group is a digit and up to three more. -/
theorem hexGroup_cons {c : UInt8} {ds : List UInt8} :
    HexGroup (c :: ds) ↔ ishexdigit c = true ∧ (∀ d ∈ ds, ishexdigit d = true) ∧ 1 + ds.length ≤ 4 := by
  simp only [ishexdigit_eq]
  constructor
  · intro h
    refine ⟨h.digits c List.mem_cons_self, fun d hd => h.digits d (List.mem_cons_of_mem c hd), ?_⟩
    exact Nat.add_comm 1 ds.length ▸ h.le
  · rintro ⟨hc, hds, hlen⟩
    refine ⟨Nat.succ_pos _, by rw [List.length_cons]; omega, fun d hd => ?_⟩
    rcases List.mem_cons.mp hd with rfl | hd
    · exact hc
    · exact hds d hd

theorem scanGroups_digit {c : UInt8} (hc : ishexdigit c = true) (hlt : hdcount < 4) (s : List UInt8) :
    scanGroups hdcount (c :: s) = scanGroups (hdcount + 1) s := by
  have hne := ne_colon_of_ishexdigit hc
  cases s with
  | nil => simp [scanGroups, hne, hc, hlt]
  | cons d s => simp [scanGroups, hne, hc, hlt]

theorem scanGroups_digits {ds : List UInt8} (hds : ∀ c ∈ ds, ishexdigit c = true) (hlen : hdcount + ds.length ≤ 4)
    (s : List UInt8) : scanGroups hdcount (ds ++ s) = scanGroups (hdcount + ds.length) s := by
  induction ds generalizing hdcount with
  | nil => rfl
  | cons c ds ih =>
    have hc := hds c List.mem_cons_self
    rw [List.length_cons] at hlen
    rw [List.cons_append, scanGroups_digit hc (by omega), ih (fun d hd => hds d (List.mem_cons_of_mem c hd)) (by omega),
      List.length_cons, Nat.add_right_comm, Nat.add_assoc]

theorem scanGroups_group {g : List UInt8} (hg : HexGroup g) (s : List UInt8) :
    scanGroups hdcount (58 :: (g ++ s)) = ((scanGroups g.length s).1 + 1, (scanGroups g.length s).2) := by
  cases g with
  | nil => exact absurd hg.pos (Nat.not_succ_le_zero 0)
  | cons c ds =>
    obtain ⟨hc, hds, hlen⟩ := hexGroup_cons.mp hg
    rw [List.cons_append, scanGroups, if_pos rfl, if_pos hc, scanGroups_digits hds hlen, List.length_cons,
      Nat.add_comm 1]

/-- **The scan follows groups**: after whole groups it goes on where they end. -/
theorem scanGroups_groups (hgs : ∀ g ∈ gs, HexGroup g) (r : List UInt8) :
    ∃ hdcount', scanGroups hdcount (gs.flatMap (58 :: ·) ++ r) =
      (gs.length + (scanGroups hdcount' r).1, (scanGroups hdcount' r).2) := by
  induction gs generalizing hdcount with
  | nil => exact ⟨hdcount, by simp⟩
  | cons g gs ih =>
    obtain ⟨hdcount', h⟩ := ih fun g hg => hgs g (List.mem_cons_of_mem _ hg)
    refine ⟨hdcount', ?_⟩
    rw [List.flatMap_cons, List.append_assoc, List.cons_append, scanGroups_group (hgs g List.mem_cons_self), h]
    simp only [List.length_cons, Nat.add_right_comm]

/-- A text that begins with groups, as the loop meets it. -/
theorem groupsText_append (hgs : ∀ g ∈ gs, HexGroup g) (hne : gs ≠ []) (r : List UInt8) :
    ∃ c s hdcount', groupsText gs ++ r = c :: s ∧ ishexdigit c = true ∧
      scanGroups 1 s = (gs.length - 1 + (scanGroups hdcount' r).1, (scanGroups hdcount' r).2) := by
  cases gs with
  | nil => exact absurd rfl hne
  | cons g gs =>
    have hg := hgs g List.mem_cons_self
    cases g with
    | nil => exact absurd hg.pos (Nat.not_succ_le_zero 0)
    | cons c ds =>
      obtain ⟨hc, hds, hlen⟩ := hexGroup_cons.mp hg
      obtain ⟨hdcount', h⟩ := scanGroups_groups (fun g hg => hgs g (List.mem_cons_of_mem _ hg)) r
      refine ⟨c, ds ++ (gs.flatMap (58 :: ·) ++ r), hdcount', by simp [groupsText], hc, ?_⟩
      rw [scanGroups_digits hds hlen, h]
      rfl

/-- **What the scan has read**: the rest of a group and whole groups. -/
theorem scanGroups_eq (h4 : hdcount ≤ 4) (h : scanGroups hdcount s = (n, r)) :
    ∃ (ds : List UInt8) (gs : List (List UInt8)), s = ds ++ (gs.flatMap (58 :: ·) ++ r) ∧
      (∀ c ∈ ds, ishexdigit c = true) ∧ hdcount + ds.length ≤ 4 ∧ (∀ g ∈ gs, HexGroup g) ∧ gs.length = n := by
  fun_induction scanGroups hdcount s generalizing n r with
  | case1 hdcount => cases h; exact ⟨[], [], by simp [h4]⟩
  | case2 hdcount => cases h; exact ⟨[], [], by simp [h4]⟩
  | case3 hdcount d s hd ih =>
    cases h
    obtain ⟨ds, gs, hs, hds, hlen, hgs, hn⟩ := ih (by decide) rfl
    refine ⟨[], (d :: ds) :: gs, ?_, by simp, h4, ?_, by simp [hn]⟩
    · simp [← hs]
    · intro g hg
      rcases List.mem_cons.mp hg with rfl | hg
      · exact hexGroup_cons.mpr ⟨hd, hds, hlen⟩
      · exact hgs g hg
  | case4 hdcount c d s => cases h; exact ⟨[], [], by simp [h4]⟩
  | case5 hdcount c s hc hdigit ih =>
    obtain ⟨hdigit, hlt⟩ : ishexdigit c = true ∧ hdcount < 4 := by simpa using hdigit
    obtain ⟨ds, gs, hs, hds, hlen, hgs, hn⟩ := ih hlt h
    refine ⟨c :: ds, gs, by rw [List.cons_append, ← hs], ?_, by rw [List.length_cons]; omega, hgs, hn⟩
    intro d hd
    rcases List.mem_cons.mp hd with rfl | hd
    · exact hdigit
    · exact hds d hd
  | case6 hdcount c s => cases h; exact ⟨[], [], by simp [h4]⟩

/-- The same from the beginning of a group. -/
theorem eq_groupsText_of_scan {c : UInt8} (hc : ishexdigit c = true) (s : List UInt8) :
    ∃ gs, c :: s = groupsText gs ++ (scanGroups 1 s).2 ∧ (∀ g ∈ gs, HexGroup g) ∧
      gs.length = (scanGroups 1 s).1 + 1 := by
  obtain ⟨ds, gs, hs, hds, hlen, hgs, hn⟩ := scanGroups_eq (by decide : 1 ≤ 4) (Eq.refl (scanGroups 1 s))
  refine ⟨(c :: ds) :: gs, ?_, ?_, congrArg (· + 1) hn⟩
  · rw [groupsText, List.append_assoc, List.cons_append, ← hs]
  · intro g hg
    rcases List.mem_cons.mp hg with rfl | hg
    · exact hexGroup_cons.mpr ⟨hc, hds, hlen⟩
    · exact hgs g hg

/-! ## The loop and the scan -/

/-- What the loop makes of the text that is left after the groups it has gone through. -/
def afterGroups (hncount : Nat) (packed : Bool) : List UInt8 → Except Fault Bool
  | [] => .ok (!(hncount < 8 && !packed))
  | [_] => .ok false
  | c :: d :: s =>
    if c = 58 ∧ d = 58 ∧ packed = false then
      match s with
      | [] => .ok (hncount < 8)
      | e :: s => if ishexdigit e ∧ hncount ≠ 7 then isValidIpv6Loop 1 (hncount + 2) true s else .ok false
    else .ok false

theorem incHncount_eq (h : hncount + 1 < 2 ^ 31) : incHncount hncount = .ok (hncount + 1) := if_pos h

/-- A character that does not belong to a group ends the loop. -/
theorem isValidIpv6Loop_bad {c : UInt8} (hc : c ≠ 58) (hbad : ishexdigit c = true → hdcount = 4) :
    isValidIpv6Loop hdcount hncount packed (c :: s) = .ok false := by
  unfold isValidIpv6Loop
  rw [if_neg hc]
  split_ifs with hdigit hfour
  · rfl
  · exact absurd (hbad hdigit) hfour
  · rfl

theorem isValidIpv6Loop_digit {c : UInt8} (hc : ishexdigit c = true) (hlt : hdcount < 4) :
    isValidIpv6Loop hdcount hncount packed (c :: s) = isValidIpv6Loop (hdcount + 1) hncount packed s := by
  rw [isValidIpv6Loop.eq_def]
  simp only [if_neg (ne_colon_of_ishexdigit hc), if_pos hc, if_neg (Nat.ne_of_lt hlt)]

theorem isValidIpv6Loop_group {d : UInt8} (hd : ishexdigit d = true) (hne : hncount ≠ MAX_HEX_NUMBER_COUNT) :
    isValidIpv6Loop hdcount hncount packed (58 :: d :: s) =
      (incHncount hncount).bind fun hncount => isValidIpv6Loop 1 hncount packed s := by
  rw [isValidIpv6Loop.eq_def]
  simp only [if_neg (ne_colon_of_ishexdigit hd), hd, Bool.not_true, Bool.false_eq_true, if_false, if_neg hne, if_true]
  rfl

theorem isValidIpv6Loop_eight {d : UInt8} (hd : ishexdigit d = true) :
    isValidIpv6Loop hdcount 8 packed (58 :: d :: s) = .ok false := by
  rw [isValidIpv6Loop.eq_def]
  simp [ne_colon_of_ishexdigit hd, hd, MAX_HEX_NUMBER_COUNT]

/-- A colon with neither a colon nor a digit after it, or a second `::`, ends the loop. -/
theorem isValidIpv6Loop_colon {d : UInt8} (hd : ishexdigit d = false) (hbad : d = 58 → packed = true) :
    isValidIpv6Loop hdcount hncount packed (58 :: d :: s) = .ok false := by
  rw [isValidIpv6Loop.eq_def]
  by_cases hcolon : d = 58
  · simp [hcolon, hbad hcolon]
  · simp [hcolon, hd]

/-- The first `::`. -/
theorem isValidIpv6Loop_double (hle : hncount ≤ 8) :
    isValidIpv6Loop hdcount hncount false (58 :: 58 :: s) = afterGroups hncount false (58 :: 58 :: s) := by
  cases s with
  | nil =>
    rcases Nat.lt_or_eq_of_le hle with hlt | rfl
    · have hinc : hncount + 1 < 2 ^ 31 := by omega
      simp [isValidIpv6Loop, afterGroups, MAX_HEX_NUMBER_COUNT, hlt, incHncount_eq hinc]
    · rfl
  | cons e s =>
    cases he : ishexdigit e with
    | false => simp [isValidIpv6Loop, afterGroups, he]
    | true =>
      have hinc : hncount + 1 < 2 ^ 31 := by omega
      have hinc' : hncount + 1 + 1 < 2 ^ 31 := by omega
      simp only [isValidIpv6Loop, afterGroups, he, incHncount_eq hinc, incHncount_eq hinc', ok_bind, if_true, ne_eq,
        true_and, and_self, Bool.false_eq_true, if_false]
      by_cases h7 : hncount = 7
      · simp [h7, MAX_HEX_NUMBER_COUNT]
      · have h8 : ¬ hncount + 1 = MAX_HEX_NUMBER_COUNT := fun h => h7 (Nat.succ.inj h)
        rw [if_neg h8, if_pos h7]

theorem afterGroups_colon {d : UInt8} (hbad : d = 58 → packed = true) :
    afterGroups hncount packed (58 :: d :: s) = .ok false := by
  refine if_neg ?_
  rintro ⟨-, hcolon, hpacked⟩
  rw [hbad hcolon] at hpacked
  cases hpacked

theorem afterGroups_ne_colon {c : UInt8} (hc : c ≠ 58) : afterGroups hncount packed (c :: s) = .ok false := by
  cases s with
  | nil => rfl
  | cons d s => exact if_neg fun h => hc h.1

theorem eq_four_of_not {c : UInt8} (h : ¬(ishexdigit c && decide (hdcount < 4)) = true) (h4 : hdcount ≤ 4)
    (hc : ishexdigit c = true) : hdcount = 4 := by
  simp only [hc, Bool.true_and, decide_eq_true_eq] at h
  omega

/-- Up to eight groups the loop counts them. -/
theorem isValidIpv6Loop_scan (hle : hncount ≤ 8) (h4 : hdcount ≤ 4) :
    isValidIpv6Loop hdcount hncount packed s =
      if hncount + (scanGroups hdcount s).1 ≤ 8 then
        afterGroups (hncount + (scanGroups hdcount s).1) packed (scanGroups hdcount s).2
      else .ok false := by
  fun_induction scanGroups hdcount s generalizing hncount with
  | case1 hdcount => exact (if_pos hle).symm
  | case2 hdcount => exact (if_pos hle).symm
  | case3 hdcount d s hd ih =>
    rcases Nat.lt_or_eq_of_le hle with hlt | rfl
    · rw [isValidIpv6Loop_group hd (Nat.ne_of_lt hlt), incHncount_eq (by omega)]
      refine (ih (by omega : hncount + 1 ≤ 8) (by decide)).trans ?_
      rw [Nat.add_right_comm, Nat.add_assoc]
    · rw [isValidIpv6Loop_eight hd, if_neg (by simp)]
  | case4 hdcount d s hd =>
    refine Eq.trans ?_ (if_pos hle).symm
    by_cases hdouble : d = 58 ∧ packed = false
    · obtain ⟨rfl, rfl⟩ := hdouble
      exact isValidIpv6Loop_double hle
    · have hbad : d = 58 → packed = true := by simpa using hdouble
      exact (isValidIpv6Loop_colon (by simpa using hd) hbad).trans (afterGroups_colon hbad).symm
  | case5 hdcount c s hc hdigit ih =>
    obtain ⟨hdigit, hlt⟩ : ishexdigit c = true ∧ hdcount < 4 := by simpa using hdigit
    rw [isValidIpv6Loop_digit hdigit hlt, ih hle hlt]
  | case6 hdcount c s hc hdigit =>
    refine (isValidIpv6Loop_bad hc (eq_four_of_not hdigit h4)).trans (Eq.trans ?_ (if_pos hle).symm)
    exact (afterGroups_ne_colon hc).symm

/-- Past eight it does not stop at any number of groups. -/
theorem isValidIpv6Loop_scan_past (hlt : 8 < hncount) (hmax : hncount < 2 ^ 31) (h4 : hdcount ≤ 4) :
    isValidIpv6Loop hdcount hncount true s =
      if hncount + (scanGroups hdcount s).1 < 2 ^ 31 then .ok ((scanGroups hdcount s).2 = [])
      else .error .overflow := by
  fun_induction scanGroups hdcount s generalizing hncount with
  | case1 hdcount =>
    refine Eq.trans ?_ (if_pos hmax).symm
    simp [isValidIpv6Loop]
  | case2 hdcount => exact (if_pos hmax).symm
  | case3 hdcount d s hd ih =>
    rw [isValidIpv6Loop_group hd (Nat.ne_of_gt hlt)]
    by_cases hinc : hncount + 1 < 2 ^ 31
    · rw [incHncount_eq hinc]
      refine (ih (by omega : 8 < hncount + 1) hinc (by decide)).trans ?_
      rw [Nat.add_right_comm, Nat.add_assoc]
    · have hover : ¬ hncount + ((scanGroups 1 s).1 + 1) < 2 ^ 31 := by omega
      rw [incHncount, if_neg hinc, if_neg hover]
      rfl
  | case4 hdcount d s hd =>
    exact (isValidIpv6Loop_colon (by simpa using hd) fun _ => rfl).trans (if_pos hmax).symm
  | case5 hdcount c s hc hdigit ih =>
    obtain ⟨hdigit, hlt'⟩ : ishexdigit c = true ∧ hdcount < 4 := by simpa using hdigit
    rw [isValidIpv6Loop_digit hdigit hlt', ih hlt hmax hlt']
  | case6 hdcount c s hc hdigit =>
    exact (isValidIpv6Loop_bad hc (eq_four_of_not hdigit h4)).trans (if_pos hmax).symm

/-- **Up to eight groups**, from the first digit of one. -/
theorem isValidIpv6Loop_eq (hle : hncount ≤ 8) (packed : Bool) (s : List UInt8) :
    isValidIpv6Loop 1 hncount packed s =
      if hncount + (scanGroups 1 s).1 ≤ 8 then afterGroups (hncount + (scanGroups 1 s).1) packed (scanGroups 1 s).2
      else .ok false :=
  isValidIpv6Loop_scan hle (by decide)

/-- **Past eight groups**, after `::` has made the count ten. -/
theorem isValidIpv6Loop_past (s : List UInt8) :
    isValidIpv6Loop 1 10 true s =
      if 10 + (scanGroups 1 s).1 < 2 ^ 31 then .ok ((scanGroups 1 s).2 = []) else .error .overflow :=
  isValidIpv6Loop_scan_past (by decide) (by decide) (by decide)

/-! ## What is accepted -/

/-- After groups that end the text or come before `::`. -/
theorem isValidIpv6Groups_eq (hgs : ∀ g ∈ gs, HexGroup g) (hne : gs ≠ [])
    (hr : ∀ hdcount, scanGroups hdcount r = (0, r)) :
    isValidIpv6Groups packed (groupsText gs ++ r) =
      if gs.length ≤ 8 then afterGroups gs.length packed r else .ok false := by
  obtain ⟨c, s, hdcount, htext, hc, hscan⟩ := groupsText_append hgs hne r
  have hpos := List.length_pos_of_ne_nil hne
  have hlen : 1 + (gs.length - 1) = gs.length := by omega
  rw [htext, isValidIpv6Groups, if_pos hc, isValidIpv6Loop_eq (by decide), hscan, hr]
  simp only [Nat.add_zero, hlen]

theorem scanGroups_nil (hdcount : Nat) : scanGroups hdcount [] = (0, []) := rfl

theorem scanGroups_double (s : List UInt8) (hdcount : Nat) :
    scanGroups hdcount (58 :: 58 :: s) = (0, 58 :: 58 :: s) := rfl

/-- A text that starts with a group does not start with a colon. -/
theorem isValidIpv6_groups (hgs : ∀ g ∈ gs, HexGroup g) (hne : gs ≠ []) :
    isValidIpv6 (groupsText gs ++ r) = isValidIpv6Groups false (groupsText gs ++ r) := by
  obtain ⟨c, s, hdcount, htext, hc, hscan⟩ := groupsText_append hgs hne r
  rw [htext, isValidIpv6.eq_def]
  exact if_neg (ne_colon_of_ishexdigit hc)

theorem isValidIpv6_double (hgs : ∀ g ∈ gs, HexGroup g) (hne : gs ≠ []) :
    isValidIpv6 (58 :: 58 :: groupsText gs) = if gs.length ≤ 8 then .ok true else .ok false := by
  have hgroups : isValidIpv6Groups true (groupsText gs ++ []) = _ := isValidIpv6Groups_eq hgs hne scanGroups_nil
  obtain ⟨c, s, hdcount, htext, hc, hscan⟩ := groupsText_append hgs hne []
  rw [htext] at hgroups
  rw [List.append_nil] at htext
  rw [htext]
  refine Eq.trans ?_ (hgroups.trans ?_)
  · rfl
  · simp [afterGroups]

/-- What the loop goes on with after the first `::`. -/
theorem afterGroups_double (hgs : ∀ g ∈ gs, HexGroup g) (hne : gs ≠ []) (h7 : hncount ≠ 7) (r : List UInt8) :
    ∃ s hdcount, afterGroups hncount false (58 :: 58 :: (groupsText gs ++ r)) = isValidIpv6Loop 1 (hncount + 2) true s ∧
      scanGroups 1 s = (gs.length - 1 + (scanGroups hdcount r).1, (scanGroups hdcount r).2) := by
  obtain ⟨c, s, hdcount, htext, hc, hscan⟩ := groupsText_append hgs hne r
  refine ⟨s, hdcount, ?_, hscan⟩
  rw [htext, afterGroups, if_pos ⟨rfl, rfl, rfl⟩]
  exact if_pos ⟨hc, h7⟩

/-- **Addresses are accepted.** -/
theorem Rfc4291.isValid (h : Rfc4291 s) : isValidIpv6 s = .ok true := by
  cases h with
  | @full gs hgs hlen =>
    have hne : gs ≠ [] := List.ne_nil_of_length_eq_add_one hlen
    have htext := isValidIpv6_groups (r := []) hgs hne
    rw [isValidIpv6Groups_eq hgs hne scanGroups_nil, hlen, List.append_nil] at htext
    exact htext
  | @packed gs gs' hgs hgs' hlen =>
    by_cases hne : gs = []
    · subst hne
      by_cases hne' : gs' = []
      · subst hne'
        rfl
      · -- `::` at the beginning
        have hle : gs'.length ≤ 8 := by rw [List.length_nil] at hlen; omega
        exact (isValidIpv6_double hgs' hne').trans (if_pos hle)
    · have hle : gs.length ≤ 8 := by omega
      rw [isValidIpv6_groups hgs hne, isValidIpv6Groups_eq hgs hne (scanGroups_double _), if_pos hle]
      by_cases hne' : gs' = []
      · -- `::` at the end
        have hlt : gs.length < 8 := by omega
        subst hne'
        simp [afterGroups, groupsText, hlt]
      · -- `::` inside
        have hpos := List.length_pos_of_ne_nil hne'
        obtain ⟨s, hdcount, hafter, hscan⟩ := afterGroups_double hgs' hne' (by omega : gs.length ≠ 7) []
        have hle' : gs.length + 2 + (gs'.length - 1) ≤ 8 := by omega
        rw [List.append_nil] at hafter
        rw [hafter, isValidIpv6Loop_eq (by omega), hscan]
        refine (if_pos hle').trans ?_
        simp [scanGroups_nil, afterGroups]

/-- Nothing but the end may follow the groups after `::`. -/
theorem eq_nil_of_afterGroups (h : afterGroups hncount true r ≠ .ok false) : r = [] := by
  cases r with
  | nil => rfl
  | cons c r =>
    cases r with
    | nil => exact absurd rfl h
    | cons d r => exact absurd (if_neg (by simp)) h

theorem exists_digit_of_groups (h : isValidIpv6Groups packed s ≠ .ok false) :
    ∃ c t, s = c :: t ∧ ishexdigit c = true ∧ isValidIpv6Loop 1 1 packed t ≠ .ok false := by
  cases s with
  | nil => exact absurd rfl h
  | cons c s =>
    rw [isValidIpv6Groups] at h
    split_ifs at h with hc
    · exact ⟨c, s, rfl, hc, h⟩
    · exact absurd rfl h

/-- What is not refused after a `::` at the beginning. -/
theorem leading_of_groups (h : isValidIpv6Groups true s ≠ .ok false) :
    Rfc4291 (58 :: 58 :: s) ∨ Ipv6Overlong (58 :: 58 :: s) := by
  obtain ⟨c, s, rfl, hc, h⟩ := exists_digit_of_groups h
  obtain ⟨gs, htext, hgs, hlen⟩ := eq_groupsText_of_scan hc s
  rw [isValidIpv6Loop_eq (by decide)] at h
  split_ifs at h with hle
  · rw [eq_nil_of_afterGroups h, List.append_nil] at htext
    rw [htext]
    rcases Nat.lt_or_eq_of_le hle with hlt | heq
    · exact .inl (@Rfc4291.packed [] gs (by simp) hgs (by rw [List.length_nil]; omega))
    · exact .inr (.leading hgs (by omega))
  · exact absurd rfl h

/-- What is not refused after groups and the first `::`. -/
theorem of_afterDouble {e : UInt8} (hgs : ∀ g ∈ gs, HexGroup g) (hle : gs.length ≤ 8) (he : ishexdigit e = true)
    (h7 : gs.length ≠ 7) (h : isValidIpv6Loop 1 (gs.length + 2) true t ≠ .ok false) :
    Rfc4291 (groupsText gs ++ 58 :: 58 :: e :: t) ∨ Ipv6Overlong (groupsText gs ++ 58 :: 58 :: e :: t) := by
  obtain ⟨gs', htext, hgs', hlen'⟩ := eq_groupsText_of_scan he t
  rw [htext]
  by_cases h8 : gs.length = 8
  · -- the count is past eight and has no limit any more
    have hne : gs' ≠ [] := List.ne_nil_of_length_eq_add_one hlen'
    refine .inr (.inside hgs h8 hgs' hne ?_)
    rw [h8, isValidIpv6Loop_past] at h
    split_ifs at h with hmax
    · exact .inl (by simpa using h)
    · exact .inr (by omega)
  · rw [isValidIpv6Loop_eq (by omega)] at h
    split_ifs at h with hle'
    · rw [eq_nil_of_afterGroups h, List.append_nil]
      exact .inl (.packed hgs hgs' (by omega))
    · exact absurd rfl h

/-- What is not refused after groups that no `::` comes before. -/
theorem of_afterGroups (hgs : ∀ g ∈ gs, HexGroup g) (hle : gs.length ≤ 8)
    (h : afterGroups gs.length false r ≠ .ok false) :
    Rfc4291 (groupsText gs ++ r) ∨ Ipv6Overlong (groupsText gs ++ r) := by
  cases r with
  | nil =>
    have hlen : ¬ gs.length < 8 := by simpa [afterGroups] using h
    rw [List.append_nil]
    exact .inl (.full hgs (by omega))
  | cons c r =>
    cases r with
    | nil => exact absurd rfl h
    | cons d r =>
      rw [afterGroups.eq_def] at h
      simp only [and_true] at h
      split_ifs at h with hcolons
      · obtain ⟨rfl, rfl⟩ := hcolons
        cases r with
        | nil =>
          have hlt : gs.length < 8 := by simpa using h
          exact .inl (@Rfc4291.packed gs [] hgs (by simp) (by rw [List.length_nil]; omega))
        | cons e t =>
          obtain ⟨⟨he, h7⟩, h⟩ : (ishexdigit e = true ∧ gs.length ≠ 7) ∧
              isValidIpv6Loop 1 (gs.length + 2) true t ≠ .ok false := by
            dsimp only at h
            split_ifs at h with hdigit
            · exact ⟨hdigit, h⟩
            · exact absurd rfl h
          exact of_afterDouble hgs hle he h7 h
      · exact absurd rfl h

/-- What is not refused of a text without one. -/
theorem inside_of_groups (h : isValidIpv6Groups false s ≠ .ok false) : Rfc4291 s ∨ Ipv6Overlong s := by
  obtain ⟨c, s, rfl, hc, h⟩ := exists_digit_of_groups h
  obtain ⟨gs, htext, hgs, hlen⟩ := eq_groupsText_of_scan hc s
  rw [isValidIpv6Loop_eq (by decide)] at h
  split_ifs at h with hle
  · rw [htext]
    rw [Nat.add_comm, ← hlen] at h hle
    exact of_afterGroups hgs hle h
  · exact absurd rfl h

/-- **What is not refused** is the text of an address, or too long. -/
theorem rfc4291_or_overlong (h : isValidIpv6 s ≠ .ok false) : Rfc4291 s ∨ Ipv6Overlong s := by
  cases s with
  | nil => exact absurd rfl h
  | cons c s =>
    rw [isValidIpv6.eq_def] at h
    by_cases hc : c = 58
    · subst hc
      cases s with
      | nil => exact absurd rfl h
      | cons d s =>
        by_cases hd : d = 58
        · subst hd
          by_cases hs : s = []
          · subst hs
            exact .inl (@Rfc4291.packed [] [] (by simp) (by simp) (by decide))
          · simp only [if_true, ne_eq, not_true_eq_false, if_false, if_neg hs] at h
            exact leading_of_groups h
        · exact absurd (if_pos hd) h
    · simp only [if_neg hc] at h
      exact inside_of_groups h

/-- A text that is too long is not refused. -/
theorem Ipv6Overlong.not_refused (h : Ipv6Overlong s) : isValidIpv6 s ≠ .ok false := by
  cases h with
  | @leading gs hgs hlen =>
    have hne : gs ≠ [] := List.ne_nil_of_length_eq_add_one hlen
    rw [isValidIpv6_double hgs hne, hlen]
    simp
  | @inside gs gs' rest hgs hlen hgs' hne' hrest =>
    have hne : gs ≠ [] := List.ne_nil_of_length_eq_add_one hlen
    have hpos := List.length_pos_of_ne_nil hne'
    obtain ⟨s, hdcount, hafter, hscan⟩ := afterGroups_double hgs' hne' (by decide : 8 ≠ 7) rest
    rw [isValidIpv6_groups hgs hne, isValidIpv6Groups_eq hgs hne (scanGroups_double _), hlen, if_pos (Nat.le_refl 8),
      hafter, isValidIpv6Loop_past, hscan]
    rcases hrest with rfl | hover
    · rw [scanGroups_nil]
      split <;> simp
    · have hover' : ¬ 8 + 2 + (gs'.length - 1 + (scanGroups hdcount rest).1) < 2 ^ 31 := by omega
      rw [if_neg hover']
      simp

/-! ## Colons -/

theorem HexGroup.count_colon {g : List UInt8} (h : HexGroup g) : g.count 58 = 0 := by
  apply List.count_eq_zero_of_not_mem
  intro hmem
  have := h.digits 58 hmem
  cases this

theorem count_flatMap_colon (hgs : ∀ g ∈ gs, HexGroup g) : (gs.flatMap (58 :: ·)).count 58 = gs.length := by
  induction gs with
  | nil => rfl
  | cons g gs ih =>
    rw [List.flatMap_cons, List.cons_append, List.count_cons_self, List.count_append,
      (hgs g List.mem_cons_self).count_colon, Nat.zero_add, ih fun g hg => hgs g (List.mem_cons_of_mem _ hg),
      List.length_cons]

theorem count_groupsText (hgs : ∀ g ∈ gs, HexGroup g) : (groupsText gs).count 58 = gs.length - 1 := by
  cases gs with
  | nil => rfl
  | cons g gs =>
    rw [groupsText, List.count_append, (hgs g List.mem_cons_self).count_colon, Nat.zero_add, List.length_cons,
      Nat.add_sub_cancel]
    exact count_flatMap_colon fun g hg => hgs g (List.mem_cons_of_mem _ hg)

/-- An address has at most eight colons. -/
theorem Rfc4291.count_le (h : Rfc4291 s) : s.count 58 ≤ 8 := by
  cases h with
  | full hgs hlen => rw [count_groupsText hgs]; omega
  | packed hgs hgs' hlen =>
    simp only [List.count_append, List.count_cons_self, count_groupsText hgs, count_groupsText hgs']
    omega

/-- What is too long has more. -/
theorem Ipv6Overlong.lt_count (h : Ipv6Overlong s) : 8 < s.count 58 := by
  cases h with
  | leading hgs hlen =>
    simp only [List.count_cons_self, count_groupsText hgs]
    omega
  | inside hgs hlen hgs' hne' hrest =>
    simp only [List.count_append, List.count_cons_self, count_groupsText hgs]
    omega

end Scan

/-- **The validator** answers right on exactly the texts that are not too long. -/
theorem is_valid_ipv6_iff (s : List UInt8) :
    (∃ valid, isValidIpv6 s = .ok valid ∧ (valid = true ↔ Rfc4291 s)) ↔ ¬Ipv6Overlong s := by
  constructor
  · rintro ⟨valid, hvalid, hiff⟩ hover
    cases valid with
    | false => exact hover.not_refused hvalid
    | true => exact absurd (hiff.mp rfl).count_le (Nat.not_le.mpr hover.lt_count)
  · intro hover
    by_cases hrfc : Rfc4291 s
    · exact ⟨true, hrfc.isValid, iff_of_true rfl hrfc⟩
    · refine ⟨false, ?_, iff_of_false Bool.false_ne_true hrfc⟩
      by_contra h
      exact (rfc4291_or_overlong h).elim hrfc hover

/-- **Texts with nine groups** are accepted: `::1:2:3:4:5:6:7:8`, and `1:2:3:4:5:6:7:8::9`. -/
theorem is_valid_ipv6_too_long :
    let leading := ascii [':', ':', '1', ':', '2', ':', '3', ':', '4', ':', '5', ':', '6', ':', '7', ':', '8']
    let inside := ascii ['1', ':', '2', ':', '3', ':', '4', ':', '5', ':', '6', ':', '7', ':', '8', ':', ':', '9']
    isValidIpv6 leading = .ok true ∧ ¬Rfc4291 leading ∧ isValidIpv6 inside = .ok true ∧ ¬Rfc4291 inside := by
  refine ⟨by decide, fun h => ?_, by decide, fun h => ?_⟩
  · exact absurd h.count_le (by decide)
  · exact absurd h.count_le (by decide)

end Libcp2p
