import JavaScriptCore.Wtf.URLParser.IPv6
import Mathlib.Data.List.TakeWhile

/-!
# The text of an IPv6 address

The serializer writes the canonical text of an address and the parser reads it back. In general the
parser reads what the URL standard calls a valid address, but for two cases: after a compression it
takes a single colon at the end for nothing, and it refuses a dotted tail that is the sixth piece.
-/

namespace JavaScriptCore.Wtf.URLParser

open List Nat Reading

open Json (Text)

/-- The numeral in a base, in lower case and without leading zeros. -/
def numeral (base n : Nat) : Text := (toDigits base n).map Char.toNat

/-- The numerals with colons between them. -/
def joined (pieces : List Nat) : Text := [0x3a].intercalate (pieces.map (numeral 16))

/-- There are so many zeros at an index. -/
def Zeros (pieces : List Nat) (begin length : Nat) : Prop :=
  ∀ i, begin ≤ i → i < begin + length → pieces[i]? = some 0

/-- The first of the longest sequences of zeros, which has at least two of them. -/
structure FirstLongest (pieces : List Nat) (begin length : Nat) : Prop where
  two_le : 2 ≤ length
  zeros : Zeros pieces begin length
  longest : ∀ begin' length', Zeros pieces begin' length' →
    length' ≤ length ∧ (length' = length → begin ≤ begin')

/-- The canonical text of an address. -/
def IsCanonical (pieces : List Nat) (text : Text) : Prop :=
  (∀ begin, ¬ Zeros pieces begin 2) ∧ text = joined pieces ∨
    ∃ begin length, FirstLongest pieces begin length ∧
      text = joined (pieces.take begin) ++ 0x3a :: 0x3a :: joined (pieces.drop (begin + length))

/-- One to four hexadecimal digits and their value, or the canonical digits of it only. -/
def IsPiece (canonical : Bool) (part : Text) (value : Nat) : Prop :=
  part ≠ [] ∧ part.length ≤ 4 ∧ numberFrom 16 0 part = some value ∧
    (canonical = true → part = numeral 16 value)

/-- Four decimal numbers below 256 stand for two pieces. -/
def IsTail (text : Text) (values : List Nat) : Prop :=
  ∃ bytes : List Nat, bytes.length = 4 ∧ (∀ byte ∈ bytes, byte < 256) ∧
    text = [0x2e].intercalate (bytes.map (numeral 10)) ∧
    values = [bytes.foldl (· * 256 + ·) 0 / 2 ^ 16, bytes.foldl (· * 256 + ·) 0 % 2 ^ 16]

/-- Pieces with colons between them, the last two possibly as a dotted tail. -/
inductive IsPieces (tail canonical : Bool) : Text → List Nat → Prop where
  | last {part : Text} {v : Nat} : IsPiece canonical part v → IsPieces tail canonical part [v]
  | dotted {text : Text} {values : List Nat} : tail = true → canonical = false →
      IsTail text values → IsPieces tail canonical text values
  | cons {part text : Text} {v : Nat} {values : List Nat} : IsPiece canonical part v →
      IsPieces tail canonical text values →
      IsPieces tail canonical (part ++ 0x3a :: text) (v :: values)

/-- One side of a compression. -/
def IsSide (tail canonical : Bool) (text : Text) (values : List Nat) : Prop :=
  text = [] ∧ values = [] ∨ IsPieces tail canonical text values

/-- A text with a compression, what follows it, and the pieces before and after it. -/
def Compressed (canonical : Bool) (text right : Text) (ls rs : List Nat) : Prop :=
  (∃ left, text = left ++ 0x3a :: 0x3a :: right ∧ IsSide false canonical left ls) ∧
    IsSide true canonical right rs ∧ ls.length + rs.length ≤ 7

/-- The address of a host by the URL standard. -/
def Denotes (text : Text) (address : List Nat) : Prop :=
  IsPieces true false text address ∧ address.length = 8 ∨
    ∃ right ls rs, Compressed false text right ls rs ∧
      address = ls ++ replicate (8 - (ls.length + rs.length)) 0 ++ rs

/-- A colon after the pieces that follow a compression, with room for another one. -/
def ColonAtEnd (text : Text) : Prop :=
  ∃ left right ls rs, text = left ++ 0x3a :: 0x3a :: (right ++ [0x3a]) ∧
    IsSide false false left ls ∧ IsPieces false false right rs ∧ ls.length + rs.length ≤ 6

/-- A compression, a dotted tail and six pieces in all. -/
def SixWithTail (text : Text) : Prop :=
  ∃ right ls rs, Compressed false text right ls rs ∧ 0x2e ∈ right ∧ ls.length + rs.length = 6

/-! ## Numerals -/

abbrev IsLowerHex (c : Nat) : Prop := 0x30 ≤ c ∧ c ≤ 0x39 ∨ 0x61 ≤ c ∧ c ≤ 0x66

section Numerals

variable {base : Nat}

theorem digitChar_spec {d : Nat} (h : d < 16) :
    lowerNibbleToLowercaseASCIIHexDigit d = d.digitChar.toNat ∧
      digit 16 d.digitChar.toNat = some d ∧ IsLowerHex d.digitChar.toNat ∧
      (d.digitChar.toNat = 0x30 → d = 0) := by
  revert d
  decide

theorem numeral_eq (hb : 1 < base) (n : Nat) : numeral base n =
    (if base ≤ n then numeral base (n / base) else []) ++ [(n % base).digitChar.toNat] := by
  unfold numeral
  split_ifs with h
  · rw [toDigits_of_base_le hb h, map_append]
    rfl
  · rw [toDigits_of_lt_base (by omega), mod_eq_of_lt (by omega)]
    rfl

/-- What holds of the numerals of one digit and is kept by writing another one. -/
theorem numeral_induction (hb : 1 < base) {P : Nat → Text → Prop}
    (small : ∀ n < base, P n [n.digitChar.toNat])
    (step : ∀ n ≥ base, P (n / base) (numeral base (n / base)) →
      P n (numeral base (n / base) ++ [(n % base).digitChar.toNat]))
    (n : Nat) : P n (numeral base n) := by
  induction n using Nat.strongRecOn with
  | ind n ih =>
    rw [numeral_eq hb]
    split_ifs with h
    · exact step n h (ih (n / base) (Nat.div_lt_self (by omega) hb))
    · rw [mod_eq_of_lt (by omega)]
      exact small n (by omega)

theorem numeral_ne_nil (hb : 1 < base) (n : Nat) : numeral base n ≠ [] := by
  rw [numeral_eq hb]
  simp

variable (hb : 1 < base) (hle : base ≤ 16)
include hle

theorem digit_digitChar {d : Nat} (hd : d < base) : digit base d.digitChar.toNat = some d := by
  have h := (digitChar_spec (Nat.lt_of_lt_of_le hd hle)).2.1
  unfold digit at h ⊢
  rw [Option.filter_eq_some_iff] at h ⊢
  exact ⟨h.1, by simpa using hd⟩

include hb

theorem isLowerHex_of_mem {n c : Nat} (h : c ∈ numeral base n) : IsLowerHex c := by
  induction n using numeral_induction hb with
  | small n hn =>
    rw [mem_singleton.mp h]
    exact (digitChar_spec (Nat.lt_of_lt_of_le hn hle)).2.2.1
  | step n _ ih =>
    obtain h | h := mem_append.mp h
    · exact ih h
    · rw [mem_singleton.mp h]
      exact (digitChar_spec (Nat.lt_of_lt_of_le (mod_lt n (by omega)) hle)).2.2.1

theorem numberFrom_numeral (n : Nat) : numberFrom base 0 (numeral base n) = some n := by
  induction n using numeral_induction hb with
  | small n hn => simp [numberFrom, digit_digitChar hle hn]
  | step n hn ih =>
    have hd := digit_digitChar hle (mod_lt n (by omega))
    rw [numberFrom, foldlM_append, ← numberFrom, ih]
    simp [hd, div_add_mod']

end Numerals

theorem length_numeral {k n : Nat} (h : n < 16 ^ (k + 1)) : (numeral 16 n).length ≤ k + 1 := by
  induction k generalizing n with
  | zero => simp [numeral_eq, show ¬ 16 ≤ n by omega]
  | succ k ih =>
    rw [numeral_eq (by omega)]
    split
    · have hle := @ih (n / 16) (by rw [Nat.pow_succ] at h; omega)
      simpa using hle
    · simp

theorem head_numeral {n : Nat} (hn : n ≠ 0) : (numeral 16 n).head? ≠ some 0x30 := by
  have hb : 1 < 16 := by omega
  induction n using numeral_induction hb with
  | small n hlt =>
    intro h
    exact hn ((digitChar_spec hlt).2.2.2 (Option.some.inj h))
  | step n hge ih =>
    obtain ⟨c, text, ht⟩ := exists_cons_of_ne_nil (numeral_ne_nil hb (n / 16))
    have hh := ih (by omega)
    rw [ht] at hh ⊢
    exact hh

theorem serializeIPv6Piece_eq {pc : Nat} (h : pc < 2 ^ 16) :
    serializeIPv6Piece pc = numeral 16 pc := by
  have hd {n : Nat} (hn : n < 16) := (digitChar_spec hn).1
  have h0 : pc / 2 ^ 12 = pc / 16 / 16 / 16 := by omega
  have h1 : pc / 2 ^ 8 % 16 = pc / 16 / 16 % 16 := by omega
  have h2 : pc / 2 ^ 4 % 16 = pc / 16 % 16 := by omega
  simp only [serializeIPv6Piece, h0, h1, h2]
  rw [hd (by omega), hd (by omega), hd (by omega), hd (by omega), numeral_eq (by omega) pc,
    numeral_eq (by omega) (pc / 16), numeral_eq (by omega) (pc / 16 / 16),
    numeral_eq (by omega) (pc / 16 / 16 / 16), mod_eq_of_lt (show pc / 16 / 16 / 16 < 16 by omega)]
  split_ifs <;> first | rfl | omega

/-! ## The longest sequence of zeros -/

section Zeros

variable {ps : List Nat}

theorem getElem?_takeWhile_zero (l : List Nat) :
    (∀ i < (l.takeWhile (· = 0)).length, l[i]? = some 0) ∧
      l[(l.takeWhile (· = 0)).length]? ≠ some 0 := by
  induction l with
  | nil => simp
  | cons a l ih =>
    by_cases ha : a = 0
    · rw [takeWhile_cons_of_pos (by simpa using ha)]
      refine ⟨fun i hi => ?_, ih.2⟩
      cases i with
      | zero => exact congrArg some ha
      | succ i => exact ih.1 i (lt_of_succ_lt_succ hi)
    · simp [takeWhile_cons_of_neg, ha]

theorem zeros_zeroSequenceLength (ps : List Nat) (j : Nat) :
    Zeros ps j (zeroSequenceLength ps j) ∧ ps[j + zeroSequenceLength ps j]? ≠ some 0 := by
  obtain ⟨hz, hend⟩ := getElem?_takeWhile_zero (ps.drop j)
  refine ⟨fun i hb hi => ?_, by rwa [List.getElem?_drop] at hend⟩
  obtain ⟨d, rfl⟩ := Nat.exists_eq_add_of_le hb
  rw [← List.getElem?_drop]
  exact hz d (Nat.lt_of_add_lt_add_left hi)

/-- What is known of the sequences that begin before an index. -/
def Found (pieces : List Nat) (i : Nat) (longest : Option (Nat × Nat)) : Prop :=
  (∀ k n, longest = some (k, n) → 2 ≤ n ∧ k < i ∧ Zeros pieces k n) ∧
    ∀ j < i, ∀ l, Zeros pieces j l → 2 ≤ l →
      ∃ k n, longest = some (k, n) ∧ l ≤ n ∧ (l = n → k ≤ j)

theorem Found.step {i l : Nat} {o : Option (Nat × Nat)} (h : Found ps i o)
    (hl : l = zeroSequenceLength ps i) :
    Found ps (i + l + 1) (if 1 < l ∧ o.all (·.2 < l) then some (i, l) else o) := by
  obtain ⟨hz, hend⟩ := hl ▸ zeros_zeroSequenceLength ps i
  have hnew {j l' : Nat} (hi : i ≤ j) (hb : j < i + l + 1) (hz' : Zeros ps j l') :
      j + l' ≤ i + l := by
    by_contra hlt
    exact hend (hz' (i + l) (by omega) (by omega))
  split_ifs with hc
  · refine ⟨?_, fun j hb l' hz' h2 => ⟨i, l, rfl, ?_⟩⟩
    · rintro k n ⟨⟩
      exact ⟨hc.1, by omega, hz⟩
    by_cases hi : i ≤ j
    · have hle := hnew hi hb hz'
      omega
    · obtain ⟨k, n, rfl, hle, -⟩ := h.2 j (by omega) l' hz' h2
      have hn : n < l := by simpa using hc.2
      omega
  · refine ⟨fun k n hk => ?_, fun j hb l' hz' h2 => ?_⟩
    · obtain ⟨h2, hi, hz⟩ := h.1 k n hk
      exact ⟨h2, by omega, hz⟩
    by_cases hi : i ≤ j
    · have hle := hnew hi hb hz'
      cases o with
      | none => exact absurd ⟨by omega, rfl⟩ hc
      | some o =>
        have hk := h.1 _ _ rfl
        have hn : 1 < l → l ≤ o.2 := by simpa using hc
        exact ⟨_, _, rfl, by omega, by omega⟩
    · exact h.2 j (by omega) l' hz' h2

theorem found_findLongestFrom {i : Nat} {o : Option (Nat × Nat)} (h : Found ps i o) :
    ∃ stop ≥ 8, Found ps stop (findLongestFrom ps i o) := by
  fun_induction findLongestFrom ps i o with
  | case1 i o hi l ih => exact ih (h.step rfl)
  | case2 i o hi => exact ⟨i, by omega, h⟩

theorem findLongestZeroSequence_spec (hlen : ps.length = 8) :
    findLongestZeroSequence ps = none ∧ (∀ j, ¬ Zeros ps j 2) ∨
      ∃ k n, findLongestZeroSequence ps = some k ∧ FirstLongest ps k n := by
  obtain ⟨stop, hj, hf, hall⟩ := @found_findLongestFrom ps 0 none ⟨by simp, by omega⟩
  have hin : ∀ j l, Zeros ps j l → 2 ≤ l → j < stop := by
    intro j l hz h2
    obtain ⟨hlt, -⟩ := List.getElem?_eq_some_iff.mp (hz j (by omega) (by omega))
    omega
  unfold findLongestZeroSequence
  cases hl : findLongestFrom ps 0 none with
  | none =>
    refine .inl ⟨rfl, fun j hz => ?_⟩
    obtain ⟨k, n, hk, -⟩ := hall j (hin j 2 hz (by omega)) 2 hz (by omega)
    rw [hl] at hk
    cases hk
  | some o =>
    obtain ⟨h2, -, hz⟩ := hf _ _ hl
    refine .inr ⟨o.1, o.2, rfl, h2, hz, fun j l hz' => ?_⟩
    by_cases hle : 2 ≤ l
    · obtain ⟨k, n, hk, h⟩ := hall j (hin j l hz' hle) l hz' hle
      rw [hl] at hk
      cases hk
      exact h
    · omega

variable {k n : Nat} (h : FirstLongest ps k n)

include h

theorem FirstLongest.zeroSequenceLength_eq :
    zeroSequenceLength ps k = n := by
  obtain ⟨hz, hend⟩ := zeros_zeroSequenceLength ps k
  have hle := (h.longest k _ hz).1
  by_contra hne
  exact hend (h.zeros _ (by omega) (by omega))

theorem FirstLongest.add_le :
    k + n ≤ ps.length := by
  have h2 := h.two_le
  obtain ⟨hlt, -⟩ := List.getElem?_eq_some_iff.mp (h.zeros (k + n - 1) (by omega) (by omega))
  omega

theorem FirstLongest.split :
    ps.take k ++ replicate n 0 ++ ps.drop (k + n) = ps := by
  have hle := h.add_le
  refine ext_getElem? fun i => ?_
  have hz := h.zeros i
  grind

end Zeros

/-! ## Writing an address -/

theorem joined_cons (pc : Nat) (ps : List Nat) : joined (pc :: ps) =
    numeral 16 pc ++ if ps = [] then [] else 0x3a :: joined ps := by
  cases ps <;> simp [joined, intercalate_cons_cons]

section Serialize

variable {ps : List Nat} (hlen : ps.length = 8) (hlt : ∀ pc ∈ ps, pc < 2 ^ 16)
include hlen hlt

theorem serialize_piece {i : Nat} (hi : i < 8) :
    serializeIPv6Piece (ps.getD i 0) ++ (if i < 7 then [0x3a] else []) ++
      joined (ps.drop (i + 1)) = joined (ps.drop i) := by
  have hi' : i < ps.length := by omega
  rw [getD_eq_getElem?_getD, List.getElem?_eq_getElem hi', Option.getD_some,
    serializeIPv6Piece_eq (hlt _ (getElem_mem hi')), drop_eq_getElem_cons hi', joined_cons]
  by_cases h7 : i < 7
  · have hne : ps.drop (i + 1) ≠ [] := by
      rw [Ne, drop_eq_nil_iff]
      omega
    simp [h7, hne]
  · have hnil : ps.drop (i + 1) = [] := drop_eq_nil_iff.mpr (by omega)
    simp [h7, hnil, joined]

theorem serializeFrom_after {k i : Nat} {c : Option Nat} (hc : ∀ k ∈ c, k < i) (hk : i + k = 8) :
    serializeFrom ps c i = joined (ps.drop i) := by
  induction k generalizing i with
  | zero =>
    rw [serializeFrom, if_neg (by omega), drop_eq_nil_iff.mpr (by omega)]
    rfl
  | succ k ih =>
    have hne : ¬ c = some i := fun h => Nat.lt_irrefl i (hc i h)
    rw [serializeFrom, if_pos (by omega), ← serialize_piece hlen hlt (by omega)]
    simp only [hne, if_false, nil_append]
    rw [if_neg (by omega), ih (fun k h => by have := hc k h; omega) (by omega)]

theorem serializeFrom_compressed {d i n : Nat} (hn : zeroSequenceLength ps (i + d) = n)
    (hpos : 0 < n) (hk : i + d + n ≤ 8) :
    serializeFrom ps (some (i + d)) i = joined ((ps.drop i).take d) ++
      (if d = 0 ∧ 0 < i then [] else [0x3a]) ++ 0x3a :: joined (ps.drop (i + d + n)) := by
  induction d generalizing i with
  | zero =>
    rw [Nat.add_zero] at hn hk ⊢
    rw [serializeFrom, if_pos (by omega)]
    simp only [if_true, hn, take_zero, true_and]
    have hrest : (if i + n = 8 then [] else serializeIPv6Piece (ps.getD (i + n) 0) ++
        (if i + n < 7 then [0x3a] else []) ++ serializeFrom ps (some i) (i + n + 1)) =
        joined (ps.drop (i + n)) := by
      split
      · rw [drop_eq_nil_iff.mpr (by omega)]
        rfl
      · rw [serializeFrom_after hlen hlt (k := 8 - (i + n + 1)) (fun _ h => by cases h; omega)
            (by omega),
          serialize_piece hlen hlt (by omega)]
    rw [hrest]
    split_ifs <;> first | rfl | omega
  | succ d ih =>
    have hi : i < ps.length := by omega
    have hnext := @ih (i + 1) (by rwa [Nat.add_right_comm]) (by omega)
    rw [Nat.add_right_comm i 1 d] at hnext
    rw [serializeFrom, if_pos (by omega), drop_eq_getElem_cons hi, take_succ_cons, joined_cons]
    simp only [Option.some.injEq, show ¬ i + (d + 1) = i by omega, if_false, nil_append]
    rw [if_neg (by omega), if_pos (by omega), getD_eq_getElem?_getD, List.getElem?_eq_getElem hi,
      Option.getD_some, ← Nat.add_assoc, hnext, serializeIPv6Piece_eq (hlt _ (getElem_mem hi))]
    cases d with
    | zero => simp [joined]
    | succ d =>
      have hne : (ps.drop (i + 1)).take (d + 1) ≠ [] := by
        simp
        omega
      simp [hne]

end Serialize

theorem serializeFrom_cases (addr : IPv6Address) :
    findLongestZeroSequence addr.pieces = none ∧ (∀ begin, ¬ Zeros addr.pieces begin 2) ∧
        serializeFrom addr.pieces none 0 = joined addr.pieces ∨
      ∃ k n, findLongestZeroSequence addr.pieces = some k ∧ FirstLongest addr.pieces k n ∧
        serializeFrom addr.pieces (some k) 0 = joined (addr.pieces.take k) ++
          0x3a :: 0x3a :: joined (addr.pieces.drop (k + n)) := by
  obtain ⟨ps, hlen, hlt⟩ := addr
  obtain ⟨hn, hz⟩ | ⟨k, n, hk, hf⟩ := findLongestZeroSequence_spec hlen
  · exact .inl ⟨hn, hz, serializeFrom_after hlen hlt (k := 8) (by simp) rfl⟩
  refine .inr ⟨k, n, hk, hf, ?_⟩
  have h2 := hf.two_le
  have hle := hf.add_le
  have hc := serializeFrom_compressed hlen hlt (d := k) (i := 0)
    (Nat.zero_add k ▸ hf.zeroSequenceLength_eq) (by omega) (by omega)
  simpa using hc

/-! ## Dotted tails -/

variable {c : Nat}

theorem eq_digitChar_of_digit {d : Nat} (h : digit 10 c = some d) :
    d < 10 ∧ c = d.digitChar.toNat := by
  have hc : d < 10 ∧ c = d + 0x30 := by
    unfold digit at h
    split_ifs at h <;> simp [Option.filter_eq_some_iff] at h <;> omega
  refine ⟨hc.1, hc.2.trans ?_⟩
  replace hc := hc.1
  clear h
  revert d
  decide

theorem parseIPv4PieceFrom_leadingZeros (pc : Nat) (text : Text) :
    parseIPv4PieceFrom pc true text = none := by
  induction text generalizing pc with
  | nil => rfl
  | cons c text ih =>
    unfold parseIPv4PieceFrom
    cases digit 10 c with
    | none => rfl
    | some d =>
      simp only [Bool.true_or, and_true, ih]
      split_ifs <;> first | rfl | omega

theorem parseIPv4PieceFrom_sound {pc v : Nat} {text t : Text}
    (h : parseIPv4PieceFrom pc false text = some (v, t)) :
    v < 256 ∧ Ended t ∧ ∃ digits, text = digits ++ t ∧
      numeral 10 v = (if pc = 0 then [] else numeral 10 pc) ++ digits := by
  induction text generalizing pc with
  | nil => cases h
  | cons c text ih =>
    unfold parseIPv4PieceFrom at h
    cases hd : digit 10 c with
    | none => simp [hd] at h
    | some d =>
      obtain ⟨hlt, rfl⟩ := eq_digitChar_of_digit hd
      have hc : numeral 10 (pc * 10 + d) =
          (if pc = 0 then [] else numeral 10 pc) ++ [d.digitChar.toNat] := by
        rw [numeral_eq (by omega), show (pc * 10 + d) / 10 = pc by omega,
          show (pc * 10 + d) % 10 = d by omega]
        split_ifs <;> first | rfl | omega
      simp only [hd, Bool.false_or, Bool.false_eq_true, and_false, if_false] at h
      split_ifs at h with h1 h2 h3
      · cases h
        exact ⟨by omega, h2, _, rfl, hc⟩
      cases hz : (decide (pc = 0) && decide (d = 0)) with
      | true =>
        rw [hz, parseIPv4PieceFrom_leadingZeros] at h
        cases h
      | false =>
        rw [hz] at h
        obtain ⟨hv, hr, digits, rfl, hn⟩ := ih h
        have h0 : pc * 10 + d ≠ 0 := by
          simp at hz
          omega
        rw [if_neg h0, hc] at hn
        exact ⟨hv, hr, _ :: digits, rfl, by rw [hn, append_assoc]; rfl⟩

theorem parseIPv4PieceFrom_append {pc v : Nat} {zeros : Bool} {text t : Text}
    (hdot : 0x2e ∉ text) (hr : Ended t) (h : parseIPv4PieceFrom pc zeros text = some (v, [])) :
    parseIPv4PieceFrom pc zeros (text ++ t) = some (v, t) := by
  induction text generalizing pc zeros with
  | nil => cases h
  | cons c text ih =>
    rw [mem_cons, not_or] at hdot
    rw [cons_append]
    unfold parseIPv4PieceFrom at h ⊢
    cases hd : digit 10 c with
    | none => simp [hd] at h
    | some d =>
      cases text with
      | nil =>
        simp only [hd, nil_append, true_or, if_true] at h ⊢
        rw [if_pos (show t = [] ∨ t.head? = some 0x2e from hr)]
        split_ifs at h ⊢
        cases h
        rfl
      | cons e text =>
        have he : ¬ e = 0x2e := fun he => hdot.2 (he ▸ mem_cons_self)
        simp only [hd, cons_append, cons_ne_nil, head?_cons, Option.some.injEq, he,
          or_self, if_false] at h ⊢
        split_ifs at h ⊢
        exact ih hdot.2 h

/-- A piece of a tail is a number below 256 without leading zeros. -/
theorem parseIPv4PieceFrom_iff {v : Nat} {text t : Text} :
    parseIPv4PieceFrom 0 false text = some (v, t) ↔
      v < 256 ∧ Ended t ∧ text = numeral 10 v ++ t := by
  constructor
  · intro h
    obtain ⟨hv, hr, digits, rfl, hn⟩ := parseIPv4PieceFrom_sound h
    exact ⟨hv, hr, hn ▸ rfl⟩
  rintro ⟨hv, hr, rfl⟩
  refine parseIPv4PieceFrom_append (fun hmem => ?_) hr ?_
  · have hx := isLowerHex_of_mem (by omega) (by omega) hmem
    omega
  · revert v
    decide +kernel

theorem parseIPv4AddressFrom_iff {more addr ipv4 : Nat} {text : Text} :
    parseIPv4AddressFrom more addr text = some ipv4 ↔ ∃ bytes : List Nat,
      bytes.length = more + 1 ∧ (∀ byte ∈ bytes, byte < 256) ∧
        text = [0x2e].intercalate (bytes.map (numeral 10)) ∧
        ipv4 = bytes.foldl (· * 256 + ·) addr := by
  induction more generalizing addr text with
  | zero =>
    simp only [parseIPv4AddressFrom, Option.bind_eq_bind, Option.bind_eq_some_iff, Prod.exists,
      parseIPv4PieceFrom_iff]
    constructor
    · rintro ⟨v, t, ⟨hv, -, rfl⟩, h⟩
      split_ifs at h with hr
      cases h
      exact ⟨[v], rfl, by simpa using hv, by simp [hr], rfl⟩
    · rintro ⟨bytes, hlen, hb, rfl, rfl⟩
      obtain ⟨v, rfl⟩ := length_eq_one_iff.mp hlen
      exact ⟨v, [], ⟨hb v mem_cons_self, .inl rfl, by simp⟩, rfl⟩
  | succ more ih =>
    simp only [parseIPv4AddressFrom, Option.bind_eq_bind, Option.bind_eq_some_iff, Prod.exists,
      parseIPv4PieceFrom_iff]
    constructor
    · rintro ⟨v, t, ⟨hv, -, rfl⟩, h⟩
      split_ifs at h with hr
      obtain ⟨t, rfl⟩ := head?_eq_some_iff.mp hr
      obtain ⟨bytes, hlen, hb, rfl, rfl⟩ := ih.mp h
      refine ⟨v :: bytes, by simp [hlen], forall_mem_cons.mpr ⟨hv, hb⟩, ?_, rfl⟩
      obtain ⟨b, bytes, rfl⟩ := exists_cons_of_length_eq_add_one hlen
      simp [intercalate_cons_cons]
    · rintro ⟨bytes, hlen, hb, rfl, rfl⟩
      obtain ⟨v, bytes, rfl⟩ := exists_cons_of_length_eq_add_one hlen
      obtain ⟨b, bytes, rfl⟩ := exists_cons_of_length_eq_add_one (succ.inj hlen)
      rw [forall_mem_cons] at hb
      refine ⟨v, 0x2e :: [0x2e].intercalate ((b :: bytes).map (numeral 10)),
        ⟨hb.1, .inr rfl, ?_⟩, ?_⟩
      · simp [intercalate_cons_cons]
      · rw [head?_cons, if_pos rfl, tail_cons]
        exact ih.mpr ⟨b :: bytes, succ.inj hlen, hb.2, rfl, foldl_cons⟩

variable {vs : List Nat}

theorem isTail_iff {text : Text} : IsTail text vs ↔
    ∃ ipv4, parseIPv4AddressInsideIPv6 text = some ipv4 ∧ vs = [ipv4 / 2 ^ 16, ipv4 % 2 ^ 16] := by
  simp only [parseIPv4AddressInsideIPv6, parseIPv4AddressFrom_iff, IsTail]
  constructor
  · rintro ⟨bytes, hlen, hb, ht, rfl⟩
    exact ⟨_, ⟨bytes, hlen, hb, ht, rfl⟩, rfl⟩
  · rintro ⟨_, ⟨bytes, hlen, hb, ht, rfl⟩, rfl⟩
    exact ⟨bytes, hlen, hb, ht, rfl⟩

theorem IsTail.eq_append {text : Text} (h : IsTail text vs) :
    ∃ byte t, text = numeral 10 byte ++ 0x2e :: t := by
  obtain ⟨bytes, hlen, -, rfl, -⟩ := h
  obtain ⟨b, bytes, rfl⟩ := exists_cons_of_length_eq_add_one hlen
  obtain ⟨b', bytes, rfl⟩ := exists_cons_of_length_eq_add_one (succ.inj hlen)
  exact ⟨b, _, by simp [intercalate_cons_cons]; rfl⟩

/-! ## Reading the pieces -/

variable {part : Text} {m : Nat}

theorem readDigits_append {v : Nat} {t : Text} {d : Digits}
    (hv : numberFrom 16 d.value part = some v) (hlen : part.length ≤ m)
    (hr : part.length < m → ∀ c ∈ t.head?, digit 16 c = none) :
    readDigits m d (part ++ t) = ({
      value := v
      length := d.length + part.length
      leadingZeros := d.leadingZeros || (part.head? = some 0x30 && d.length = 0)
      violation := d.violation || part.any (fun c => 0x41 ≤ c && c ≤ 0x5a) }, t) := by
  induction part generalizing m d with
  | nil =>
    cases hv
    cases m with
    | zero => simp [readDigits]
    | succ m =>
      cases t with
      | nil => simp [readDigits]
      | cons c t => simp [readDigits, hr (zero_lt_succ _) c rfl]
  | cons c part ih =>
    cases m with
    | zero => cases hlen
    | succ m =>
      rw [numberFrom_cons, Option.bind_eq_some_iff] at hv
      obtain ⟨n, hn, hv⟩ := hv
      simp only [cons_append, readDigits, hn]
      rw [ih hv (by simpa using hlen) (by simpa using hr)]
      simp [Nat.add_comm, Nat.add_left_comm, Bool.or_assoc]

theorem hexDigit_of_mem {value v : Nat} (h : numberFrom 16 value part = some v)
    (hc : c ∈ part) : digit 16 c ≠ none := by
  induction part generalizing value with
  | nil => cases hc
  | cons e part ih =>
    rw [numberFrom_cons, Option.bind_eq_some_iff] at h
    obtain ⟨d, hd, h⟩ := h
    obtain rfl | hc := mem_cons.mp hc
    · simp [hd]
    · exact ih h hc

theorem IsPiece.ne_colon {canonical : Bool} {v : Nat}
    (hp : IsPiece canonical part v) (hc : c ∈ part) : c ≠ 0x3a := by
  rintro rfl
  exact hexDigit_of_mem hp.2.2.1 hc rfl

/-- The end of the text, or a colon. -/
def Stops (rest : Text) : Prop := ∀ c ∈ rest.head?, c = 0x3a

/-- What has been read, up to whether a violation was reported. -/
def Reading.add (reading : Reading) (values : List Nat) (violation : Bool) : Reading :=
  ⟨reading.pieces ++ values, reading.compressPointer, violation⟩

section Pieces

variable {tail b : Bool} {part text t : Text} {v m : Nat} {vs : List Nat} {r : Reading}

theorem readDigits_piece (hp : IsPiece b part v) (hr : Stops t) :
    readDigits 4 {} (part ++ t) = (⟨v, part.length, part.head? = some 0x30,
      part.any (fun c => 0x41 ≤ c && c ≤ 0x5a)⟩, t) := by
  rw [readDigits_append hp.2.2.1 hp.2.1 fun _ c hc => by rw [hr c hc]; rfl]
  simp

/-- A piece is not the beginning of a dotted tail. -/
theorem ipv4Tail_piece (hp : IsPiece b part v) (hr : Stops t) (r : Reading) :
    r.ipv4Tail (part ++ t) = none := by
  unfold ipv4Tail
  split
  · rw [Option.eq_none_iff_forall_ne_some]
    intro ipv4 h
    obtain ⟨byte, more, ht⟩ := (isTail_iff.mpr ⟨ipv4, h, rfl⟩).eq_append
    have hdot : ¬ t = 0x2e :: more := fun h => by
      cases hr 0x2e (h ▸ rfl)
    obtain ⟨between, hb, he⟩ | ⟨between, hb, he⟩ := append_eq_append_iff.mp ht
    · cases between with
      | nil => exact hdot he
      | cons c between =>
        have hc := isLowerHex_of_mem (by omega) (by omega)
          (hb ▸ mem_append_right part mem_cons_self)
        cases hr c (he ▸ rfl)
        omega
    · cases between with
      | nil => exact hdot he.symm
      | cons c between =>
        obtain ⟨rfl, -⟩ := cons.inj he
        exact hexDigit_of_mem hp.2.2.1 (hb ▸ mem_append_right _ mem_cons_self) rfl
  · rfl

theorem addPiece_canonical (hp : IsPiece true part v) (r : Reading) :
    r.addPiece ⟨v, part.length, part.head? = some 0x30,
      part.any (fun c => 0x41 ≤ c && c ≤ 0x5a)⟩ = r.add [v] r.violation := by
  obtain rfl := hp.2.2.2 rfl
  have hu : (numeral 16 v).any (fun c => 0x41 ≤ c && c ≤ 0x5a) = false := by
    rw [any_eq_false]
    intro c hc
    have hx := isLowerHex_of_mem (by omega) (by omega) hc
    simp
    omega
  by_cases h0 : v = 0
  · subst h0
    have h1 : (numeral 16 0).length = 1 := rfl
    simp [addPiece, add, hu, h1]
  · simp [addPiece, add, hu, h0, head_numeral h0]

theorem parsePieces_piece (hp : IsPiece b part v) (hr : Stops t) :
    ∃ w, (b = true → w = r.violation) ∧ parsePieces (m + 1) r (part ++ t) =
        if t = [] then some (r.add [v] w) else if m = 0 then none
        else parsePieces m (r.add [v] w) t.tail := by
  have ht := ipv4Tail_piece hp hr r
  have hd := readDigits_piece hp hr
  have hw (hc : b = true) := congrArg violation (addPiece_canonical (hc ▸ hp) r)
  refine ⟨_, hw, ?_⟩
  obtain ⟨c, part, rfl⟩ := exists_cons_of_ne_nil hp.1
  have hc := hp.ne_colon mem_cons_self
  rw [cons_append] at ht hd ⊢
  simp only [parsePieces, hc, if_false, ht, hd]
  cases t with
  | nil => rfl
  | cons e t => simp [hr e rfl, addPiece, add]

theorem IsPieces.head (h : IsPieces tail b text vs) :
    0 < vs.length ∧ ∃ c t, text = c :: t ∧ c ≠ 0x3a := by
  have hpiece {part : Text} {v : Nat} (hp : IsPiece b part v) :
      ∃ c t, part = c :: t ∧ c ≠ 0x3a := by
    obtain ⟨c, t, rfl⟩ := exists_cons_of_ne_nil hp.1
    exact ⟨c, t, rfl, hp.ne_colon mem_cons_self⟩
  cases h with
  | last hp => exact ⟨Nat.one_pos, hpiece hp⟩
  | dotted _ _ ht =>
    obtain ⟨byte, t, rfl⟩ := ht.eq_append
    obtain ⟨-, -, -, -, rfl⟩ := ht
    obtain ⟨c, _, hd⟩ := exists_cons_of_ne_nil (numeral_ne_nil (show 1 < 10 by omega) byte)
    have hc : IsLowerHex c := isLowerHex_of_mem (by omega) (by omega) (hd ▸ mem_cons_self)
    exact ⟨by simp, c, _, by rw [hd]; rfl, by omega⟩
  | cons hp h =>
    obtain ⟨c, t, rfl, hc⟩ := hpiece hp
    exact ⟨succ_pos _, c, _, rfl, hc⟩

/-- Pieces are read to their end. The tail may begin the seventh piece, or after a compression an
earlier one that is not the sixth. -/
theorem IsPieces.parse (h : IsPieces tail b text vs) (hr : Stops t)
    (hrest : tail = true → t = []) (hroom : r.pieces.length + m = 8) (hlen : vs.length ≤ m)
    (hdot : tail = true → 0x2e ∈ text → r.pieces.length + vs.length = 8 ∨
      r.compressPointer.isSome ∧ r.pieces.length + vs.length ≠ 7) :
    ∃ w, (b = true → w = r.violation) ∧ parsePieces m r (text ++ t) =
        if t = [] then some (r.add vs w) else if m = vs.length then none
        else parsePieces (m - vs.length) (r.add vs w) t.tail := by
  induction h generalizing m r with
  | last hp =>
    obtain ⟨m, rfl⟩ : ∃ n, m = n + 1 := ⟨m - 1, by simp at hlen; omega⟩
    simpa using parsePieces_piece hp hr
  | @dotted text vs ht hcan hv =>
    obtain rfl := hrest ht
    obtain ⟨-, c, text, rfl, hc⟩ := (IsPieces.dotted ht hcan hv).head
    obtain ⟨byte, more, htext⟩ := hv.eq_append
    obtain ⟨ipv4, hipv4, rfl⟩ := isTail_iff.mp hv
    refine ⟨true, fun h => by simp [hcan] at h, ?_⟩
    replace hdot := hdot ht (by rw [htext]; simp)
    obtain ⟨m, rfl⟩ : ∃ n, m = n + 1 := ⟨m - 1, by simp at hlen; omega⟩
    have htail : r.ipv4Tail (c :: text) = some _ := (if_pos ?_).trans hipv4
    · have h5 : ¬ (r.compressPointer.isSome ∧ r.pieces.length = 5) := by
        simp at hdot
        omega
      simp [parsePieces, hc, htail, h5, add]
    · simp only [length_cons, length_nil] at hdot hlen
      grind
  | @cons part text v vs hp h ih =>
    obtain ⟨m, rfl⟩ : ∃ n, m = n + 1 := ⟨m - 1, by simp at hlen; omega⟩
    obtain ⟨w, hw, hparse⟩ := parsePieces_piece (m := m) (r := r) hp
      (t := 0x3a :: (text ++ t)) fun c hc => (Option.some.inj hc).symm
    have hpos := h.head.1
    rw [length_cons] at hlen hdot
    rw [append_assoc, cons_append, hparse, if_neg (cons_ne_nil _ _), if_neg (by omega), tail_cons]
    obtain ⟨w', hw', hnext⟩ := @ih m (r.add [v] w) (by simp [add]; omega) (by omega)
      fun ht hmem => by
        simpa [add, Nat.add_assoc, Nat.add_comm 1] using hdot ht (by simp [hmem])
    refine ⟨w', fun h => (hw' h).trans (hw h), hnext.trans ?_⟩
    simp [add]

end Pieces

/-! ## Reading a host -/

theorem swapPieces_apply {k s p : Nat} {f : Nat → Nat} (hk : 0 < k) (hp : k + s ≤ p + 1)
    (hz : ∀ n, k + s ≤ n → n ≤ p → f n = 0) (n : Nat) :
    swapPieces k s p f n =
      if p < n ∨ n < k then f n else if p < n + s then f (n + (k + s) - (p + 1)) else 0 := by
  induction s generalizing p f with
  | zero =>
    rw [swapPieces]
    split_ifs with h h'
    · rfl
    · omega
    · exact hz n (by omega) (by omega)
  | succ s ih =>
    rw [swapPieces, ih (by omega)]
    · split_ifs <;> first | rfl | omega | grind
    · intro m hm hm'
      grind

theorem address_compressed {ls rs : List Nat} (h : ls.length + rs.length ≤ 7) (w : Bool) :
    address ⟨ls ++ 0 :: rs, some (ls.length + 1), w⟩ =
      some (ls ++ replicate (8 - (ls.length + rs.length)) 0 ++ rs) := by
  have hs : (ls ++ 0 :: rs).length - (ls.length + 1) = rs.length := by simp; omega
  simp only [address, hs]
  refine congrArg some (ext_getElem (by simp; omega) fun n h1 h2 => ?_)
  rw [getElem_map, getElem_range, swapPieces_apply (succ_pos _) (by omega)]
  · simp only [getD_eq_getElem?_getD]
    grind
  · intro m hm _
    rw [getD_eq_getElem?_getD, List.getElem?_eq_none (by simp; omega)]
    rfl

theorem readPieces_of_ne (hc : c ≠ 0x3a) (text : Text) (w : Bool) :
    readPieces w (c :: text) = parsePieces 8 ⟨[], none, w⟩ (c :: text) := by
  simp [readPieces, hc]

section Reads

variable {b : Bool} {text right : Text} {ls rs vs : List Nat}

theorem IsPieces.readPieces (h : IsPieces true b text vs) (hlen : vs.length = 8) (w : Bool) :
    ∃ w', (b = true → w' = w) ∧ readPieces w text = some ⟨vs, none, w'⟩ := by
  obtain ⟨-, c, t, rfl, hc⟩ := h.head
  obtain ⟨w', hw, hp⟩ := h.parse (t := []) (m := 8) (r := ⟨[], none, w⟩)
    (fun c hc => by cases hc) (fun _ => rfl) rfl (by omega) fun _ _ => .inl (by simpa using hlen)
  rw [append_nil, if_pos rfl] at hp
  exact ⟨w', hw, (readPieces_of_ne hc t w).trans hp⟩

theorem IsSide.parse (h : IsSide true b right rs) (hlen : ls.length + rs.length ≤ 7)
    (hdot : 0x2e ∈ right → ls.length + rs.length ≠ 6) (k : Nat) (w : Bool) :
    ∃ w', (b = true → w' = w) ∧ parsePieces (7 - ls.length) ⟨ls ++ [0], some k, w⟩ right =
      some ⟨ls ++ 0 :: rs, some k, w'⟩ := by
  obtain ⟨rfl, rfl⟩ | h := h
  · exact ⟨w, fun _ => rfl, by simp [parsePieces]⟩
  · obtain ⟨w', hw, hp⟩ := h.parse (t := []) (m := 7 - ls.length)
      (r := ⟨ls ++ [0], some k, w⟩) (fun c hc => by cases hc) (fun _ => rfl)
      (by simp; omega) (by omega) fun _ hmem => .inr ⟨rfl, by have := hdot hmem; simp; omega⟩
    rw [append_nil, if_pos rfl] at hp
    exact ⟨w', hw, by simpa [add] using hp⟩

/-- What follows a compression is read after the pieces before it and a zero. -/
theorem readPieces_compressed {left : Text} (hl : IsSide false b left ls) (hlen : ls.length ≤ 7)
    (right : Text) (w : Bool) :
    ∃ w', (b = true → w' = w) ∧ readPieces w (left ++ 0x3a :: 0x3a :: right) =
      parsePieces (7 - ls.length) ⟨ls ++ [0], some (ls.length + 1), w'⟩ right := by
  obtain ⟨rfl, rfl⟩ | hl := hl
  · exact ⟨w, fun _ => rfl, rfl⟩
  obtain ⟨-, c, t, rfl, hc⟩ := hl.head
  obtain ⟨w', hw, hp⟩ := hl.parse (t := 0x3a :: 0x3a :: right) (m := 8)
    (r := ⟨[], none, w⟩) (fun c hc => (Option.some.inj hc).symm) (fun h => by cases h) rfl
    (by omega) fun h => by cases h
  refine ⟨w', hw, ?_⟩
  rw [cons_append, readPieces_of_ne hc, ← cons_append, hp, if_neg (by simp),
    if_neg (by omega), show 8 - ls.length = 7 - ls.length + 1 by omega]
  simp [parsePieces, add]

theorem Compressed.readPieces (h : Compressed b text right ls rs)
    (hdot : 0x2e ∈ right → ls.length + rs.length ≠ 6) (w : Bool) :
    ∃ w', (b = true → w' = w) ∧
      readPieces w text = some ⟨ls ++ 0 :: rs, some (ls.length + 1), w'⟩ := by
  obtain ⟨⟨left, rfl, hl⟩, hr, hlen⟩ := h
  obtain ⟨w₁, hw, hp⟩ := readPieces_compressed hl (by omega) right w
  obtain ⟨w', hw', hp'⟩ := hr.parse hlen hdot (ls.length + 1) w₁
  exact ⟨w', fun h => (hw' h).trans (hw h), hp.trans hp'⟩

end Reads

variable {ps : List Nat} {tail : Bool}

theorem isPieces_joined (hlt : ∀ pc ∈ ps, pc < 2 ^ 16)
    (hne : ps ≠ []) : IsPieces tail true (joined ps) ps := by
  induction ps with
  | nil => exact absurd rfl hne
  | cons pc ps ih =>
    rw [forall_mem_cons] at hlt
    have hp : IsPiece true (numeral 16 pc) pc := ⟨numeral_ne_nil (by omega) _,
      @length_numeral 3 _ hlt.1, numberFrom_numeral (by omega) (by omega) _, fun _ => rfl⟩
    rw [joined_cons]
    split_ifs with hnil
    · rw [hnil, append_nil]
      exact .last hp
    · exact .cons hp (ih hlt.2 hnil)

theorem isSide_joined (hlt : ∀ pc ∈ ps, pc < 2 ^ 16) :
    IsSide tail true (joined ps) ps := by
  by_cases hne : ps = []
  · exact .inl ⟨by rw [hne]; rfl, hne⟩
  · exact .inr (isPieces_joined hlt hne)

theorem mem_joined (h : c ∈ joined ps) :
    IsLowerHex c ∨ c = 0x3a := by
  induction ps with
  | nil => cases h
  | cons pc ps ih =>
    rw [joined_cons, mem_append] at h
    obtain h | h := h
    · exact .inl (isLowerHex_of_mem (by omega) (by omega) h)
    · split at h
      · cases h
      · obtain rfl | h := mem_cons.mp h
        · exact .inr rfl
        · exact ih h

/-- Every address is read back from its text without a violation, and the text is canonical. -/
theorem parseIPv6Host_serializeIPv6 (address : IPv6Address) :
    parseIPv6Host ((serializeIPv6 address).takeWhile (· ≠ 0x5d)) = some (address.pieces, false) ∧
      ∃ text, serializeIPv6 address = 0x5b :: text ++ [0x5d] ∧ IsCanonical address.pieces text := by
  obtain ⟨text, ht, hmem, hcanon, r, hr, ha, hv, hc⟩ : ∃ text,
      serializeIPv6 address = 0x5b :: text ++ [0x5d] ∧ (∀ c ∈ text, IsLowerHex c ∨ c = 0x3a) ∧
      IsCanonical address.pieces text ∧ ∃ r, readPieces false text = some r ∧
        r.address = some address.pieces ∧ r.violation = false ∧
        r.compressPointer = (findLongestZeroSequence address.pieces).map (· + 1) := by
    obtain ⟨hn, hz, ht⟩ | ⟨k, n, hk, hf, ht⟩ := serializeFrom_cases address
    · have hne : address.pieces ≠ [] := fun h => by simpa [h] using address.length_eq
      obtain ⟨w, hw, hr⟩ := (isPieces_joined address.lt hne).readPieces address.length_eq false
      refine ⟨_, by rw [serializeIPv6, hn, ht], fun c => mem_joined, .inl ⟨hz, rfl⟩, _, hr, ?_,
        hw rfl, by rw [hn]; rfl⟩
      simp [Reading.address, address.length_eq]
    · have h2 := hf.two_le
      have hle := hf.add_le
      have hlen := address.length_eq
      have hlen' :
          (address.pieces.take k).length + (address.pieces.drop (k + n)).length = 8 - n := by
        simp
        omega
      have hcomp : Compressed true _ _ (address.pieces.take k) (address.pieces.drop (k + n)) :=
        ⟨⟨_, rfl, isSide_joined fun p hp => address.lt p (mem_of_mem_take hp)⟩,
          isSide_joined fun p hp => address.lt p (mem_of_mem_drop hp), by omega⟩
      obtain ⟨w, hw, hr⟩ :=
        hcomp.readPieces (fun hdot => absurd (mem_joined hdot) (by decide)) false
      refine ⟨_, by rw [serializeIPv6, hk, ht], fun c hc => ?_, .inr ⟨k, n, hf, rfl⟩, _, hr, ?_,
        hw rfl, ?_⟩
      · simp only [mem_append, mem_cons] at hc
        obtain hc | rfl | rfl | hc := hc
        · exact mem_joined hc
        · exact .inr rfl
        · exact .inr rfl
        · exact mem_joined hc
      · rw [address_compressed (by omega), hlen', show 8 - (8 - n) = n by omega, hf.split]
      · simp [hk, length_take]
        omega
  have hplain : ∀ c ∈ text, isTabOrNewline c = false ∧ c ≠ 0x5d := by
    intro c hc
    have hx := hmem c hc
    simp [isTabOrNewline]
    omega
  have htake : (0x5b :: text ++ [0x5d]).takeWhile (· ≠ 0x5d) = 0x5b :: text := by
    rw [takeWhile_append_of_pos]
    · simp
    · simpa using fun c hc => (hplain c hc).2
  have hany : text.any isTabOrNewline = false := by
    simpa using fun c hc => (hplain c hc).1
  have hfilter : text.filter (!isTabOrNewline ·) = text := by
    simpa using fun c hc => (hplain c hc).1
  refine ⟨?_, text, ht, hcanon⟩
  rw [ht, htake, parseIPv6Host, tail_cons, hany, hfilter, hr]
  simp [ha, hv, hc]

/-! ## What is read -/

theorem readDigits_split (m : Nat) (d : Digits) (text : Text) :
    ∃ part, text = part ++ (readDigits m d text).2 ∧ part.length ≤ m ∧
      numberFrom 16 d.value part = some (readDigits m d text).1.value := by
  fun_induction readDigits m d text with
  | case1 d text => exact ⟨[], rfl, Nat.le_refl _, rfl⟩
  | case2 m d => exact ⟨[], rfl, Nat.zero_le _, rfl⟩
  | case3 m d c text hc => exact ⟨[], rfl, Nat.zero_le _, rfl⟩
  | case4 m d c text n hc ih =>
    obtain ⟨part, ht, hlen, hv⟩ := ih
    refine ⟨c :: part, congrArg (c :: ·) ht, succ_le_succ hlen, ?_⟩
    rw [numberFrom_cons, hc]
    exact hv

/-- The steps of the loop. -/
theorem parsePieces_cases {r result : Reading} {text : Text}
    (h : parsePieces (m + 1) r (c :: text) = some result) :
    (c = 0x3a ∧ r.compressPointer = none ∧ parsePieces m ⟨r.pieces ++ [0],
        some (r.pieces.length + 1), r.violation⟩ text = some result) ∨
      (∃ vs, IsTail (c :: text) vs ∧ r.pieces.length ≤ 6 ∧ result = r.add vs true) ∨
      ∃ part v w, IsPiece false part v ∧ (c :: text = part ∧ result = r.add [v] w ∨
        ∃ t, c :: text = part ++ 0x3a :: t ∧ m ≠ 0 ∧
          parsePieces m (r.add [v] w) t = some result) := by
  rw [parsePieces] at h
  split at h
  · rename_i hc
    split at h
    · cases h
    · rename_i hn
      exact .inl ⟨hc, by simpa using hn, h⟩
  · rename_i hc
    split at h
    · rename_i ipv4 ht
      split at h
      · cases h
      · cases h
        unfold ipv4Tail at ht
        split at ht
        · exact .inr (.inl ⟨_, isTail_iff.mpr ⟨ipv4, ht, rfl⟩, by omega, rfl⟩)
        · cases ht
    · obtain ⟨part, ht, hlen, hv⟩ := readDigits_split 4 {} (c :: text)
      generalize readDigits 4 {} (c :: text) = read at h ht hv
      obtain ⟨digits, t⟩ := read
      refine .inr (.inr ⟨part, digits.value, (r.addPiece digits).violation,
        ⟨?_, hlen, hv, fun h => by cases h⟩, ?_⟩)
      · rintro rfl
        obtain rfl : c :: text = t := ht
        simp [hc] at h
      cases t with
      | nil =>
        cases h
        exact .inl ⟨by simpa using ht, rfl⟩
      | cons e t =>
        dsimp only at h
        split at h
        · cases h
        · rename_i he
          rw [not_or, not_not] at he
          exact .inr ⟨t, he.2 ▸ ht, he.1, h⟩

/-- The pieces that are read where there is room for so many, maybe with a colon after them. -/
def IsRead (room : Nat) (text : Text) (values : List Nat) : Prop :=
  IsSide true false text values ∧ values.length ≤ room ∨
    ∃ front, text = front ++ [0x3a] ∧ IsPieces false false front values ∧ values.length < room

theorem IsRead.cons {v : Nat} {text : Text} (h : IsRead m text vs)
    (hp : IsPiece false part v) (hm : m ≠ 0) : IsRead (m + 1) (part ++ 0x3a :: text) (v :: vs) := by
  obtain ⟨⟨rfl, rfl⟩ | hs, hlen⟩ | ⟨front, rfl, hs, hlen⟩ := h
  · exact .inr ⟨part, rfl, .last hp, by simp; omega⟩
  · exact .inl ⟨.inr (.cons hp hs), by simpa using hlen⟩
  · exact .inr ⟨_, by simp, .cons hp hs, by simpa using hlen⟩

theorem parsePieces_sound {r result : Reading} {text : Text}
    (h : parsePieces m r text = some result) (hroom : r.pieces.length + m = 8) :
    (∃ vs w, IsRead m text vs ∧ result = r.add vs w) ∨
      (r.compressPointer = none ∧ ∃ right ls rs w,
        (ls = [] ∧ text = 0x3a :: right ∨
          ∃ left, text = left ++ 0x3a :: 0x3a :: right ∧ IsPieces false false left ls) ∧
        IsRead (m - 1 - ls.length) right rs ∧ ls.length < m ∧ result =
          ⟨r.pieces ++ ls ++ 0 :: rs, some (r.pieces.length + ls.length + 1), w⟩) := by
  have hnil {m : Nat} {r : Reading} (h : parsePieces m r [] = some result) :
      ∃ vs w, IsRead m [] vs ∧ result = r.add vs w := by
    refine ⟨[], r.violation, .inl ⟨.inl ⟨rfl, rfl⟩, Nat.zero_le _⟩, ?_⟩
    simpa [parsePieces, add] using h.symm
  induction m generalizing r text with
  | zero =>
    cases text with
    | nil => exact .inl (hnil h)
    | cons c text => cases h
  | succ m ih =>
    cases text with
    | nil => exact .inl (hnil h)
    | cons c text =>
      obtain ⟨rfl, hn, h⟩ | ⟨vs, ht, hle, rfl⟩ | ⟨part, v, w, hp, ⟨ht, rfl⟩ | ⟨t, ht, hm, h⟩⟩ :=
        parsePieces_cases h
      · obtain ⟨rs, w, hs, rfl⟩ | ⟨hc, -⟩ := ih h (by simp; omega)
        · exact .inr ⟨hn, text, [], rs, w, .inl ⟨rfl, rfl⟩, hs, succ_pos m, by simp [add]⟩
        · cases hc
      · refine .inl ⟨vs, true, .inl ⟨.inr (.dotted rfl rfl ht), ?_⟩, rfl⟩
        obtain ⟨-, -, -, -, rfl⟩ := ht
        simp
        omega
      · exact .inl ⟨[v], w, .inl ⟨.inr (ht ▸ .last hp), by simp⟩, rfl⟩
      · rw [ht]
        obtain ⟨vs, w', hs, rfl⟩ | ⟨hn, right, ls, rs, w', hl, hs, hlen, rfl⟩ :=
          ih h (by simp [add]; omega)
        · exact .inl ⟨v :: vs, w', hs.cons hp hm, by simp [add]⟩
        · refine .inr ⟨hn, right, v :: ls, rs, w', .inr ?_, ?_, by simpa using hlen, ?_⟩
          · obtain ⟨rfl, rfl⟩ | ⟨left, rfl, hl⟩ := hl
            · exact ⟨part, rfl, .last hp⟩
            · exact ⟨_, by simp, .cons hp hl⟩
          · rwa [length_cons, show m + 1 - 1 - (ls.length + 1) = m - 1 - ls.length by omega]
          · simp [add, Nat.add_assoc, Nat.add_comm 1]

section Hosts

variable {text left right : Text} {ls rs addr : List Nat} {w : Bool}

theorem IsRead.denotes (hl : IsSide false false left ls) (hlen : ls.length ≤ 7)
    (hr : IsRead (7 - ls.length) right rs)
    (ha : address ⟨ls ++ 0 :: rs, some (ls.length + 1), w⟩ = some addr) :
    Denotes (left ++ 0x3a :: 0x3a :: right) addr ∨
      ColonAtEnd (left ++ 0x3a :: 0x3a :: right) := by
  obtain ⟨hs, hle⟩ | ⟨front, rfl, hs, hlt⟩ := hr
  · have hc : ls.length + rs.length ≤ 7 := by omega
    exact .inl (.inr ⟨right, ls, rs, ⟨⟨left, rfl, hl⟩, hs, hc⟩,
      Option.some.inj (ha.symm.trans (address_compressed hc w))⟩)
  · exact .inr ⟨left, front, ls, rs, rfl, hl, hs, by omega⟩

/-- What is read is an address, or one with a colon after it. -/
theorem denotes_of_readPieces {r : Reading} (hr : readPieces w text = some r)
    (ha : r.address = some addr) : Denotes text addr ∨ ColonAtEnd text := by
  rcases text with - | ⟨c, text⟩
  · cases hr
  by_cases hc : c = 0x3a
  · subst hc
    rcases text with - | ⟨e, text⟩
    · cases hr
    by_cases he : e = 0x3a
    · subst he
      obtain ⟨vs, w', hs, rfl⟩ | ⟨hn, -⟩ := @parsePieces_sound 7 ⟨[0], some 1, w⟩ _ text hr rfl
      · exact @IsRead.denotes [] _ _ _ _ _ (.inl ⟨rfl, rfl⟩) (by simp) hs ha
      · cases hn
    · simp [readPieces, he] at hr
  · rw [readPieces_of_ne hc] at hr
    obtain ⟨vs, w', hs, rfl⟩ | ⟨-, right, ls, rs, w', hl, hs, hlen, rfl⟩ := parsePieces_sound hr rfl
    · -- without a compression there are eight pieces, and no room for a colon
      by_cases h8 : vs.length = 8
      · obtain rfl : vs = addr := by simpa [add, address, h8] using ha
        obtain ⟨hs | hs, -⟩ | ⟨-, -, -, hlt⟩ := hs
        · cases hs.1
        · exact .inl (.inl ⟨hs, h8⟩)
        · omega
      · simp [add, address, h8] at ha
    · obtain ⟨-, h⟩ | ⟨left, hl, hls⟩ := hl
      · exact absurd (cons.inj h).1 hc
      · simp only [nil_append, length_nil, Nat.zero_add] at ha
        rw [hl]
        exact hs.denotes (.inr hls) (by omega) ha

theorem Denotes.readPieces (h : Denotes text addr) (hsix : ¬ SixWithTail text) (w : Bool) :
    ∃ r, readPieces w text = some r ∧ r.address = some addr := by
  obtain ⟨h, hlen⟩ | ⟨right, ls, rs, h, rfl⟩ := h
  · obtain ⟨w', -, hr⟩ := h.readPieces hlen w
    exact ⟨_, hr, by simp [address, hlen]⟩
  · obtain ⟨w', -, hr⟩ := h.readPieces (fun hdot hn => hsix ⟨right, ls, rs, h, hdot, hn⟩) w
    exact ⟨_, hr, address_compressed h.2.2 w'⟩

/-- A tail that begins the sixth piece after a compression is refused. -/
theorem IsPieces.parse_six {r : Reading} (h : IsPieces true false text rs)
    (hdot : 0x2e ∈ text) (hroom : r.pieces.length + m = 8)
    (hseven : r.pieces.length + rs.length = 7)
    (hc : r.compressPointer.isSome) : parsePieces m r text = none := by
  induction h generalizing m r with
  | last hp => exact absurd rfl (hexDigit_of_mem hp.2.2.1 hdot)
  | @dotted text vs ht hcan hv =>
    obtain ⟨-, c, text, rfl, hne⟩ := (IsPieces.dotted ht hcan hv).head
    obtain ⟨ipv4, hipv4, rfl⟩ := isTail_iff.mp hv
    have h5 : r.pieces.length = 5 := by simpa using hseven
    obtain ⟨m, rfl⟩ : ∃ n, m = n + 1 := ⟨m - 1, by omega⟩
    have htail : r.ipv4Tail (c :: text) = some ipv4 := (if_pos (.inr ⟨hc, by omega⟩)).trans hipv4
    simp [parsePieces, hne, htail, h5, hc]
  | @cons part text v vs hp h ih =>
    rw [length_cons] at hseven
    obtain ⟨m, rfl⟩ : ∃ n, m = n + 1 := ⟨m - 1, by omega⟩
    obtain ⟨w, -, hparse⟩ := parsePieces_piece (m := m) (r := r) hp
      (t := 0x3a :: text) fun c hc => (Option.some.inj hc).symm
    have hpart : 0x2e ∉ part := fun hm => hexDigit_of_mem hp.2.2.1 hm rfl
    have hmem : 0x2e ∈ text := by simpa [hpart] using hdot
    rw [hparse, if_neg (cons_ne_nil _ _), if_neg (by omega), tail_cons]
    exact ih hmem (by simp [add]; omega) (by simp [add]; omega) hc

theorem SixWithTail.refused (h : SixWithTail text) (w : Bool) :
    (∃ addr, Denotes text addr) ∧ readPieces w text = none := by
  obtain ⟨right, ls, rs, hc, hdot, hsix⟩ := h
  refine ⟨⟨_, .inr ⟨right, ls, rs, hc, rfl⟩⟩, ?_⟩
  obtain ⟨⟨left, rfl, hl⟩, hr, hlen⟩ := hc
  obtain ⟨w', -, hp⟩ := readPieces_compressed hl (by omega) right w
  obtain ⟨rfl, -⟩ | hr := hr
  · cases hdot
  · exact hp.trans (hr.parse_six hdot (by simp; omega) (by simp; omega) rfl)

theorem IsPieces.getLast_ne (h : IsPieces tail false text rs) : text.getLast? ≠ some 0x3a := by
  induction h with
  | last hp => exact fun hl => hp.ne_colon (mem_of_getLast? hl) rfl
  | dotted _ _ ht =>
    obtain ⟨bytes, hlen, -, rfl, -⟩ := ht
    have hno (byte : Nat) : 0x3a ∉ numeral 10 byte := fun hmem =>
      absurd (isLowerHex_of_mem (by omega) (by omega) hmem) (by decide)
    match bytes, hlen with
    | [x, y, z, byte], _ =>
      intro hl
      simpa [intercalate_cons_cons, hno] using mem_of_getLast? hl
  | cons _ h ih =>
    obtain ⟨-, c, text, rfl, -⟩ := h.head
    simpa [getLast?_append] using ih

theorem ColonAtEnd.accepted (h : ColonAtEnd text) (w : Bool) :
    (∀ addr, ¬ Denotes text addr) ∧
      ∃ r addr, readPieces w text = some r ∧ r.address = some addr := by
  obtain ⟨left, right, ls, rs, rfl, hl, hr, hlen⟩ := h
  constructor
  · have hlast : (left ++ 0x3a :: 0x3a :: (right ++ [0x3a])).getLast? = some 0x3a := by
      rw [← cons_append, ← cons_append, ← append_assoc, getLast?_concat]
    rintro addr (⟨h, -⟩ | ⟨right', ls', rs', ⟨⟨left', h, -⟩, ⟨rfl, -⟩ | hr', -⟩, -⟩)
    · exact h.getLast_ne hlast
    · obtain ⟨-, c, right, rfl, -⟩ := hr.head
      have hl := congrArg (·.reverse.tail.head?) h
      exact hr.getLast_ne (by simpa [getLast?_cons] using hl)
    · obtain ⟨-, c, right', rfl, -⟩ := hr'.head
      exact hr'.getLast_ne (by simpa [h, getLast?_append, getLast?_cons] using hlast)
  · obtain ⟨w', -, hp⟩ := readPieces_compressed hl (by omega) (right ++ [0x3a]) w
    obtain ⟨w'', -, hq⟩ := hr.parse (t := [0x3a]) (m := 7 - ls.length)
      (r := ⟨ls ++ [0], some (ls.length + 1), w'⟩) (fun c hc => (Option.some.inj hc).symm)
      (fun h => by cases h) (by simp; omega) (by omega) fun h => by cases h
    rw [hq, if_neg (by simp), if_neg (by omega), tail_cons, parsePieces] at hp
    exact ⟨_, _, hp, by simpa [add] using address_compressed (by omega) w''⟩

end Hosts

/-- The address that a host denotes is read, and nothing else, exactly if the text does not have a
dotted tail as its sixth piece after a compression, nor a colon after such pieces. -/
theorem parseIPv6Host_iff (host : Text) :
    let text := host.filter (!isTabOrNewline ·)
    (∀ address, (∃ reported, parseIPv6Host (0x5b :: host) = some (address, reported)) ↔
      Denotes text address) ↔ ¬ ColonAtEnd text ∧ ¬ SixWithTail text := by
  intro text
  have hread (address : List Nat) :
      (∃ reported, parseIPv6Host (0x5b :: host) = some (address, reported)) ↔
        ∃ r, readPieces (host.any isTabOrNewline) text = some r ∧ r.address = some address := by
    simp only [parseIPv6Host, tail_cons]
    constructor
    · rintro ⟨reported, h⟩
      simp only [Option.bind_eq_bind, Option.bind_eq_some_iff, Option.pure_def,
        Option.some.injEq, Prod.mk.injEq] at h
      obtain ⟨r, hr, _, ha, rfl, -⟩ := h
      exact ⟨r, hr, ha⟩
    · rintro ⟨r, hr, ha⟩
      exact ⟨_, by rw [hr]; simp [ha]; rfl⟩
  simp only [hread]
  constructor
  · intro h
    refine ⟨fun hcolon => ?_, fun hsix => ?_⟩
    · obtain ⟨hno, r, address, hr⟩ := hcolon.accepted (host.any isTabOrNewline)
      exact hno address ((h address).mp ⟨r, hr⟩)
    · obtain ⟨⟨address, hd⟩, hnone⟩ := hsix.refused (host.any isTabOrNewline)
      obtain ⟨r, hr, -⟩ := (h address).mpr hd
      rw [hnone] at hr
      cases hr
  · rintro ⟨hcolon, hsix⟩ address
    constructor
    · rintro ⟨r, hr, ha⟩
      exact (denotes_of_readPieces hr ha).resolve_right hcolon
    · exact fun h => h.readPieces hsix _

/-- An address with a dotted tail as its sixth piece is refused, and a colon after an address with a
compression is passed over. -/
theorem parseIPv6Host_refuses_tail :
    let text := "1:2:3:4::1.2.3.4".toList.map Char.toNat
    Denotes text [1, 2, 3, 4, 0, 0, 0x102, 0x304] ∧ parseIPv6Host (0x5b :: text) = none ∧
      (parseIPv6Host ("[::1:".toList.map Char.toNat)).map Prod.fst =
        some [0, 0, 0, 0, 0, 0, 0, 1] := by
  have hp (c v : Nat) (h : digit 16 c = some v) : IsPiece false [c] v :=
    ⟨by simp, by simp, by simp [numberFrom, h], by simp⟩
  refine ⟨.inr ⟨"1.2.3.4".toList.map Char.toNat, [1, 2, 3, 4], [0x102, 0x304],
    ⟨⟨[0x31, 0x3a, 0x32, 0x3a, 0x33, 0x3a, 0x34], by decide, .inr ?_⟩, .inr ?_, by simp⟩, rfl⟩,
    by decide, by decide⟩
  · exact .cons (hp 0x31 1 rfl) (.cons (hp 0x32 2 rfl) (.cons (hp 0x33 3 rfl)
      (.last (hp 0x34 4 rfl))))
  · exact .dotted rfl rfl ⟨[1, 2, 3, 4], rfl, by simp, by decide, rfl⟩

end JavaScriptCore.Wtf.URLParser
