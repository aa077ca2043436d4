import Mathlib.Data.List.Infix
import JavaScriptCore.Json.Grammar

/-!
# IPv4 hosts

`wtf/URLParser.cpp:2189-2335`, for texts without tabs and newlines. `parseIPv4Piece` stops at the
character that does not fit, and `parseIPv4Host` reads on from there, so that one number may give
several pieces. A piece that is no number makes the host a name whatever follows. A number of 33
bits or more gives a piece that overflows and then others, and the fifth makes the host a name too,
where the overflow alone would have made it a failure.
-/

namespace JavaScriptCore.Wtf.URLParser

open List Option

open Json (Text)

/-- The digits of the three bases, `none` for any other character. -/
def digit (base c : Nat) : Option Nat :=
  let value := if 0x30 ≤ c ∧ c ≤ 0x39 then some (c - 0x30)
    else if 0x41 ≤ c ∧ c ≤ 0x46 then some (c - 0x41 + 10)
    else if 0x61 ≤ c ∧ c ≤ 0x66 then some (c - 0x61 + 10) else none
  value.filter (· < base)

/-- `Expected<uint32_t, IPv4PieceParsingError>`. -/
inductive IPv4Piece where
  | value (n : Nat)
  | failure
  | overflow
  deriving DecidableEq, Repr

/-- The states `Decimal`, `Octal` and `Hex`, with the text that is left at the end. -/
def parseDigits (base : Nat) : Nat → Text → IPv4Piece × Text
  | value, [] => (.value value, [])
  | value, c :: text =>
    if c = 0x2e then (.value value, c :: text)
    else match digit base c with
      | none => (.failure, c :: text)
      | some d =>
        if value * base + d < 2 ^ 32 then parseDigits base (value * base + d) text
        else (.overflow, c :: text)

/-- The states `UnknownBase` and `OctalOrHex` choose the base and pass over what marks it. -/
def radix : Text → Nat × Text
  | 0x30 :: 0x78 :: text | 0x30 :: 0x58 :: text => (16, text)
  | 0x30 :: text => (8, text)
  | text => (10, text)

def parseIPv4Piece (text : Text) : IPv4Piece × Text :=
  if text.head? = some 0x2e then (.failure, text) else parseDigits (radix text).1 0 (radix text).2

/-- A dot after a piece is passed over, unless another one follows. -/
def skipDot : Text → Option Text
  | 0x2e :: 0x2e :: _ => none
  | 0x2e :: rest => some rest
  | rest => some rest

/-- The loop of `parseIPv4Host`, with room for so many more pieces. -/
def parseIPv4Pieces : Nat → Text → Option (List IPv4Piece)
  | _, [] => some []
  | 0, _ :: _ => none
  | room + 1, c :: text => do
    let (piece, rest) := parseIPv4Piece (c :: text)
    let rest ← skipDot rest
    return piece :: (← parseIPv4Pieces room rest)

/-- `Expected<IPv4Address, IPv4ParsingError>`. -/
inductive IPv4Host where
  | address (n : Nat)
  | failure
  | notIPv4
  deriving DecidableEq, Repr

def IPv4Piece.toNat : IPv4Piece → Nat
  | .value n => n
  | _ => 0

/-- The loop that adds the pieces before the last one to the address. -/
def addPieces : Nat → Nat → List Nat → Nat
  | ipv4, _, [] => ipv4
  | ipv4, counter, value :: values =>
    addPieces ((ipv4 + value * 256 ^ (3 - counter)) % 2 ^ 32) (counter + 1) values

/-- What `parseIPv4Host` makes of the pieces. -/
def hostOfPieces (items : List IPv4Piece) : IPv4Host :=
  let values := items.map IPv4Piece.toNat
  if items = [] ∨ .failure ∈ items then .notIPv4
  else if .overflow ∈ items then .failure
  else if values.dropLast.any (· > 255) then .failure
  else if values.getLastD 0 ≥ 256 ^ (5 - items.length) then .failure
  else .address (addPieces (values.getLastD 0) 0 values.dropLast)

def parseIPv4Host (text : Text) : IPv4Host :=
  if text.head? = some 0x2e then .notIPv4
  else match parseIPv4Pieces 4 text with
    | none => .notIPv4
    | some items => hostOfPieces items

/-! ## What a host denotes -/

/-- The number that a text is in a base, read on from `value`. -/
def numberFrom (base : Nat) (value : Nat) (text : Text) : Option Nat :=
  text.foldlM (fun value c => (digit base c).map (value * base + ·)) value

def number (part : Text) : Option Nat :=
  if part = [] then none else numberFrom (radix part).1 0 (radix part).2

/-- The numbers between the dots; nothing need follow the last dot. -/
def numbers : List Text → Option (List Nat)
  | [] => some []
  | part :: parts =>
    if part = [] ∧ parts = [] then some []
    else do return (← number part) :: (← numbers parts)

/-- Every number but the last is a byte of the address, from the highest one; the last is the rest
of it. -/
def positional : Nat → List Nat → Nat
  | _, [] => 0
  | _, [last] => last
  | exponent, value :: values => value * 256 ^ exponent + positional (exponent - 1) values

def Fits (values : List Nat) : Prop :=
  (∀ value ∈ values.dropLast, value ≤ 255) ∧ values.getLastD 0 < 256 ^ (5 - values.length)

instance (values : List Nat) : Decidable (Fits values) := inferInstanceAs (Decidable (_ ∧ _))

def ipv4Host (text : Text) : IPv4Host :=
  match numbers (text.splitOn 0x2e) with
  | none | some [] => .notIPv4
  | some values =>
    if values.length > 4 then .notIPv4
    else if Fits values then .address (positional 3 values) else .failure

/-! ## Reading a host -/

/-- The digits of a part do not begin with a number of more than 32 bits. -/
def Within32 (part : Text) : Prop :=
  ∀ start ∈ (radix part).2.inits, ∀ n ∈ numberFrom (radix part).1 0 start, n < 2 ^ 32

instance (part : Text) : Decidable (Within32 part) :=
  inferInstanceAs (Decidable (∀ start ∈ _, ∀ n ∈ numberFrom _ 0 start, n < 2 ^ 32))

/-- No part overflows among those that are read, with room for so many: up to the first one that is
no number. -/
def ReadsWithin32 : Nat → List Text → Prop
  | 0, _ | _, [] => True
  | room + 1, part :: parts => Within32 part ∧ (number part ≠ none → ReadsWithin32 room parts)

instance decidableReadsWithin32 : (room : Nat) → (parts : List Text) →
    Decidable (ReadsWithin32 room parts)
  | 0, _ | _ + 1, [] => .isTrue trivial
  | room + 1, _ :: parts =>
    have := decidableReadsWithin32 room parts
    inferInstanceAs (Decidable (_ ∧ (_ → _)))

/-- The end of the text, or a dot. -/
def Ended (rest : Text) : Prop := rest = [] ∨ rest.head? = some 0x2e

theorem numberFrom_cons (base v c : Nat) (text : Text) :
    numberFrom base v (c :: text) =
      (digit base c).bind fun d => numberFrom base (v * base + d) text := by
  cases hd : digit base c <;> simp [numberFrom, hd]

theorem parseDigits_ended (base v : Nat) {rest : Text} (hr : Ended rest) :
    parseDigits base v rest = (.value v, rest) := by
  cases rest with
  | nil => rfl
  | cons c rest =>
    obtain hnil | hdot := hr
    · cases hnil
    · cases hdot
      rfl

theorem parseDigits_append {base v : Nat} {part rest : Text} (hdot : 0x2e ∉ part) (hr : Ended rest)
    (hsm : ∀ start, start <+: part → ∀ n, numberFrom base v start = some n → n < 2 ^ 32) :
    (∀ n, numberFrom base v part = some n →
      parseDigits base v (part ++ rest) = (.value n, rest)) ∧
    (numberFrom base v part = none → (parseDigits base v (part ++ rest)).1 = .failure) := by
  induction part generalizing v with
  | nil =>
    refine ⟨fun n hn => ?_, fun hno => by cases hno⟩
    cases hn
    exact parseDigits_ended base v hr
  | cons c part ih =>
    rw [mem_cons, not_or] at hdot
    rw [numberFrom_cons, cons_append, parseDigits, if_neg (Ne.symm hdot.1)]
    cases hd : digit base c with
    | none => simp
    | some d =>
      have hnx : ∀ start, start <+: part → ∀ n,
          numberFrom base (v * base + d) start = some n → n < 2 ^ 32 := by
        intro start hs n hn
        refine hsm (c :: start) ((prefix_cons_inj c).mpr hs) n ?_
        rw [numberFrom_cons, hd]
        exact hn
      have hf : v * base + d < 2 ^ 32 := hnx [] nil_prefix _ rfl
      simp only [bind_some, if_pos hf]
      exact ih hdot.2 hnx

theorem radix_append {part rest : Text} (hp : part ≠ []) (hr : Ended rest) :
    radix (part ++ rest) = ((radix part).1, (radix part).2 ++ rest) := by
  obtain ⟨c, part, rfl⟩ := exists_cons_of_ne_nil hp
  by_cases hc : c = 0x30
  · subst hc
    cases part with
    | nil =>
      obtain rfl | hdot := hr
      · rfl
      · obtain ⟨rest, rfl⟩ := head?_eq_some_iff.mp hdot
        rfl
    | cons d part =>
      by_cases hx : d = 0x78
      · subst hx
        rfl
      · by_cases hX : d = 0x58
        · subst hX
          rfl
        · simp [radix, hx, hX]
  · simp [radix, hc]

theorem mem_of_mem_radix {part : Text} {c : Nat} (h : c ∈ (radix part).2) : c ∈ part := by
  unfold radix at h
  split at h
  all_goals simp_all

/-- A part is read to its end, or it is no number. -/
theorem parseIPv4Piece_append {part rest : Text} (hp : part ≠ []) (hdot : 0x2e ∉ part)
    (hr : Ended rest) (hsm : Within32 part) :
    (∀ n, number part = some n → parseIPv4Piece (part ++ rest) = (.value n, rest)) ∧
    (number part = none → (parseIPv4Piece (part ++ rest)).1 = .failure) := by
  have hh : (part ++ rest).head? ≠ some 0x2e := by
    obtain ⟨c, part, rfl⟩ := exists_cons_of_ne_nil hp
    rintro hc
    cases hc
    exact hdot mem_cons_self
  rw [number, if_neg hp, parseIPv4Piece, if_neg hh, radix_append hp hr]
  exact parseDigits_append (fun h => hdot (mem_of_mem_radix h)) hr
    fun start hs => hsm start ((mem_inits start _).mpr hs)

/-- The pieces are the numbers if there is room for them; where the text is not a list of numbers
there are none, or one of them is a failure. -/
def Read (room : Nat) : Option (List Nat) → Option (List IPv4Piece) → Prop
  | some values, pieces =>
    pieces = if values.length ≤ room then some (values.map .value) else none
  | none, pieces => ∀ items, pieces = some items → .failure ∈ items

theorem read_none (room : Nat) (vs : Option (List Nat)) (h : ∀ v ∈ vs, room < v.length) :
    Read room vs none := by
  cases vs with
  | none => exact fun items hi => by cases hi
  | some vs => exact (if_neg (Nat.not_le.mpr (h vs rfl))).symm

theorem parseIPv4Pieces_of_ne_nil {text : Text} (ht : text ≠ []) (room : Nat) :
    parseIPv4Pieces (room + 1) text = (skipDot (parseIPv4Piece text).2).bind fun rest =>
      (parseIPv4Pieces room rest).bind fun items => some ((parseIPv4Piece text).1 :: items) := by
  obtain ⟨c, text, rfl⟩ := exists_cons_of_ne_nil ht
  rfl

/-- What follows a dot is the rest of the parts, and it begins with a dot only if the next of them
is empty and not the last. -/
theorem exists_rest (part : Text) {parts : List Text} (hdot : ∀ part ∈ parts, 0x2e ∉ part) :
    ∃ rest, Ended rest ∧ [0x2e].intercalate (part :: parts) = part ++ rest ∧
      (skipDot rest = some ([0x2e].intercalate parts) ∧
          ([0x2e].intercalate parts).head? ≠ some 0x2e ∨
        skipDot rest = none ∧ numbers parts = none) := by
  cases parts with
  | nil => exact ⟨[], .inl rfl, by simp, .inl (by simp [skipDot])⟩
  | cons next parts =>
    refine ⟨0x2e :: [0x2e].intercalate (next :: parts), .inr rfl,
      by simp [intercalate_cons_cons], ?_⟩
    by_cases hn : ([0x2e].intercalate (next :: parts)).head? = some 0x2e
    · obtain ⟨text, ht⟩ := head?_eq_some_iff.mp hn
      refine .inr ⟨ht ▸ rfl, ?_⟩
      cases next with
      | nil =>
        cases parts with
        | nil => simp at hn
        | cons => rfl
      | cons c next =>
        have hf : c = 0x2e := by
          cases parts <;> simpa [intercalate_cons_cons] using hn
        exact absurd (hf ▸ mem_cons_self) (hdot _ mem_cons_self)
    · refine .inl ⟨?_, hn⟩
      unfold skipDot
      split
      · rename_i ht
        simp [cons.inj ht] at hn
      · rename_i ht
        cases ht
        rfl
      · rename_i ho
        exact absurd rfl (ho _)

theorem parseIPv4Pieces_read {parts : List Text} (hdot : ∀ part ∈ parts, 0x2e ∉ part)
    {room : Nat} (hsm : ReadsWithin32 room parts)
    (hh : ([0x2e].intercalate parts).head? ≠ some 0x2e) :
    Read room (numbers parts) (parseIPv4Pieces room ([0x2e].intercalate parts)) := by
  induction parts generalizing room with
  | nil => cases room <;> rfl
  | cons part parts ih =>
    rw [forall_mem_cons] at hdot
    by_cases hpa : part = []
    · subst hpa
      cases parts with
      | nil => cases room <;> rfl
      | cons next parts => simp [intercalate_cons_cons] at hh
    · obtain ⟨rest, hr, ht, hs⟩ := exists_rest part hdot.2
      have hne : part ++ rest ≠ [] := by simp [hpa]
      rw [ht, numbers, if_neg (fun h => hpa h.1)]
      cases room with
      | zero =>
        obtain ⟨c, text, hc⟩ := exists_cons_of_ne_nil hne
        rw [hc]
        refine read_none 0 _ fun vs hvs => ?_
        simp only [bind_eq_bind, mem_def, bind_eq_some_iff] at hvs
        obtain ⟨_, _, _, _, hvs⟩ := hvs
        cases hvs
        exact Nat.zero_lt_succ _
      | succ room =>
        obtain ⟨hrd, hf⟩ := parseIPv4Piece_append hpa hdot.1 hr hsm.1
        rw [parseIPv4Pieces_of_ne_nil hne]
        cases hn : number part with
        | none =>
          intro items hi
          rw [hf hn] at hi
          obtain ⟨_, _, hi⟩ := bind_eq_some_iff.mp hi
          obtain ⟨_, _, hi⟩ := bind_eq_some_iff.mp hi
          cases hi
          exact mem_cons_self
        | some n =>
          rw [hrd n hn]
          obtain ⟨hs, hnx⟩ | ⟨hs, hno⟩ := hs
          · have hp := ih hdot.2 (hsm.2 (by simp [hn])) hnx
            rw [hs, bind_some]
            cases hr : numbers parts with
            | none =>
              intro items hi
              rw [hr] at hp
              obtain ⟨others, hos, hi⟩ := bind_eq_some_iff.mp hi
              cases hi
              exact mem_cons_of_mem _ (hp others hos)
            | some vs =>
              rw [hr, Read] at hp
              change _ = if vs.length + 1 ≤ room + 1 then _ else _
              simp only [hp, Nat.add_le_add_iff_right]
              split <;> rfl
          · rw [hno, hs]
            exact read_none _ _ (by simp)

theorem not_mem_of_mem_splitOn {c : Nat} {text part : Text} (h : part ∈ text.splitOn c) :
    c ∉ part := by
  induction text generalizing part with
  | nil =>
    cases mem_singleton.mp h
    exact not_mem_nil
  | cons d text ih =>
    rw [splitOn, splitOnP_cons_eq_if_modifyHead] at h
    split at h
    · obtain rfl | h := mem_cons.mp h
      · exact not_mem_nil
      · exact ih h
    rename_i hd
    obtain ⟨first, parts, hp⟩ := exists_cons_of_ne_nil (splitOnP_ne_nil (· == c) text)
    rw [hp, modifyHead_cons] at h
    rw [splitOn, hp] at ih
    obtain rfl | h := mem_cons.mp h
    · rw [mem_cons, not_or]
      exact ⟨fun hc => hd (by simp [hc]), ih mem_cons_self⟩
    · exact ih (mem_cons_of_mem _ h)

theorem positional_append (ex : Nat) (vs : List Nat) (last : Nat) :
    positional ex (vs ++ [last]) = positional ex (vs ++ [0]) + last := by
  induction vs generalizing ex with
  | nil => exact (Nat.zero_add last).symm
  | cons v vs ih =>
    cases vs with
    | nil => rfl
    | cons next vs =>
      simp only [cons_append, positional] at ih ⊢
      rw [ih, Nat.add_assoc]

variable {vs : List Nat}

theorem positional_lt {ex last : Nat}
    (hlen : vs.length ≤ ex) (hvs : ∀ v ∈ vs, v ≤ 255) (hl : last < 256 ^ (ex + 1 - vs.length)) :
    positional ex (vs ++ [last]) < 256 ^ (ex + 1) := by
  induction vs generalizing ex with
  | nil => exact hl
  | cons v vs ih =>
    rw [forall_mem_cons] at hvs
    rw [length_cons] at hlen hl
    obtain ⟨e, rfl⟩ : ∃ e, ex = e + 1 := ⟨ex - 1, by omega⟩
    have hr := @ih e (by omega) hvs.2 (by rwa [Nat.add_sub_add_right] at hl)
    have hc : positional (e + 1) (v :: vs ++ [last]) =
        v * 256 ^ (e + 1) + positional e (vs ++ [last]) := by
      cases vs <;> rfl
    rw [hc]
    have hv : v * 256 ^ (e + 1) ≤ 255 * 256 ^ (e + 1) := Nat.mul_le_mul_right _ hvs.1
    rw [Nat.pow_succ 256 (e + 1)]
    omega

theorem addPieces_eq {ipv4 : Nat} (h : ipv4 < 2 ^ 32) (counter : Nat) (vs : List Nat) :
    addPieces ipv4 counter vs = (ipv4 + positional (3 - counter) (vs ++ [0])) % 2 ^ 32 := by
  induction vs generalizing ipv4 counter with
  | nil => exact (Nat.mod_eq_of_lt h).symm
  | cons v vs ih =>
    have hc : positional (3 - counter) (v :: vs ++ [0]) =
        v * 256 ^ (3 - counter) + positional (3 - (counter + 1)) (vs ++ [0]) := by
      cases vs <;> rfl
    rw [addPieces, ih (Nat.mod_lt _ (by decide)), hc, Nat.mod_add_mod, Nat.add_assoc]

theorem addPieces_eq_positional (hne : vs ≠ []) (hlen : vs.length ≤ 4) (hf : Fits vs) :
    addPieces (vs.getLastD 0) 0 vs.dropLast = positional 3 vs := by
  obtain ⟨vs, last, rfl⟩ := (eq_nil_or_concat' vs).resolve_left hne
  obtain ⟨hb, hl⟩ := hf
  rw [dropLast_concat] at hb
  rw [getLastD_concat, length_append, length_singleton] at hl
  rw [length_append, length_singleton] at hlen
  rw [dropLast_concat, getLastD_concat]
  have hbd : positional 3 (vs ++ [last]) < 256 ^ 4 := by
    refine positional_lt (by omega) hb ?_
    rwa [show 3 + 1 - vs.length = 5 - (vs.length + 1) by omega]
  rw [positional_append] at hbd ⊢
  rw [addPieces_eq (by omega), Nat.add_comm, Nat.sub_zero]
  exact Nat.mod_eq_of_lt hbd

theorem hostOfPieces_values (hne : vs ≠ []) (hlen : vs.length ≤ 4) :
    hostOfPieces (vs.map .value) = if Fits vs then .address (positional 3 vs) else .failure := by
  have hmap : (vs.map IPv4Piece.value).map IPv4Piece.toNat = vs := by
    rw [List.map_map]
    exact List.map_id _
  have hr : ¬(vs.map IPv4Piece.value = [] ∨ .failure ∈ vs.map IPv4Piece.value) := by
    simp [hne]
  have hsm : .overflow ∉ vs.map IPv4Piece.value := by simp
  rw [hostOfPieces, hmap, if_neg hr, if_neg hsm, List.length_map]
  by_cases hb : ∀ v ∈ vs.dropLast, v ≤ 255
  · rw [if_neg (by simpa using hb)]
    by_cases hl : vs.getLastD 0 < 256 ^ (5 - vs.length)
    · rw [if_neg (Nat.not_le.mpr hl), if_pos ⟨hb, hl⟩, addPieces_eq_positional hne hlen ⟨hb, hl⟩]
    · rw [if_pos (Nat.not_lt.mp hl), if_neg (fun hf => hl hf.2)]
  · rw [if_pos (by simpa using hb), if_neg (fun hf => hb hf.1)]

/-- The host is what its text denotes as long as no number that is read has more than 32 bits. -/
theorem parseIPv4Host_eq_of_readsWithin32 {text : Text}
    (h : ReadsWithin32 4 (text.splitOn 0x2e)) : parseIPv4Host text = ipv4Host text := by
  rw [parseIPv4Host, ipv4Host]
  split_ifs with hdot
  · obtain ⟨rest, rfl⟩ := head?_eq_some_iff.mp hdot
    have hsplit : (0x2e :: rest).splitOn 0x2e = [] :: rest.splitOn 0x2e := by
      simp [splitOn, splitOnP_cons_eq_if_modifyHead]
    have hne : rest.splitOn 0x2e ≠ [] := splitOnP_ne_nil _ _
    rw [hsplit, numbers, if_neg (fun h => hne h.2)]
    rfl
  · have hjoin : [0x2e].intercalate (text.splitOn 0x2e) = text := intercalate_splitOn 0x2e
    have hread := parseIPv4Pieces_read (fun part hpart => not_mem_of_mem_splitOn hpart) h
      (hjoin.symm ▸ hdot)
    rw [hjoin] at hread
    cases hnumbers : numbers (text.splitOn 0x2e) with
    | none =>
      rw [hnumbers] at hread
      cases hpieces : parseIPv4Pieces 4 text with
      | none => rfl
      | some items => exact if_pos (.inr (hread items hpieces))
    | some values =>
      rw [hnumbers, Read] at hread
      rw [hread]
      cases values with
      | nil => rfl
      | cons value values =>
        split_ifs with hlength
        · exact (hostOfPieces_values (cons_ne_nil value values) hlength).trans
            (if_neg (Nat.not_lt.mpr hlength)).symm
        · exact (if_pos (Nat.not_le.mp hlength)).symm

theorem parseIPv4Host_mixed :
    let text := "0x7F.1".toList.map Char.toNat
    ReadsWithin32 4 (text.splitOn 0x2e) ∧ parseIPv4Host text = ipv4Host text ∧
      parseIPv4Host text = .address 0x7F000001 := by
  intro text
  have h : ReadsWithin32 4 (text.splitOn 0x2e) := by decide
  exact ⟨h, parseIPv4Host_eq_of_readsWithin32 h, by decide⟩

/-- The last number of 33 bits is read as an overflow and a fifth piece. -/
theorem parseIPv4Host_overflow :
    let text := "1.2.3.4294967296".toList.map Char.toNat
    parseIPv4Host text = .notIPv4 ∧ ipv4Host text = .failure := by
  decide

end JavaScriptCore.Wtf.URLParser
