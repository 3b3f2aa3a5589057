import Mathlib.Data.Nat.Basic

set_option autoImplicit false

/-!
# UTF-8

Bytes are characters below 256.  `utf8Continuation` is the table of well-formed
sequences that every strict decoder implements; `utf8Decode` runs it over a text.
-/

namespace Icflow.Foundation

/-- An ASCII text. -/
def IsAscii (text : List Char) : Prop := ∀ c ∈ text, c.toNat < 0x80

instance (text : List Char) : Decidable (IsAscii text) :=
  List.decidableBAll (fun c : Char => c.toNat < 0x80) text

theorem isAscii_append {first second : List Char} :
    IsAscii (first ++ second) ↔ IsAscii first ∧ IsAscii second :=
  List.forall_mem_append

theorem isAscii_cons {c : Char} {text : List Char} :
    IsAscii (c :: text) ↔ c.toNat < 0x80 ∧ IsAscii text :=
  List.forall_mem_cons

theorem isAscii_nil : IsAscii [] := List.forall_mem_nil _

/-- The UTF-8 bytes of a code point. -/
def utf8Bytes (point : Nat) : List Char :=
  if point < 0x80 then [Char.ofNat point]
  else if point ≤ 0x7FF then
    [Char.ofNat (0xC0 + point / 0x40), Char.ofNat (0x80 + point % 0x40)]
  else if point ≤ 0xFFFF then
    [Char.ofNat (0xE0 + point / 0x1000), Char.ofNat (0x80 + point / 0x40 % 0x40),
      Char.ofNat (0x80 + point % 0x40)]
  else
    [Char.ofNat (0xF0 + point / 0x40000), Char.ofNat (0x80 + point / 0x1000 % 0x40),
      Char.ofNat (0x80 + point / 0x40 % 0x40), Char.ofNat (0x80 + point % 0x40)]

/-- The ranges of the bytes that have to follow a first byte. -/
def utf8Continuation (first : Char) : Option (List (Nat × Nat)) :=
  let byte := first.toNat
  if byte < 0x80 then some []
  else if 0xC2 ≤ byte ∧ byte ≤ 0xDF then some [(0x80, 0xBF)]
  else if byte = 0xE0 then some [(0xA0, 0xBF), (0x80, 0xBF)]
  else if byte = 0xED then some [(0x80, 0x9F), (0x80, 0xBF)]
  else if 0xE1 ≤ byte ∧ byte ≤ 0xEF then some [(0x80, 0xBF), (0x80, 0xBF)]
  else if byte = 0xF0 then some [(0x90, 0xBF), (0x80, 0xBF), (0x80, 0xBF)]
  else if 0xF1 ≤ byte ∧ byte ≤ 0xF3 then some [(0x80, 0xBF), (0x80, 0xBF), (0x80, 0xBF)]
  else if byte = 0xF4 then some [(0x80, 0x8F), (0x80, 0xBF), (0x80, 0xBF)]
  else none

/-- The bits a first byte contributes, by the number of bytes that follow it. -/
def leadBits (byte : Nat) : Nat → Nat
  | 0 => byte
  | 1 => byte % 0x20
  | 2 => byte % 0x10
  | _ => byte % 0x08

/-- Decode from the middle of a sequence: the ranges of the bytes still owed and the
bits collected so far. -/
def utf8DecodeFrom : List (Nat × Nat) → Nat → List Char → Option (List Char)
  | [], _, [] => some []
  | _ :: _, _, [] => none
  | [], _, first :: rest =>
      match utf8Continuation first with
      | none => none
      | some [] => (utf8DecodeFrom [] 0 rest).map (first :: ·)
      | some (range :: ranges) =>
          utf8DecodeFrom (range :: ranges) (leadBits first.toNat (ranges.length + 1)) rest
  | (low, high) :: ranges, bits, next :: rest =>
      if low ≤ next.toNat ∧ next.toNat ≤ high then
        let bits' := bits * 0x40 + next.toNat % 0x40
        match ranges with
        | [] => (utf8DecodeFrom [] 0 rest).map (Char.ofNat bits' :: ·)
        | range :: ranges' => utf8DecodeFrom (range :: ranges') bits' rest
      else none

/-- Strict decoding; `none` is a decoding error. -/
def utf8Decode (bytes : List Char) : Option (List Char) := utf8DecodeFrom [] 0 bytes

theorem utf8Continuation_ascii {c : Char} (hc : c.toNat < 0x80) : utf8Continuation c = some [] := by
  simp [utf8Continuation, hc]

/-- ASCII decodes to itself. -/
theorem utf8Decode_of_isAscii {text : List Char} (h : IsAscii text) :
    utf8Decode text = some text := by
  induction text with
  | nil => rfl
  | cons c text ih =>
      obtain ⟨hc, htext⟩ := isAscii_cons.mp h
      have hrest : utf8DecodeFrom [] 0 text = some text := ih htext
      simp [utf8Decode, utf8DecodeFrom, utf8Continuation_ascii hc, hrest]

/-! ## Decoding what was encoded -/

theorem toNat_byte {byte : Nat} (h : byte < 0x100) : (Char.ofNat byte).toNat = byte := by
  rw [Char.ofNat, dif_pos (Or.inl (by omega))]
  rfl

section Bytes

variable {byte bits low high : Nat} {range : Nat × Nat} {ranges : List (Nat × Nat)}

theorem utf8DecodeFrom_first (h : byte < 0x100)
    (hranges : utf8Continuation (Char.ofNat byte) = some (range :: ranges)) (rest : List Char) :
    utf8DecodeFrom [] 0 (Char.ofNat byte :: rest) =
      utf8DecodeFrom (range :: ranges) (leadBits byte (ranges.length + 1)) rest := by
  rw [utf8DecodeFrom, hranges]
  dsimp only
  rw [toNat_byte h]

theorem utf8DecodeFrom_next (h : byte < 0x100) (hbyte : low ≤ byte ∧ byte ≤ high) (rest : List Char) :
    utf8DecodeFrom ((low, high) :: range :: ranges) bits (Char.ofNat byte :: rest) =
      utf8DecodeFrom (range :: ranges) (bits * 0x40 + byte % 0x40) rest := by
  rw [utf8DecodeFrom, toNat_byte h, if_pos hbyte]

theorem utf8DecodeFrom_last (h : byte < 0x100) (hbyte : low ≤ byte ∧ byte ≤ high) (rest : List Char) :
    utf8DecodeFrom [(low, high)] bits (Char.ofNat byte :: rest) =
      (utf8DecodeFrom [] 0 rest).map (Char.ofNat (bits * 0x40 + byte % 0x40) :: ·) := by
  rw [utf8DecodeFrom, toNat_byte h, if_pos hbyte]

end Bytes

section Points

variable {point : Nat} (rest : List Char)

theorem utf8DecodeFrom_two (hlow : 0x80 ≤ point) (hhigh : point ≤ 0x7FF) :
    utf8DecodeFrom [] 0 (utf8Bytes point ++ rest) =
      (utf8DecodeFrom [] 0 rest).map (Char.ofNat point :: ·) := by
  have hranges : utf8Continuation (Char.ofNat (0xC0 + point / 0x40)) = some [(0x80, 0xBF)] := by
    unfold utf8Continuation
    rw [toNat_byte (by omega)]
    dsimp only
    rw [if_neg (by omega), if_pos (by omega)]
  rw [utf8Bytes, if_neg (by omega), if_pos hhigh, List.cons_append, List.cons_append, List.nil_append,
    utf8DecodeFrom_first (by omega) hranges, utf8DecodeFrom_last (by omega) (by omega)]
  have hbits : leadBits (0xC0 + point / 0x40) 1 * 0x40 + (0x80 + point % 0x40) % 0x40 = point := by
    rw [leadBits]
    omega
  exact congrArg (fun c => (utf8DecodeFrom [] 0 rest).map (Char.ofNat c :: ·)) hbits

theorem utf8DecodeFrom_three (hlow : 0x800 ≤ point) (hhigh : point ≤ 0xFFFF)
    (hplain : ¬ (0xD800 ≤ point ∧ point ≤ 0xDFFF)) :
    utf8DecodeFrom [] 0 (utf8Bytes point ++ rest) =
      (utf8DecodeFrom [] 0 rest).map (Char.ofNat point :: ·) := by
  obtain ⟨first, last, hranges, hsecond⟩ : ∃ first last : Nat,
      utf8Continuation (Char.ofNat (0xE0 + point / 0x1000)) = some [(first, last), (0x80, 0xBF)] ∧
        first ≤ 0x80 + point / 0x40 % 0x40 ∧ 0x80 + point / 0x40 % 0x40 ≤ last := by
    unfold utf8Continuation
    rw [toNat_byte (by omega)]
    dsimp only
    rw [if_neg (by omega), if_neg (by omega)]
    -- the shortest forms and the surrogates have ranges of their own
    by_cases hshort : point < 0x1000
    · rw [if_pos (by omega)]
      exact ⟨_, _, rfl, by omega, by omega⟩
    · rw [if_neg (by omega)]
      by_cases hsurrogate : point / 0x1000 = 0xD
      · rw [if_pos (by omega)]
        exact ⟨_, _, rfl, by omega, by omega⟩
      · rw [if_neg (by omega), if_pos (by omega)]
        exact ⟨_, _, rfl, by omega, by omega⟩
  rw [utf8Bytes, if_neg (by omega), if_neg (by omega), if_pos hhigh, List.cons_append,
    List.cons_append, List.cons_append, List.nil_append, utf8DecodeFrom_first (by omega) hranges,
    utf8DecodeFrom_next (by omega) hsecond, utf8DecodeFrom_last (by omega) (by omega)]
  have hbits : (leadBits (0xE0 + point / 0x1000) 2 * 0x40 + (0x80 + point / 0x40 % 0x40) % 0x40) *
      0x40 + (0x80 + point % 0x40) % 0x40 = point := by
    rw [leadBits]
    omega
  exact congrArg (fun c => (utf8DecodeFrom [] 0 rest).map (Char.ofNat c :: ·)) hbits

theorem utf8DecodeFrom_four (hlow : 0x10000 ≤ point) (hhigh : point < 0x110000) :
    utf8DecodeFrom [] 0 (utf8Bytes point ++ rest) =
      (utf8DecodeFrom [] 0 rest).map (Char.ofNat point :: ·) := by
  obtain ⟨first, last, hranges, hsecond⟩ : ∃ first last : Nat,
      utf8Continuation (Char.ofNat (0xF0 + point / 0x40000)) =
        some [(first, last), (0x80, 0xBF), (0x80, 0xBF)] ∧
        first ≤ 0x80 + point / 0x1000 % 0x40 ∧ 0x80 + point / 0x1000 % 0x40 ≤ last := by
    unfold utf8Continuation
    rw [toNat_byte (by omega)]
    dsimp only
    rw [if_neg (by omega), if_neg (by omega), if_neg (by omega), if_neg (by omega), if_neg (by omega)]
    by_cases hshort : point < 0x40000
    · rw [if_pos (by omega)]
      exact ⟨_, _, rfl, by omega, by omega⟩
    · rw [if_neg (by omega)]
      by_cases hlast : point < 0x100000
      · rw [if_pos (by omega)]
        exact ⟨_, _, rfl, by omega, by omega⟩
      · rw [if_neg (by omega), if_pos (by omega)]
        exact ⟨_, _, rfl, by omega, by omega⟩
  rw [utf8Bytes, if_neg (by omega), if_neg (by omega), if_neg (by omega), List.cons_append,
    List.cons_append, List.cons_append, List.cons_append, List.nil_append,
    utf8DecodeFrom_first (by omega) hranges, utf8DecodeFrom_next (by omega) hsecond,
    utf8DecodeFrom_next (by omega) (by omega), utf8DecodeFrom_last (by omega) (by omega)]
  have hbits : ((leadBits (0xF0 + point / 0x40000) 3 * 0x40 +
      (0x80 + point / 0x1000 % 0x40) % 0x40) * 0x40 + (0x80 + point / 0x40 % 0x40) % 0x40) *
        0x40 + (0x80 + point % 0x40) % 0x40 = point := by
    rw [leadBits]
    · omega
    · omega
    · omega
    · omega
  exact congrArg (fun c => (utf8DecodeFrom [] 0 rest).map (Char.ofNat c :: ·)) hbits

/-- The bytes of a code point that is no surrogate are decoded to it. -/
theorem utf8DecodeFrom_utf8Bytes (h : point < 0x110000)
    (hplain : ¬ (0xD800 ≤ point ∧ point ≤ 0xDFFF)) :
    utf8DecodeFrom [] 0 (utf8Bytes point ++ rest) =
      (utf8DecodeFrom [] 0 rest).map (Char.ofNat point :: ·) := by
  by_cases hone : point < 0x80
  · have hascii : utf8Continuation (Char.ofNat point) = some [] := by
      apply utf8Continuation_ascii
      rwa [toNat_byte (by omega)]
    rw [utf8Bytes, if_pos hone, List.singleton_append, utf8DecodeFrom, hascii]
  · by_cases htwo : point ≤ 0x7FF
    · exact utf8DecodeFrom_two rest (by omega) htwo
    · by_cases hthree : point ≤ 0xFFFF
      · exact utf8DecodeFrom_three rest (by omega) hthree hplain
      · exact utf8DecodeFrom_four rest (by omega) h

end Points

/-- A text is decoded from its bytes. -/
theorem utf8Decode_flatMap_utf8Bytes (points : List Nat)
    (h : ∀ point ∈ points, point < 0x110000 ∧ ¬ (0xD800 ≤ point ∧ point ≤ 0xDFFF)) :
    utf8Decode (points.flatMap utf8Bytes) = some (points.map Char.ofNat) := by
  induction points with
  | nil => rfl
  | cons point points ih =>
      obtain ⟨hpoint, hrest⟩ := List.forall_mem_cons.mp h
      have htail : utf8DecodeFrom [] 0 (points.flatMap utf8Bytes) = some (points.map Char.ofNat) :=
        ih hrest
      rw [utf8Decode, List.flatMap_cons, utf8DecodeFrom_utf8Bytes _ hpoint.1 hpoint.2, htail]
      rfl

end Icflow.Foundation
