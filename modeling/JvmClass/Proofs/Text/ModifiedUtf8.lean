import JvmClass.Text.ModifiedUtf8

/-!
# Reading modified UTF-8

Every text is read back from its modified UTF-8 form. The groups of bytes are
split into the units that they were made of, and the units are joined to the
characters that they belong to.
-/

namespace JvmClass.ModifiedUtf8

/-! ## Groups of bytes -/

/-- A byte from 1 to 127 is a group of its own. -/
theorem lead_eq_one {b : UInt8} (hlow : 0x01 ≤ b.toNat) (hhigh : b.toNat ≤ 0x7F) :
    lead b = .one := by
  unfold lead
  rw [if_pos ⟨UInt8.le_iff_toNat_le.mpr hlow, UInt8.le_iff_toNat_le.mpr hhigh⟩]

/-- A byte from 192 to 223 leads a group of two. -/
theorem lead_eq_two {b : UInt8} (hlow : 0xC0 ≤ b.toNat) (hhigh : b.toNat ≤ 0xDF) :
    lead b = .two := by
  unfold lead
  simp only [UInt8.le_iff_toNat_le]
  rw [if_neg fun h => by have h := h.2; simp at h; omega, if_pos ⟨hlow, hhigh⟩]

/-- A byte from 224 to 239 leads a group of three. -/
theorem lead_eq_three {b : UInt8} (hlow : 0xE0 ≤ b.toNat) (hhigh : b.toNat ≤ 0xEF) :
    lead b = .three := by
  unfold lead
  simp only [UInt8.le_iff_toNat_le]
  rw [if_neg fun h => by have h := h.2; simp at h; omega,
    if_neg fun h => by have h := h.2; simp at h; omega, if_pos ⟨hlow, hhigh⟩]

/-- A byte from 128 to 191 may follow the first one of a group. -/
theorem isContinuation_ofNat {n : Nat} (h : n < 0x40) :
    isContinuation (UInt8.ofNat (0x80 + n)) = true := by
  unfold isContinuation
  have hnumber : (UInt8.ofNat (0x80 + n)).toNat = 0x80 + n := by
    rw [UInt8.toNat_ofNat']
    omega
  simp only [UInt8.le_iff_toNat_le, hnumber, Bool.and_eq_true, decide_eq_true_eq]
  constructor
  · exact Nat.le_add_right ..
  · show 0x80 + n ≤ 0xBF
    omega

/-- The group of a unit is of one of three forms, each of which tells the unit. -/
theorem encodeUnit_cases (unit : UInt16) :
    (∃ a, encodeUnit unit = [a] ∧ lead a = .one ∧ a.toUInt16 = unit) ∨
      (∃ a b, encodeUnit unit = [a, b] ∧ lead a = .two ∧ isContinuation b = true ∧
        unitOfTwo a b = unit) ∨
      ∃ a b c, encodeUnit unit = [a, b, c] ∧ lead a = .three ∧ isContinuation b = true ∧
        isContinuation c = true ∧ unitOfThree a b c = unit := by
  have hunit := unit.toNat_lt
  unfold encodeUnit
  simp only
  by_cases hone : 0 < unit.toNat ∧ unit.toNat < 0x80
  · rw [if_pos hone]
    have hbyte : (UInt8.ofNat unit.toNat).toNat = unit.toNat := by
      rw [UInt8.toNat_ofNat']
      omega
    refine .inl ⟨_, rfl, ?_, ?_⟩
    · apply lead_eq_one <;> omega
    · apply UInt16.toNat.inj
      rw [UInt8.toNat_toUInt16, hbyte]
  rw [if_neg hone]
  have hlast : (UInt8.ofNat (0x80 + unit.toNat % 0x40)).toNat = 0x80 + unit.toNat % 0x40 := by
    rw [UInt8.toNat_ofNat']
    omega
  by_cases htwo : unit.toNat < 0x800
  · rw [if_pos htwo]
    have hfirst : (UInt8.ofNat (0xC0 + unit.toNat / 0x40)).toNat = 0xC0 + unit.toNat / 0x40 := by
      rw [UInt8.toNat_ofNat']
      omega
    refine .inr (.inl ⟨_, _, rfl, ?_, isContinuation_ofNat (by omega), ?_⟩)
    · apply lead_eq_two <;> omega
    · unfold unitOfTwo
      apply UInt16.toNat.inj
      rw [hfirst, hlast, UInt16.toNat_ofNat']
      omega
  · rw [if_neg htwo]
    have hfirst : (UInt8.ofNat (0xE0 + unit.toNat / 0x1000)).toNat =
        0xE0 + unit.toNat / 0x1000 := by
      rw [UInt8.toNat_ofNat']
      omega
    have hmiddle : (UInt8.ofNat (0x80 + unit.toNat / 0x40 % 0x40)).toNat =
        0x80 + unit.toNat / 0x40 % 0x40 := by
      rw [UInt8.toNat_ofNat']
      omega
    refine .inr (.inr ⟨_, _, _, rfl, ?_, isContinuation_ofNat (by omega),
      isContinuation_ofNat (by omega), ?_⟩)
    · apply lead_eq_three <;> omega
    · unfold unitOfThree
      apply UInt16.toNat.inj
      rw [hfirst, hmiddle, hlast, UInt16.toNat_ofNat']
      omega

/-- The group of a unit is split into the unit. -/
theorem splitUnits_encodeUnit (offset : Nat) (done : List (Nat × UInt16)) (unit : UInt16)
    (rest : List UInt8) :
    splitUnits offset done (encodeUnit unit ++ rest) =
      splitUnits (offset + (encodeUnit unit).length) ((offset, unit) :: done) rest := by
  rcases encodeUnit_cases unit with ⟨a, hgroup, hlead, rfl⟩ | ⟨a, b, hgroup, hlead, hb, rfl⟩ |
      ⟨a, b, c, hgroup, hlead, hb, hc, rfl⟩
  · rw [hgroup]
    show splitUnits offset done (a :: rest) = _
    rw [splitUnits.eq_def]
    simp only [hlead]
    rfl
  · rw [hgroup]
    show splitUnits offset done (a :: b :: rest) = _
    rw [splitUnits.eq_def]
    simp only [hlead, hb, if_true]
    rfl
  · rw [hgroup]
    show splitUnits offset done (a :: b :: c :: rest) = _
    rw [splitUnits.eq_def]
    simp only [hlead, hb, hc, Bool.and_self, if_true]
    rfl

/-- Units with the offsets of their groups, of which the first lies at
`offset`. -/
def located (offset : Nat) : List UInt16 → List (Nat × UInt16)
  | [] => []
  | unit :: units => (offset, unit) :: located (offset + (encodeUnit unit).length) units

/-- The groups of units are split into the units. -/
theorem splitUnits_flatMap_encodeUnit (units : List UInt16) (offset : Nat)
    (done : List (Nat × UInt16)) :
    splitUnits offset done (units.flatMap encodeUnit) =
      .ok (done.reverse ++ located offset units) := by
  induction units generalizing offset done with
  | nil => exact congrArg Except.ok (List.append_nil _).symm
  | cons unit units ih =>
    rw [List.flatMap_cons, splitUnits_encodeUnit, ih, List.reverse_cons, List.append_assoc]
    rfl

/-! ## Characters -/

/-- A character has one unit that is no surrogate, or two that are a pair, and
they tell the character. -/
theorem unitsOfChar_cases (c : Char) :
    (∃ unit, unitsOfChar c = [unit] ∧ isHighSurrogate unit = false ∧
      isLowSurrogate unit = false ∧ Char.ofNat unit.toNat = c) ∨
      ∃ high low, unitsOfChar c = [high, low] ∧ isHighSurrogate high = true ∧
        isLowSurrogate low = true ∧ pairedChar high low = c := by
  have hvalid : c.toNat < 0xD800 ∨ 0xDFFF < c.toNat ∧ c.toNat < 0x110000 := c.valid
  unfold unitsOfChar
  by_cases hshort : c.toNat < 0x10000
  · rw [if_pos hshort]
    have hunit : (UInt16.ofNat c.toNat).toNat = c.toNat := by
      rw [UInt16.toNat_ofNat']
      omega
    refine .inl ⟨_, rfl, ?_, ?_, by rw [hunit, Char.ofNat_toNat]⟩
    · unfold isHighSurrogate
      simp [UInt16.le_iff_toNat_le, hunit]
      omega
    · unfold isLowSurrogate
      simp [UInt16.le_iff_toNat_le, hunit]
      omega
  · rw [if_neg hshort]
    have hhigh : (UInt16.ofNat (0xD800 + (c.toNat - 0x10000) / 0x400)).toNat =
        0xD800 + (c.toNat - 0x10000) / 0x400 := by
      rw [UInt16.toNat_ofNat']
      omega
    have hlow : (UInt16.ofNat (0xDC00 + (c.toNat - 0x10000) % 0x400)).toNat =
        0xDC00 + (c.toNat - 0x10000) % 0x400 := by
      rw [UInt16.toNat_ofNat']
      omega
    refine .inr ⟨_, _, rfl, ?_, ?_, ?_⟩
    · unfold isHighSurrogate
      simp [UInt16.le_iff_toNat_le]
      omega
    · unfold isLowSurrogate
      simp [UInt16.le_iff_toNat_le]
      omega
    · have hnumber : 0x10000 + (0xD800 + (c.toNat - 0x10000) / 0x400 - 0xD800) * 0x400 +
          (0xDC00 + (c.toNat - 0x10000) % 0x400 - 0xDC00) = c.toNat := by omega
      unfold pairedChar
      rw [hhigh, hlow, hnumber, Char.ofNat_toNat]

/-- The units of a character are joined to it. -/
theorem joinUnits_unitsOfChar (text : String) (c : Char) (offset : Nat) (units : List UInt16) :
    ∃ later, joinUnits text (located offset (unitsOfChar c ++ units)) =
      joinUnits (text.push c) (located later units) := by
  rcases unitsOfChar_cases c with ⟨unit, hunits, hhigh, hlow, hc⟩ |
      ⟨high, low, hunits, hhigh, hlow, hc⟩
  · refine ⟨offset + (encodeUnit unit).length, ?_⟩
    rw [hunits]
    show joinUnits text ((offset, unit) :: located _ units) = _
    rw [joinUnits.eq_def]
    simp only [hhigh, hlow, hc, Bool.false_eq_true, if_false]
  · refine ⟨offset + (encodeUnit high).length + (encodeUnit low).length, ?_⟩
    rw [hunits]
    show joinUnits text ((offset, high) :: (_, low) :: located _ units) = _
    rw [joinUnits.eq_def]
    simp only [hhigh, hlow, hc, if_true]

/-- The units of characters are joined to the characters. -/
theorem joinUnits_flatMap_unitsOfChar (chars : List Char) (text : String) (offset : Nat) :
    joinUnits text (located offset (chars.flatMap unitsOfChar)) =
      .ok (text ++ String.ofList chars) := by
  induction chars generalizing text offset with
  | nil => exact congrArg Except.ok (by simp)
  | cons c chars ih =>
    obtain ⟨later, hfirst⟩ := joinUnits_unitsOfChar text c offset (chars.flatMap unitsOfChar)
    rw [List.flatMap_cons, hfirst, ih]
    congr 1
    simp [String.ext_iff]

/-- Every text is read back unit by unit from its modified UTF-8 form. -/
theorem decodeUnits_encode (text : String) : decodeUnits (encode text) = .ok text := by
  unfold decodeUnits encode utf16
  rw [splitUnits_flatMap_encodeUnit]
  show joinUnits "" (located 0 (text.toList.flatMap unitsOfChar)) = .ok text
  rw [joinUnits_flatMap_unitsOfChar]
  simp

/-! ## Plain ASCII -/

/-- A number that is no surrogate and not too large is that of its character. -/
theorem toNat_charOfNat {n : Nat} (h : n.isValidChar) : (Char.ofNat n).toNat = n := by
  unfold Char.ofNat
  rw [dif_pos h]
  rfl

/-- A byte is the unit of its character. -/
theorem unitsOfChar_ofByte (b : UInt8) : unitsOfChar (Char.ofNat b.toNat) = [b.toUInt16] := by
  have hlt := b.toNat_lt
  have hunit : UInt16.ofNat b.toNat = b.toUInt16 := by
    apply UInt16.toNat.inj
    rw [UInt16.toNat_ofNat', UInt8.toNat_toUInt16]
    omega
  unfold unitsOfChar
  rw [toNat_charOfNat (.inl (by omega)), if_pos (by omega), hunit]

/-- A byte from 1 to 127 is written as itself. -/
theorem encodeUnit_toUInt16 {b : UInt8} (hpos : 0 < b.toNat) (hlt : b.toNat < 0x80) :
    encodeUnit b.toUInt16 = [b] := by
  unfold encodeUnit
  simp only [UInt8.toNat_toUInt16]
  rw [if_pos ⟨hpos, hlt⟩, UInt8.ofNat_toNat]

/-- Plain ASCII is written as itself. -/
theorem encode_asciiText {bytes : List UInt8} (h : isAscii bytes = true) :
    encode (asciiText bytes) = bytes := by
  unfold encode utf16 asciiText
  rw [String.toList_ofList]
  induction bytes with
  | nil => rfl
  | cons b bytes ih =>
    unfold isAscii at h
    rw [List.all_cons, Bool.and_eq_true, Bool.and_eq_true, bne_iff_ne, decide_eq_true_eq] at h
    obtain ⟨⟨hzero, hhigh⟩, hlater⟩ := h
    have hpos : 0 < b.toNat := Nat.pos_of_ne_zero fun hn => hzero (UInt8.toNat.inj hn)
    have hlt : b.toNat < 0x80 := UInt8.lt_iff_toNat_lt.mp hhigh
    rw [List.map_cons, List.flatMap_cons, unitsOfChar_ofByte, List.flatMap_append, ih hlater,
      List.flatMap_singleton, encodeUnit_toUInt16 hpos hlt]
    rfl

/-- Plain ASCII reads the same byte by byte and unit by unit. -/
theorem decode_eq_decodeUnits (bytes : List UInt8) : decode bytes = decodeUnits bytes := by
  unfold decode
  split
  · next hascii =>
    have hunits := decodeUnits_encode (asciiText bytes)
    rw [encode_asciiText hascii] at hunits
    exact hunits.symm
  · rfl

/-- Every text is read back from its modified UTF-8 form. -/
theorem decode_encode (text : String) : decode (encode text) = .ok text := by
  rw [decode_eq_decodeUnits, decodeUnits_encode]

/-! ## The bytes of a text -/

/-- No byte of a group is zero, and none is larger than the first byte of a group
of three. -/
theorem bounds_of_mem_encodeUnit {unit : UInt16} {b : UInt8} (h : b ∈ encodeUnit unit) :
    b ≠ 0 ∧ b ≤ 0xEF := by
  have hunit := unit.toNat_lt
  have hbyte : ∀ n, 0 < n → n ≤ 0xEF → UInt8.ofNat n ≠ 0 ∧ UInt8.ofNat n ≤ 0xEF := by
    intro n hpos hle
    have hnumber : (UInt8.ofNat n).toNat = n := by
      rw [UInt8.toNat_ofNat']
      omega
    constructor
    · intro hzero
      rw [hzero] at hnumber
      exact absurd hnumber (Nat.ne_of_lt hpos)
    · rw [UInt8.le_iff_toNat_le, hnumber]
      exact hle
  unfold encodeUnit at h
  simp only at h
  split at h
  · next hone =>
    obtain rfl := List.mem_singleton.mp h
    exact hbyte _ hone.1 (by omega)
  split at h
  · rcases List.mem_cons.mp h with rfl | h
    · exact hbyte _ (by omega) (by omega)
    · obtain rfl := List.mem_singleton.mp h
      exact hbyte _ (by omega) (by omega)
  · rcases List.mem_cons.mp h with rfl | h
    · exact hbyte _ (by omega) (by omega)
    rcases List.mem_cons.mp h with rfl | h
    · exact hbyte _ (by omega) (by omega)
    · obtain rfl := List.mem_singleton.mp h
      exact hbyte _ (by omega) (by omega)

/-- Every text has a modified UTF-8 form, from which it is read back, also where
the form is plain ASCII and would not have to be split into units. No byte of
the form is zero and none is larger than the first byte of a group of three. -/
theorem encode_reads_back (text : String) :
    decode (encode text) = .ok text ∧ decodeUnits (encode text) = .ok text ∧
      ∀ b ∈ encode text, b ≠ 0 ∧ b ≤ 0xEF := by
  refine ⟨decode_encode text, decodeUnits_encode text, fun b hb => ?_⟩
  obtain ⟨unit, -, hunit⟩ := List.mem_flatMap.mp hb
  exact bounds_of_mem_encodeUnit hunit

example : encode "A\x00😀" = [0x41, 0xC0, 0x80, 0xED, 0xA0, 0xBD, 0xED, 0xB8, 0x80] := by decide

end JvmClass.ModifiedUtf8
