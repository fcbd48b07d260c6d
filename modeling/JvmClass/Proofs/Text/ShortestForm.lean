import JvmClass.Proofs.Text.ModifiedUtf8

/-!
# Texts that are written as they were read

Reading accepts groups of bytes that are longer than their unit needs, and
writing makes none. A text that was read is therefore written as the bytes that
it was read from exactly if each of their groups has the shortest form that its
unit has.
-/

namespace JvmClass.ModifiedUtf8

/-! ## What is read -/

/-- Bytes that are groups, one behind the other, with the units of the groups. -/
inductive Groups : List UInt8 → List UInt16 → Prop
  /-- No group. -/
  | nil : Groups [] []
  /-- A group of one byte. -/
  | one {a : UInt8} {rest : List UInt8} {units : List UInt16} (ha : lead a = .one)
      (hrest : Groups rest units) : Groups (a :: rest) (a.toUInt16 :: units)
  /-- A group of two bytes. -/
  | two {a b : UInt8} {rest : List UInt8} {units : List UInt16} (ha : lead a = .two)
      (hb : isContinuation b = true) (hrest : Groups rest units) :
      Groups (a :: b :: rest) (unitOfTwo a b :: units)
  /-- A group of three bytes. -/
  | three {a b c : UInt8} {rest : List UInt8} {units : List UInt16} (ha : lead a = .three)
      (hb : isContinuation b = true) (hc : isContinuation c = true)
      (hrest : Groups rest units) : Groups (a :: b :: c :: rest) (unitOfThree a b c :: units)

/-- Bytes that are split into units are the groups of the units. -/
theorem groups_of_splitUnits {offset : Nat} {done all : List (Nat × UInt16)}
    {bytes : List UInt8} (h : splitUnits offset done bytes = .ok all) :
    ∃ units, Groups bytes units ∧ all.map Prod.snd = done.reverse.map Prod.snd ++ units := by
  fun_induction splitUnits offset done bytes with
  | case1 offset done =>
    cases h
    exact ⟨[], .nil, (List.append_nil _).symm⟩
  | case2 offset done a rest ha ih =>
    obtain ⟨units, hunits, hall⟩ := ih h
    exact ⟨_, .one ha hunits, by simpa using hall⟩
  | case3 offset done a ha b rest hb ih =>
    obtain ⟨units, hunits, hall⟩ := ih h
    exact ⟨_, .two ha hb hunits, by simpa using hall⟩
  | case4 => cases h
  | case5 => cases h
  | case6 offset done a ha b c rest hbc ih =>
    obtain ⟨units, hunits, hall⟩ := ih h
    obtain ⟨hb, hc⟩ := Bool.and_eq_true_iff.mp hbc
    exact ⟨_, .three ha hb hc hunits, by simpa using hall⟩
  | case7 => cases h
  | case8 => cases h
  | case9 => cases h

/-- The number that a surrogate pair is joined to is always that of a character. -/
theorem toNat_pairedChar {high low : UInt16} (hhigh : isHighSurrogate high = true)
    (hlow : isLowSurrogate low = true) :
    (pairedChar high low).toNat =
      0x10000 + (high.toNat - 0xD800) * 0x400 + (low.toNat - 0xDC00) := by
  unfold isHighSurrogate at hhigh
  unfold isLowSurrogate at hlow
  simp [UInt16.le_iff_toNat_le] at hhigh hlow
  exact toNat_charOfNat (.inr (by omega))

/-- The units of a surrogate pair are those of its character. -/
theorem unitsOfChar_pairedChar {high low : UInt16} (hhigh : isHighSurrogate high = true)
    (hlow : isLowSurrogate low = true) : unitsOfChar (pairedChar high low) = [high, low] := by
  have hchar := toNat_pairedChar hhigh hlow
  unfold isHighSurrogate at hhigh
  unfold isLowSurrogate at hlow
  simp [UInt16.le_iff_toNat_le] at hhigh hlow
  have hfirst : 0xD800 + ((pairedChar high low).toNat - 0x10000) / 0x400 = high.toNat := by omega
  have hsecond : 0xDC00 + ((pairedChar high low).toNat - 0x10000) % 0x400 = low.toNat := by omega
  unfold unitsOfChar
  rw [if_neg (by omega), hfirst, hsecond, UInt16.ofNat_toNat, UInt16.ofNat_toNat]

/-- A unit that is no surrogate is that of its character. -/
theorem unitsOfChar_ofNat {unit : UInt16} (hhigh : isHighSurrogate unit = false)
    (hlow : isLowSurrogate unit = false) : unitsOfChar (Char.ofNat unit.toNat) = [unit] := by
  have hunit := unit.toNat_lt
  unfold isHighSurrogate at hhigh
  unfold isLowSurrogate at hlow
  simp [UInt16.le_iff_toNat_le] at hhigh hlow
  have hchar : (Char.ofNat unit.toNat).toNat = unit.toNat := by
    refine toNat_charOfNat ?_
    by_cases hlt : unit.toNat < 0xD800
    · exact .inl hlt
    · exact .inr (by omega)
  unfold unitsOfChar
  rw [hchar, if_pos hunit, UInt16.ofNat_toNat]

/-- Units that are joined to characters are those of the characters. -/
theorem units_of_joinUnits {text s : String} {all : List (Nat × UInt16)}
    (h : joinUnits text all = .ok s) :
    ∃ chars, s.toList = text.toList ++ chars ∧ all.map Prod.snd = chars.flatMap unitsOfChar := by
  fun_induction joinUnits text all with
  | case1 text =>
    cases h
    exact ⟨[], (List.append_nil _).symm, rfl⟩
  | case2 text offset high hhigh other low rest hlow ih =>
    obtain ⟨chars, hs, hunits⟩ := ih h
    refine ⟨pairedChar high low :: chars, ?_, ?_⟩
    · rw [hs, String.toList_push, List.append_assoc]
      rfl
    · rw [List.flatMap_cons, unitsOfChar_pairedChar hhigh hlow, ← hunits]
      rfl
  | case3 => cases h
  | case4 => cases h
  | case5 => cases h
  | case6 text offset unit rest hhigh hlow ih =>
    obtain ⟨chars, hs, hunits⟩ := ih h
    refine ⟨Char.ofNat unit.toNat :: chars, ?_, ?_⟩
    · rw [hs, String.toList_push, List.append_assoc]
      rfl
    · rw [List.flatMap_cons, unitsOfChar_ofNat (by simpa using hhigh) (by simpa using hlow), ← hunits]
      rfl

/-- The bytes that a text is read from are groups of its units. -/
theorem groups_of_decode {bytes : List UInt8} {text : String} (h : decode bytes = .ok text) :
    Groups bytes (utf16 text) := by
  rw [decode_eq_decodeUnits] at h
  unfold decodeUnits at h
  cases hsplit : splitUnits 0 [] bytes with
  | error fault =>
    rw [hsplit] at h
    cases h
  | ok all =>
    rw [hsplit] at h
    obtain ⟨units, hgroups, hall⟩ := groups_of_splitUnits hsplit
    obtain ⟨chars, htext, hunits⟩ := units_of_joinUnits h
    have hchars : text.toList = chars := htext
    have hall : all.map Prod.snd = units := hall
    unfold utf16
    rw [hchars, ← hunits, hall]
    exact hgroups

/-! ## Shortest groups -/

/-- Whether every group of bytes is the shortest one of its unit. Two bytes are
needed from 128 on and for zero, three from 2048 on. -/
def isShortest : List UInt8 → Bool
  | [] => true
  | a :: rest =>
    match lead a with
    | .one => isShortest rest
    | .two =>
      match rest with
      | b :: rest => (0xC2 ≤ a || a == 0xC0 && b == 0x80) && isShortest rest
      | [] => false
    | .three =>
      match rest with
      | b :: _ :: rest => (0xE1 ≤ a || 0xA0 ≤ b) && isShortest rest
      | _ => false
    | .invalid => false

/-! ## What is written -/

/-- The first byte of a group lies in the range of its form. -/
theorem bounds_of_lead (a : UInt8) :
    (lead a = .one → 0x01 ≤ a.toNat ∧ a.toNat ≤ 0x7F) ∧
      (lead a = .two → 0xC0 ≤ a.toNat ∧ a.toNat ≤ 0xDF) ∧
      (lead a = .three → 0xE0 ≤ a.toNat ∧ a.toNat ≤ 0xEF) := by
  unfold lead
  simp only [UInt8.le_iff_toNat_le]
  split
  · next h => exact ⟨fun _ => h, nofun, nofun⟩
  split
  · next h => exact ⟨nofun, fun _ => h, nofun⟩
  split
  · next h => exact ⟨nofun, nofun, fun _ => h⟩
  · exact ⟨nofun, nofun, nofun⟩

/-- A later byte of a group. -/
theorem bounds_of_isContinuation {b : UInt8} (h : isContinuation b = true) :
    0x80 ≤ b.toNat ∧ b.toNat ≤ 0xBF := by
  unfold isContinuation at h
  simpa [UInt8.le_iff_toNat_le] using h

/-- The unit of a group of two bytes. -/
theorem toNat_unitOfTwo {a b : UInt8} (ha : lead a = .two) (hb : isContinuation b = true) :
    (unitOfTwo a b).toNat = (a.toNat - 0xC0) * 0x40 + (b.toNat - 0x80) := by
  obtain ⟨halow, hahigh⟩ := (bounds_of_lead a).2.1 ha
  obtain ⟨hblow, hbhigh⟩ := bounds_of_isContinuation hb
  unfold unitOfTwo
  rw [UInt16.toNat_ofNat']
  omega

/-- The unit of a group of three bytes. -/
theorem toNat_unitOfThree {a b c : UInt8} (ha : lead a = .three) (hb : isContinuation b = true)
    (hc : isContinuation c = true) :
    (unitOfThree a b c).toNat =
      (a.toNat - 0xE0) * 0x1000 + (b.toNat - 0x80) * 0x40 + (c.toNat - 0x80) := by
  obtain ⟨halow, hahigh⟩ := (bounds_of_lead a).2.2 ha
  obtain ⟨hblow, hbhigh⟩ := bounds_of_isContinuation hb
  obtain ⟨hclow, hchigh⟩ := bounds_of_isContinuation hc
  unfold unitOfThree
  rw [UInt16.toNat_ofNat']
  omega

/-- A group of one byte is what its unit is written as. -/
theorem encodeUnit_of_lead_eq_one {a : UInt8} (ha : lead a = .one) :
    encodeUnit a.toUInt16 = [a] := by
  obtain ⟨hlow, hhigh⟩ := (bounds_of_lead a).1 ha
  exact encodeUnit_toUInt16 hlow (Nat.lt_succ_of_le hhigh)

/-- The unit of a group of two bytes takes at most two bytes. -/
theorem length_encodeUnit_unitOfTwo (a b : UInt8) : (encodeUnit (unitOfTwo a b)).length ≤ 2 := by
  have hunit : (unitOfTwo a b).toNat < 0x800 := by
    unfold unitOfTwo
    rw [UInt16.toNat_ofNat']
    omega
  unfold encodeUnit
  simp only [if_pos hunit]
  split
  · exact Nat.le_succ 1
  · exact Nat.le_refl 2

/-- No unit takes more than three bytes. -/
theorem length_encodeUnit_le (unit : UInt16) : (encodeUnit unit).length ≤ 3 := by
  unfold encodeUnit
  simp only
  split
  · exact Nat.le_add_left 1 2
  · split
    · exact Nat.le_succ 2
    · exact Nat.le_refl 3

/-- A group of two bytes is what its unit is written as exactly if the unit does
not fit one byte. -/
theorem encodeUnit_unitOfTwo_iff {a b : UInt8} (ha : lead a = .two)
    (hb : isContinuation b = true) :
    encodeUnit (unitOfTwo a b) = [a, b] ↔ (0xC2 ≤ a || a == 0xC0 && b == 0x80) = true := by
  obtain ⟨halow, hahigh⟩ := (bounds_of_lead a).2.1 ha
  obtain ⟨hblow, hbhigh⟩ := bounds_of_isContinuation hb
  have hunit := toNat_unitOfTwo ha hb
  have hshort : (0xC2 ≤ a || a == 0xC0 && b == 0x80) = true ↔
      ¬ (0 < (unitOfTwo a b).toNat ∧ (unitOfTwo a b).toNat < 0x80) := by
    rw [hunit, Bool.or_eq_true, Bool.and_eq_true, beq_iff_eq, beq_iff_eq, decide_eq_true_eq,
      UInt8.le_iff_toNat_le, ← UInt8.toNat_inj, ← UInt8.toNat_inj]
    show 0xC2 ≤ a.toNat ∨ a.toNat = 0xC0 ∧ b.toNat = 0x80 ↔ _
    omega
  rw [hshort]
  unfold encodeUnit
  simp only
  split
  · next hone => exact iff_of_false (fun h => by simp at h) fun h => h hone
  · next hone =>
    have hfirst : 0xC0 + (unitOfTwo a b).toNat / 0x40 = a.toNat := by omega
    have hsecond : 0x80 + (unitOfTwo a b).toNat % 0x40 = b.toNat := by omega
    rw [if_pos (by omega), hfirst, hsecond, UInt8.ofNat_toNat, UInt8.ofNat_toNat]
    exact iff_of_true rfl hone

/-- A group of three bytes is what its unit is written as exactly if the unit
does not fit two bytes. -/
theorem encodeUnit_unitOfThree_iff {a b c : UInt8} (ha : lead a = .three)
    (hb : isContinuation b = true) (hc : isContinuation c = true) :
    encodeUnit (unitOfThree a b c) = [a, b, c] ↔ (0xE1 ≤ a || 0xA0 ≤ b) = true := by
  obtain ⟨halow, hahigh⟩ := (bounds_of_lead a).2.2 ha
  obtain ⟨hblow, hbhigh⟩ := bounds_of_isContinuation hb
  obtain ⟨hclow, hchigh⟩ := bounds_of_isContinuation hc
  have hunit := toNat_unitOfThree ha hb hc
  have hshort : (0xE1 ≤ a || 0xA0 ≤ b) = true ↔ 0x800 ≤ (unitOfThree a b c).toNat := by
    rw [hunit, Bool.or_eq_true, decide_eq_true_eq, decide_eq_true_eq, UInt8.le_iff_toNat_le,
      UInt8.le_iff_toNat_le]
    show 0xE1 ≤ a.toNat ∨ 0xA0 ≤ b.toNat ↔ _
    omega
  rw [hshort]
  unfold encodeUnit
  simp only
  split
  · next hone => exact iff_of_false (fun h => by simp at h) (by omega)
  split
  · next htwo => exact iff_of_false (fun h => by simp at h) (by omega)
  · next htwo =>
    have hfirst : 0xE0 + (unitOfThree a b c).toNat / 0x1000 = a.toNat := by omega
    have hsecond : 0x80 + (unitOfThree a b c).toNat / 0x40 % 0x40 = b.toNat := by omega
    have hthird : 0x80 + (unitOfThree a b c).toNat % 0x40 = c.toNat := by omega
    rw [hfirst, hsecond, hthird, UInt8.ofNat_toNat, UInt8.ofNat_toNat, UInt8.ofNat_toNat]
    exact iff_of_true rfl (by omega)

/-- Two runs of bytes that are no longer than two others make the same bytes as
these exactly if each run is the same. -/
theorem append_eq_append_iff_of_le (group : List UInt8) {rest written later : List UInt8}
    (hgroup : written.length ≤ group.length) (hrest : later.length ≤ rest.length) :
    written ++ later = group ++ rest ↔ written = group ∧ later = rest := by
  constructor
  · intro h
    have hlength := congrArg List.length h
    rw [List.length_append, List.length_append] at hlength
    exact List.append_inj h (by omega)
  · rintro ⟨rfl, rfl⟩
    rfl

/-- Writing units never takes more bytes than their groups have. -/
theorem Groups.length_le {bytes : List UInt8} {units : List UInt16} (h : Groups bytes units) :
    (units.flatMap encodeUnit).length ≤ bytes.length := by
  induction h with
  | nil => exact Nat.le_refl 0
  | one ha _ ih =>
    rw [List.flatMap_cons, encodeUnit_of_lead_eq_one ha]
    exact Nat.succ_le_succ ih
  | @two a b _ _ _ _ _ ih =>
    have hgroup := length_encodeUnit_unitOfTwo a b
    simp only [List.flatMap_cons, List.length_append, List.length_cons]
    omega
  | @three a b c _ _ _ _ _ _ ih =>
    have hgroup := length_encodeUnit_le (unitOfThree a b c)
    simp only [List.flatMap_cons, List.length_append, List.length_cons]
    omega

/-- Units are written as their groups exactly if each group is the shortest. -/
theorem Groups.flatMap_encodeUnit_eq_iff {bytes : List UInt8} {units : List UInt16}
    (h : Groups bytes units) :
    units.flatMap encodeUnit = bytes ↔ isShortest bytes = true := by
  induction h with
  | nil => exact iff_of_true rfl rfl
  | @one a rest units ha hrest ih =>
    unfold isShortest
    simp only [ha]
    rw [List.flatMap_cons, encodeUnit_of_lead_eq_one ha, ← ih]
    exact List.append_right_inj [a]
  | @two a b rest units ha hb hrest ih =>
    unfold isShortest
    simp only [ha]
    rw [List.flatMap_cons, Bool.and_eq_true, ← ih, ← encodeUnit_unitOfTwo_iff ha hb]
    exact append_eq_append_iff_of_le [a, b] (length_encodeUnit_unitOfTwo a b) hrest.length_le
  | @three a b c rest units ha hb hc hrest ih =>
    unfold isShortest
    simp only [ha]
    rw [List.flatMap_cons, Bool.and_eq_true, ← ih, ← encodeUnit_unitOfThree_iff ha hb hc]
    exact append_eq_append_iff_of_le [a, b, c] (length_encodeUnit_le _) hrest.length_le

/-- A text is written as the bytes it was read from exactly if each of their
groups is the shortest one of its unit. -/
theorem encode_eq_iff_isShortest {bytes : List UInt8} {text : String}
    (h : decode bytes = .ok text) : encode text = bytes ↔ isShortest bytes = true :=
  (groups_of_decode h).flatMap_encodeUnit_eq_iff

/-- A zero and a euro sign are read from the shortest groups of two and three
bytes and written as these. -/
theorem encode_eq_iff_isShortest_nulAndEuro :
    decode [0xC0, 0x80, 0xE2, 0x82, 0xAC] = .ok "\x00€" ∧
      isShortest [0xC0, 0x80, 0xE2, 0x82, 0xAC] = true ∧
      encode "\x00€" = [0xC0, 0x80, 0xE2, 0x82, 0xAC] := by
  have hread : decode [0xC0, 0x80, 0xE2, 0x82, 0xAC] = .ok "\x00€" := by rfl
  have hshortest : isShortest [0xC0, 0x80, 0xE2, 0x82, 0xAC] = true := by decide
  exact ⟨hread, hshortest, (encode_eq_iff_isShortest hread).mpr hshortest⟩

/-- Not every text is written as it was read: a letter that is read from two bytes
is written as one. -/
theorem not_forall_encode_eq :
    ¬ ∀ bytes text, decode bytes = .ok text → encode text = bytes := by
  intro h
  have hletter : encode "A" = [0xC1, 0x81] := h [0xC1, 0x81] "A" (by rfl)
  exact absurd hletter (by decide)

end JvmClass.ModifiedUtf8
