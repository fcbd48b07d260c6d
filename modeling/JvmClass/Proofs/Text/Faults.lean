import JvmClass.Proofs.Text.ShortestForm
import Mathlib.Data.List.Forall2
import Mathlib.Data.Nat.Find

/-!
# The first fault of a text

Bytes are a text exactly if they are groups, one behind the other, in whose units
every high surrogate stands right before a low one and no other surrogate occurs.
All other bytes have a first fault. If they are no groups, it is the place where
no further group stands, whatever the units before it are. If they are, it is the
first surrogate without its other half.
-/

namespace JvmClass.ModifiedUtf8

/-! ## Groups -/

/-- Whether a byte may follow the first one of a group. -/
def IsLater (b : UInt8) : Prop := 0x80 ≤ b.toNat ∧ b.toNat ≤ 0xBF

/-- Whether groups with this first byte have so many bytes. -/
inductive Leads : UInt8 → Nat → Prop
  /-- ASCII without zero. -/
  | one {a : UInt8} (ha : 0x01 ≤ a.toNat ∧ a.toNat ≤ 0x7F) : Leads a 1
  /-- The first of two bytes. -/
  | two {a : UInt8} (ha : 0xC0 ≤ a.toNat ∧ a.toNat ≤ 0xDF) : Leads a 2
  /-- The first of three bytes. -/
  | three {a : UInt8} (ha : 0xE0 ≤ a.toNat ∧ a.toNat ≤ 0xEF) : Leads a 3

/-- The groups of bytes, each with the unit that it stands for. -/
inductive IsGroup : List UInt8 → UInt16 → Prop
  /-- A group of one byte. -/
  | one {a : UInt8} {unit : UInt16} (ha : Leads a 1) (hunit : unit.toNat = a.toNat) :
      IsGroup [a] unit
  /-- A group of two bytes. -/
  | two {a b : UInt8} {unit : UInt16} (ha : Leads a 2) (hb : IsLater b)
      (hunit : unit.toNat = (a.toNat - 0xC0) * 0x40 + (b.toNat - 0x80)) : IsGroup [a, b] unit
  /-- A group of three bytes. -/
  | three {a b c : UInt8} {unit : UInt16} (ha : Leads a 3) (hb : IsLater b) (hc : IsLater c)
      (hunit : unit.toNat =
        (a.toNat - 0xE0) * 0x1000 + (b.toNat - 0x80) * 0x40 + (c.toNat - 0x80)) :
      IsGroup [a, b, c] unit

/-- Whether there are bytes left that do not start with a group. -/
def IsBroken (rest : List UInt8) : Prop :=
  rest ≠ [] ∧ ∀ group later unit, rest = group ++ later → ¬IsGroup group unit

/-- Whether the bytes start like a group that runs past their end. -/
def IsCut (rest : List UInt8) : Prop := ∃ a ∈ rest.head?, ∃ n, Leads a n ∧ rest.length < n

/-! ## Surrogates -/

/-- Whether the unit at a place is a surrogate without its other half: a high one
that no low one follows, or a low one that follows no high one. -/
def IsUnpaired (units : List UInt16) (i : Nat) : Prop :=
  ∃ unit, units[i]? = some unit ∧
    (isHighSurrogate unit = true ∧ (∀ low, units[i + 1]? = some low → isLowSurrogate low = false) ∨
      isLowSurrogate unit = true ∧
        ∀ j high, j + 1 = i → units[j]? = some high → isHighSurrogate high = false)

/-! ## The outcome -/

/-- What bytes are like from which a text is read, or in which a fault is found. -/
def Explains (bytes : List UInt8) : Except Fault String → Prop
  | .ok text => ∃ groups, groups.flatten = bytes ∧ List.Forall₂ IsGroup groups (utf16 text) ∧
      ∀ i, ¬IsUnpaired (utf16 text) i
  | .error .partialCharacter => ∃ groups units rest, groups.flatten ++ rest = bytes ∧
      List.Forall₂ IsGroup groups units ∧ IsBroken rest ∧ IsCut rest
  | .error (.aroundByte offset) => ∃ groups units rest, groups.flatten ++ rest = bytes ∧
      List.Forall₂ IsGroup groups units ∧ IsBroken rest ∧ ¬IsCut rest ∧
      groups.flatten.length = offset
  | .error (.unpairedSurrogate offset) => ∃ groups units i, groups.flatten = bytes ∧
      List.Forall₂ IsGroup groups units ∧ IsUnpaired units i ∧ (∀ j < i, ¬IsUnpaired units j) ∧
      (groups.take i).flatten.length = offset

/-! ## Splitting -/

/-- The first byte of a group tells its form. -/
theorem lead_of_leads {a : UInt8} {n : Nat} (h : Leads a n) :
    n = 1 ∧ lead a = .one ∨ n = 2 ∧ lead a = .two ∨ n = 3 ∧ lead a = .three := by
  cases h with
  | one ha => exact .inl ⟨rfl, lead_eq_one ha.1 ha.2⟩
  | two ha => exact .inr (.inl ⟨rfl, lead_eq_two ha.1 ha.2⟩)
  | three ha => exact .inr (.inr ⟨rfl, lead_eq_three ha.1 ha.2⟩)

/-- A byte that may follow is taken as such. -/
theorem isContinuation_iff {b : UInt8} : isContinuation b = true ↔ IsLater b := by
  unfold isContinuation IsLater
  simp [UInt8.le_iff_toNat_le]

/-- A group at the front is split off. -/
theorem splitUnits_group {group : List UInt8} {unit : UInt16} (h : IsGroup group unit)
    (offset : Nat) (done : List (Nat × UInt16)) (rest : List UInt8) :
    splitUnits offset done (group ++ rest) =
      splitUnits (offset + group.length) ((offset, unit) :: done) rest := by
  cases h with
  | @one a _ ha hunit =>
    have hlead : lead a = .one := by simpa using lead_of_leads ha
    have hunit : unit = a.toUInt16 := UInt16.toNat.inj (by rw [hunit, UInt8.toNat_toUInt16])
    rw [List.singleton_append, splitUnits.eq_def]
    simp only [hlead, hunit]
    rfl
  | @two a b _ ha hb hunit =>
    have hlead : lead a = .two := by simpa using lead_of_leads ha
    have hunit : unit = unitOfTwo a b :=
      UInt16.toNat.inj (by rw [hunit, toNat_unitOfTwo hlead (isContinuation_iff.mpr hb)])
    show splitUnits offset done (a :: b :: rest) = _
    rw [splitUnits.eq_def]
    simp only [hlead, isContinuation_iff.mpr hb, if_true, hunit]
    rfl
  | @three a b c _ ha hb hc hunit =>
    have hlead : lead a = .three := by simpa using lead_of_leads ha
    have hunit : unit = unitOfThree a b c := UInt16.toNat.inj (by
      rw [hunit, toNat_unitOfThree hlead (isContinuation_iff.mpr hb) (isContinuation_iff.mpr hc)])
    show splitUnits offset done (a :: b :: c :: rest) = _
    rw [splitUnits.eq_def]
    simp only [hlead, isContinuation_iff.mpr hb, isContinuation_iff.mpr hc, Bool.and_self,
      if_true, hunit]
    rfl

/-- A group that runs past the end of the bytes is reported as cut. -/
theorem splitUnits_of_isCut {rest : List UInt8} (h : IsCut rest) (offset : Nat)
    (done : List (Nat × UInt16)) : splitUnits offset done rest = .error .partialCharacter := by
  obtain ⟨a, hfirst, n, hleads, hshort⟩ := h
  obtain ⟨later, rfl⟩ := List.head?_eq_some_iff.mp hfirst
  rw [splitUnits.eq_def]
  rw [List.length_cons] at hshort
  obtain ⟨rfl, hlead⟩ | ⟨rfl, hlead⟩ | ⟨rfl, hlead⟩ := lead_of_leads hleads
  · omega
  · cases later with
    | nil => simp only [hlead]
    | cons b later =>
      rw [List.length_cons] at hshort
      omega
  · rcases later with _ | ⟨b, _ | ⟨c, later⟩⟩
    · simp only [hlead]
    · simp only [hlead]
    · rw [List.length_cons, List.length_cons] at hshort
      omega

/-- Where no group stands and none is cut, the place is reported. -/
theorem splitUnits_of_isBroken {rest : List UInt8} (h : IsBroken rest) (hcut : ¬IsCut rest)
    (offset : Nat) (done : List (Nat × UInt16)) :
    splitUnits offset done rest = .error (.aroundByte offset) := by
  obtain ⟨hne, hgroup⟩ := h
  obtain ⟨a, later, rfl⟩ := List.exists_cons_of_ne_nil hne
  rw [splitUnits.eq_def]
  cases hlead : lead a with
  | one =>
    exact absurd (.one (.one ((bounds_of_lead a).1 hlead)) rfl) (hgroup [a] later a.toUInt16 rfl)
  | two =>
    have hleads : Leads a 2 := .two ((bounds_of_lead a).2.1 hlead)
    simp only [hlead]
    cases later with
    | nil => exact absurd ⟨a, rfl, 2, hleads, Nat.le_refl 2⟩ hcut
    | cons b later =>
      have hb : isContinuation b ≠ true := fun hb =>
        hgroup [a, b] later (unitOfTwo a b) rfl
          (.two hleads (isContinuation_iff.mp hb) (toNat_unitOfTwo hlead hb))
      simp only [hb]
      rfl
  | three =>
    have hleads : Leads a 3 := .three ((bounds_of_lead a).2.2 hlead)
    simp only [hlead]
    rcases later with _ | ⟨b, _ | ⟨c, later⟩⟩
    · exact absurd ⟨a, rfl, 3, hleads, Nat.lt_of_sub_eq_succ rfl⟩ hcut
    · exact absurd ⟨a, rfl, 3, hleads, Nat.le_refl 3⟩ hcut
    · have hbc : (isContinuation b && isContinuation c) ≠ true := by
        intro hbc
        obtain ⟨hb, hc⟩ := Bool.and_eq_true_iff.mp hbc
        exact hgroup [a, b, c] later (unitOfThree a b c) rfl
          (.three hleads (isContinuation_iff.mp hb) (isContinuation_iff.mp hc)
            (toNat_unitOfThree hlead hb hc))
      simp only [hbc]
      rfl
  | invalid => simp only [hlead]

/-- The units of groups with the offsets of the groups, of which the first lies at
`offset`. -/
def placed (offset : Nat) : List (List UInt8) → List UInt16 → List (Nat × UInt16)
  | group :: groups, unit :: units => (offset, unit) :: placed (offset + group.length) groups units
  | _, _ => []

/-- Groups are split off one after the other. -/
theorem splitUnits_groups {groups : List (List UInt8)} {units : List UInt16}
    (h : List.Forall₂ IsGroup groups units) (offset : Nat) (done : List (Nat × UInt16))
    (rest : List UInt8) :
    splitUnits offset done (groups.flatten ++ rest) =
      splitUnits (offset + groups.flatten.length) ((placed offset groups units).reverse ++ done)
        rest := by
  induction h generalizing offset done with
  | nil => rfl
  | @cons group unit groups units hgroup _ ih =>
    rw [List.flatten_cons, List.append_assoc, splitUnits_group hgroup, ih, placed]
    simp [Nat.add_assoc]

/-- Groups that are all there is are split into their units. -/
theorem splitUnits_flatten {groups : List (List UInt8)} {units : List UInt16}
    (h : List.Forall₂ IsGroup groups units) :
    splitUnits 0 [] groups.flatten = .ok (placed 0 groups units) := by
  have hsplit := splitUnits_groups h 0 [] []
  rw [List.append_nil] at hsplit
  rw [hsplit]
  simp [splitUnits]

/-- Each unit lies at the offset of its group. -/
theorem getElem?_placed {groups : List (List UInt8)} {units : List UInt16}
    (h : List.Forall₂ IsGroup groups units) (offset i : Nat) :
    (placed offset groups units)[i]? =
      units[i]?.map fun unit => (offset + (groups.take i).flatten.length, unit) := by
  induction h generalizing offset i with
  | nil => rfl
  | @cons group unit groups units hgroup _ ih =>
    cases i with
    | zero => rfl
    | succ i =>
      rw [placed, List.getElem?_cons_succ, ih]
      simp [Nat.add_assoc]

/-- The units of groups are kept in order. -/
theorem map_snd_placed {groups : List (List UInt8)} {units : List UInt16}
    (h : List.Forall₂ IsGroup groups units) (offset : Nat) :
    (placed offset groups units).map Prod.snd = units := by
  induction h generalizing offset with
  | nil => rfl
  | cons _ _ ih => rw [placed, List.map_cons, ih]

/-- All bytes start with groups, behind which nothing is left or no group stands. -/
theorem exists_groups (bytes : List UInt8) :
    ∃ groups units rest, groups.flatten ++ rest = bytes ∧ List.Forall₂ IsGroup groups units ∧
      (rest = [] ∨ IsBroken rest) := by
  by_cases hnil : bytes = []
  · exact ⟨[], [], [], hnil.symm, .nil, .inl rfl⟩
  by_cases hbroken : IsBroken bytes
  · exact ⟨[], [], bytes, rfl, .nil, .inr hbroken⟩
  obtain ⟨group, later, unit, rfl, hgroup⟩ :
      ∃ group later unit, bytes = group ++ later ∧ IsGroup group unit := by
    simpa [IsBroken, hnil] using hbroken
  have hshorter : later.length < (group ++ later).length := by
    cases hgroup <;> simp only [List.cons_append, List.nil_append, List.length_cons] <;> omega
  obtain ⟨groups, units, rest, rfl, hgroups, hrest⟩ := exists_groups later
  exact ⟨group :: groups, unit :: units, rest, by simp, .cons hgroup hgroups, hrest⟩
termination_by bytes.length

/-! ## Pairing -/

/-- No unit is a high and a low surrogate. -/
theorem isLowSurrogate_of_isHighSurrogate {unit : UInt16} (h : isHighSurrogate unit = true) :
    isLowSurrogate unit = false := by
  unfold isHighSurrogate at h
  unfold isLowSurrogate
  simp [UInt16.le_iff_toNat_le] at h ⊢
  omega

/-- A unit does not matter for those behind it, except that a high surrogate pairs
the next one. -/
theorem isUnpaired_cons {unit : UInt16} {units : List UInt16} {i : Nat}
    (h : 0 < i ∨ isHighSurrogate unit = false) :
    IsUnpaired (unit :: units) (i + 1) ↔ IsUnpaired units i := by
  have hbefore : (∀ j high, j + 1 = i + 1 → (unit :: units)[j]? = some high →
      isHighSurrogate high = false) ↔
      ∀ j high, j + 1 = i → units[j]? = some high → isHighSurrogate high = false := by
    constructor
    · intro hall j high hj hhigh
      exact hall (j + 1) high (by omega) hhigh
    · intro hall j high hj hhigh
      cases j with
      | zero =>
        obtain rfl : unit = high := by simpa using hhigh
        exact h.resolve_left (by omega)
      | succ j => exact hall j high (by omega) hhigh
  unfold IsUnpaired
  simp only [List.getElem?_cons_succ, hbefore]

/-- The halves of a pair are paired. -/
theorem not_isUnpaired_pair {high low : UInt16} (hhigh : isHighSurrogate high = true)
    (hlow : isLowSurrogate low = true) (units : List UInt16) :
    ¬IsUnpaired (high :: low :: units) 0 ∧ ¬IsUnpaired (high :: low :: units) 1 := by
  have hnot := isLowSurrogate_of_isHighSurrogate hhigh
  constructor
  · rintro ⟨unit, hunit, ⟨-, hnext⟩ | ⟨hfirst, -⟩⟩
    · rw [hnext low rfl] at hlow
      cases hlow
    · cases hunit
      rw [hnot] at hfirst
      cases hfirst
  · rintro ⟨unit, hunit, ⟨hsecond, -⟩ | ⟨-, hbefore⟩⟩
    · cases hunit
      rw [isLowSurrogate_of_isHighSurrogate hsecond] at hlow
      cases hlow
    · rw [hbefore 0 high rfl rfl] at hhigh
      cases hhigh

/-- Behind a pair, units are paired with each other. -/
theorem isUnpaired_behind_pair {high low : UInt16} (hlow : isLowSurrogate low = true)
    (units : List UInt16) (i : Nat) :
    IsUnpaired (high :: low :: units) (i + 2) ↔ IsUnpaired units i := by
  have hnot : isHighSurrogate low = false := by
    by_contra hhigh
    rw [isLowSurrogate_of_isHighSurrogate (Bool.not_eq_false _ ▸ hhigh)] at hlow
    cases hlow
  rw [isUnpaired_cons (.inl (Nat.succ_pos i)), isUnpaired_cons (.inr hnot)]

/-- A high surrogate is unpaired if no low one follows it. -/
theorem isUnpaired_of_follower {high next : UInt16} (hhigh : isHighSurrogate high = true)
    (hnext : ¬isLowSurrogate next = true) (units : List UInt16) :
    IsUnpaired (high :: next :: units) 0 := by
  refine ⟨high, rfl, .inl ⟨hhigh, fun low hlow => ?_⟩⟩
  cases hlow
  exact Bool.eq_false_iff.mpr hnext

/-- A high surrogate is unpaired at the end. -/
theorem isUnpaired_alone {high : UInt16} (hhigh : isHighSurrogate high = true) :
    IsUnpaired [high] 0 :=
  ⟨high, rfl, .inl ⟨hhigh, fun _ hlow => by cases hlow⟩⟩

/-- A low surrogate is unpaired at the start. -/
theorem isUnpaired_first {low : UInt16} (hlow : isLowSurrogate low = true)
    (units : List UInt16) : IsUnpaired (low :: units) 0 :=
  ⟨low, rfl, .inr ⟨hlow, fun j _ hj => by omega⟩⟩

/-- Units without an unpaired surrogate are joined to a text. -/
theorem exists_joinUnits {all : List (Nat × UInt16)}
    (h : ∀ i, ¬IsUnpaired (all.map Prod.snd) i) (text : String) :
    ∃ joined, joinUnits text all = .ok joined := by
  fun_induction joinUnits text all with
  | case1 text => exact ⟨text, rfl⟩
  | case2 text offset high hhigh other low rest hlow ih =>
    exact ih fun i hi => h (i + 2) ((isUnpaired_behind_pair hlow _ i).mpr hi)
  | case3 text offset high hhigh other next rest hnext =>
    exact absurd (isUnpaired_of_follower hhigh hnext _) (h 0)
  | case4 text offset high hhigh => exact absurd (isUnpaired_alone hhigh) (h 0)
  | case5 text offset low rest hhigh hlow => exact absurd (isUnpaired_first hlow _) (h 0)
  | case6 text offset unit rest hhigh hlow ih =>
    exact ih fun i hi =>
      h (i + 1) ((isUnpaired_cons (.inr (Bool.eq_false_iff.mpr hhigh))).mpr hi)

/-- The first unpaired surrogate is reported. -/
theorem joinUnits_eq_error {all : List (Nat × UInt16)} {i offset : Nat} {unit : UInt16}
    (hfirst : IsUnpaired (all.map Prod.snd) i) (hbefore : ∀ j < i, ¬IsUnpaired (all.map Prod.snd) j)
    (hplace : all[i]? = some (offset, unit)) (text : String) :
    joinUnits text all = .error (.unpairedSurrogate offset) := by
  fun_induction joinUnits text all generalizing i with
  | case1 text => cases hplace
  | case2 text start high hhigh other low rest hlow ih =>
    obtain ⟨hzero, hone⟩ := not_isUnpaired_pair hhigh hlow (rest.map Prod.snd)
    rcases i with _ | _ | i
    · exact absurd hfirst hzero
    · exact absurd hfirst hone
    · exact ih ((isUnpaired_behind_pair hlow _ i).mp hfirst)
        (fun j hj hj' => hbefore (j + 2) (by omega) ((isUnpaired_behind_pair hlow _ j).mpr hj'))
        hplace
  | case3 text start high hhigh other next rest hnext =>
    have hunpaired := isUnpaired_of_follower hhigh hnext (rest.map Prod.snd)
    cases i with
    | zero =>
      cases hplace
      rfl
    | succ i => exact absurd hunpaired (hbefore 0 (Nat.succ_pos i))
  | case4 text start high hhigh =>
    cases i with
    | zero =>
      cases hplace
      rfl
    | succ i => cases hplace
  | case5 text start low rest hhigh hlow =>
    cases i with
    | zero =>
      cases hplace
      rfl
    | succ i => exact absurd (isUnpaired_first hlow _) (hbefore 0 (Nat.succ_pos i))
  | case6 text start other rest hhigh hlow ih =>
    have hhigh := Bool.eq_false_iff.mpr hhigh
    cases i with
    | zero =>
      obtain ⟨found, hfound, hpair⟩ := hfirst
      cases hfound
      obtain ⟨h, -⟩ | ⟨h, -⟩ := hpair
      · rw [hhigh] at h
        cases h
      · exact absurd h hlow
    | succ i =>
      exact ih ((isUnpaired_cons (.inr hhigh)).mp hfirst)
        (fun j hj hj' => hbefore (j + 1) (by omega) ((isUnpaired_cons (.inr hhigh)).mpr hj'))
        hplace

/-! ## Decoding -/

/-- A text is told by its units. -/
theorem utf16_injective {text other : String} (h : utf16 text = utf16 other) : text = other := by
  have hencoded : encode text = encode other := congrArg (List.flatMap encodeUnit) h
  have hread := decode_encode text
  rw [hencoded, decode_encode] at hread
  cases hread
  rfl

/-- Groups with paired units are a text, which has these units. -/
theorem exists_decode {groups : List (List UInt8)} {units : List UInt16}
    (hgroups : List.Forall₂ IsGroup groups units) (hpaired : ∀ i, ¬IsUnpaired units i) :
    ∃ text, decode groups.flatten = .ok text ∧ utf16 text = units := by
  have hunits := map_snd_placed hgroups 0
  obtain ⟨text, htext⟩ := exists_joinUnits (hunits.symm ▸ hpaired) ""
  refine ⟨text, ?_, ?_⟩
  · rw [decode_eq_decodeUnits, decodeUnits, splitUnits_flatten hgroups]
    exact htext
  · obtain ⟨chars, hchars, hsame⟩ := units_of_joinUnits htext
    rw [hunits] at hsame
    rw [hsame, utf16, hchars]
    rfl

/-- Bytes that explain an outcome have it. -/
theorem decode_of_explains {bytes : List UInt8} {outcome : Except Fault String}
    (h : Explains bytes outcome) : decode bytes = outcome := by
  match outcome with
  | .ok text =>
    obtain ⟨groups, rfl, hgroups, hpaired⟩ := h
    obtain ⟨found, hfound, hunits⟩ := exists_decode hgroups hpaired
    rw [hfound, utf16_injective hunits]
  | .error .partialCharacter =>
    obtain ⟨groups, units, rest, rfl, hgroups, -, hcut⟩ := h
    rw [decode_eq_decodeUnits, decodeUnits, splitUnits_groups hgroups, splitUnits_of_isCut hcut]
    rfl
  | .error (.aroundByte offset) =>
    obtain ⟨groups, units, rest, rfl, hgroups, hbroken, hcut, rfl⟩ := h
    rw [decode_eq_decodeUnits, decodeUnits, splitUnits_groups hgroups,
      splitUnits_of_isBroken hbroken hcut, Nat.zero_add]
    rfl
  | .error (.unpairedSurrogate offset) =>
    obtain ⟨groups, units, i, rfl, hgroups, hfirst, hbefore, rfl⟩ := h
    have hunits := map_snd_placed hgroups 0
    have ⟨unit, hunit, _⟩ := hfirst
    have hplace := getElem?_placed hgroups 0 i
    rw [hunit, Option.map_some, Nat.zero_add] at hplace
    rw [decode_eq_decodeUnits, decodeUnits, splitUnits_flatten hgroups]
    exact joinUnits_eq_error (hunits.symm ▸ hfirst) (hunits.symm ▸ hbefore) hplace ""

/-- All bytes explain an outcome. -/
theorem exists_explains (bytes : List UInt8) : ∃ outcome, Explains bytes outcome := by
  obtain ⟨groups, units, rest, rfl, hgroups, hrest⟩ := exists_groups bytes
  obtain rfl | hbroken := hrest
  · rw [List.append_nil]
    by_cases hpaired : ∀ i, ¬IsUnpaired units i
    · obtain ⟨text, -, rfl⟩ := exists_decode hgroups hpaired
      exact ⟨.ok text, groups, rfl, hgroups, hpaired⟩
    · have hsome : ∃ i, IsUnpaired units i := by simpa using hpaired
      classical
      exact ⟨.error (.unpairedSurrogate _), groups, units, Nat.find hsome, rfl, hgroups,
        Nat.find_spec hsome, fun j hj => Nat.find_min hsome hj, rfl⟩
  · by_cases hcut : IsCut rest
    · exact ⟨.error .partialCharacter, groups, units, rest, rfl, hgroups, hbroken, hcut⟩
    · exact ⟨.error (.aroundByte _), groups, units, rest, rfl, hgroups, hbroken, hcut, rfl⟩

/-- Decoding ends in a certain way exactly if the bytes explain it. They are a text
exactly if they are groups whose units are paired, and every pair is joined to a
character. -/
theorem decode_eq_iff_explains (bytes : List UInt8) :
    (∀ outcome, decode bytes = outcome ↔ Explains bytes outcome) ∧
      ((∃ text, decode bytes = .ok text) ↔ ∃ groups units, groups.flatten = bytes ∧
        List.Forall₂ IsGroup groups units ∧ ∀ i, ¬IsUnpaired units i) ∧
      ∀ high low, isHighSurrogate high = true → isLowSurrogate low = true →
        (pairedChar high low).toNat =
          0x10000 + (high.toNat - 0xD800) * 0x400 + (low.toNat - 0xDC00) := by
  have hexplained : Explains bytes (decode bytes) := by
    obtain ⟨outcome, houtcome⟩ := exists_explains bytes
    rw [decode_of_explains houtcome]
    exact houtcome
  refine ⟨fun outcome => ⟨fun h => h ▸ hexplained, decode_of_explains⟩, ⟨?_, ?_⟩,
    fun high low => toNat_pairedChar⟩
  · rintro ⟨text, htext⟩
    rw [htext] at hexplained
    obtain ⟨groups, hbytes, hgroups, hpaired⟩ := hexplained
    exact ⟨groups, utf16 text, hbytes, hgroups, hpaired⟩
  · rintro ⟨groups, units, rfl, hgroups, hpaired⟩
    obtain ⟨text, htext, -⟩ := exists_decode hgroups hpaired
    exact ⟨text, htext⟩

/-- A group that is cut is reported even behind a surrogate without its other half,
which is reported only in groups that are complete. The pair of a smiling face is
joined to it. -/
theorem decode_eq_iff_explains_cut :
    (decode [0xED, 0xA0, 0xBD, 0xE2, 0x82] = .error .partialCharacter ∧
      Explains [0xED, 0xA0, 0xBD, 0xE2, 0x82] (.error .partialCharacter)) ∧
      (decode [0x41, 0xED, 0xA0, 0xBD, 0x41] = .error (.unpairedSurrogate 1) ∧
        Explains [0x41, 0xED, 0xA0, 0xBD, 0x41] (.error (.unpairedSurrogate 1))) ∧
      isHighSurrogate 0xD83D = true ∧ isLowSurrogate 0xDE00 = true ∧
        (pairedChar 0xD83D 0xDE00).toNat = 0x1F600 := by
  have hcut : decode [0xED, 0xA0, 0xBD, 0xE2, 0x82] = .error .partialCharacter := by rfl
  have hunpaired : decode [0x41, 0xED, 0xA0, 0xBD, 0x41] = .error (.unpairedSurrogate 1) := by rfl
  have hhigh : isHighSurrogate 0xD83D = true := by decide
  have hlow : isLowSurrogate 0xDE00 = true := by decide
  exact ⟨⟨hcut, ((decode_eq_iff_explains _).1 _).mp hcut⟩,
    ⟨hunpaired, ((decode_eq_iff_explains _).1 _).mp hunpaired⟩,
    hhigh, hlow, (decode_eq_iff_explains []).2.2 _ _ hhigh hlow⟩

end JvmClass.ModifiedUtf8
