import JvmClass.Code.Handler
import JvmClass.Code.LineNumbers
import JvmClass.Code.LocalVariables
import JvmClass.Code.StackMap
import JvmClass.Proofs.Binary.Codec

/-!
# The binary form of the tables of a body

The entries of the tables keep both laws, and so do the types of a stack map.
The frames of a stack map have several forms, some of which hold little: every
frame that is read is written back, and a frame is read back if its form can
hold it.
-/

namespace JvmClass

open Codec

/-! ## Table entries -/

/-- Handlers keep both laws. -/
theorem Handler.exact : Handler.codec.Exact :=
  ((exact_u16.pair exact_u16).pair (exact_u16.pair exact_u16)).convert (fun _ => rfl) fun _ => rfl

/-- Line numbers keep both laws. -/
theorem LineNumber.exact : LineNumber.codec.Exact :=
  (exact_u16.pair exact_u16).convert (fun _ => rfl) fun _ => rfl

/-- Local variables keep both laws. -/
theorem LocalVariable.exact : LocalVariable.codec.Exact :=
  ((exact_u16.pair exact_u16).pair (exact_u16.pair (exact_u16.pair exact_u16))).convert
    (fun _ => rfl) fun _ => rfl

/-! ## Verification types -/

namespace VerificationType

/-- Every type is read back. -/
theorem readsBack (type : VerificationType) : codec.ReadsBack type := by
  intro bytes hbytes rest
  cases type with
  | object i =>
    cases hbytes
    have hindex := exact_u16.readsBack i _ rfl rest
    exact Decoder.bind_eq_ok_iff.mpr ⟨7, _, rfl, Decoder.map_eq_ok_iff.mpr ⟨i, hindex, rfl⟩⟩
  | uninitialized p =>
    cases hbytes
    have hposition := exact_u16.readsBack p _ rfl rest
    exact Decoder.bind_eq_ok_iff.mpr ⟨8, _, rfl, Decoder.map_eq_ok_iff.mpr ⟨p, hposition, rfl⟩⟩
  | _ =>
    cases hbytes
    rfl

/-- Every type is written back. -/
theorem writesBack : codec.WritesBack := by
  intro bytes type rest h
  obtain ⟨tag, middle, htag, htype⟩ := Decoder.bind_eq_ok_iff.mp h
  obtain ⟨start, hstart, rfl⟩ := exact_u8.writesBack bytes tag middle htag
  cases hstart
  split at htype
  · cases htype
    exact ⟨[0], rfl, rfl⟩
  · cases htype
    exact ⟨[1], rfl, rfl⟩
  · cases htype
    exact ⟨[2], rfl, rfl⟩
  · cases htype
    exact ⟨[3], rfl, rfl⟩
  · cases htype
    exact ⟨[4], rfl, rfl⟩
  · cases htype
    exact ⟨[5], rfl, rfl⟩
  · cases htype
    exact ⟨[6], rfl, rfl⟩
  · obtain ⟨i, hi, rfl⟩ := Decoder.map_eq_ok_iff.mp htype
    obtain ⟨stop, hstop, rfl⟩ := exact_u16.writesBack middle i rest hi
    cases hstop
    exact ⟨7 :: bytesOfU16 i, rfl, rfl⟩
  · obtain ⟨p, hp, rfl⟩ := Decoder.map_eq_ok_iff.mp htype
    obtain ⟨stop, hstop, rfl⟩ := exact_u16.writesBack middle p rest hp
    cases hstop
    exact ⟨8 :: bytesOfU16 p, rfl, rfl⟩
  · exact absurd htype Decoder.throw_ne_ok

/-- Types keep both laws. -/
theorem exact : codec.Exact := ⟨readsBack, writesBack⟩

end VerificationType

/-! ## Frames -/

namespace StackFrame

/-- The form of a frame can hold its contents. -/
def FitsForm : StackFrame → Prop
  | .same delta | .oneOperand delta _ => delta.toNat ≤ 63
  | .chop _ count => 1 ≤ count.toNat ∧ count.toNat ≤ 3
  | .append _ locals => 1 ≤ locals.length ∧ locals.length ≤ 3
  | _ => True

/-- Reads what follows type and distance of a frame. -/
def decodeAt (type : UInt8) (delta : UInt16) : Decoder StackFrame :=
  if type = 247 then .oneOperandExtended delta <$> VerificationType.codec.decode
  else if type ≤ 250 then pure (.chop delta (251 - type))
  else if type = 251 then pure (.sameExtended delta)
  else if type ≤ 254 then
    .append delta <$> Decoder.times VerificationType.codec.decode [] (type - 251).toNat
  else do
    let locals ← (table VerificationType.codec).decode
    let operands ← (table VerificationType.codec).decode
    pure (.full delta locals operands)

/-- Reads what follows the type of a frame. -/
def decodeBehind (type : UInt8) : Decoder StackFrame :=
  if type ≤ 63 then pure (.same type.toUInt16)
  else if type ≤ 127 then .oneOperand (type - 64).toUInt16 <$> VerificationType.codec.decode
  else if type ≤ 246 then throw (.malformed (.frameType type))
  else do
    let delta ← u16.decode
    decodeAt type delta

/-- A frame is its type and what follows it. -/
theorem decode_eq : decode = u8.decode >>= decodeBehind := rfl

/-- The types above 246 are followed by the distance. -/
theorem decode_of_lt {type : UInt8} (htype : 246 < type.toNat) (delta : UInt16)
    (bytes : List UInt8) :
    decode (type :: (bytesOfU16 delta ++ bytes)) = decodeAt type delta bytes := by
  have hdelta := exact_u16.readsBack delta _ rfl bytes
  have hnot : ∀ bound : UInt8, bound.toNat ≤ 246 → ¬ type ≤ bound := fun bound hbound h => by
    have hle := UInt8.le_iff_toNat_le.mp h
    omega
  show decodeBehind type (bytesOfU16 delta ++ bytes) = _
  unfold decodeBehind
  rw [if_neg (hnot 63 (by decide)), if_neg (hnot 127 (by decide)), if_neg (hnot 246 (by decide))]
  show (u16.decode (bytesOfU16 delta ++ bytes) >>= fun read => decodeAt type read.1 read.2) = _
  rw [hdelta]
  rfl

/-- A number of at most 63 fits a byte. -/
theorem toNat_ofNat_of_le {delta : UInt16} (h : delta.toNat ≤ 63) :
    (UInt8.ofNat delta.toNat).toNat = delta.toNat := by
  rw [UInt8.toNat_ofNat']
  omega

/-- The types up to 63 are the distance of a frame without contents. -/
theorem decode_same {delta : UInt16} (h : delta.toNat ≤ 63) (bytes : List UInt8) :
    decode (UInt8.ofNat delta.toNat :: bytes) = .ok (.same delta, bytes) := by
  have htype : (UInt8.ofNat delta.toNat).toNat = delta.toNat := toNat_ofNat_of_le h
  have hdelta : (UInt8.ofNat delta.toNat).toUInt16 = delta :=
    UInt16.toNat.inj ((UInt8.toNat_toUInt16 _).trans htype)
  have hsame : UInt8.ofNat delta.toNat ≤ 63 :=
    UInt8.le_iff_toNat_le.mpr (Nat.le_trans (Nat.le_of_eq htype) h)
  show decodeBehind (UInt8.ofNat delta.toNat) bytes = _
  unfold decodeBehind
  rw [if_pos hsame, hdelta]
  rfl

/-- The types from 64 to 127 are the distance of a frame with one operand, which
follows. -/
theorem decode_oneOperand {delta : UInt16} (h : delta.toNat ≤ 63) (bytes : List UInt8) :
    decode ((64 + UInt8.ofNat delta.toNat) :: bytes) =
      (StackFrame.oneOperand delta <$> VerificationType.codec.decode) bytes := by
  have hnumber := toNat_ofNat_of_le h
  have htype : (64 + UInt8.ofNat delta.toNat).toNat = 64 + delta.toNat := by
    rw [UInt8.toNat_add, hnumber]
    exact Nat.mod_eq_of_lt (by show 64 + delta.toNat < 256; omega)
  have hdelta : (64 + UInt8.ofNat delta.toNat - 64).toUInt16 = delta := by
    rw [UInt8.add_comm, UInt8.add_sub_cancel]
    exact UInt16.toNat.inj ((UInt8.toNat_toUInt16 _).trans hnumber)
  have hsame : ¬ 64 + UInt8.ofNat delta.toNat ≤ 63 := fun h => by
    have hle := UInt8.le_iff_toNat_le.mp h
    rw [htype] at hle
    exact absurd hle (Nat.not_le_of_lt (Nat.lt_add_right _ (by decide)))
  have hone : 64 + UInt8.ofNat delta.toNat ≤ 127 := by
    rw [UInt8.le_iff_toNat_le, htype]
    show 64 + delta.toNat ≤ 127
    omega
  show decodeBehind (64 + UInt8.ofNat delta.toNat) bytes = _
  unfold decodeBehind
  rw [if_neg hsame, if_pos hone, hdelta]

/-- A byte between two bounds at a distance of two is one of three. -/
theorem eq_of_three {b : UInt8} {n : Nat} (hlow : n ≤ b.toNat) (hhigh : b.toNat ≤ n + 2) :
    b = UInt8.ofNat n ∨ b = UInt8.ofNat (n + 1) ∨ b = UInt8.ofNat (n + 2) := by
  have hcases : b.toNat = n ∨ b.toNat = n + 1 ∨ b.toNat = n + 2 := by omega
  have hbyte : ∀ {k : Nat}, b.toNat = k → b = UInt8.ofNat k := fun h => by
    rw [← h, UInt8.ofNat_toNat]
  exact hcases.imp hbyte (Or.imp hbyte hbyte)

/-- A frame whose form can hold it is read back. -/
theorem readsBack {frame : StackFrame} (hfits : frame.FitsForm) : codec.ReadsBack frame := by
  intro bytes hbytes rest
  cases frame with
  | same delta =>
    cases hbytes
    exact decode_same hfits rest
  | oneOperand delta operand =>
    obtain ⟨body, hbody, h⟩ := bind_eq_ok_iff.mp hbytes
    cases h
    have hoperand := VerificationType.readsBack operand body hbody rest
    exact (decode_oneOperand hfits _).trans (Decoder.map_eq_ok_iff.mpr ⟨operand, hoperand, rfl⟩)
  | oneOperandExtended delta operand =>
    obtain ⟨body, hbody, h⟩ := bind_eq_ok_iff.mp hbytes
    cases h
    have hoperand := VerificationType.readsBack operand body hbody rest
    refine (decode_of_lt (by decide) delta (body ++ rest)).trans ?_
    exact Decoder.map_eq_ok_iff.mpr ⟨operand, hoperand, rfl⟩
  | chop delta count =>
    cases hbytes
    have hcount := eq_of_three hfits.1 hfits.2
    rcases hcount with rfl | rfl | rfl <;> exact decode_of_lt (by decide) delta rest
  | sameExtended delta =>
    cases hbytes
    exact decode_of_lt (by decide) delta rest
  | append delta locals =>
    obtain ⟨body, hbody, h⟩ := bind_eq_ok_iff.mp hbytes
    cases h
    have hlocals := times_encodeAll (fun type _ => VerificationType.readsBack type) hbody [] rest
    have hcount : locals.length = 1 ∨ locals.length = 2 ∨ locals.length = 3 := by
      obtain ⟨hpos, hle⟩ := hfits
      omega
    rcases hcount with hn | hn | hn <;> rw [hn] at hlocals ⊢ <;>
      exact (decode_of_lt (by decide) delta (body ++ rest)).trans
        (Decoder.map_eq_ok_iff.mpr ⟨locals, hlocals, rfl⟩)
  | full delta locals operands =>
    obtain ⟨start, hstart, h⟩ := bind_eq_ok_iff.mp hbytes
    obtain ⟨stop, hstop, h⟩ := bind_eq_ok_iff.mp h
    cases h
    have hlocals := VerificationType.exact.table.readsBack locals start hstart (stop ++ rest)
    have hoperands := VerificationType.exact.table.readsBack operands stop hstop rest
    rw [List.append_assoc]
    refine (decode_of_lt (by decide) delta (start ++ (stop ++ rest))).trans ?_
    refine Decoder.bind_eq_ok_iff.mpr ⟨locals, _, hlocals, ?_⟩
    exact Decoder.bind_eq_ok_iff.mpr ⟨operands, _, hoperands, rfl⟩

/-- A frame that is read behind type and distance fits its form, and is written
as both of them and the bytes that it was read from. -/
theorem encode_of_decodeAt {type : UInt8} (htype : 246 < type.toNat) {delta : UInt16}
    {bytes rest : List UInt8} {frame : StackFrame}
    (h : decodeAt type delta bytes = .ok (frame, rest)) :
    frame.FitsForm ∧ ∃ written, frame.encode = .ok (type :: (bytesOfU16 delta ++ written)) ∧
      bytes = written ++ rest := by
  unfold decodeAt at h
  split at h
  · next hextended =>
    obtain ⟨operand, hoperand, rfl⟩ := Decoder.map_eq_ok_iff.mp h
    obtain ⟨body, hbody, rfl⟩ := VerificationType.writesBack bytes operand rest hoperand
    refine ⟨trivial, body, bind_eq_ok_iff.mpr ⟨body, hbody, ?_⟩, rfl⟩
    rw [hextended]
    rfl
  next hextended =>
  split at h
  · next hchop =>
    cases h
    have hle : type.toNat ≤ 250 := UInt8.le_iff_toNat_le.mp hchop
    have hne : type.toNat ≠ 247 := fun hn => hextended (UInt8.toNat.inj hn)
    have hlow : 248 ≤ type.toNat := by omega
    have htypes := eq_of_three hlow hle
    rcases htypes with rfl | rfl | rfl <;> exact ⟨⟨by decide, by decide⟩, [], rfl, rfl⟩
  next hchop =>
  split at h
  · next hsame =>
    cases h
    rw [hsame]
    exact ⟨trivial, [], rfl, rfl⟩
  next hsame =>
  split at h
  · next happend =>
    obtain ⟨locals, hlocals, rfl⟩ := Decoder.map_eq_ok_iff.mp h
    obtain ⟨found, body, hfound, hlength, hbody, rfl⟩ :=
      encodeAll_of_times VerificationType.writesBack hlocals
    have hfound : locals = found := hfound
    subst hfound
    have hle : type.toNat ≤ 254 := UInt8.le_iff_toNat_le.mp happend
    have hlt : ¬ type.toNat ≤ 250 := fun hle => hchop (UInt8.le_iff_toNat_le.mpr hle)
    have hne : type.toNat ≠ 251 := fun hn => hsame (UInt8.toNat.inj hn)
    have hlow : 252 ≤ type.toNat := by omega
    have htypes := eq_of_three hlow hle
    have hcount : 1 ≤ locals.length ∧ locals.length ≤ 3 := by
      rw [hlength]
      rcases htypes with rfl | rfl | rfl <;> exact ⟨by decide, by decide⟩
    refine ⟨hcount, body, bind_eq_ok_iff.mpr ⟨body, hbody, ?_⟩, rfl⟩
    rw [hlength]
    rcases htypes with rfl | rfl | rfl <;> rfl
  · next happend =>
    obtain ⟨locals, middle, hlocals, h⟩ := Decoder.bind_eq_ok_iff.mp h
    obtain ⟨operands, last, hoperands, h⟩ := Decoder.bind_eq_ok_iff.mp h
    cases h
    obtain ⟨start, hstart, rfl⟩ :=
      VerificationType.exact.table.writesBack bytes locals middle hlocals
    obtain ⟨stop, hstop, rfl⟩ :=
      VerificationType.exact.table.writesBack middle operands rest hoperands
    have hlt : ¬ type.toNat ≤ 254 := fun hle => happend (UInt8.le_iff_toNat_le.mpr hle)
    have hbound := type.toNat_lt
    have htype : type = 255 := UInt8.toNat.inj (by show type.toNat = 255; omega)
    refine ⟨trivial, start ++ stop, ?_, (List.append_assoc ..).symm⟩
    refine bind_eq_ok_iff.mpr ⟨start, hstart, bind_eq_ok_iff.mpr ⟨stop, hstop, ?_⟩⟩
    rw [htype]
    show Except.ok (255 :: bytesOfU16 delta ++ start ++ stop) = _
    rw [List.append_assoc]
    rfl

/-- A frame that is read fits its form and is written back. -/
theorem encode_of_decode {bytes rest : List UInt8} {frame : StackFrame}
    (h : decode bytes = .ok (frame, rest)) :
    frame.FitsForm ∧ ∃ written, frame.encode = .ok written ∧ bytes = written ++ rest := by
  rw [decode_eq] at h
  obtain ⟨type, middle, htype, hbehind⟩ := Decoder.bind_eq_ok_iff.mp h
  obtain ⟨start, hstart, rfl⟩ := exact_u8.writesBack bytes type middle htype
  cases hstart
  unfold decodeBehind at hbehind
  split at hbehind
  · next hsame =>
    cases hbehind
    have hle : type.toNat ≤ 63 := UInt8.le_iff_toNat_le.mp hsame
    have hdelta : type.toUInt16.toNat = type.toNat := UInt8.toNat_toUInt16 type
    refine ⟨Nat.le_trans (Nat.le_of_eq hdelta) hle, [type], ?_, rfl⟩
    show Except.ok [UInt8.ofNat type.toUInt16.toNat] = _
    rw [hdelta, UInt8.ofNat_toNat]
  next hsame =>
  split at hbehind
  · next hone =>
    obtain ⟨operand, hoperand, rfl⟩ := Decoder.map_eq_ok_iff.mp hbehind
    obtain ⟨body, hbody, rfl⟩ := VerificationType.writesBack middle operand rest hoperand
    have hle : type.toNat ≤ 127 := UInt8.le_iff_toNat_le.mp hone
    have hlt : ¬ type.toNat ≤ 63 := fun hle => hsame (UInt8.le_iff_toNat_le.mpr hle)
    have hdelta : (type - 64).toUInt16.toNat = (type - 64).toNat := UInt8.toNat_toUInt16 _
    have hnumber : (type - 64).toNat = type.toNat - 64 :=
      UInt8.toNat_sub_of_le _ _ (UInt8.le_iff_toNat_le.mpr (by show 64 ≤ type.toNat; omega))
    refine ⟨?_, type :: body, bind_eq_ok_iff.mpr ⟨body, hbody, ?_⟩, rfl⟩
    · show (type - 64).toUInt16.toNat ≤ 63
      omega
    · rw [hdelta, UInt8.ofNat_toNat, UInt8.add_comm, UInt8.sub_add_cancel]
      rfl
  next hone =>
  split at hbehind
  · exact absurd hbehind Decoder.throw_ne_ok
  next hreserved =>
  obtain ⟨delta, last, hdelta, hat⟩ := Decoder.bind_eq_ok_iff.mp hbehind
  obtain ⟨start, hstart, rfl⟩ := exact_u16.writesBack middle delta last hdelta
  cases hstart
  have hlt : 246 < type.toNat :=
    Nat.lt_of_not_le fun hle => hreserved (UInt8.le_iff_toNat_le.mpr hle)
  obtain ⟨hfits, body, hbody, rfl⟩ := encode_of_decodeAt hlt hat
  refine ⟨hfits, type :: (bytesOfU16 delta ++ body), hbody, ?_⟩
  exact congrArg (type :: ·) (List.append_assoc ..).symm

/-- Every frame that is read is written back. -/
theorem writesBack : codec.WritesBack := fun _ _ _ h => (encode_of_decode h).2

end StackFrame

/-! ## Stack maps -/

namespace StackMap

/-- A stack map is read back if every frame fits its form. -/
theorem readsBack {frames : StackMap} (hfits : ∀ frame ∈ frames, frame.FitsForm) :
    codec.ReadsBack frames :=
  readsBack_counted fun frame hframe => StackFrame.readsBack (hfits frame hframe)

/-- Every frame of a stack map that is read fits its form. -/
theorem fitsForm_of_decode {bytes rest : List UInt8} {frames : StackMap}
    (h : codec.decode bytes = .ok (frames, rest)) : ∀ frame ∈ frames, frame.FitsForm :=
  forall_mem_of_counted (fun _ _ _ hread => (StackFrame.encode_of_decode hread).1) h

/-- Every stack map that is read is written back. -/
theorem writesBack : codec.WritesBack := writesBack_counted StackFrame.writesBack

end StackMap

end JvmClass
