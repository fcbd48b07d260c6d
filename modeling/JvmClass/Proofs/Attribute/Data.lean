import JvmClass.Attribute.Data
import JvmClass.Proofs.Code.Format

/-!
# The binary form of attribute payloads

A payload that is read is written back, whatever its kind. A payload is read
back if its frames, should it have any, fit their forms. A payload of no
recognized kind takes all bytes, so nothing may follow it.
-/

namespace JvmClass

open Codec

/-- Inner classes keep both laws. -/
theorem InnerClass.exact : InnerClass.codec.Exact :=
  ((exact_u16.pair exact_u16).pair (exact_u16.pair exact_u16)).convert (fun _ => rfl) fun _ => rfl

/-- Bootstrap methods keep both laws. -/
theorem BootstrapMethod.exact : BootstrapMethod.codec.Exact :=
  (exact_u16.pair exact_u16.table).convert (fun _ => rfl) fun _ => rfl

namespace AttributeData

/-- The frames of a payload fit their forms. -/
def FitsForm : AttributeData → Prop
  | .stackMap frames => ∀ frame ∈ frames, frame.FitsForm
  | _ => True

/-- A converted value that keeps the first law is read back if nothing follows
it. -/
theorem decode_of_readsBack {α : Type} {c : Codec α} {a : α} {f : α → AttributeData}
    {bytes : List UInt8} (h : c.ReadsBack a) (hbytes : c.encode a = .ok bytes) :
    (f <$> c.decode) bytes = .ok (f a, []) := by
  have hread := h bytes hbytes []
  rw [List.append_nil] at hread
  exact Decoder.map_eq_ok_iff.mpr ⟨a, hread, rfl⟩

/-- A payload is read back if its frames fit their forms and nothing follows it. -/
theorem decode_encode {payload : AttributeData} (hfits : payload.FitsForm) {bytes : List UInt8}
    (h : payload.encode = .ok bytes) : decode payload.kind bytes = .ok (payload, []) := by
  cases payload with
  | exceptions classes => exact decode_of_readsBack (exact_u16.table.readsBack classes) h
  | constantValue i => exact decode_of_readsBack (exact_u16.readsBack i) h
  | sourceFile i => exact decode_of_readsBack (exact_u16.readsBack i) h
  | lineNumbers table => exact decode_of_readsBack (LineNumber.exact.table.readsBack table) h
  | localVariables table => exact decode_of_readsBack (LocalVariable.exact.table.readsBack table) h
  | localVariableTypes table =>
    exact decode_of_readsBack (LocalVariable.exact.table.readsBack table) h
  | stackMap frames => exact decode_of_readsBack (StackMap.readsBack hfits) h
  | synthetic =>
    cases h
    rfl
  | innerClasses table => exact decode_of_readsBack (InnerClass.exact.table.readsBack table) h
  | bootstrapMethods table =>
    exact decode_of_readsBack (BootstrapMethod.exact.table.readsBack table) h
  | raw found =>
    cases h
    rfl

/-- A payload that is read has the kind that it was read as, its frames fit
their forms, and it is written back. -/
theorem encode_of_decode {kind : AttributeKind} (hkind : kind ≠ .code) {payload : AttributeData}
    {bytes rest : List UInt8} (h : decode kind bytes = .ok (payload, rest)) :
    payload.kind = kind ∧ payload.FitsForm ∧
      ∃ written, payload.encode = .ok written ∧ bytes = written ++ rest := by
  cases kind with
  | code => exact absurd rfl hkind
  | exceptions =>
    obtain ⟨classes, hread, rfl⟩ := Decoder.map_eq_ok_iff.mp h
    exact ⟨rfl, trivial, exact_u16.table.writesBack bytes classes rest hread⟩
  | constantValue =>
    obtain ⟨i, hread, rfl⟩ := Decoder.map_eq_ok_iff.mp h
    exact ⟨rfl, trivial, exact_u16.writesBack bytes i rest hread⟩
  | sourceFile =>
    obtain ⟨i, hread, rfl⟩ := Decoder.map_eq_ok_iff.mp h
    exact ⟨rfl, trivial, exact_u16.writesBack bytes i rest hread⟩
  | lineNumbers =>
    obtain ⟨table, hread, rfl⟩ := Decoder.map_eq_ok_iff.mp h
    exact ⟨rfl, trivial, LineNumber.exact.table.writesBack bytes table rest hread⟩
  | localVariables =>
    obtain ⟨table, hread, rfl⟩ := Decoder.map_eq_ok_iff.mp h
    exact ⟨rfl, trivial, LocalVariable.exact.table.writesBack bytes table rest hread⟩
  | localVariableTypes =>
    obtain ⟨table, hread, rfl⟩ := Decoder.map_eq_ok_iff.mp h
    exact ⟨rfl, trivial, LocalVariable.exact.table.writesBack bytes table rest hread⟩
  | stackMap =>
    obtain ⟨frames, hread, rfl⟩ := Decoder.map_eq_ok_iff.mp h
    exact ⟨rfl, StackMap.fitsForm_of_decode hread, StackMap.writesBack bytes frames rest hread⟩
  | synthetic =>
    cases h
    exact ⟨rfl, trivial, [], rfl, rfl⟩
  | innerClasses =>
    obtain ⟨table, hread, rfl⟩ := Decoder.map_eq_ok_iff.mp h
    exact ⟨rfl, trivial, InnerClass.exact.table.writesBack bytes table rest hread⟩
  | bootstrapMethods =>
    obtain ⟨table, hread, rfl⟩ := Decoder.map_eq_ok_iff.mp h
    exact ⟨rfl, trivial, BootstrapMethod.exact.table.writesBack bytes table rest hread⟩
  | raw =>
    cases h
    exact ⟨rfl, trivial, bytes, rfl, (List.append_nil bytes).symm⟩

end AttributeData

end JvmClass
