import JvmClass.Proofs.Attribute.Copying

/-!
# Attributes and call sites in another pool

Copying keeps the order of every table. So a copied table of bootstrap methods has
at each place the copy of the method that was there, and a constant or call site,
which names its bootstrap method by place, is copied without looking at the table:
the two agree again in the new pool, whichever of them is copied first.
-/

namespace JvmClass

open ConstantPool (lasting_copy renameC)

variable (source : ConstantPool) (names : Renaming)

/-- An attribute of any kind but a body is copied to any pool that can be made. The
copy has the same kind and name, and entry for entry the same payload, with every
index renumbered for the pool, then and whenever more entries are added later. A
constant or call site that is copied to the same pool, before the table of bootstrap
methods or after it, is renumbered and names the same place, and the copied table
has the copy of the bootstrap method there. -/
theorem Attribute.copy_translates {wasRead : Bool} {dest next later : ConstantPool}
    (hdest : ConstantPool.Reachable wasRead dest) {a b : Attribute} (hkind : a.kind ≠ .code)
    (hcopy : (Attribute.copy source names a).runOn dest = (.ok b, next))
    (hlater : ConstantPool.Grows next later) :
    b.kind = a.kind ∧
      (∃ name, source.text a.nameIndex = .ok name ∧ later.text b.nameIndex = .ok name) ∧
      (∃ old new, a.body = .data old ∧ b.body = .data new ∧
        AttributeData.CopyOf source names later old new) ∧
      ∀ table, a.body = .data (.bootstrapMethods table) →
        ∃ copies, b.body = .data (.bootstrapMethods copies) ∧
          ∀ (kind : DynamicKind) (i place n : UInt16), i ≠ 0 →
            source.dynamic kind i = .ok (place, n) →
            ∀ (anyRead : Bool) (before after : ConstantPool) (j : UInt16),
              ConstantPool.Reachable anyRead before →
              (source.copy names i).runOn before = (.ok j, after) →
              ConstantPool.Grows after later →
              source.Renumbered names later i j ∧
                (∃ n', later.dynamic kind j = .ok (place, n')) ∧
                Option.Rel (BootstrapMethod.CopyOf source names later)
                  table[place.toNat]? copies[place.toNat]? := by
  have hcopied := (lasting_copyAttribute source names a).holds hdest.consistent hcopy hlater
  obtain ⟨old, hold⟩ : ∃ old, a.body = .data old := by
    unfold Attribute.kind at hkind
    cases hbody : a.body with
    | code body =>
      rw [hbody] at hkind
      exact absurd rfl hkind
    | data old => exact ⟨old, rfl⟩
  have hbody := hcopied.body
  rw [hold] at hbody
  obtain ⟨new, hnew⟩ : ∃ new, b.body = .data new := by
    cases hb : b.body with
    | code body =>
      rw [hb] at hbody
      have hne : old.kind ≠ .code := by cases old <;> nofun
      exact absurd hbody.symm hne
    | data new => exact ⟨new, rfl⟩
  rw [hnew] at hbody
  refine ⟨?_, hcopied.name, ⟨old, new, hold, hnew, hbody⟩, ?_⟩
  · unfold Attribute.kind
    rw [hold, hnew]
    exact AttributeData.kind_of_copyOf hbody
  · intro table htable
    cases hold.symm.trans htable
    cases new with
    | bootstrapMethods copies =>
      refine ⟨copies, hnew, fun kind i place n hi hplace anyRead before after j hbefore hrun => ?_⟩
      intro hafter
      have hsite := (lasting_copy source names i).holds hbefore.consistent hrun hafter
      exact ⟨hsite.1, hsite.1.dynamic hi hplace, rel_getElem?_of_forall₂ hbody place.toNat⟩
    | _ => cases hbody

/-- The bytes of a pool with a call site of the class `C`, and all that its bootstrap
method refers to. -/
def siteBytes : List UInt8 :=
  [0, 10, 1, 0, 16, 66, 111, 111, 116, 115, 116, 114, 97, 112, 77, 101, 116, 104, 111, 100, 115,
    1, 0, 1, 67, 7, 0, 2, 1, 0, 1, 102, 1, 0, 5, 40, 41, 76, 67, 59, 12, 0, 4, 0, 5,
    10, 0, 3, 0, 6, 15, 6, 0, 7, 18, 0, 0, 0, 6]

/-- The bytes of a pool with the same for the class `D`, in another order. -/
def renamedSiteBytes : List UInt8 :=
  [0, 10, 1, 0, 1, 102, 1, 0, 5, 40, 41, 76, 68, 59, 12, 0, 1, 0, 2, 1, 0, 1, 68, 7, 0, 4,
    10, 0, 5, 0, 3, 15, 6, 0, 6, 18, 0, 0, 0, 3,
    1, 0, 16, 66, 111, 111, 116, 115, 116, 114, 97, 112, 77, 101, 116, 104, 111, 100, 115]

/-- A pool with a call site. -/
def sitePool : ConstantPool :=
  ((ConstantPool.decode 0 siteBytes).toOption.map Prod.fst).getD (.empty 0)

/-- A pool with the renamed call site. -/
def renamedSitePool : ConstantPool :=
  ((ConstantPool.decode 1 renamedSiteBytes).toOption.map Prod.fst).getD (.empty 1)

/-- The pool is read. -/
theorem reachable_renamedSitePool : ConstantPool.Reachable true renamedSitePool := by
  have hdecode : ConstantPool.decode 1 renamedSiteBytes = .ok (renamedSitePool, []) := rfl
  exact .decode hdecode

/-- The entries of the call site are copied to those of the renamed one. -/
theorem copy_sitePool :
    (sitePool.copy renameC 3).runOn renamedSitePool = (.ok 5, renamedSitePool) ∧
      (sitePool.copy renameC 8).runOn renamedSitePool = (.ok 7, renamedSitePool) ∧
      (sitePool.copy renameC 9).runOn renamedSitePool = (.ok 8, renamedSitePool) := by
  have hpool := reachable_renamedSitePool.consistent
  have hintern {c : Constant} {i : UInt16}
      (h : renamedSitePool.slots[i.toNat]? = some (some c) ∧
        ∀ j < i.toNat, renamedSitePool.slots[j]? ≠ some (some c)) :
      (ConstantPool.intern c).runOn renamedSitePool = (.ok i, renamedSitePool) :=
    ConstantPool.runOn_intern_of_isFirst hpool h
  have hname : (ConstantPool.internText "f").runOn renamedSitePool = (.ok 1, renamedSitePool) :=
    hintern (by decide +kernel)
  have htype : (ConstantPool.internText "()LD;").runOn renamedSitePool =
      (.ok 2, renamedSitePool) := hintern (by decide +kernel)
  have howner : (ConstantPool.internText "D").runOn renamedSitePool = (.ok 4, renamedSitePool) :=
    hintern (by decide +kernel)
  have hclass : (ConstantPool.internClass "D").runOn renamedSitePool = (.ok 5, renamedSitePool) :=
    (Edit.runOn_bind_eq_ok_iff _).mpr ⟨4, _, howner, hintern (by decide +kernel)⟩
  have hnames : (sitePool.copyNameAndType renameC 6).runOn renamedSitePool =
      (.ok 3, renamedSitePool) := by
    refine (Edit.runOn_lift_bind_eq_ok_iff _).mpr ⟨(4, 5), by decide +kernel, ?_⟩
    refine (Edit.runOn_lift_bind_eq_ok_iff _).mpr ⟨"f", by decide +kernel, ?_⟩
    refine (Edit.runOn_lift_bind_eq_ok_iff _).mpr ⟨"()LC;", by decide +kernel, ?_⟩
    have hrenamed : renameC.descriptor "()LC;" = "()LD;" := by decide +kernel
    rw [hrenamed]
    refine (Edit.runOn_bind_eq_ok_iff _).mpr ⟨1, _, hname, ?_⟩
    exact (Edit.runOn_bind_eq_ok_iff _).mpr ⟨2, _, htype, hintern (by decide +kernel)⟩
  have hmember : (sitePool.copyMember renameC 7).runOn renamedSitePool =
      (.ok 6, renamedSitePool) := by
    refine (Edit.runOn_lift_bind_eq_ok_iff _).mpr ⟨(.method, 3, 6), by decide +kernel, ?_⟩
    refine (Edit.runOn_bind_eq_ok_iff _).mpr ⟨5, renamedSitePool, ?_, ?_⟩
    · exact (Edit.runOn_lift_bind_eq_ok_iff _).mpr ⟨"C", by decide +kernel, hclass⟩
    · exact (Edit.runOn_bind_eq_ok_iff _).mpr ⟨3, _, hnames, hintern (by decide +kernel)⟩
  refine ⟨?_, ?_, ?_⟩
  · refine (Edit.runOn_lift_bind_eq_ok_iff _).mpr ⟨.symbol .classInfo 2, by decide +kernel, ?_⟩
    exact (Edit.runOn_lift_bind_eq_ok_iff _).mpr ⟨"C", by decide +kernel, hclass⟩
  · refine (Edit.runOn_lift_bind_eq_ok_iff _).mpr ⟨.methodHandle 6 7, by decide +kernel, ?_⟩
    exact (Edit.runOn_bind_eq_ok_iff _).mpr ⟨6, _, hmember, hintern (by decide +kernel)⟩
  · refine (Edit.runOn_lift_bind_eq_ok_iff _).mpr ⟨.dynamic .callSite 0 6, by decide +kernel, ?_⟩
    exact (Edit.runOn_bind_eq_ok_iff _).mpr ⟨3, _, hnames, hintern (by decide +kernel)⟩

/-- A call site and the table of its bootstrap method are copied to the same pool,
and the renamed method is at the place that the copy names. -/
theorem Attribute.copy_translates_callSite :
    ConstantPool.Reachable true renamedSitePool ∧
      (Attribute.copy sitePool renameC ⟨1, .data (.bootstrapMethods [⟨8, [3]⟩])⟩).runOn
        renamedSitePool = (.ok ⟨9, .data (.bootstrapMethods [⟨7, [5]⟩])⟩, renamedSitePool) ∧
      sitePool.resolve 8 = .ok (.methodHandle 6 .method "C" "f" "()LC;") ∧
      renamedSitePool.resolve 7 = .ok (.methodHandle 6 .method "D" "f" "()LD;") ∧
      (sitePool.copy renameC 9).runOn renamedSitePool = (.ok 8, renamedSitePool) ∧
      (∃ n, renamedSitePool.dynamic .callSite 8 = .ok (0, n)) ∧
      BootstrapMethod.CopyOf sitePool renameC renamedSitePool ⟨8, [3]⟩ ⟨7, [5]⟩ := by
  obtain ⟨hargument, hhandle, hsite⟩ := copy_sitePool
  have htext : (ConstantPool.internText "BootstrapMethods").runOn renamedSitePool =
      (.ok 9, renamedSitePool) := by
    refine ConstantPool.runOn_intern_of_isFirst reachable_renamedSitePool.consistent ?_
    unfold ConstantPool.IsFirst
    decide +kernel
  have hmethod : (AttributeData.copyBootstrapMethod sitePool renameC ⟨8, [3]⟩).runOn
      renamedSitePool = (.ok ⟨7, [5]⟩, renamedSitePool) := by
    refine (Edit.runOn_bind_eq_ok_iff _).mpr ⟨7, _, hhandle, ?_⟩
    refine (Edit.runOn_bind_eq_ok_iff _).mpr ⟨[5], renamedSitePool, ?_, rfl⟩
    rw [List.mapM_cons, List.mapM_nil]
    exact (Edit.runOn_bind_eq_ok_iff _).mpr ⟨5, _, hargument, rfl⟩
  have hcopy : (Attribute.copy sitePool renameC ⟨1, .data (.bootstrapMethods [⟨8, [3]⟩])⟩).runOn
      renamedSitePool = (.ok ⟨9, .data (.bootstrapMethods [⟨7, [5]⟩])⟩, renamedSitePool) := by
    rw [Attribute.copy, AttributeBody.copy]
    refine (Edit.runOn_lift_bind_eq_ok_iff _).mpr ⟨"BootstrapMethods", by decide +kernel, ?_⟩
    refine (Edit.runOn_bind_eq_ok_iff _).mpr ⟨9, _, htext, ?_⟩
    refine (Edit.runOn_bind_eq_ok_iff _).mpr
      ⟨.data (.bootstrapMethods [⟨7, [5]⟩]), renamedSitePool, ?_, rfl⟩
    refine (Edit.runOn_bind_eq_ok_iff _).mpr
      ⟨.bootstrapMethods [⟨7, [5]⟩], renamedSitePool, ?_, rfl⟩
    rw [AttributeData.copy, List.mapM_cons, List.mapM_nil, map_eq_pure_bind]
    refine (Edit.runOn_bind_eq_ok_iff _).mpr ⟨[⟨7, [5]⟩], renamedSitePool, ?_, rfl⟩
    exact (Edit.runOn_bind_eq_ok_iff _).mpr ⟨⟨7, [5]⟩, _, hmethod, rfl⟩
  obtain ⟨-, -, -, htable⟩ := Attribute.copy_translates sitePool renameC reachable_renamedSitePool
    (by decide) hcopy .refl
  obtain ⟨copies, hcopies, hplaces⟩ := htable [⟨8, [3]⟩] rfl
  cases hcopies
  obtain ⟨-, hdynamic, hrel⟩ := hplaces .callSite 9 0 6 (by decide) (by decide +kernel) true
    renamedSitePool renamedSitePool 8 reachable_renamedSitePool hsite .refl
  refine ⟨reachable_renamedSitePool, hcopy, by decide +kernel, by decide +kernel, hsite, hdynamic,
    ?_⟩
  cases hrel with
  | some hcopied => exact hcopied

end JvmClass
