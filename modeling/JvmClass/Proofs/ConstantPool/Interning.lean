import JvmClass.ConstantPool.View
import JvmClass.Proofs.ConstantPool.Representation

/-!
# What interned entries show

An index that interning gives leads to the entry that was asked for, whether it
was stored before or not. Entries that refer to others are interned after them,
and the pool only grows in between, so that the views of such an entry show all
that it was made of.
-/

namespace JvmClass.ConstantPool

/-! ## Views of pools that grow -/

namespace Grows

variable {old pool : ConstantPool} {i : UInt16}

/-- A text stays the same. -/
theorem text (grows : Grows old pool) {s : String} (h : old.text i = .ok s) :
    pool.text i = .ok s :=
  grows.expect h

/-- The text that a symbol entry names stays the same. -/
theorem symbol (grows : Grows old pool) {kind : SymbolKind} {s : String}
    (h : old.symbol kind i = .ok s) : pool.symbol kind i = .ok s := by
  obtain ⟨t, hsymbol, htext⟩ := bind_eq_ok_iff.mp h
  exact bind_eq_ok_iff.mpr ⟨t, grows.expect hsymbol, grows.text htext⟩

/-- The name in a name with descriptor stays the same. -/
theorem nameOf (grows : Grows old pool) {s : String} (h : old.nameOf i = .ok s) :
    pool.nameOf i = .ok s := by
  obtain ⟨n, hpair, htext⟩ := bind_eq_ok_iff.mp h
  exact bind_eq_ok_iff.mpr ⟨n, grows.expect hpair, grows.text htext⟩

/-- The descriptor in a name with descriptor stays the same. -/
theorem descriptorOf (grows : Grows old pool) {s : String} (h : old.descriptorOf i = .ok s) :
    pool.descriptorOf i = .ok s := by
  obtain ⟨n, hpair, htext⟩ := bind_eq_ok_iff.mp h
  exact bind_eq_ok_iff.mpr ⟨n, grows.expect hpair, grows.text htext⟩

/-- The indices in a member entry stay the same. -/
theorem memberIndices (grows : Grows old pool) {kind? : Option MemberKind}
    {found : MemberKind × UInt16 × UInt16} (h : old.memberIndices kind? i = .ok found) :
    pool.memberIndices kind? i = .ok found := by
  obtain ⟨c, hentry, hview⟩ := bind_eq_ok_iff.mp h
  exact bind_eq_ok_iff.mpr ⟨c, grows.entry hentry, hview⟩

/-- A member stays the same with all its names. -/
theorem memberOf (grows : Grows old pool) {kind? : Option MemberKind} {m : MemberRef}
    (h : old.memberOf kind? i = .ok m) : pool.memberOf kind? i = .ok m := by
  obtain ⟨found, hindices, h⟩ := bind_eq_ok_iff.mp h
  obtain ⟨className, hclass, h⟩ := bind_eq_ok_iff.mp h
  obtain ⟨name, hname, h⟩ := bind_eq_ok_iff.mp h
  obtain ⟨descriptor, hdescriptor, h⟩ := bind_eq_ok_iff.mp h
  refine bind_eq_ok_iff.mpr ⟨found, grows.memberIndices hindices, ?_⟩
  refine bind_eq_ok_iff.mpr ⟨className, grows.symbol hclass, ?_⟩
  refine bind_eq_ok_iff.mpr ⟨name, grows.nameOf hname, ?_⟩
  exact bind_eq_ok_iff.mpr ⟨descriptor, grows.descriptorOf hdescriptor, h⟩

end Grows

/-! ## Interned entries -/

section Interned

variable {pool next : ConstantPool} {i : UInt16}

/-- Interning an entry that is stored gives its first place, and stores
nothing. -/
theorem runOn_intern_of_isFirst {c : Constant} (hpool : Consistent pool)
    (h : IsFirst pool.slots c i.toNat) : (intern c).runOn pool = (.ok i, pool) := by
  have hknown := (hpool.index c i).mpr h
  unfold intern Edit.runOn
  simp only [ExceptT.mk, ExceptT.run]
  rw [hknown]

/-- The index that interning gives leads to the entry. -/
theorem entry_of_intern {c : Constant} (hpool : Consistent pool)
    (h : (intern c).runOn pool = (.ok i, next)) : next.entry i = .ok c := by
  rw [entry_eq_ok_iff]
  unfold intern Edit.runOn at h
  simp only [ExceptT.mk, ExceptT.run] at h
  split at h
  · next hknown =>
    cases h
    exact ((hpool.index c i).mp hknown).1
  · split at h
    · next hroom =>
      cases h
      have hpos := c.slots_pos
      have hnumber : (UInt16.ofNat pool.slots.size).toNat = pool.slots.size := by
        rw [UInt16.toNat_ofNat']
        omega
      rw [hnumber]
      exact (getElem?_slots_push_eq_some_iff pool c c _).mpr (.inr ⟨rfl, rfl⟩)
    · cases h

/-- An interned entry of a kind is shown by the view of the kind. -/
theorem expect_of_intern {α : Type} {c : Constant} {kind : ConstantKind}
    {view : Constant → Option α} {a : α} (hpool : Consistent pool) (hview : view c = some a)
    (h : (intern c).runOn pool = (.ok i, next)) : next.expect kind view i = .ok a :=
  bind_eq_ok_iff.mpr ⟨c, entry_of_intern hpool h, by simp only [hview]; rfl⟩

/-- An interned text is shown. -/
theorem text_of_internText {s : String} (hpool : Consistent pool)
    (h : (internText s).runOn pool = (.ok i, next)) : next.text i = .ok s :=
  expect_of_intern hpool rfl h

/-- An interned entry that names a text shows it. -/
theorem symbol_of_internSymbol {kind : SymbolKind} {s : String} (hpool : Consistent pool)
    (h : (internSymbol kind s).runOn pool = (.ok i, next)) : next.symbol kind i = .ok s := by
  obtain ⟨t, between, htext, hsymbol⟩ := (Edit.runOn_bind_eq_ok_iff pool).mp h
  have hgrows := (onlyAdds_internText s).grows_of_eq htext
  have hbetween := hgrows.consistent hpool
  have hlater := (onlyAdds_intern _).grows_of_eq hsymbol
  have hshown : next.symbolText kind i = .ok t :=
    bind_eq_ok_iff.mpr ⟨_, entry_of_intern hbetween hsymbol, by simp only [↓reduceIte]; rfl⟩
  exact bind_eq_ok_iff.mpr ⟨t, hshown, hlater.text (text_of_internText hpool htext)⟩

/-- An interned name with descriptor shows both. -/
theorem names_of_internNameAndType {name descriptor : String} (hpool : Consistent pool)
    (h : (internNameAndType name descriptor).runOn pool = (.ok i, next)) :
    next.nameOf i = .ok name ∧ next.descriptorOf i = .ok descriptor := by
  obtain ⟨n, first, hname, h⟩ := (Edit.runOn_bind_eq_ok_iff pool).mp h
  obtain ⟨d, second, hdescriptor, hpair⟩ := (Edit.runOn_bind_eq_ok_iff first).mp h
  have hfirst := (onlyAdds_internText name).grows_of_eq hname
  have hsecond := (onlyAdds_internText descriptor).grows_of_eq hdescriptor
  have hlast := (onlyAdds_intern _).grows_of_eq hpair
  have hpool₁ := hfirst.consistent hpool
  have hpool₂ := hsecond.consistent hpool₁
  have hshown : next.nameAndType i = .ok (n, d) := expect_of_intern hpool₂ rfl hpair
  have hn := (hsecond.trans hlast).text (text_of_internText hpool hname)
  have hd := hlast.text (text_of_internText hpool₁ hdescriptor)
  exact ⟨bind_eq_ok_iff.mpr ⟨(n, d), hshown, hn⟩, bind_eq_ok_iff.mpr ⟨(n, d), hshown, hd⟩⟩

/-- An interned reference to a member shows the names of the entries that it
refers to. -/
theorem memberOf_of_intern {kind : MemberKind} {c n : UInt16} {owner name descriptor : String}
    (hpool : Consistent pool) (howner : pool.className c = .ok owner)
    (hname : pool.nameOf n = .ok name) (hdescriptor : pool.descriptorOf n = .ok descriptor)
    (h : (intern (.member kind c n)).runOn pool = (.ok i, next)) :
    next.memberOf (some kind) i = .ok ⟨kind, c, n, owner, name, descriptor⟩ := by
  have hgrows := (onlyAdds_intern _).grows_of_eq h
  have hindices : next.memberIndices (some kind) i = .ok (kind, c, n) :=
    bind_eq_ok_iff.mpr ⟨_, entry_of_intern hpool h, if_pos (by simp)⟩
  refine bind_eq_ok_iff.mpr ⟨_, hindices, ?_⟩
  refine bind_eq_ok_iff.mpr ⟨owner, hgrows.symbol howner, ?_⟩
  refine bind_eq_ok_iff.mpr ⟨name, hgrows.nameOf hname, ?_⟩
  exact bind_eq_ok_iff.mpr ⟨descriptor, hgrows.descriptorOf hdescriptor, rfl⟩

end Interned

end JvmClass.ConstantPool
