import JvmClass.Proofs.ConstantPool.Resolution

/-!
# Copied constants

Copying a constant interns it together with the few entries that it refers to.
So it ends whatever the references of its pool lead to, adds a bounded number of
entries, and finds all of them when it is repeated. The index that it gives
resolves to the renamed constant.
-/

namespace JvmClass.ConstantPool

/-! ## Edits that intern a bounded number of entries -/

/-- An edit that does no more to a pool than to intern entries, which take at
most so many slots together. -/
inductive Interns : {α : Type} → Nat → Edit ConstantPool α → Prop where
  /-- A step that does not touch the pool. -/
  | lift {α : Type} {n : Nat} (outcome : Except Error α) : Interns n (liftM outcome)
  /-- An entry that fits. -/
  | entry {c : Constant} {n : Nat} (h : c.slots ≤ n) : Interns n (intern c)
  /-- One edit after another. -/
  | bind {α β : Type} {l m n : Nat} {edit : Edit ConstantPool α}
      {next : α → Edit ConstantPool β} (first : Interns l edit)
      (later : ∀ a, Interns m (next a)) (h : l + m ≤ n) : Interns n (edit >>= next)

/-- The index of an entry stays what it is. -/
theorem Grows.getElem?_index {old pool : ConstantPool} (grows : Grows old pool) {c : Constant}
    {i : UInt16} (h : old.index[c]? = some i) : pool.index[c]? = some i := by
  induction grows with
  | refl => exact h
  | @push pool d _ hnew _ ih =>
    have hne : ¬ (d = c ∧ pool.index[d]? = none) := by
      rintro ⟨rfl, hnone⟩
      rw [ih] at hnone
      cases hnone
    rw [getElem?_index_push, if_neg hne, ih]

/-- An entry is in the index once it is interned. -/
theorem getElem?_index_of_intern {c : Constant} {pool next : ConstantPool} {i : UInt16}
    (h : (intern c).runOn pool = (.ok i, next)) : next.index[c]? = some i := by
  unfold intern Edit.runOn at h
  simp only [ExceptT.mk, ExceptT.run] at h
  split at h
  · next hknown =>
    cases h
    exact hknown
  · next hnew =>
    split at h
    · cases h
      rw [getElem?_index_push, if_pos ⟨rfl, hnew⟩]
      rfl
    · cases h

/-- Interning an entry that no slot holds stores it behind the others. -/
theorem runOn_intern_of_not_mem {c : Constant} {pool : ConstantPool} (hpool : Consistent pool)
    (hnew : some c ∉ pool.slots) (hroom : pool.size + c.slots ≤ 65535) :
    (intern c).runOn pool = (.ok (UInt16.ofNat pool.size), pool.push c) := by
  have hunknown : pool.index[c]? = none := by
    cases hindex : pool.index[c]? with
    | none => rfl
    | some i =>
      have hplace := (hpool.index c i).mp hindex
      exact absurd (Array.mem_of_getElem? hplace.1) hnew
  unfold intern Edit.runOn
  simp only [ExceptT.mk, ExceptT.run, hunknown]
  exact if_pos hroom

/-- Interning fills no more slots than the entry takes. -/
theorem size_intern_le (c : Constant) (pool : ConstantPool) :
    ((intern c).runOn pool).2.size ≤ pool.size + c.slots := by
  unfold intern Edit.runOn
  simp only [ExceptT.mk, ExceptT.run]
  split
  · exact Nat.le_add_right ..
  · split
    · exact Nat.le_of_eq (size_push pool c)
    · exact Nat.le_add_right ..

namespace Interns

variable {α : Type} {m n : Nat} {edit : Edit ConstantPool α}

/-- A larger bound is a bound. -/
theorem mono (h : Interns m edit) (hle : m ≤ n) : Interns n edit := by
  cases h with
  | lift outcome => exact .lift outcome
  | entry hc => exact .entry (Nat.le_trans hc hle)
  | bind first later h => exact .bind first later (Nat.le_trans h hle)

/-- No more slots are filled than the entries take. -/
theorem size_le (h : Interns n edit) (pool : ConstantPool) :
    (edit.runOn pool).2.size ≤ pool.size + n := by
  induction h generalizing pool with
  | lift => exact Nat.le_add_right ..
  | @entry c n hn =>
    have hsize := size_intern_le c pool
    omega
  | @bind α β l m n edit next _ _ hle ihFirst ihLater =>
    have hfirst := ihFirst pool
    rw [Edit.runOn_bind]
    rcases hrun : edit.runOn pool with ⟨outcome, between⟩
    rw [hrun] at hfirst
    cases outcome with
    | error e => exact Nat.le_trans hfirst (by omega)
    | ok a =>
      have hlater := ihLater a between
      dsimp only at hfirst ⊢
      omega

/-- An edit that has succeeded gives the same again later, and finds all entries
stored. -/
theorem again (h : Interns n edit) {pool next later : ConstantPool} {a : α}
    (hrun : edit.runOn pool = (.ok a, next)) (hlater : Grows next later) :
    edit.runOn later = (.ok a, later) ∧ Grows pool next := by
  induction h generalizing pool next later with
  | lift =>
    cases hrun
    exact ⟨rfl, .refl⟩
  | entry =>
    have hknown := hlater.getElem?_index (getElem?_index_of_intern hrun)
    refine ⟨?_, (onlyAdds_intern _).grows_of_eq hrun⟩
    unfold intern Edit.runOn
    simp only [ExceptT.mk, ExceptT.run, hknown]
  | bind _ _ _ ihFirst ihLater =>
    obtain ⟨b, between, hb, ha⟩ := (Edit.runOn_bind_eq_ok_iff pool).mp hrun
    obtain ⟨hagain, hgrows⟩ := ihLater b ha hlater
    obtain ⟨hfirst, hbefore⟩ := ihFirst hb (hgrows.trans hlater)
    refine ⟨(Edit.runOn_bind_eq_ok_iff later).mpr ⟨b, later, hfirst, hagain⟩, ?_⟩
    exact hbefore.trans hgrows

end Interns

/-! ## Copies -/

section Copy

variable (source : ConstantPool) (names : Renaming) (i : UInt16)

theorem interns_internSymbol (kind : SymbolKind) (text : String) :
    Interns 2 (internSymbol kind text) :=
  .bind (l := 1) (m := 1) (.entry le_rfl) (fun _ => .entry le_rfl) le_rfl

theorem interns_internNameAndType (name descriptor : String) :
    Interns 3 (internNameAndType name descriptor) :=
  .bind (l := 1) (m := 2) (.entry le_rfl)
    (fun _ => .bind (l := 1) (m := 1) (.entry le_rfl) (fun _ => .entry le_rfl) le_rfl) le_rfl

theorem interns_copyClass : Interns 2 (source.copyClass names i) :=
  .bind (l := 0) (.lift _) (fun _ => interns_internSymbol ..) le_rfl

theorem interns_copyNameAndType : Interns 3 (source.copyNameAndType names i) := by
  refine .bind (l := 0) (m := 3) (.lift _) (fun _ => ?_) le_rfl
  refine .bind (l := 0) (m := 3) (.lift _) (fun _ => ?_) le_rfl
  exact .bind (l := 0) (m := 3) (.lift _) (fun _ => interns_internNameAndType ..) le_rfl

theorem interns_copyMember : Interns 6 (source.copyMember names i) := by
  refine .bind (l := 0) (m := 6) (.lift _) (fun _ => ?_) le_rfl
  refine .bind (l := 2) (m := 4) (interns_copyClass ..) (fun _ => ?_) le_rfl
  exact .bind (l := 3) (m := 1) (interns_copyNameAndType ..) (fun _ => .entry le_rfl) le_rfl

/-- A copy interns the entry and those it refers to: a method handle has six of
them. -/
theorem interns_copy : Interns 7 (source.copy names i) := by
  unfold copy
  split
  · exact .lift (.ok 0)
  · refine .bind (l := 0) (m := 7) (.lift _) (fun c => ?_) le_rfl
    cases c with
    | symbol kind t =>
      exact .bind (l := 0) (.lift _) (fun _ => interns_internSymbol ..) (by decide)
    | member kind c n => exact (interns_copyMember ..).mono (by decide)
    | nameAndType n d => exact (interns_copyNameAndType ..).mono (by decide)
    | methodHandle kind r =>
      exact .bind (l := 6) (m := 1) (interns_copyMember ..) (fun _ => .entry le_rfl) le_rfl
    | dynamic kind b n =>
      exact .bind (l := 3) (m := 1) (interns_copyNameAndType ..) (fun _ => .entry le_rfl)
        (by decide)
    | _ => exact (Interns.entry le_rfl).mono (by simp [Constant.slots, Constant.isWide,
        Constant.kind, ConstantKind.isWide])

end Copy

/-! ## What copies resolve to -/

section Resolved

variable {source dest next : ConstantPool} {names : Renaming} {i j : UInt16}

/-- A copied class has the new name of the class. -/
theorem className_of_copyClass (hdest : Consistent dest)
    (h : (source.copyClass names i).runOn dest = (.ok j, next)) :
    ∃ name, source.className i = .ok name ∧ next.className j = .ok (names.className name) := by
  obtain ⟨name, hname, h⟩ := (Edit.runOn_lift_bind_eq_ok_iff dest).mp h
  exact ⟨name, hname, symbol_of_internSymbol hdest h⟩

/-- A copied name with descriptor keeps the name, and has the descriptor with its
classes renamed. -/
theorem names_of_copyNameAndType (hdest : Consistent dest)
    (h : (source.copyNameAndType names i).runOn dest = (.ok j, next)) :
    ∃ name descriptor, source.nameOf i = .ok name ∧ source.descriptorOf i = .ok descriptor ∧
      next.nameOf j = .ok name ∧ next.descriptorOf j = .ok (names.descriptor descriptor) := by
  obtain ⟨pair, hpair, h⟩ := (Edit.runOn_lift_bind_eq_ok_iff dest).mp h
  obtain ⟨name, hname, h⟩ := (Edit.runOn_lift_bind_eq_ok_iff dest).mp h
  obtain ⟨descriptor, hdescriptor, h⟩ := (Edit.runOn_lift_bind_eq_ok_iff dest).mp h
  have hnameOf : source.nameOf i = .ok name := bind_eq_ok_iff.mpr ⟨pair, hpair, hname⟩
  have hdescriptorOf : source.descriptorOf i = .ok descriptor :=
    bind_eq_ok_iff.mpr ⟨pair, hpair, hdescriptor⟩
  exact ⟨name, descriptor, hnameOf, hdescriptorOf, names_of_internNameAndType hdest h⟩

/-- A copied member is of the same kind, and has its names renamed. -/
theorem member_of_copyMember (hdest : Consistent dest)
    (h : (source.copyMember names i).runOn dest = (.ok j, next)) :
    ∃ m copied, source.member i = .ok m ∧ next.member j = .ok copied ∧ copied.kind = m.kind ∧
      copied.className = names.className m.className ∧ copied.name = m.name ∧
      copied.descriptor = names.descriptor m.descriptor := by
  obtain ⟨⟨kind, c, n⟩, hindices, h⟩ := (Edit.runOn_lift_bind_eq_ok_iff dest).mp h
  obtain ⟨c', first, hclass, h⟩ := (Edit.runOn_bind_eq_ok_iff dest).mp h
  obtain ⟨n', second, hpair, h⟩ := (Edit.runOn_bind_eq_ok_iff first).mp h
  have hfirst := ((onlyAdds_copyClass ..).grows_of_eq hclass).consistent hdest
  have hgrows := (onlyAdds_copyNameAndType ..).grows_of_eq hpair
  have hsecond := hgrows.consistent hfirst
  obtain ⟨owner, howner, hcopied⟩ := className_of_copyClass hdest hclass
  obtain ⟨name, descriptor, hname, hdescriptor, hname', hdescriptor'⟩ :=
    names_of_copyNameAndType hfirst hpair
  have hmember : source.member i = .ok ⟨kind, c, n, owner, name, descriptor⟩ := by
    refine bind_eq_ok_iff.mpr ⟨(kind, c, n), hindices, ?_⟩
    refine bind_eq_ok_iff.mpr ⟨owner, howner, ?_⟩
    refine bind_eq_ok_iff.mpr ⟨name, hname, ?_⟩
    exact bind_eq_ok_iff.mpr ⟨descriptor, hdescriptor, rfl⟩
  have hrenamed := memberOf_of_intern hsecond (hgrows.symbol hcopied) hname' hdescriptor' h
  exact ⟨_, _, hmember, member_of_memberOf hrenamed, rfl, rfl, rfl, rfl⟩

/-- An interned symbol resolves to its text. -/
theorem resolve_of_internSymbol {kind : SymbolKind} {s : String} (hdest : Consistent dest)
    (h : (internSymbol kind s).runOn dest = (.ok j, next)) :
    next.resolve j = .ok (.symbol kind s) := by
  obtain ⟨t, between, htext, hsymbol⟩ := (Edit.runOn_bind_eq_ok_iff dest).mp h
  have hbetween := ((onlyAdds_internText s).grows_of_eq htext).consistent hdest
  have hshown := (onlyAdds_intern _).grows_of_eq hsymbol |>.text (text_of_internText hdest htext)
  refine bind_eq_ok_iff.mpr ⟨_, entry_of_intern hbetween hsymbol, ?_⟩
  simp only [hshown]
  rfl

/-- A symbol is renamed as its text is. -/
theorem rename_symbol (kind : SymbolKind) (text : String) :
    ResolvedConstant.rename names (.symbol kind text) =
      .symbol kind (renamedSymbol names kind text) := by
  cases kind <;> rfl

/-- What shows its names as a member is one. -/
theorem resolve_of_member {m : MemberRef} (h : source.member i = .ok m) :
    source.resolve i = .ok (.member m.kind m.className m.name m.descriptor) := by
  obtain ⟨_, hindices, _⟩ := bind_eq_ok_iff.mp h
  obtain ⟨c, hentry, hindices⟩ := bind_eq_ok_iff.mp hindices
  refine bind_eq_ok_iff.mpr ⟨c, hentry, ?_⟩
  cases c with
  | member kind c n => exact bind_eq_ok_iff.mpr ⟨m, h, rfl⟩
  | _ => cases hindices

/-- What shows a name and a descriptor is a name with descriptor. -/
theorem resolve_of_names {name descriptor : String} (hname : source.nameOf i = .ok name)
    (hdescriptor : source.descriptorOf i = .ok descriptor) :
    source.resolve i = .ok (.nameAndType name descriptor) := by
  obtain ⟨_, hpair, _⟩ := bind_eq_ok_iff.mp hname
  obtain ⟨c, hentry, hpair⟩ := bind_eq_ok_iff.mp hpair
  refine bind_eq_ok_iff.mpr ⟨c, hentry, ?_⟩
  cases c with
  | nameAndType n d =>
    exact bind_eq_ok_iff.mpr ⟨name, hname, bind_eq_ok_iff.mpr ⟨descriptor, hdescriptor, rfl⟩⟩
  | _ => cases hpair

/-- A copied constant resolves to the renamed constant. -/
theorem resolve_of_copy (hdest : Consistent dest) (hi : i ≠ 0)
    (h : (source.copy names i).runOn dest = (.ok j, next)) :
    ∃ r, source.resolve i = .ok r ∧ next.resolve j = .ok (r.rename names) := by
  unfold copy at h
  rw [if_neg hi] at h
  obtain ⟨c, hentry, h⟩ := (Edit.runOn_lift_bind_eq_ok_iff dest).mp h
  cases c with
  | symbol kind t =>
    obtain ⟨s, htext, h⟩ := (Edit.runOn_lift_bind_eq_ok_iff dest).mp h
    refine ⟨.symbol kind s, bind_eq_ok_iff.mpr ⟨_, hentry, by simp only [htext]; rfl⟩, ?_⟩
    rw [rename_symbol]
    exact resolve_of_internSymbol hdest h
  | member kind c n =>
    obtain ⟨m, copied, hmember, hcopied, hkind, hclass, hname, hdescriptor⟩ :=
      member_of_copyMember hdest h
    refine ⟨_, resolve_of_member hmember, ?_⟩
    rw [resolve_of_member hcopied, hkind, hclass, hname, hdescriptor]
    rfl
  | nameAndType n d =>
    obtain ⟨name, descriptor, hname, hdescriptor, hname', hdescriptor'⟩ :=
      names_of_copyNameAndType hdest h
    exact ⟨_, resolve_of_names hname hdescriptor, resolve_of_names hname' hdescriptor'⟩
  | methodHandle code r =>
    obtain ⟨r', between, hcopy, h⟩ := (Edit.runOn_bind_eq_ok_iff dest).mp h
    obtain ⟨m, copied, hmember, hcopied, hkind, hclass, hname, hdescriptor⟩ :=
      member_of_copyMember hdest hcopy
    have hbetween := ((onlyAdds_copyMember ..).grows_of_eq hcopy).consistent hdest
    have hlater := ((onlyAdds_intern _).grows_of_eq h).memberOf hcopied
    refine ⟨.methodHandle code m.kind m.className m.name m.descriptor,
      bind_eq_ok_iff.mpr ⟨_, hentry, bind_eq_ok_iff.mpr ⟨m, hmember, rfl⟩⟩,
      bind_eq_ok_iff.mpr ⟨_, entry_of_intern hbetween h, ?_⟩⟩
    refine bind_eq_ok_iff.mpr ⟨copied, hlater, ?_⟩
    rw [hkind, hclass, hname, hdescriptor]
    rfl
  | dynamic kind bootstrap n =>
    obtain ⟨n', between, hcopy, h⟩ := (Edit.runOn_bind_eq_ok_iff dest).mp h
    obtain ⟨name, descriptor, hname, hdescriptor, hname', hdescriptor'⟩ :=
      names_of_copyNameAndType hdest hcopy
    have hbetween := ((onlyAdds_copyNameAndType ..).grows_of_eq hcopy).consistent hdest
    have hlater := (onlyAdds_intern _).grows_of_eq h
    refine ⟨.dynamic kind bootstrap name descriptor,
      bind_eq_ok_iff.mpr ⟨_, hentry, bind_eq_ok_iff.mpr ⟨name, hname,
        bind_eq_ok_iff.mpr ⟨descriptor, hdescriptor, rfl⟩⟩⟩,
      bind_eq_ok_iff.mpr ⟨_, entry_of_intern hbetween h, ?_⟩⟩
    exact bind_eq_ok_iff.mpr ⟨name, hlater.nameOf hname',
      bind_eq_ok_iff.mpr ⟨names.descriptor descriptor, hlater.descriptorOf hdescriptor', rfl⟩⟩
  | _ =>
    exact ⟨_, bind_eq_ok_iff.mpr ⟨_, hentry, rfl⟩,
      bind_eq_ok_iff.mpr ⟨_, entry_of_intern hdest h, rfl⟩⟩

/-- What the entry at an index is to the entry that it is a copy of. -/
structure Copied (source : ConstantPool) (names : Renaming) (i : UInt16) (next : ConstantPool)
    (j : UInt16) : Prop where
  /-- It resolves to the renamed constant. -/
  resolves : i ≠ 0 → ∃ r, source.resolve i = .ok r ∧ next.resolve j = .ok (r.rename names)
  /-- What a bootstrap method may receive, it may receive renamed. -/
  loadable : i ≠ 0 → ∀ c, source.loadable i = .ok c → next.loadable j = .ok (c.rename names)
  /-- Another copy has the same index, and nothing is stored for it. -/
  again : (source.copy names i).runOn next = (.ok j, next)

/-- A copy with all that it can be asked for. -/
theorem copied_of_copy (hdest : Consistent dest)
    (h : (source.copy names i).runOn dest = (.ok j, next)) : Copied source names i next j where
  resolves hi := resolve_of_copy hdest hi h
  loadable hi c hc := by
    obtain ⟨r, hresolved, hcopied⟩ := resolve_of_copy hdest hi h
    obtain ⟨r', hresolved', hloadable⟩ := loadable_eq_ok_iff.mp hc
    have hsame : r' = r := Except.ok.inj (hresolved'.symm.trans hresolved)
    refine loadable_eq_ok_iff.mpr ⟨r.rename names, hcopied, ?_⟩
    rw [ResolvedConstant.loadable?_rename, ← hsame, hloadable]
    rfl
  again := ((interns_copy source names i).again h .refl).1

end Resolved

/-- An entry of any pool, at any index, is copied into any pool that can be made,
whatever the indices in it lead to. All entries that were there stay at their
indices, and a few more are behind them, whether the copy succeeds or not. Index
zero gives zero. An index that is given leads to the constant with its classes
renamed, and is given again. -/
theorem copy_renames {wasRead : Bool} {dest : ConstantPool} (hdest : Reachable wasRead dest)
    (source : ConstantPool) (names : Renaming) (i : UInt16) :
    (∀ k c, dest.entry k = .ok c → ((source.copy names i).runOn dest).2.entry k = .ok c) ∧
      ((source.copy names i).runOn dest).2.size ≤ dest.size + 7 ∧
      (i = 0 → (source.copy names i).runOn dest = (.ok 0, dest)) ∧
      ∀ j next, (source.copy names i).runOn dest = (.ok j, next) →
        Copied source names i next j := by
  refine ⟨fun k c hentry => ?_, (interns_copy source names i).size_le dest, fun hi => ?_,
    fun j next h => copied_of_copy hdest.consistent h⟩
  · exact ((onlyAdds_copy source names i).grows dest).entry hentry
  · unfold copy
    rw [if_pos hi]
    rfl

/-- The bytes of a pool with a handle of a field of the class `C`. The last
handle leads nowhere. -/
def handleBytes : List UInt8 :=
  [0, 9, 1, 0, 1, 67, 7, 0, 1, 1, 0, 1, 102, 1, 0, 3, 76, 67, 59, 12, 0, 3, 0, 4,
    9, 0, 2, 0, 5, 15, 1, 0, 6, 15, 1, 0, 99]

/-- The bytes of a pool with a field of the class `D`. -/
def fieldBytes : List UInt8 :=
  [0, 8, 3, 0, 0, 0, 1, 1, 0, 1, 102, 1, 0, 3, 76, 68, 59, 1, 0, 1, 68, 7, 0, 4,
    12, 0, 2, 0, 3, 9, 0, 5, 0, 6]

/-- A pool with a handle of a field. -/
def handlePool : ConstantPool :=
  ((decode 0 handleBytes).toOption.map Prod.fst).getD (.empty 0)

/-- A pool with a field. -/
def fieldPool : ConstantPool :=
  ((decode 1 fieldBytes).toOption.map Prod.fst).getD (.empty 1)

/-- The pool is read. -/
theorem reachable_fieldPool : Reachable true fieldPool := by
  have hdecode : decode 1 fieldBytes = .ok (fieldPool, []) := rfl
  exact .decode hdecode

/-- A renaming of one class. -/
def renameC : Renaming := fun name => if name = "C" then "D" else name

/-- The field of the handle is in the other pool, under its new name. -/
theorem copyMember_handlePool :
    (handlePool.copyMember renameC 6).runOn fieldPool = (.ok 7, fieldPool) := by
  have hplaces : IsFirst fieldPool.slots (.text "D") (4 : UInt16).toNat ∧
      IsFirst fieldPool.slots (.symbol .classInfo 4) (5 : UInt16).toNat ∧
      IsFirst fieldPool.slots (.text "f") (2 : UInt16).toNat ∧
      IsFirst fieldPool.slots (.text "LD;") (3 : UInt16).toNat ∧
      IsFirst fieldPool.slots (.nameAndType 2 3) (6 : UInt16).toNat ∧
      IsFirst fieldPool.slots (.member .field 5 6) (7 : UInt16).toNat := by
    unfold IsFirst
    decide +kernel
  obtain ⟨howner, hclass, hname, htext, hpair, hfield⟩ := hplaces
  have hpool := reachable_fieldPool.consistent
  refine (Edit.runOn_lift_bind_eq_ok_iff _).mpr ⟨(.field, 2, 5), by decide +kernel, ?_⟩
  refine (Edit.runOn_bind_eq_ok_iff _).mpr ⟨5, fieldPool, ?_, ?_⟩
  · refine (Edit.runOn_lift_bind_eq_ok_iff _).mpr ⟨"C", by decide +kernel, ?_⟩
    have hrenamed : renameC.className "C" = "D" := by decide +kernel
    rw [hrenamed]
    refine (Edit.runOn_bind_eq_ok_iff _).mpr ⟨4, fieldPool, ?_, ?_⟩
    · exact runOn_intern_of_isFirst hpool howner
    · exact runOn_intern_of_isFirst hpool hclass
  · refine (Edit.runOn_bind_eq_ok_iff _).mpr ⟨6, fieldPool, ?_, ?_⟩
    · refine (Edit.runOn_lift_bind_eq_ok_iff _).mpr ⟨(3, 4), by decide +kernel, ?_⟩
      refine (Edit.runOn_lift_bind_eq_ok_iff _).mpr ⟨"f", by decide +kernel, ?_⟩
      refine (Edit.runOn_lift_bind_eq_ok_iff _).mpr ⟨"LC;", by decide +kernel, ?_⟩
      have hrenamed : renameC.descriptor "LC;" = "LD;" := by decide +kernel
      rw [hrenamed]
      refine (Edit.runOn_bind_eq_ok_iff _).mpr ⟨2, fieldPool, ?_, ?_⟩
      · exact runOn_intern_of_isFirst hpool hname
      · refine (Edit.runOn_bind_eq_ok_iff _).mpr ⟨3, fieldPool, ?_, ?_⟩
        · exact runOn_intern_of_isFirst hpool htext
        · exact runOn_intern_of_isFirst hpool hpair
    · exact runOn_intern_of_isFirst hpool hfield

/-- A handle is copied to a pool that holds the renamed field. -/
theorem copy_renames_handle :
    Reachable true fieldPool ∧
      ∃ next, (handlePool.copy renameC 7).runOn fieldPool = (.ok 8, next) ∧
        handlePool.resolve 7 = .ok (.methodHandle 1 .field "C" "f" "LC;") ∧
        next.resolve 8 = .ok (.methodHandle 1 .field "D" "f" "LD;") := by
  have hnew : some (Constant.methodHandle 1 7) ∉ fieldPool.slots := by decide +kernel
  have hroom : fieldPool.size + (Constant.methodHandle 1 7).slots ≤ 65535 := by decide +kernel
  have hstored := runOn_intern_of_not_mem reachable_fieldPool.consistent hnew hroom
  have hrun : (handlePool.copy renameC 7).runOn fieldPool =
      (.ok 8, fieldPool.push (.methodHandle 1 7)) := by
    refine (Edit.runOn_lift_bind_eq_ok_iff _).mpr ⟨.methodHandle 1 6, by decide +kernel, ?_⟩
    exact (Edit.runOn_bind_eq_ok_iff _).mpr ⟨7, fieldPool, copyMember_handlePool, hstored⟩
  have hresolved : handlePool.resolve 7 = .ok (.methodHandle 1 .field "C" "f" "LC;") := by
    decide +kernel
  obtain ⟨-, -, -, hcopied⟩ := copy_renames reachable_fieldPool handlePool renameC 7
  obtain ⟨r, hr, hrenamed⟩ := (hcopied 8 _ hrun).resolves (by decide)
  cases hresolved.symm.trans hr
  exact ⟨reachable_fieldPool, _, hrun, hresolved, hrenamed⟩

end JvmClass.ConstantPool
