import JvmClass.ConstantPool.Copy
import JvmClass.Proofs.Edit

/-!
# Growth of constant pools

All that ever happens to a pool is that a new entry is stored behind the others.
Interning an entry does so at most once, and every edit that only interns, be it
directly or by copying from another pool, is a row of such steps. A step that
fails, and everything before it, has still only added entries.
-/

namespace JvmClass

/-- The slots that an entry fills. -/
def Constant.row (c : Constant) : List (Option Constant) :=
  if c.isWide then [some c, none] else [some c]

/-- An entry fills as many slots as it takes. -/
@[simp]
theorem Constant.length_row (c : Constant) : c.row.length = c.slots := by
  unfold row slots
  split <;> rfl

/-- An entry takes at least one slot. -/
theorem Constant.slots_pos (c : Constant) : 0 < c.slots := by
  unfold slots
  split <;> omega

namespace ConstantPool

/-- Storing an entry fills the next slots. -/
theorem toList_slots_push (pool : ConstantPool) (c : Constant) :
    (pool.push c).slots.toList = pool.slots.toList ++ c.row := by
  unfold push Constant.row
  by_cases hwide : c.isWide = true <;> simp [hwide]

/-- Storing an entry makes a pool larger by the slots of the entry. -/
theorem size_push (pool : ConstantPool) (c : Constant) :
    (pool.push c).size = pool.size + c.slots := by
  have h := congrArg List.length (pool.toList_slots_push c)
  rw [List.length_append, Constant.length_row, Array.length_toList, Array.length_toList] at h
  exact h

/-- The entry at an index is the one that its slot holds. -/
theorem entry_eq_ok_iff {pool : ConstantPool} {i : UInt16} {c : Constant} :
    pool.entry i = .ok c ↔ pool.slots[i.toNat]? = some (some c) := by
  unfold entry
  constructor
  · intro h
    split at h
    · next hslot =>
      cases h
      exact hslot
    · cases h
  · intro h
    rw [h]

/-- Two pools with the same slots show the same texts. -/
theorem text_congr {pool other : ConstantPool} (h : pool.slots = other.slots) (i : UInt16) :
    pool.text i = other.text i := by
  unfold text expect entry
  rw [h]

/-- A pool has grown into another one: new entries were stored, one after the
other, as long as there was room. -/
inductive Grows (old : ConstantPool) : ConstantPool → Prop where
  /-- No entry was stored. -/
  | refl : Grows old old
  /-- One more entry was stored. -/
  | push {pool : ConstantPool} {c : Constant} (before : Grows old pool)
      (hnew : pool.index[c]? = none) (hroom : pool.size + c.slots ≤ 65535) :
      Grows old (pool.push c)

namespace Grows

variable {old pool next : ConstantPool}

/-- A pool that grows and grows again has grown. -/
theorem trans (first : Grows old pool) (second : Grows pool next) : Grows old next := by
  induction second with
  | refl => exact first
  | push _ hnew hroom ih => exact .push ih hnew hroom

/-- A pool that grows keeps its identity and its owner. -/
theorem id_eq (grows : Grows old pool) : pool.id = old.id ∧ pool.thisClass = old.thisClass := by
  induction grows with
  | refl => exact ⟨rfl, rfl⟩
  | push _ _ _ ih => exact ih

/-- A pool that grows keeps its slots and gets more behind them. -/
theorem exists_append (grows : Grows old pool) :
    ∃ added, pool.slots.toList = old.slots.toList ++ added := by
  induction grows with
  | refl => exact ⟨[], (List.append_nil _).symm⟩
  | @push pool c _ _ _ ih =>
    obtain ⟨added, hadded⟩ := ih
    refine ⟨added ++ c.row, ?_⟩
    rw [toList_slots_push, hadded, List.append_assoc]

/-- Every slot of a pool that grows stays as it is. -/
theorem getElem?_slots (grows : Grows old pool) {i : Nat} {slot : Option Constant}
    (h : old.slots[i]? = some slot) : pool.slots[i]? = some slot := by
  obtain ⟨added, hadded⟩ := grows.exists_append
  rw [← Array.getElem?_toList] at h ⊢
  rw [hadded, List.getElem?_append_left (List.getElem?_eq_some_iff.mp h).1, h]

/-- An entry stays at its index. -/
theorem entry (grows : Grows old pool) {i : UInt16} {c : Constant} (h : old.entry i = .ok c) :
    pool.entry i = .ok c :=
  entry_eq_ok_iff.mpr (grows.getElem?_slots (entry_eq_ok_iff.mp h))

/-- What a view shows at an index stays the same. -/
theorem expect (grows : Grows old pool) {α : Type} {kind : ConstantKind}
    {view : Constant → Option α} {i : UInt16} {a : α} (h : old.expect kind view i = .ok a) :
    pool.expect kind view i = .ok a := by
  obtain ⟨c, hentry, hview⟩ := bind_eq_ok_iff.mp h
  exact bind_eq_ok_iff.mpr ⟨c, grows.entry hentry, hview⟩

end Grows

/-! ## Edits that only add entries -/

/-- An edit that does no more to a pool than let it grow, be it with success or
not. -/
structure OnlyAdds {α : Type} (edit : Edit ConstantPool α) : Prop where
  /-- The pool has grown. -/
  grows : ∀ pool, Grows pool (edit.runOn pool).2

section OnlyAdds

variable {α β : Type}

/-- A run of an edit that only adds lets the pool grow. -/
theorem OnlyAdds.grows_of_eq {edit : Edit ConstantPool α} (h : OnlyAdds edit)
    {pool next : ConstantPool} {outcome : Except Error α}
    (hrun : edit.runOn pool = (outcome, next)) : Grows pool next := by
  have hgrows := h.grows pool
  rw [hrun] at hgrows
  exact hgrows

/-- A value that is given at once adds nothing. -/
theorem onlyAdds_pure (a : α) : OnlyAdds (pure a) := ⟨fun _ => .refl⟩

/-- A step that does not touch the pool adds nothing. -/
theorem onlyAdds_lift (result : Except Error α) :
    OnlyAdds (liftM result : Edit ConstantPool α) := ⟨fun _ => .refl⟩

/-- A step that fails adds nothing. -/
theorem onlyAdds_throw (e : Error) : OnlyAdds (throw e : Edit ConstantPool α) := ⟨fun _ => .refl⟩

/-- Looking at the pool adds nothing. -/
theorem onlyAdds_get : OnlyAdds (get : Edit ConstantPool ConstantPool) := ⟨fun _ => .refl⟩

/-- Of edits that only add, one after the other only adds. -/
theorem onlyAdds_bind {edit : Edit ConstantPool α} {next : α → Edit ConstantPool β}
    (hedit : OnlyAdds edit) (hnext : ∀ a, OnlyAdds (next a)) : OnlyAdds (edit >>= next) := by
  constructor
  intro pool
  rw [Edit.runOn_bind]
  rcases hrun : edit.runOn pool with ⟨outcome, between⟩
  have hgrows := hedit.grows_of_eq hrun
  cases outcome with
  | error e => exact hgrows
  | ok a => exact hgrows.trans ((hnext a).grows between)

/-- Interning an entry stores it at most once. -/
theorem onlyAdds_intern (c : Constant) : OnlyAdds (intern c) := by
  constructor
  intro pool
  unfold intern Edit.runOn
  simp only [ExceptT.mk, ExceptT.run]
  split
  · exact .refl
  · next hnew =>
    split
    · next hroom => exact .push .refl hnew hroom
    · exact .refl

/-- Interning a text only adds. -/
theorem onlyAdds_internText (text : String) : OnlyAdds (internText text) :=
  onlyAdds_intern _

/-- Interning an entry that names a text only adds. -/
theorem onlyAdds_internSymbol (kind : SymbolKind) (text : String) :
    OnlyAdds (internSymbol kind text) :=
  onlyAdds_bind (onlyAdds_internText text) fun _ => onlyAdds_intern _

/-- Interning a name with its descriptor only adds. -/
theorem onlyAdds_internNameAndType (name descriptor : String) :
    OnlyAdds (internNameAndType name descriptor) :=
  onlyAdds_bind (onlyAdds_internText name) fun _ =>
    onlyAdds_bind (onlyAdds_internText descriptor) fun _ => onlyAdds_intern _

/-- Interning a reference to a member only adds. -/
theorem onlyAdds_internMember (kind : MemberKind) (owner name descriptor : String) :
    OnlyAdds (internMember kind owner name descriptor) :=
  onlyAdds_bind (onlyAdds_internSymbol .classInfo owner) fun _ =>
    onlyAdds_bind (onlyAdds_internNameAndType name descriptor) fun _ => onlyAdds_intern _

section Copy

variable (source : ConstantPool) (names : Renaming)

/-- Copying a class only adds. -/
theorem onlyAdds_copyClass (i : UInt16) : OnlyAdds (source.copyClass names i) :=
  onlyAdds_bind (onlyAdds_lift _) fun _ => onlyAdds_internSymbol ..

/-- Copying a name with its descriptor only adds. -/
theorem onlyAdds_copyNameAndType (i : UInt16) : OnlyAdds (source.copyNameAndType names i) :=
  onlyAdds_bind (onlyAdds_lift _) fun _ => onlyAdds_bind (onlyAdds_lift _) fun _ =>
    onlyAdds_bind (onlyAdds_lift _) fun _ => onlyAdds_internNameAndType ..

/-- Copying a reference to a member only adds. -/
theorem onlyAdds_copyMember (i : UInt16) : OnlyAdds (source.copyMember names i) :=
  onlyAdds_bind (onlyAdds_lift _) fun _ => onlyAdds_bind (onlyAdds_copyClass ..) fun _ =>
    onlyAdds_bind (onlyAdds_copyNameAndType ..) fun _ => onlyAdds_intern _

/-- Copying an entry, and all that it refers to, only adds. -/
theorem onlyAdds_copy (i : UInt16) : OnlyAdds (source.copy names i) := by
  unfold copy
  split
  · exact onlyAdds_pure _
  · refine onlyAdds_bind (onlyAdds_lift _) fun c => ?_
    cases c with
    | text s => exact onlyAdds_internText s
    | symbol kind t => exact onlyAdds_bind (onlyAdds_lift _) fun _ => onlyAdds_internSymbol ..
    | member kind c n => exact onlyAdds_copyMember ..
    | nameAndType n d => exact onlyAdds_copyNameAndType ..
    | methodHandle kind r =>
      exact onlyAdds_bind (onlyAdds_copyMember ..) fun _ => onlyAdds_intern _
    | dynamic kind b n =>
      exact onlyAdds_bind (onlyAdds_copyNameAndType ..) fun _ => onlyAdds_intern _
    | _ => exact onlyAdds_intern _

end Copy

end OnlyAdds

end ConstantPool

end JvmClass
