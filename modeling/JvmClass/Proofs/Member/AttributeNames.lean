import JvmClass.Member.Method
import JvmClass.Proofs.Attribute.Format
import JvmClass.Proofs.ConstantPool.Interning
import Mathlib.Data.List.Nodup

/-!
# Names of the attributes of a method

An attribute that is added takes the place of all others with its name, and a body
or a list of exceptions that is put takes the place of all others of its kind. An
attribute whose bytes are kept as they are can have the name of a kind without being
of it, so the two do not agree: a body that is put behind such an attribute stands
next to it under the same name. What was done to a method tells whether that has
happened.
-/

namespace JvmClass

namespace AttributeKind

/-- Whether an attribute of a kind can have a name. -/
def Allows (kind : AttributeKind) (name : String) : Prop :=
  kind = .raw ∨ kind.name? = some name

/-- The kinds of attributes that methods put and take away by kind. -/
def OfMethods (kind : AttributeKind) : Prop :=
  kind = .code ∨ kind = .exceptions

/-- The name of a kind belongs to the kind. -/
theorem ofName_of_name?_eq {kind : AttributeKind} {name : String} (h : kind.name? = some name) :
    ofName name = kind := by
  cases kind <;> cases h <;> decide

/-- The names of the two kinds that methods put and take away. -/
theorem OfMethods.name_eq {kind : AttributeKind} (h : kind.OfMethods) {name : String}
    (hname : kind.name? = some name) :
    kind = .code ∧ name = "Code" ∨ kind = .exceptions ∧ name = "Exceptions" := by
  rcases h with rfl | rfl
  · exact .inl ⟨rfl, Option.some.inj (hname.symm.trans (by decide))⟩
  · exact .inr ⟨rfl, Option.some.inj (hname.symm.trans (by decide))⟩

/-- Attributes that are kept as they are can neither be put nor be taken away by kind. -/
theorem not_ofMethods_raw : ¬ AttributeKind.raw.OfMethods := by
  rintro (h | h) <;> cases h

end AttributeKind

/-! ## Histories -/

namespace Method

/-- What is done to the attributes of a method. -/
inductive Change where
  /-- An attribute of a kind is added under a name. -/
  | added (name : String) (kind : AttributeKind)
  /-- A payload is put in place of all others of its kind, under the name of the
  kind. -/
  | put (name : String) (kind : AttributeKind)
  /-- The attributes of a kind are taken away. -/
  | taken (kind : AttributeKind)
  deriving DecidableEq

namespace Change

/-- The names and kinds of attributes after a change. -/
def apply : Change → List (String × AttributeKind) → List (String × AttributeKind)
  | added name kind, entries => entries.filter (fun e => e.1 ≠ name) ++ [(name, kind)]
  | put name kind, entries => entries.filter (fun e => e.2 ≠ kind) ++ [(name, kind)]
  | taken kind, entries => entries.filter fun e => e.2 ≠ kind

/-- Whether a change can come about: names and kinds fit each other, and no other
kinds than those of methods are put or taken away. -/
inductive Lawful : Change → Prop
  /-- An attribute is added under a name that it can have. -/
  | added {name : String} {kind : AttributeKind} (hname : kind.Allows name) :
      Lawful (.added name kind)
  /-- A payload of a kind of methods is put. -/
  | put {name : String} {kind : AttributeKind} (hkind : kind.OfMethods)
      (hname : kind.name? = some name) : Lawful (.put name kind)
  /-- A kind of methods is taken away. -/
  | taken {kind : AttributeKind} (hkind : kind.OfMethods) : Lawful (.taken kind)

/-- Whether a change adds an attribute under a name. -/
def addsUnder (name : String) : Change → Bool
  | added n _ => n = name
  | _ => false

/-- Whether the attributes of a kind, of which the name is given, are others after a
change. -/
def concerns (name : String) (kind : AttributeKind) : Change → Bool
  | added n _ => n = name
  | put _ k => k = kind
  | taken k => k = kind

end Change

/-- The names and kinds of attributes after a history, the last change of which comes
first. -/
def replay (history : List Change) : List (String × AttributeKind) :=
  history.foldr Change.apply []

/-- A history has let two attributes of one name stand side by side: the last
attribute that was added under the name is kept as it is, and what was done to the
kind of the name after that has ended with a payload that was put. -/
def Clash (history : List Change) (name : String) (kind : AttributeKind) : Prop :=
  history.find? (Change.addsUnder name) = some (.added name .raw) ∧
    history.find? (Change.concerns name kind) = some (.put name kind)

instance (history : List Change) (name : String) (kind : AttributeKind) :
    Decidable (Clash history name kind) :=
  inferInstanceAs (Decidable (_ ∧ _))

section Histories

variable {history : List Change} {name : String} {kind : AttributeKind}

/-- A change that does not concern the attributes of a kind keeps the entry of the
kind. -/
theorem mem_apply_iff_of_not_concerns {change : Change} (h : ¬ change.concerns name kind)
    (entries : List (String × AttributeKind)) :
    (name, kind) ∈ change.apply entries ↔ (name, kind) ∈ entries := by
  cases change with
  | added n k =>
    have hne : name ≠ n := fun heq => h (decide_eq_true heq.symm)
    simp [Change.apply, hne]
  | put n k | taken k =>
    have hne : kind ≠ k := fun heq => h (decide_eq_true heq.symm)
    simp [Change.apply, hne]

/-- An entry that is there has a name that its kind allows. -/
theorem allows_of_mem_replay (hlawful : ∀ change ∈ history, change.Lawful)
    (h : (name, kind) ∈ replay history) : kind.Allows name := by
  induction history with
  | nil => cases h
  | cons change history ih =>
    have hbefore := ih fun c hc => hlawful c (List.mem_cons_of_mem _ hc)
    cases hlawful change List.mem_cons_self with
    | added hname =>
      rcases List.mem_append.mp h with hold | hnew
      · exact hbefore (List.mem_filter.mp hold).1
      · cases List.mem_singleton.mp hnew
        exact hname
    | put _ hname =>
      rcases List.mem_append.mp h with hold | hnew
      · exact hbefore (List.mem_filter.mp hold).1
      · cases List.mem_singleton.mp hnew
        exact .inr hname
    | taken => exact hbefore (List.mem_filter.mp h).1

/-- No entry is there twice. -/
theorem nodup_replay (history : List Change) : (replay history).Nodup := by
  induction history with
  | nil => exact List.nodup_nil
  | cons change history ih =>
    have hnew : ∀ (p : String × AttributeKind → Bool) (e : String × AttributeKind),
        p e = false → ((replay history).filter p ++ [e]).Nodup := by
      intro p e he
      refine List.nodup_append.mpr ⟨ih.filter p, List.nodup_singleton e, ?_⟩
      rintro old hold _ hlast rfl
      cases List.mem_singleton.mp hlast
      rw [(List.mem_filter.mp hold).2] at he
      cases he
    cases change with
    | added name kind => exact hnew _ _ (decide_eq_false (not_not_intro rfl))
    | put name kind => exact hnew _ _ (decide_eq_false (not_not_intro rfl))
    | taken kind => exact ih.filter _

/-- An attribute is there if the last change that concerns it was to put or to add
it. -/
theorem mem_replay_iff (hlawful : ∀ change ∈ history, change.Lawful) (hname : kind.Allows name) :
    (name, kind) ∈ replay history ↔
      history.find? (Change.concerns name kind) = some (.put name kind) ∨
        history.find? (Change.concerns name kind) = some (.added name kind) := by
  induction history with
  | nil => exact iff_of_false List.not_mem_nil (by rintro (h | h) <;> cases h)
  | cons change history ih =>
    have hbefore := ih fun c hc => hlawful c (List.mem_cons_of_mem _ hc)
    by_cases hconcerns : change.concerns name kind
    · rw [List.find?_cons_of_pos hconcerns]
      cases hlawful change List.mem_cons_self with
      | added =>
        cases of_decide_eq_true hconcerns
        simp [replay, Change.apply, eq_comm]
      | put _ hn =>
        cases of_decide_eq_true hconcerns
        -- the payload is put under the name of its kind, which no other kind has
        have hsame : kind.name? = some name := hname.resolve_left (by rintro rfl; cases hn)
        cases hsame.symm.trans hn
        simp [replay, Change.apply]
      | taken =>
        cases of_decide_eq_true hconcerns
        simp [replay, Change.apply]
    · rw [List.find?_cons_of_neg hconcerns, ← hbefore]
      exact mem_apply_iff_of_not_concerns hconcerns _

/-- If the last change that concerns a kind has added an attribute under its name,
then it is the last one that did. -/
theorem find?_addsUnder_of_find?_concerns {k : AttributeKind}
    (h : history.find? (Change.concerns name kind) = some (.added name k)) :
    history.find? (Change.addsUnder name) = some (.added name k) := by
  obtain ⟨-, later, earlier, rfl, hlater⟩ := List.find?_eq_some_iff_append.mp h
  refine List.find?_eq_some_iff_append.mpr
    ⟨decide_eq_true rfl, later, earlier, rfl, fun change hchange => ?_⟩
  have hnot := hlater change hchange
  cases change with
  | added => exact hnot
  | put | taken => rfl

/-- Only additions concern a kind that is never put and never taken away. -/
theorem find?_concerns_of_not_ofMethods (hlawful : ∀ change ∈ history, change.Lawful)
    (hkind : ¬ kind.OfMethods) :
    history.find? (Change.concerns name kind) = history.find? (Change.addsUnder name) := by
  induction history with
  | nil => rfl
  | cons change history ih =>
    have hbefore := ih fun c hc => hlawful c (List.mem_cons_of_mem _ hc)
    have hsame : change.concerns name kind = change.addsUnder name := by
      cases hlawful change List.mem_cons_self with
      | added => rfl
      | put hk | taken hk => exact decide_eq_false fun heq => hkind (heq ▸ hk)
    rw [List.find?_cons, List.find?_cons, hsame, hbefore]

/-- An attribute of a kind that is never put is there if it was the last one that was
added under its name. -/
theorem mem_replay_iff_of_not_ofMethods (hlawful : ∀ change ∈ history, change.Lawful)
    (hname : kind.Allows name) (hkind : ¬ kind.OfMethods) :
    (name, kind) ∈ replay history ↔
      history.find? (Change.addsUnder name) = some (.added name kind) := by
  rw [mem_replay_iff hlawful hname, find?_concerns_of_not_ofMethods hlawful hkind]
  refine or_iff_right fun hput => ?_
  cases List.find?_some hput

/-- An attribute that is kept as it is and another one under the same name come from
a clash. -/
theorem clash_of_mem_replay (hlawful : ∀ change ∈ history, change.Lawful)
    (hraw : (name, .raw) ∈ replay history) (hnamed : (name, kind) ∈ replay history)
    (hkind : kind ≠ .raw) : kind.OfMethods ∧ Clash history name kind := by
  have hname := allows_of_mem_replay hlawful hnamed
  have hlast := (mem_replay_iff_of_not_ofMethods hlawful (.inl rfl)
    AttributeKind.not_ofMethods_raw).mp hraw
  have hother : history.find? (Change.addsUnder name) ≠ some (.added name kind) := fun h =>
    hkind (by cases hlast.symm.trans h; rfl)
  by_cases hmethods : kind.OfMethods
  · rcases (mem_replay_iff hlawful hname).mp hnamed with hput | hadded
    · exact ⟨hmethods, hlast, hput⟩
    · exact absurd (find?_addsUnder_of_find?_concerns hadded) hother
  · exact absurd ((mem_replay_iff_of_not_ofMethods hlawful hname hmethods).mp hnamed) hother

/-- The names are different unless there is a clash about a body or about a list of
exceptions. -/
theorem nodup_names_replay_iff (hlawful : ∀ change ∈ history, change.Lawful) :
    ((replay history).map Prod.fst).Nodup ↔
      ¬ Clash history "Code" .code ∧ ¬ Clash history "Exceptions" .exceptions := by
  constructor
  · intro hnodup
    have hnone : ∀ {name : String} {kind : AttributeKind}, kind.name? = some name →
        ¬ Clash history name kind := by
      rintro name kind hname ⟨hadded, hput⟩
      have hraw := (mem_replay_iff_of_not_ofMethods hlawful (.inl rfl)
        AttributeKind.not_ofMethods_raw).mpr hadded
      have hnamed := (mem_replay_iff hlawful (.inr hname)).mpr (.inl hput)
      cases List.inj_on_of_nodup_map hnodup hraw hnamed rfl
      cases hname
    exact ⟨hnone rfl, hnone rfl⟩
  · rintro ⟨hcode, hexceptions⟩
    -- without a clash, what is kept as it is shares its name with nothing else
    have hraw : ∀ {name : String} {kind : AttributeKind}, (name, .raw) ∈ replay history →
        (name, kind) ∈ replay history → kind = .raw := by
      intro name kind hraw hnamed
      by_contra hkind
      have hname := (allows_of_mem_replay hlawful hnamed).resolve_left hkind
      obtain ⟨hmethods, hclash⟩ := clash_of_mem_replay hlawful hraw hnamed hkind
      rcases hmethods.name_eq hname with ⟨rfl, rfl⟩ | ⟨rfl, rfl⟩
      · exact hcode hclash
      · exact hexceptions hclash
    refine (nodup_replay history).map_on ?_
    rintro ⟨name, first⟩ hfirst ⟨_, second⟩ hsecond rfl
    rcases allows_of_mem_replay hlawful hfirst with rfl | hname
    · rw [hraw hfirst hsecond]
    · rcases allows_of_mem_replay hlawful hsecond with rfl | hother
      · rw [hraw hsecond hfirst]
      · rw [← AttributeKind.ofName_of_name?_eq hname, AttributeKind.ofName_of_name?_eq hother]

end Histories

end Method

/-! ## Attributes with their names and kinds -/

namespace Attribute

/-- A list of attributes shows certain names and kinds in a pool. -/
def Show (pool : ConstantPool) (list : List Attribute) (entries : List (String × AttributeKind)) :
    Prop :=
  list.map (fun a => (a.name pool, a.kind)) = entries.map fun e => (.ok e.1, e.2)

section Show

variable {pool : ConstantPool} {list : List Attribute} {entries : List (String × AttributeKind)}

/-- Attributes show the same in a pool that has grown. -/
theorem Show.grows (h : Show pool list entries) {next : ConstantPool} (hgrows : pool.Grows next) :
    Show next list entries := by
  refine (List.map_congr_left fun a ha => ?_).trans h
  obtain ⟨e, -, he⟩ := List.mem_map.mp (h ▸ List.mem_map_of_mem ha)
  have hname : a.name pool = .ok e.1 := (Prod.ext_iff.mp he).1.symm
  have hlater : a.name next = .ok e.1 := hgrows.text hname
  rw [hname, hlater]

/-- One more attribute shows one more name and kind. -/
theorem Show.append (h : Show pool list entries) {a : Attribute} {name : String}
    (hname : a.name pool = .ok name) : Show pool (list ++ [a]) (entries ++ [(name, a.kind)]) := by
  unfold Show at h ⊢
  rw [List.map_append, List.map_append, h, List.map_singleton, List.map_singleton, hname]

/-- Attributes that are chosen by name and kind show the names and kinds that are
chosen. -/
theorem Show.filter (h : Show pool list entries) {p : Attribute → Bool}
    {q : String × AttributeKind → Bool}
    (hsame : ∀ (a : Attribute) (name : String), a.name pool = .ok name → p a = q (name, a.kind)) :
    Show pool (list.filter p) (entries.filter q) := by
  induction list generalizing entries with
  | nil =>
    rw [List.map_eq_nil_iff.mp h.symm]
    rfl
  | cons a list ih =>
    obtain ⟨⟨name, kind⟩, entries, rfl, he, hrest⟩ := List.map_eq_cons_iff.mp h.symm
    obtain ⟨hname, rfl⟩ := Prod.ext_iff.mp he
    have hlater := ih hrest.symm
    rw [List.filter_cons, List.filter_cons, hsame a name hname.symm]
    split
    · exact congrArg₂ List.cons he.symm hlater
    · exact hlater

end Show

/-- An attribute was made in a pool, which may have grown since. -/
inductive MadeIn (a : Attribute) (pool : ConstantPool) : Prop
  /-- It carries a payload of a recognized kind. -/
  | ofBody {wasRead : Bool} {before after : ConstantPool} {body : AttributeBody}
      (hbefore : before.Reachable wasRead)
      (hrun : (Attribute.ofBody body).runOn before = (.ok a, after)) (hgrows : after.Grows pool) :
      a.MadeIn pool
  /-- It has a name of its own, and bytes that are kept as they are. -/
  | ofRaw {wasRead : Bool} {before after : ConstantPool} {name : String} {bytes : List UInt8}
      (hbefore : before.Reachable wasRead)
      (hrun : (Attribute.ofRaw name bytes).runOn before = (.ok a, after))
      (hgrows : after.Grows pool) : a.MadeIn pool

/-- Making an attribute of a recognized kind only adds to the pool. -/
theorem onlyAdds_ofBody (body : AttributeBody) : ConstantPool.OnlyAdds (ofBody body) := by
  unfold ofBody
  split
  · exact ConstantPool.onlyAdds_bind (ConstantPool.onlyAdds_internText _) fun _ =>
      ConstantPool.onlyAdds_pure _
  · exact ConstantPool.onlyAdds_throw _

/-- Making an attribute of a recognized kind interns the name of the kind. -/
theorem internText_of_ofBody {pool next : ConstantPool} {body : AttributeBody} {a : Attribute}
    (hrun : (ofBody body).runOn pool = (.ok a, next)) :
    a.body = body ∧ ∃ name, body.kind.name? = some name ∧
      (ConstantPool.internText name).runOn pool = (.ok a.nameIndex, next) := by
  unfold ofBody at hrun
  cases hname : body.kind.name? with
  | none =>
    rw [hname] at hrun
    cases hrun
  | some name =>
    rw [hname] at hrun
    obtain ⟨i, between, htext, hpure⟩ := (Edit.runOn_bind_eq_ok_iff pool).mp hrun
    cases hpure
    exact ⟨rfl, name, rfl, htext⟩

/-- An attribute of a recognized kind has the name of the kind. -/
theorem name_of_ofBody {pool next : ConstantPool} {body : AttributeBody} {a : Attribute}
    (hpool : pool.Consistent) (hrun : (ofBody body).runOn pool = (.ok a, next)) :
    a.kind = body.kind ∧ ∃ name, body.kind.name? = some name ∧ a.name next = .ok name := by
  obtain ⟨rfl, name, hname, htext⟩ := internText_of_ofBody hrun
  exact ⟨rfl, name, hname, ConstantPool.text_of_internText hpool htext⟩

/-- An attribute that was made in a pool has a name that its kind allows. -/
theorem MadeIn.exists_name {a : Attribute} {pool : ConstantPool} (h : a.MadeIn pool) :
    ∃ name, a.name pool = .ok name ∧ a.kind.Allows name := by
  cases h with
  | ofBody hbefore hrun hgrows =>
    obtain ⟨hkind, name, hname, hshown⟩ := name_of_ofBody hbefore.consistent hrun
    exact ⟨name, hgrows.text hshown, .inr (hkind ▸ hname)⟩
  | @ofRaw _ before after name bytes hbefore hrun hgrows =>
    obtain ⟨i, between, htext, hpure⟩ := (Edit.runOn_bind_eq_ok_iff before).mp hrun
    cases hpure
    have hshown := ConstantPool.text_of_internText hbefore.consistent htext
    exact ⟨name, hgrows.text hshown, .inl rfl⟩

end Attribute

/-! ## Methods with a history -/

namespace Method

/-- The methods that can be built in a pool without reading any, with the changes of
their attributes, the last one first. -/
inductive Built : List Change → ConstantPool → Method → Prop
  /-- A new method. -/
  | create {wasRead : Bool} {pool next : ConstantPool} {name descriptor : String} {m : Method}
      (hpool : pool.Reachable wasRead)
      (hrun : (Method.create name descriptor).runOn pool = (.ok m, next)) : Built [] next m
  /-- The pool has grown. -/
  | grown {history : List Change} {pool next : ConstantPool} {m : Method}
      (before : Built history pool m) (hgrows : pool.Grows next) : Built history next m
  /-- An attribute that was made in the pool is added. -/
  | added {history : List Change} {pool : ConstantPool} {m next : Method} {a : Attribute}
      {name : String} (before : Built history pool m) (hmade : a.MadeIn pool)
      (hname : a.name pool = .ok name) (hrun : m.addAttribute pool a = .ok next) :
      Built (.added name a.kind :: history) pool next
  /-- A body or a list of exceptions is put. -/
  | put {history : List Change} {pool later : ConstantPool} {m next : Method}
      {body : AttributeBody} {name : String} (before : Built history pool m)
      (hkind : body.kind.OfMethods) (hname : body.kind.name? = some name)
      (hrun : (replaceKind body).runOn (pool, m) = (.ok (), later, next)) :
      Built (.put name body.kind :: history) later next
  /-- A body or a list of exceptions is put, but there is no room for the name of its
  kind. -/
  | notPut {history : List Change} {pool later : ConstantPool} {m next : Method}
      {body : AttributeBody} {e : Error} (before : Built history pool m)
      (hkind : body.kind.OfMethods)
      (hrun : (replaceKind body).runOn (pool, m) = (.error e, later, next)) :
      Built (.taken body.kind :: history) later next
  /-- The body or the list of exceptions is taken away. -/
  | taken {history : List Change} {pool : ConstantPool} {m : Method} {kind : AttributeKind}
      (before : Built history pool m) (hkind : kind.OfMethods) :
      Built (.taken kind :: history) pool (m.removeKind kind)

/-- The attributes of a method without those of a kind. -/
theorem attributeList_removeKind (m : Method) (kind : AttributeKind) :
    (m.removeKind kind).attributeList = Attribute.removeByKind kind m.attributeList := by
  unfold Method.removeKind attributeList
  cases m.attributes <;> rfl

/-- The attributes without those of a kind show the others. -/
theorem show_removeKind {m : Method} {pool : ConstantPool}
    {entries : List (String × AttributeKind)} (h : Attribute.Show pool m.attributeList entries)
    (kind : AttributeKind) :
    Attribute.Show pool (m.removeKind kind).attributeList ((Change.taken kind).apply entries) := by
  rw [attributeList_removeKind]
  exact h.filter fun _ _ _ => rfl

/-- The attributes after one was added show it behind those of other names. -/
theorem show_addAttribute {m next : Method} {pool : ConstantPool}
    {entries : List (String × AttributeKind)} (h : Attribute.Show pool m.attributeList entries)
    {a : Attribute} {name : String} (hname : a.name pool = .ok name)
    (hrun : m.addAttribute pool a = .ok next) :
    Attribute.Show pool next.attributeList ((Change.added name a.kind).apply entries) := by
  unfold Method.addAttribute Attribute.replaceByName at hrun
  rw [hname] at hrun
  cases hrun
  refine Attribute.Show.append (h.filter fun other found hfound => ?_) hname
  unfold Attribute.hasName
  rw [hfound]
  show (!(found == name)) = decide (¬ found = name)
  rw [beq_eq_decide, decide_not]

/-- What a run of putting a payload comes to: the others of its kind are gone, and
the payload stands behind the rest unless its name finds no room. -/
theorem runOn_replaceKind (body : AttributeBody) (pool : ConstantPool) (m : Method) :
    (replaceKind body).runOn (pool, m) =
      match (Attribute.ofBody body).runOn pool with
      | (.ok a, later) => (.ok (), later,
          { m.removeKind body.kind with
            attributes := some ((m.removeKind body.kind).attributeList ++ [a]) })
      | (.error e, later) => (.error e, later, m.removeKind body.kind) := rfl

/-- A method shows the names and kinds that its history leads to, and its history
is lawful. -/
structure Settled (history : List Change) (pool : ConstantPool) (m : Method) : Prop where
  /-- The pool agrees with its index. -/
  consistent : pool.Consistent
  /-- Names and kinds fit each other in the history. -/
  lawful : ∀ change ∈ history, change.Lawful
  /-- The attributes are those that the history leads to. -/
  shows : Attribute.Show pool m.attributeList (replay history)

/-- Every method that is built is settled. -/
theorem Built.settled {history : List Change} {pool : ConstantPool} {m : Method}
    (h : Built history pool m) : Settled history pool m := by
  induction h with
  | @create _ pool next name descriptor m hpool hrun =>
    obtain ⟨i, between, hname, hrun⟩ := (Edit.runOn_bind_eq_ok_iff pool).mp hrun
    obtain ⟨j, last, hdescriptor, hrun⟩ := (Edit.runOn_bind_eq_ok_iff between).mp hrun
    cases hrun
    have hbetween := (ConstantPool.onlyAdds_internText name).grows_of_eq hname
    have hlast := (ConstantPool.onlyAdds_internText descriptor).grows_of_eq hdescriptor
    exact ⟨(hbetween.trans hlast).consistent hpool.consistent, nofun, rfl⟩
  | grown _ hgrows ih => exact ⟨hgrows.consistent ih.consistent, ih.lawful, ih.shows.grows hgrows⟩
  | added _ hmade hname hrun ih =>
    obtain ⟨found, hfound, hallows⟩ := hmade.exists_name
    cases hname.symm.trans hfound
    exact ⟨ih.consistent, List.forall_mem_cons.mpr ⟨.added hallows, ih.lawful⟩,
      show_addAttribute ih.shows hname hrun⟩
  | @put _ pool _ m _ body _ _ hkind hname hrun ih =>
    rw [runOn_replaceKind] at hrun
    split at hrun
    · next a later hmake =>
      cases hrun
      obtain ⟨hsame, found, hfound, hshown⟩ := Attribute.name_of_ofBody ih.consistent hmake
      cases hname.symm.trans hfound
      have hgrows := (Attribute.onlyAdds_ofBody body).grows_of_eq hmake
      have hrest := (show_removeKind ih.shows body.kind).grows hgrows
      exact ⟨hgrows.consistent ih.consistent,
        List.forall_mem_cons.mpr ⟨.put hkind hname, ih.lawful⟩, hsame ▸ hrest.append hshown⟩
    · cases hrun
  | @notPut _ pool _ m _ body _ _ hkind hrun ih =>
    rw [runOn_replaceKind] at hrun
    split at hrun
    · cases hrun
    · next e later hmake =>
      cases hrun
      have hgrows := (Attribute.onlyAdds_ofBody body).grows_of_eq hmake
      exact ⟨hgrows.consistent ih.consistent,
        List.forall_mem_cons.mpr ⟨.taken hkind, ih.lawful⟩,
        (show_removeKind ih.shows body.kind).grows hgrows⟩
  | @taken _ _ _ kind _ hkind ih =>
    exact ⟨ih.consistent, List.forall_mem_cons.mpr ⟨.taken hkind, ih.lawful⟩,
      show_removeKind ih.shows kind⟩

/-- All attributes of a method that is built have names, and these differ exactly if
the method has no history of a body or a list of exceptions that was put behind an
attribute of its name. -/
theorem Built.names_nodup_iff {history : List Change} {pool : ConstantPool} {m : Method}
    (h : Built history pool m) :
    (∀ a ∈ m.attributeList, ∃ name, a.name pool = .ok name) ∧
      ((m.attributeList.map fun a => a.name pool).Nodup ↔
        ¬ Clash history "Code" .code ∧ ¬ Clash history "Exceptions" .exceptions) := by
  obtain ⟨-, hlawful, hshows⟩ := h.settled
  have hnames : m.attributeList.map (fun a => a.name pool) =
      ((replay history).map Prod.fst).map Except.ok := by
    have hfirst := congrArg (List.map Prod.fst) hshows
    rw [List.map_map, List.map_map] at hfirst
    rw [List.map_map]
    exact hfirst
  constructor
  · intro a ha
    obtain ⟨name, -, hname⟩ := List.mem_map.mp (hnames ▸ List.mem_map_of_mem ha)
    exact ⟨name, hname.symm⟩
  · rw [hnames, List.nodup_map_iff fun _ _ => Except.ok.inj]
    exact nodup_names_replay_iff hlawful

/-! ## Two orders of the same changes -/

/-- The pool of names is read. -/
theorem reachable_attributeNames : attributeNames.Reachable true := by
  have hdecode : ConstantPool.decode 0 ([0, 4, 1, 0, 4, 67, 111, 100, 101, 1, 0, 1, 88, 1, 0, 13] ++
      [83, 116, 97, 99, 107, 77, 97, 112, 84, 97, 98, 108, 101]) = .ok (attributeNames, []) := rfl
  exact .decode hdecode

/-- The name of bodies is stored. -/
theorem internText_code :
    (ConstantPool.internText "Code").runOn attributeNames = (.ok 1, attributeNames) := by
  refine ConstantPool.runOn_intern_of_isFirst reachable_attributeNames.consistent ?_
  unfold ConstantPool.IsFirst
  decide +kernel

/-- A method without attributes. -/
def bareMethod : Method := ⟨.none, 1, 1, none⟩

/-- An attribute with the name of bodies and bytes that are kept as they are. -/
def keptCode : Attribute := ⟨1, .data (.raw [0xb1])⟩

/-- A body of one return. -/
def returnCode : Code := ⟨0, 0, #[0xb1], [], []⟩

/-- The method is built. -/
theorem built_bareMethod : Built [] attributeNames bareMethod := by
  have hrun : (Method.create "Code" "Code").runOn attributeNames =
      (.ok bareMethod, attributeNames) := by
    refine (Edit.runOn_bind_eq_ok_iff _).mpr ⟨1, _, internText_code, ?_⟩
    exact (Edit.runOn_bind_eq_ok_iff _).mpr ⟨1, _, internText_code, rfl⟩
  exact .create reachable_attributeNames hrun

/-- The attribute is made. -/
theorem madeIn_keptCode : keptCode.MadeIn attributeNames := by
  have hrun : (Attribute.ofRaw "Code" [0xb1]).runOn attributeNames =
      (.ok keptCode, attributeNames) :=
    (Edit.runOn_bind_eq_ok_iff _).mpr ⟨1, _, internText_code, rfl⟩
  exact .ofRaw reachable_attributeNames hrun .refl

/-- The body is put. -/
theorem runOn_replaceKind_returnCode (m : Method) :
    (replaceKind (.code returnCode)).runOn (attributeNames, m) = (.ok (), attributeNames,
      { m.removeKind .code with
        attributes := some ((m.removeKind .code).attributeList ++ [⟨1, .code returnCode⟩]) }) := by
  have hmake : (Attribute.ofBody (.code returnCode)).runOn attributeNames =
      (.ok ⟨1, .code returnCode⟩, attributeNames) :=
    (Edit.runOn_bind_eq_ok_iff _).mpr ⟨1, _, internText_code, rfl⟩
  rw [runOn_replaceKind, hmake]
  rfl

/-- A body that is put first gives way to the attribute of its name. -/
theorem Built.names_nodup_iff_put_added :
    ∃ m, Built [.added "Code" .raw, .put "Code" .code] attributeNames m ∧
      (m.attributeList.map fun a => a.name attributeNames).Nodup := by
  have hname : keptCode.name attributeNames = .ok "Code" := by decide +kernel
  obtain ⟨before, hput⟩ : ∃ before, Built [.put "Code" .code] attributeNames before :=
    ⟨_, .put built_bareMethod (.inl rfl) rfl (runOn_replaceKind_returnCode bareMethod)⟩
  obtain ⟨m, hrun⟩ : ∃ m, before.addAttribute attributeNames keptCode = .ok m := ⟨_, rfl⟩
  have hbuilt : Built [.added "Code" .raw, .put "Code" .code] attributeNames m :=
    .added hput madeIn_keptCode hname hrun
  exact ⟨m, hbuilt, (Built.names_nodup_iff hbuilt).2.mpr ⟨by decide, by decide⟩⟩

/-- A body that is put behind an attribute of its name stands next to it. -/
theorem Built.not_names_nodup :
    ∃ m, Built [.put "Code" .code, .added "Code" .raw] attributeNames m ∧
      ¬ (m.attributeList.map fun a => a.name attributeNames).Nodup := by
  have hname : keptCode.name attributeNames = .ok "Code" := by decide +kernel
  obtain ⟨m, hrun⟩ : ∃ m, bareMethod.addAttribute attributeNames keptCode = .ok m := ⟨_, rfl⟩
  have hadded : Built [.added "Code" .raw] attributeNames m :=
    .added built_bareMethod madeIn_keptCode hname hrun
  refine ⟨_, .put hadded (.inl rfl) rfl (runOn_replaceKind_returnCode m), ?_⟩
  cases hrun
  exact fun h => (List.nodup_cons.mp h).1 List.mem_cons_self

end Method

end JvmClass
