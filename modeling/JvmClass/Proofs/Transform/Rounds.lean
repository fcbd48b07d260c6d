import JvmClass.Proofs.Code.Tending
import JvmClass.Proofs.RelatedLists
import JvmClass.Proofs.Transform.Recording

/-!
# Rounds of a chain

A chain goes over a body in rounds, one instruction in each. While its stages do no
more than tend the instruction that they are given, all that they add lies before
the cursor. So the instructions that are still to come are those of the old body,
and every stage is called for each of them once, where it then is, and for nothing
else.
-/

namespace JvmClass

variable {τ : Type} [Stage τ]

namespace Chain

/-- The instruction at a position is taken through stages, none of which fails. The
second position is the one to which it has moved in the end. -/
inductive Passes (hierarchy : TypeHierarchy) :
    Nat → Chain τ → Workbench → Nat → Chain τ → Workbench → Prop where
  /-- There is no stage left. -/
  | done (position : Nat) (bench : Workbench) : Passes hierarchy position [] bench position [] bench
  /-- A stage makes a visit, and the others follow. -/
  | visit {position moved final : Nat} {stage stage' : τ} {stages stages' : Chain τ}
      {bench mid last : Workbench}
      (h : (Stage.visit hierarchy position).runOn (stage, bench) = (.ok moved, stage', mid))
      (later : Passes hierarchy moved stages mid final stages' last) :
      Passes hierarchy position (stage :: stages) bench final (stage' :: stages') last

/-- So many instructions in a row are taken through all stages, without bound on
their number. -/
inductive Rounds (hierarchy : TypeHierarchy) :
    Nat → Chain τ → Workbench → Chain τ → Workbench → Prop where
  /-- No round is made. -/
  | none (stages : Chain τ) (bench : Workbench) : Rounds hierarchy 0 stages bench stages bench
  /-- The cursor passes the next instruction, the stages visit it, and other rounds
  follow. -/
  | round {count position final : Nat} {stages mid last : Chain τ} {pool : ConstantPool}
      {cursor passed : Cursor} {between bench : Workbench}
      (hnext : cursor.hasNext = true)
      (hpassed : Cursor.next.runOn cursor = (.ok position, passed))
      (pass : Passes hierarchy position stages ⟨pool, passed⟩ final mid between)
      (later : Rounds hierarchy count mid between last bench) :
      Rounds hierarchy (count + 1) stages ⟨pool, cursor⟩ last bench

variable {hierarchy : TypeHierarchy}

/-- A visit by all stages that succeeds is a pass through them. -/
theorem passes_of_visitAt {position final : Nat} {done stages out : Chain τ}
    {bench last : Workbench}
    (h : visitAt hierarchy position done stages bench = (.ok final, out, last)) :
    ∃ stages', out = done.reverse ++ stages' ∧
      Passes hierarchy position stages bench final stages' last := by
  induction stages generalizing position done bench with
  | nil =>
    cases h
    exact ⟨[], (List.append_nil _).symm, .done _ _⟩
  | cons stage stages ih =>
    unfold visitAt at h
    rcases hvisit : (Stage.visit hierarchy position).runOn (stage, bench) with
      ⟨outcome, stage', mid⟩
    rw [hvisit] at h
    cases outcome with
    | error e => cases h
    | ok moved =>
      obtain ⟨stages', hout, hlater⟩ := ih h
      refine ⟨stage' :: stages', ?_, .visit hvisit hlater⟩
      rw [hout, List.reverse_cons, List.append_assoc]
      rfl

/-- A walk that succeeds is a row of rounds. It ends at the end of the body, unless
it has made all its steps. -/
theorem rounds_of_walk {steps : Nat} {stages final : Chain τ} {bench last : Workbench}
    (h : walk hierarchy steps stages bench = (.ok (), final, last)) :
    ∃ count ≤ steps, Rounds hierarchy count stages bench final last ∧
      (last.cursor.hasNext = true → count = steps) := by
  induction steps generalizing stages bench with
  | zero =>
    cases h
    exact ⟨0, Nat.le_refl _, .none _ _, fun _ => rfl⟩
  | succ steps ih =>
    obtain ⟨pool, cursor⟩ := bench
    unfold walk at h
    split at h
    · next hnext =>
      rcases hpassed : Cursor.next.runOn cursor with ⟨outcome, passed⟩
      rw [hpassed] at h
      cases outcome with
      | error e => cases h
      | ok position =>
        simp only at h
        rcases hvisited : visitAt hierarchy position [] stages ⟨pool, passed⟩ with
          ⟨outcome, mid, between⟩
        rw [hvisited] at h
        cases outcome with
        | error e => cases h
        | ok moved =>
          obtain ⟨mid', hmid, pass⟩ := passes_of_visitAt hvisited
          obtain rfl : mid = mid' := hmid
          obtain ⟨count, hcount, rounds, hend⟩ := ih h
          exact ⟨count + 1, Nat.succ_le_succ hcount, .round hnext hpassed pass rounds,
            fun hmore => congrArg (· + 1) (hend hmore)⟩
    · next hnext =>
      cases h
      exact ⟨0, Nat.zero_le _, .none _ _, fun hmore => absurd hmore hnext⟩

/-! ## Rounds of recorded stages -/

section Recorded

variable {chain chain' : Chain (Recorded τ)} {bench last : Workbench} {position final count : Nat}

/-- A recorded visit is the visit of the stage, and is the last in its record. -/
theorem visit_of_recorded {recorded recorded' : Recorded τ} {outcome : Except Error Nat}
    (h : (Stage.visit hierarchy position).runOn (recorded, bench) = (outcome, recorded', last)) :
    (Stage.visit hierarchy position).runOn (recorded.stage, bench) =
        (outcome, recorded'.stage, last) ∧
      recorded'.visits = ⟨position, recorded.stage, bench, last⟩ :: recorded.visits := by
  rw [Recorded.runOn_visit] at h
  cases h
  exact ⟨rfl, rfl⟩

/-- A pass through recorded stages is one through the stages. -/
theorem Passes.stages (pass : Passes hierarchy position chain bench final chain' last) :
    Passes hierarchy position (Recorded.stages chain) bench final (Recorded.stages chain')
      last := by
  induction pass with
  | done => exact .done _ _
  | visit h _ ih => exact .visit (visit_of_recorded h).1 ih

/-- Rounds of recorded stages are rounds of the stages. -/
theorem Rounds.stages (rounds : Rounds hierarchy count chain bench chain' last) :
    Rounds hierarchy count (Recorded.stages chain) bench (Recorded.stages chain') last := by
  induction rounds with
  | none => exact .none _ _
  | round hnext hpassed pass _ ih => exact .round hnext hpassed pass.stages ih

/-- A pass adds to the records. -/
theorem Passes.suffix (pass : Passes hierarchy position chain bench final chain' last) :
    List.Forall₂ (fun old new => old.visits <:+ new.visits) chain chain' := by
  induction pass with
  | done => exact .nil
  | visit h _ ih =>
    refine .cons ?_ ih
    rw [(visit_of_recorded h).2]
    exact List.suffix_cons _ _

/-- Rounds add to the records. -/
theorem Rounds.suffix (rounds : Rounds hierarchy count chain bench chain' last) :
    List.Forall₂ (fun old new => old.visits <:+ new.visits) chain chain' := by
  induction rounds with
  | none => exact List.forall₂_same.mpr fun _ _ => List.suffix_rfl
  | round _ _ pass _ ih => exact forall₂_trans pass.suffix ih fun _ _ _ => List.IsSuffix.trans

end Recorded

end Chain

/-! ## Visits to tended instructions -/

/-- A visit tends the instruction that it is made to, if it is made to one and
succeeds. -/
def Visit.Tends (hierarchy : TypeHierarchy) (v : Visit τ) : Prop :=
  v.before.cursor.IsAt v.position → ∀ final stage after,
    (Stage.visit hierarchy v.position).runOn (v.stage, v.before) = (.ok final, stage, after) →
      v.before.cursor.Tended v.position final after.cursor

/-- A visit is made to the instruction that was at `p` in a body with these starts,
where it is at that moment. -/
structure Visit.Meets (code : Code) (starts : List Nat) (p : Nat) (v : Visit τ) : Prop where
  /-- The cursor is at an instruction. -/
  isAt : v.before.cursor.IsAt v.position
  /-- It is as far from the end of the body as it was. -/
  position : v.position + code.bytes.size = p + v.before.cursor.code.bytes.size
  /-- It is as long as it was. -/
  length : Bytecode.instructionLength v.before.cursor.code.bytes v.position =
    Bytecode.instructionLength code.bytes p
  /-- It has the same opcode. -/
  opcode : v.before.cursor.code.bytes[v.position]? = code.bytes[p]?
  /-- All instructions behind it have moved as far. -/
  later : ∀ q ∈ starts, p < q → ∃ route,
    Bytecode.Moved route code.bytes v.before.cursor.code.bytes q (q + (v.position - p))

section Meets

variable {hierarchy : TypeHierarchy} {code : Code} {starts : List Nat}

omit [Stage τ] in
/-- A visit from a cursor that holds an instruction meets it. -/
theorem Visit.meets_of_holds {v : Visit τ} {grown p n : Nat} {rest : List Nat}
    (hl : Bytecode.instructionLength code.bytes p = .ok n)
    (hrest : ∀ q ∈ starts, p < q → q ∈ rest) (hposition : v.position = p + grown)
    (holds : v.before.cursor.Holds code grown p n rest) : v.Meets code starts p := by
  have hsize := holds.stretched.size
  refine ⟨?_, by omega, ?_, ?_, fun q hq hlt => ?_⟩
  · rw [hposition]
    exact holds.isAt
  · rw [hposition, hl, holds.length]
  · rw [hposition]
    exact holds.opcode
  · have hgrown : v.position - p = grown := by omega
    rw [hgrown]
    exact holds.stretched.moved q (hrest q hq hlt)

/-- A pass through stages that tend an instruction adds one visit to each record, and
leaves the cursor behind the instruction. -/
theorem Chain.Passes.meets {p n position final : Nat} {rest : List Nat}
    {chain chain' : Chain (Recorded τ)} {bench last : Workbench}
    (pass : Passes hierarchy position chain bench final chain' last)
    (hl : Bytecode.instructionLength code.bytes p = .ok n)
    (hrest : ∀ q ∈ starts, p < q → q ∈ rest)
    (htends : ∀ r ∈ chain', ∀ v ∈ r.visits, v.Tends hierarchy) :
    ∀ {grown}, position = p + grown → bench.cursor.Holds code grown p n rest →
      (∃ grown', last.cursor.Holds code grown' p n rest) ∧
        List.Forall₂ (fun old new => ∃ v : Visit τ,
          new.visits = v :: old.visits ∧ v.Meets code starts p) chain chain' := by
  induction pass with
  | done => exact fun _ holds => ⟨⟨_, holds⟩, .nil⟩
  | visit h _ ih =>
    rintro grown rfl holds
    obtain ⟨hvisit, hrecord⟩ := Chain.visit_of_recorded h
    have hmember := htends _ List.mem_cons_self _ (by rw [hrecord]; exact List.mem_cons_self)
    obtain ⟨grown', hmoved, hheld⟩ := (hmember holds.isAt _ _ _ hvisit).holds rfl holds
    obtain ⟨hlast, hothers⟩ :=
      ih (fun r hr => htends r (List.mem_cons_of_mem _ hr)) hmoved hheld
    exact ⟨hlast, .cons ⟨_, hrecord, Visit.meets_of_holds hl hrest rfl holds⟩ hothers⟩

/-- Rounds of stages that tend their instructions take one awaited instruction after
the other, and add one visit to it to each record. -/
theorem Chain.Rounds.meets {count : Nat} {chain final : Chain (Recorded τ)}
    {bench last : Workbench} (walk : Bytecode.Walk code.bytes 0 starts code.bytes.size)
    (rounds : Rounds hierarchy count chain bench final last)
    (htends : ∀ r ∈ final, ∀ v ∈ r.visits, v.Tends hierarchy) :
    ∀ (seen : List Nat) {grown first pending}, starts = seen ++ pending →
      bench.cursor.Awaits code grown first pending →
      ∃ grown' first' met left, pending = met ++ left ∧ met.length = count ∧
        last.cursor.Awaits code grown' first' left ∧
        List.Forall₂ (fun old new => ∃ added : List (Visit τ), new.visits = added ++ old.visits ∧
          List.Forall₂ (fun p v => v.Meets code starts p) met added.reverse) chain final := by
  induction rounds with
  | none =>
    intro seen grown first pending _ awaits
    refine ⟨grown, first, [], pending, rfl, rfl, awaits, ?_⟩
    exact List.forall₂_same.mpr fun _ _ => ⟨[], rfl, .nil⟩
  | @round count position final stages mid last pool cursor passed between bench hnext hpassed pass
      later ih =>
    intro seen grown first pending hstarts awaits
    cases pending with
    | nil => exact absurd (hnext.symm.trans awaits.hasNext_nil) (by decide)
    | cons p rest =>
      obtain ⟨-, n, hl, hrun, holds⟩ := awaits.next
      cases hpassed.symm.trans hrun
      have hrest : ∀ q ∈ starts, p < q → q ∈ rest := by
        intro q hq hlt
        have hordered := walk.pairwise_lt
        rw [hstarts] at hq hordered
        have hbefore := (List.pairwise_append.mp hordered).2.2
        rcases List.mem_append.mp hq with hq | hq
        · have h := hbefore q hq p List.mem_cons_self
          omega
        · exact (List.mem_cons.mp hq).resolve_left (Nat.ne_of_gt hlt)
      have hmid : ∀ r ∈ mid, ∀ v ∈ r.visits, v.Tends hierarchy := by
        intro r hr v hv
        obtain ⟨r', hr', hsuffix⟩ := exists_mem_of_forall₂ later.suffix hr
        exact htends r' hr' v (hsuffix.subset hv)
      obtain ⟨⟨grown', hheld⟩, hmet⟩ := pass.meets hl hrest hmid rfl holds
      obtain ⟨grown'', first', met, left, hpending, hcount, hlast, hothers⟩ :=
        ih htends (seen ++ [p]) (by rw [hstarts, List.append_assoc]; rfl) hheld.awaits
      refine ⟨grown'', first', p :: met, left, ?_, ?_, hlast, ?_⟩
      · rw [hpending, List.cons_append]
      · rw [List.length_cons, hcount]
      · refine forall₂_trans hmet hothers ?_
        rintro a b c ⟨v, hb, hv⟩ ⟨added, hc, hadded⟩
        refine ⟨added ++ [v], ?_, ?_⟩
        · rw [hc, hb, List.append_assoc]
          rfl
        · rw [List.reverse_append]
          exact .cons hv hadded

end Meets

/-! ## Limits -/

/-- A number is the largest that stages need, or zero if there is no stage. -/
structure Chain.Largest (need : τ → UInt16) (stages : Chain τ) (n : Nat) : Prop where
  /-- No stage needs more. -/
  bound : ∀ stage ∈ stages, (need stage).toNat ≤ n
  /-- A stage needs as much. -/
  reached : n = 0 ∨ ∃ stage ∈ stages, (need stage).toNat = n

namespace Chain

/-- The larger number at each step is at last no less than any. -/
theorem toNat_foldl_max_le_iff (numbers : List UInt16) (sofar : UInt16) (n : Nat) :
    (numbers.foldl max sofar).toNat ≤ n ↔ sofar.toNat ≤ n ∧ ∀ m ∈ numbers, m.toNat ≤ n := by
  induction numbers generalizing sofar with
  | nil => exact (and_iff_left (List.forall_mem_nil _)).symm
  | cons m numbers ih =>
    rw [List.foldl_cons, ih, toNat_max, Nat.max_le, List.forall_mem_cons, and_assoc]

/-- The larger number at each step is at last one of them. -/
theorem toNat_foldl_max_mem (numbers : List UInt16) (sofar : UInt16) :
    (numbers.foldl max sofar).toNat = sofar.toNat ∨
      ∃ m ∈ numbers, m.toNat = (numbers.foldl max sofar).toNat := by
  induction numbers generalizing sofar with
  | nil => exact .inl rfl
  | cons m numbers ih =>
    rw [List.foldl_cons]
    rcases ih (max sofar m) with hsame | ⟨other, hother, hn⟩
    · rw [hsame, toNat_max]
      rcases Nat.le_total m.toNat sofar.toNat with hle | hle
      · exact .inl (Nat.max_eq_left hle)
      · exact .inr ⟨m, List.mem_cons_self, (Nat.max_eq_right hle).symm⟩
    · exact .inr ⟨other, List.mem_cons_of_mem m hother, hn⟩

omit [Stage τ] in
/-- Of what stages need, the larger number at each step is at last the largest. -/
theorem largest_foldl (need : τ → UInt16) (stages : Chain τ) :
    Largest need stages ((stages.map need).foldl max 0).toNat := by
  obtain ⟨-, hbound⟩ := (toNat_foldl_max_le_iff (stages.map need) 0 _).mp (Nat.le_refl _)
  refine ⟨fun stage hstage => hbound _ (List.mem_map_of_mem hstage), ?_⟩
  rcases toNat_foldl_max_mem (stages.map need) 0 with hzero | ⟨m, hm, hn⟩
  · exact .inl hzero
  · obtain ⟨stage, hstage, rfl⟩ := List.mem_map.mp hm
    exact .inr ⟨stage, hstage, hn⟩

/-- Two numbers that fit a field are added up. -/
theorem toNat_of_addLimited {limit : Limit} {a b c : UInt16} (h : addLimited limit a b = .ok c) :
    c.toNat = a.toNat + b.toNat := by
  unfold addLimited at h
  split at h
  · cases h
    rw [UInt16.toNat_add, Nat.mod_eq_of_lt (by omega)]
  · cases h

/-- Reserving slots that succeeds raises the limits by the largest numbers that the
stages need. -/
theorem largest_of_reserve {stages : Chain τ} {code code' : Code}
    (h : (reserve stages).runOn code = (.ok (), code')) :
    (∃ n, Largest Stage.extraLocals stages n ∧
        code'.maxLocals.toNat = code.maxLocals.toNat + n) ∧
      ∃ n, Largest Stage.extraStack stages n ∧
        code'.maxStack.toNat = code.maxStack.toNat + n := by
  unfold reserve at h
  obtain ⟨_, _, hget, h⟩ := (Edit.runOn_bind_eq_ok_iff code).mp h
  cases hget
  obtain ⟨maxLocals, hlocals, h⟩ := (Edit.runOn_lift_bind_eq_ok_iff code).mp h
  obtain ⟨_, _, hmodify, h⟩ := (Edit.runOn_bind_eq_ok_iff code).mp h
  cases hmodify
  obtain ⟨_, _, hget, h⟩ := (Edit.runOn_bind_eq_ok_iff _).mp h
  cases hget
  obtain ⟨maxStack, hstack, h⟩ := (Edit.runOn_lift_bind_eq_ok_iff _).mp h
  cases h
  exact ⟨⟨_, largest_foldl .., toNat_of_addLimited hlocals⟩,
    ⟨_, largest_foldl .., toNat_of_addLimited hstack⟩⟩

/-! ## Runs over a body -/

variable {hierarchy : TypeHierarchy}

/-- A run that succeeds has walked over the body and has reserved slots then. -/
theorem exists_walk_of_applyToCode {stages done : Chain τ} {pool pool' : ConstantPool}
    {code code' : Code}
    (h : (applyToCode hierarchy).runOn (stages, pool, code) = (.ok (), done, pool', code')) :
    ∃ final last, walk hierarchy (stepsFor code) (stages.map (Stage.reset pool code))
        ⟨pool, .ofCode code⟩ = (.ok (), final, last) ∧
      done = final.map Stage.clean ∧ pool' = last.pool ∧
      (reserve done).runOn last.cursor.code = (.ok (), code') := by
  rw [runOn_applyToCode] at h
  rcases hwalk : walk hierarchy (stepsFor code) (stages.map (Stage.reset pool code))
    ⟨pool, .ofCode code⟩ with ⟨outcome, final, last⟩
  rw [hwalk] at h
  cases outcome with
  | error e => cases h
  | ok u =>
    simp only [Prod.mk.injEq] at h
    obtain ⟨houtcome, rfl, rfl, rfl⟩ := h
    exact ⟨final, last, rfl, rfl, rfl, Edit.runOn_eq_of_fst _ houtcome⟩

/-- A walk of recorded stages that tend their instructions makes one round for every
instruction of the body. -/
theorem rounds_of_tending {chain final : Chain (Recorded τ)} {pool : ConstantPool} {code : Code}
    {starts : List Nat} {last : Workbench}
    (starting : Bytecode.Walk code.bytes 0 starts code.bytes.size)
    (h : walk hierarchy (stepsFor code) chain ⟨pool, .ofCode code⟩ = (.ok (), final, last))
    (htends : ∀ r ∈ final, ∀ v ∈ r.visits, v.Tends hierarchy) :
    Rounds hierarchy starts.length chain ⟨pool, .ofCode code⟩ final last ∧
      (∃ grown first, last.cursor.Awaits code grown first []) ∧
      List.Forall₂ (fun old new => ∃ added : List (Visit τ), new.visits = added ++ old.visits ∧
        List.Forall₂ (fun p v => v.Meets code starts p) starts added.reverse) chain final := by
  obtain ⟨count, -, rounds, hend⟩ := rounds_of_walk h
  obtain ⟨grown, first, met, left, hsplit, hlength, hlast, hrecords⟩ :=
    rounds.meets starting htends [] rfl (Cursor.awaits_ofCode starting)
  -- no instruction is left, for there were more steps than bytes
  obtain rfl : left = [] := by
    cases left with
    | nil => rfl
    | cons p rest =>
      have hsteps := hend hlast.next.1
      have hfew := starting.add_length_starts_le
      rw [hsplit, List.length_append, List.length_cons, hlength, hsteps] at hfew
      unfold stepsFor at hfew
      omega
  rw [List.append_nil] at hsplit
  subst hsplit hlength
  exact ⟨rounds, ⟨grown, first, hlast⟩, hrecords⟩

/-- What a chain has done to a body with these starts, if all its stages visited all
instructions. -/
structure Visited (hierarchy : TypeHierarchy) (starts : List Nat) (chain : Chain τ)
    (pool : ConstantPool) (code : Code) (recorded : Chain (Recorded τ)) (pool' : ConstantPool)
    (code' : Code) : Prop where
  /-- The run has succeeded, and without the record it is the same. -/
  run : (applyToCode hierarchy).runOn (chain, pool, code) =
    (.ok (), Recorded.stages recorded, pool', code')
  /-- It made one round for every instruction, and then there was no other. -/
  rounds : ∃ final last, Rounds hierarchy starts.length (chain.map (Stage.reset pool code))
      ⟨pool, .ofCode code⟩ final last ∧ last.cursor.hasNext = false ∧
    Recorded.stages recorded = final.map Stage.clean ∧ code'.bytes = last.cursor.code.bytes
  /-- There is a record for every stage. -/
  stages : recorded.length = chain.length
  /-- Each stage made one visit to each instruction, in the order of the code. -/
  visits : ∀ r ∈ recorded, List.Forall₂ (fun p v => v.Meets code starts p) starts r.visits.reverse
  /-- The local variables are those of before and the most that a stage needs. -/
  maxLocals : ∃ n, Largest Stage.extraLocals (Recorded.stages recorded) n ∧
    code'.maxLocals.toNat = code.maxLocals.toNat + n
  /-- The operand stack is that of before and the most that a stage needs. -/
  maxStack : ∃ n, Largest Stage.extraStack (Recorded.stages recorded) n ∧
    code'.maxStack.toNat = code.maxStack.toNat + n

/-- **Every stage visits every instruction of the old body once.** The stages may insert
complete instructions other than switches before the instruction that they visit, and
overwrite its operands. Then they are called for the instructions of the old body one
after the other, where these are at that moment, and for nothing that was inserted;
the walk ends after as many rounds; and the limits are raised by what the stages need. -/
theorem visited_of_applyToCode {chain : Chain τ} {recorded : Chain (Recorded τ)}
    {pool pool' : ConstantPool} {code code' : Code} {starts : List Nat}
    (hstarts : Bytecode.starts code.bytes = .ok starts)
    (hrun : (applyToCode hierarchy).runOn (chain.map Recorded.start, pool, code) =
      (.ok (), recorded, pool', code'))
    (htends : ∀ r ∈ recorded, ∀ v ∈ r.visits, v.Tends hierarchy) :
    Visited hierarchy starts chain pool code recorded pool' code' := by
  have walk := Bytecode.starts_eq_ok_iff.mp hstarts
  have hplain := Recorded.applyToCode_stages hierarchy (chain.map Recorded.start) pool code
  rw [Recorded.stages_start, hrun] at hplain
  obtain ⟨final, last, hwalk, hdone, -, hreserve⟩ := exists_walk_of_applyToCode hrun
  have htended : ∀ r ∈ final, ∀ v ∈ r.visits, v.Tends hierarchy := fun r hr v hv =>
    htends (Stage.clean r) (hdone ▸ List.mem_map_of_mem hr) v hv
  obtain ⟨rounds, ⟨grown, first, hlast⟩, hrecords⟩ := rounds_of_tending walk hwalk htended
  have hlimits := hlast.limits
  rw [Prod.mk.injEq] at hlimits
  rw [← Recorded.reserve_stages] at hreserve
  obtain ⟨hlocals, hstack⟩ := largest_of_reserve hreserve
  rw [hlimits.1] at hstack
  rw [hlimits.2] at hlocals
  refine ⟨hplain, ?_, ?_, fun r hr => ?_, hlocals, hstack⟩
  · refine ⟨Recorded.stages final, last, ?_, hlast.hasNext_nil, ?_, ?_⟩
    · have hreset : (chain.map Recorded.start).map (Stage.reset pool code) =
          (chain.map (Stage.reset pool code)).map Recorded.start := by
        rw [List.map_map, List.map_map]
        rfl
      have hrounds := rounds.stages
      rwa [hreset, Recorded.stages_start] at hrounds
    · rw [hdone]
      simp only [Recorded.stages, List.map_map]
      rfl
    · have hbytes := (reserve_unchanged (Recorded.stages recorded) last.cursor.code).1
      rwa [hreserve] at hbytes
  · rw [hdone, List.length_map, ← hrecords.length_eq, List.length_map, List.length_map]
  · rw [hdone] at hr
    obtain ⟨kept, hkept, rfl⟩ := List.mem_map.mp hr
    obtain ⟨old, hold, added, hadded, hmeets⟩ := exists_mem_of_forall₂ hrecords.flip hkept
    obtain ⟨reset, hreset, rfl⟩ := List.mem_map.mp hold
    obtain ⟨stage, -, rfl⟩ := List.mem_map.mp hreset
    have hvisits : kept.visits = added := hadded.trans (List.append_nil added)
    rw [← hvisits] at hmeets
    exact hmeets

end Chain

/-! ## Counting returns -/

/-- A stage that lets a body count how often it returns: it inserts an increment of a
local variable before every return. -/
structure ReturnCounter where
  /-- The number of returns so far. -/
  seen : Nat

namespace ReturnCounter

/-- The increment. -/
def increment : List UInt8 := [Opcode.iinc, 1, 1]

/-- Insert the increment before the instruction at a position, if it is a return. -/
def visitReturn (position : Nat) : Edit (ReturnCounter × Workbench) Nat :=
  ExceptT.mk fun (stage, ⟨pool, cursor⟩) =>
    match cursor.byteAt position with
    | .error e => (.error e, stage, ⟨pool, cursor⟩)
    | .ok op =>
      if op = 0xb1 then
        let (outcome, cursor) := (Cursor.insertBytes position increment).runOn cursor
        (outcome.map (· + 4), ⟨stage.seen + 1⟩, ⟨pool, cursor⟩)
      else (.ok position, stage, ⟨pool, cursor⟩)

instance : Stage ReturnCounter where
  reset _ _ _ := ⟨0⟩
  visit _ position := visitReturn position
  clean stage := stage
  extraLocals _ := 2
  extraStack _ := 1

/-- The increment is one instruction. -/
theorem isPlain_increment : Bytecode.IsPlain increment := by
  have hstarts : Bytecode.starts increment.toArray = .ok [0] := by decide +kernel
  refine ⟨[0], hstarts, fun q hq => ?_⟩
  cases List.mem_singleton.mp hq
  unfold Bytecode.IsSwitch
  decide

/-- A counter tends the instructions that it visits. -/
theorem tends (hierarchy : TypeHierarchy) (v : Visit ReturnCounter) : v.Tends hierarchy := by
  obtain ⟨position, stage, ⟨pool, cursor⟩, -⟩ := v
  intro _ final stage' after h
  have h : (visitReturn position).runOn (stage, ⟨pool, cursor⟩) = (.ok final, stage', after) := h
  unfold visitReturn Edit.runOn at h
  simp only [ExceptT.mk, ExceptT.run] at h
  cases hbyte : cursor.byteAt position with
  | error e =>
    rw [hbyte] at h
    cases h
  | ok op =>
    rw [hbyte] at h
    simp only at h
    split at h
    · rcases hinsert : Cursor.insertBytes position increment cursor with ⟨outcome, inserted⟩
      rw [hinsert] at h
      cases outcome with
      | error e => cases h
      | ok place =>
        cases h
        rw [Cursor.place_of_insertBytes hinsert]
        exact .insert isPlain_increment hinsert (.done _ _)
    · cases h
      exact .done _ _

/-- The body of the counters. -/
def shortBody : Code :=
  { maxStack := 1
    maxLocals := 1
    bytes := #[0x03, 0x57, 0xb1]
    handlers := []
    attributes := [] }

/-- Two counters visit the three instructions of a body, and insert before its return. -/
theorem visited_of_counters :
    Bytecode.starts shortBody.bytes = .ok [0, 1, 2] ∧ ∃ recorded pool' code',
      (Chain.applyToCode .unknown).runOn ([⟨0⟩, ⟨0⟩].map Recorded.start, .empty 0, shortBody) =
        (.ok (), recorded, pool', code') ∧
      (∀ r ∈ recorded, ∀ v ∈ r.visits, v.Tends .unknown) ∧
      code'.bytes = #[0x03, 0x57, 0x84, 1, 1, 0, 0x84, 1, 1, 0, 0xb1] ∧
      Chain.Visited .unknown [0, 1, 2] [(⟨0⟩ : ReturnCounter), ⟨0⟩] (.empty 0) shortBody recorded
        pool' code' := by
  have hstarts : Bytecode.starts shortBody.bytes = .ok [0, 1, 2] := by decide +kernel
  have hdone : ((Chain.applyToCode .unknown).runOn
      ([(⟨0⟩ : ReturnCounter), ⟨0⟩].map Recorded.start, .empty 0, shortBody)).1 = .ok () := by
    decide +kernel
  have hrun := Edit.runOn_eq_of_fst _ hdone
  have htends : ∀ r ∈ ((Chain.applyToCode .unknown).runOn
      ([(⟨0⟩ : ReturnCounter), ⟨0⟩].map Recorded.start, .empty 0, shortBody)).2.1,
      ∀ v ∈ r.visits, v.Tends .unknown := fun _ _ v _ => tends .unknown v
  refine ⟨hstarts, _, _, _, hrun, htends, ?_,
    Chain.visited_of_applyToCode hstarts hrun htends⟩
  decide +kernel

end ReturnCounter

end JvmClass
