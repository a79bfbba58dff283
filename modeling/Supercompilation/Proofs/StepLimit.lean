import Supercompilation.Proofs.ClosedTree
import Supercompilation.Proofs.Program

/-!
# Step limits

A limit on the number of steps cuts a construction and changes nothing before the cut.
`BuildState.after?` is the state after some steps, with no bound of any kind on the way. A
construction that comes to its end after some steps comes to the same end under every greater limit;
under a smaller limit it is given up in the state after as many steps as the limit allows.

A round does not look at the limit, so the constructions under all limits go through the same
rounds: `BuildState.Advances` counts them. What happens at the cut is decided by the order of the
tests in a round. A leaf is looked for first, then comes the question whether a step may still be
taken, and the step comes last.
-/

namespace Supercompilation

namespace BuildState

variable {options : BuildOptions} {state next last : BuildState}

/-- The state after a step at the first unprocessed leaf, if there is such a leaf and it grows. -/
def next? (state : BuildState) : Option BuildState :=
  match state.tree.unprocessed? with
  | none => none
  | some leaf =>
    match state.supercompiler.step state.tree leaf with
    | (.error _, _) => none
    | (.ok grown, sc) => some ⟨grown.tree, sc, state.count + 1⟩

/-- The state after a number of steps, if as many can be taken. -/
def after? : Nat → BuildState → Option BuildState
  | 0, state => some state
  | steps + 1, state => state.next?.bind (after? steps)

/-- The state after a step is the one to which the construction grows. -/
theorem next?_of_grows (grows : state.Grows next) : state.next? = some next := by
  obtain ⟨leaf, grown, first, stepped, tree, count⟩ := grows
  rw [next?, first]
  simp only [stepped, ← tree, ← count]

/-- A number of rounds that go on lead from one state to another. -/
inductive Advances (options : BuildOptions) : Nat → BuildState → BuildState → Prop where
  /-- No round. -/
  | refl (state : BuildState) : Advances options 0 state state
  /-- A round that goes on, and then others. -/
  | head {rounds : Nat} {state next last : BuildState} {step : Step}
      (went : state.round options true = .go step next)
      (later : Advances options rounds next last) :
      Advances options (rounds + 1) state last

/-- A round that goes on takes a step. -/
theorem grows_of_round {mayGrow : Bool} {step : Step}
    (went : state.round options mayGrow = .go step next) : state.Grows next := by
  have accounted := accounts_round options mayGrow state
  rwa [went] at accounted

/-- Rounds that go on lead to the state after as many steps. -/
theorem Advances.after? {rounds : Nat} (advances : Advances options rounds state last) :
    state.after? rounds = some last := by
  induction advances with
  | refl state => rfl
  | head went _ ih =>
    rw [BuildState.after?, next?_of_grows (grows_of_round went), Option.bind_some, ih]

/-- A round more at the end. -/
theorem Advances.tail {rounds : Nat} {step : Step} (advances : Advances options rounds state last)
    (went : last.round options true = .go step next) :
    Advances options (rounds + 1) state next := by
  induction advances with
  | refl state => exact .head went (.refl next)
  | head first _ ih => exact .head first (ih went)

/-- Rounds that go on can be cut anywhere. -/
theorem Advances.cut {rounds steps : Nat} (advances : Advances options rounds state last)
    (within : steps < rounds) :
    ∃ middle step after, Advances options steps state middle ∧
      middle.round options true = .go step after := by
  induction steps generalizing rounds state with
  | zero =>
    cases advances with
    | refl => contradiction
    | head went _ => exact ⟨_, _, _, .refl _, went⟩
  | succ steps ih =>
    cases advances with
    | refl => contradiction
    | head went later =>
      obtain ⟨middle, step, after, early, goes⟩ := ih later (Nat.lt_of_succ_lt_succ within)
      exact ⟨middle, step, after, .head went early, goes⟩

/-- Every round counts one step. -/
theorem Advances.count {rounds : Nat} (advances : Advances options rounds state last) :
    last.count = state.count + rounds := by
  induction advances with
  | refl => rfl
  | head went _ ih =>
    obtain ⟨_, _, _, _, _, counted⟩ := grows_of_round went
    omega

/-- Rounds that go on lead to a reached state. -/
theorem Advances.reaches {rounds : Nat} (advances : Advances options rounds state last) :
    state.Reaches last := by
  induction advances with
  | refl => exact .refl
  | head went _ ih => exact .head (grows_of_round went) ih

/-- What the tests of a round decide: it is given up, or completed, whether or not a step may be
taken; or there is a leaf, and then it grows only if a step may be taken. -/
theorem round_cases (options : BuildOptions) (state : BuildState) :
    (∀ mayGrow, state.round options mayGrow = .stop .tooDeep state) ∨
    (∀ mayGrow, state.round options mayGrow = .stop .completed state) ∨
    (∃ leaf, state.round options true = state.growAt options leaf) ∧
      state.round options false = .stop .exhausted state := by
  by_cases deep : state.scanTooDeep options = true
  · exact .inl fun mayGrow => by rw [round, if_pos deep]
  · simp only [round, if_neg deep]
    cases state.tree.unprocessed? with
    | none => exact .inr (.inl fun _ => rfl)
    | some leaf => exact .inr (.inr ⟨⟨leaf, rfl⟩, rfl⟩)

/-- How growing a leaf goes: it is given up, it fails and leaves the tree as it is, or it goes on.
-/
theorem growAt_cases (options : BuildOptions) (state : BuildState) (leaf : Nat) :
    (∃ final, state.growAt options leaf = .stop .tooDeep final) ∨
    (∃ e sc, state.growAt options leaf =
      .stop (.failed e) { state with supercompiler := sc }) ∨
    (∃ step next, state.growAt options leaf = .go step next) := by
  rw [growAt]
  split
  · exact .inl ⟨_, rfl⟩
  · simp only
    split
    · exact .inr (.inl ⟨_, _, rfl⟩)
    · rename_i grown sc _
      rcases record_cases options (((state.tree.node? leaf).map Node.term).getD default) grown
          ⟨grown.tree, sc, state.count + 1⟩ with deep | ⟨step, recorded⟩
      · exact .inl ⟨_, deep⟩
      · exact .inr (.inr ⟨step, _, recorded⟩)

/-- A completed round would also be completed if no step might be taken, and the other way round. -/
theorem round_of_completed {mayGrow : Bool} {final : BuildState}
    (stopped : state.round options mayGrow = .stop .completed final) (other : Bool) :
    state.round options other = .stop .completed final := by
  rcases round_cases options state with deep | completed | ⟨⟨leaf, grows⟩, idle⟩
  · simp [deep mayGrow] at stopped
  · rw [completed other, ← stopped, completed mayGrow]
  · cases mayGrow with
    | true =>
      rw [grows] at stopped
      rcases growAt_cases options state leaf with ⟨_, deep⟩ | ⟨_, _, failed⟩ | ⟨_, _, went⟩
      · simp [deep] at stopped
      · simp [failed] at stopped
      · simp [went] at stopped
    | false => simp [idle] at stopped

/-- A round that is given up before a step would also be given up if a step might be taken. -/
theorem round_of_tooDeep {mayGrow : Bool} {final : BuildState}
    (stopped : state.round options mayGrow = .stop .tooDeep final) :
    state.round options true = .stop .tooDeep final := by
  cases mayGrow with
  | true => exact stopped
  | false =>
    rcases round_cases options state with deep | completed | ⟨-, idle⟩
    · rw [deep true, ← stopped, deep false]
    · simp [completed false] at stopped
    · simp [idle] at stopped

/-- A round that goes on with a step stops where it starts if no step may be taken. -/
theorem round_false_of_go {step : Step} (went : state.round options true = .go step next) :
    state.round options false = .stop .exhausted state := by
  rcases round_cases options state with deep | completed | ⟨-, idle⟩
  · simp [deep true] at went
  · simp [completed true] at went
  · exact idle

/-- A step fails only if it may be taken. The round stops where it starts if no step may be taken,
and the failing step is not counted. -/
theorem round_of_failed {mayGrow : Bool} {e : GrowthError} {final : BuildState}
    (stopped : state.round options mayGrow = .stop (.failed e) final) :
    mayGrow = true ∧ state.round options false = .stop .exhausted state ∧
      final.count = state.count := by
  rcases round_cases options state with deep | completed | ⟨⟨leaf, grows⟩, idle⟩
  · simp [deep mayGrow] at stopped
  · simp [completed mayGrow] at stopped
  · cases mayGrow with
    | false => simp [idle] at stopped
    | true =>
      rw [grows] at stopped
      rcases growAt_cases options state leaf with ⟨_, deep⟩ | ⟨e', sc, failed⟩ | ⟨_, _, went⟩
      · simp [deep] at stopped
      · rw [failed, Round.stop.injEq] at stopped
        exact ⟨rfl, idle, by rw [← stopped.2]⟩
      · simp [went] at stopped

end BuildState

namespace Supercompiler

variable {α : Type} {options : BuildOptions} {watch : Step → ProcessTree → α}
  {state last : BuildState}

/-- The limit is not looked at while the tree grows. -/
theorem grow_limit (limit : Option Int) (allowed : Nat) (state : BuildState) :
    grow { options with limit } watch allowed state = grow options watch allowed state := by
  have rounds : ∀ mayGrow (state : BuildState),
      state.round { options with limit } mayGrow = state.round options mayGrow := fun _ _ => rfl
  induction allowed generalizing state with
  | zero => rw [grow, grow, rounds]
  | succ allowed ih => simp only [grow, rounds, ih]

/-- A construction ends with the round that stops it. -/
theorem grow_of_advances (watch : Step → ProcessTree → α) {rounds allowed : Nat}
    (advances : BuildState.Advances options rounds state last) (within : rounds ≤ allowed)
    {ending : Ending} {final : BuildState}
    (stopped : last.round options (decide (rounds < allowed)) = .stop ending final) :
    (grow options watch allowed state).ending = ending ∧
      (grow options watch allowed state).final = final := by
  induction advances generalizing allowed with
  | refl state =>
    cases allowed with
    | zero =>
      rw [grow, show state.round options false = .stop ending final from stopped]
      exact ⟨rfl, rfl⟩
    | succ allowed =>
      rw [decide_eq_true (Nat.succ_pos allowed)] at stopped
      rw [grow, stopped]
      exact ⟨rfl, rfl⟩
  | head went _ ih =>
    cases allowed with
    | zero => contradiction
    | succ allowed =>
      simp only [Nat.add_lt_add_iff_right] at stopped
      rw [grow, went]
      exact ih (Nat.le_of_succ_le_succ within) stopped

/-- Every construction goes through some rounds and ends with one that stops it. -/
theorem exists_advances_grow (options : BuildOptions) (watch : Step → ProcessTree → α)
    (allowed : Nat) (state : BuildState) :
    ∃ rounds ≤ allowed, ∃ last, BuildState.Advances options rounds state last ∧
      last.round options (decide (rounds < allowed)) =
        .stop (grow options watch allowed state).ending
          (grow options watch allowed state).final := by
  induction allowed generalizing state with
  | zero =>
    refine ⟨0, Nat.le_refl 0, state, .refl state, ?_⟩
    rw [grow]
    cases stopped : state.round options false with
    | stop ending final => exact stopped
    | go step next =>
      rcases state.round_cases options with deep | completed | ⟨-, idle⟩
      · simp [deep false] at stopped
      · simp [completed false] at stopped
      · simp [idle] at stopped
  | succ allowed ih =>
    rw [grow]
    cases turn : state.round options true with
    | stop ending final =>
      refine ⟨0, Nat.zero_le _, state, .refl state, ?_⟩
      rw [decide_eq_true (Nat.succ_pos allowed)]
      exact turn
    | go step next =>
      obtain ⟨rounds, within, last, advances, stopped⟩ := ih next
      refine ⟨rounds + 1, Nat.succ_le_succ within, last, .head turn advances, ?_⟩
      simp only [Nat.add_lt_add_iff_right]
      exact stopped

/-- A completed construction goes through as many rounds as it counts steps, and the round in the
state at its end stops there, whether or not a step may be taken. -/
theorem advances_of_completed {sc : Supercompiler} {patience : Nat} {t : Term}
    (completed : (sc.build options patience watch t).ending = .completed) :
    BuildState.Advances options (sc.build options patience watch t).count (.start sc t)
      (sc.build options patience watch t).final ∧
    ∀ mayGrow, (sc.build options patience watch t).final.round options mayGrow =
      .stop .completed (sc.build options patience watch t).final := by
  obtain ⟨rounds, -, last, advances, stopped⟩ := exists_advances_grow options watch
    ((options.limit.map Int.toNat).getD patience) (.start sc t)
  change _ = Round.stop (sc.build options patience watch t).ending
    (sc.build options patience watch t).final at stopped
  rw [completed] at stopped
  have accounted := BuildState.accounts_round options
    (decide (rounds < (options.limit.map Int.toNat).getD patience)) last
  rw [stopped] at accounted
  obtain ⟨same, -⟩ := accounted.2 rfl
  have counted : (sc.build options patience watch t).count = rounds := by
    rw [show (sc.build options patience watch t).count = last.count from
      congrArg BuildState.count same, advances.count, BuildState.start, Nat.zero_add]
  rw [counted]
  exact ⟨same ▸ advances, fun mayGrow => same ▸ BuildState.round_of_completed stopped mayGrow⟩

/-- A construction that fails goes through as many rounds as it counts steps, and fails in the next
one. -/
theorem advances_of_failed {sc : Supercompiler} {patience : Nat} {t : Term} {e : GrowthError}
    (failed : (sc.build options patience watch t).ending = .failed e) :
    ∃ last, BuildState.Advances options (sc.build options patience watch t).count (.start sc t)
      last ∧
    last.round options true = .stop (.failed e) (sc.build options patience watch t).final ∧
    last.round options false = .stop .exhausted last := by
  obtain ⟨rounds, -, last, advances, stopped⟩ := exists_advances_grow options watch
    ((options.limit.map Int.toNat).getD patience) (.start sc t)
  change _ = Round.stop (sc.build options patience watch t).ending
    (sc.build options patience watch t).final at stopped
  rw [failed] at stopped
  obtain ⟨mayGrow, idle, uncounted⟩ := BuildState.round_of_failed stopped
  rw [mayGrow] at stopped
  have counted : (sc.build options patience watch t).count = rounds := by
    rw [show (sc.build options patience watch t).count = last.count from uncounted,
      advances.count, BuildState.start, Nat.zero_add]
  rw [counted]
  exact ⟨last, advances, stopped, idle⟩

/-- The construction for a term that takes at most `limit` steps. -/
def buildWithin (sc : Supercompiler) (options : BuildOptions) (watch : Step → ProcessTree → α)
    (t : Term) (limit : Nat) : Run α :=
  sc.build { options with limit := some (limit : Int) } 0 watch t

/-- Why the construction that takes at most `limit` steps leaves no finished tree, if it leaves
none. -/
def errorWithin? (sc : Supercompiler) (options : BuildOptions) (watch : Step → ProcessTree → α)
    (t : Term) (limit : Nat) : Option BuildError :=
  (sc.buildWithin options watch t limit).error? { options with limit := some (limit : Int) }

/-- The construction for a term is given up at a limit: the error tells the limit, as the number of
steps too, and no other reason, and the construction ends in the state after as many steps. -/
structure AbortsAt (sc : Supercompiler) (options : BuildOptions) (watch : Step → ProcessTree → α)
    (t : Term) (limit : Nat) : Prop where
  /-- The construction is given up because of the limit. -/
  aborted : sc.errorWithin? options watch t limit = some (.aborted ⟨limit, some limit, none⟩)
  /-- It ends in the state after as many steps. -/
  final : (BuildState.start sc t).after? limit = some (sc.buildWithin options watch t limit).final

/-- A construction with a limit is one that may take as many steps. -/
theorem buildWithin_eq_grow (sc : Supercompiler) (options : BuildOptions)
    (watch : Step → ProcessTree → α) (t : Term) (limit : Nat) :
    sc.buildWithin options watch t limit = grow options watch limit (.start sc t) := by
  rw [buildWithin, build, grow_limit]
  rfl

variable {sc : Supercompiler} {t : Term}

/-- A construction that goes too deep does so under every greater limit. -/
theorem tooDeep_buildWithin {limit more : Nat}
    (deep : (sc.buildWithin options watch t limit).ending = .tooDeep) (enough : limit ≤ more) :
    (sc.buildWithin options watch t more).ending = .tooDeep := by
  rcases Nat.eq_or_lt_of_le enough with rfl | less
  · exact deep
  rw [buildWithin_eq_grow] at deep ⊢
  obtain ⟨rounds, within, last, advances, stopped⟩ :=
    exists_advances_grow options watch limit (.start sc t)
  rw [deep] at stopped
  have goesOn : rounds < more := Nat.lt_of_le_of_lt within less
  have again := BuildState.round_of_tooDeep stopped
  rw [← decide_eq_true goesOn] at again
  exact (grow_of_advances watch advances (Nat.le_of_lt goesOn) again).1

/-- A construction is given up at every limit before a round that goes on, or before a step that
fails. -/
theorem abortsAt_of_advances (watch : Step → ProcessTree → α) {limit : Nat}
    (advances : BuildState.Advances options limit (.start sc t) last)
    (idle : last.round options false = .stop .exhausted last) :
    sc.AbortsAt options watch t limit ∧ (sc.buildWithin options watch t limit).final = last := by
  have count : last.count = limit := by
    rw [advances.count, BuildState.start, Nat.zero_add]
  have ends := grow_of_advances watch advances (Nat.le_refl limit)
    (by rwa [decide_eq_false (Nat.lt_irrefl limit)])
  rw [← buildWithin_eq_grow] at ends
  have steps : (sc.buildWithin options watch t limit).count = limit :=
    (congrArg BuildState.count ends.2).trans count
  refine ⟨⟨?_, ?_⟩, ends.2⟩
  · rw [errorWithin?, Run.error?, ends.1, steps]
  · rw [advances.after?, ends.2]

/-- Before the end of a construction every limit cuts it, and the state at the cut grows to the
state at the next cut, or to the one at the end. -/
theorem abortsAt_of_lt {rounds limit : Nat}
    (advances : BuildState.Advances options rounds (.start sc t) last)
    (stays : (sc.buildWithin options watch t rounds).final = last) (within : limit < rounds) :
    sc.AbortsAt options watch t limit ∧
      (sc.buildWithin options watch t limit).final.Grows
        (sc.buildWithin options watch t (limit + 1)).final := by
  obtain ⟨middle, step, after, early, went⟩ := advances.cut within
  obtain ⟨aborts, here⟩ :=
    abortsAt_of_advances watch early (BuildState.round_false_of_go went)
  refine ⟨aborts, ?_⟩
  have later : (sc.buildWithin options watch t (limit + 1)).final = after := by
    rcases Nat.lt_or_eq_of_le within with more | rfl
    · obtain ⟨next, _, _, early', went'⟩ := advances.cut more
      have same := (early.tail went).after?.symm.trans early'.after?
      rw [Option.some.inj same]
      exact (abortsAt_of_advances watch early' (BuildState.round_false_of_go went')).2
    · have same := (early.tail went).after?.symm.trans advances.after?
      rw [stays, Option.some.inj same]
  rw [here, later]
  exact BuildState.grows_of_round went

/-- A limit cuts a construction at an exact prefix, whatever the program, the term, the supply and
the other bounds are. If a construction is completed after some steps, it ends the same way under
every limit that is not smaller; under a smaller one it is given up in the state after as many
steps, and one more step at the first unprocessed leaf leads to the state in which it ends under the
next limit. If a construction fails, the same holds of the limits up to the failing step, and all
greater ones lead to the same failure. -/
theorem build_limit (sc : Supercompiler) (options : BuildOptions) (patience : Nat)
    (watch : Step → ProcessTree → α) (t : Term) :
    ((sc.build options patience watch t).ending = .completed →
      (∀ limit, (sc.build options patience watch t).count ≤ limit →
        sc.errorWithin? options watch t limit = none ∧
        (sc.buildWithin options watch t limit).final = (sc.build options patience watch t).final) ∧
      ∀ limit < (sc.build options patience watch t).count,
        sc.AbortsAt options watch t limit ∧
        (sc.buildWithin options watch t limit).final.Grows
          (sc.buildWithin options watch t (limit + 1)).final) ∧
    ∀ e, (sc.build options patience watch t).ending = .failed e →
      (∀ limit, (sc.build options patience watch t).count < limit →
        sc.errorWithin? options watch t limit = some (.growth e) ∧
        (sc.buildWithin options watch t limit).final = (sc.build options patience watch t).final) ∧
      (∀ limit ≤ (sc.build options patience watch t).count,
        sc.AbortsAt options watch t limit) ∧
      ∀ limit < (sc.build options patience watch t).count,
        (sc.buildWithin options watch t limit).final.Grows
          (sc.buildWithin options watch t (limit + 1)).final := by
  refine ⟨fun completed => ?_, fun e failed => ?_⟩
  · obtain ⟨advances, stopped⟩ := advances_of_completed completed
    have ends : ∀ limit, (sc.build options patience watch t).count ≤ limit →
        (sc.buildWithin options watch t limit).ending = .completed ∧
        (sc.buildWithin options watch t limit).final =
          (sc.build options patience watch t).final := by
      intro limit enough
      rw [buildWithin_eq_grow]
      exact grow_of_advances watch advances enough (stopped _)
    refine ⟨fun limit enough => ⟨?_, (ends limit enough).2⟩, fun limit small => ?_⟩
    · rw [errorWithin?, Run.error?, (ends limit enough).1]
    · exact abortsAt_of_lt advances (ends _ (Nat.le_refl _)).2 small
  · obtain ⟨last, advances, stopped, idle⟩ := advances_of_failed failed
    obtain ⟨aborts, stays⟩ := abortsAt_of_advances watch advances idle
    refine ⟨fun limit more => ?_, fun limit small => ?_, fun limit small => ?_⟩
    · have ends := grow_of_advances watch advances (Nat.le_of_lt more)
        (by rwa [decide_eq_true more])
      rw [← buildWithin_eq_grow] at ends
      rw [errorWithin?, Run.error?, ends.1]
      exact ⟨rfl, ends.2⟩
    · rcases Nat.lt_or_eq_of_le small with less | rfl
      · exact (abortsAt_of_lt advances stays less).1
      · exact aborts
    · exact (abortsAt_of_lt advances stays small).2

/-- The tree for one more than a variable takes three steps, so the limits below three cut it. A
constructor around an addition that no rule covers takes one step and fails in the second. -/
theorem build_limit_addition :
    ((build ⟨.ofRules Program.additionRules, {}⟩ {} 9 (fun _ _ => ())
        (.gCall "gAdd" [.ctor "S" [.ctor "Z" []], .var "b"])).ending = .completed ∧
      errorWithin? ⟨.ofRules Program.additionRules, {}⟩ {} (fun _ _ => ())
        (.gCall "gAdd" [.ctor "S" [.ctor "Z" []], .var "b"]) 3 = none ∧
      AbortsAt ⟨.ofRules Program.additionRules, {}⟩ {} (fun _ _ => ())
        (.gCall "gAdd" [.ctor "S" [.ctor "Z" []], .var "b"]) 2) ∧
    ((build ⟨.ofRules Program.additionRules, {}⟩ {} 9 (fun _ _ => ())
        (.ctor "S" [.gCall "gAdd" [.ctor "T" [], .var "b"]])).ending =
      .failed (.drive (.noRule "gAdd" "T" (.gCall "gAdd" [.ctor "T" [], .var "b"]))) ∧
      errorWithin? ⟨.ofRules Program.additionRules, {}⟩ {} (fun _ _ => ())
        (.ctor "S" [.gCall "gAdd" [.ctor "T" [], .var "b"]]) 2 =
      some (.growth (.drive (.noRule "gAdd" "T" (.gCall "gAdd" [.ctor "T" [], .var "b"])))) ∧
      AbortsAt ⟨.ofRules Program.additionRules, {}⟩ {} (fun _ _ => ())
        (.ctor "S" [.gCall "gAdd" [.ctor "T" [], .var "b"]]) 1) := by
  have completed : (build ⟨.ofRules Program.additionRules, {}⟩ {} 9 (fun _ _ => ())
        (.gCall "gAdd" [.ctor "S" [.ctor "Z" []], .var "b"])).ending = .completed ∧
      (build ⟨.ofRules Program.additionRules, {}⟩ {} 9 (fun _ _ => ())
        (.gCall "gAdd" [.ctor "S" [.ctor "Z" []], .var "b"])).count = 3 := by cbv
  have failed : (build ⟨.ofRules Program.additionRules, {}⟩ {} 9 (fun _ _ => ())
        (.ctor "S" [.gCall "gAdd" [.ctor "T" [], .var "b"]])).ending =
          .failed (.drive (.noRule "gAdd" "T" (.gCall "gAdd" [.ctor "T" [], .var "b"]))) ∧
      (build ⟨.ofRules Program.additionRules, {}⟩ {} 9 (fun _ _ => ())
        (.ctor "S" [.gCall "gAdd" [.ctor "T" [], .var "b"]])).count = 1 := by cbv
  obtain ⟨same, cut⟩ := (build_limit _ _ _ _ _).1 completed.1
  obtain ⟨fails, cut', -⟩ := (build_limit _ _ _ _ _).2 _ failed.1
  rw [completed.2] at same cut
  rw [failed.2] at fails cut'
  exact ⟨⟨completed.1, (same 3 (Nat.le_refl 3)).1, (cut 2 (Nat.lt_succ_self 2)).1⟩,
    failed.1, (fails 2 (Nat.lt_succ_self 1)).1, cut' 1 (Nat.le_refl 1)⟩

end Supercompiler

end Supercompilation
