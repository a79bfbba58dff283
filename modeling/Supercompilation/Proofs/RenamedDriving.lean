import Mathlib.Logic.Equiv.Basic
import Supercompilation.Proofs.RenamedTree

/-!
# Driving renamed terms

Driving a renamed term with another supply yields the renamed results of driving the term. The fresh
names of the two steps differ, so the renaming has to be extended by what the one supply issues and
the other issues in its place. `NameSupply.Shared` tells the names on which the extended renaming is
the old one: those that the one supply knows and whose new names the other knows.

Extended renamings are permutations throughout: a renaming of finitely many names is extended by
swaps.
-/

namespace Supercompilation

/-- A permutation can be changed so that it gives some names other images, while it keeps the images
of all names that neither are among those names nor have one of these images. -/
theorem exists_extension (ρ : Equiv.Perm String) {names images : List String}
    (distinct : names.Nodup) (distinctImages : images.Nodup)
    (same : names.length = images.length) :
    ∃ σ : Equiv.Perm String, names.map σ = images ∧
      ∀ x, x ∉ names → ρ x ∉ images → σ x = ρ x := by
  induction names generalizing images with
  | nil => exact ⟨ρ, (List.length_eq_zero_iff.mp same.symm).symm, fun _ _ _ => rfl⟩
  | cons name names ih =>
    cases images with
    | nil => simp at same
    | cons image images =>
      rw [List.nodup_cons] at distinct distinctImages
      obtain ⟨τ, maps, keeps⟩ := ih distinct.2 distinctImages.2 (by simpa using same)
      -- One swap repairs the image of the first name and leaves those of the others alone.
      refine ⟨τ.trans (Equiv.swap (τ name) image), ?_, fun x notNamed notImage => ?_⟩
      · have others : names.map (τ.trans (Equiv.swap (τ name) image)) = names.map τ := by
          apply List.map_congr_left
          intro x member
          rw [Equiv.trans_apply]
          apply Equiv.swap_apply_of_ne_of_ne
          · exact fun equal => distinct.1 (τ.injective equal ▸ member)
          · exact fun equal => distinctImages.1 (maps ▸ equal ▸ List.mem_map_of_mem member)
        rw [List.map_cons, others, maps, Equiv.trans_apply, Equiv.swap_apply_left]
      · rw [List.mem_cons, not_or] at notNamed notImage
        have kept := keeps x notNamed.2 notImage.2
        rw [Equiv.trans_apply, kept]
        apply Equiv.swap_apply_of_ne_of_ne
        · exact fun equal => notNamed.1 (τ.injective (kept.trans equal))
        · exact notImage.1

namespace NameSupply

/-- A name that the first supply knows and whose image the second knows. -/
def Shared (ρ : String → String) (first second : NameSupply) (x : String) : Prop :=
  first.Knows x ∧ second.Knows (ρ x)

/-- The names that a supply issues for the fields of a pattern. -/
def namesFor (supply : NameSupply) (pattern : RulePattern) : List String :=
  (freshMany pattern.fields.length supply).1

/-- The supply after it has issued names for the fields of a pattern. -/
def afterwards (supply : NameSupply) (pattern : RulePattern) : NameSupply :=
  (freshMany pattern.fields.length supply).2

/-- A renaming can be extended by the names that two supplies issue: it keeps the images of shared
names, and afterwards these and the issued names are shared. -/
theorem exists_renaming_namesFor (ρ : Equiv.Perm String) (pattern : RulePattern)
    (first second : NameSupply) :
    ∃ σ : Equiv.Perm String, (first.namesFor pattern).map σ = second.namesFor pattern ∧
      (∀ x, Shared ρ first second x → σ x = ρ x) ∧
      ∀ x, Shared ρ first second x ∨ x ∈ first.namesFor pattern →
        Shared σ (first.afterwards pattern) (second.afterwards pattern) x := by
  have early := issued_freshMany pattern.fields.length first
  have late := issued_freshMany pattern.fields.length second
  obtain ⟨σ, maps, keeps⟩ := exists_extension ρ early.distinct late.distinct (by simp)
  have shared : ∀ x, Shared ρ first second x → σ x = ρ x := fun x known =>
    keeps x (fun named => early.unknown x named known.1)
      fun image => late.unknown (ρ x) image known.2
  refine ⟨σ, maps, shared, fun x known => ?_⟩
  rcases known with old | issued
  · refine ⟨early.grows x old.1, ?_⟩
    rw [shared x old]
    exact late.grows (ρ x) old.2
  · exact ⟨early.known x issued, late.known (σ x) (maps ▸ List.mem_map_of_mem issued)⟩

end NameSupply

namespace Term

variable {ρ σ : String → String}

/-- Renaming an instance of a plain term amounts to renaming what its variables became. -/
theorem rename_subst_eq {t : Term} (written : t.plain = true) {first second : Substitution}
    (agree : ∀ x ∈ t.occurrences, ((var x).subst first).rename ρ = (var x).subst second) :
    (t.subst first).rename ρ = t.subst second := by
  induction t with
  | var name => exact agree name (mem_occurrences_var.mpr rfl)
  | app head name args ih =>
    rw [subst_app, rename_app, subst_app, List.map_map]
    refine congrArg (app head name) (List.map_congr_left fun t member => ?_)
    exact ih t member ((plain_app.mp written).2 t member) fun x occurs =>
      agree x (mem_occurrences_app.mpr ⟨t, member, occurs⟩)
  | letIn body bindings => simp at written

/-- Renaming a plain term depends only on its variables. -/
theorem rename_congr_of_plain {t : Term} (written : t.plain = true)
    (agree : ∀ x ∈ t.occurrences, ρ x = σ x) : t.rename ρ = t.rename σ :=
  rename_congr fun x mentioned => agree x ((mem_mentions_of_plain written).mp mentioned)

/-- Terms of variables are renamed variable by variable. -/
theorem map_rename_vars {names images : List String} (maps : names.map ρ = images) :
    (names.map var).map (rename ρ) = images.map var := by
  rw [← maps, List.map_map, List.map_map]
  exact List.map_congr_left fun x _ => rename_var ρ x

end Term

/-- Putting a renamed error into words goes as deep as before. -/
theorem DriveError.tooDeep_map_rename (ρ : String → String) (frames : Nat) (e : DriveError) :
    (e.map (Term.rename ρ)).tooDeep frames = e.tooDeep frames := by
  cases e <;> simp [DriveError.map, DriveError.tooDeep, DriveError.call?]

namespace Program

variable {rules : List Rule}

/-- A renaming passes through closed rules with plain bodies. -/
theorem passesRules_rename (closed : ∀ rule ∈ rules, rule.Closed)
    (bodies : ∀ rule ∈ rules, rule.body.plain = true) (ρ : String → String) :
    PassesRules rules (Term.rename ρ) := by
  refine ⟨Term.rename_app ρ, fun rule member args same => ?_⟩
  apply Term.rename_subst_eq (bodies rule member)
  intro x occurs
  obtain ⟨arg, found, mapped⟩ :=
    exists_value?_of_closed (closed rule member) same (Term.rename ρ) occurs
  rw [Term.subst_var_of_value? found, Term.subst_var_of_value? mapped]

/-- A term whose variables two supplies share. -/
def SharedIn (ρ : String → String) (first second : NameSupply) (t : Term) : Prop :=
  ∀ x ∈ t.occurrences, NameSupply.Shared ρ first second x

/-- Two supplies share the variables of an argument, if they share those of the application. -/
theorem SharedIn.arg {ρ : String → String} {first second : NameSupply} {head : Head}
    {name : String} {args : List Term} (shared : SharedIn ρ first second (.app head name args))
    {t : Term} (member : t ∈ args) : SharedIn ρ first second t := fun x occurs =>
  shared x (Term.mem_occurrences_app.mpr ⟨t, member, occurs⟩)

/-- A renaming that keeps the images of shared names agrees on the arguments of a call. -/
theorem SharedIn.rename_args {ρ σ : String → String} {first second : NameSupply} {head : Head}
    {name : String} {t : Term} {rest : List Term}
    (shared : SharedIn ρ first second (.app head name (t :: rest)))
    (written : (Term.app head name (t :: rest)).plain = true)
    (keeps : ∀ x, NameSupply.Shared ρ first second x → σ x = ρ x) :
    t.rename σ = t.rename ρ ∧ rest.map (Term.rename σ) = rest.map (Term.rename ρ) := by
  have same := Term.rename_congr_of_plain written fun x occurs => keeps x (shared x occurs)
  rwa [Term.rename_app, Term.rename_app, List.map_cons, List.map_cons, Term.app.injEq,
    List.cons.injEq, eq_self, eq_self, true_and, true_and] at same

/-- The contraction of a variable to a pattern with some fields. -/
def contractionTo (x : String) (pattern : RulePattern) (names : List String) : Contraction :=
  ⟨x, .pattern pattern.name (names.map .var)⟩

/-- Arguments in the branch where a variable is contracted to a pattern with some fields. -/
def contracted (x : String) (pattern : RulePattern) (names : List String) (args : List Term) :
    List Term :=
  args.map (Term.subst [(x, .ctor pattern.name (names.map .var))])

/-- The branch of a case distinction for the first rule, and those for the others. -/
theorem split_cons (program : Program) (name x : String) (rest : List Term) (rule : GRule)
    (listed : List GRule) (supply : NameSupply) :
    (program.split name x rest (rule :: listed) supply).1 =
      match program.applyG name rule.pattern.name ((supply.namesFor rule.pattern).map .var)
          (contracted x rule.pattern (supply.namesFor rule.pattern) rest) with
      | .error e => .error e
      | .ok t =>
        (program.split name x rest listed (supply.afterwards rule.pattern)).1.map
          (⟨t, some (contractionTo x rule.pattern (supply.namesFor rule.pattern))⟩ :: ·) := by
  rw [split]
  simp only [Term.substArgs_eq_map, ← NameSupply.namesFor.eq_def, ← NameSupply.afterwards.eq_def,
    ← contracted.eq_def]
  split <;> simp_all [contractionTo]

/-- When a call is split for a rule, the renaming can be extended by the fields that the two
supplies issue: it renames the specialised arguments of the call to those of the renamed call. -/
theorem exists_renaming_contracted (ρ : Equiv.Perm String) (first second : NameSupply)
    {name x : String} {rest : List Term}
    (written : (Term.gCall name (.var x :: rest)).plain = true)
    (shared : SharedIn ρ first second (.gCall name (.var x :: rest))) (pattern : RulePattern) :
    ∃ σ : Equiv.Perm String,
      (∀ y, NameSupply.Shared ρ first second y → σ y = ρ y) ∧
      (∀ y, NameSupply.Shared ρ first second y ∨ y ∈ first.namesFor pattern →
        NameSupply.Shared σ (first.afterwards pattern) (second.afterwards pattern) y) ∧
      ((first.namesFor pattern).map Term.var).map (Term.rename σ) =
        (second.namesFor pattern).map .var ∧
      (contracted x pattern (first.namesFor pattern) rest).map (Term.rename σ) =
        contracted (ρ x) pattern (second.namesFor pattern) (rest.map (Term.rename ρ)) := by
  obtain ⟨σ, maps, keeps, later⟩ := NameSupply.exists_renaming_namesFor ρ pattern first second
  have fields := Term.map_rename_vars maps
  refine ⟨σ, keeps, later, fields, ?_⟩
  obtain ⟨sameVar, sameRest⟩ := shared.rename_args written keeps
  rw [Term.rename_var, Term.rename_var, Term.var.injEq] at sameVar
  have value : Substitution.rename σ
      [(x, .ctor pattern.name ((first.namesFor pattern).map .var))] =
        [(ρ x, .ctor pattern.name ((second.namesFor pattern).map .var))] := by
    rw [Substitution.rename, List.map_singleton, Term.rename_app, fields, sameVar]
  rw [contracted, contracted, ← sameRest, ← value, List.map_map, List.map_map]
  exact List.map_congr_left fun r _ => Term.rename_subst σ.injective r _

/-- Splitting a renamed call with another supply yields the renamed branches. -/
theorem split_rename (closed : ∀ rule ∈ rules, rule.Closed)
    (bodies : ∀ rule ∈ rules, rule.body.plain = true) {name x : String} {rest : List Term}
    (written : (Term.gCall name (.var x :: rest)).plain = true) (listed : List GRule)
    (ρ : Equiv.Perm String) (first second : NameSupply)
    (shared : SharedIn ρ first second (.gCall name (.var x :: rest))) :
    ∃ σ : Equiv.Perm String, (∀ y, NameSupply.Shared ρ first second y → σ y = ρ y) ∧
      ((ofRules rules).split name (ρ x) (rest.map (Term.rename ρ)) listed second).1 =
        mapOutcome (Term.rename σ) (List.map (Branch.rename σ))
          ((ofRules rules).split name x rest listed first).1 := by
  induction listed generalizing ρ first second with
  | nil => exact ⟨ρ, fun _ _ => rfl, rfl⟩
  | cons rule listed ih =>
    obtain ⟨σ, keeps, later, fields, others⟩ :=
      exists_renaming_contracted ρ first second written shared rule.pattern
    have replaced := applyG_map (passesRules_rename closed bodies σ) name rule.pattern.name
      ((first.namesFor rule.pattern).map .var)
      (contracted x rule.pattern (first.namesFor rule.pattern) rest)
    rw [fields, others] at replaced
    rw [split_cons, split_cons, replaced]
    cases outcome : (ofRules rules).applyG name rule.pattern.name
        ((first.namesFor rule.pattern).map .var)
        (contracted x rule.pattern (first.namesFor rule.pattern) rest) with
    | error e => exact ⟨σ, keeps, rfl⟩
    | ok t =>
      obtain ⟨τ, keepsLater, branches⟩ := ih σ _ _ fun y occurs => later y (.inl (shared y occurs))
      obtain ⟨sameVar, sameRest⟩ := shared.rename_args written keeps
      rw [Term.rename_var, Term.rename_var, Term.var.injEq] at sameVar
      rw [sameVar, sameRest] at branches
      have isBranch : (ofRules rules).BranchFor name x rest rule
          ⟨t, some (contractionTo x rule.pattern (first.namesFor rule.pattern))⟩ :=
        ⟨_, NameSupply.length_freshMany _ first, rfl, outcome⟩
      -- The names of the first branch are shared before the other branches are made.
      have firstBranch :
          Branch.rename τ ⟨t, some (contractionTo x rule.pattern (first.namesFor rule.pattern))⟩ =
            ⟨t.rename σ,
              some (contractionTo (ρ x) rule.pattern (second.namesFor rule.pattern))⟩ := by
        rw [Branch.rename_congr (σ := σ) fun y named => keepsLater y (later y ?_)]
        · rw [Branch.rename, Option.map_some, Contraction.rename, contractionTo, contractionTo,
            Term.rename_app, fields, sameVar]
        · rcases (Descends.of_branchFor bodies written isBranch).mem_names named with
            inCall | fresh | free
          · exact .inl (shared y inCall)
          · rw [Branch.freshVars_of_contraction rfl, contractionTo, occurrences_vars] at fresh
            exact .inr fresh
          · exact absurd free (not_freeIn closed)
      refine ⟨τ, fun y known => ?_, ?_⟩
      · rw [keepsLater y (later y (.inl known)), keeps y known]
      · simp only [mapOutcome_ok]
        rw [branches]
        cases ((ofRules rules).split name x rest listed (first.afterwards rule.pattern)).1 with
        | error e => rfl
        | ok found => simp only [mapOutcome_ok, Except.map, List.map_cons, firstBranch]

/-- A single result that is mapped is the mapped single result. -/
theorem mapOutcome_single (ρ : String → String) (outcome : Except DriveError Term) :
    (mapOutcome (Term.rename ρ) (Term.rename ρ) outcome).map (fun t => [(⟨t, none⟩ : Branch)]) =
      mapOutcome (Term.rename ρ) (List.map (Branch.rename ρ))
        (outcome.map fun t => [⟨t, none⟩]) := by
  cases outcome <;> rfl

/-- A renamed call of a g-function without rules cannot be driven either. -/
theorem driveTerm_rename_unlisted {name : String}
    (unlisted : (ofRules rules).gs.value? name = none) (ρ : String → String) (scrutinee : Term)
    (rest : List Term) (first second : NameSupply) :
    ((ofRules rules).driveTerm ((Term.gCall name (scrutinee :: rest)).rename ρ) second).1 =
      mapOutcome (Term.rename ρ) (List.map (Branch.rename ρ))
        ((ofRules rules).driveTerm (.gCall name (scrutinee :: rest)) first).1 := by
  have call := Term.rename_app ρ .gCall name (scrutinee :: rest)
  rw [driveTerm_unlisted unlisted, mapOutcome_error, DriveError.map, call, List.map_cons,
    driveTerm_unlisted unlisted]

/-- Driving a renamed call with another supply yields the renamed results. -/
theorem driveTerm_rename_call (closed : ∀ rule ∈ rules, rule.Closed)
    (bodies : ∀ rule ∈ rules, rule.body.plain = true) {t : Term} (written : t.plain = true)
    (call : t.isCall = true) (ρ : Equiv.Perm String) (first second : NameSupply)
    (shared : SharedIn ρ first second t) :
    ∃ σ : Equiv.Perm String, (∀ y, NameSupply.Shared ρ first second y → σ y = ρ y) ∧
      ((ofRules rules).driveTerm (t.rename ρ) second).1 =
        mapOutcome (Term.rename σ) (List.map (Branch.rename σ))
          ((ofRules rules).driveTerm t first).1 := by
  revert shared
  refine Term.callInduction ?_ ?_ ?_ ?_ ?_ t written call
  · intro name args _ _
    refine ⟨ρ, fun _ _ => rfl, ?_⟩
    rw [Term.rename_app, driveTerm_fCall, driveTerm_fCall,
      unfold_map (passesRules_rename closed bodies ρ), mapOutcome_single]
  · intro name _
    refine ⟨ρ, fun _ _ => rfl, ?_⟩
    rw [Term.rename_app, List.map_nil, driveTerm, driveTerm, mapOutcome_error, DriveError.map,
      Term.rename_app, List.map_nil]
  · intro name constructor fields rest _ _
    refine ⟨ρ, fun _ _ => rfl, ?_⟩
    cases found : (ofRules rules).gs.value? name with
    | none => exact driveTerm_rename_unlisted found ρ _ rest first second
    | some listed =>
      rw [driveTerm_ctor found, Term.rename_app, List.map_cons, Term.rename_app,
        driveTerm_ctor found, applyG_map (passesRules_rename closed bodies ρ), mapOutcome_single]
  · intro name x rest written shared
    cases found : (ofRules rules).gs.value? name with
    | none => exact ⟨ρ, fun _ _ => rfl, driveTerm_rename_unlisted found ρ _ rest first second⟩
    | some listed =>
      rw [driveTerm_var found, Term.rename_app, List.map_cons, Term.rename_var,
        driveTerm_var found]
      exact split_rename closed bodies written listed ρ first second shared
  · intro name inner rest written call ih shared
    cases found : (ofRules rules).gs.value? name with
    | none => exact ⟨ρ, fun _ _ => rfl, driveTerm_rename_unlisted found ρ _ rest first second⟩
    | some listed =>
      obtain ⟨σ, keeps, inside⟩ := ih (shared.arg List.mem_cons_self)
      have kept := (shared.rename_args written keeps).2
      refine ⟨σ, keeps, ?_⟩
      rw [driveTerm_nested found call, Term.rename_app, List.map_cons,
        driveTerm_nested found (by rwa [Term.isCall_rename]), inside, ← kept]
      cases ((ofRules rules).driveTerm inner first).1 with
      | error e => rfl
      | ok branches =>
        simp only [mapOutcome_ok, Except.map, List.map_map]
        refine congrArg Except.ok (List.map_congr_left fun branch _ => ?_)
        simp only [Function.comp_apply, Branch.inside, Branch.rename, Term.rename_app,
          List.map_cons]

/-- Driving a renamed term with another supply yields the renamed results. -/
theorem driveTerm_rename (closed : ∀ rule ∈ rules, rule.Closed)
    (bodies : ∀ rule ∈ rules, rule.body.plain = true) {t : Term} (shallow : t.Shallow)
    (ρ : Equiv.Perm String) (first second : NameSupply) (shared : SharedIn ρ first second t) :
    ∃ σ : Equiv.Perm String, (∀ y, NameSupply.Shared ρ first second y → σ y = ρ y) ∧
      ((ofRules rules).driveTerm (t.rename ρ) second).1 =
        mapOutcome (Term.rename σ) (List.map (Branch.rename σ))
          ((ofRules rules).driveTerm t first).1 := by
  by_cases call : t.isCall = true
  · exact driveTerm_rename_call closed bodies (shallow.plain_of_isCall call) call ρ first second
      shared
  · -- Only calls take names from the supply.
    refine ⟨ρ, fun _ _ => rfl, ?_⟩
    cases t with
    | var name => rw [Term.rename_var, driveTerm, driveTerm, mapOutcome_error, DriveError.map,
        Term.rename_var]
    | letIn body bindings =>
      rw [Term.rename_letIn, driveTerm, driveTerm, mapOutcome_ok, List.map_cons, List.map_map,
        List.map_map]
      rfl
    | app head name args =>
      cases head with
      | ctor =>
        rw [Term.rename_app, driveTerm, driveTerm, mapOutcome_ok, List.map_map, List.map_map]
        rfl
      | pattern => rw [Term.rename_app, driveTerm, driveTerm, mapOutcome_error, DriveError.map,
          Term.rename_app]
      | fCall => exact absurd rfl call
      | gCall => exact absurd rfl call

/-- Whether replacing a call goes too deep does not depend on names. -/
theorem replacementTooDeep_rename (ρ : String → String) (frames : Nat) (body : Option Term)
    (outcome : Except DriveError Term) :
    replacementTooDeep frames body (mapOutcome (Term.rename ρ) (Term.rename ρ) outcome) =
      replacementTooDeep frames body outcome := by
  cases outcome with
  | error e => exact e.tooDeep_map_rename ρ frames
  | ok t => rfl

/-- Whether replacing a call of a g-function goes too deep does not depend on names. -/
theorem applyTooDeep_rename (closed : ∀ rule ∈ rules, rule.Closed)
    (bodies : ∀ rule ∈ rules, rule.body.plain = true) (ρ : String → String) (frames : Nat)
    (name constructor : String) (fields rest : List Term) :
    (ofRules rules).applyTooDeep frames name constructor (fields.map (Term.rename ρ))
        (rest.map (Term.rename ρ)) =
      (ofRules rules).applyTooDeep frames name constructor fields rest := by
  rw [applyTooDeep, applyTooDeep, applyG_map (passesRules_rename closed bodies ρ),
    replacementTooDeep_rename]

/-- Whether a case distinction goes too deep: at the first rule, or at another if the first replaces
the call. -/
theorem splitBlocked_cons (program : Program) (frames : Nat) (name x : String) (rest : List Term)
    (rule : GRule) (listed : List GRule) (supply : NameSupply) :
    (program.splitBlocked frames name x rest (rule :: listed) supply).isSome =
      (Walk.specialising.overflows frames (Term.gCall name (.var x :: rest)).height ||
        program.applyTooDeep frames name rule.pattern.name
          ((supply.namesFor rule.pattern).map .var)
          (contracted x rule.pattern (supply.namesFor rule.pattern) rest) ||
        match program.applyG name rule.pattern.name ((supply.namesFor rule.pattern).map .var)
            (contracted x rule.pattern (supply.namesFor rule.pattern) rest) with
        | .error _ => false
        | .ok _ =>
          (program.splitBlocked frames name x rest listed
            (supply.afterwards rule.pattern)).isSome) := by
  rw [splitBlocked]
  simp only [Term.substArgs_eq_map, ← NameSupply.namesFor.eq_def, ← NameSupply.afterwards.eq_def,
    ← contracted.eq_def]
  split
  · simp_all
  · split
    · simp_all
    · split <;> simp_all

/-- Whether a case distinction goes too deep depends neither on names nor on the supply. -/
theorem splitBlocked_rename (closed : ∀ rule ∈ rules, rule.Closed)
    (bodies : ∀ rule ∈ rules, rule.body.plain = true) (frames : Nat) {name x : String}
    {rest : List Term} (written : (Term.gCall name (.var x :: rest)).plain = true)
    (listed : List GRule) (ρ : Equiv.Perm String) (first second : NameSupply)
    (shared : SharedIn ρ first second (.gCall name (.var x :: rest))) :
    ((ofRules rules).splitBlocked frames name (ρ x) (rest.map (Term.rename ρ)) listed
        second).isSome =
      ((ofRules rules).splitBlocked frames name x rest listed first).isSome := by
  induction listed generalizing ρ first second with
  | nil => rfl
  | cons rule listed ih =>
    obtain ⟨σ, keeps, later, fields, others⟩ :=
      exists_renaming_contracted ρ first second written shared rule.pattern
    obtain ⟨sameVar, sameRest⟩ := shared.rename_args written keeps
    rw [Term.rename_var, Term.rename_var, Term.var.injEq] at sameVar
    have height : (Term.gCall name (.var (ρ x) :: rest.map (Term.rename ρ))).height =
        (Term.gCall name (.var x :: rest)).height := by
      rw [← Term.height_rename ρ (.gCall name (.var x :: rest)), Term.rename_app, List.map_cons,
        Term.rename_var]
    have replaced := applyG_map (passesRules_rename closed bodies σ) name rule.pattern.name
      ((first.namesFor rule.pattern).map .var)
      (contracted x rule.pattern (first.namesFor rule.pattern) rest)
    have deep := applyTooDeep_rename closed bodies σ frames name rule.pattern.name
      ((first.namesFor rule.pattern).map .var)
      (contracted x rule.pattern (first.namesFor rule.pattern) rest)
    have remaining := ih σ _ _ fun y occurs => later y (.inl (shared y occurs))
    rw [fields, others] at replaced deep
    rw [sameVar, sameRest] at remaining
    rw [splitBlocked_cons, splitBlocked_cons, height, deep, replaced, remaining]
    cases (ofRules rules).applyG name rule.pattern.name ((first.namesFor rule.pattern).map .var)
        (contracted x rule.pattern (first.namesFor rule.pattern) rest) <;> rfl

/-- Whether driving a call of a g-function goes too deep is a question about the inner call, if
there is one, with fewer frames. -/
theorem driveBlocked_nested {program : Program} {name : String} {listed : List GRule}
    (found : program.gs.value? name = some listed) {inner : Term} (call : inner.isCall = true)
    (frames : Nat) (rest : List Term) (supply : NameSupply) :
    program.driveBlocked frames (.gCall name (inner :: rest)) supply =
      match Walk.driving.descend? frames with
      | none => some supply
      | some frames => program.driveBlocked frames inner supply := by
  conv_lhs => rw [driveBlocked, found]
  cases inner with
  | var x => simp [Term.isCall] at call
  | letIn body bindings => simp [Term.isCall] at call
  | app head name' args =>
    cases head with
    | ctor => simp [Term.isCall] at call
    | pattern => rfl
    | fCall => rfl
    | gCall => rfl

/-- Whether driving a call of a g-function without rules goes too deep does not depend on names. -/
theorem driveBlocked_rename_unlisted {program : Program} {name : String}
    (unlisted : program.gs.value? name = none) (ρ : String → String) (frames : Nat)
    (scrutinee : Term) (rest : List Term) (first second : NameSupply) :
    (program.driveBlocked frames ((Term.gCall name (scrutinee :: rest)).rename ρ) second).isSome =
      (program.driveBlocked frames (.gCall name (scrutinee :: rest)) first).isSome := by
  have height := Term.height_rename ρ (.gCall name (scrutinee :: rest))
  rw [Term.rename_app, List.map_cons] at height ⊢
  rw [driveBlocked, driveBlocked, unlisted]
  simp only [height]
  split <;> rfl

/-- Whether driving a call goes too deep depends neither on names nor on the supply. -/
theorem driveBlocked_rename_call (closed : ∀ rule ∈ rules, rule.Closed)
    (bodies : ∀ rule ∈ rules, rule.body.plain = true) (frames : Nat) {t : Term}
    (written : t.plain = true) (call : t.isCall = true) (ρ : Equiv.Perm String)
    (first second : NameSupply) (shared : SharedIn ρ first second t) :
    ((ofRules rules).driveBlocked frames (t.rename ρ) second).isSome =
      ((ofRules rules).driveBlocked frames t first).isSome := by
  revert frames shared
  refine Term.callInduction ?_ ?_ ?_ ?_ ?_ t written call
  · intro name args _ frames _
    rw [Term.rename_app, driveBlocked, driveBlocked,
      unfold_map (passesRules_rename closed bodies ρ), replacementTooDeep_rename]
    split <;> rfl
  · intro name frames _
    simp [driveBlocked]
  · intro name constructor fields rest _ frames _
    cases found : (ofRules rules).gs.value? name with
    | none => exact driveBlocked_rename_unlisted found ρ frames _ rest first second
    | some listed =>
      rw [Term.rename_app, List.map_cons, Term.rename_app, driveBlocked, driveBlocked, found]
      simp only [applyTooDeep_rename closed bodies ρ]
      split <;> rfl
  · intro name x rest written frames shared
    cases found : (ofRules rules).gs.value? name with
    | none => exact driveBlocked_rename_unlisted found ρ frames _ rest first second
    | some listed =>
      rw [Term.rename_app, List.map_cons, Term.rename_var, driveBlocked, driveBlocked, found]
      exact splitBlocked_rename closed bodies frames written listed ρ first second shared
  · intro name inner rest written call ih frames shared
    cases found : (ofRules rules).gs.value? name with
    | none => exact driveBlocked_rename_unlisted found ρ frames _ rest first second
    | some listed =>
      rw [Term.rename_app, List.map_cons, driveBlocked_nested found call,
        driveBlocked_nested found (by rwa [Term.isCall_rename])]
      cases Walk.driving.descend? frames with
      | none => rfl
      | some frames => exact ih frames (shared.arg List.mem_cons_self)

/-- Whether driving a term goes too deep depends neither on names nor on the supply. -/
theorem driveBlocked_rename (closed : ∀ rule ∈ rules, rule.Closed)
    (bodies : ∀ rule ∈ rules, rule.body.plain = true) (frames : Nat) {t : Term}
    (shallow : t.Shallow) (ρ : Equiv.Perm String) (first second : NameSupply)
    (shared : SharedIn ρ first second t) :
    ((ofRules rules).driveBlocked frames (t.rename ρ) second).isSome =
      ((ofRules rules).driveBlocked frames t first).isSome := by
  by_cases call : t.isCall = true
  · exact driveBlocked_rename_call closed bodies frames (shallow.plain_of_isCall call) call ρ first
      second shared
  · cases t with
    | var name => simp [driveBlocked]
    | letIn body bindings => simp [driveBlocked]
    | app head name args =>
      cases head with
      | ctor => simp [driveBlocked]
      | pattern =>
        have height := Term.height_rename ρ (.pattern name args)
        rw [Term.rename_app] at height ⊢
        rw [driveBlocked, driveBlocked, height]
        split <;> rfl
      | fCall => exact absurd rfl call
      | gCall => exact absurd rfl call

end Program

end Supercompilation
