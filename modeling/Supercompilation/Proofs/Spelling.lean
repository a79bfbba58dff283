import Supercompilation.Proofs.Acceptance
import Supercompilation.Proofs.Ranking

/-!
# Names in process trees

Texts hold no names but those that start with a letter and go on with word characters, and a supply
issues names made of its stem and a number. So no name in a process tree holds a character that the
text of a tree puts right behind names, and every application has a name that is right for its head.
Both are kept by substitution, hence by rules, by matches and by whole constructions.

`Term.Spelled` and `Branch.Spelled` say this of a term and of a term with its contraction.
-/

namespace Supercompilation

/-- The characters that stand right behind names and terms in the text of a tree. -/
def Text.marks : List Char := ['(', ')', ',', '=', ' ', '\x7d', '\n']

/-- A character of a class without marks is no mark. -/
theorem Text.not_mem_marks {inside : Char → Bool} (unlike : marks.any inside = false)
    {c : Char} (member : inside c = true) : c ∉ marks := by
  intro mark
  exact List.any_eq_false.mp unlike c mark member

namespace Name

/-- A name that can be told from what stands behind it in the text of a tree. -/
structure Unbroken (name : String) : Prop where
  /-- There is something of it. -/
  nonempty : name.toList ≠ []
  /-- It holds no mark. -/
  unmarked : ∀ c ∈ name.toList, c ∉ Text.marks

/-- A name that may stand in a text is unbroken. -/
theorem unbroken_of_lawful {name : String} (lawful : startsIn Text.isInitial name = true) :
    Unbroken name := by
  obtain ⟨c, rest, characters, initial, word⟩ := startsIn_iff.mp lawful
  refine ⟨by simp [characters], ?_⟩
  rw [characters, List.forall_mem_cons]
  exact ⟨Text.not_mem_marks rfl initial, fun d member => Text.not_mem_marks rfl (word d member)⟩

/-- The digits and the sign of a number are no marks. -/
theorem not_mem_marks_of_mem_int {k : Int} {c : Char} (member : c ∈ (toString k).toList) :
    c ∉ Text.marks := by
  have digits : ∀ {n : Nat}, c ∈ n.repr.toList → c ∉ Text.marks := by
    intro n inside
    rw [Nat.toList_repr] at inside
    have digit : c.isDigit = true := Nat.isDigit_of_mem_toDigits (by decide) (by decide) inside
    exact Text.not_mem_marks rfl digit
  cases k with
  | ofNat n => exact digits member
  | negSucc n =>
    have sign : toString (Int.negSucc n) = "-" ++ (n + 1).repr := rfl
    rw [sign, String.toList_append, List.mem_append] at member
    rcases member with minus | inside
    · have minus : c = '-' := by simpa using minus
      rw [minus]
      decide
    · exact digits inside

/-- An unbroken stem with a number is an unbroken name. -/
theorem Unbroken.nameAt {supply : NameSupply} (stem : Unbroken supply.stem) (k : Int) :
    Unbroken (supply.nameAt k) where
  nonempty := by
    rw [NameSupply.nameAt, String.toList_append]
    exact List.append_ne_nil_of_left_ne_nil stem.nonempty _
  unmarked c member := by
    rw [NameSupply.nameAt, String.toList_append, List.mem_append] at member
    rcases member with inStem | inNumber
    · exact stem.unmarked c inStem
    · exact not_mem_marks_of_mem_int inNumber

end Name

namespace Term

/-- A term whose applications have names that are right for their heads, and whose variables have
unbroken names. -/
structure Spelled (t : Term) : Prop where
  /-- Every head admits its name. -/
  admits : ∀ entry ∈ t.applications, entry.1.admits entry.2 = true
  /-- The names of the variables are unbroken. -/
  unbroken : ∀ x ∈ t.occurrences, Name.Unbroken x

/-- A variable is spelled if its name is unbroken. -/
@[simp]
theorem spelled_var {x : String} : (var x).Spelled ↔ Name.Unbroken x :=
  ⟨fun spelled => spelled.unbroken x (mem_occurrences_var.mpr rfl),
    fun unbroken => ⟨by simp, by simpa using unbroken⟩⟩

/-- An application is spelled if its name is right for it and its arguments are spelled. -/
@[simp]
theorem spelled_app {head : Head} {name : String} {args : List Term} :
    (app head name args).Spelled ↔ head.admits name = true ∧ ∀ t ∈ args, t.Spelled := by
  constructor
  · intro spelled
    refine ⟨spelled.admits (head, name) (mem_applications_app.mpr (.inl rfl)), fun t member => ?_⟩
    exact ⟨fun entry inside => spelled.admits entry
        (mem_applications_app.mpr (.inr ⟨t, member, inside⟩)),
      fun x occurs => spelled.unbroken x (mem_occurrences_app.mpr ⟨t, member, occurs⟩)⟩
  · rintro ⟨admits, each⟩
    constructor
    · intro entry inside
      rcases mem_applications_app.mp inside with rfl | ⟨t, member, below⟩
      · exact admits
      · exact (each t member).admits entry below
    · intro x occurs
      obtain ⟨t, member, below⟩ := mem_occurrences_app.mp occurs
      exact (each t member).unbroken x below

/-- A `let` term is spelled if its body and its values are. -/
@[simp]
theorem spelled_letIn {body : Term} {bindings : List (String × Term)} :
    (letIn body bindings).Spelled ↔ body.Spelled ∧ ∀ binding ∈ bindings, binding.2.Spelled := by
  constructor
  · intro spelled
    refine ⟨⟨fun entry inside => ?_, fun x occurs => ?_⟩, fun binding member =>
      ⟨fun entry inside => ?_, fun x occurs => ?_⟩⟩
    · exact spelled.admits entry (mem_applications_letIn.mpr (.inl inside))
    · exact spelled.unbroken x (mem_occurrences_letIn.mpr (.inl occurs))
    · exact spelled.admits entry (mem_applications_letIn.mpr (.inr ⟨binding, member, inside⟩))
    · exact spelled.unbroken x (mem_occurrences_letIn.mpr (.inr ⟨binding, member, occurs⟩))
  · rintro ⟨inBody, each⟩
    constructor
    · intro entry inside
      rcases mem_applications_letIn.mp inside with here | ⟨binding, member, here⟩
      · exact inBody.admits entry here
      · exact (each binding member).admits entry here
    · intro x occurs
      rcases mem_occurrences_letIn.mp occurs with here | ⟨binding, member, here⟩
      · exact inBody.unbroken x here
      · exact (each binding member).unbroken x here

/-- After a substitution a term is spelled if its own applications are and what its variables
became. -/
theorem spelled_subst {t : Term} {values : Substitution} :
    (t.subst values).Spelled ↔ (∀ entry ∈ t.applications, entry.1.admits entry.2 = true) ∧
      ∀ x ∈ t.occurrences, ((var x).subst values).Spelled := by
  constructor
  · intro spelled
    refine ⟨fun entry inside => spelled.admits entry (mem_applications_subst.mpr (.inl inside)),
      fun x occurs => ⟨fun entry inside => ?_, fun y inside => ?_⟩⟩
    · exact spelled.admits entry (mem_applications_subst.mpr (.inr ⟨x, occurs, inside⟩))
    · exact spelled.unbroken y (mem_occurrences_subst.mpr ⟨x, occurs, inside⟩)
  · rintro ⟨admits, each⟩
    constructor
    · intro entry inside
      rcases mem_applications_subst.mp inside with own | ⟨x, occurs, here⟩
      · exact admits entry own
      · exact (each x occurs).admits entry here
    · intro y inside
      obtain ⟨x, occurs, here⟩ := mem_occurrences_subst.mp inside
      exact (each x occurs).unbroken y here

/-- A well-named term is plain. -/
theorem plain_of_wellNamed {t : Term} (named : t.wellNamed = true) : t.plain = true := by
  induction t with
  | letIn body bindings => simp [wellNamed] at named
  | var name => exact plain_var name
  | app head name args ih =>
    obtain ⟨admits, namedArgs⟩ := wellNamed_app.mp named
    refine plain_app.mpr ⟨?_, fun t member => ih t member (namedArgs t member)⟩
    rintro rfl
    contradiction

/-- A well-named term is spelled. -/
theorem spelled_of_wellNamed {t : Term} (named : t.wellNamed = true) : t.Spelled := by
  induction t with
  | letIn body bindings => simp [wellNamed] at named
  | var name =>
    rw [wellNamed] at named
    exact spelled_var.mpr (Name.unbroken_of_lawful (Name.lawful_of_isVariable named))
  | app head name args ih =>
    obtain ⟨admits, namedArgs⟩ := wellNamed_app.mp named
    exact spelled_app.mpr ⟨admits, fun t member => ih t member (namedArgs t member)⟩

end Term

/-- The body of a well-named rule is well named. -/
theorem Rule.wellNamed_body {rule : Rule} (named : rule.wellNamed = true) :
    rule.body.wellNamed = true := by
  cases rule with
  | f rule =>
    simp only [wellNamed, FRule.wellNamed, Bool.and_eq_true] at named
    exact named.2
  | g rule =>
    simp only [wellNamed, GRule.wellNamed, Bool.and_eq_true] at named
    exact named.2

/-- The body of a well-named rule is plain. -/
theorem Rule.plain_body {rule : Rule} (named : rule.wellNamed = true) : rule.body.plain = true :=
  Term.plain_of_wellNamed (wellNamed_body named)

/-- A contraction of a variable to a constructor pattern, with names in order. -/
structure Contraction.Spelled (contraction : Contraction) : Prop where
  /-- The name of the variable is unbroken. -/
  unbroken : Name.Unbroken contraction.var
  /-- The pattern is a constructor with unbroken names as fields. -/
  pattern : ∃ (name : String) (fields : List String),
    contraction.pattern = .pattern name (fields.map .var) ∧ Head.ctor.admits name = true ∧
      ∀ x ∈ fields, Name.Unbroken x

/-- A term with its contraction, with names in order. -/
structure Branch.Spelled (branch : Branch) : Prop where
  /-- The term is spelled. -/
  term : branch.term.Spelled
  /-- The contraction is spelled, if there is one. -/
  contraction : ∀ contraction, branch.contraction = some contraction → contraction.Spelled

/-- A spelled term without a contraction. -/
theorem Branch.Spelled.part {t : Term} (spelled : t.Spelled) : Branch.Spelled ⟨t, none⟩ :=
  ⟨spelled, by simp⟩

namespace Program

variable {rules : List Rule} (named : ∀ rule ∈ rules, rule.wellNamed = true)

include named

/-- What a well-named rule makes of spelled arguments is spelled. -/
theorem spelled_of_makes {args : List Term} {t : Term} (makes : Makes rules args t)
    (each : ∀ arg ∈ args, arg.Spelled) : t.Spelled := by
  obtain ⟨rule, isRule, -, rfl⟩ := makes
  have body := Term.spelled_of_wellNamed (Rule.wellNamed_body (named rule isRule))
  refine Term.spelled_subst.mpr ⟨body.admits, fun x occurs => ?_⟩
  cases found : NameMap.value? (NameMap.ofPairs (rule.headVars.zip args)) x with
  | none =>
    rw [Term.subst_var_of_none found]
    exact Term.spelled_var.mpr (body.unbroken x occurs)
  | some arg =>
    rw [Term.subst_var_of_value? found]
    exact each arg (List.of_mem_zip (NameMap.mem_of_value?_ofPairs found)).2

/-- The branch of a case distinction is spelled, if the call is and the fresh names are unbroken. -/
theorem spelled_of_branchFor {name x : String} {rest : List Term}
    (spelled : (Term.gCall name (.var x :: rest)).Spelled) {rule : GRule}
    (isRule : .g rule ∈ rules) {branch : Branch}
    (isBranch : (ofRules rules).BranchFor name x rest rule branch)
    (fresh : ∀ y ∈ branch.freshVars, Name.Unbroken y) : branch.Spelled := by
  obtain ⟨fields, -, contracted, replaced⟩ := isBranch
  rw [Branch.freshVars_of_contraction contracted, occurrences_vars] at fresh
  have args := List.forall_mem_cons.mp (Term.spelled_app.mp spelled).2
  have constructor : Head.ctor.admits rule.pattern.name = true := by
    have own := named _ isRule
    simp only [Rule.wellNamed, GRule.wellNamed, RulePattern.wellNamed, Bool.and_eq_true] at own
    exact own.1.1.2.1
  have each : ∀ field ∈ fields.map Term.var, field.Spelled := by
    intro field member
    obtain ⟨y, isField, rfl⟩ := List.mem_map.mp member
    exact Term.spelled_var.mpr (fresh y isField)
  refine ⟨spelled_of_makes named (makes_of_applyG replaced) ?_, fun contraction same => ?_⟩
  · refine List.forall_mem_append.mpr ⟨each, fun arg member => ?_⟩
    obtain ⟨r, isRest, rfl⟩ := List.mem_map.mp member
    refine Term.spelled_subst.mpr ⟨(args.2 r isRest).admits, fun y occurs => ?_⟩
    rw [Term.subst_var_single]
    split
    · exact Term.spelled_app.mpr ⟨constructor, each⟩
    · exact Term.spelled_var.mpr ((args.2 r isRest).unbroken y occurs)
  · obtain rfl := Option.some.inj (contracted.symm.trans same)
    exact ⟨Term.spelled_var.mp args.1, _, fields, rfl, constructor, fresh⟩

/-- The results of driving a spelled call are spelled, if the fresh names are unbroken. -/
theorem spelled_of_driveTerm_call {t : Term} (written : t.plain = true) (call : t.isCall = true)
    {supply later : NameSupply} (spelled : t.Spelled) (branches : List Branch)
    (driven : (ofRules rules).driveTerm t supply = (.ok branches, later))
    (fresh : ∀ branch ∈ branches, ∀ y ∈ branch.freshVars, Name.Unbroken y) :
    ∀ branch ∈ branches, branch.Spelled := by
  revert spelled branches
  refine Term.callInduction ?_ ?_ ?_ ?_ ?_ t written call
  · intro name args _ spelled branches driven _ branch member
    rw [driveTerm_fCall, Prod.mk.injEq, map_single_eq_ok] at driven
    obtain ⟨⟨u, unfolded, rfl⟩, -⟩ := driven
    obtain rfl := List.mem_singleton.mp member
    exact .part (spelled_of_makes named (makes_of_unfold unfolded) (Term.spelled_app.mp spelled).2)
  · intro name _ branches driven
    simp [driveTerm] at driven
  · intro name constructor fields rest _ spelled branches driven _ branch member
    cases found : (ofRules rules).gs.value? name with
    | none => simp [driveTerm_unlisted found] at driven
    | some listed =>
      rw [driveTerm_ctor found, Prod.mk.injEq, map_single_eq_ok] at driven
      obtain ⟨⟨u, replaced, rfl⟩, -⟩ := driven
      obtain rfl := List.mem_singleton.mp member
      have args := List.forall_mem_cons.mp (Term.spelled_app.mp spelled).2
      refine .part (spelled_of_makes named (makes_of_applyG replaced) ?_)
      exact List.forall_mem_append.mpr ⟨(Term.spelled_app.mp args.1).2, args.2⟩
  · intro name x rest _ spelled branches driven fresh branch member
    cases found : (ofRules rules).gs.value? name with
    | none => simp [driveTerm_unlisted found] at driven
    | some listed =>
      rw [driveTerm_var found] at driven
      obtain ⟨rule, isListed, isBranch⟩ := exists_left_of_forall₂ (split_ok driven).1 member
      have isRule := ((mem_of_value?_gs found rule).mp isListed).1
      exact spelled_of_branchFor named spelled isRule isBranch (fresh branch member)
  · intro name inner rest _ call ih spelled branches driven fresh branch member
    obtain ⟨listed, results, -, inside, rfl⟩ := driveTerm_nested_ok call driven
    obtain ⟨result, isResult, rfl⟩ := List.mem_map.mp member
    obtain ⟨admits, args⟩ := Term.spelled_app.mp spelled
    rw [List.forall_mem_cons] at args
    have own := ih args.1 results inside (List.forall_mem_map.mp fresh) result isResult
    refine ⟨Term.spelled_app.mpr ⟨admits, List.forall_mem_cons.mpr ⟨own.term, args.2⟩⟩, ?_⟩
    exact own.contraction

/-- The results of driving a spelled term that a tree can hold are spelled, if the fresh names are
unbroken. -/
theorem spelled_of_driveTerm {t : Term} (shallow : t.Shallow) (spelled : t.Spelled)
    {supply later : NameSupply} {branches : List Branch}
    (driven : (ofRules rules).driveTerm t supply = (.ok branches, later))
    (fresh : ∀ branch ∈ branches, ∀ y ∈ branch.freshVars, Name.Unbroken y) :
    ∀ branch ∈ branches, branch.Spelled := by
  by_cases call : t.isCall = true
  · exact spelled_of_driveTerm_call named (shallow.plain_of_isCall call) call spelled branches
      driven fresh
  · cases t with
    | var name => simp [driveTerm] at driven
    | letIn body bindings =>
      simp only [driveTerm, Prod.mk.injEq, Except.ok.injEq] at driven
      rw [← driven.1, List.forall_mem_cons, List.forall_mem_map]
      obtain ⟨inBody, each⟩ := Term.spelled_letIn.mp spelled
      exact ⟨.part inBody, fun binding member => .part (each binding member)⟩
    | app head name args =>
      cases head with
      | ctor =>
        simp only [driveTerm, Prod.mk.injEq, Except.ok.injEq] at driven
        rw [← driven.1, List.forall_mem_map]
        exact fun arg member => .part ((Term.spelled_app.mp spelled).2 arg member)
      | pattern => simp [driveTerm] at driven
      | fCall => exact absurd rfl call
      | gCall => exact absurd rfl call

end Program

namespace BuildState

open ProcessTree

variable {rules : List Rule} {t : Term} {state next : BuildState}

/-- All that a tree holds is spelled, and the supply goes on issuing unbroken names. -/
structure Spelled (state : BuildState) : Prop where
  /-- The stem of the supply is unbroken. -/
  stem : Name.Unbroken state.supercompiler.supply.stem
  /-- Every node is spelled. -/
  nodes : ∀ {i : Nat} {node : Node}, state.tree.node? i = some node → node.branch.Spelled

/-- Growing a tree by spelled results keeps all that it holds spelled. -/
theorem Spelled.grow (spelled : state.Spelled) {place : Nat} {kids : List Nat}
    {added : List Branch} (growth : Growth state.tree place kids added next.tree)
    (each : ∀ branch ∈ added, branch.Spelled) {i : Nat} {node : Node}
    (found : next.tree.node? i = some node) : node.branch.Spelled := by
  rcases growth.node?_cases found with ⟨before, there, term, contraction, -⟩ |
    ⟨branch, member, -, -, rfl⟩
  · have same : node.branch = before.branch := by rw [Node.branch, term, contraction]; rfl
    exact same ▸ spelled.nodes there
  · exact each branch member

/-- Driving a leaf keeps all that the tree holds spelled. -/
theorem Drives.spelled {leaf : Nat} {node : Node} {branches : List Branch}
    (drives : Drives state next leaf node branches) (accounted : Accounted rules t state)
    (named : ∀ rule ∈ rules, rule.wellNamed = true) (spelled : state.Spelled) :
    next.Spelled := by
  have bodies := fun rule isRule => Rule.plain_body (named rule isRule)
  have issued := (drives.descends accounted bodies).2
  have driven := drives.driven
  rw [Supercompiler.drive, Prod.mk.injEq, accounted.program] at driven
  have last := congrArg Supercompiler.supply driven.2
  have goesOn : (state.reservedFor node.term).GoesOn
      ((Program.ofRules rules).driveTerm node.term (state.reservedFor node.term)).2 :=
    Program.goesOn_driveTerm node.term _
  rw [reservedFor, accounted.program] at goesOn issued
  have stem := goesOn.advanced.stem
  rw [← last] at issued
  refine ⟨?_, spelled.grow drives.growth ?_⟩
  · rw [← last, stem]
    exact spelled.stem
  · refine Program.spelled_of_driveTerm named (accounted.shallow drives.pending.found)
      (spelled.nodes drives.pending.found).term (Prod.ext driven.1 rfl) ?_
    intro branch member y fresh
    obtain ⟨k, rfl⟩ := goesOn.exists_nameAt issued (List.mem_flatMap.mpr ⟨branch, member, fresh⟩)
    exact Name.Unbroken.nameAt spelled.stem k

/-- Folding a leaf keeps all that the tree holds spelled. -/
theorem Folds.spelled {leaf place ancestor : Nat} {node above : Node} {values : Substitution}
    (folds : Folds state next leaf node place ancestor above values) (spelled : state.Spelled) :
    next.Spelled := by
  refine ⟨folds.supercompiler ▸ spelled.stem, spelled.grow folds.growth ?_⟩
  intro branch member
  obtain rfl := List.mem_singleton.mp member
  have leafSpelled := spelled.nodes folds.pending.found
  have matched := Term.subst_of_matchAgainst folds.matched
  refine ⟨Term.spelled_letIn.mpr ⟨(spelled.nodes folds.foundAbove).term, fun binding bound => ?_⟩,
    leafSpelled.contraction⟩
  obtain ⟨occurs, becomes⟩ := Term.value_of_mem_found folds.matched bound
  have whole : (above.term.subst values).Spelled := matched.symm ▸ leafSpelled.term
  exact becomes ▸ (Term.spelled_subst.mp whole).2 binding.1 occurs

/-- In every state that a construction for well-named rules and a well-named term reaches, the names
are accounted for and all that the tree holds is spelled. -/
theorem Reaches.spelled {sc : Supercompiler} (program : sc.program = .ofRules rules)
    (named : ∀ rule ∈ rules, rule.wellNamed = true) (wellNamed : t.wellNamed = true)
    (stem : Name.Unbroken sc.supply.stem) (reaches : (start sc t).Reaches state) :
    Accounted rules t state ∧ state.Spelled := by
  have accounted : ∀ {state}, (start sc t).Reaches state → Accounted rules t state := fun reaches =>
    Reaches.accounted program (fun rule isRule => Rule.plain_body (named rule isRule))
      (Term.plain_of_wellNamed wellNamed) reaches
  refine ⟨accounted reaches, ?_⟩
  induction reaches with
  | refl =>
    refine ⟨stem, fun found => ?_⟩
    rw [eq_of_node?_ofTerm found]
    exact .part (Term.spelled_of_wellNamed wellNamed)
  | tail early grows ih =>
    rcases grows.cases (accounted early).ordered with
      ⟨_, _, _, drives⟩ | ⟨_, _, _, _, _, _, folds⟩
    · exact drives.spelled (accounted early) named ih
    · exact folds.spelled ih

end BuildState

end Supercompilation
