import Supercompilation.Proofs.Construction
import Supercompilation.Proofs.Driving
import Supercompilation.Proofs.Matching

/-!
# Fresh names in process trees

A node of a process tree holds a plain term or, after a fold, a `let` term of plain parts. Driving
such a term yields plain terms, whose variables are variables of the term, fields of the contraction
that leads to them, or variables that a rule does not take from its head.

Driving reserves the variables of the program and of the driven term only. The fields of a
contraction are nevertheless unlike every name that the tree mentions: every such name is one that
the supply knows, a variable of the program, or a variable of the root, and the variables of the
root are known once the root has been driven.
-/

namespace Supercompilation

namespace Term

/-- A term that a process tree can hold: a plain term, or a `let` term that gives variables of a
plain body plain values. -/
def Shallow : Term → Prop
  | letIn body bindings => body.plain = true ∧
    ∀ binding ∈ bindings, binding.1 ∈ body.occurrences ∧ binding.2.plain = true
  | t => t.plain = true

/-- Plain terms are shallow. -/
theorem Shallow.of_plain {t : Term} (written : t.plain = true) : t.Shallow := by
  cases t with
  | var name => exact written
  | app head name args => exact written
  | letIn body bindings => simp at written

/-- A shallow call is plain. -/
theorem Shallow.plain_of_isCall {t : Term} (shallow : t.Shallow) (call : t.isCall = true) :
    t.plain = true := by
  cases t with
  | var name => exact shallow
  | app head name args => exact shallow
  | letIn body bindings => simp [isCall] at call

/-- A shallow term mentions its variables alone. -/
theorem Shallow.mem_mentions {t : Term} (shallow : t.Shallow) {x : String} :
    x ∈ t.mentions ↔ x ∈ t.occurrences := by
  cases t with
  | var name => exact mem_mentions_of_plain shallow
  | app head name args => exact mem_mentions_of_plain shallow
  | letIn body bindings =>
    obtain ⟨plainBody, each⟩ := shallow
    refine ⟨fun mentioned => ?_, mem_mentions_of_mem_occurrences⟩
    rw [mem_occurrences_letIn]
    rcases mem_mentions_letIn.mp mentioned with inBody | ⟨binding, member, rfl | inValue⟩
    · exact .inl ((mem_mentions_of_plain plainBody).mp inBody)
    · exact .inl (each binding member).1
    · exact .inr ⟨binding, member, (mem_mentions_of_plain (each binding member).2).mp inValue⟩

/-- What a match binds is part of the term that is matched. -/
theorem occurrences_of_mem_found {pattern t : Term} {found : Substitution}
    (matched : pattern.matchAgainst t = some found) {binding : String × Term}
    (member : binding ∈ found) :
    binding.1 ∈ pattern.occurrences ∧ (∀ x ∈ binding.2.occurrences, x ∈ t.occurrences) ∧
      (t.plain = true → binding.2.plain = true) := by
  obtain ⟨occurs, becomes⟩ := value_of_mem_found matched member
  refine ⟨occurs, fun x inValue => ?_, fun written => ?_⟩
  · rw [← subst_of_matchAgainst matched, mem_occurrences_subst]
    exact ⟨binding.1, occurs, becomes.symm ▸ inValue⟩
  · rw [← subst_of_matchAgainst matched] at written
    exact becomes ▸ plain_of_plain_subst written occurs

/-- The `let` term of a match of plain terms is shallow, and has no variables but theirs. -/
theorem Shallow.of_matchAgainst {pattern t : Term} {found : Substitution}
    (matched : pattern.matchAgainst t = some found) (plainPattern : pattern.plain = true)
    (written : t.plain = true) :
    (letIn pattern found).Shallow ∧ ∀ x ∈ (letIn pattern found).occurrences,
      x ∈ pattern.occurrences ∨ x ∈ t.occurrences := by
  refine ⟨⟨plainPattern, fun binding member => ?_⟩, fun x occurs => ?_⟩
  · obtain ⟨named, -, plainValue⟩ := occurrences_of_mem_found matched member
    exact ⟨named, plainValue written⟩
  · rcases mem_occurrences_letIn.mp occurs with inBody | ⟨binding, member, inValue⟩
    · exact .inl inBody
    · exact .inr ((occurrences_of_mem_found matched member).2.1 x inValue)

end Term

namespace Program

variable {rules : List Rule}

/-- A variable of the body of a rule that the head of the rule does not have. -/
def FreeIn (rules : List Rule) (x : String) : Prop :=
  ∃ rule ∈ rules, x ∈ rule.body.occurrences ∧ x ∉ rule.headVars

/-- A variable that rules do not take from their heads is a variable of the program. -/
theorem FreeIn.mem_vars {x : String} (free : FreeIn rules x) : x ∈ (ofRules rules).vars := by
  obtain ⟨rule, member, occurs, -⟩ := free
  rw [Program.mem_vars, rules_ofRules]
  exact ⟨rule, member, Rule.mem_vars.mpr (.inr (Term.mem_vars.mpr occurs))⟩

/-- No variable is free in closed rules. -/
theorem not_freeIn (closed : ∀ rule ∈ rules, rule.Closed) {x : String} : ¬ FreeIn rules x := by
  rintro ⟨rule, member, occurs, unnamed⟩
  exact unnamed (closed rule member x (Term.mem_vars.mpr occurs))

/-- The variables of what a rule makes of arguments are theirs, or free in a rule. -/
theorem occurrences_of_makes {args : List Term} {t : Term} (makes : Makes rules args t) {x : String}
    (occurs : x ∈ t.occurrences) : (∃ arg ∈ args, x ∈ arg.occurrences) ∨ FreeIn rules x := by
  obtain ⟨rule, isRule, same, rfl⟩ := makes
  obtain ⟨y, inBody, here⟩ := Term.mem_occurrences_subst.mp occurs
  cases found : NameMap.value? (NameMap.ofPairs (rule.headVars.zip args)) y with
  | none =>
    rw [Term.subst_var_of_none found, Term.mem_occurrences_var] at here
    refine .inr ⟨rule, isRule, here ▸ inBody, fun named => ?_⟩
    rw [here] at named
    rw [← List.map_fst_zip (Nat.le_of_eq same)] at named
    obtain ⟨v, bound, -⟩ := NameMap.exists_value?_ofPairs named
    rw [found] at bound
    contradiction
  | some arg =>
    rw [Term.subst_var_of_value? found] at here
    exact .inl ⟨arg, (List.of_mem_zip (NameMap.mem_of_value?_ofPairs found)).2, here⟩

/-- What a rule with a plain body makes of plain arguments is plain. -/
theorem plain_of_makes (bodies : ∀ rule ∈ rules, rule.body.plain = true) {args : List Term}
    {t : Term} (makes : Makes rules args t) (plainArgs : ∀ arg ∈ args, arg.plain = true) :
    t.plain = true := by
  obtain ⟨rule, isRule, -, rfl⟩ := makes
  refine Term.plain_subst (bodies rule isRule) fun x _ => ?_
  cases found : NameMap.value? (NameMap.ofPairs (rule.headVars.zip args)) x with
  | none => rw [Term.subst_var_of_none found, Term.plain_var]
  | some arg =>
    rw [Term.subst_var_of_value? found]
    exact plainArgs arg (List.of_mem_zip (NameMap.mem_of_value?_ofPairs found)).2

/-- A result that comes from a term: it is plain, its variables are those of the term, fields of its
contraction or free in a rule, and its contraction is of a variable of the term. -/
structure Descends (rules : List Rule) (t : Term) (branch : Branch) : Prop where
  /-- The result is plain. -/
  plain : branch.term.plain = true
  /-- Where its variables come from. -/
  occurrences : ∀ x ∈ branch.term.occurrences,
    x ∈ t.occurrences ∨ x ∈ branch.freshVars ∨ FreeIn rules x
  /-- Which variable is contracted. -/
  contracted : ∀ contraction, branch.contraction = some contraction →
    contraction.var ∈ t.occurrences
  /-- A pattern has variables as fields. -/
  fields : ∀ contraction, branch.contraction = some contraction →
    ∃ (name : String) (names : List String), contraction.pattern = .pattern name (names.map .var)

/-- A plain part of a term, without a contraction, comes from it. -/
theorem Descends.part {t u : Term} (written : u.plain = true)
    (inside : ∀ x ∈ u.occurrences, x ∈ t.occurrences) : Descends rules t ⟨u, none⟩ :=
  ⟨written, fun x occurs => .inl (inside x occurs), by simp, by simp⟩

/-- What a rule makes of plain arguments of a term comes from the term. -/
theorem Descends.of_makes (bodies : ∀ rule ∈ rules, rule.body.plain = true) {t u : Term}
    {args : List Term} (makes : Makes rules args u) (plainArgs : ∀ arg ∈ args, arg.plain = true)
    (inside : ∀ arg ∈ args, ∀ x ∈ arg.occurrences, x ∈ t.occurrences) :
    Descends rules t ⟨u, none⟩ := by
  refine ⟨plain_of_makes bodies makes plainArgs, fun x occurs => ?_, by simp, by simp⟩
  rcases occurrences_of_makes makes occurs with ⟨arg, member, inArg⟩ | free
  · exact .inl (inside arg member x inArg)
  · exact .inr (.inr free)

/-- The branch of a case distinction comes from the call that is split. -/
theorem Descends.of_branchFor (bodies : ∀ rule ∈ rules, rule.body.plain = true) {name x : String}
    {rest : List Term} (written : (Term.gCall name (.var x :: rest)).plain = true) {rule : GRule}
    {branch : Branch} (isBranch : (ofRules rules).BranchFor name x rest rule branch) :
    Descends rules (.gCall name (.var x :: rest)) branch := by
  obtain ⟨fields, -, contracted, replaced⟩ := isBranch
  have makes := makes_of_applyG replaced
  have fresh : branch.freshVars = fields := by
    rw [Branch.freshVars_of_contraction contracted, occurrences_vars]
  have plainRest := (Term.plain_app.mp written).2
  refine ⟨plain_of_makes bodies makes fun arg member => ?_, fun y occurs => ?_, ?_, ?_⟩
  · rcases List.mem_append.mp member with inFields | inRest
    · obtain ⟨z, -, rfl⟩ := List.mem_map.mp inFields
      exact Term.plain_var z
    · obtain ⟨r, isRest, rfl⟩ := List.mem_map.mp inRest
      refine Term.plain_subst (plainRest r (List.mem_cons_of_mem _ isRest)) fun z _ => ?_
      rw [Term.subst_var_single]
      split
      · simp
      · exact Term.plain_var z
  · rcases occurrences_of_makes makes occurs with ⟨arg, member, inArg⟩ | free
    · rcases List.mem_append.mp member with inFields | inRest
      · obtain ⟨z, named, rfl⟩ := List.mem_map.mp inFields
        rw [Term.mem_occurrences_var] at inArg
        exact .inr (.inl (fresh.symm ▸ inArg ▸ named))
      · obtain ⟨r, isRest, rfl⟩ := List.mem_map.mp inRest
        obtain ⟨z, inRest, here⟩ := Term.mem_occurrences_subst.mp inArg
        rw [Term.subst_var_single] at here
        split at here
        · rw [occurrences_vars] at here
          exact .inr (.inl (fresh.symm ▸ here))
        · rw [Term.mem_occurrences_var] at here
          exact .inl (Term.mem_occurrences_app.mpr
            ⟨r, List.mem_cons_of_mem _ isRest, here ▸ inRest⟩)
    · exact .inr (.inr free)
  · intro contraction same
    rw [contracted, Option.some.injEq] at same
    exact Term.mem_occurrences_app.mpr ⟨.var x, List.mem_cons_self, by simp [← same]⟩
  · intro contraction same
    rw [contracted, Option.some.injEq] at same
    exact ⟨_, fields, by rw [← same]⟩

/-- A result of the first argument, put inside the call, comes from the call. -/
theorem Descends.inside {name : String} {inner : Term} {rest : List Term}
    (written : (Term.gCall name (inner :: rest)).plain = true) {branch : Branch}
    (descends : Descends rules inner branch) :
    Descends rules (.gCall name (inner :: rest)) (branch.inside name rest) := by
  refine ⟨?_, fun x occurs => ?_, fun contraction same => ?_, descends.fields⟩
  · refine Term.plain_app.mpr ⟨by simp, List.forall_mem_cons.mpr ⟨descends.plain, ?_⟩⟩
    exact fun r member => (Term.plain_app.mp written).2 r (List.mem_cons_of_mem _ member)
  · obtain ⟨r, member, here⟩ := Term.mem_occurrences_app.mp occurs
    rcases List.mem_cons.mp member with rfl | inRest
    · rcases descends.occurrences x here with old | new
      · exact .inl (Term.mem_occurrences_app.mpr ⟨inner, List.mem_cons_self, old⟩)
      · exact .inr new
    · exact .inl (Term.mem_occurrences_app.mpr ⟨r, List.mem_cons_of_mem _ inRest, here⟩)
  · exact Term.mem_occurrences_app.mpr
      ⟨inner, List.mem_cons_self, descends.contracted contraction same⟩

/-- The results of driving a plain call come from it. -/
theorem descends_of_driveTerm_call (bodies : ∀ rule ∈ rules, rule.body.plain = true) {t : Term}
    (written : t.plain = true) (call : t.isCall = true) {supply later : NameSupply}
    (branches : List Branch)
    (driven : (ofRules rules).driveTerm t supply = (.ok branches, later)) :
    ∀ branch ∈ branches, Descends rules t branch := by
  revert branches
  refine Term.callInduction ?_ ?_ ?_ ?_ ?_ t written call
  · intro name args written branches driven branch member
    rw [driveTerm_fCall, Prod.mk.injEq, map_single_eq_ok] at driven
    obtain ⟨⟨u, unfolded, rfl⟩, -⟩ := driven
    obtain rfl := List.mem_singleton.mp member
    refine .of_makes bodies (makes_of_unfold unfolded) (Term.plain_app.mp written).2 ?_
    exact fun arg isArg x occurs => Term.mem_occurrences_app.mpr ⟨arg, isArg, occurs⟩
  · intro name branches driven
    simp [driveTerm] at driven
  · intro name constructor fields rest written branches driven branch member
    cases found : (ofRules rules).gs.value? name with
    | none => simp [driveTerm_unlisted found] at driven
    | some listed =>
      rw [driveTerm_ctor found, Prod.mk.injEq, map_single_eq_ok] at driven
      obtain ⟨⟨u, replaced, rfl⟩, -⟩ := driven
      obtain rfl := List.mem_singleton.mp member
      have plainArgs := List.forall_mem_cons.mp (Term.plain_app.mp written).2
      refine .of_makes bodies (makes_of_applyG replaced) ?_ ?_
      · exact List.forall_mem_append.mpr ⟨(Term.plain_app.mp plainArgs.1).2, plainArgs.2⟩
      · refine List.forall_mem_append.mpr ⟨fun field isField x occurs => ?_,
          fun r isRest x occurs => ?_⟩
        · exact Term.mem_occurrences_app.mpr ⟨_, List.mem_cons_self,
            Term.mem_occurrences_app.mpr ⟨field, isField, occurs⟩⟩
        · exact Term.mem_occurrences_app.mpr ⟨r, List.mem_cons_of_mem _ isRest, occurs⟩
  · intro name x rest written branches driven branch member
    cases found : (ofRules rules).gs.value? name with
    | none => simp [driveTerm_unlisted found] at driven
    | some listed =>
      rw [driveTerm_var found] at driven
      obtain ⟨rule, -, isBranch⟩ := exists_left_of_forall₂ (split_ok driven).1 member
      exact .of_branchFor bodies written isBranch
  · intro name inner rest written call ih branches driven branch member
    obtain ⟨listed, results, -, inside, rfl⟩ := driveTerm_nested_ok call driven
    obtain ⟨result, isResult, rfl⟩ := List.mem_map.mp member
    exact (ih results inside result isResult).inside written

/-- The names that driving a plain call issues are the fields of the contractions. -/
theorem issued_of_driveTerm_call {program : Program} {t : Term} (written : t.plain = true)
    (call : t.isCall = true) {supply later : NameSupply} {branches : List Branch}
    (driven : program.driveTerm t supply = (.ok branches, later)) :
    supply.Issued (branches.flatMap Branch.freshVars) later := by
  cases splits : t.splitCall? with
  | none =>
    obtain ⟨rfl, u, rfl⟩ := driveTerm_single written call splits driven
    exact .nil later
  | some place => exact (driveTerm_split written call splits driven).1

/-- Parts without contractions have no fresh names. -/
theorem flatMap_freshVars_parts (parts : List Term) :
    (parts.map fun t => (⟨t, none⟩ : Branch)).flatMap Branch.freshVars = [] := by
  simp [Branch.freshVars]

/-- The results of driving a term that a tree can hold come from it, and the names that are issued
are the fields of their contractions. -/
theorem descends_of_driveTerm (bodies : ∀ rule ∈ rules, rule.body.plain = true) {t : Term}
    (shallow : t.Shallow) {supply later : NameSupply} {branches : List Branch}
    (driven : (ofRules rules).driveTerm t supply = (.ok branches, later)) :
    (∀ branch ∈ branches, Descends rules t branch) ∧
      supply.Issued (branches.flatMap Branch.freshVars) later := by
  by_cases call : t.isCall = true
  · have written := shallow.plain_of_isCall call
    exact ⟨descends_of_driveTerm_call bodies written call branches driven,
      issued_of_driveTerm_call written call driven⟩
  · cases t with
    | var name => simp [driveTerm] at driven
    | letIn body bindings =>
      simp only [driveTerm, Prod.mk.injEq, Except.ok.injEq] at driven
      obtain ⟨rfl, rfl⟩ := driven
      obtain ⟨plainBody, each⟩ := shallow
      refine ⟨List.forall_mem_cons.mpr ⟨.part plainBody fun x occurs => ?_, ?_⟩, ?_⟩
      · exact Term.mem_occurrences_letIn.mpr (.inl occurs)
      · intro branch member
        obtain ⟨binding, isBinding, rfl⟩ := List.mem_map.mp member
        refine .part (each binding isBinding).2 fun x occurs => ?_
        exact Term.mem_occurrences_letIn.mpr (.inr ⟨binding, isBinding, occurs⟩)
      · have none := flatMap_freshVars_parts (body :: bindings.map Prod.snd)
        rw [List.map_cons, List.map_map] at none
        exact none ▸ .nil supply
    | app head name args =>
      cases head with
      | ctor =>
        simp only [driveTerm, Prod.mk.injEq, Except.ok.injEq] at driven
        obtain ⟨rfl, rfl⟩ := driven
        rw [flatMap_freshVars_parts]
        refine ⟨fun branch member => ?_, .nil supply⟩
        obtain ⟨arg, isArg, rfl⟩ := List.mem_map.mp member
        refine .part ((Term.plain_app.mp shallow).2 arg isArg) fun x occurs => ?_
        exact Term.mem_occurrences_app.mpr ⟨arg, isArg, occurs⟩
      | pattern => simp [driveTerm] at driven
      | fCall => exact absurd rfl call
      | gCall => exact absurd rfl call

end Program

/-- The names that a contraction mentions: the variable and the fields of the pattern. -/
def Contraction.names (contraction : Contraction) : List String :=
  contraction.var :: contraction.pattern.mentions

/-- The names that a result mentions, in its term or in its contraction. -/
def Branch.names (branch : Branch) : List String :=
  branch.term.mentions ++ (branch.contraction.map Contraction.names).getD []

/-- The fresh names of a result are among those that it mentions. -/
theorem Branch.mem_names_of_mem_freshVars {branch : Branch} {x : String}
    (fresh : x ∈ branch.freshVars) : x ∈ branch.names := by
  rw [freshVars] at fresh
  split at fresh
  · contradiction
  · rename_i contraction contracted
    rw [names, contracted]
    refine List.mem_append_right _ (List.mem_cons_of_mem _ ?_)
    exact Term.mem_mentions_of_mem_occurrences fresh

/-- The names that a result mentions, if it comes from a term: its variables, the contracted
variable and the fresh names. -/
theorem Program.Descends.mem_names {rules : List Rule} {t : Term} {branch : Branch}
    (descends : Descends rules t branch) {x : String} (named : x ∈ branch.names) :
    x ∈ t.occurrences ∨ x ∈ branch.freshVars ∨ FreeIn rules x := by
  rcases List.mem_append.mp named with inTerm | inContraction
  · exact descends.occurrences x ((Term.mem_mentions_of_plain descends.plain).mp inTerm)
  · cases contracted : branch.contraction with
    | none => simp [contracted] at inContraction
    | some contraction =>
      rw [contracted, Option.map_some, Option.getD_some, Contraction.names, List.mem_cons]
        at inContraction
      rcases inContraction with rfl | inPattern
      · exact .inl (descends.contracted contraction contracted)
      · obtain ⟨name, names, shape⟩ := descends.fields contraction contracted
        rw [shape] at inPattern
        obtain ⟨field, isField, here⟩ := Term.mem_mentions_app.mp inPattern
        obtain ⟨y, isName, rfl⟩ := List.mem_map.mp isField
        rw [Term.mem_mentions_var] at here
        refine .inr (.inl ?_)
        rw [Branch.freshVars_of_contraction contracted, shape, occurrences_vars]
        exact here ▸ isName

/-- What a node holds, as a result of driving. -/
def Node.branch (node : Node) : Branch := ⟨node.term, node.contraction⟩

namespace BuildState

open ProcessTree

variable {rules : List Rule} {t : Term} {state next : BuildState}

/-- The names in a tree are accounted for: its terms are shallow, every name is known to the supply,
a variable of the program or a variable of the root, and the variables of the root are known once it
has been driven. -/
structure Accounted (rules : List Rule) (t : Term) (state : BuildState) : Prop where
  /-- The program is that of the rules. -/
  program : state.supercompiler.program = .ofRules rules
  /-- The links of the tree are in order. -/
  ordered : state.tree.WellFormed
  /-- The tree holds shallow terms. -/
  shallow : ∀ {i : Nat} {node : Node}, state.tree.node? i = some node → node.term.Shallow
  /-- No name is unaccounted for. -/
  known : ∀ {i : Nat} {node : Node}, state.tree.node? i = some node → ∀ x ∈ node.branch.names,
    state.supercompiler.supply.Knows x ∨ x ∈ (Program.ofRules rules).vars ∨ x ∈ t.occurrences
  /-- The root has not been driven yet, or its variables are known. -/
  rootKnown : state.tree = .ofTerm t ∨
    ∀ x ∈ t.occurrences, state.supercompiler.supply.Knows x

/-- The supply from which driving a term takes names: the variables of the program and of the term
are reserved. -/
def reservedFor (state : BuildState) (t : Term) : NameSupply :=
  (state.supercompiler.supply.reserve state.supercompiler.program.vars).reserve t.vars

/-- A name that is known, in the program or in the term is known when the term is driven. -/
theorem knows_reservedFor {u : Term} {x : String} :
    (state.reservedFor u).Knows x ↔ state.supercompiler.supply.Knows x ∨
      x ∈ state.supercompiler.program.vars ∨ x ∈ u.occurrences := by
  rw [reservedFor, NameSupply.knows_reserve, NameSupply.knows_reserve, Term.mem_vars, or_assoc]

/-- The only node of the tree of a root. -/
theorem eq_of_node?_ofTerm {i : Nat} {node : Node} (found : (ofTerm t).node? i = some node) :
    node = ⟨t, none, none, []⟩ := by
  have inside := Array.mem_of_getElem? found
  simpa [ofTerm] using inside

/-- A construction starts with all names accounted for. -/
theorem accounted_start {sc : Supercompiler} (program : sc.program = .ofRules rules)
    (written : t.plain = true) : Accounted rules t (start sc t) where
  program := program
  ordered := .ofTerm t
  shallow found := by
    rw [eq_of_node?_ofTerm found]
    exact .of_plain written
  known found x named := by
    rw [eq_of_node?_ofTerm found] at named
    simp only [Node.branch, Branch.names, Option.map_none, Option.getD_none, List.append_nil]
      at named
    exact .inr (.inr ((Term.mem_mentions_of_plain written).mp named))
  rootKnown := .inl rfl

/-- The variables of the root are known when a node is driven. -/
theorem Accounted.knows_root (accounted : Accounted rules t state) {i : Nat} {node : Node}
    (found : state.tree.node? i = some node) {x : String} (occurs : x ∈ t.occurrences) :
    (state.reservedFor node.term).Knows x := by
  rw [knows_reservedFor]
  rcases accounted.rootKnown with alone | known
  · rw [alone] at found
    rw [eq_of_node?_ofTerm found]
    exact .inr (.inr occurs)
  · exact .inl (known x occurs)

/-- Every name in the tree is known when a node is driven. -/
theorem Accounted.knows_names (accounted : Accounted rules t state) {i : Nat} {node : Node}
    (found : state.tree.node? i = some node) {j : Nat} {other : Node}
    (there : state.tree.node? j = some other) {x : String} (named : x ∈ other.branch.names) :
    (state.reservedFor node.term).Knows x := by
  rcases accounted.known there x named with known | inProgram | inRoot
  · exact knows_reservedFor.mpr (.inl known)
  · exact knows_reservedFor.mpr (.inr (.inl (accounted.program.symm ▸ inProgram)))
  · exact accounted.knows_root found inRoot

namespace Drives

variable {leaf : Nat} {node : Node} {branches : List Branch}

/-- The results of driving a leaf come from its term, and the names that are issued are the fields
of their contractions. -/
theorem descends (drives : Drives state next leaf node branches)
    (accounted : Accounted rules t state)
    (bodies : ∀ rule ∈ rules, rule.body.plain = true) :
    (∀ branch ∈ branches, Program.Descends rules node.term branch) ∧
      (state.reservedFor node.term).Issued (branches.flatMap Branch.freshVars)
        next.supercompiler.supply := by
  obtain ⟨later, driven⟩ : ∃ later, state.supercompiler.program.driveTerm node.term
      (state.reservedFor node.term) = (.ok branches, later) ∧
        later = next.supercompiler.supply := by
    have driven := drives.driven
    rw [Supercompiler.drive, Prod.mk.injEq] at driven
    exact ⟨_, Prod.ext driven.1 rfl, congrArg Supercompiler.supply driven.2⟩
  rw [accounted.program, driven.2] at driven
  exact Program.descends_of_driveTerm bodies (accounted.shallow drives.pending.found) driven.1

/-- Driving a leaf keeps all names accounted for. -/
theorem accounted (drives : Drives state next leaf node branches)
    (accounted : Accounted rules t state) (bodies : ∀ rule ∈ rules, rule.body.plain = true) :
    Accounted rules t next := by
  obtain ⟨descends, issued⟩ := drives.descends accounted bodies
  have inTerm : ∀ x ∈ node.term.occurrences, next.supercompiler.supply.Knows x :=
    fun x occurs => issued.grows x (knows_reservedFor.mpr (.inr (.inr occurs)))
  have inProgram : ∀ x, Program.FreeIn rules x → next.supercompiler.supply.Knows x :=
    fun x free => issued.grows x
      (knows_reservedFor.mpr (.inr (.inl (accounted.program.symm ▸ free.mem_vars))))
  refine ⟨drives.program.trans accounted.program,
    drives.growth.wellFormed accounted.ordered, ?_, ?_, ?_⟩
  · intro i other found
    rcases drives.growth.node?_cases found with ⟨before, there, term, -⟩ |
      ⟨branch, member, -, -, rfl⟩
    · exact term ▸ accounted.shallow there
    · exact .of_plain (descends branch member).plain
  · intro i other found x named
    rcases drives.growth.node?_cases found with ⟨before, there, term, contraction, -⟩ |
      ⟨branch, member, -, -, rfl⟩
    · have same : other.branch = before.branch := by rw [Node.branch, term, contraction]; rfl
      rw [same] at named
      exact .inl (issued.grows x (accounted.knows_names drives.pending.found there named))
    · rcases (descends branch member).mem_names named with old | fresh | free
      · exact .inl (inTerm x old)
      · exact .inl (issued.known x (List.mem_flatMap.mpr ⟨branch, member, fresh⟩))
      · exact .inl (inProgram x free)
  · exact .inr fun x occurs => issued.grows x (accounted.knows_root drives.pending.found occurs)

end Drives

namespace Folds

variable {leaf place ancestor : Nat} {node above : Node} {values : Substitution}

/-- The ancestor to which a leaf is folded holds a call, as the leaf does. -/
theorem call_above (folds : Folds state next leaf node place ancestor above values) :
    above.term.isCall = true := by
  rw [Term.isCall_iff_kind, folds.kind, ← Term.isCall_iff_kind]
  exact folds.call

/-- The calls that a fold is about are plain. -/
theorem plain (folds : Folds state next leaf node place ancestor above values)
    (accounted : Accounted rules t state) :
    above.term.plain = true ∧ node.term.plain = true :=
  ⟨(accounted.shallow folds.foundAbove).plain_of_isCall folds.call_above,
    (accounted.shallow folds.pending.found).plain_of_isCall folds.call⟩

/-- The variables of the `let` term of a fold are those of the ancestor and of the leaf. -/
theorem occurrences (folds : Folds state next leaf node place ancestor above values)
    (accounted : Accounted rules t state) :
    (Term.letIn above.term values).Shallow ∧ ∀ x ∈ (Term.letIn above.term values).occurrences,
      x ∈ above.term.occurrences ∨ x ∈ node.term.occurrences :=
  Term.Shallow.of_matchAgainst folds.matched (folds.plain accounted).1
    (folds.plain accounted).2

/-- The names of the node of a fold are those of the ancestor and of the leaf. -/
theorem mem_names (folds : Folds state next leaf node place ancestor above values)
    (accounted : Accounted rules t state) {x : String}
    (named : x ∈ Branch.names ⟨.letIn above.term values, node.contraction⟩) :
    x ∈ above.branch.names ∨ x ∈ node.branch.names := by
  obtain ⟨shallow, inside⟩ := folds.occurrences accounted
  rcases List.mem_append.mp named with inTerm | inContraction
  · rcases inside x (shallow.mem_mentions.mp inTerm) with inAbove | inLeaf
    · exact .inl (List.mem_append_left _ (Term.mem_mentions_of_mem_occurrences inAbove))
    · exact .inr (List.mem_append_left _ (Term.mem_mentions_of_mem_occurrences inLeaf))
  · exact .inr (List.mem_append_right _ inContraction)

/-- Folding a leaf keeps all names accounted for. -/
theorem accounted (folds : Folds state next leaf node place ancestor above values)
    (accounted : Accounted rules t state) : Accounted rules t next := by
  refine ⟨?_, folds.growth.wellFormed accounted.ordered, ?_, ?_, ?_⟩
  · rw [folds.supercompiler, accounted.program]
  · intro i other found
    rcases folds.growth.node?_cases found with ⟨before, there, term, -⟩ |
      ⟨branch, member, -, -, rfl⟩
    · exact term ▸ accounted.shallow there
    · obtain rfl := List.mem_singleton.mp member
      exact (folds.occurrences accounted).1
  · intro i other found x named
    rw [folds.supercompiler]
    rcases folds.growth.node?_cases found with ⟨before, there, term, contraction, -⟩ |
      ⟨branch, member, -, -, rfl⟩
    · have same : other.branch = before.branch := by rw [Node.branch, term, contraction]; rfl
      exact accounted.known there x (same ▸ named)
    · obtain rfl := List.mem_singleton.mp member
      rcases folds.mem_names accounted named with inAbove | inLeaf
      · exact accounted.known folds.foundAbove x inAbove
      · exact accounted.known folds.pending.found x inLeaf
  · right
    rcases accounted.rootKnown with alone | known
    · -- The only leaf of the tree of a root has no parent, and is not folded.
      have found := folds.pending.found
      have parent := folds.parent
      rw [alone] at found
      rw [eq_of_node?_ofTerm found] at parent
      contradiction
    · rw [folds.supercompiler]
      exact known

end Folds

/-- A step keeps all names accounted for. -/
theorem Grows.accounted (grows : state.Grows next) (accounted : Accounted rules t state)
    (bodies : ∀ rule ∈ rules, rule.body.plain = true) : Accounted rules t next := by
  rcases grows.cases accounted.ordered with ⟨_, _, _, drives⟩ | ⟨_, _, _, _, _, _, folds⟩
  · exact drives.accounted accounted bodies
  · exact folds.accounted accounted

/-- Every state that a construction reaches has its names accounted for. -/
theorem Reaches.accounted {sc : Supercompiler} (program : sc.program = .ofRules rules)
    (bodies : ∀ rule ∈ rules, rule.body.plain = true) (written : t.plain = true)
    (reaches : (start sc t).Reaches state) : Accounted rules t state := by
  induction reaches with
  | refl => exact accounted_start program written
  | tail _ grows ih => exact grows.accounted ih bodies

end BuildState

end Supercompilation
