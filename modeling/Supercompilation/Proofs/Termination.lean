import Mathlib
import Supercompilation.Proofs.Divergence
import Supercompilation.Proofs.Outcome
import Supercompilation.Proofs.Ranking

/-!
# Constructions for ranked programs

The construction for a term under a ranked program comes to an end. A leaf that needs more work
makes way for leaves with a smaller load, in the sense of `Term.load`: driving a call makes its term
lighter, and driving a constructor or a `let` term leads to parts that weigh no more and have fewer
nodes. The body of a `let` term needs no more work, since an ancestor holds it; so folding a call
leaves parts of the call to be done.

The loads of the leaves that need more work are a multiset from which every step takes one and to
which it adds finitely many smaller ones.
-/

namespace Supercompilation

namespace Term

variable {rank : String → Nat} {base : Nat}

/-- The greatest of the numbers of some bound values. -/
def peak (number : Term → Nat) (bindings : List (String × Term)) : Nat :=
  (bindings.map fun binding => number binding.2).foldr max ⊥

/-- What is to be done at a leaf, for a comparison of leaves: the weight of its term, then the
number of nodes. The load of a `let` term lies between those of its values and of a call of which
they are parts. -/
def load (rank : String → Nat) (base : Nat) : Term → Nat ×ₗ Nat
  | letIn _ bindings => toLex (peak (weight rank base) bindings, 2 * peak size bindings + 1)
  | t => toLex (t.weight rank base, 2 * t.size)

/-- The load of a plain term. -/
theorem load_of_plain {t : Term} (written : t.plain = true) :
    t.load rank base = toLex (t.weight rank base, 2 * t.size) := by
  cases t with
  | var name => rfl
  | app head name args => rfl
  | letIn body bindings => simp at written

/-- A value has no greater number than the greatest. -/
theorem le_peak (number : Term → Nat) {bindings : List (String × Term)} {binding : String × Term}
    (member : binding ∈ bindings) : number binding.2 ≤ peak number bindings :=
  List.le_max_of_le (List.mem_map_of_mem member) (Nat.le_refl _)

/-- The greatest number is bounded as all are. -/
theorem peak_le (number : Term → Nat) {bindings : List (String × Term)} {n : Nat}
    (each : ∀ binding ∈ bindings, number binding.2 ≤ n) : peak number bindings ≤ n := by
  refine List.max_le_of_forall_le _ n fun m member => ?_
  obtain ⟨binding, isBinding, rfl⟩ := List.mem_map.mp member
  exact each binding isBinding

/-- A lighter plain term has a smaller load. -/
theorem load_lt_of_weight_lt {t u : Term} (written : t.plain = true) (written' : u.plain = true)
    (lighter : u.weight rank base < t.weight rank base) : u.load rank base < t.load rank base := by
  rw [load_of_plain written, load_of_plain written', Prod.Lex.toLex_lt_toLex]
  exact .inl lighter

/-- An argument of a constructor has a smaller load. -/
theorem load_arg_lt {name : String} {args : List Term} {t : Term}
    (written : (ctor name args).plain = true) (member : t ∈ args) :
    t.load rank base < (ctor name args).load rank base := by
  have smaller := size_le_sizeArgs member
  rw [load_of_plain written, load_of_plain ((plain_app.mp written).2 t member),
    Prod.Lex.toLex_lt_toLex']
  refine ⟨?_, fun _ => ?_⟩
  · rw [weight_ctor]
    exact weight_le_weightArgs member
  · rw [size_app]
    dsimp only
    omega

/-- A plain value of a `let` term has a smaller load. -/
theorem load_value_lt {body : Term} {bindings : List (String × Term)} {binding : String × Term}
    (member : binding ∈ bindings) (written : binding.2.plain = true) :
    binding.2.load rank base < (letIn body bindings).load rank base := by
  have smaller := le_peak size member
  rw [load_of_plain written, load, Prod.Lex.toLex_lt_toLex']
  exact ⟨le_peak (weight rank base) member, fun _ => by dsimp only; omega⟩

/-- What a variable of a term becomes is a part of what the term becomes, and has no greater number,
for numbers that are no greater for arguments than for applications. -/
theorem number_le_number_subst {number : Term → Nat}
    (parts : ∀ head name args, ∀ t ∈ args, number t ≤ number (app head name args)) {t : Term}
    (written : t.plain = true) {values : Substitution} {x : String} (occurs : x ∈ t.occurrences) :
    number ((var x).subst values) ≤ number (t.subst values) := by
  induction t with
  | var name => rw [mem_occurrences_var.mp occurs]
  | letIn body bindings => simp at written
  | app head name args ih =>
    obtain ⟨t, isArg, inside⟩ := mem_occurrences_app.mp occurs
    rw [subst_app]
    exact (ih t isArg ((plain_app.mp written).2 t isArg) inside).trans
      (parts _ _ _ _ (List.mem_map_of_mem isArg))

/-- The values with which a call is matched have fewer nodes than the call: they are parts of its
arguments. -/
theorem size_lt_of_mem_found {pattern t : Term} (written : pattern.plain = true)
    (call : pattern.isCall = true) {found : Substitution}
    (matched : pattern.matchAgainst t = some found) {binding : String × Term}
    (member : binding ∈ found) : binding.2.size < t.size := by
  obtain ⟨occurs, becomes⟩ := value_of_mem_found matched member
  rw [← becomes, ← subst_of_matchAgainst matched]
  cases pattern with
  | var name => simp [isCall] at call
  | letIn body bindings => simp at written
  | app head name args =>
    obtain ⟨arg, isArg, inside⟩ := mem_occurrences_app.mp occurs
    have parts : ∀ head name args, ∀ t ∈ args, t.size ≤ (app head name args).size := by
      intro head name args t isArg
      have smaller := size_le_sizeArgs isArg
      rw [size_app]
      omega
    have part : ((var binding.1).subst found).size ≤ (arg.subst found).size :=
      number_le_number_subst parts ((plain_app.mp written).2 arg isArg) inside
    have whole := size_le_sizeArgs (List.mem_map_of_mem (f := subst found) isArg)
    rw [subst_app, size_app]
    omega

/-- What a call is matched with is a `let` term with a smaller load. -/
theorem load_letIn_lt (positive : 0 < base) {pattern t : Term} (written : pattern.plain = true)
    (call : pattern.isCall = true) (written' : t.plain = true) {found : Substitution}
    (matched : pattern.matchAgainst t = some found) :
    (letIn pattern found).load rank base < t.load rank base := by
  rw [load_of_plain written', load, Prod.Lex.toLex_lt_toLex']
  refine ⟨peak_le _ fun binding member => ?_, fun _ => ?_⟩
  · obtain ⟨occurs, becomes⟩ := value_of_mem_found matched member
    rw [← becomes, ← subst_of_matchAgainst matched]
    refine number_le_number_subst (fun head name args t isArg => ?_) written occurs
    exact (weight_le_weightArgs isArg).trans (weightArgs_le_weight positive head name args)
  · have smaller : peak size found ≤ t.size - 1 := peak_le _ fun binding member =>
      Nat.le_sub_one_of_lt (size_lt_of_mem_found written call matched member)
    have positive := t.size_pos
    dsimp only
    omega

end Term

namespace ProcessTree

variable {tree grown : ProcessTree}

/-- The loads of those of some leaves that need more work. -/
def burden (rank : String → Nat) (base : Nat) (tree : ProcessTree) (leaves : List Nat) :
    Multiset (Nat ×ₗ Nat) :=
  (leaves.filterMap fun i =>
    if tree.isProcessed i then none else (tree.node? i).map fun node => node.term.load rank base)

variable {rank : String → Nat} {base : Nat}

/-- The loads of leaves one behind the other. -/
theorem burden_append (tree : ProcessTree) (before after : List Nat) :
    tree.burden rank base (before ++ after) =
      tree.burden rank base before + tree.burden rank base after := by
  rw [burden, List.filterMap_append, ← Multiset.coe_add]
  rfl

/-- Growth does not change the loads of old nodes. -/
theorem Growth.burden_old {place : Nat} {kids : List Nat} {added : List Branch}
    (growth : Growth tree place kids added grown) (ordered : tree.WellFormed) {leaves : List Nat}
    (inside : ∀ i ∈ leaves, i < tree.nodes.size) :
    grown.burden rank base leaves = tree.burden rank base leaves := by
  rw [burden, burden]
  refine congrArg _ (List.filterMap_congr fun i member => ?_)
  obtain ⟨node, found⟩ := node?_isSome_iff.mpr (inside i member)
  obtain ⟨after, there, term, -⟩ := growth.exists_node?_old found
  rw [growth.isProcessed_old ordered (inside i member), found, there, Option.map_some,
    Option.map_some, term]

end ProcessTree

namespace BuildState

open ProcessTree

variable {rank : String → Nat} {rules : List Rule} {used : List String} {t : Term}
  {state next : BuildState} {leaf : Nat} {node : Node}

/-- A construction under tame rules: its names are accounted for, its terms are made of constructors
in use, and a `let` term repeats a call of an ancestor. -/
structure Subsiding (rules : List Rule) (used : List String) (t : Term) (state : BuildState) :
    Prop where
  /-- The names are accounted for. -/
  accounted : Accounted rules t state
  /-- The constructors are in use. -/
  inUse : ∀ {i : Nat} {node : Node}, state.tree.node? i = some node →
    ∀ constructor ∈ node.term.constructors, constructor ∈ used
  /-- The body of a `let` term is a call that an ancestor holds. -/
  repeats : ∀ {i : Nat} {node : Node}, state.tree.node? i = some node →
    ∀ {body : Term} {bindings : List (String × Term)}, node.term = .letIn body bindings →
      body.isCall = true ∧ ∃ a ∈ state.tree.ancestors i, state.tree.HasTerm a body

/-- A construction starts subsiding. -/
theorem subsiding_start {sc : Supercompiler} (program : sc.program = .ofRules rules)
    (written : t.plain = true) (inUse : ∀ constructor ∈ t.constructors, constructor ∈ used) :
    (start sc t).Subsiding rules used t where
  accounted := accounted_start program written
  inUse found := by
    rw [eq_of_node?_ofTerm found]
    exact inUse
  repeats found := by
    rw [eq_of_node?_ofTerm found]
    rintro body bindings rfl
    simp at written

/-- A `let` term of an old node still repeats a call of an ancestor. -/
theorem Subsiding.repeats_old (subsiding : state.Subsiding rules used t) {place : Nat}
    {kids : List Nat} {added : List Branch}
    (growth : Growth state.tree place kids added next.tree) {i : Nat}
    (found : state.tree.node? i = some node) {body : Term} {bindings : List (String × Term)}
    (held : node.term = .letIn body bindings) :
    body.isCall = true ∧ ∃ a ∈ next.tree.ancestors i, next.tree.HasTerm a body := by
  obtain ⟨call, a, above, repeated⟩ := subsiding.repeats found held
  refine ⟨call, a, ?_, growth.hasTerm_old repeated⟩
  rwa [growth.ancestors_old subsiding.accounted.ordered (node?_isSome_iff.mp ⟨node, found⟩)]

section Drives

variable {branches : List Branch} (tame : Program.Tame rank rules used)
  (drives : Drives state next leaf node branches) (subsiding : state.Subsiding rules used t)

include tame drives subsiding

/-- The results of driving a leaf are made of constructors in use. They have smaller loads, but for
the body of a `let` term. -/
theorem Drives.load_lt {branch : Branch} (member : branch ∈ branches) :
    (∀ constructor ∈ branch.term.constructors, constructor ∈ used) ∧
    (branch.term.load rank (Program.span rules) < node.term.load rank (Program.span rules) ∨
      ∃ bindings, node.term = .letIn branch.term bindings) := by
  have shallow := subsiding.accounted.shallow drives.pending.found
  have inUse := subsiding.inUse drives.pending.found
  have plainBranch := ((drives.descends subsiding.accounted tame.bodies).1 branch member).plain
  have driven := congrArg Prod.fst drives.driven
  rw [Supercompiler.drive, subsiding.accounted.program] at driven
  by_cases call : node.term.isCall = true
  · have written := shallow.plain_of_isCall call
    have lighter := tame.lighter_of_driveTerm written call inUse (Prod.ext driven rfl) branch member
    exact ⟨lighter.inUse, .inl (Term.load_lt_of_weight_lt written plainBranch lighter.weight_lt)⟩
  · cases held : node.term with
    | var name => simp [held, Program.driveTerm] at driven
    | letIn body bindings =>
      simp only [held, Program.driveTerm, Except.ok.injEq] at driven
      subst driven
      rw [held] at inUse
      rcases List.mem_cons.mp member with rfl | isValue
      · refine ⟨fun constructor applied => ?_, .inr ⟨bindings, rfl⟩⟩
        exact inUse constructor (Term.mem_constructors_letIn.mpr (.inl applied))
      · obtain ⟨binding, isBinding, rfl⟩ := List.mem_map.mp isValue
        refine ⟨fun constructor applied => ?_, .inl (Term.load_value_lt isBinding plainBranch)⟩
        exact inUse constructor (Term.mem_constructors_letIn.mpr
          (.inr ⟨binding, isBinding, applied⟩))
    | app head name args =>
      rw [held] at inUse shallow
      cases head with
      | ctor =>
        simp only [held, Program.driveTerm, Except.ok.injEq] at driven
        subst driven
        obtain ⟨arg, isArg, rfl⟩ := List.mem_map.mp member
        refine ⟨fun constructor applied => ?_, .inl (Term.load_arg_lt shallow isArg)⟩
        exact inUse constructor (Term.constructors_of_arg isArg applied)
      | pattern => simp [held, Program.driveTerm] at driven
      | fCall => exact absurd (by rw [held]; rfl) call
      | gCall => exact absurd (by rw [held]; rfl) call

/-- Driving a leaf leaves the construction subsiding. -/
theorem Drives.next_subsiding : next.Subsiding rules used t where
  accounted := drives.accounted subsiding.accounted tame.bodies
  inUse found := by
    rcases drives.growth.node?_cases found with ⟨before, there, term, -⟩ |
      ⟨branch, member, -, -, rfl⟩
    · rw [term]
      exact subsiding.inUse there
    · exact (drives.load_lt tame subsiding member).1
  repeats found body bindings held := by
    rcases drives.growth.node?_cases found with ⟨before, there, term, -⟩ |
      ⟨branch, member, -, -, rfl⟩
    · exact subsiding.repeats_old drives.growth there (term ▸ held)
    · have plain := ((drives.descends subsiding.accounted tame.bodies).1 branch member).plain
      rw [show branch.term = .letIn body bindings from held] at plain
      simp at plain

/-- The children of a driven leaf that need more work have smaller loads: the body of a `let` term
needs none, since it repeats a call of an ancestor. -/
theorem Drives.burden_lt : ∀ load ∈ next.tree.burden rank (Program.span rules)
    (next.tree.children leaf), load < node.term.load rank (Program.span rules) := by
  have ordered := subsiding.accounted.ordered
  intro load member
  obtain ⟨c, child, due⟩ := List.mem_filterMap.mp member
  rw [drives.growth.children_eq, if_pos rfl] at child
  obtain ⟨k, bound, rfl⟩ := List.mem_map.mp child
  rw [List.mem_range] at bound
  have found := drives.growth.new k
  rw [List.getElem?_eq_getElem bound, Option.map_some] at found
  rw [found] at due
  simp only [Option.ite_none_left_eq_some, Option.map_some, Option.some.injEq] at due
  obtain ⟨unprocessed, rfl⟩ := due
  rcases (drives.load_lt tame subsiding (List.getElem_mem bound)).2 with smaller | ⟨bindings, held⟩
  · exact smaller
  · obtain ⟨call, a, above, repeated⟩ := subsiding.repeats drives.pending.found held
    have isAbove : a ∈ next.tree.ancestors (state.tree.nodes.size + k) := by
      rw [drives.growth.ancestors_new ordered (Nat.le_add_right _ k)
        (node?_isSome_iff.mp ⟨_, found⟩)]
      exact List.mem_cons_of_mem _ above
    have processed := isProcessed_of_hasTerm found call isAbove (drives.growth.hasTerm_old repeated)
    exact absurd processed unprocessed

end Drives

section Folds

variable {place ancestor : Nat} {above : Node} {values : Substitution}
  (folds : Folds state next leaf node place ancestor above values)
  (subsiding : state.Subsiding rules used t)

include folds subsiding

/-- Folding a leaf leaves the construction subsiding. -/
theorem Folds.next_subsiding : next.Subsiding rules used t where
  accounted := folds.accounted subsiding.accounted
  inUse found := by
    rcases folds.growth.node?_cases found with ⟨before, there, term, -⟩ |
      ⟨branch, member, -, -, rfl⟩
    · rw [term]
      exact subsiding.inUse there
    · obtain rfl := List.mem_singleton.mp member
      intro constructor applied
      rcases Term.mem_constructors_letIn.mp applied with inBody | ⟨binding, isBinding, inValue⟩
      · exact subsiding.inUse folds.foundAbove constructor inBody
      · -- A value is a part of the leaf.
        obtain ⟨occurs, becomes⟩ := Term.value_of_mem_found folds.matched isBinding
        refine subsiding.inUse folds.pending.found constructor ?_
        rw [← Term.subst_of_matchAgainst folds.matched, Term.mem_constructors_subst]
        exact .inr ⟨binding.1, occurs, becomes.symm ▸ inValue⟩
  repeats {i _} found body bindings held := by
    have ordered := subsiding.accounted.ordered
    rcases folds.growth.node?_cases found with ⟨before, there, term, -⟩ |
      ⟨branch, member, outside, -, rfl⟩
    · exact subsiding.repeats_old folds.growth there (term ▸ held)
    · obtain rfl := List.mem_singleton.mp member
      obtain ⟨rfl, rfl⟩ := Term.letIn.inj held
      refine ⟨folds.call_above, ancestor, ?_,
        folds.growth.hasTerm_old ⟨above, folds.foundAbove, rfl⟩⟩
      rw [folds.growth.ancestors_new ordered outside (node?_isSome_iff.mp ⟨_, found⟩),
        ← ancestors_of_parent ordered (parent?_of_node? folds.pending.found ▸ folds.parent)]
      exact folds.ancestor_mem

/-- The `let` term that takes the place of a leaf has a smaller load. -/
theorem Folds.burden_lt : ∀ load ∈ next.tree.burden rank (Program.span rules)
    [state.tree.nodes.size], load < node.term.load rank (Program.span rules) := by
  obtain ⟨plainAbove, plainLeaf⟩ := folds.plain subsiding.accounted
  intro load member
  obtain ⟨c, same, due⟩ := List.mem_filterMap.mp member
  obtain rfl := List.mem_singleton.mp same
  have found : next.tree.node? state.tree.nodes.size = _ := folds.growth.new 0
  rw [found] at due
  simp only [Option.ite_none_left_eq_some, List.getElem?_cons_zero, Option.map_some,
    Option.some.injEq] at due
  obtain ⟨-, rfl⟩ := due
  exact Term.load_letIn_lt (Program.span_pos rules) plainAbove folds.call_above plainLeaf
    folds.matched

end Folds

/-- A step leaves the construction subsiding. -/
theorem Grows.next_subsiding (tame : Program.Tame rank rules used)
    (subsiding : state.Subsiding rules used t) (grows : state.Grows next) :
    next.Subsiding rules used t := by
  rcases grows.cases subsiding.accounted.ordered with ⟨_, _, _, drives⟩ | ⟨_, _, _, _, _, _, folds⟩
  · exact drives.next_subsiding tame subsiding
  · exact folds.next_subsiding subsiding

/-- If a leaf makes way for others that need less work, the burden of the tree falls: one load is
taken from it and smaller ones are added. -/
theorem cutExpand_of_leaves {place : Nat} {kids : List Nat} {added : List Branch}
    (growth : Growth state.tree place kids added next.tree) (ordered : state.tree.WellFormed)
    (pending : state.Pending leaf node) {base : Nat} {others : List Nat}
    (leaves : next.tree.leaves = state.tree.leaves.flatMap (inPlace leaf others))
    (smaller : ∀ load ∈ next.tree.burden rank base others, load < node.term.load rank base) :
    Relation.CutExpand (· < ·) (next.tree.burden rank base next.tree.leaves)
      (state.tree.burden rank base state.tree.leaves) := by
  have inside : ∀ i ∈ state.tree.leaves, i < state.tree.nodes.size := fun i isLeaf =>
    ((ProcessTree.mem_leaves ordered).mp isLeaf).1.lt_size ordered
  obtain ⟨before, after, split⟩ := List.append_of_mem (pending.mem_leaves ordered)
  have distinct := nodup_leaves ordered
  rw [split] at inside distinct
  obtain ⟨insideBefore, insideAfter⟩ := List.forall_mem_append.mp inside
  have due : state.tree.burden rank base (leaf :: after) =
      {node.term.load rank base} + state.tree.burden rank base after := by
    rw [← List.singleton_append, burden_append]
    refine congrArg (· + _) ?_
    simp [burden, pending.unprocessed, pending.found]
  rw [leaves, split, flatMap_inPlace _ distinct, burden_append, burden_append, burden_append, due,
    growth.burden_old ordered insideBefore,
    growth.burden_old ordered (List.forall_mem_cons.mp insideAfter).2,
    Relation.cutExpand_add_left, Relation.cutExpand_add_right]
  exact Relation.cutExpand_singleton smaller

/-- Every step lowers the burden of the tree. -/
theorem Grows.cutExpand (tame : Program.Tame rank rules used)
    (subsiding : state.Subsiding rules used t) (grows : state.Grows next) :
    Relation.CutExpand (· < ·)
      (next.tree.burden rank (Program.span rules) next.tree.leaves)
      (state.tree.burden rank (Program.span rules) state.tree.leaves) := by
  have ordered := subsiding.accounted.ordered
  rcases grows.cases ordered with ⟨_, _, _, drives⟩ | ⟨_, _, _, _, _, _, folds⟩
  · exact cutExpand_of_leaves drives.growth ordered drives.pending
      (drives.leaves subsiding.accounted.program ordered) (drives.burden_lt tame subsiding)
  · exact cutExpand_of_leaves folds.growth ordered folds.pending (folds.leaves ordered)
      (folds.burden_lt subsiding)

/-- Under some limit the construction is not cut: the burden cannot fall for ever. -/
theorem Subsiding.exists_limit {α : Type} (tame : Program.Tame rank rules used)
    (options : BuildOptions) (watch : Step → ProcessTree → α)
    (subsiding : state.Subsiding rules used t) :
    ∃ limit, (Supercompiler.grow options watch limit state).ending ≠ .exhausted := by
  have wellFounded : WellFounded (Relation.CutExpand fun m n : Nat ×ₗ Nat => m < n) :=
    wellFounded_lt.cutExpand
  generalize due : state.tree.burden rank (Program.span rules) state.tree.leaves = burden
  induction burden using wellFounded.induction generalizing state with
  | h burden ih =>
    cases turn : state.round options true with
    | stop ending final =>
      refine ⟨1, ?_⟩
      rw [Supercompiler.grow, turn]
      rintro rfl
      rcases round_eq_stop turn with ⟨deep, -⟩ | ⟨done, -⟩ | ⟨-, -, spent, -⟩ | ⟨_, _, _, failed, -⟩
      · contradiction
      · contradiction
      · contradiction
      · contradiction
    | go step next =>
      have grows := grows_of_round turn
      obtain ⟨limit, ends⟩ := ih _ (due ▸ grows.cutExpand tame subsiding)
        (grows.next_subsiding tame subsiding) rfl
      refine ⟨limit + 1, ?_⟩
      rw [Supercompiler.grow, turn]
      exact ends

end BuildState

/-- A construction that is given up without a reason has come to the limit, and one that is given up
with a reason went too deep. -/
theorem Run.ending_of_aborted {α : Type} {run : Run α} {options : BuildOptions} {aborted : Aborted}
    (error : run.error? options = some (.aborted aborted)) :
    run.ending = if aborted.reason.isNone then .exhausted else .tooDeep := by
  rw [Run.error?] at error
  split at error
  · contradiction
  · rename_i cut
    split at error
    · rw [Option.some.injEq, BuildError.aborted.injEq] at error
      rw [cut, ← error]
      rfl
    · simp at error
  · rename_i deep
    rw [Option.some.injEq, BuildError.aborted.injEq] at error
    rw [deep, ← error]
    rfl
  · simp at error

namespace Supercompiler

variable {α : Type}

/-- The construction for a term under a program without recursion comes to an end under some limit,
if a g-function of the program and a constructor lead to no rule of another function: there is a
finished tree, or the program does not support a call. The only other end there may be is that there
is a bound on frames and terms are nested too deeply, under every limit from some on. -/
theorem build_terminates {programText termText : String} {program : Program} {t : Term}
    (programParsed : Program.parse programText = .ok program)
    (termParsed : Term.parse termText = .ok t) {rank : String → Nat} (ranked : program.Ranked rank)
    (unambiguous : program.Unambiguous (program.constructors ++ t.constructors))
    (supply : NameSupply) (options : BuildOptions) (watch : Step → ProcessTree → α) :
    ∃ limit, errorWithin? ⟨program, supply⟩ options watch t limit = none ∨
      (∃ e, errorWithin? ⟨program, supply⟩ options watch t limit = some (.growth (.drive e)) ∧
        e.kind.broader? = some .configuration) ∨
      options.frames ≠ none ∧ ∀ more ≥ limit,
        (buildWithin ⟨program, supply⟩ options watch t more).ending = .tooDeep := by
  obtain ⟨rules, rfl, bodies⟩ := Program.exists_rules_of_parse programParsed
  have written := Term.plain_of_parse termParsed
  have tame : Program.Tame rank rules
      ((Program.ofRules rules).constructors ++ t.constructors) :=
    ⟨bodies, ranked, unambiguous, fun _ member => List.mem_append_left _ member⟩
  have subsiding : (BuildState.start ⟨.ofRules rules, supply⟩ t).Subsiding rules
      ((Program.ofRules rules).constructors ++ t.constructors) t :=
    BuildState.subsiding_start rfl written fun _ member => List.mem_append_right _ member
  obtain ⟨limit, ends⟩ := subsiding.exists_limit tame options watch
  rw [← buildWithin_eq_grow] at ends
  refine ⟨limit, ?_⟩
  have documented : (buildWithin ⟨.ofRules rules, supply⟩ options watch t limit).EndsAsDocumented
      { options with limit := some (limit : Int) } 0 :=
    endsAsDocumented rfl bodies written _ 0 watch
  cases documented with
  | completed error => exact .inl error
  | refused e error kind =>
    refine .inr (.inl ⟨e, error, ?_⟩)
    simp only [List.mem_cons, List.not_mem_nil, or_false] at kind
    rcases kind with kind | kind | kind <;> rw [kind] <;> rfl
  | aborted bound _ error => exact absurd (Run.ending_of_aborted error) ends
  | unfinished unlimited => contradiction
  | tooDeep bounded error =>
    exact .inr (.inr ⟨bounded, fun more enough =>
      tooDeep_buildWithin (Run.ending_of_aborted error) enough⟩)

/-- Rules for a function that negates twice. -/
def twiceRules : List Rule :=
  [.f ⟨"fTwice", ["x"], .gCall "gNot" [.gCall "gNot" [.var "x"]]⟩,
    .g ⟨"gNot", ⟨"T", []⟩, [], .ctor "F" []⟩,
    .g ⟨"gNot", ⟨"F", []⟩, [], .ctor "T" []⟩]

/-- The construction for negating a variable twice is over within some limit. -/
theorem build_terminates_twice :
    Program.parse "fTwice(x) = gNot(gNot(x)); gNot(T()) = F(); gNot(F()) = T();" =
      .ok (.ofRules twiceRules) ∧
    Term.parse "fTwice(a)" = .ok (.fCall "fTwice" [.var "a"]) ∧
    (Program.ofRules twiceRules).Ranked (fun name => if name = "fTwice" then 1 else 0) ∧
    (Program.ofRules twiceRules).Unambiguous
      ((Program.ofRules twiceRules).constructors ++
        (Term.fCall "fTwice" [.var "a"]).constructors) ∧
    ∃ limit,
      errorWithin? ⟨.ofRules twiceRules, {}⟩ {} (fun _ _ => ()) (.fCall "fTwice" [.var "a"])
        limit = none ∨
      ∃ e, errorWithin? ⟨.ofRules twiceRules, {}⟩ {} (fun _ _ => ())
          (.fCall "fTwice" [.var "a"]) limit = some (.growth (.drive e)) ∧
        e.kind.broader? = some .configuration := by
  have program : Program.parse "fTwice(x) = gNot(gNot(x)); gNot(T()) = F(); gNot(F()) = T();" =
      .ok (.ofRules twiceRules) := by rfl
  have term : Term.parse "fTwice(a)" = .ok (.fCall "fTwice" [.var "a"]) := by rfl
  have ranked : (Program.ofRules twiceRules).Ranked
      (fun name => if name = "fTwice" then 1 else 0) := by
    rw [Program.Ranked, Program.rules_ofRules]
    decide
  have unambiguous : (Program.ofRules twiceRules).Unambiguous
      ((Program.ofRules twiceRules).constructors ++
        (Term.fCall "fTwice" [.var "a"]).constructors) := by
    rw [Program.Unambiguous, Program.gRules, Program.constructors, Program.rules_ofRules]
    decide
  refine ⟨program, term, ranked, unambiguous, ?_⟩
  obtain ⟨limit, finished | refused | ⟨bounded, -⟩⟩ :=
    build_terminates program term ranked unambiguous {} {} fun _ _ => ()
  · exact ⟨limit, .inl finished⟩
  · exact ⟨limit, .inr refused⟩
  · exact absurd rfl bounded

/-- Rules for a function that hands a term twice to a function that drops it. -/
def droppingRules : List Rule :=
  [.f ⟨"fK", ["x", "y"], .var "y"⟩,
    .f ⟨"fD", ["x"], .fCall "fK" [.var "x", .fCall "fK" [.var "x", .ctor "Z" []]]⟩]

/-- A call that hands on a term of seven levels. -/
def droppingCall : Term :=
  .fCall "fD" [.ctor "S" [.ctor "S" [.ctor "S" [.ctor "S" [.ctor "S" [.ctor "S" [.var "a"]]]]]]]

/-- Rules of which the first is also found for another function: the two parts of a key are written
one behind the other, and `gA` with `B_C` has the same key as `gA_B` with `C`. -/
def strayRules : List Rule :=
  [.g ⟨"gA", ⟨"B_C", []⟩, ["y"], .gCall "gA_B" [.ctor "C" [], .ctor "S" [.var "y"]]⟩,
    .g ⟨"gA_B", ⟨"D", []⟩, ["y"], .var "y"⟩]

/-- The call for which the rule of another function is found, with a number. -/
def strayCall (n : Nat) : Term := .gCall "gA_B" [.ctor "C" [], .numeral n]

/-- The two conditions of the theorem that go beyond ranks and keys that are apart are needed. Under
a bound on frames a construction without recursion may be given up at every limit, because a call
that is compared with an ancestor holds a deep term. And if a constructor leads from a function to a
rule of another one, which calls the first, the construction has no end. -/
theorem build_unending :
    (Program.parse "fK(x, y) = y; fD(x) = fK(x, fK(x, Z()));" = .ok (.ofRules droppingRules) ∧
      Term.parse "fD(S(S(S(S(S(S(a)))))))" = .ok droppingCall ∧
      (Program.ofRules droppingRules).KeysApart ∧
      (Program.ofRules droppingRules).Ranked (fun name => if name = "fD" then 1 else 0) ∧
      ∀ limit, ∃ aborted,
        errorWithin? ⟨.ofRules droppingRules, {}⟩ { frames := some 6 } (fun _ _ => ())
          droppingCall limit = some (.aborted aborted)) ∧
    (Program.parse "gA(B_C(), y) = gA_B(C(), S(y)); gA_B(D(), y) = y;" =
        .ok (.ofRules strayRules) ∧
      Term.parse "gA_B(C(), Z())" = .ok (strayCall 0) ∧
      (Program.ofRules strayRules).KeysApart ∧
      (Program.ofRules strayRules).Ranked (fun name => if name = "gA" then 1 else 0) ∧
      ∀ limit, ∃ aborted,
        errorWithin? ⟨.ofRules strayRules, {}⟩ {} (fun _ _ => ()) (strayCall 0) limit =
          some (.aborted aborted)) := by
  refine ⟨⟨by rfl, by rfl, ?_, ?_, fun limit => ?_⟩, by rfl, by rfl, ?_, ?_, fun limit => ?_⟩
  · rw [Program.KeysApart, Program.gRules, Program.rules_ofRules]
    decide
  · rw [Program.Ranked, Program.rules_ofRules]
    decide
  · have early : (buildWithin ⟨.ofRules droppingRules, {}⟩ { frames := some 6 } (fun _ _ => ())
          droppingCall 0).ending = .exhausted ∧
        (buildWithin ⟨.ofRules droppingRules, {}⟩ { frames := some 6 } (fun _ _ => ())
          droppingCall 1).ending = .exhausted := by cbv
    have deep : (buildWithin ⟨.ofRules droppingRules, {}⟩ { frames := some 6 } (fun _ _ => ())
        droppingCall 2).ending = .tooDeep := by cbv
    rcases limit with _ | _ | more
    · exact ⟨_, by rw [errorWithin?, Run.error?, early.1]⟩
    · exact ⟨_, by rw [errorWithin?, Run.error?, early.2]⟩
    · exact ⟨_, by rw [errorWithin?, Run.error?, tooDeep_buildWithin deep (Nat.le_add_left 2 more)]⟩
  · rw [Program.KeysApart, Program.gRules, Program.rules_ofRules]
    decide
  · rw [Program.Ranked, Program.rules_ofRules]
    decide
  · have contained : Program.SelfContained strayRules := ⟨by decide, by decide⟩
    have distinct : Function.Injective strayCall := fun m n same =>
      Term.numeral_injective (by simpa [strayCall] using same)
    have falls : ∀ n, parts? ⟨.ofRules strayRules, {}⟩ (strayCall n) =
        some [strayCall (n + 1)] := fun n => rfl
    exact ⟨_, (abortsAt_of_endless contained ⟨by rfl, by cbv⟩ (fun _ => rfl) distinct falls {} rfl _
      limit).aborted⟩

end Supercompiler

end Supercompilation
