import Supercompilation.Proofs.Instance
import Supercompilation.Proofs.Termination

/-!
# Folds

A leaf is folded to the nearest ancestor of the same kind that is more general than its call. Two
tests look at the same ancestors: the one that tells whether the leaf needs more work asks for a
call that is the same up to renaming, and the one that looks for an ancestor to fold to asks for a
match. A leaf that is folded failed the first test, so the values of its `let` term are no
one-to-one renaming, and each of them is smaller than the call.

The body of the `let` term is the call of the ancestor. When the `let` term is driven, its first
child repeats that ancestor; it needs no more work and stays a leaf.
-/

namespace Supercompilation

open ProcessTree

namespace Term

/-- Plain terms hold no `let` terms. -/
theorem letFree_of_plain {t : Term} (written : t.plain = true) : t.letFree = true := by
  induction t with
  | var name => rw [letFree]
  | app head name args ih =>
    rw [letFree, letFreeArgs_iff]
    exact fun t member => ih t member ((plain_app.mp written).2 t member)
  | letIn body bindings => simp at written

/-- Values that rename the variables of a term one to one. -/
def Renames (values : Substitution) (t : Term) : Prop :=
  ∃ ρ : String → String, Set.InjOn ρ {x | x ∈ t.vars} ∧ values = renamingOf ρ t.vars

/-- A term with its variables renamed one to one is the same up to renaming. -/
theorem Renames.equiv {values : Substitution} {t : Term} (renames : Renames values t) :
    (t.subst values).equiv t = true := by
  obtain ⟨ρ, injective, rfl⟩ := renames
  have undoes : ∀ x ∈ t.vars, Function.invFunOn ρ {x | x ∈ t.vars} (ρ x) = x :=
    fun x isVar => injective.leftInvOn_invFunOn isVar
  exact equiv_iff.mpr ⟨⟨_, subst_renaming_inverse undoes⟩, _, rfl⟩

/-- A term without variables is renamed by no values. -/
theorem renames_nil {t : Term} (closed : t.vars = []) : Renames [] t :=
  ⟨id, Set.injOn_id _, by rw [closed]; rfl⟩

end Term

namespace ProcessTree

variable {tree grown : ProcessTree}

/-- A node holds a term of the kind of a term that is an instance of it. -/
def Generalises (tree : ProcessTree) (i : Nat) (t : Term) : Prop :=
  ∃ node, tree.node? i = some node ∧ node.term.kind = t.kind ∧ node.term.hasInstance t = true

/-- A leaf is folded to the nearest ancestor of its kind that is more general. -/
theorem nearest_of_fold? {i ancestor : Nat} {node : Node} {values : Substitution}
    (found : tree.node? i = some node) (folds : tree.fold? i = some (ancestor, values)) :
    ∃ nearer further, tree.ancestors i = nearer ++ ancestor :: further ∧
      tree.Generalises ancestor node.term ∧
      ∀ other ∈ nearer, ¬ tree.Generalises other node.term := by
  obtain ⟨-, above, there, sameKind, matched⟩ := BuildState.fold?_eq_some found folds
  rw [fold?, found] at folds
  obtain ⟨nearer, place, further, split, here, none⟩ := List.findSome?_eq_some_iff.mp folds
  have same : place = ancestor := by
    split at here
    · contradiction
    · split at here
      · rw [Option.map_eq_some_iff] at here
        obtain ⟨_, -, pair⟩ := here
        exact congrArg Prod.fst pair
      · contradiction
  subst same
  refine ⟨nearer, further, split, ⟨above, there, sameKind, ?_⟩, fun other member => ?_⟩
  · rw [Term.hasInstance, matched]
    rfl
  · rintro ⟨general, foundOther, kind, isInstance⟩
    have missing := none other member
    simp only [foundOther, if_pos kind, Option.map_eq_none_iff] at missing
    rw [Term.hasInstance, missing] at isInstance
    contradiction

/-- A call that needs more work is not the same up to renaming as any ancestor of its kind. -/
theorem equiv_eq_false_of_unprocessed {i : Nat} {node : Node} (found : tree.node? i = some node)
    (call : node.term.isCall = true) (unprocessed : tree.isProcessed i = false) {other : Nat}
    (above : other ∈ tree.ancestors i) {general : Node}
    (foundOther : tree.node? other = some general) (kind : general.term.kind = node.term.kind) :
    node.term.equiv general.term = false := by
  have none : (tree.ancestors i).any (tree.repeats node.term) = false := by
    rw [isProcessed, found] at unprocessed
    simp only at unprocessed
    cases holds : node.term with
    | var x => simp [holds, Term.isCall] at call
    | letIn body bindings => simp [holds, Term.isCall] at call
    | app head name args =>
      rw [holds] at unprocessed call
      rcases Term.isCall_app.mp call with rfl | rfl
      · exact unprocessed
      · exact unprocessed
  rw [List.any_eq_false] at none
  simpa [repeats, foundOther, kind] using none other above

/-- A node holds a `let` term over the term of one of its ancestors. -/
structure FoldsBack (tree : ProcessTree) (i : Nat) (t : Term) (values : Substitution) : Prop where
  /-- The node holds the `let` term. -/
  holds : ∃ node, tree.node? i = some node ∧ node.term = .letIn t values
  /-- An ancestor holds its body. -/
  above : ∃ a ∈ tree.ancestors i, ∃ node, tree.node? a = some node ∧ node.term = t

/-- The first child of a node holds a term and is a leaf that needs no more work. -/
def EndsFirst (tree : ProcessTree) (i : Nat) (t : Term) : Prop :=
  ∃ first others, tree.children i = first :: others ∧
    tree.node? first = some ⟨t, none, some i, []⟩ ∧ first ∈ tree.leaves ∧
    tree.isProcessed first = true

/-- Growth keeps the `let` terms over terms of ancestors. -/
theorem FoldsBack.of_growth {place : Nat} {kids : List Nat} {added : List Branch}
    (growth : Growth tree place kids added grown) (ordered : tree.WellFormed) {i : Nat} {t : Term}
    {values : Substitution} (foldsBack : tree.FoldsBack i t values) :
    grown.FoldsBack i t values := by
  obtain ⟨⟨node, found, holds⟩, a, member, above, foundAbove, same⟩ := foldsBack
  obtain ⟨after, there, term, -⟩ := growth.exists_node?_old found
  obtain ⟨after', there', term', -⟩ := growth.exists_node?_old foundAbove
  refine ⟨⟨after, there, term.trans holds⟩, a, ?_, after', there', term'.trans same⟩
  rwa [growth.ancestors_old ordered (node?_isSome_iff.mp ⟨node, found⟩)]

end ProcessTree

namespace BuildState

variable {rules : List Rule} {state next later : BuildState} {leaf place ancestor : Nat}
  {node above : Node} {values : Substitution}

/-- The new node of a fold holds a `let` term over the term of the ancestor. -/
theorem Folds.foldsBack (folds : Folds state next leaf node place ancestor above values)
    (ordered : state.tree.WellFormed) :
    next.tree.FoldsBack state.tree.nodes.size above.term values := by
  have made : next.tree.node? state.tree.nodes.size =
      some ⟨.letIn above.term values, node.contraction, some place, []⟩ := folds.growth.new 0
  obtain ⟨after, there, term, -⟩ := folds.growth.exists_node?_old folds.foundAbove
  refine ⟨⟨_, made, rfl⟩, ancestor, ?_, after, there, term⟩
  rw [folds.growth.ancestors_new ordered (Nat.le_refl _) (node?_isSome_iff.mp ⟨_, made⟩),
    ← ancestors_of_parent ordered
      ((parent?_of_node? folds.pending.found).trans folds.parent)]
  exact folds.ancestor_mem

/-- When a `let` term over a call of an ancestor is driven, its first child ends at once. -/
theorem Drives.endsFirst {i : Nat} {t : Term} {branches : List Branch}
    (drives : Drives state next i node branches)
    (program : state.supercompiler.program = .ofRules rules) (ordered : state.tree.WellFormed)
    (call : t.isCall = true) (foldsBack : state.tree.FoldsBack i t values) :
    next.tree.EndsFirst i t := by
  obtain ⟨⟨_, found, holds⟩, a, member, general, foundAbove, same⟩ := foldsBack
  obtain rfl := Option.some.inj (drives.pending.found.symm.trans found)
  have driven := congrArg Prod.fst drives.driven
  simp only [Supercompiler.drive, holds, Program.driveTerm, Except.ok.injEq] at driven
  subst driven
  have made : next.tree.node? state.tree.nodes.size = some ⟨t, none, some i, []⟩ :=
    drives.growth.new 0
  have kids : next.tree.children i = state.tree.nodes.size ::
      (List.range values.length).map (state.tree.nodes.size + · + 1) := by
    rw [drives.growth.children_eq, if_pos rfl]
    simp [List.range_succ_eq_map, Function.comp_def, Nat.add_assoc]
  refine ⟨_, _, kids, made, ?_, ?_⟩
  · rw [drives.leaves program ordered, kids]
    exact List.mem_flatMap.mpr ⟨i, drives.pending.mem_leaves ordered, by simp [inPlace_self]⟩
  · obtain ⟨after, there, term, -⟩ := drives.growth.exists_node?_old foundAbove
    have repeated : next.tree.repeats t a = true := by
      simp [repeats, there, term, same, Term.equiv_self]
    have some : (next.tree.ancestors state.tree.nodes.size).any (next.tree.repeats t) = true := by
      rw [drives.growth.ancestors_new ordered (Nat.le_refl _) (node?_isSome_iff.mp ⟨_, made⟩)]
      exact List.any_eq_true.mpr ⟨a, List.mem_cons_of_mem _ member, repeated⟩
    rw [isProcessed, made]
    cases t with
    | var x => simp [Term.isCall] at call
    | letIn body bindings => simp [Term.isCall] at call
    | app head name args =>
      rcases Term.isCall_app.mp call with rfl | rfl
      · exact some
      · exact some

/-- A first child that needs no more work stays where it is and as it is. -/
theorem Grows.endsFirst (grows : state.Grows next)
    (program : state.supercompiler.program = .ofRules rules) (ordered : state.tree.WellFormed)
    {i : Nat} {t : Term} (ends : state.tree.EndsFirst i t) : next.tree.EndsFirst i t := by
  obtain ⟨first, others, kids, made, isLeaf, processed⟩ := ends
  obtain ⟨isLeaf', processed'⟩ := grows.mem_leaves program ordered isLeaf processed
  have notPending : ∀ {j : Nat} {node : Node}, state.Pending j node → first ≠ j := by
    rintro j node pending rfl
    rw [pending.unprocessed] at processed
    contradiction
  rcases grows.cases ordered with ⟨leaf, node, branches, drives⟩ |
    ⟨leaf, node, place, ancestor, above, values, folds⟩
  · have notHere : i ≠ leaf := by
      rintro rfl
      rw [drives.pending.childless] at kids
      contradiction
    refine ⟨first, others, ?_, ?_, isLeaf', processed'⟩
    · rw [drives.growth.children_eq, if_neg notHere, kids]
    · rw [drives.growth.node?_old made, if_neg (notPending drives.pending)]
  · have notPlace : first ≠ place := by
      rintro rfl
      have child := folds.child
      rw [children_of_node? made] at child
      contradiction
    have made' : next.tree.node? first = some ⟨t, none, some i, []⟩ := by
      rw [folds.growth.node?_old made, if_neg notPlace]
    by_cases here : i = place
    · refine ⟨first, others.replace leaf state.tree.nodes.size, ?_, made', isLeaf', processed'⟩
      rw [folds.growth.children_eq, if_pos here, ← here, kids, List.replace_cons,
        beq_eq_false_iff_ne.mpr (Ne.symm (notPending folds.pending))]
    · refine ⟨first, others, ?_, made', isLeaf', processed'⟩
      rw [folds.growth.children_eq, if_neg here, kids]

/-- A first child that needs no more work stays where it is and as it is until the end. -/
theorem Reaches.endsFirst (reaches : state.Reaches later)
    (program : state.supercompiler.program = .ofRules rules) (ordered : state.tree.WellFormed)
    {i : Nat} {t : Term} (ends : state.tree.EndsFirst i t) : later.tree.EndsFirst i t := by
  induction reaches with
  | refl => exact ends
  | tail early grows ih =>
    exact grows.endsFirst ((Reaches.program early ordered).trans program)
      (Reaches.wellFormed early ordered) ih

/-- The `let` terms over terms of ancestors stay. -/
theorem Reaches.foldsBack (reaches : state.Reaches later) (ordered : state.tree.WellFormed)
    {i : Nat} {t : Term} (foldsBack : state.tree.FoldsBack i t values) :
    later.tree.FoldsBack i t values := by
  induction reaches with
  | refl => exact foldsBack
  | tail early grows ih =>
    have ordered' := Reaches.wellFormed early ordered
    obtain ⟨_, _, _, growth⟩ := grows.exists_growth ordered'
    exact ih.of_growth growth ordered'

/-- A step at a `let` term drives it. -/
theorem Grows.drives_of_foldsBack (grows : state.Grows next) (ordered : state.tree.WellFormed)
    {i : Nat} (first : state.tree.unprocessed? = some i) {t : Term}
    (foldsBack : state.tree.FoldsBack i t values) :
    ∃ node branches, Drives state next i node branches := by
  obtain ⟨⟨held, found, holds⟩, -⟩ := foldsBack
  obtain ⟨leaf, grown, first', stepped, tree, -⟩ := grows
  obtain rfl := Option.some.inj (first.symm.trans first')
  obtain ⟨node, pending⟩ := pending_of_unprocessed? ordered first
  rcases step_cases ordered pending stepped tree with
    ⟨-, drives⟩ | ⟨-, _, _, _, _, -, -, folds⟩
  · exact ⟨node, grown.results, drives⟩
  · obtain rfl := Option.some.inj (pending.found.symm.trans found)
    have call := folds.call
    simp [holds, Term.isCall] at call

/-- A `let` term over a call of an ancestor has no children until it is driven, and from then on its
first child is a leaf that needs no more work. -/
theorem Reaches.childless_or_endsFirst (reaches : state.Reaches later)
    (program : state.supercompiler.program = .ofRules rules) (ordered : state.tree.WellFormed)
    {i : Nat} {t : Term} (call : t.isCall = true) (foldsBack : state.tree.FoldsBack i t values)
    (childless : state.tree.children i = []) :
    later.tree.children i = [] ∨ later.tree.EndsFirst i t := by
  induction reaches with
  | refl => exact .inl childless
  | @tail middle last early grows ih =>
    have ordered' := Reaches.wellFormed early ordered
    have program' := (Reaches.program early ordered).trans program
    rcases ih with childless | ends
    · rcases grows.cases ordered' with ⟨leaf, node, branches, drives⟩ |
        ⟨leaf, node, place, ancestor, above, values, folds⟩
      · by_cases here : i = leaf
        · subst here
          exact .inr (drives.endsFirst program' ordered' call
            (Reaches.foldsBack early ordered foldsBack))
        · rw [drives.growth.children_eq, if_neg here]
          exact .inl childless
      · have elsewhere : i ≠ place := by
          rintro rfl
          have child := folds.child
          rw [childless] at child
          contradiction
        rw [folds.growth.children_eq, if_neg elsewhere]
        exact .inl childless
    · exact .inr (grows.endsFirst program' ordered' ends)

/-- A fold that is exact and proper. The leaf holds a call, and the ancestor is the nearest of its
kind that is more general. -/
structure FoldsExactly (state next : BuildState) (step : Step) (leaf : Nat) (node : Node)
    (place ancestor : Nat) (above : Node) (values : Substitution) : Prop where
  /-- The leaf was the first that needed more work. -/
  first : state.tree.unprocessed? = some leaf
  /-- The node of the leaf. -/
  found : state.tree.node? leaf = some node
  /-- It holds a call. -/
  call : node.term.isCall = true
  /-- The node of the ancestor. -/
  foundAbove : state.tree.node? ancestor = some above
  /-- The ancestor is more general and of the same kind, and no nearer one is. -/
  nearest : ∃ nearer further, state.tree.ancestors leaf = nearer ++ ancestor :: further ∧
    state.tree.Generalises ancestor node.term ∧
    ∀ other ∈ nearer, ¬ state.tree.Generalises other node.term
  /-- The call is not the same up to renaming as any ancestor of its kind. -/
  unrepeated : ∀ other ∈ state.tree.ancestors leaf, ∀ general,
    state.tree.node? other = some general → general.term.kind = node.term.kind →
      node.term.equiv general.term = false
  /-- The values make the term of the ancestor the call. -/
  exact : above.term.subst values = node.term
  /-- The values are those of the variables of the ancestor, in their order. -/
  names : NameMap.names values = above.term.vars
  /-- There is a value. -/
  nonempty : values ≠ []
  /-- The values are no one-to-one renaming. -/
  proper : ¬ Term.Renames values above.term
  /-- Every value is smaller than the call. -/
  smaller : ∀ binding ∈ values, binding.2.size < node.term.size
  /-- The call is recorded. -/
  before : step.before = node.term
  /-- So is the `let` term that takes its place. -/
  recorded : step.results = [⟨.letIn above.term values, node.contraction⟩]
  /-- The parent of the leaf is the parent of the new node, which keeps the contraction. -/
  parent : node.parent = some place
  /-- The new node. -/
  made : next.tree.node? state.tree.nodes.size =
    some ⟨.letIn above.term values, node.contraction, some place, []⟩
  /-- The new node stands where the leaf stood. -/
  position : ∃ before after, state.tree.children place = before ++ leaf :: after ∧
    next.tree.children place = before ++ state.tree.nodes.size :: after

/-- A list with an entry replaced. -/
theorem replace_eq_append {kids : List Nat} {i : Nat} (member : i ∈ kids) (new : Nat) :
    ∃ before after, kids = before ++ i :: after ∧ kids.replace i new = before ++ new :: after := by
  obtain ⟨before, after, rfl, unused⟩ := List.eq_append_cons_of_mem member
  refine ⟨before, after, rfl, ?_⟩
  rw [List.replace_append_right unused, List.replace_cons_self]

/-- A round that folds does so exactly. -/
theorem foldsExactly_of_round {t : Term} {options : BuildOptions} {mayGrow : Bool} {step : Step}
    (accounted : Accounted rules t state) (went : state.round options mayGrow = .go step next)
    (folded : step.action = .fold) :
    ∃ leaf node place ancestor above values,
      FoldsExactly state next step leaf node place ancestor above values ∧
      Folds state next leaf node place ancestor above values := by
  obtain ⟨leaf, first, grew⟩ := growAt_of_round went
  obtain ⟨node, pending⟩ := pending_of_unprocessed? accounted.ordered first
  obtain ⟨grown, stepped, tree, -, action, results, before⟩ := growAt_eq_go grew
  rcases step_cases accounted.ordered pending stepped tree with
    ⟨driven, -⟩ | ⟨-, place, ancestor, above, values, single, found, folds⟩
  · rw [action, driven] at folded
    contradiction
  obtain ⟨plainAbove, -⟩ := folds.plain accounted
  have exact := Term.subst_of_matchAgainst folds.matched
  have names := Term.names_of_matchAgainst (Term.letFree_of_plain plainAbove) folds.matched
  have unrepeated : ∀ other ∈ state.tree.ancestors leaf, ∀ general,
      state.tree.node? other = some general → general.term.kind = node.term.kind →
        node.term.equiv general.term = false := fun other above general foundOther kind =>
    equiv_eq_false_of_unprocessed pending.found folds.call pending.unprocessed above foundOther
      kind
  have proper : ¬ Term.Renames values above.term := by
    intro renames
    have same := renames.equiv
    rw [exact, unrepeated ancestor folds.ancestor_mem above folds.foundAbove folds.kind] at same
    contradiction
  obtain ⟨left, right, stood, stands⟩ := replace_eq_append folds.child state.tree.nodes.size
  refine ⟨leaf, node, place, ancestor, above, values, ?_, folds⟩
  exact {
    first, found := pending.found, call := folds.call, foundAbove := folds.foundAbove
    nearest := nearest_of_fold? pending.found found
    unrepeated, exact, names, proper
    nonempty := by
      rintro rfl
      exact proper (Term.renames_nil names.symm)
    smaller := fun binding member =>
      Term.size_lt_of_mem_found plainAbove folds.call_above folds.matched member
    before := by rw [before, pending.found, Option.map_some, Option.getD_some]
    recorded := results.trans single
    parent := folds.parent
    made := folds.growth.new 0
    position := ⟨left, right, stood, by
      rw [folds.growth.children_eq, if_pos rfl, stands]⟩ }

end BuildState

namespace Supercompiler

/-- Every fold that a construction for what texts stand for records is exact and proper. When its
`let` term is driven, the first child holds the term of the ancestor and is a leaf that needs no
more work; it is so in every later state, and in the tree at the end unless the `let` term was not
driven by then. -/
theorem build_folds_exactly {programText termText : String} {program : Program} {t : Term}
    (programParsed : Program.parse programText = .ok program)
    (termParsed : Term.parse termText = .ok t) (supply : NameSupply) (options : BuildOptions)
    (patience : Nat) {α : Type} (watch : Step → ProcessTree → α) {step : Step}
    (recorded : step ∈ (build ⟨program, supply⟩ options patience watch t).stepList)
    (folded : step.action = .fold) :
    ∃ state next leaf node place ancestor above values,
      (BuildState.start ⟨program, supply⟩ t).Reaches state ∧
      state.round options true = .go step next ∧
      BuildState.FoldsExactly state next step leaf node place ancestor above values ∧
      (∀ before after, next.Reaches before →
        before.tree.unprocessed? = some state.tree.nodes.size → before.Grows after →
          ∀ later, after.Reaches later →
            later.tree.EndsFirst state.tree.nodes.size above.term) ∧
      ((build ⟨program, supply⟩ options patience watch t).tree.children state.tree.nodes.size = [] ∨
        (build ⟨program, supply⟩ options patience watch t).tree.EndsFirst state.tree.nodes.size
          above.term) := by
  obtain ⟨rules, rfl, bodies⟩ := Program.exists_rules_of_parse programParsed
  have written := Term.plain_of_parse termParsed
  obtain ⟨entry, member, rfl⟩ := List.mem_map.mp recorded
  obtain ⟨state, next, last, reaches, went, onward, tree⟩ :=
    BuildState.exists_round_of_mem_steps member
  have accounted := BuildState.Reaches.accounted rfl bodies written reaches
  obtain ⟨leaf, node, place, ancestor, above, values, exactly, folds⟩ :=
    BuildState.foldsExactly_of_round accounted went folded
  have ordered := folds.growth.wellFormed accounted.ordered
  have sameProgram : next.supercompiler.program = .ofRules rules := by
    rw [folds.supercompiler, accounted.program]
  have foldsBack := folds.foldsBack accounted.ordered
  refine ⟨state, next, leaf, node, place, ancestor, above, values, reaches, went, exactly, ?_, ?_⟩
  · intro before after early first grows later late
    have ordered' := early.wellFormed ordered
    have program' := (early.program ordered).trans sameProgram
    have foldsBack' := early.foldsBack ordered foldsBack
    obtain ⟨_, _, drives⟩ := grows.drives_of_foldsBack ordered' first foldsBack'
    refine late.endsFirst (drives.program.trans program') (drives.growth.wellFormed ordered') ?_
    exact drives.endsFirst program' ordered' folds.call_above foldsBack'
  · have childless : next.tree.children state.tree.nodes.size = [] :=
      children_of_node? exactly.made
    have ends := onward.childless_or_endsFirst sameProgram ordered folds.call_above foldsBack
      childless
    have same : (build ⟨.ofRules rules, supply⟩ options patience watch t).tree = last.tree := tree
    rwa [same]

/-- In the tree for the numbers from a number on the recursive call is folded exactly, and the body
of its `let` term ends there. -/
theorem build_folds_exactly_upward :
    Program.parse "fUp(n) = Cons(n, fUp(S(n)));" = .ok (.ofRules upwardRules) ∧
    Term.parse "fUp(n)" = .ok (.fCall "fUp" [.var "n"]) ∧
    ∃ step ∈ (build ⟨.ofRules upwardRules, {}⟩ {} 9 (fun _ _ => ())
        (.fCall "fUp" [.var "n"])).stepList,
      step.action = .fold ∧ step.before = .fCall "fUp" [.ctor "S" [.var "n"]] ∧
      ∃ state next leaf node place ancestor above values,
        BuildState.FoldsExactly state next step leaf node place ancestor above values ∧
        ∀ before after, next.Reaches before →
          before.tree.unprocessed? = some state.tree.nodes.size → before.Grows after →
            ∀ later, after.Reaches later →
              later.tree.EndsFirst state.tree.nodes.size above.term := by
  have program : Program.parse "fUp(n) = Cons(n, fUp(S(n)));" = .ok (.ofRules upwardRules) := by
    rfl
  have term : Term.parse "fUp(n)" = .ok (.fCall "fUp" [.var "n"]) := by rfl
  have third : (build ⟨.ofRules upwardRules, {}⟩ {} 9 (fun _ _ => ())
      (.fCall "fUp" [.var "n"])).stepList[2]? =
        some ⟨3, .fold, .fCall "fUp" [.ctor "S" [.var "n"]],
          [⟨.letIn (.fCall "fUp" [.var "n"]) [("n", .ctor "S" [.var "n"])], none⟩], none⟩ := by
    cbv
  obtain ⟨state, next, leaf, node, place, ancestor, above, values, -, -, exactly, ends, -⟩ :=
    build_folds_exactly program term {} {} 9 (fun _ _ => ()) (List.mem_of_getElem? third) rfl
  exact ⟨program, term, _, List.mem_of_getElem? third, rfl, rfl, state, next, leaf, node, place,
    ancestor, above, values, exactly, ends⟩

end Supercompiler

end Supercompilation
