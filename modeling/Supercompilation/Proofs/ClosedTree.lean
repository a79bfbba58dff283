import Mathlib.Data.List.Forall2
import Mathlib.Data.List.Permutation
import Supercompilation.Proofs.Construction
import Supercompilation.Proofs.Matching

/-!
# Closed process trees

A completed construction leaves a closed tree: every leaf is done, and the children of every inner
node stand, one by one and in order, for what its term falls into. A child stands for a term if it
holds the term, or if it was folded and holds a `let` term over the term of one of its ancestors
whose bindings make that term the one it stands for.

The invariant `BuildState.Expanded` speaks of every node that has children. Driving a leaf makes it
true of the leaf, and folding keeps it, because the `let` term stands for whatever the folded call
stood for.
-/

namespace Supercompilation

open ProcessTree

namespace ProcessTree

variable {tree grown : ProcessTree}

/-- A node stands for a branch: it has the contraction of the branch and holds its term, or a `let`
term over the term of an ancestor that amounts to it. -/
def StandsFor (tree : ProcessTree) (i : Nat) (branch : Branch) : Prop :=
  ∃ node, tree.node? i = some node ∧ node.contraction = branch.contraction ∧
    (node.term = branch.term ∨
      ∃ a ∈ tree.ancestors i, ∃ above, tree.node? a = some above ∧
        ∃ values, node.term = .letIn above.term values ∧ above.term.subst values = branch.term)

/-- A node that needs no more work: a variable, a constructor without arguments, or a call that is
the same up to renaming as a call of the same kind at an ancestor. -/
def Finished (tree : ProcessTree) (i : Nat) (t : Term) : Prop :=
  (∃ x, t = .var x) ∨ (∃ name, t = .ctor name []) ∨
    (t.isCall = true ∧ ∃ a ∈ tree.ancestors i, ∃ above, tree.node? a = some above ∧
      above.term.kind = t.kind ∧ t.equiv above.term = true)

/-- A node that counts as processed is finished. -/
theorem finished_of_isProcessed {i : Nat} {node : Node} (found : tree.node? i = some node)
    (processed : tree.isProcessed i = true) : tree.Finished i node.term := by
  have repeated : node.term.isCall = true →
      (tree.ancestors i).any (tree.repeats node.term) = true → tree.Finished i node.term := by
    intro call some
    obtain ⟨a, member, same⟩ := List.any_eq_true.mp some
    rw [repeats] at same
    split at same
    · contradiction
    · rename_i above there
      rw [Bool.and_eq_true, decide_eq_true_eq] at same
      exact .inr (.inr ⟨call, a, member, above, there, same.1, same.2⟩)
  rw [isProcessed, found] at processed
  simp only at processed
  cases held : node.term with
  | var x => exact .inl ⟨x, rfl⟩
  | letIn body bindings => simp [held] at processed
  | app head name args =>
    rw [held] at processed repeated
    cases head with
    | ctor => exact .inr (.inl ⟨name, by simp_all⟩)
    | pattern => simp at processed
    | fCall => exact repeated rfl processed
    | gCall => exact repeated rfl processed

/-- What an old node stands for does not change. -/
theorem StandsFor.of_growth {place : Nat} {kids : List Nat} {added : List Branch}
    (growth : Growth tree place kids added grown) (ordered : tree.WellFormed) {i : Nat}
    {branch : Branch} (stands : tree.StandsFor i branch) : grown.StandsFor i branch := by
  obtain ⟨node, found, contraction, holds⟩ := stands
  obtain ⟨after, there, term, sameContraction, -⟩ := growth.exists_node?_old found
  refine ⟨after, there, sameContraction.trans contraction, ?_⟩
  rw [term, growth.ancestors_old ordered (node?_isSome_iff.mp ⟨node, found⟩)]
  rcases holds with same | ⟨a, member, above, foundAbove, values, folded, amounts⟩
  · exact .inl same
  · obtain ⟨above', there', term', -⟩ := growth.exists_node?_old foundAbove
    exact .inr ⟨a, member, above', there', values, term' ▸ folded, term' ▸ amounts⟩

/-- The new nodes stand for the branches that are added. -/
theorem Growth.standsFor_new {place : Nat} {kids : List Nat} {added : List Branch}
    (growth : Growth tree place kids added grown) :
    List.Forall₂ grown.StandsFor ((List.range added.length).map (tree.nodes.size + ·)) added := by
  rw [List.forall₂_iff_get]
  refine ⟨by simp, fun k _ inside => ?_⟩
  have made : grown.node? (tree.nodes.size + k) =
      some ⟨added[k].term, added[k].contraction, some place, []⟩ := by
    rw [growth.new, List.getElem?_eq_getElem inside, Option.map_some]
  exact ⟨_, by simpa using made, rfl, .inl rfl⟩

/-- A pairing survives replacing an entry, if the old entries stay related and the new one takes
over from the one that it replaces. -/
theorem forall₂_replace {before after : Nat → Branch → Prop} {kids : List Nat}
    {branches : List Branch} {i new : Nat} (paired : List.Forall₂ before kids branches)
    (keeps : ∀ k branch, before k branch → after k branch)
    (takesOver : ∀ branch, before i branch → after new branch) :
    List.Forall₂ after (kids.replace i new) branches := by
  induction paired with
  | nil => exact .nil
  | @cons k branch kids branches here later ih =>
    rw [List.replace_cons]
    split
    · rename_i same
      rw [beq_iff_eq] at same
      exact .cons (takesOver branch (same ▸ here)) (later.imp keeps)
    · exact .cons (keeps k branch here) ih

end ProcessTree

namespace BuildState

variable {first state next : BuildState}

/-- The children of a node stand for the results of driving its term at some point on the way from
one state to another. -/
def ExpandedAt (first state : BuildState) (node : Node) : Prop :=
  ∃ between branches, first.Reaches between ∧ between.Reaches state ∧
    (between.supercompiler.drive node.term).1 = .ok branches ∧
    List.Forall₂ state.tree.StandsFor node.children branches

/-- Every node with children is expanded. -/
def Expanded (first state : BuildState) : Prop :=
  ∀ {i : Nat} {node : Node}, state.tree.node? i = some node → node.children ≠ [] →
    first.ExpandedAt state node

/-- A step keeps the expansion of the nodes that it does not touch. -/
theorem ExpandedAt.grows {place : Nat} {kids : List Nat} {added : List Branch} {node : Node}
    (expanded : first.ExpandedAt state node) (grows : state.Grows next)
    (growth : Growth state.tree place kids added next.tree) (ordered : state.tree.WellFormed) :
    first.ExpandedAt next node := by
  obtain ⟨between, branches, early, late, driven, stand⟩ := expanded
  exact ⟨between, branches, early, late.tail grows, driven,
    stand.imp fun _ _ stands => stands.of_growth growth ordered⟩

/-- Driving a leaf expands it. -/
theorem Drives.expandedAt {leaf : Nat} {node : Node} {branches : List Branch}
    (drives : Drives state next leaf node branches) (grows : state.Grows next)
    (early : first.Reaches state) :
    first.ExpandedAt next
      { node with children := (List.range branches.length).map (state.tree.nodes.size + ·) } :=
  ⟨state, branches, early, .single grows, congrArg Prod.fst drives.driven,
    drives.growth.standsFor_new⟩

/-- The `let` term of a fold stands for whatever the folded call stood for. -/
theorem Folds.takesOver {leaf place ancestor : Nat} {node above : Node} {values : Substitution}
    (folds : Folds state next leaf node place ancestor above values)
    (ordered : state.tree.WellFormed) (branch : Branch)
    (stands : state.tree.StandsFor leaf branch) :
    next.tree.StandsFor state.tree.nodes.size branch := by
  obtain ⟨node', found, contraction, holds⟩ := stands
  obtain rfl : node = node' := Option.some.inj (folds.pending.found.symm.trans found)
  have amounts : above.term.subst values = node.term := Term.subst_of_matchAgainst folds.matched
  have held : node.term = branch.term := by
    rcases holds with same | ⟨_, _, _, _, _, folded, _⟩
    · exact same
    · have call := folds.call
      rw [folded] at call
      simp [Term.isCall] at call
  have made : next.tree.node? state.tree.nodes.size =
      some ⟨.letIn above.term values, node.contraction, some place, []⟩ := folds.growth.new 0
  have member : ancestor ∈ next.tree.ancestors state.tree.nodes.size := by
    rw [folds.growth.ancestors_new ordered (Nat.le_refl _) (node?_isSome_iff.mp ⟨_, made⟩),
      ← ancestors_of_parent ordered ((parent?_of_node? found).trans folds.parent)]
    exact folds.ancestor_mem
  obtain ⟨above', there, term, -⟩ := folds.growth.exists_node?_old folds.foundAbove
  refine ⟨_, made, contraction, .inr ⟨ancestor, member, above', there, values, ?_, ?_⟩⟩
  · rw [term]
  · rw [term, amounts, held]

/-- Folding a leaf keeps its parent expanded. -/
theorem Folds.expandedAt {leaf place ancestor : Nat} {node above before : Node}
    {values : Substitution} (folds : Folds state next leaf node place ancestor above values)
    (grows : state.Grows next) (ordered : state.tree.WellFormed)
    (there : state.tree.node? place = some before) (expanded : first.Expanded state) :
    first.ExpandedAt next { before with
      children := (state.tree.children place).replace leaf state.tree.nodes.size } := by
  have hadChildren : before.children ≠ [] := by
    rw [← children_of_node? there]
    exact List.ne_nil_of_mem folds.child
  obtain ⟨between, branches, early, late, driven, stand⟩ := expanded there hadChildren
  refine ⟨between, branches, early, late.tail grows, driven, ?_⟩
  rw [children_of_node? there]
  exact forall₂_replace stand (fun _ _ stands => stands.of_growth folds.growth ordered)
    (folds.takesOver ordered)

/-- A step keeps every node with children expanded. -/
theorem Expanded.grows (expanded : first.Expanded state) (early : first.Reaches state)
    (grows : state.Grows next) (ordered : state.tree.WellFormed) : first.Expanded next := by
  intro i node found inner
  rcases grows.cases ordered with ⟨leaf, node', branches, drives⟩ |
    ⟨leaf, node', place, ancestor, above, values, folds⟩
  · rcases drives.growth.inner_cases found inner with ⟨-, before, there, rfl⟩ | old
    · obtain rfl : node' = before := Option.some.inj (drives.pending.found.symm.trans there)
      exact drives.expandedAt grows early
    · exact (expanded old inner).grows grows drives.growth ordered
  · rcases folds.growth.inner_cases found inner with ⟨-, before, there, rfl⟩ | old
    · exact folds.expandedAt grows ordered there expanded
    · exact (expanded old inner).grows grows folds.growth ordered

/-- Every state that a construction reaches is expanded. -/
theorem Reaches.expanded {sc : Supercompiler} {t : Term} (reaches : (start sc t).Reaches state) :
    (start sc t).Expanded state := by
  induction reaches with
  | refl =>
    intro i node found inner
    have only := Array.mem_of_getElem? found
    simp only [start, ofTerm, List.mem_toArray, List.mem_singleton] at only
    simp [only] at inner
  | tail early grows ih => exact ih.grows early grows (Reaches.wellFormed early (.ofTerm t))

/-- What the children of an inner node stand for in a closed tree: the arguments of a constructor,
the body and the values of a `let` term, or the results of driving a call at some point of the
construction. -/
def Unfolds (first final : BuildState) (node : Node) : Prop :=
  match node.term with
  | .app .ctor _ args =>
    List.Forall₂ final.tree.StandsFor node.children (args.map fun t => ⟨t, none⟩)
  | .letIn body bindings =>
    List.Forall₂ final.tree.StandsFor node.children
      (⟨body, none⟩ :: bindings.map fun binding => ⟨binding.2, none⟩)
  | .app .fCall _ _ | .app .gCall _ _ => first.ExpandedAt final node
  | .app .pattern _ _ | .var _ => False

/-- The children of an expanded node stand for what its term unfolds to. -/
theorem ExpandedAt.unfolds {final : BuildState} {node : Node}
    (expanded : first.ExpandedAt final node) : first.Unfolds final node := by
  have atPoint := expanded
  obtain ⟨between, branches, -, -, driven, stand⟩ := expanded
  rw [Unfolds]
  rw [Supercompiler.drive] at driven
  cases held : node.term with
  | var x => simp [held, Program.driveTerm] at driven
  | letIn body bindings =>
    simp only [held, Program.driveTerm, Except.ok.injEq] at driven
    rw [← driven] at stand
    exact stand
  | app head name args =>
    cases head with
    | ctor =>
      simp only [held, Program.driveTerm, Except.ok.injEq] at driven
      rw [← driven] at stand
      exact stand
    | pattern => simp [held, Program.driveTerm] at driven
    | fCall => exact atPoint
    | gCall => exact atPoint

/-- A closed tree for a term, at the end of a construction. -/
structure Closes (first final : BuildState) (t : Term) : Prop where
  /-- The root holds the term, without a contraction. -/
  root : ∃ node, final.tree.node? final.tree.root = some node ∧ node.term = t ∧
    node.contraction = none
  /-- Every leaf is finished. -/
  leaf : ∀ {i : Nat} {node : Node}, final.tree.Attached i → final.tree.node? i = some node →
    node.children = [] → final.tree.Finished i node.term
  /-- The children of every inner node stand for what its term unfolds to. -/
  inner : ∀ {i : Nat} {node : Node}, final.tree.Attached i → final.tree.node? i = some node →
    node.children ≠ [] → first.Unfolds final node

end BuildState

/-- The state in which a construction ends. -/
def Run.final {α : Type} (run : Run α) : BuildState := ⟨run.tree, run.supercompiler, run.count⟩

namespace Supercompiler

/-- A completed construction leaves a closed tree for its term, whatever the program, the supply and
the bounds on the construction are. -/
theorem build_closed {α : Type} (sc : Supercompiler) (options : BuildOptions) (patience : Nat)
    (watch : Step → ProcessTree → α) (t : Term)
    (completed : (sc.build options patience watch t).ending = .completed) :
    (BuildState.start sc t).Closes (sc.build options patience watch t).final t := by
  obtain ⟨final, ends⟩ := BuildState.exists_endsIn_build sc options patience watch t
  obtain ⟨supercompiler, done⟩ := ends.completed completed
  have same : (sc.build options patience watch t).final = final := by
    rw [Run.final, ends.tree, ends.count, supercompiler]
  have ordered := ends.reaches.wellFormed (.ofTerm t)
  rw [same]
  refine ⟨ends.reaches.root (.ofTerm t) rfl, ?_, ?_⟩
  · intro i node attached found childless
    apply finished_of_isProcessed found
    rw [unprocessed?, List.find?_eq_none] at done
    have isLeaf := (mem_leaves ordered).mpr ⟨attached, (children_of_node? found).trans childless⟩
    simpa using done i isLeaf
  · intro i node _ found inner
    exact (ends.reaches.expanded found inner).unfolds

/-- The numbers from a number on, as an endless list. -/
def upwardRules : List Rule :=
  [.f ⟨"fUp", ["n"], .ctor "Cons" [.var "n", .fCall "fUp" [.ctor "S" [.var "n"]]]⟩]

/-- The tree for the numbers from a number on is completed by a fold of the recursive call, which is
an instance of the root. -/
theorem build_closed_upward :
    (build ⟨.ofRules upwardRules, {}⟩ {} 5 (fun _ _ => ())
      (.fCall "fUp" [.var "n"])).ending = .completed ∧
    (BuildState.start ⟨.ofRules upwardRules, {}⟩ (.fCall "fUp" [.var "n"])).Closes
      (build ⟨.ofRules upwardRules, {}⟩ {} 5 (fun _ _ => ())
        (.fCall "fUp" [.var "n"])).final (.fCall "fUp" [.var "n"]) := by
  have completed : (build ⟨.ofRules upwardRules, {}⟩ {} 5 (fun _ _ => ())
      (.fCall "fUp" [.var "n"])).ending = .completed := by cbv
  exact ⟨completed, build_closed _ _ _ _ _ completed⟩

end Supercompiler

end Supercompilation
