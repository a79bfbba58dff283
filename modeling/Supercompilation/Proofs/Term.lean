import Mathlib.Data.List.Basic
import Supercompilation.Term.Basic

/-!
# Variables of terms

Terms have lists of arguments and of bound values, so their induction principle is stated here once,
with a hypothesis for every argument and every value. The variables that are collected with a stack
are those of the plain traversal `Term.occurrences`, in the order of their first occurrence.

A term is plain if it holds neither patterns nor `let` terms; these are the terms that can be
written. The names that a term mentions are its variables and the names that its `let` terms bind.
-/

namespace Supercompilation

namespace NameSet

/-- Names that are put in are added to those that were there. -/
theorem mem_toList_insert (names : NameSet) (x y : String) :
    y ∈ (names.insert x).toList ↔ y ∈ names.toList ∨ y = x := by
  rw [toList_insert]
  by_cases held : x ∈ names.toList
  · rw [if_pos held]
    constructor
    · exact Or.inl
    · rintro (old | rfl)
      · exact old
      · exact held
  · rw [if_neg held, List.mem_append, List.mem_singleton]

/-- A set with more names holds the old names and the new ones. -/
theorem mem_toList_insertAll (names : NameSet) (xs : List String) (y : String) :
    y ∈ (names.insertAll xs).toList ↔ y ∈ names.toList ∨ y ∈ xs := by
  induction xs generalizing names with
  | nil => simp [insertAll]
  | cons x xs ih =>
    have step := ih (names.insert x)
    rw [mem_toList_insert] at step
    rw [insertAll, List.foldl_cons, ← insertAll, step, List.mem_cons, or_assoc]

/-- Names that are put in stand behind those that were there, each where it came first. -/
theorem toList_insertAll (names : NameSet) (xs : List String) :
    (names.insertAll xs).toList =
      names.toList ++ (xs.filter fun x => x ∉ names.toList).eraseDups := by
  induction xs generalizing names with
  | nil => simp [insertAll]
  | cons x xs ih =>
    rw [insertAll, List.foldl_cons, ← insertAll, ih, toList_insert]
    by_cases held : x ∈ names.toList
    · rw [if_pos held, List.filter_cons_of_neg (by simpa using held)]
    · have others : (xs.filter fun y => y ∉ names.toList ++ [x]) =
          (xs.filter fun y => y ∉ names.toList).filter fun y => !y == x := by
        rw [List.filter_filter]
        apply List.filter_congr
        intro y _
        rw [Bool.eq_iff_iff]
        simp [and_comm]
      rw [if_neg held, List.filter_cons_of_pos (by simpa using held), List.eraseDups_cons, others,
        List.append_assoc, List.singleton_append]

/-- Names put in one list after another. -/
theorem insertAll_append (names : NameSet) (xs ys : List String) :
    names.insertAll (xs ++ ys) = (names.insertAll xs).insertAll ys := by
  rw [insertAll, insertAll, insertAll, List.foldl_append]

/-- A set holds no name twice, however many are put in. -/
theorem nodup_toList_insertAll {names : NameSet} (distinct : names.toList.Nodup)
    (xs : List String) : (names.insertAll xs).toList.Nodup := by
  induction xs generalizing names with
  | nil => exact distinct
  | cons x xs ih =>
    rw [insertAll, List.foldl_cons, ← insertAll]
    apply ih
    rw [toList_insert]
    by_cases held : x ∈ names.toList
    · rwa [if_pos held]
    · rw [if_neg held, List.nodup_append]
      refine ⟨distinct, by simp, fun y old z new same => held ?_⟩
      rw [← List.mem_singleton.mp new, ← same]
      exact old

end NameSet

namespace Term

/-- Induction over terms: an application may use what holds of its arguments, a `let` term what
holds of its body and of the bound values. -/
@[elab_as_elim, induction_eliminator]
theorem induction {motive : Term → Prop} (var : ∀ name, motive (.var name))
    (app : ∀ head name args, (∀ t ∈ args, motive t) → motive (.app head name args))
    (letIn : ∀ body bindings, motive body → (∀ binding ∈ bindings, motive binding.2) →
      motive (.letIn body bindings)) (t : Term) : motive t := by
  cases t with
  | var name => exact var name
  | app head name args =>
    refine app head name args fun t member => ?_
    have := List.sizeOf_lt_of_mem member
    exact induction var app letIn t
  | letIn body bindings =>
    refine letIn body bindings (induction var app letIn body) fun binding member => ?_
    have := sizeOf_value_lt member
    exact induction var app letIn binding.2

/-- The variables of arguments are those of each of them. -/
theorem mem_occurrencesArgs {args : List Term} {x : String} :
    x ∈ occurrencesArgs args ↔ ∃ t ∈ args, x ∈ t.occurrences := by
  induction args with
  | nil => simp [occurrencesArgs]
  | cons t ts ih => simp [occurrencesArgs, ih]

/-- The variables of bindings are those of the bound values. -/
theorem mem_occurrencesBindings {bindings : List (String × Term)} {x : String} :
    x ∈ occurrencesBindings bindings ↔ ∃ binding ∈ bindings, x ∈ binding.2.occurrences := by
  induction bindings with
  | nil => simp [occurrencesBindings]
  | cons binding rest ih => simp [occurrencesBindings, ih]

/-- A variable occurs in itself alone. -/
@[simp]
theorem mem_occurrences_var {name x : String} : x ∈ (var name).occurrences ↔ x = name := by
  rw [occurrences, List.mem_singleton]

/-- The variables of an application are those of its arguments. -/
@[simp]
theorem mem_occurrences_app {head : Head} {name : String} {args : List Term} {x : String} :
    x ∈ (app head name args).occurrences ↔ ∃ t ∈ args, x ∈ t.occurrences := by
  rw [occurrences, mem_occurrencesArgs]

/-- The variables of a `let` term are those of its body and of the bound values. -/
@[simp]
theorem mem_occurrences_letIn {body : Term} {bindings : List (String × Term)} {x : String} :
    x ∈ (letIn body bindings).occurrences ↔
      x ∈ body.occurrences ∨ ∃ binding ∈ bindings, x ∈ binding.2.occurrences := by
  rw [occurrences, List.mem_append, mem_occurrencesBindings]

/-- The variables of terms one behind the other. -/
theorem occurrencesArgs_append (ts us : List Term) :
    occurrencesArgs (ts ++ us) = occurrencesArgs ts ++ occurrencesArgs us := by
  induction ts with
  | nil => rfl
  | cons t ts ih => simp [occurrencesArgs, ih]

/-- The variables of bindings are those of the list of values. -/
theorem occurrencesArgs_values (bindings : List (String × Term)) :
    occurrencesArgs (bindings.map Prod.snd) = occurrencesBindings bindings := by
  induction bindings with
  | nil => rfl
  | cons binding rest ih => simp [occurrencesArgs, occurrencesBindings, ih]

/-- The number of nodes of terms one behind the other. -/
theorem sizeArgs_append (ts us : List Term) :
    sizeArgs (ts ++ us) = sizeArgs ts + sizeArgs us := by
  induction ts with
  | nil => simp [sizeArgs]
  | cons t ts ih => simp [sizeArgs, ih, Nat.add_assoc]

/-- The number of nodes of bindings is that of the list of values. -/
theorem sizeArgs_values (bindings : List (String × Term)) :
    sizeArgs (bindings.map Prod.snd) = sizeBindings bindings := by
  induction bindings with
  | nil => rfl
  | cons binding rest ih => simp [sizeArgs, sizeBindings, ih]

/-- Every term has a node. -/
theorem size_pos (t : Term) : 0 < t.size := by
  cases t with
  | var name => exact size_var name ▸ Nat.zero_lt_one
  | app head name args => exact size_app head name args ▸ by omega
  | letIn body bindings => exact size_letIn body bindings ▸ by omega

/-- With a round for every node on the stack, exactly the variables of the stack are collected. -/
theorem collectVars_eq (rounds : Nat) (stack : List Term) (seen : NameSet)
    (enough : sizeArgs stack ≤ rounds) :
    collectVars rounds stack seen = seen.insertAll (occurrencesArgs stack) := by
  induction rounds generalizing stack seen with
  | zero =>
    cases stack with
    | nil => simp [collectVars, occurrencesArgs, NameSet.insertAll]
    | cons t ts =>
      have positive := t.size_pos
      simp only [sizeArgs] at enough
      omega
  | succ rounds ih =>
    cases stack with
    | nil => simp [collectVars, occurrencesArgs, NameSet.insertAll]
    | cons t ts =>
      cases t with
      | var name =>
        simp only [sizeArgs, size_var] at enough
        rw [collectVars, ih ts (seen.insert name) (by omega), occurrencesArgs, occurrences,
          List.singleton_append, NameSet.insertAll, NameSet.insertAll, List.foldl_cons]
      | app head name args =>
        simp only [sizeArgs, size_app] at enough
        rw [collectVars, ih (args ++ ts) seen (by rw [sizeArgs_append]; omega), occurrencesArgs,
          occurrences, occurrencesArgs_append]
      | letIn body bindings =>
        simp only [sizeArgs, size_letIn] at enough
        rw [collectVars, List.cons_append, ih (body :: (bindings.map Prod.snd ++ ts)) seen
            (by simp only [sizeArgs, sizeArgs_append, sizeArgs_values]; omega),
          occurrencesArgs, occurrencesArgs, occurrencesArgs_append, occurrencesArgs_values,
          occurrences, List.append_assoc]

/-- The variables of a term are the names of its traversal, each put in once. -/
theorem vars_eq (t : Term) : t.vars = (NameSet.empty.insertAll t.occurrences).toList := by
  rw [vars, collectVars_eq t.size [t] .empty (by simp [sizeArgs]), occurrencesArgs,
    occurrencesArgs, List.append_nil]

/-- The variables of a term are the names of its traversal without repetitions. -/
theorem vars_eq_eraseDups (t : Term) : t.vars = t.occurrences.eraseDups := by
  have all : (t.occurrences.filter fun x => x ∉ NameSet.empty.toList) = t.occurrences :=
    List.filter_eq_self.mpr fun x _ => by simp
  rw [vars_eq, NameSet.toList_insertAll, all, NameSet.toList_empty, List.nil_append]

/-- A name is a variable of a term if the traversal meets it. -/
@[simp]
theorem mem_vars {t : Term} {x : String} : x ∈ t.vars ↔ x ∈ t.occurrences := by
  rw [vars_eq, NameSet.mem_toList_insertAll, NameSet.toList_empty]
  simp

/-- The variables of a term are listed once each. -/
theorem nodup_vars (t : Term) : t.vars.Nodup := by
  rw [vars_eq]
  have none : NameSet.empty.toList.Nodup := List.nodup_nil
  exact NameSet.nodup_toList_insertAll none t.occurrences

/-- Arguments are without variables if none occurs in any of them. -/
theorem groundArgs_iff {args : List Term} :
    groundArgs args = true ↔ ∀ t ∈ args, t.ground = true := by
  induction args with
  | nil => simp [groundArgs]
  | cons t ts ih => simp [groundArgs, ih]

/-- Bound values are without variables if none occurs in any of them. -/
theorem groundBindings_iff {bindings : List (String × Term)} :
    groundBindings bindings = true ↔ ∀ binding ∈ bindings, binding.2.ground = true := by
  induction bindings with
  | nil => simp [groundBindings]
  | cons binding rest ih => simp [groundBindings, ih]

/-- A term is ground if no variable occurs in it. -/
theorem ground_iff {t : Term} : t.ground = true ↔ ∀ x, x ∉ t.occurrences := by
  induction t with
  | var name => simp
  | app head name args ih =>
    rw [ground_app, groundArgs_iff]
    constructor
    · intro each x occurs
      obtain ⟨t, member, inside⟩ := mem_occurrences_app.mp occurs
      exact (ih t member).mp (each t member) x inside
    · intro none t member
      exact (ih t member).mpr fun x inside => none x (mem_occurrences_app.mpr ⟨t, member, inside⟩)
  | letIn body bindings bodyIh valueIh =>
    rw [ground_letIn, Bool.and_eq_true, groundBindings_iff, bodyIh]
    constructor
    · rintro ⟨inBody, inValues⟩ x occurs
      rcases mem_occurrences_letIn.mp occurs with inside | ⟨binding, member, inside⟩
      · exact inBody x inside
      · exact (valueIh binding member).mp (inValues binding member) x inside
    · intro none
      refine ⟨fun x inside => none x (mem_occurrences_letIn.mpr (.inl inside)),
        fun binding member => (valueIh binding member).mpr fun x inside => ?_⟩
      exact none x (mem_occurrences_letIn.mpr (.inr ⟨binding, member, inside⟩))

mutual

/-- A term without patterns and `let` terms. -/
def plain : Term → Bool
  | var _ => true
  | app head _ args => head != .pattern && plainArgs args
  | letIn _ _ => false

/-- Terms without patterns and `let` terms. -/
def plainArgs : List Term → Bool
  | [] => true
  | t :: ts => t.plain && plainArgs ts

end

/-- Arguments are plain if each of them is. -/
theorem plainArgs_iff {args : List Term} : plainArgs args = true ↔ ∀ t ∈ args, t.plain = true := by
  induction args with
  | nil => simp [plainArgs]
  | cons t ts ih => simp [plainArgs, ih]

@[simp]
theorem plain_var (name : String) : (var name).plain = true := by
  rw [plain]

/-- An application is plain if it is no pattern and its arguments are plain. -/
@[simp]
theorem plain_app {head : Head} {name : String} {args : List Term} :
    (app head name args).plain = true ↔ head ≠ .pattern ∧ ∀ t ∈ args, t.plain = true := by
  rw [plain, Bool.and_eq_true, bne_iff_ne, plainArgs_iff]

@[simp]
theorem plain_letIn (body : Term) (bindings : List (String × Term)) :
    (letIn body bindings).plain = false := by
  rw [plain]

mutual

/-- The variables of a term and the names that its `let` terms bind. -/
def mentions : Term → List String
  | var name => [name]
  | app _ _ args => mentionsArgs args
  | letIn body bindings => body.mentions ++ mentionsBindings bindings

/-- The names that some terms mention. -/
def mentionsArgs : List Term → List String
  | [] => []
  | t :: ts => t.mentions ++ mentionsArgs ts

/-- The bound names and the names that the values mention. -/
def mentionsBindings : List (String × Term) → List String
  | [] => []
  | (name, value) :: rest => name :: value.mentions ++ mentionsBindings rest

end

/-- A variable mentions itself alone. -/
@[simp]
theorem mem_mentions_var {name x : String} : x ∈ (var name).mentions ↔ x = name := by
  rw [mentions, List.mem_singleton]

/-- An application mentions what its arguments mention. -/
@[simp]
theorem mem_mentions_app {head : Head} {name : String} {args : List Term} {x : String} :
    x ∈ (app head name args).mentions ↔ ∃ t ∈ args, x ∈ t.mentions := by
  rw [mentions]
  induction args with
  | nil => simp [mentionsArgs]
  | cons t ts ih => simp [mentionsArgs, ih]

/-- A `let` term mentions what its body mentions, the names it binds and what their values
mention. -/
@[simp]
theorem mem_mentions_letIn {body : Term} {bindings : List (String × Term)} {x : String} :
    x ∈ (letIn body bindings).mentions ↔ x ∈ body.mentions ∨
      ∃ binding ∈ bindings, x = binding.1 ∨ x ∈ binding.2.mentions := by
  rw [mentions, List.mem_append]
  apply or_congr Iff.rfl
  induction bindings with
  | nil => simp [mentionsBindings]
  | cons binding rest ih => simp [mentionsBindings, ih, or_assoc]

/-- The variables of a term are among the names that it mentions. -/
theorem mem_mentions_of_mem_occurrences {t : Term} {x : String} (occurs : x ∈ t.occurrences) :
    x ∈ t.mentions := by
  induction t with
  | var name => simpa using occurs
  | app head name args ih =>
    obtain ⟨t, member, inside⟩ := mem_occurrences_app.mp occurs
    exact mem_mentions_app.mpr ⟨t, member, ih t member inside⟩
  | letIn body bindings bodyIh valueIh =>
    rcases mem_occurrences_letIn.mp occurs with inside | ⟨binding, member, inside⟩
    · exact mem_mentions_letIn.mpr (.inl (bodyIh inside))
    · exact mem_mentions_letIn.mpr (.inr ⟨binding, member, .inr (valueIh binding member inside)⟩)

/-- A plain term mentions its variables alone. -/
theorem mem_mentions_of_plain {t : Term} (written : t.plain = true) {x : String} :
    x ∈ t.mentions ↔ x ∈ t.occurrences := by
  refine ⟨fun mentioned => ?_, mem_mentions_of_mem_occurrences⟩
  induction t with
  | var name => simpa using mentioned
  | app head name args ih =>
    obtain ⟨t, member, inside⟩ := mem_mentions_app.mp mentioned
    have writtenArg := (plain_app.mp written).2 t member
    exact mem_occurrences_app.mpr ⟨t, member, ih t member writtenArg inside⟩
  | letIn body bindings => simp at written

/-- A number, made of zero by a constructor for the successor. -/
def numeral : Nat → Term
  | 0 => .ctor "Z" []
  | n + 1 => .ctor "S" [numeral n]

/-- Different numbers are different terms. -/
theorem numeral_injective : Function.Injective numeral := by
  intro m n same
  induction m generalizing n with
  | zero =>
    cases n with
    | zero => rfl
    | succ n => simp [numeral] at same
  | succ m ih =>
    cases n with
    | zero => simp [numeral] at same
    | succ n =>
      simp only [numeral, Term.app.injEq, List.cons.injEq, and_true, true_and] at same
      rw [ih same]

end Term

end Supercompilation
