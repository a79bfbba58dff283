import Supercompilation.Matching
import Supercompilation.Proofs.Substitution

/-!
# Soundness and completeness of matching

The tests on sizes change no answer: equal terms have equal sizes, and a term that a pattern matches
is at least as large as the pattern. `Term.equals` is therefore equality, and `Term.matchAgainst` is
plain matching from the empty substitution.

Plain matching only adds bindings, one for each variable of the pattern that is not bound yet, and
the bindings found make the pattern the term. If any substitution makes the pattern the term, the
bindings agree with it all the way, so that a match is found.
-/

namespace Supercompilation

namespace Term

/-- Comparing arguments is equality if comparing each of them is. -/
theorem equalsArgs_iff {args : List Term} (each : ∀ t ∈ args, ∀ u, t.equals u = true ↔ t = u)
    (args' : List Term) : equalsArgs args args' = true ↔ args = args' := by
  induction args generalizing args' with
  | nil => cases args' <;> simp [equalsArgs]
  | cons t ts ih =>
    cases args' with
    | nil => simp [equalsArgs]
    | cons u us =>
      rw [equalsArgs, Bool.and_eq_true, each t List.mem_cons_self u,
        ih (fun t member => each t (List.mem_cons_of_mem _ member)) us, List.cons.injEq]

/-- Comparing bindings is equality if comparing each value is. -/
theorem equalsBindings_iff {bindings : List (String × Term)}
    (each : ∀ binding ∈ bindings, ∀ u, binding.2.equals u = true ↔ binding.2 = u)
    (bindings' : List (String × Term)) :
    equalsBindings bindings bindings' = true ↔ bindings = bindings' := by
  induction bindings generalizing bindings' with
  | nil => cases bindings' <;> simp [equalsBindings]
  | cons binding rest ih =>
    cases bindings' with
    | nil => simp [equalsBindings]
    | cons binding' rest' =>
      obtain ⟨x, t⟩ := binding
      obtain ⟨y, u⟩ := binding'
      rw [equalsBindings, Bool.and_eq_true, Bool.and_eq_true, beq_iff_eq,
        each (x, t) List.mem_cons_self u,
        ih (fun b member => each b (List.mem_cons_of_mem _ member)) rest', List.cons.injEq,
        Prod.mk.injEq]

/-- Terms compare equal exactly if they are the same. -/
theorem equals_iff {t u : Term} : t.equals u = true ↔ t = u := by
  induction t generalizing u with
  | var name => cases u <;> simp [equals]
  | app head name args ih =>
    have args_iff := equalsArgs_iff fun t member u => ih t member (u := u)
    cases u with
    | app head' name' args' =>
      simp only [equals, Bool.and_eq_true, beq_iff_eq, args_iff, app.injEq, size_app]
      constructor
      · rintro ⟨-, ⟨rfl, rfl⟩, rfl⟩
        exact ⟨rfl, rfl, rfl⟩
      · rintro ⟨rfl, rfl, rfl⟩
        exact ⟨rfl, ⟨rfl, rfl⟩, rfl⟩
    | _ => simp [equals]
  | letIn body bindings bodyIh valueIh =>
    have bindings_iff := equalsBindings_iff fun b member u => valueIh b member (u := u)
    cases u with
    | letIn body' bindings' =>
      simp only [equals, Bool.and_eq_true, beq_iff_eq, bindings_iff, bodyIh, letIn.injEq,
        size_letIn]
      constructor
      · rintro ⟨-, rfl, rfl⟩
        exact ⟨rfl, rfl⟩
      · rintro ⟨rfl, rfl⟩
        exact ⟨rfl, rfl, rfl⟩
    | _ => simp [equals]

/-- Binding a variable with the size test is binding it. -/
theorem extendSized_eq (values : Substitution) (x : String) (t : Term) :
    extendSized values x t = values.extend x t := by
  rw [extendSized, Substitution.extend]
  cases values.value? x with
  | none => rfl
  | some bound =>
    by_cases same : bound = t
    · simp [same, equals_iff.mpr]
    · simp [same, equals_iff]

/-- Arguments that match have the same number. -/
theorem length_eq_of_matchArgs {args args' : List Term} {values found : Substitution}
    (matched : matchArgs args args' values = some found) : args.length = args'.length := by
  induction args generalizing args' values with
  | nil => cases args' <;> simp_all [matchArgs]
  | cons t ts ih =>
    cases args' with
    | nil => simp [matchArgs] at matched
    | cons u us =>
      rw [matchArgs] at matched
      split at matched
      · rw [List.length_cons, List.length_cons, ih matched]
      · contradiction

/-- Bindings match if they have the same names and their values match. -/
theorem matchBindings_eq (bindings bindings' : List (String × Term)) (values : Substitution) :
    matchBindings bindings bindings' values =
      if NameMap.names bindings = NameMap.names bindings' then
        matchArgs (bindings.map Prod.snd) (bindings'.map Prod.snd) values
      else none := by
  induction bindings generalizing bindings' values with
  | nil => cases bindings' <;> simp [matchBindings, matchArgs, NameMap.names]
  | cons binding rest ih =>
    cases bindings' with
    | nil => simp [matchBindings, NameMap.names]
    | cons binding' rest' =>
      obtain ⟨x, t⟩ := binding
      obtain ⟨y, u⟩ := binding'
      have names_iff : (NameMap.names ((x, t) :: rest) = NameMap.names ((y, u) :: rest')) ↔
          x = y ∧ NameMap.names rest = NameMap.names rest' := List.cons.injEq _ _ _ _ ▸ Iff.rfl
      rw [matchBindings, List.map_cons, List.map_cons, matchArgs]
      by_cases same : x = y
      · cases t.matchInto u values with
        | none => simp [same]
        | some middle =>
          rw [if_pos same, if_congr names_iff rfl rfl]
          simp only [same, true_and, ih]
      · rw [if_neg same, if_neg fun both => same (names_iff.mp both).1]

/-- Matching values with the size test is matching the list of values. -/
theorem matchSizedBindings_eq (bindings bindings' : List (String × Term))
    (values : Substitution) :
    matchSizedBindings bindings bindings' values =
      matchSizedArgs (bindings.map Prod.snd) (bindings'.map Prod.snd) values := by
  induction bindings generalizing bindings' values with
  | nil => cases bindings' <;> simp [matchSizedBindings, matchSizedArgs]
  | cons binding rest ih =>
    cases bindings' with
    | nil => simp [matchSizedBindings, matchSizedArgs]
    | cons binding' rest' =>
      rw [matchSizedBindings, List.map_cons, List.map_cons, matchSizedArgs]
      cases binding.2.matchSized binding'.2 values with
      | none => rfl
      | some middle => exact ih rest' middle

/-- Arguments that match are not smaller than the patterns, if this holds of each of them. -/
theorem sizeArgs_le_of_matchArgs {args args' : List Term} {values found : Substitution}
    (each : ∀ t ∈ args, ∀ {u values found}, t.matchInto u values = some found → t.size ≤ u.size)
    (matched : matchArgs args args' values = some found) : sizeArgs args ≤ sizeArgs args' := by
  induction args generalizing args' values with
  | nil => simp [sizeArgs]
  | cons t ts ih =>
    cases args' with
    | nil => simp [matchArgs] at matched
    | cons u us =>
      rw [matchArgs] at matched
      split at matched
      · rename_i middle first
        have here := each t List.mem_cons_self first
        have later := ih (fun t member => each t (List.mem_cons_of_mem _ member)) matched
        simp only [sizeArgs]
        omega
      · contradiction

/-- What holds of the value of every binding holds of every value. -/
theorem mem_values {property : Term → Prop} {bindings : List (String × Term)}
    (each : ∀ binding ∈ bindings, property binding.2) :
    ∀ t ∈ bindings.map Prod.snd, property t := by
  intro t member
  obtain ⟨binding, inside, rfl⟩ := List.mem_map.mp member
  exact each binding inside

/-- A term that a pattern matches is not smaller than the pattern. -/
theorem size_le_of_matchInto {pattern t : Term} {values found : Substitution}
    (matched : pattern.matchInto t values = some found) : pattern.size ≤ t.size := by
  induction pattern generalizing t values found with
  | var name =>
    rw [size_var]
    exact t.size_pos
  | app head name args ih =>
    cases t with
    | app head' name' args' =>
      rw [matchInto] at matched
      split at matched
      · have inArgs := sizeArgs_le_of_matchArgs ih matched
        rw [size_app, size_app]
        omega
      · contradiction
    | _ => simp [matchInto] at matched
  | letIn body bindings bodyIh valueIh =>
    cases t with
    | letIn body' bindings' =>
      rw [matchInto, matchBindings_eq] at matched
      split at matched
      · rename_i middle first
        split at first
        · have inValues := sizeArgs_le_of_matchArgs (mem_values valueIh) first
          have inBody := bodyIh matched
          rw [sizeArgs_values, sizeArgs_values] at inValues
          rw [size_letIn, size_letIn]
          omega
        · contradiction
      · contradiction
    | _ => simp [matchInto] at matched

/-- Matching arguments with the size tests is matching them, if it is for each of them. -/
theorem matchSizedArgs_eq {args : List Term}
    (each : ∀ t ∈ args, ∀ u values, t.matchSized u values = t.matchInto u values)
    (args' : List Term) (values : Substitution) :
    matchSizedArgs args args' values = matchArgs args args' values := by
  induction args generalizing args' values with
  | nil => cases args' <;> simp [matchSizedArgs, matchArgs]
  | cons t ts ih =>
    cases args' with
    | nil => simp [matchSizedArgs, matchArgs]
    | cons u us =>
      rw [matchSizedArgs, matchArgs, each t List.mem_cons_self]
      cases t.matchInto u values with
      | none => rfl
      | some middle => exact ih (fun t member => each t (List.mem_cons_of_mem _ member)) us middle

/-- A candidate smaller than the pattern does not match. -/
theorem matchInto_eq_none_of_size_lt {pattern t : Term} (small : t.size < pattern.size)
    (values : Substitution) : pattern.matchInto t values = none := by
  by_contra some
  obtain ⟨found, matched⟩ := Option.ne_none_iff_exists'.mp some
  have large := size_le_of_matchInto matched
  omega

/-- A candidate smaller than the pattern is refused, with the size tests and without. -/
theorem matchSized_eq_of_size_lt {pattern t : Term} (small : t.size < pattern.size)
    (values : Substitution) : pattern.matchSized t values = pattern.matchInto t values := by
  unfold matchSized
  rw [if_pos small, matchInto_eq_none_of_size_lt small]

/-- Only applications with as many arguments match. -/
theorem matchInto_app (head head' : Head) (name name' : String) (args args' : List Term)
    (values : Substitution) : (app head name args).matchInto (app head' name' args') values =
      if head = head' ∧ name = name' ∧ args.length = args'.length then
        matchArgs args args' values
      else none := by
  rw [matchInto]
  by_cases same : head = head' ∧ name = name'
  · by_cases lengths : args.length = args'.length
    · rw [if_pos same, if_pos ⟨same.1, same.2, lengths⟩]
    · rw [if_pos same, if_neg fun all => lengths all.2.2]
      by_contra some
      obtain ⟨found, matched⟩ := Option.ne_none_iff_exists'.mp some
      exact lengths (length_eq_of_matchArgs matched)
  · rw [if_neg same, if_neg fun all => same ⟨all.1, all.2.1⟩]

/-- Matching with the size tests is matching. -/
theorem matchSized_eq_matchInto (pattern t : Term) (values : Substitution) :
    pattern.matchSized t values = pattern.matchInto t values := by
  induction pattern generalizing t values with
  | var name =>
    have large : ¬ t.size < (var name).size := by
      rw [size_var]
      exact Nat.not_lt_of_le t.size_pos
    rw [matchSized, if_neg large, matchInto]
    exact extendSized_eq values name t
  | app head name args ih =>
    by_cases small : t.size < (app head name args).size
    · exact matchSized_eq_of_size_lt small values
    cases t with
    | app head' name' args' =>
      rw [matchSized, if_neg small, matchInto_app, matchSizedArgs_eq ih]
    | _ => simp [matchSized, matchInto]
  | letIn body bindings bodyIh valueIh =>
    by_cases small : t.size < (letIn body bindings).size
    · exact matchSized_eq_of_size_lt small values
    cases t with
    | letIn body' bindings' =>
      rw [matchSized, if_neg small, matchInto, matchBindings_eq, matchSizedBindings_eq,
        matchSizedArgs_eq (mem_values valueIh)]
      by_cases same : NameMap.names bindings = NameMap.names bindings'
      · rw [if_pos same, if_pos same]
        cases matchArgs (bindings.map Prod.snd) (bindings'.map Prod.snd) values with
        | none => rfl
        | some middle => exact bodyIh body' middle
      · rw [if_neg same, if_neg same]
    | _ => simp [matchSized, matchInto]

/-- What a successful match does to the bindings: those that were there stay, the variables of the
patterns are bound and no others, and the patterns become the terms. -/
structure Matched (patterns terms : List Term) (values found : Substitution) : Prop where
  /-- Every name is bound once, if it was before. -/
  distinct : (NameMap.names values).Nodup → (NameMap.names found).Nodup
  /-- Bound variables keep their values. -/
  keeps : ∀ {x t}, values.value? x = some t → found.value? x = some t
  /-- The variables of the patterns, and no others, are bound. -/
  binds : ∀ x, x ∈ NameMap.names found ↔
    x ∈ NameMap.names values ∨ x ∈ occurrencesArgs patterns
  /-- The bindings make the patterns the terms. -/
  yields : patterns.map (subst found) = terms

/-- Nothing is matched with nothing. -/
theorem Matched.nil (values : Substitution) : Matched [] [] values values :=
  ⟨id, id, fun _ => by simp [occurrencesArgs], rfl⟩

/-- What a substitution does to a term whose variables it binds is not changed by more bindings. -/
theorem subst_of_keeps {t : Term} {values found : Substitution}
    (keeps : ∀ {x u}, values.value? x = some u → found.value? x = some u)
    (bound : ∀ x ∈ t.occurrences, x ∈ NameMap.names values) : t.subst found = t.subst values := by
  apply subst_congr
  intro x occurs
  obtain ⟨u, here⟩ := Option.ne_none_iff_exists'.mp
    (mt NameMap.value?_eq_none_iff.mp (not_not.mpr (bound x occurs)))
  rw [subst_var_of_value? here, subst_var_of_value? (keeps here)]

/-- Matches of patterns one behind the other. -/
theorem Matched.append {ps qs ts us : List Term} {first second third : Substitution}
    (early : Matched ps ts first second) (late : Matched qs us second third) :
    Matched (ps ++ qs) (ts ++ us) first third where
  distinct := late.distinct ∘ early.distinct
  keeps here := late.keeps (early.keeps here)
  binds x := by rw [late.binds, early.binds, occurrencesArgs_append, List.mem_append, or_assoc]
  yields := by
    have kept : ps.map (subst third) = ps.map (subst second) := by
      apply List.map_congr_left
      intro p member
      refine subst_of_keeps late.keeps fun x occurs => (early.binds x).mpr (.inr ?_)
      exact mem_occurrencesArgs.mpr ⟨p, member, occurs⟩
    rw [List.map_append, kept, early.yields, late.yields]

/-- Binding a variable matches it. -/
theorem matched_of_extend {values found : Substitution} {x : String} {t : Term}
    (extended : values.extend x t = some found) : Matched [var x] [t] values found := by
  rw [Substitution.extend] at extended
  split at extended
  · rename_i bound here
    split at extended
    · rename_i same
      obtain rfl := Option.some.inj extended
      obtain rfl : bound = t := eq_of_beq bound t same
      refine ⟨id, id, fun y => ?_, ?_⟩
      · have named : x ∈ NameMap.names values := by
          by_contra unnamed
          rw [NameMap.value?_eq_none_iff.mpr unnamed] at here
          contradiction
        simp only [occurrencesArgs, List.append_nil, mem_occurrences_var]
        constructor
        · exact .inl
        · rintro (old | rfl)
          · exact old
          · exact named
      · rw [List.map_cons, List.map_nil, subst_var_of_value? here]
    · contradiction
  · rename_i unbound
    obtain rfl := Option.some.inj extended
    have unnamed := NameMap.value?_eq_none_iff.mp unbound
    refine ⟨fun distinct => ?_, fun {y u} here => ?_, fun y => ?_, ?_⟩
    · rw [NameMap.names, List.map_append, List.nodup_append]
      refine ⟨distinct, by simp, fun y named z new same => unnamed ?_⟩
      obtain rfl : z = x := List.mem_singleton.mp new
      rw [← same]
      exact named
    · rw [NameMap.value?_append, here, Option.some_or]
    · simp [NameMap.names, occurrencesArgs]
    · have here : NameMap.value? (values ++ [(x, t)]) x = some t := by
        rw [NameMap.value?_append, unbound, Option.none_or, NameMap.value?, if_pos rfl]
      rw [List.map_cons, List.map_nil, subst_var_of_value? here]

/-- Arguments match as stated, if each of them does. -/
theorem matched_of_matchArgs {args args' : List Term} {values found : Substitution}
    (each : ∀ t ∈ args, ∀ {u values found}, t.matchInto u values = some found →
      Matched [t] [u] values found)
    (matched : matchArgs args args' values = some found) : Matched args args' values found := by
  induction args generalizing args' values with
  | nil =>
    cases args' with
    | nil =>
      rw [matchArgs] at matched
      obtain rfl := Option.some.inj matched
      exact .nil values
    | cons u us => simp [matchArgs] at matched
  | cons t ts ih =>
    cases args' with
    | nil => simp [matchArgs] at matched
    | cons u us =>
      rw [matchArgs] at matched
      split at matched
      · rename_i middle first
        have here := each t List.mem_cons_self first
        exact here.append (ih (fun t member => each t (List.mem_cons_of_mem _ member)) matched)
      · contradiction

/-- A pattern matches as stated. -/
theorem matched_of_matchInto {pattern t : Term} {values found : Substitution}
    (matched : pattern.matchInto t values = some found) : Matched [pattern] [t] values found := by
  induction pattern generalizing t values found with
  | var name =>
    rw [matchInto] at matched
    exact matched_of_extend matched
  | app head name args ih =>
    cases t with
    | app head' name' args' =>
      rw [matchInto] at matched
      split at matched
      · rename_i same
        obtain ⟨rfl, rfl⟩ := same
        have inArgs := matched_of_matchArgs ih matched
        refine ⟨inArgs.distinct, inArgs.keeps, fun x => ?_, ?_⟩
        · rw [inArgs.binds, occurrencesArgs, occurrencesArgs, List.append_nil, occurrences]
        · rw [List.map_cons, List.map_nil, subst_app, inArgs.yields]
      · contradiction
    | _ => simp [matchInto] at matched
  | letIn body bindings bodyIh valueIh =>
    cases t with
    | letIn body' bindings' =>
      rw [matchInto, matchBindings_eq] at matched
      split at matched
      · rename_i middle first
        split at first
        · rename_i sameNames
          have both := (matched_of_matchArgs (mem_values valueIh) first).append (bodyIh matched)
          refine ⟨both.distinct, both.keeps, fun x => ?_, ?_⟩
          · rw [both.binds, occurrencesArgs_append, occurrencesArgs_values]
            simp [occurrencesArgs, occurrences, or_comm]
          · have yields := both.yields
            rw [List.map_append] at yields
            obtain ⟨inValues, inBody⟩ := List.append_inj' yields rfl
            have values : (bindings.map fun b => (b.1, b.2.subst found)) = bindings' := by
              have parts : bindings' = (NameMap.names bindings).zip (bindings'.map Prod.snd) :=
                List.zip_of_prod sameNames.symm rfl
              rw [parts, ← inValues, List.map_map]
              apply List.zip_of_prod
              · rw [List.map_map]
                rfl
              · rw [List.map_map]
                rfl
            rw [List.map_cons, List.map_nil, subst_letIn, values, List.singleton_inj.mp inBody]
        · contradiction
      · contradiction
    | _ => simp [matchInto] at matched

/-- A pattern without variables matches only terms of its size. -/
theorem size_eq_of_ground {pattern t : Term} {values found : Substitution}
    (ground : pattern.ground = true) (matched : pattern.matchInto t values = some found) :
    pattern.size = t.size := by
  have unchanged : pattern.subst found = pattern.subst [] :=
    subst_congr fun x occurs => absurd occurs (ground_iff.mp ground x)
  have yields := (matched_of_matchInto matched).yields
  rw [List.map_cons, List.map_nil, unchanged, subst_nil] at yields
  rw [List.singleton_inj.mp yields]

/-- A pattern without variables does not match a candidate of another size. -/
theorem matchInto_eq_none_of_ground {pattern t : Term} (ground : pattern.ground = true)
    (differ : pattern.size ≠ t.size) (values : Substitution) :
    pattern.matchInto t values = none := by
  by_contra some
  obtain ⟨found, matched⟩ := Option.ne_none_iff_exists'.mp some
  exact differ (size_eq_of_ground ground matched)

/-- Matching from the empty substitution, with all the tests on sizes, is plain matching. -/
theorem matchAgainst_eq_matchInto (pattern t : Term) :
    pattern.matchAgainst t = pattern.matchInto t [] := by
  rw [matchAgainst, matchSized_eq_matchInto]
  split
  · rename_i refused
    rw [Bool.and_eq_true, bne_iff_ne] at refused
    exact (matchInto_eq_none_of_ground refused.1 refused.2 []).symm
  · rfl

/-- The substitution that a match yields makes the pattern the term. -/
theorem subst_of_matchAgainst {pattern t : Term} {found : Substitution}
    (matched : pattern.matchAgainst t = some found) : pattern.subst found = t := by
  rw [matchAgainst_eq_matchInto] at matched
  have yields := (matched_of_matchInto matched).yields
  rw [List.map_cons, List.map_nil] at yields
  exact List.singleton_inj.mp yields

/-- The substitution that a match yields binds the variables of the pattern. -/
theorem mem_names_of_matchAgainst {pattern t : Term} {found : Substitution}
    (matched : pattern.matchAgainst t = some found) {x : String} :
    x ∈ NameMap.names found ↔ x ∈ pattern.occurrences := by
  rw [matchAgainst_eq_matchInto] at matched
  rw [(matched_of_matchInto matched).binds]
  simp [NameMap.names, occurrencesArgs]

/-- The substitution that a match yields binds every name once. -/
theorem nodup_names_of_matchAgainst {pattern t : Term} {found : Substitution}
    (matched : pattern.matchAgainst t = some found) : (NameMap.names found).Nodup := by
  rw [matchAgainst_eq_matchInto] at matched
  exact (matched_of_matchInto matched).distinct List.nodup_nil

/-- What a match binds is what a variable of the pattern becomes. -/
theorem value_of_mem_found {pattern t : Term} {found : Substitution}
    (matched : pattern.matchAgainst t = some found) {binding : String × Term}
    (member : binding ∈ found) :
    binding.1 ∈ pattern.occurrences ∧ (var binding.1).subst found = binding.2 :=
  ⟨(mem_names_of_matchAgainst matched).mp (List.mem_map_of_mem member), subst_var_of_value?
    (NameMap.value?_of_mem (nodup_names_of_matchAgainst matched) member)⟩

/-- Bindings agree with a substitution if it gives every bound name the term it is bound to. -/
def AgreesWith (values whole : Substitution) : Prop :=
  ∀ {x : String} {t : Term}, NameMap.value? values x = some t → (var x).subst whole = t

/-- Binding a variable to what a substitution makes of it goes well among bindings that agree with
the substitution, and leaves them so. -/
theorem exists_extend_of_agrees {values whole : Substitution} (agrees : AgreesWith values whole)
    (x : String) :
    ∃ found, values.extend x ((var x).subst whole) = some found ∧ AgreesWith found whole := by
  rw [Substitution.extend]
  cases bound : NameMap.value? values x with
  | some t =>
    obtain rfl := agrees bound
    exact ⟨values, by simp, agrees⟩
  | none =>
    refine ⟨values ++ [(x, (var x).subst whole)], rfl, fun {y t} here => ?_⟩
    rw [NameMap.value?_append, Option.or_eq_some_iff] at here
    rcases here with old | ⟨-, new⟩
    · exact agrees old
    · by_cases same : y = x
      · rw [NameMap.value?, if_pos same, Option.some.injEq] at new
        rw [same, new]
      · rw [NameMap.value?, if_neg same, NameMap.value?] at new
        contradiction

/-- Arguments match what a substitution makes of them, if each of them does. -/
theorem exists_matchArgs_of_agrees {whole : Substitution} {args : List Term}
    (each : ∀ t ∈ args, ∀ {values : Substitution}, AgreesWith values whole →
      ∃ found, t.matchInto (t.subst whole) values = some found ∧ AgreesWith found whole)
    {values : Substitution} (agrees : AgreesWith values whole) :
    ∃ found, matchArgs args (args.map (subst whole)) values = some found ∧
      AgreesWith found whole := by
  induction args generalizing values with
  | nil => exact ⟨values, by rw [List.map_nil, matchArgs], agrees⟩
  | cons t ts ih =>
    rw [List.forall_mem_cons] at each
    obtain ⟨middle, first, agrees'⟩ := each.1 agrees
    obtain ⟨found, others, last⟩ := ih each.2 agrees'
    exact ⟨found, by simp only [List.map_cons, matchArgs, first, others], last⟩

/-- A pattern matches what a substitution makes of it, also from bindings that agree with the
substitution. -/
theorem exists_matchInto_of_agrees (pattern : Term) {values whole : Substitution}
    (agrees : AgreesWith values whole) :
    ∃ found, pattern.matchInto (pattern.subst whole) values = some found ∧
      AgreesWith found whole := by
  induction pattern generalizing values with
  | var name =>
    rw [matchInto]
    exact exists_extend_of_agrees agrees name
  | app head name args ih =>
    obtain ⟨found, matched, last⟩ := exists_matchArgs_of_agrees ih agrees
    exact ⟨found, by rw [subst_app, matchInto, if_pos ⟨rfl, rfl⟩, matched], last⟩
  | letIn body bindings bodyIh valueIh =>
    -- The values are matched before the body, so the body starts from what they have bound.
    have each : ∀ t ∈ bindings.map Prod.snd, ∀ {values : Substitution}, AgreesWith values whole →
        ∃ found, t.matchInto (t.subst whole) values = some found ∧ AgreesWith found whole := by
      intro t member
      obtain ⟨binding, isBinding, rfl⟩ := List.mem_map.mp member
      exact valueIh binding isBinding
    obtain ⟨middle, first, agrees'⟩ := exists_matchArgs_of_agrees each agrees
    obtain ⟨found, second, last⟩ := bodyIh agrees'
    have sameNames : NameMap.names (bindings.map fun b => (b.1, b.2.subst whole)) =
        NameMap.names bindings := by simp [NameMap.names]
    have sameValues : (bindings.map fun b => (b.1, b.2.subst whole)).map Prod.snd =
        (bindings.map Prod.snd).map (subst whole) := by simp
    refine ⟨found, ?_, last⟩
    rw [subst_letIn, matchInto, matchBindings_eq, if_pos sameNames.symm, sameValues, first]
    exact second

/-- A term is an instance of a pattern exactly if some substitution makes it of the pattern. -/
theorem hasInstance_iff {pattern t : Term} :
    pattern.hasInstance t = true ↔ ∃ values, pattern.subst values = t := by
  rw [hasInstance, Option.isSome_iff_exists]
  constructor
  · rintro ⟨found, matched⟩
    exact ⟨found, subst_of_matchAgainst matched⟩
  · rintro ⟨values, rfl⟩
    have none : AgreesWith [] values := fun bound => by simp [NameMap.value?] at bound
    obtain ⟨found, matched, -⟩ := exists_matchInto_of_agrees pattern none
    exact ⟨found, by rw [matchAgainst_eq_matchInto, matched]⟩

/-- Two terms are equal up to a renaming if each can be made of the other. -/
theorem equiv_iff {t u : Term} :
    t.equiv u = true ↔ (∃ values, t.subst values = u) ∧ ∃ values, u.subst values = t := by
  rw [equiv, Bool.and_eq_true, hasInstance_iff, hasInstance_iff]

/-- A term is itself up to a renaming. -/
theorem equiv_self (t : Term) : t.equiv t = true :=
  equiv_iff.mpr ⟨⟨[], subst_nil t⟩, [], subst_nil t⟩

end Term

end Supercompilation
