import Mathlib.Data.List.Basic
import Supercompilation.Proofs.Program

/-!
# What the indexes of a program hold

The indexes of a program are filled rule by rule. Two ways of filling a map from names occur.
In the indexes `f` and `g` an item takes the place of the one that has its name, so that the last
item of a name stays: `NameMap.HoldsLast`. In the index `gs` an item is added to those that have its
name, so that all of them stay: `NameMap.HoldsAll`. In both the names stand in the order of the
first items. One more item keeps either relation to the items so far, whatever its name is.

A rule is reported if its entry in `f` or `g` has been taken before. So every rule either takes a
new entry or is reported.
-/

namespace Supercompilation

namespace NameMap

variable {α : Type}

/-- The names after a name is put: the same in the same order, with a new name at the end. -/
theorem names_put (entries : NameMap α) (x : String) (v : α) :
    names (put entries x v) =
      if x ∈ names entries then names entries else names entries ++ [x] := by
  induction entries with
  | nil => simp [put, names]
  | cons entry rest ih =>
    obtain ⟨name, value⟩ := entry
    by_cases here : x = name
    · simp [put, names, here]
    · have named : x ∈ names ((name, value) :: rest) ↔ x ∈ names rest := by simp [names, here]
      rw [put, if_neg here, if_congr named rfl rfl, names, List.map_cons, ← names, ih]
      split <;> rfl

/-- A map has an entry for each of its names. -/
@[simp]
theorem length_names (entries : NameMap α) : (names entries).length = entries.length :=
  List.length_map _

/-- A map has a value for each of its names, and for no others. -/
theorem binds_iff {entries : NameMap α} {x : String} :
    binds entries x = true ↔ x ∈ names entries := by
  rw [binds, ← not_iff_not, ← value?_eq_none_iff, Option.not_isSome_iff_eq_none]

/-- Putting a name adds an entry if the name is new. -/
theorem length_put (entries : NameMap α) (x : String) (v : α) :
    (put entries x v).length =
      if binds entries x = true then entries.length else entries.length + 1 := by
  rw [← length_names, names_put, ← length_names]
  by_cases old : x ∈ names entries
  · rw [if_pos old, if_pos (binds_iff.mpr old)]
  · rw [if_neg old, if_neg (mt binds_iff.mp old), List.length_append, List.length_singleton]

/-- Putting a name that is reported if it is not new: either the entries or the reports are one
more. -/
theorem length_put_add {β : Type} (entries : NameMap α) (x : String) (v : α) (reports : List β)
    (report : β) :
    (put entries x v).length +
        (if binds entries x = true then reports ++ [report] else reports).length =
      entries.length + reports.length + 1 := by
  rw [length_put]
  by_cases old : binds entries x = true
  · rw [if_pos old, if_pos old, List.length_append, List.length_singleton, Nat.add_assoc]
  · rw [if_neg old, if_neg old, Nat.add_right_comm]

/-- The different names of some items and one more: the last name is one of them, or comes behind
them. -/
theorem eraseDups_concat (xs : List String) (x : String) :
    (xs ++ [x]).eraseDups = if x ∈ xs.eraseDups then xs.eraseDups else xs.eraseDups ++ [x] := by
  rw [List.eraseDups_append]
  by_cases old : x ∈ xs
  · simp [List.removeAll, old]
  · simp [List.removeAll, old, List.eraseDups_cons]

/-- A map from the names of some items to the last item of each name, with the names in the order of
their first items. -/
structure HoldsLast (entries : NameMap α) (name : α → String) (items : List α) : Prop where
  /-- The names stand in the order of their first items. -/
  names : NameMap.names entries = (items.map name).eraseDups
  /-- The value of a name is the last item of this name, if there is one. -/
  value : ∀ x, value? entries x = (items.filter fun item => name item = x).getLast?

/-- A map from the names of some items to all items of each name, with the names in the order of
their first items. -/
structure HoldsAll (entries : NameMap (List α)) (name : α → String) (items : List α) : Prop where
  /-- The names stand in the order of their first items. -/
  names : NameMap.names entries = (items.map name).eraseDups
  /-- The value of a name is the list of its items, in order. -/
  value : ∀ x ∈ NameMap.names entries,
    value? entries x = some (items.filter fun item => name item = x)
  /-- No value is empty. -/
  nonempty : [] ∉ NameMap.values entries
  /-- The values together hold each item as often as it stands among the items. -/
  exact : ((NameMap.values entries).flatten).Perm items

/-- Putting an item under its name makes it the last one of this name. -/
theorem HoldsLast.put {entries : NameMap α} {name : α → String} {items : List α}
    (holds : HoldsLast entries name items) (item : α) :
    HoldsLast (NameMap.put entries (name item) item) name (items ++ [item]) where
  names := by
    rw [names_put, List.map_append, List.map_singleton, eraseDups_concat, holds.names]
  value x := by
    rw [value?_put, List.filter_append, List.getLast?_append, holds.value]
    by_cases own : x = name item
    · simp [own]
    · simp [own, Ne.symm own]

/-- The values after a name is put: the value put and old ones. -/
theorem mem_values_put {entries : NameMap α} {x : String} {u v : α}
    (member : u ∈ values (put entries x v)) : u = v ∨ u ∈ values entries := by
  induction entries with
  | nil => exact .inl (by simpa [put, values] using member)
  | cons entry rest ih =>
    obtain ⟨name, value⟩ := entry
    rw [put] at member
    split at member
    · rcases List.mem_cons.mp member with here | later
      · exact .inl here
      · exact .inr (List.mem_cons_of_mem _ later)
    · rcases List.mem_cons.mp member with here | later
      · exact .inr (here ▸ List.mem_cons_self)
      · exact (ih later).imp_right (List.mem_cons_of_mem _)

/-- Adding an item to the list of a name adds it to the items of all lists. -/
theorem flatten_values_put (entries : NameMap (List α)) (x : String) (item : α) :
    (values (put entries x ((value? entries x).getD [] ++ [item]))).flatten.Perm
      ((values entries).flatten ++ [item]) := by
  induction entries with
  | nil => simp [put, values, value?]
  | cons entry rest ih =>
    obtain ⟨name, listed⟩ := entry
    by_cases here : x = name
    · simp only [put, value?, if_pos here, values, Option.getD_some, List.map_cons,
        List.flatten_cons, List.append_assoc]
      exact List.perm_append_comm.append_left listed
    · simp only [put, value?, if_neg here, values, List.map_cons, List.flatten_cons,
        List.append_assoc]
      exact ih.append_left listed

/-- Adding an item to the list of its name keeps all items of each name. -/
theorem HoldsAll.put {entries : NameMap (List α)} {name : α → String} {items : List α}
    (holds : HoldsAll entries name items) (item : α) :
    HoldsAll
      (NameMap.put entries (name item) ((value? entries (name item)).getD [] ++ [item]))
      name (items ++ [item]) where
  names := by
    rw [names_put, List.map_append, List.map_singleton, eraseDups_concat, holds.names]
  value x named := by
    rw [names_put] at named
    rw [value?_put, List.filter_append]
    by_cases own : x = name item
    · subst own
      by_cases old : name item ∈ NameMap.names entries
      · rw [holds.value _ old]
        simp
      · -- The name is new, so no item has it yet.
        have none : items.filter (fun other => name other = name item) = [] := by
          rw [holds.names, List.mem_eraseDups] at old
          exact List.filter_eq_nil_iff.mpr fun other member =>
            fun same => old (List.mem_map.mpr ⟨other, member, of_decide_eq_true same⟩)
        rw [value?_eq_none_iff.mpr old, none]
        simp
    · have old : x ∈ NameMap.names entries := by
        split at named
        · exact named
        · exact (List.mem_append.mp named).resolve_right fun new => own (List.mem_singleton.mp new)
      rw [if_neg own, holds.value x old]
      simp [Ne.symm own]
  nonempty member := by
    rcases mem_values_put member with new | old
    · simp at new
    · exact holds.nonempty old
  exact := (flatten_values_put entries (name item) item).trans (holds.exact.append_right [item])

end NameMap

namespace Rule

/-- An f-rule. -/
def asF? : Rule → Option FRule
  | f rule => some rule
  | g _ => none

/-- The entry that a rule takes: the one of its function in the index `f`, or the one of its key in
the index `g`. The report about a rule names its entry. -/
def entry : Rule → Duplicate
  | f rule => .f rule.name
  | g rule => .g rule.key

/-- The rules whose entry an earlier rule has taken, in order. -/
def repeated (rules : List Rule) : List Rule :=
  (rules.zipIdx.filter fun (rule, place) =>
    (rules.take place).any fun earlier => earlier.entry = rule.entry).map Prod.fst

/-- Behind some rules, one more rule is repeated if one of them has its entry. -/
theorem repeated_concat (rules : List Rule) (rule : Rule) :
    repeated (rules ++ [rule]) = repeated rules ++
      if ∃ earlier ∈ rules, earlier.entry = rule.entry then [rule] else [] := by
  -- The places among the earlier rules have the same rules before them as without the last rule.
  have before : rules.zipIdx.filter (fun (rule', place) =>
        ((rules ++ [rule]).take place).any fun earlier => earlier.entry = rule'.entry) =
      rules.zipIdx.filter fun (rule', place) =>
        (rules.take place).any fun earlier => earlier.entry = rule'.entry := by
    apply List.filter_congr
    rintro ⟨rule', place⟩ member
    obtain ⟨-, bound, -⟩ := List.mem_zipIdx member
    simp only [List.take_append_of_le_length (show place ≤ rules.length by omega)]
  rw [repeated, List.zipIdx_append, List.filter_append, List.map_append, before, ← repeated]
  by_cases taken : ∃ earlier ∈ rules, earlier.entry = rule.entry
  · simp [taken]
  · simp [taken]

end Rule

namespace Program

/-- The f-rules of a program, in order. -/
def fRules (program : Program) : List FRule := program.rules.filterMap Rule.asF?

/-- An f-rule of a program is one of its rules. -/
theorem mem_fRules {program : Program} {rule : FRule} :
    rule ∈ program.fRules ↔ .f rule ∈ program.rules := by
  rw [fRules, List.mem_filterMap]
  constructor
  · rintro ⟨entry, member, isF⟩
    cases entry with
    | f other => exact Option.some.inj isF ▸ member
    | g other => simp [Rule.asF?] at isF
  · exact fun member => ⟨.f rule, member, rfl⟩

/-- Adding a rule puts it behind the others. -/
theorem rules_add (program : Program) (rule : Rule) :
    (program.add rule).rules = program.rules ++ [rule] := by
  cases rule <;> rfl

/-- Adding a rule puts it behind the other f-rules, if it is one. -/
theorem fRules_add (program : Program) (rule : Rule) :
    (program.add rule).fRules = program.fRules ++ rule.asF?.toList := by
  rw [fRules, rules_add, List.filterMap_append]
  cases rule <;> rfl

/-- Adding a rule puts it behind the other g-rules, if it is one. -/
theorem gRules_add (program : Program) (rule : Rule) :
    (program.add rule).gRules = program.gRules ++ rule.asG?.toList := by
  rw [gRules, rules_add, List.filterMap_append]
  cases rule <;> rfl

/-- The indexes of a program hold its rules, and the reports tell which entries were taken again. -/
structure Indexed (program : Program) : Prop where
  /-- The index `f` holds the last f-rule of each function. -/
  f : NameMap.HoldsLast program.f FRule.name program.fRules
  /-- The index `g` holds the last g-rule of each key. -/
  g : NameMap.HoldsLast program.g GRule.key program.gRules
  /-- The index `gs` holds all g-rules of each function. -/
  gs : NameMap.HoldsAll program.gs GRule.name program.gRules
  /-- Exactly the repeated rules are reported, in order. -/
  duplicates : program.duplicates = (Rule.repeated program.rules).map Rule.entry
  /-- Every rule takes a new entry or is reported. -/
  count : program.rules.length =
    program.f.length + program.g.length + program.duplicates.length

namespace Indexed

variable {program : Program}

/-- A program without rules. -/
theorem empty : Indexed {} :=
  ⟨⟨rfl, fun _ => rfl⟩, ⟨rfl, fun _ => rfl⟩,
    ⟨rfl, fun _ named => absurd named List.not_mem_nil, List.not_mem_nil, .nil⟩, rfl, rfl⟩

/-- A function is found in the index `f` if an earlier rule has taken its entry. -/
theorem binds_f_iff (indexed : program.Indexed) {name : String} :
    program.f.binds name = true ↔ ∃ earlier ∈ program.rules, earlier.entry = .f name := by
  rw [NameMap.binds_iff, indexed.f.names, List.mem_eraseDups, List.mem_map]
  constructor
  · rintro ⟨rule, member, rfl⟩
    exact ⟨.f rule, mem_fRules.mp member, rfl⟩
  · rintro ⟨rule | rule, member, same⟩
    · exact ⟨rule, mem_fRules.mpr member, Duplicate.f.inj same⟩
    · contradiction

/-- A key is found in the index `g` if an earlier rule has taken its entry. -/
theorem binds_g_iff (indexed : program.Indexed) {key : String} :
    program.g.binds key = true ↔ ∃ earlier ∈ program.rules, earlier.entry = .g key := by
  rw [NameMap.binds_iff, indexed.g.names, List.mem_eraseDups, List.mem_map]
  constructor
  · rintro ⟨rule, member, rfl⟩
    exact ⟨.g rule, mem_gRules.mp member, rfl⟩
  · rintro ⟨rule | rule, member, same⟩
    · contradiction
    · exact ⟨rule, mem_gRules.mpr member, Duplicate.g.inj same⟩

/-- A rule is reported if its entry has been taken. -/
theorem duplicates_concat (indexed : program.Indexed) (rule : Rule) {taken : Bool}
    (isTaken : taken = true ↔ ∃ earlier ∈ program.rules, earlier.entry = rule.entry) :
    (if taken = true then program.duplicates ++ [rule.entry] else program.duplicates) =
      (Rule.repeated (program.rules ++ [rule])).map Rule.entry := by
  rw [Rule.repeated_concat, List.map_append, ← indexed.duplicates, ← if_congr isTaken rfl rfl]
  cases taken <;> simp

/-- One more rule keeps the indexes right. -/
theorem add (indexed : program.Indexed) (rule : Rule) : (program.add rule).Indexed := by
  have count := indexed.count
  cases rule with
  | f rule =>
    refine ⟨?_, ?_, ?_, ?_, ?_⟩
    · rw [fRules_add]
      exact indexed.f.put rule
    · rw [gRules_add, Rule.asG?, Option.toList_none, List.append_nil]
      exact indexed.g
    · rw [gRules_add, Rule.asG?, Option.toList_none, List.append_nil]
      exact indexed.gs
    · exact indexed.duplicates_concat (.f rule) indexed.binds_f_iff
    · have grown := program.f.length_put_add rule.name rule program.duplicates (.f rule.name)
      simp only [Program.add, List.length_append, List.length_singleton]
      omega
  | g rule =>
    refine ⟨?_, ?_, ?_, ?_, ?_⟩
    · rw [fRules_add, Rule.asF?, Option.toList_none, List.append_nil]
      exact indexed.f
    · rw [gRules_add]
      exact indexed.g.put rule
    · rw [gRules_add]
      exact indexed.gs.put rule
    · exact indexed.duplicates_concat (.g rule) indexed.binds_g_iff
    · have grown := program.g.length_put_add rule.key rule program.duplicates (.g rule.key)
      simp only [Program.add, List.length_append, List.length_singleton]
      omega

/-- The indexes of a program are right, whatever rules it is made of. -/
theorem ofRules (rules : List Rule) : (ofRules rules).Indexed :=
  List.foldlRecOn rules Program.add empty fun _ indexed rule _ => indexed.add rule

end Indexed

/-- Whatever rules a program is made of, the indexes account for all of them. The index `f` holds
the last rule of each f-function, the index `g` the last rule of each key, and the index `gs` all
rules of each g-function, each in the order of the first rules. The warnings name the entries of
exactly those rules, in order, whose entry an earlier rule has taken, so that every rule either has
an entry to itself in `f` or `g` or takes the place of an earlier one and is warned about. -/
theorem indexes_account (rules : List Rule) :
    (ofRules rules).rules = rules ∧
    (ofRules rules).f.HoldsLast FRule.name (rules.filterMap Rule.asF?) ∧
    (ofRules rules).g.HoldsLast GRule.key (rules.filterMap Rule.asG?) ∧
    (ofRules rules).gs.HoldsAll GRule.name (rules.filterMap Rule.asG?) ∧
    (ofRules rules).warnings =
      (Rule.repeated rules).map (fun rule => ⟨.warning, .program, rule.entry.message⟩) ∧
    rules.length =
      (ofRules rules).f.length + (ofRules rules).g.length + (ofRules rules).warnings.length := by
  have indexed := Indexed.ofRules rules
  have same := rules_ofRules rules
  refine ⟨same, ?_, ?_, ?_, ?_, ?_⟩
  · have holds := indexed.f
    rwa [fRules, same] at holds
  · have holds := indexed.g
    rwa [gRules, same] at holds
  · have holds := indexed.gs
    rwa [gRules, same] at holds
  · rw [warnings, indexed.duplicates, same, List.map_map]
    rfl
  · have count := indexed.count
    rw [same] at count
    rw [warnings, List.length_map]
    exact count

/-- Two functions whose rules have one key: the key has one entry, and each function has its own. -/
example :
    let program := ofRules [.g ⟨"gA", ⟨"B_C", []⟩, [], .var "x"⟩, .f ⟨"fA", [], .var "x"⟩,
      .g ⟨"gA_B", ⟨"C", []⟩, [], .var "y"⟩, .f ⟨"fA", ["x"], .var "x"⟩]
    program.g.names = ["gA_B_C"] ∧ program.gs.names = ["gA", "gA_B"] ∧ program.f.names = ["fA"] ∧
      program.duplicates = [.g "gA_B_C", .f "fA"] := by
  decide

end Program

end Supercompilation
