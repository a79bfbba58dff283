import Supercompilation.NameMap
import Supercompilation.Rule
import Supercompilation.Log

/-!
# Programs

A program is a list of rules with three indexes. Later rules replace earlier ones in the indexes
`f` and `g`, which say what a call becomes; the index `gs` keeps all rules of a g-function in their
order, since a case distinction has a branch for each of them. A replaced rule is reported.
-/

namespace Supercompilation

/-- A rule that takes the place of an earlier one. -/
inductive Duplicate where
  /-- Of an f-rule for the same function. -/
  | f (name : String)
  /-- Of a g-rule with the same key. -/
  | g (key : String)
  deriving DecidableEq, Repr

/-- What is reported about a replaced rule. -/
def Duplicate.message : Duplicate → String
  | .f name => "Duplicate f-rule " ++ name ++ ": later definition wins"
  | .g key => "Duplicate g-rule " ++ key ++ ": later definition wins"

/-- Rules and their indexes. -/
structure Program where
  /-- All rules, in order. -/
  rules : List Rule := []
  /-- The f-rule in force for a function. -/
  f : NameMap FRule := []
  /-- The g-rule in force for a key. -/
  g : NameMap GRule := []
  /-- All g-rules of a function, in order. -/
  gs : NameMap (List GRule) := []
  /-- The replacements, in order. -/
  duplicates : List Duplicate := []

namespace Program

/-- Add a rule at the end. -/
def add (program : Program) (rule : Rule) : Program :=
  match rule with
  | .f r =>
    { program with
      rules := program.rules ++ [rule]
      f := program.f.put r.name r
      duplicates :=
        if program.f.binds r.name then program.duplicates ++ [.f r.name] else program.duplicates }
  | .g r =>
    { program with
      rules := program.rules ++ [rule]
      g := program.g.put r.key r
      gs := program.gs.put r.name ((program.gs.value? r.name).getD [] ++ [r])
      duplicates :=
        if program.g.binds r.key then program.duplicates ++ [.g r.key] else program.duplicates }

/-- The program of a list of rules. -/
def ofRules (rules : List Rule) : Program := rules.foldl add {}

/-- What a list that should hold rules may hold. -/
inductive Entry where
  /-- A rule. -/
  | rule (rule : Rule)
  /-- A term, which is no rule. -/
  | term (t : Term)

/-- The complaint about a term among the rules. -/
def notRuleMessage (t : Term) : String := "Not a rule: " ++ t.inspect

/-- The rules of the entries, or the first term among them. -/
def rulesOf : List Entry → Except Term (List Rule)
  | [] => .ok []
  | .rule rule :: rest => (rulesOf rest).map (rule :: ·)
  | .term t :: _ => .error t

/-- The program of a list of entries, or the first term among them. -/
def ofEntries (entries : List Entry) : Except Term Program := (rulesOf entries).map ofRules

/-- The rules, one to a line. -/
def text (program : Program) : String := Text.joined "\n" (program.rules.map Rule.text)

/-- The number of rules. -/
def size (program : Program) : Nat := program.rules.length

/-- The number of rules in words. -/
def inspect (program : Program) : String := "Program(" ++ toString program.size ++ " rules)"

/-- Whether an f- or g-function is defined. -/
def defines (program : Program) (name : String) : Bool :=
  program.f.binds name || program.gs.binds name

/-- The variables that the rules mention. -/
def vars (program : Program) : List String := program.rules.flatMap Rule.vars

/-- The g-rule in force for a function and a constructor. -/
def gRule? (program : Program) (function constructor : String) : Option GRule :=
  program.g.value? (ruleKey function constructor)

/-- The reports about replaced rules. -/
def warnings (program : Program) : List LogLine :=
  program.duplicates.map fun d => ⟨.warning, .program, d.message⟩

end Program

end Supercompilation
