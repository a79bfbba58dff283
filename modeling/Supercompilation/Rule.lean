import Supercompilation.Term.Printer

/-!
# Rules

An f-rule defines an f-function for all arguments. A g-rule defines a g-function for first
arguments with one constructor, whose fields it names.
-/

namespace Supercompilation

/-- A definition of an f-function. -/
structure FRule where
  /-- The function. -/
  name : String
  /-- The names of its arguments. -/
  params : List String
  /-- What a call becomes. -/
  body : Term
  deriving DecidableEq

/-- The constructor pattern in the head of a g-rule. -/
structure RulePattern where
  /-- The constructor. -/
  name : String
  /-- The names of its fields. -/
  fields : List String
  deriving DecidableEq

/-- A definition of a g-function for one constructor. -/
structure GRule where
  /-- The function. -/
  name : String
  /-- The pattern of its first argument. -/
  pattern : RulePattern
  /-- The names of its other arguments. -/
  params : List String
  /-- What a call becomes. -/
  body : Term
  deriving DecidableEq

/-- A rule. -/
inductive Rule where
  /-- An f-rule. -/
  | f (rule : FRule)
  /-- A g-rule. -/
  | g (rule : GRule)
  deriving DecidableEq

/-- The pattern as a term. -/
def RulePattern.term (pattern : RulePattern) : Term :=
  .pattern pattern.name (pattern.fields.map Term.var)

/-- The text of a pattern. -/
def RulePattern.text (pattern : RulePattern) : String := pattern.term.text

/-- The text of an f-rule. -/
def FRule.text (rule : FRule) : String :=
  callText rule.name rule.params ++ " = " ++ rule.body.text ++ ";"

/-- The text of a g-rule. -/
def GRule.text (rule : GRule) : String :=
  callText rule.name (rule.pattern.text :: rule.params) ++ " = " ++ rule.body.text ++ ";"

/-- The key under which rules of a function and a constructor are found. Two pairs of a function
and a constructor may share a key. -/
def ruleKey (function constructor : String) : String := function ++ "_" ++ constructor

/-- The key of a g-rule. -/
def GRule.key (rule : GRule) : String := ruleKey rule.name rule.pattern.name

namespace Rule

/-- The text of a rule. -/
def text : Rule → String
  | f rule => rule.text
  | g rule => rule.text

/-- The word for the kind of a rule. -/
def kindWord : Rule → String
  | f _ => "FRule"
  | g _ => "GRule"

/-- The kind of a rule with its quoted text. -/
def inspect (rule : Rule) : String := rule.kindWord ++ "(" ++ Text.quoted rule.text ++ ")"

/-- The body of a rule. -/
def body : Rule → Term
  | f rule => rule.body
  | g rule => rule.body

/-- The variables that a rule mentions: those of its head, then those of its body. -/
def vars : Rule → List String
  | f rule => rule.params ++ rule.body.vars
  | g rule => rule.pattern.fields ++ rule.params ++ rule.body.vars

end Rule

end Supercompilation
