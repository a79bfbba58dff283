import Supercompilation.NameSupply
import Supercompilation.Program
import Supercompilation.Substitution

/-!
# Driving

One driving step of a term, under a program. A constructor falls into its arguments and a `let`
term into its body and values. A call of an f-function is unfolded. A call of a g-function whose
first argument is a constructor is replaced by its rule. If the first argument is a variable, there
is a branch for every rule of the function, in which the variable is contracted to the pattern of
the rule with fresh fields. Any other first argument is driven itself, inside the call.

Names issued on the way stay issued, also when the step fails.
-/

namespace Supercompilation

/-- A variable and the pattern that it is specialised to. -/
structure Contraction where
  /-- The variable. -/
  var : String
  /-- The pattern. -/
  pattern : Term
  deriving DecidableEq

/-- The text of a contraction. -/
def Contraction.text (contraction : Contraction) : String :=
  contraction.var ++ " = " ++ contraction.pattern.text

/-- The text of a contraction, empty if there is none. -/
def contractionText (contraction : Option Contraction) : String :=
  (contraction.map Contraction.text).getD ""

/-- One result of a driving step: a term, and the contraction under which it arises. -/
structure Branch where
  /-- The term. -/
  term : Term
  /-- The contraction, in a case distinction. -/
  contraction : Option Contraction
  deriving DecidableEq

/-- Why a term cannot be driven. -/
inductive DriveError where
  /-- No rule defines the function of a call. -/
  | unknownFunction (name : String) (call : Term)
  /-- A call has not as many arguments as its rule. -/
  | wrongArity (name : String) (expected : Nat) (call : Term) (given : Nat)
  /-- A call of a g-function without arguments. -/
  | noScrutinee (name : String) (call : Term)
  /-- The first argument of a call has not as many fields as the pattern of its rule. -/
  | wrongFields (pattern : RulePattern) (call : Term) (given : Nat)
  /-- No rule of the function is for the constructor of the first argument. -/
  | noRule (name constructor : String) (call : Term)
  /-- A variable or a pattern. -/
  | undrivable (t : Term)
  deriving DecidableEq

namespace DriveError

/-- The call at fault. -/
def call? : DriveError → Option Term
  | unknownFunction _ call => some call
  | wrongArity _ _ call _ => some call
  | noScrutinee _ call => some call
  | wrongFields _ call _ => some call
  | noRule _ _ call => some call
  | undrivable _ => none

/-- What is wrong, without the call. -/
def problem : DriveError → String
  | unknownFunction name _ => "Unknown function " ++ name
  | wrongArity name expected _ given =>
    name ++ " expects " ++ toString expected ++ " arguments, got " ++ toString given
  | noScrutinee name _ => name ++ " called without a scrutinee"
  | wrongFields pattern _ given =>
    "Pattern " ++ pattern.text ++ " expects " ++ toString pattern.fields.length ++
      " fields, got " ++ toString given
  | noRule name constructor _ =>
    "No rule of " ++ name ++ " matches constructor " ++ constructor
  | undrivable t => "Cannot drive " ++ t.kind.word ++ " " ++ t.text

/-- A complaint about a call, which is shown behind it. -/
def aboutCall (problem : String) (call : Option String) : String :=
  match call with
  | some text => problem ++ " in " ++ text
  | none => problem

/-- What is wrong, in words. -/
def message (e : DriveError) : String := aboutCall e.problem (e.call?.map Term.text)

end DriveError

/-- The result of a driving step and the supply after it. -/
abbrev Driven := Except DriveError (List Branch) × NameSupply

namespace Program

/-- Unfold a call of an f-function. -/
def unfold (program : Program) (name : String) (args : List Term) : Except DriveError Term :=
  match program.f.value? name with
  | none => .error (.unknownFunction name (.fCall name args))
  | some rule =>
    if rule.params.length = args.length then
      .ok (rule.body.subst (.ofPairs (rule.params.zip args)))
    else .error (.wrongArity name rule.params.length (.fCall name args) args.length)

/-- Replace a call of a g-function whose first argument is a constructor with some fields. -/
def applyG (program : Program) (name constructor : String) (fields rest : List Term) :
    Except DriveError Term :=
  let call := Term.gCall name (.ctor constructor fields :: rest)
  match program.gRule? name constructor with
  | none => .error (.noRule name constructor call)
  | some rule =>
    if rule.pattern.fields.length ≠ fields.length then
      .error (.wrongFields rule.pattern call fields.length)
    else if rule.params.length ≠ rest.length then
      .error (.wrongArity name (rule.params.length + 1) call (rest.length + 1))
    else
      .ok (rule.body.subst
        (.ofPairs (rule.pattern.fields.zip fields ++ rule.params.zip rest)))

/-- The branches of a call of a g-function whose first argument is the variable `x`, for some of
its rules. In a branch the whole call is specialised before the rule in force replaces it. -/
def split (program : Program) (name x : String) (rest : List Term) :
    List GRule → NameSupply → Driven
  | [], supply => (.ok [], supply)
  | rule :: rules, supply =>
    let (names, supply) := supply.freshMany rule.pattern.fields.length
    let fields := names.map Term.var
    let value : Substitution := [(x, .ctor rule.pattern.name fields)]
    match program.applyG name rule.pattern.name fields (Term.substArgs value rest) with
    | .error e => (.error e, supply)
    | .ok t =>
      let branch : Branch := ⟨t, some ⟨x, .pattern rule.pattern.name fields⟩⟩
      let (branches, supply) := split program name x rest rules supply
      (branches.map (branch :: ·), supply)

/-- A driving step, with the names to avoid already reserved. -/
def driveTerm (program : Program) : Term → NameSupply → Driven
  | .app .ctor _ args, supply => (.ok (args.map fun t => ⟨t, none⟩), supply)
  | .app .fCall name args, supply =>
    ((program.unfold name args).map fun t => [⟨t, none⟩], supply)
  | .app .gCall name [], supply => (.error (.noScrutinee name (.gCall name [])), supply)
  | .app .gCall name (scrutinee :: rest), supply =>
    match program.gs.value? name with
    | none => (.error (.unknownFunction name (.gCall name (scrutinee :: rest))), supply)
    | some rules =>
      match scrutinee with
      | .app .ctor constructor fields =>
        ((program.applyG name constructor fields rest).map fun t => [⟨t, none⟩], supply)
      | .var x => program.split name x rest rules supply
      | other =>
        let (driven, supply) := program.driveTerm other supply
        (driven.map fun branches => branches.map fun branch =>
          ⟨.gCall name (branch.term :: rest), branch.contraction⟩, supply)
  | .letIn body bindings, supply =>
    (.ok (⟨body, none⟩ :: bindings.map fun binding => ⟨binding.2, none⟩), supply)
  | .app .pattern name args, supply => (.error (.undrivable (.pattern name args)), supply)
  | .var name, supply => (.error (.undrivable (.var name)), supply)

end Program

/-- A program with the supply from which its case distinctions take names. -/
structure Supercompiler where
  /-- The program. -/
  program : Program
  /-- The supply of names. -/
  supply : NameSupply := {}

namespace Supercompiler

/-- The number of rules and the supply. -/
def inspect (sc : Supercompiler) : String :=
  "Supercompiler(" ++ toString sc.program.size ++ " rules, " ++ sc.supply.inspect ++ ")"

/-- A driving step. The variables of the program and of the term are reserved first, so that fresh
names capture none of them. -/
def drive (sc : Supercompiler) (t : Term) :
    Except DriveError (List Branch) × Supercompiler :=
  let supply := (sc.supply.reserve sc.program.vars).reserve t.vars
  let (driven, supply) := sc.program.driveTerm t supply
  (driven, { sc with supply })

/-- The pattern with the name of a term and a fresh variable for each of its arguments. -/
def freshPattern (sc : Supercompiler) (t : Term) : Term × Supercompiler :=
  let arity :=
    match t with
    | .app _ _ args => args.length
    | _ => 0
  let (names, supply) := sc.supply.freshMany arity
  (.pattern (t.name?.getD "") (names.map Term.var), { sc with supply })

end Supercompiler

end Supercompilation
