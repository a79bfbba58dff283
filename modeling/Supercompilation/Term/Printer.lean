import Supercompilation.Term.Basic
import Supercompilation.Json

/-!
# Terms as text

A variable is written as its name, an application as its name with the arguments in parentheses, a
`let` term with its bindings before its body.
-/

namespace Supercompilation

/-- The word for a kind of terms. -/
def Kind.word : Kind → String
  | .var => "Variable"
  | .app .ctor => "Constructor"
  | .app .pattern => "Pattern"
  | .app .fCall => "FCall"
  | .app .gCall => "GCall"
  | .letIn => "Let"

/-- A name with the texts of its arguments. -/
def callText (name : String) (args : List String) : String :=
  name ++ "(" ++ Text.joined ", " args ++ ")"

namespace Term

mutual

/-- The term in the notation of the language. -/
def text : Term → String
  | var name => name
  | app _ name args => callText name (textArgs args)
  | letIn body bindings => "let " ++ Text.joined ", " (textBindings bindings) ++ " in " ++ body.text

/-- The texts of some terms. -/
def textArgs : List Term → List String
  | [] => []
  | t :: ts => t.text :: textArgs ts

/-- The texts of some bindings. -/
def textBindings : List (String × Term) → List String
  | [] => []
  | (name, value) :: rest => (name ++ "=" ++ value.text) :: textBindings rest

end

/-- The kind of a term with its quoted text. -/
def inspect (t : Term) : String := t.kind.word ++ "(" ++ Text.quoted t.text ++ ")"

mutual

/-- The term as a document. -/
def document : Term → Json
  | var name => .record [("kind", .text Kind.var.word), ("name", .text name)]
  | app head name args =>
    .record [("kind", .text (Kind.app head).word), ("name", .text name),
      ("args", .list (documentArgs args))]
  | letIn body bindings =>
    .record [("kind", .text Kind.letIn.word), ("exp", body.document),
      ("bindings", .list (documentBindings bindings))]

/-- The documents of some terms. -/
def documentArgs : List Term → List Json
  | [] => []
  | t :: ts => t.document :: documentArgs ts

/-- The documents of some bindings. -/
def documentBindings : List (String × Term) → List Json
  | [] => []
  | (name, value) :: rest => .list [.text name, value.document] :: documentBindings rest

end

end Term

end Supercompilation
