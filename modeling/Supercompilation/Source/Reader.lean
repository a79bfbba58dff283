import Supercompilation.Source.ParseError
import Supercompilation.Program

/-!
# The grammar

    program  = { rule }
    rule     = fname "(" [ variables ] ")" "=" term ";"
             | gname "(" pattern { "," variable } ")" "=" term ";"
    pattern  = cname "(" [ variables ] ")"
    term     = variable | name "(" [ term { "," term } ] ")"

Names that start with a capital letter are constructors. A small name in front of a parenthesis is
a call, of an f- or g-function by its first letter; any other small name is a variable.

A term is read with a stack of the applications that are still open, so that the recursion is on
the tokens alone. Every complaint points at the first token that does not fit, or at the end.
-/

namespace Supercompilation

/-- A complaint of the grammar: what it asks for, and the tokens from the offending one on. -/
structure Mismatch where
  /-- What is asked for. -/
  expected : Expected
  /-- The tokens from the offending one on; none at the end of the text. -/
  found : List Token
  deriving DecidableEq

namespace Name

/-- The name starts with a capital letter, as constructors do. -/
def isCapital (name : String) : Bool := (name.toList.head?.map Text.isCapital).getD false

/-- The name starts with an f. -/
def isF (name : String) : Bool := name.toList.head? == some 'f'

/-- The name starts with a g. -/
def isG (name : String) : Bool := name.toList.head? == some 'g'

/-- What a name in front of a parenthesis applies. -/
def head? (name : String) : Option Head :=
  if isCapital name then some .ctor
  else if isF name then some .fCall
  else if isG name then some .gCall
  else none

end Name

/-- The tokens start with a mark. -/
def startsWith (mark : Mark) : List Token → Bool
  | token :: _ => token.lexeme = .mark mark
  | [] => false

/-- What is left behind a mark that must come. -/
def expect (mark : Mark) : List Token → Except Mismatch (List Token)
  | [] => .error ⟨.mark mark, []⟩
  | token :: rest =>
    if token.lexeme = .mark mark then .ok rest else .error ⟨.mark mark, token :: rest⟩

/-- An application whose closing parenthesis has not come yet. -/
structure OpenCall where
  /-- What is applied. -/
  head : Head
  /-- Its name. -/
  name : String
  /-- The arguments so far, in reverse order. -/
  reversed : List Term

/-- The application with all its arguments. -/
def OpenCall.close (call : OpenCall) : Term := .app call.head call.name call.reversed.reverse

/-- The application with one more argument. -/
def OpenCall.push (call : OpenCall) (t : Term) : OpenCall :=
  { call with reversed := t :: call.reversed }

/-- What may come next in a term. -/
inductive TermMode where
  /-- A term. -/
  | term
  /-- A term or a closing parenthesis, right behind an opening one. -/
  | first
  /-- A comma or a closing parenthesis, behind an argument. -/
  | next
  deriving DecidableEq, Repr

/-- Read a term inside the open applications, innermost first; the result is the whole term and
the tokens behind it. -/
def readTerm : TermMode → List OpenCall → List Token → Except Mismatch (Term × List Token)
  | .next, _, [] => .error ⟨.mark .closing, []⟩
  | _, _, [] => .error ⟨.expression, []⟩
  | mode, calls, token :: rest =>
    match mode, token.lexeme with
    | .next, .mark .comma => readTerm .term calls rest
    | .next, .mark .closing | .first, .mark .closing =>
      match calls with
      | [] => .error ⟨.expression, token :: rest⟩
      | [call] => .ok (call.close, rest)
      | call :: outer :: calls => readTerm .next (outer.push call.close :: calls) rest
    | .next, _ => .error ⟨.mark .closing, token :: rest⟩
    | _, .mark _ => .error ⟨.expression, token :: rest⟩
    | _, .name name =>
      match rest with
      | [] =>
        if Name.isCapital name then .error ⟨.mark .opening, []⟩
        else if calls.isEmpty then .ok (.var name, [])
        else .error ⟨.mark .closing, []⟩
      | second :: behind =>
        if second.lexeme = .mark .opening then
          match Name.head? name with
          | some head => readTerm .first (⟨head, name, []⟩ :: calls) behind
          | none => .error ⟨.functionName, token :: second :: behind⟩
        else if Name.isCapital name then .error ⟨.mark .opening, second :: behind⟩
        else
          match calls with
          | [] => .ok (.var name, second :: behind)
          | call :: calls => readTerm .next (call.push (.var name) :: calls) (second :: behind)

/-- Read the rest of a list of variables up to its closing parenthesis; the result is the variables
and the tokens behind the parenthesis. -/
def readVariables : TermMode → List Token → Except Mismatch (List String × List Token)
  | .next, [] => .error ⟨.mark .closing, []⟩
  | _, [] => .error ⟨.variableName, []⟩
  | mode, token :: rest =>
    match mode, token.lexeme with
    | .next, .mark .comma => readVariables .term rest
    | .next, .mark .closing | .first, .mark .closing => .ok ([], rest)
    | .next, _ => .error ⟨.mark .closing, token :: rest⟩
    | _, .mark _ => .error ⟨.variableName, token :: rest⟩
    | _, .name name =>
      if Name.isCapital name then .error ⟨.variableName, token :: rest⟩
      else if startsWith .opening rest then .error ⟨.variableNotCall, rest⟩
      else (readVariables .next rest).map fun (names, rest) => (name :: names, rest)

/-- Read a constructor with its fields. -/
def readPattern : List Token → Except Mismatch (RulePattern × List Token)
  | [] => .error ⟨.constructorPattern, []⟩
  | token :: rest =>
    match token.lexeme with
    | .mark _ => .error ⟨.constructorPattern, token :: rest⟩
    | .name name =>
      if Name.isCapital name then do
        let rest ← expect .opening rest
        let (fields, rest) ← readVariables .first rest
        .ok (⟨name, fields⟩, rest)
      else .error ⟨.constructorPattern, token :: rest⟩

/-- Read what stands behind the head of a rule. -/
def readBody (tokens : List Token) : Except Mismatch (Term × List Token) := do
  let rest ← expect .equality tokens
  let (body, rest) ← readTerm .term [] rest
  let rest ← expect .semicolon rest
  .ok (body, rest)

/-- Read a rule. -/
def readRule : List Token → Except Mismatch (Rule × List Token)
  | [] => .error ⟨.rule, []⟩
  | token :: rest =>
    match token.lexeme with
    | .mark _ => .error ⟨.rule, token :: rest⟩
    | .name name =>
      if Name.isF name then do
        let rest ← expect .opening rest
        let (params, rest) ← readVariables .first rest
        let (body, rest) ← readBody rest
        .ok (.f ⟨name, params, body⟩, rest)
      else if Name.isG name then do
        let rest ← expect .opening rest
        let (pattern, rest) ← readPattern rest
        let (params, rest) ← readVariables .next rest
        let (body, rest) ← readBody rest
        .ok (.g ⟨name, pattern, params, body⟩, rest)
      else .error ⟨.rule, token :: rest⟩

/-- Read rules up to the end. A rule takes at least one token, so there are at most as many rules
as tokens. -/
def readRules : Nat → List Token → Except Mismatch (List Rule)
  | _, [] => .ok []
  | 0, token :: rest => .error ⟨.rule, token :: rest⟩
  | count + 1, token :: rest => do
    let (rule, behind) ← readRule (token :: rest)
    let rules ← readRules count behind
    .ok (rule :: rules)

/-- The term that some tokens are. -/
def Term.ofTokens (tokens : List Token) : Except Mismatch Term := do
  let (t, rest) ← readTerm .term [] tokens
  if rest.isEmpty then .ok t else .error ⟨.endOfInput, rest⟩

/-- The rules that some tokens are. -/
def rulesOfTokens (tokens : List Token) : Except Mismatch (List Rule) :=
  readRules tokens.length tokens

/-- The complaint about a stray character of a text. -/
def StrayCharacter.error (stray : StrayCharacter) (text : String) : ParseError :=
  ⟨.unexpectedCharacter stray.char, text, stray.position⟩

/-- The complaint of the grammar about a text. -/
def Mismatch.error (mismatch : Mismatch) (text : String) : ParseError :=
  ⟨.mismatch mismatch.expected (mismatch.found.head?.map Token.lexeme), text,
    (mismatch.found.head?.map Token.position).getD text.toList.length⟩

/-- The lexemes of a text with their positions, or where the text is no sequence of lexemes. -/
def tokenize (text : String) : Except ParseError (List Token) :=
  (tokens text).mapError fun stray => stray.error text

/-- What an entry in the list of the tokens of a text is. -/
inductive TokenKind where
  /-- A name. -/
  | name
  /-- A punctuation mark. -/
  | punctuation
  /-- The end of the text. -/
  | ending
  deriving DecidableEq, Repr

/-- The word for a kind of tokens. -/
def TokenKind.word : TokenKind → String
  | name => "name"
  | punctuation => "punct"
  | ending => "eof"

/-- An entry in the list of the tokens of a text. -/
structure TokenEntry where
  /-- What it is. -/
  kind : TokenKind
  /-- Its characters. -/
  text : String
  /-- The number of characters before it. -/
  position : Nat
  deriving DecidableEq, Repr

/-- The kind of a lexeme. -/
def Lexeme.kind : Lexeme → TokenKind
  | .name _ => .name
  | .mark _ => .punctuation

/-- The token as an entry. -/
def Token.entry (token : Token) : TokenEntry :=
  ⟨token.lexeme.kind, token.lexeme.text, token.position⟩

/-- The list of the tokens of a text, which always ends with the end of the text. -/
def tokenList (text : String) : Except ParseError (List TokenEntry) :=
  (tokenize text).map fun found => found.map Token.entry ++ [⟨.ending, "", text.toList.length⟩]

/-- The term that a text stands for. -/
def Term.parse (text : String) : Except ParseError Term := do
  let found ← tokenize text
  (Term.ofTokens found).mapError fun mismatch => mismatch.error text

/-- The program that a text stands for. -/
def Program.parse (text : String) : Except ParseError Program := do
  let found ← tokenize text
  let rules ← (rulesOfTokens found).mapError fun mismatch => mismatch.error text
  .ok (.ofRules rules)

end Supercompilation
