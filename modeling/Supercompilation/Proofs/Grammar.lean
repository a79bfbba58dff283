import Supercompilation.Proofs.Reader
import Supercompilation.Proofs.Token

/-!
# The grammar accepts exactly the written forms

Every term and every rule has a sequence of lexemes, `Term.lexemes` and `Rule.lexemes`. Reading
accepts exactly these sequences for terms and rules whose names are right for their kind, and it
depends on nothing but the lexemes; blanks, comments and positions play no part. A complaint points
at a place among the tokens or at their end.

The tokens in front of some others are described by `Begins`. For every reader there is a lemma that
it takes tokens that begin with the lexemes of what it returns, and one that it returns everything
whose lexemes come next. A term is read with a stack of open applications; `around` is what has been
read of them, so that the lexemes of the whole term are known at every token.
-/

namespace Supercompilation

namespace Name

/-- A name of a variable: it starts with a small ASCII letter. -/
def isVariable (name : String) : Bool := startsIn Text.isSmall name

end Name

/-- A name that may stand in front of the parentheses of an application. Patterns are no terms of
their own. -/
def Head.admits : Head → String → Bool
  | .ctor, name => Name.startsIn Text.isCapital name
  | .fCall, name => Name.startsIn (· == 'f') name
  | .gCall, name => Name.startsIn (· == 'g') name
  | .pattern, _ => false

namespace Term

mutual

/-- A term of variables, constructors and calls whose names are right for their kind. -/
def wellNamed : Term → Bool
  | var name => Name.isVariable name
  | app head name args => head.admits name && wellNamedArgs args
  | letIn _ _ => false

/-- Terms whose names are right for their kind. -/
def wellNamedArgs : List Term → Bool
  | [] => true
  | t :: ts => t.wellNamed && wellNamedArgs ts

end

/-- Arguments are well named if each of them is. -/
theorem wellNamedArgs_iff {args : List Term} :
    wellNamedArgs args = true ↔ ∀ t ∈ args, t.wellNamed = true := by
  induction args with
  | nil => simp [wellNamedArgs]
  | cons t ts ih => simp [wellNamedArgs, ih]

/-- An application is well named if its name is right for it and its arguments are well named. -/
@[simp]
theorem wellNamed_app {head : Head} {name : String} {args : List Term} :
    (app head name args).wellNamed = true ↔
      head.admits name = true ∧ ∀ t ∈ args, t.wellNamed = true := by
  rw [wellNamed, Bool.and_eq_true, wellNamedArgs_iff]

end Term

/-- An f-rule whose names are right for their kind. -/
def FRule.wellNamed (rule : FRule) : Bool :=
  Name.startsIn (· == 'f') rule.name && rule.params.all Name.isVariable && rule.body.wellNamed

/-- A pattern whose names are right for their kind. -/
def RulePattern.wellNamed (pattern : RulePattern) : Bool :=
  Name.startsIn Text.isCapital pattern.name && pattern.fields.all Name.isVariable

/-- A g-rule whose names are right for their kind. -/
def GRule.wellNamed (rule : GRule) : Bool :=
  Name.startsIn (· == 'g') rule.name && rule.pattern.wellNamed &&
    rule.params.all Name.isVariable && rule.body.wellNamed

/-- A rule whose names are right for their kind. -/
def Rule.wellNamed : Rule → Bool
  | f rule => rule.wellNamed
  | g rule => rule.wellNamed

/-- The lexemes of items behind a first one, each with a comma before it. -/
def further (items : List (List Lexeme)) : List Lexeme := items.flatMap (.mark .comma :: ·)

/-- The lexemes of some items, with a comma between neighbours. -/
def listed : List (List Lexeme) → List Lexeme
  | [] => []
  | item :: items => item ++ further items

/-- The lexemes of a name with its arguments in parentheses. -/
def callLexemes (name : String) (args : List (List Lexeme)) : List Lexeme :=
  .name name :: .mark .opening :: (listed args ++ [.mark .closing])

/-- The lexemes of some variables, one by one. -/
def variableLexemes (names : List String) : List (List Lexeme) := names.map fun x => [.name x]

namespace Term

mutual

/-- The lexemes of a term. There is no notation for `let` terms. -/
def lexemes : Term → List Lexeme
  | var name => [.name name]
  | app _ name args => callLexemes name (lexemesArgs args)
  | letIn _ _ => []

/-- The lexemes of some terms, one by one. -/
def lexemesArgs : List Term → List (List Lexeme)
  | [] => []
  | t :: ts => t.lexemes :: lexemesArgs ts

end

/-- The lexemes of arguments are those of each of them. -/
theorem lexemesArgs_eq_map (args : List Term) : lexemesArgs args = args.map lexemes := by
  induction args with
  | nil => rfl
  | cons t ts ih => rw [lexemesArgs, ih, List.map_cons]

@[simp]
theorem lexemes_var (name : String) : (var name).lexemes = [.name name] := by
  rw [lexemes]

@[simp]
theorem lexemes_app (head : Head) (name : String) (args : List Term) :
    (app head name args).lexemes = callLexemes name (args.map lexemes) := by
  rw [lexemes, lexemesArgs_eq_map]

end Term

/-- The lexemes of what stands behind the head of a rule. -/
def bodyLexemes (body : Term) : List Lexeme :=
  .mark .equality :: (body.lexemes ++ [.mark .semicolon])

/-- The lexemes of a pattern. -/
def RulePattern.lexemes (pattern : RulePattern) : List Lexeme :=
  callLexemes pattern.name (variableLexemes pattern.fields)

/-- The lexemes of a rule. -/
def Rule.lexemes : Rule → List Lexeme
  | f rule => callLexemes rule.name (variableLexemes rule.params) ++ bodyLexemes rule.body
  | g rule =>
    callLexemes rule.name (rule.pattern.lexemes :: variableLexemes rule.params) ++
      bodyLexemes rule.body

/-- What stands for some variables up to their closing parenthesis, by what may come next. -/
def variablesUpTo : TermMode → List String → List Lexeme
  | .next, names => further (variableLexemes names) ++ [.mark .closing]
  | _, names => listed (variableLexemes names) ++ [.mark .closing]

/-- The lexemes of an f-rule, part by part. -/
theorem Rule.lexemes_f (rule : FRule) :
    (f rule).lexemes = .name rule.name :: ([.mark .opening] ++
      (variablesUpTo .first rule.params ++ bodyLexemes rule.body)) := rfl

/-- The lexemes of a g-rule, part by part. -/
theorem Rule.lexemes_g (rule : GRule) :
    (g rule).lexemes = .name rule.name :: ([.mark .opening] ++ (rule.pattern.lexemes ++
      (variablesUpTo .next rule.params ++ bodyLexemes rule.body))) := by
  rw [lexemes, callLexemes, listed, variablesUpTo]
  simp

/-- The tokens begin with some lexemes and go on with the tokens `rest`. -/
def Begins (lexemes : List Lexeme) (tokens rest : List Token) : Prop :=
  ∃ taken, tokens = taken ++ rest ∧ taken.map Token.lexeme = lexemes

namespace Begins

variable {lexemes others : List Lexeme} {tokens rest : List Token}

/-- Tokens begin with no lexemes and go on with themselves. -/
theorem nil_iff : Begins [] tokens rest ↔ tokens = rest := by
  simp [Begins]

/-- Tokens begin with a lexeme and others if the first token has it and the rest begins with the
others. -/
theorem cons_iff {lexeme : Lexeme} :
    Begins (lexeme :: lexemes) tokens rest ↔
      ∃ token behind, tokens = token :: behind ∧ token.lexeme = lexeme ∧
        Begins lexemes behind rest := by
  constructor
  · rintro ⟨taken, rfl, spelled⟩
    obtain ⟨token, others, rfl, rfl, same⟩ := List.map_eq_cons_iff.mp spelled
    exact ⟨token, others ++ rest, rfl, rfl, others, rfl, same⟩
  · rintro ⟨token, behind, rfl, rfl, taken, rfl, spelled⟩
    exact ⟨token :: taken, rfl, by rw [List.map_cons, spelled]⟩

/-- A token and others begin with a lexeme and others if they do so one by one. -/
theorem cons_cons_iff {lexeme : Lexeme} {token : Token} :
    Begins (lexeme :: lexemes) (token :: tokens) rest ↔
      token.lexeme = lexeme ∧ Begins lexemes tokens rest := by
  rw [cons_iff]
  constructor
  · rintro ⟨_, _, same, spelled, begins⟩
    obtain ⟨rfl, rfl⟩ := List.cons.inj same
    exact ⟨spelled, begins⟩
  · rintro ⟨spelled, begins⟩
    exact ⟨token, tokens, rfl, spelled, begins⟩

/-- Tokens begin with some lexemes and then others if they do so one after the other. -/
theorem append_iff :
    Begins (lexemes ++ others) tokens rest ↔
      ∃ middle, Begins lexemes tokens middle ∧ Begins others middle rest := by
  constructor
  · rintro ⟨taken, rfl, spelled⟩
    obtain ⟨first, second, rfl, rfl, rfl⟩ := List.map_eq_append_iff.mp spelled
    exact ⟨second ++ rest, ⟨first, by simp, rfl⟩, second, rfl, rfl⟩
  · rintro ⟨middle, ⟨first, rfl, rfl⟩, second, rfl, rfl⟩
    exact ⟨first ++ second, by simp, by simp⟩

/-- Tokens begin with one lexeme if the first token has it. -/
theorem single_iff {lexeme : Lexeme} :
    Begins [lexeme] tokens rest ↔ ∃ token, tokens = token :: rest ∧ token.lexeme = lexeme := by
  simp only [cons_iff, nil_iff]
  constructor
  · rintro ⟨token, behind, rfl, isLexeme, rfl⟩
    exact ⟨token, rfl, isLexeme⟩
  · rintro ⟨token, rfl, isLexeme⟩
    exact ⟨token, rest, rfl, isLexeme, rfl⟩

/-- Tokens that begin with another lexeme do not start with an opening parenthesis. -/
theorem apart {lexeme : Lexeme} (begins : Begins (lexeme :: lexemes) tokens rest)
    (other : lexeme ≠ .mark .opening) : startsWith .opening tokens = false := by
  obtain ⟨token, behind, rfl, rfl, -⟩ := cons_iff.mp begins
  simpa [startsWith] using other

/-- Further items and a closing parenthesis do not start with an opening one. -/
theorem apart_further {items : List (List Lexeme)}
    (begins : Begins (further items ++ [.mark .closing]) tokens rest) :
    startsWith .opening tokens = false := by
  cases items with
  | nil => exact begins.apart (by simp)
  | cons item items => exact begins.apart (by simp)

/-- The rest of the lexemes of a text may stand in a text. -/
theorem lawful (begins : Begins lexemes tokens rest)
    (lawful : ∀ token ∈ tokens, token.lexeme.lawful = true) :
    ∀ token ∈ rest, token.lexeme.lawful = true := by
  obtain ⟨taken, rfl, -⟩ := begins
  exact fun token member => lawful token (List.mem_append_right taken member)

end Begins

/-- A mark that must come is taken exactly if it is there. -/
theorem expect_eq_ok {mark : Mark} {tokens rest : List Token} :
    expect mark tokens = .ok rest ↔ Begins [.mark mark] tokens rest := by
  rw [Begins.single_iff]
  cases tokens with
  | nil => simp [expect]
  | cons token behind =>
    rw [expect]
    split
    · rename_i isMark
      rw [Except.ok.injEq]
      constructor
      · rintro rfl
        exact ⟨token, rfl, isMark⟩
      · rintro ⟨_, same, -⟩
        exact (List.cons.inj same).2
    · rename_i other
      simp only [reduceCtorEq, false_iff]
      rintro ⟨_, same, isMark⟩
      rw [(List.cons.inj same).1] at other
      contradiction

/-! ## Names and their kinds -/

namespace Name

variable {name : String}

/-- A name starts in every class that contains the one in which it starts. -/
theorem startsIn_mono {narrow wide : Char → Bool} (contained : ∀ c, narrow c = true → wide c = true)
    (starts : startsIn narrow name = true) : startsIn wide name = true := by
  obtain ⟨c, rest, characters, isInitial, isWord⟩ := startsIn_iff.mp starts
  exact startsIn_iff.mpr ⟨c, rest, characters, contained c isInitial, isWord⟩

/-- A capital letter is none of the small ones. -/
theorem not_isCapital_of_isSmall {c : Char} (small : Text.isSmall c = true) :
    Text.isCapital c = false := by
  rw [← Bool.not_eq_true]
  intro capital
  simp only [Text.isSmall, Text.isCapital, Bool.and_eq_true, decide_eq_true_eq, Char.le_def,
    UInt32.le_iff_toNat_le] at small capital
  have bounds := Nat.le_trans small.1 capital.2
  simp at bounds

/-- The first character of a name decides whether it is capital. -/
theorem isCapital_of_startsIn {initials : Char → Bool} {capital : Bool}
    (decided : ∀ c, initials c = true → Text.isCapital c = capital)
    (starts : startsIn initials name = true) : isCapital name = capital := by
  obtain ⟨c, rest, characters, isInitial, -⟩ := startsIn_iff.mp starts
  simp [isCapital, characters, decided c isInitial]

/-- A variable is not capital. -/
theorem not_isCapital_of_isVariable (small : isVariable name = true) : isCapital name = false :=
  isCapital_of_startsIn (fun _ => not_isCapital_of_isSmall) small

/-- A name in a text that is not capital may be the name of a variable. -/
theorem isVariable_of_lawful (lawful : startsIn Text.isInitial name = true)
    (small : isCapital name = false) : isVariable name = true := by
  obtain ⟨c, rest, characters, isInitial, isWord⟩ := startsIn_iff.mp lawful
  simp only [isCapital, characters, List.head?_cons, Option.map_some, Option.getD_some] at small
  refine startsIn_iff.mpr ⟨c, rest, characters, ?_, isWord⟩
  simpa [Text.isInitial, small] using isInitial

/-- Of a name in a text, the first character alone tells in which classes it starts. -/
theorem startsIn_of_lawful (lawful : startsIn Text.isInitial name = true) :
    (isCapital name = true ↔ startsIn Text.isCapital name = true) ∧
    (isF name = true ↔ startsIn (· == 'f') name = true) ∧
    (isG name = true ↔ startsIn (· == 'g') name = true) := by
  obtain ⟨c, rest, characters, -, isWord⟩ := startsIn_iff.mp lawful
  have word : rest.all Text.isWord = true := List.all_eq_true.mpr isWord
  simp [isCapital, isF, isG, startsIn, characters, word]

/-- A name that starts with a g does not start with an f. -/
theorem not_isF_of_isG (g : isG name = true) : isF name = false := by
  rw [isG, beq_iff_eq] at g
  rw [isF, g]
  rfl

/-- A name in a text is read as applying a head exactly if the head admits it. -/
theorem head?_eq_some_iff {head : Head} (lawful : startsIn Text.isInitial name = true) :
    head? name = some head ↔ head.admits name = true := by
  obtain ⟨c, rest, characters, -, isWord⟩ := startsIn_iff.mp lawful
  have word : rest.all Text.isWord = true := List.all_eq_true.mpr isWord
  have noCapital : c = 'f' ∨ c = 'g' → Text.isCapital c = false := by
    rintro (rfl | rfl) <;> rfl
  cases head with
  | _ => simp [head?, Head.admits, startsIn, isCapital, isF, isG, characters, word]; grind

/-- A name that a head admits may stand in a text. -/
theorem lawful_of_admits {head : Head} (admits : head.admits name = true) :
    startsIn Text.isInitial name = true := by
  cases head with
  | ctor => exact startsIn_mono (fun c capital => by simp [Text.isInitial, capital]) admits
  | fCall => exact startsIn_mono (fun c isF => by rw [beq_iff_eq.mp isF]; rfl) admits
  | gCall => exact startsIn_mono (fun c isG => by rw [beq_iff_eq.mp isG]; rfl) admits
  | pattern => contradiction

/-- The name of a variable may stand in a text. -/
theorem lawful_of_isVariable (small : isVariable name = true) :
    startsIn Text.isInitial name = true :=
  startsIn_mono (fun c isSmall => by simp [Text.isInitial, isSmall]) small

end Name

/-- A name is admitted by one head only. -/
theorem Head.eq_of_admits {head other : Head} {name : String} (admits : head.admits name = true)
    (admits' : other.admits name = true) : head = other := by
  have known := (Name.head?_eq_some_iff (Name.lawful_of_admits admits)).mpr admits
  have known' := (Name.head?_eq_some_iff (Name.lawful_of_admits admits)).mpr admits'
  exact Option.some.inj (known.symm.trans known')

/-! ## Terms -/

/-- Go on inside the open applications, innermost first, behind a term that has been read. -/
def resume : List OpenCall → Term → List Token → Except Mismatch (Term × List Token)
  | [], t, behind => .ok (t, behind)
  | call :: calls, t, behind => readTerm .next (call.push t :: calls) behind

section Equations

variable {mode : TermMode} {calls : List OpenCall} {token second : Token} {behind : List Token}
  {name : String}

/-- A small name without a parenthesis behind it is read as a variable. -/
theorem readTerm_variable (isTerm : mode ≠ .next) (named : token.lexeme = .name name)
    (small : Name.isCapital name = false) (apart : startsWith .opening behind = false) :
    readTerm mode calls (token :: behind) = resume calls (.var name) behind := by
  cases mode with
  | next => contradiction
  | term | first =>
    cases behind with
    | nil => cases calls <;> simp [readTerm, named, small, resume]
    | cons second behind =>
      have noOpening : second.lexeme ≠ .mark .opening := by simpa [startsWith] using apart
      cases calls <;> simp [readTerm, named, small, resume, noOpening]

/-- A name with an opening parenthesis behind it opens an application. -/
theorem readTerm_opening (isTerm : mode ≠ .next) (named : token.lexeme = .name name) {head : Head}
    (applies : Name.head? name = some head) (opens : second.lexeme = .mark .opening) :
    readTerm mode calls (token :: second :: behind) =
      readTerm .first (⟨head, name, []⟩ :: calls) behind := by
  cases mode with
  | next => contradiction
  | term | first => cases calls <;> simp [readTerm, named, applies, opens]

/-- A closing parenthesis closes the innermost application. -/
theorem readTerm_closing (mayClose : mode ≠ .term) (call : OpenCall)
    (closes : token.lexeme = .mark .closing) :
    readTerm mode (call :: calls) (token :: behind) = resume calls call.close behind := by
  cases mode with
  | term => contradiction
  | first | next => cases calls <;> simp [readTerm, closes, resume]

/-- A comma announces another argument. -/
theorem readTerm_comma (separates : token.lexeme = .mark .comma) :
    readTerm .next calls (token :: behind) = readTerm .term calls behind := by
  simp [readTerm, separates]

end Equations

/-- An application with more arguments, in their order. -/
def OpenCall.pushAll (call : OpenCall) (args : List Term) : OpenCall := args.foldl push call

/-- The arguments come behind those that are there. -/
theorem OpenCall.close_pushAll (call : OpenCall) (args : List Term) :
    (call.pushAll args).close = .app call.head call.name (call.reversed.reverse ++ args) := by
  induction args generalizing call with
  | nil => simp [pushAll, close]
  | cons t ts ih =>
    rw [pushAll, List.foldl_cons, ← pushAll, ih]
    simp [push]

/-- Reading the lexemes of a term reads the term and goes on behind it, whatever applications are
open around it. -/
def Readable (t : Term) : Prop :=
  ∀ {mode : TermMode} {calls : List OpenCall} {tokens behind : List Token}, mode ≠ .next →
    Begins t.lexemes tokens behind → startsWith .opening behind = false →
      readTerm mode calls tokens = resume calls t behind

/-- Behind an argument, further arguments and a closing parenthesis complete the application. -/
theorem readTerm_further {args : List Term} (each : ∀ t ∈ args, Readable t) (call : OpenCall)
    (calls : List OpenCall) {tokens behind : List Token}
    (begins : Begins (further (args.map Term.lexemes) ++ [.mark .closing]) tokens behind) :
    readTerm .next (call :: calls) tokens = resume calls (call.pushAll args).close behind := by
  induction args generalizing call tokens with
  | nil =>
    obtain ⟨token, rfl, closes⟩ := Begins.single_iff.mp begins
    exact readTerm_closing (by simp) call closes
  | cons t ts ih =>
    rw [List.forall_mem_cons] at each
    rw [List.map_cons, further, List.flatMap_cons, List.cons_append, List.cons_append,
      List.append_assoc] at begins
    obtain ⟨token, argument, rfl, separates, begins⟩ := Begins.cons_iff.mp begins
    obtain ⟨middle, first, others⟩ := Begins.append_iff.mp begins
    rw [readTerm_comma separates, each.1 (by simp) first others.apart_further]
    exact ih each.2 (call.push t) others

/-- Every well-named term is read from its lexemes. -/
theorem readable_of_wellNamed {t : Term} (named : t.wellNamed = true) : Readable t := by
  induction t with
  | letIn body bindings => simp [Term.wellNamed] at named
  | var name =>
    intro mode calls tokens behind isTerm begins apart
    rw [Term.lexemes_var, Begins.single_iff] at begins
    obtain ⟨token, rfl, spelled⟩ := begins
    rw [Term.wellNamed] at named
    exact readTerm_variable isTerm spelled (Name.not_isCapital_of_isVariable named) apart
  | app head name args ih =>
    intro mode calls tokens behind isTerm begins apart
    obtain ⟨admits, namedArgs⟩ := Term.wellNamed_app.mp named
    have applies := (Name.head?_eq_some_iff (Name.lawful_of_admits admits)).mpr admits
    rw [Term.lexemes_app, callLexemes] at begins
    obtain ⟨token, tokens, rfl, spelled, begins⟩ := Begins.cons_iff.mp begins
    obtain ⟨second, tokens, rfl, opens, begins⟩ := Begins.cons_iff.mp begins
    rw [readTerm_opening isTerm spelled applies opens]
    cases args with
    | nil =>
      obtain ⟨last, rfl, closes⟩ := Begins.single_iff.mp begins
      exact readTerm_closing (by simp) _ closes
    | cons t ts =>
      have each : ∀ t' ∈ t :: ts, Readable t' := fun t' member => ih t' member (namedArgs t' member)
      rw [List.forall_mem_cons] at each
      rw [List.map_cons, listed, List.append_assoc] at begins
      obtain ⟨middle, first, others⟩ := Begins.append_iff.mp begins
      rw [each.1 (by simp) first others.apart_further, resume,
        readTerm_further each.2 _ calls others, OpenCall.close_pushAll]
      rfl

/-- Commas before items are commas behind them, moved by one item. -/
theorem further_append (items : List (List Lexeme)) (last : List Lexeme) :
    further items ++ .mark .comma :: last =
      .mark .comma :: (items.flatMap (· ++ [.mark .comma]) ++ last) := by
  induction items with
  | nil => rfl
  | cons item items ih =>
    rw [further, List.flatMap_cons, ← further, List.append_assoc, ih]
    simp

/-- The last item has a comma before it if there are others. -/
theorem listed_concat (items : List (List Lexeme)) (last : List Lexeme) :
    listed (items ++ [last]) = items.flatMap (· ++ [.mark .comma]) ++ last := by
  cases items with
  | nil => simp [listed, further]
  | cons item items =>
    rw [List.cons_append, listed, further, List.flatMap_append, ← further]
    simp [further_append]

namespace OpenCall

/-- An open application whose names are right for their kind. -/
def WellNamed (call : OpenCall) : Prop :=
  call.head.admits call.name = true ∧ ∀ t ∈ call.reversed, t.wellNamed = true

/-- What has been read of an application, up to its last argument. -/
def soFar (call : OpenCall) : List Lexeme :=
  .name call.name :: .mark .opening :: listed (call.reversed.reverse.map Term.lexemes)

/-- What has been read of an application when another argument is to come. -/
def waiting (call : OpenCall) : List Lexeme :=
  .name call.name :: .mark .opening ::
    call.reversed.reverse.flatMap fun t => t.lexemes ++ [.mark .comma]

variable {call : OpenCall}

/-- A closed application has been read up to its closing parenthesis. -/
theorem lexemes_close (call : OpenCall) : call.close.lexemes = call.soFar ++ [.mark .closing] := by
  rw [close, Term.lexemes_app, callLexemes, soFar, List.cons_append, List.cons_append]

/-- Another argument has been read where one was to come. -/
theorem soFar_push (call : OpenCall) (t : Term) :
    (call.push t).soFar = call.waiting ++ t.lexemes := by
  rw [soFar, push, waiting, List.reverse_cons, List.map_append, List.map_singleton, listed_concat,
    List.flatMap_map]
  rfl

/-- Behind an argument, another one is to come after a comma. -/
theorem waiting_of_ne_nil (some : call.reversed ≠ []) :
    call.waiting = call.soFar ++ [.mark .comma] := by
  obtain ⟨t, others, reversed⟩ := List.exists_cons_of_ne_nil some
  have last : call = push { call with reversed := others } t := by
    rw [push, ← reversed]
  rw [last, soFar_push]
  simp [waiting, push]

/-- Nothing but the name and the parenthesis has been read of an application without arguments. -/
theorem waiting_of_nil (none : call.reversed = []) : call.waiting = call.soFar := by
  simp [waiting, soFar, none, listed]

/-- Closing a well-named application yields a well-named term. -/
theorem WellNamed.close (named : call.WellNamed) : call.close.wellNamed = true :=
  Term.wellNamed_app.mpr ⟨named.1, fun t member => named.2 t (List.mem_reverse.mp member)⟩

/-- A well-named application stays so with one more well-named argument. -/
theorem WellNamed.push (named : call.WellNamed) {t : Term} (namedArg : t.wellNamed = true) :
    (call.push t).WellNamed :=
  ⟨named.1, List.forall_mem_cons.mpr ⟨namedArg, named.2⟩⟩

end OpenCall

/-- What has been read of the open applications, innermost first. -/
def around : TermMode → List OpenCall → List Lexeme
  | .next, call :: calls => calls.reverse.flatMap OpenCall.waiting ++ call.soFar
  | _, calls => calls.reverse.flatMap OpenCall.waiting

/-- The open applications that may be there in a mode: right behind an opening parenthesis the
innermost one has no arguments, and behind an argument it has some. -/
def Fits : TermMode → List OpenCall → Prop
  | .term, _ => True
  | .first, calls => ∃ call ∈ calls.head?, call.reversed = []
  | .next, calls => ∃ call ∈ calls.head?, call.reversed ≠ []

/-- What has been read when an argument may come. -/
theorem around_of_ne_next {mode : TermMode} (isTerm : mode ≠ .next) (calls : List OpenCall) :
    around mode calls = calls.reverse.flatMap OpenCall.waiting := by
  cases mode with
  | next => contradiction
  | term | first => rfl

/-- What has been read behind an argument of the innermost application. -/
theorem around_push (call : OpenCall) (calls : List OpenCall) (t : Term) :
    around .next (call.push t :: calls) =
      (call :: calls).reverse.flatMap OpenCall.waiting ++ t.lexemes := by
  rw [around, OpenCall.soFar_push, List.reverse_cons, List.flatMap_append, List.flatMap_singleton,
    List.append_assoc]

/-- A closing parenthesis completes the innermost application. -/
theorem around_closing {mode : TermMode} (mayClose : mode ≠ .term) {call : OpenCall}
    {calls : List OpenCall} (fits : Fits mode (call :: calls)) :
    around mode (call :: calls) ++ [.mark .closing] =
      calls.reverse.flatMap OpenCall.waiting ++ call.close.lexemes := by
  rw [OpenCall.lexemes_close, ← List.append_assoc]
  cases mode with
  | term => contradiction
  | next => rfl
  | first =>
    obtain ⟨inner, same, none⟩ := fits
    obtain rfl := Option.some.inj same
    rw [around_of_ne_next (by simp), List.reverse_cons, List.flatMap_append,
      List.flatMap_singleton, OpenCall.waiting_of_nil none]

/-- A comma behind an argument lets another one come. -/
theorem around_comma {calls : List OpenCall} (fits : Fits .next calls) :
    around .next calls ++ [.mark .comma] = around .term calls := by
  obtain ⟨call, same, some⟩ := fits
  obtain ⟨outer, rfl⟩ := List.head?_eq_some_iff.mp same
  rw [around, around_of_ne_next (by simp), List.reverse_cons, List.flatMap_append,
    List.flatMap_singleton, OpenCall.waiting_of_ne_nil some, List.append_assoc]

/-- The lexemes `target` have been read up to the tokens, and the tokens complete them and go on
with `rest`. -/
def Completes (before : List Lexeme) (tokens rest : List Token) (target : List Lexeme) : Prop :=
  ∃ lexemes, Begins lexemes tokens rest ∧ before ++ lexemes = target

/-- One more token is read. -/
theorem Completes.cons {before after target : List Lexeme} {token : Token}
    {behind rest : List Token}
    (completes : Completes after behind rest target) (step : before ++ [token.lexeme] = after) :
    Completes before (token :: behind) rest target := by
  obtain ⟨lexemes, begins, rfl⟩ := completes
  refine ⟨token.lexeme :: lexemes, Begins.cons_iff.mpr ⟨token, behind, rfl, rfl, begins⟩, ?_⟩
  rw [← step, List.append_assoc, List.singleton_append]

/-- Nothing is left to be read. -/
theorem Completes.refl (target : List Lexeme) (rest : List Token) :
    Completes target rest rest target :=
  ⟨[], Begins.nil_iff.mpr rfl, List.append_nil target⟩

section Completes

variable {mode : TermMode} {token : Token} {behind rest : List Token} {call outer : OpenCall}
  {calls : List OpenCall} {target : List Lexeme}

/-- The closing parenthesis of the outermost application completes the whole term. -/
theorem Completes.close (mayClose : mode ≠ .term) (fits : Fits mode [call])
    (closes : token.lexeme = .mark .closing) :
    Completes (around mode [call]) (token :: behind) behind call.close.lexemes := by
  refine (Completes.refl _ _).cons ?_
  rw [closes, around_closing mayClose fits]
  rfl

/-- The closing parenthesis of an inner application makes it an argument of the one around it. -/
theorem Completes.close_inner (mayClose : mode ≠ .term) (fits : Fits mode (call :: outer :: calls))
    (closes : token.lexeme = .mark .closing)
    (completes : Completes (around .next (outer.push call.close :: calls)) behind rest target) :
    Completes (around mode (call :: outer :: calls)) (token :: behind) rest target := by
  refine completes.cons ?_
  rw [closes, around_closing mayClose fits, around_push]

/-- A name and an opening parenthesis open an application. -/
theorem Completes.open {second : Token} {head : Head} {name : String} (isTerm : mode ≠ .next)
    (spelled : token.lexeme = .name name) (opens : second.lexeme = .mark .opening)
    (completes : Completes (around .first (⟨head, name, []⟩ :: calls)) behind rest target) :
    Completes (around mode calls) (token :: second :: behind) rest target := by
  have inner : Completes (around mode calls ++ [token.lexeme]) (second :: behind) rest target := by
    refine completes.cons ?_
    rw [spelled, opens, around_of_ne_next isTerm, around_of_ne_next (by simp), List.reverse_cons,
      List.flatMap_append, List.append_assoc]
    rfl
  exact inner.cons rfl

/-- A variable is a whole term, or an argument of the innermost application. -/
theorem Completes.variable {name : String} (isTerm : mode ≠ .next)
    (spelled : token.lexeme = .name name)
    (completes : Completes (calls.reverse.flatMap OpenCall.waiting ++ [.name name]) behind rest
      target) :
    Completes (around mode calls) (token :: behind) rest target :=
  completes.cons (by rw [spelled, around_of_ne_next isTerm])

end Completes

/-- A small name in a text is read as a well-named variable. -/
theorem named_variable {token : Token} {name : String} (spelled : token.lexeme = .name name)
    (lawful : token.lexeme.lawful = true) (small : ¬Name.isCapital name = true) :
    (Term.var name).wellNamed = true := by
  rw [spelled] at lawful
  rw [Term.wellNamed]
  exact Name.isVariable_of_lawful lawful (by simpa using small)

/-- A term that is read inside well-named applications is well named, and its lexemes are what has
been read of the applications and what is read now. -/
theorem completes_of_readTerm {mode : TermMode} {calls : List OpenCall} {tokens rest : List Token}
    {t : Term} (lawful : ∀ token ∈ tokens, token.lexeme.lawful = true)
    (named : ∀ call ∈ calls, call.WellNamed) (fits : Fits mode calls)
    (read : readTerm mode calls tokens = .ok (t, rest)) :
    t.wellNamed = true ∧ Completes (around mode calls) tokens rest t.lexemes := by
  have pushed : ∀ {call outer : OpenCall} {calls : List OpenCall},
      (∀ c ∈ call :: outer :: calls, c.WellNamed) →
        ∀ c ∈ outer.push call.close :: calls, c.WellNamed := by
    intro call outer calls named
    simp only [List.forall_mem_cons] at named ⊢
    exact ⟨named.2.1.push named.1.close, named.2.2⟩
  have closed : ∀ {call : OpenCall} {after : List Token}, (∀ c ∈ [call], c.WellNamed) →
      Except.ok (call.close, after) = (.ok (t, rest) : Except Mismatch (Term × List Token)) →
      t.wellNamed = true ∧ t = call.close ∧ rest = after := by
    intro call after named same
    obtain ⟨rfl, rfl⟩ := Prod.mk.inj (Except.ok.inj same)
    exact ⟨(named call List.mem_cons_self).close, rfl, rfl⟩
  fun_induction readTerm mode calls tokens with
  | case3 calls token behind comma ih =>
    rw [List.forall_mem_cons] at lawful
    obtain ⟨namedTerm, completes⟩ := ih lawful.2 named trivial read
    refine ⟨namedTerm, completes.cons ?_⟩
    rw [comma, around_comma fits]
  | case5 token behind closing call =>
    obtain ⟨namedTerm, rfl, rfl⟩ := closed named read
    exact ⟨namedTerm, .close (by simp) fits closing⟩
  | case6 token behind closing call outer calls ih =>
    rw [List.forall_mem_cons] at lawful
    obtain ⟨namedTerm, completes⟩ :=
      ih lawful.2 (pushed named) ⟨_, rfl, List.cons_ne_nil _ _⟩ read
    exact ⟨namedTerm, completes.close_inner (by simp) fits closing⟩
  | case8 token behind closing call =>
    obtain ⟨namedTerm, rfl, rfl⟩ := closed named read
    exact ⟨namedTerm, .close (by simp) fits closing⟩
  | case9 token behind closing call outer calls ih =>
    rw [List.forall_mem_cons] at lawful
    obtain ⟨namedTerm, completes⟩ :=
      ih lawful.2 (pushed named) ⟨_, rfl, List.cons_ne_nil _ _⟩ read
    exact ⟨namedTerm, completes.close_inner (by simp) fits closing⟩
  | case13 mode calls token name spelled small alone isTerm =>
    obtain rfl := List.isEmpty_iff.mp alone
    obtain ⟨rfl, rfl⟩ := Prod.mk.inj (Except.ok.inj read)
    refine ⟨named_variable spelled (lawful token List.mem_cons_self) small, ?_⟩
    exact .variable isTerm spelled (by simpa using Completes.refl _ _)
  | case15 mode calls token name spelled second behind opens head known isTerm ih =>
    simp only [List.forall_mem_cons] at lawful
    have admits : head.admits name = true := by
      rw [spelled] at lawful
      exact (Name.head?_eq_some_iff lawful.1).mp known
    obtain ⟨namedTerm, completes⟩ := ih lawful.2.2
      (List.forall_mem_cons.mpr ⟨⟨admits, by simp⟩, named⟩) ⟨_, rfl, rfl⟩ read
    exact ⟨namedTerm, completes.open isTerm spelled opens⟩
  | case18 mode token name spelled second behind _ small isTerm =>
    obtain ⟨rfl, rfl⟩ := Prod.mk.inj (Except.ok.inj read)
    refine ⟨named_variable spelled (lawful token List.mem_cons_self) small, ?_⟩
    exact .variable isTerm spelled (by simpa using Completes.refl _ _)
  | case19 mode token name spelled second behind _ small call calls isTerm ih =>
    rw [List.forall_mem_cons] at lawful named
    have namedArg := named_variable spelled lawful.1 small
    obtain ⟨namedTerm, completes⟩ := ih lawful.2
      (List.forall_mem_cons.mpr ⟨named.1.push namedArg, named.2⟩)
      ⟨_, rfl, List.cons_ne_nil _ _⟩ read
    rw [around_push, Term.lexemes_var] at completes
    exact ⟨namedTerm, completes.variable isTerm spelled⟩
  | _ => contradiction

/-- The tokens of a term that is read begin with its lexemes, and its names are right. -/
theorem begins_of_readTerm {tokens rest : List Token} {t : Term}
    (lawful : ∀ token ∈ tokens, token.lexeme.lawful = true)
    (read : readTerm .term [] tokens = .ok (t, rest)) :
    t.wellNamed = true ∧ Begins t.lexemes tokens rest := by
  obtain ⟨named, lexemes, begins, same⟩ :=
    completes_of_readTerm lawful (by simp) (show Fits .term [] from trivial) read
  exact ⟨named, same ▸ begins⟩

/-! ## Lists of variables -/

/-- Where a variable must come, there is one. -/
def Filled : TermMode → List String → Prop
  | .term, names => names ≠ []
  | _, _ => True

/-- A first variable, where one may come. -/
theorem variablesUpTo_cons {mode : TermMode} (isTerm : mode ≠ .next) (name : String)
    (names : List String) :
    variablesUpTo mode (name :: names) = .name name :: variablesUpTo .next names := by
  cases mode with
  | next => contradiction
  | term | first => rfl

/-- Variables behind others have a comma before them. -/
theorem variablesUpTo_next {names : List String} (some : names ≠ []) :
    variablesUpTo .next names = .mark .comma :: variablesUpTo .term names := by
  obtain ⟨name, names, rfl⟩ := List.exists_cons_of_ne_nil some
  rfl

/-- No variables are just a closing parenthesis. -/
theorem variablesUpTo_nil (mode : TermMode) : variablesUpTo mode [] = [.mark .closing] := by
  cases mode <;> rfl

/-- The tokens of variables that are read begin with their lexemes, and their names are right. -/
theorem begins_of_readVariables {mode : TermMode} {tokens rest : List Token} {names : List String}
    (lawful : ∀ token ∈ tokens, token.lexeme.lawful = true)
    (read : readVariables mode tokens = .ok (names, rest)) :
    names.all Name.isVariable = true ∧ Filled mode names ∧
      Begins (variablesUpTo mode names) tokens rest := by
  fun_induction readVariables mode tokens generalizing names with
  | case3 token behind separates ih =>
    rw [List.forall_mem_cons] at lawful
    obtain ⟨named, filled, begins⟩ := ih lawful.2 read
    rw [variablesUpTo_next filled]
    exact ⟨named, trivial, Begins.cons_iff.mpr ⟨token, behind, rfl, separates, begins⟩⟩
  | case4 token behind closes | case5 token behind closes =>
    obtain ⟨rfl, rfl⟩ := Prod.mk.inj (Except.ok.inj read)
    rw [variablesUpTo_nil]
    exact ⟨rfl, trivial, Begins.single_iff.mpr ⟨token, rfl, closes⟩⟩
  | case10 mode token behind name spelled small _ isTerm ih =>
    rw [List.forall_mem_cons] at lawful
    cases later : readVariables .next behind with
    | error mismatch => simp [later, Except.map] at read
    | ok found =>
      obtain ⟨others, after⟩ := found
      rw [later] at read
      obtain ⟨rfl, rfl⟩ := Prod.mk.inj (Except.ok.inj read)
      obtain ⟨named, -, begins⟩ := ih lawful.2 later
      have namedFirst := named_variable spelled lawful.1 small
      rw [Term.wellNamed] at namedFirst
      rw [variablesUpTo_cons isTerm, List.all_cons, namedFirst, Bool.true_and]
      refine ⟨named, ?_, Begins.cons_iff.mpr ⟨token, behind, rfl, spelled, begins⟩⟩
      cases mode with
      | term => exact List.cons_ne_nil _ _
      | first | next => trivial
  | _ => contradiction

/-- Where a variable may come, it is read and others follow. -/
theorem readVariables_name {mode : TermMode} (isTerm : mode ≠ .next) {token : Token} {name : String}
    (spelled : token.lexeme = .name name) (named : Name.isVariable name = true)
    {behind : List Token} (apart : startsWith .opening behind = false) :
    readVariables mode (token :: behind) =
      (readVariables .next behind).map fun (names, rest) => (name :: names, rest) := by
  have small := Name.not_isCapital_of_isVariable named
  cases mode with
  | next => contradiction
  | term | first => simp [readVariables, spelled, small, apart]

/-- Variables whose lexemes come next are read. -/
theorem readVariables_of_begins {mode : TermMode} {names : List String} {tokens rest : List Token}
    (named : names.all Name.isVariable = true) (filled : Filled mode names)
    (begins : Begins (variablesUpTo mode names) tokens rest) :
    readVariables mode tokens = .ok (names, rest) := by
  induction names generalizing mode tokens with
  | nil =>
    rw [variablesUpTo_nil, Begins.single_iff] at begins
    obtain ⟨token, rfl, closes⟩ := begins
    cases mode with
    | term => contradiction
    | first | next => simp [readVariables, closes]
  | cons name names ih =>
    rw [List.all_cons, Bool.and_eq_true] at named
    -- Behind a comma, the first variable is read as it is behind the opening parenthesis.
    have first : ∀ {mode : TermMode} {tokens : List Token}, mode ≠ .next →
        Begins (variablesUpTo mode (name :: names)) tokens rest →
        readVariables mode tokens = .ok (name :: names, rest) := by
      intro mode tokens isTerm begins
      rw [variablesUpTo_cons isTerm, Begins.cons_iff] at begins
      obtain ⟨token, behind, rfl, spelled, others⟩ := begins
      rw [readVariables_name isTerm spelled named.1 (Begins.apart_further others),
        ih named.2 (show Filled .next names from trivial) others]
      rfl
    cases mode with
    | term => exact first (by simp) begins
    | first => exact first (by simp) begins
    | next =>
      rw [variablesUpTo_next (List.cons_ne_nil _ _), Begins.cons_iff] at begins
      obtain ⟨token, behind, rfl, separates, others⟩ := begins
      simp only [readVariables, separates]
      exact first (by simp) others

/-! ## Rules -/

section Rules

variable {tokens rest : List Token} (lawful : ∀ token ∈ tokens, token.lexeme.lawful = true)

include lawful

/-- The variables that are read are those whose lexemes come next. -/
theorem readVariables_eq_ok {mode : TermMode} {names : List String} (mayEnd : mode ≠ .term) :
    readVariables mode tokens = .ok (names, rest) ↔
      names.all Name.isVariable = true ∧ Begins (variablesUpTo mode names) tokens rest := by
  have filled : Filled mode names := by
    cases mode with
    | term => contradiction
    | first | next => trivial
  constructor
  · intro read
    obtain ⟨named, -, begins⟩ := begins_of_readVariables lawful read
    exact ⟨named, begins⟩
  · rintro ⟨named, begins⟩
    exact readVariables_of_begins named filled begins

/-- The body that is read is the one whose lexemes come next. -/
theorem readBody_eq_ok {body : Term} :
    readBody tokens = .ok (body, rest) ↔
      body.wellNamed = true ∧ Begins (bodyLexemes body) tokens rest := by
  rw [readBody, bodyLexemes, ← List.singleton_append, Begins.append_iff]
  constructor
  · intro read
    obtain ⟨behind, equality, read⟩ := bind_eq_ok.mp read
    obtain ⟨⟨t, last⟩, isBody, read⟩ := bind_eq_ok.mp read
    obtain ⟨_, semicolon, read⟩ := bind_eq_ok.mp read
    obtain ⟨rfl, rfl⟩ := Prod.mk.inj (Except.ok.inj read)
    rw [expect_eq_ok] at equality semicolon
    obtain ⟨named, begins⟩ := begins_of_readTerm (equality.lawful lawful) isBody
    exact ⟨named, behind, equality, Begins.append_iff.mpr ⟨last, begins, semicolon⟩⟩
  · rintro ⟨named, behind, equality, begins⟩
    obtain ⟨last, isBody, semicolon⟩ := Begins.append_iff.mp begins
    have read : readTerm .term [] behind = .ok (body, last) :=
      readable_of_wellNamed named (by simp) isBody (semicolon.apart (by simp))
    refine bind_eq_ok.mpr ⟨behind, expect_eq_ok.mpr equality, bind_eq_ok.mpr ⟨_, read, ?_⟩⟩
    exact bind_eq_ok.mpr ⟨rest, expect_eq_ok.mpr semicolon, rfl⟩

/-- The pattern that is read is the one whose lexemes come next. -/
theorem readPattern_eq_ok {pattern : RulePattern} :
    readPattern tokens = .ok (pattern, rest) ↔
      pattern.wellNamed = true ∧ Begins pattern.lexemes tokens rest := by
  have shape : pattern.lexemes =
      .name pattern.name :: ([.mark .opening] ++ variablesUpTo .first pattern.fields) := rfl
  rw [RulePattern.wellNamed, Bool.and_eq_true, shape]
  cases tokens with
  | nil => simp [readPattern, Begins]
  | cons token behind =>
    rw [List.forall_mem_cons] at lawful
    rw [Begins.cons_cons_iff, Begins.append_iff]
    constructor
    · intro read
      rw [readPattern] at read
      split at read
      · contradiction
      · rename_i name spelled
        split at read
        · rename_i capital
          obtain ⟨inside, opens, read⟩ := bind_eq_ok.mp read
          obtain ⟨⟨fields, last⟩, isFields, read⟩ := bind_eq_ok.mp read
          obtain ⟨rfl, rfl⟩ := Prod.mk.inj (Except.ok.inj read)
          rw [expect_eq_ok] at opens
          rw [readVariables_eq_ok (opens.lawful lawful.2) (by simp)] at isFields
          rw [spelled] at lawful
          exact ⟨⟨(Name.startsIn_of_lawful lawful.1).1.mp capital, isFields.1⟩, spelled, inside,
            opens, isFields.2⟩
        · contradiction
    · rintro ⟨⟨capital, named⟩, spelled, inside, opens, fields⟩
      have isFields : readVariables .first inside = .ok (pattern.fields, rest) :=
        (readVariables_eq_ok (opens.lawful lawful.2) (by simp)).mpr ⟨named, fields⟩
      rw [spelled] at lawful
      simp only [readPattern, spelled, (Name.startsIn_of_lawful lawful.1).1.mpr capital, if_true]
      refine bind_eq_ok.mpr ⟨inside, expect_eq_ok.mpr opens, bind_eq_ok.mpr ⟨_, isFields, rfl⟩⟩

/-- A rule that is read has the right names, and its lexemes come next. -/
theorem begins_of_readRule {rule : Rule} (read : readRule tokens = .ok (rule, rest)) :
    rule.wellNamed = true ∧ Begins rule.lexemes tokens rest := by
  cases tokens with
  | nil => simp [readRule] at read
  | cons token behind =>
    rw [List.forall_mem_cons] at lawful
    rw [readRule] at read
    split at read
    · contradiction
    · rename_i name spelled
      have initial : Name.startsIn Text.isInitial name = true := by
        rw [spelled] at lawful
        exact lawful.1
      obtain ⟨-, isF_iff, isG_iff⟩ := Name.startsIn_of_lawful initial
      split at read
      · rename_i isF
        obtain ⟨inside, opens, read⟩ := bind_eq_ok.mp read
        obtain ⟨⟨params, tail⟩, isParams, read⟩ := bind_eq_ok.mp read
        obtain ⟨⟨body, last⟩, isBody, read⟩ := bind_eq_ok.mp read
        obtain ⟨rfl, rfl⟩ := Prod.mk.inj (Except.ok.inj read)
        rw [expect_eq_ok] at opens
        have lawfulInside := opens.lawful lawful.2
        rw [readVariables_eq_ok lawfulInside (by simp)] at isParams
        rw [readBody_eq_ok (isParams.2.lawful lawfulInside)] at isBody
        refine ⟨?_, ?_⟩
        · simp [Rule.wellNamed, FRule.wellNamed, isF_iff.mp isF, isParams.1, isBody.1]
        · rw [Rule.lexemes_f, Begins.cons_cons_iff]
          exact ⟨spelled, Begins.append_iff.mpr ⟨inside, opens,
            Begins.append_iff.mpr ⟨tail, isParams.2, isBody.2⟩⟩⟩
      · split at read
        · rename_i isG
          obtain ⟨inside, opens, read⟩ := bind_eq_ok.mp read
          obtain ⟨⟨pattern, middle⟩, isPattern, read⟩ := bind_eq_ok.mp read
          obtain ⟨⟨params, tail⟩, isParams, read⟩ := bind_eq_ok.mp read
          obtain ⟨⟨body, last⟩, isBody, read⟩ := bind_eq_ok.mp read
          obtain ⟨rfl, rfl⟩ := Prod.mk.inj (Except.ok.inj read)
          rw [expect_eq_ok] at opens
          have lawfulInside := opens.lawful lawful.2
          rw [readPattern_eq_ok lawfulInside] at isPattern
          have lawfulMiddle := isPattern.2.lawful lawfulInside
          rw [readVariables_eq_ok lawfulMiddle (by simp)] at isParams
          rw [readBody_eq_ok (isParams.2.lawful lawfulMiddle)] at isBody
          refine ⟨?_, ?_⟩
          · simp [Rule.wellNamed, GRule.wellNamed, isG_iff.mp isG, isPattern.1, isParams.1,
              isBody.1]
          · rw [Rule.lexemes_g, Begins.cons_cons_iff]
            exact ⟨spelled, Begins.append_iff.mpr ⟨inside, opens, Begins.append_iff.mpr
              ⟨middle, isPattern.2, Begins.append_iff.mpr ⟨tail, isParams.2, isBody.2⟩⟩⟩⟩
        · contradiction

/-- A rule whose lexemes come next is read. -/
theorem readRule_of_begins {rule : Rule} (named : rule.wellNamed = true)
    (begins : Begins rule.lexemes tokens rest) : readRule tokens = .ok (rule, rest) := by
  cases rule with
  | f rule =>
    simp only [Rule.wellNamed, FRule.wellNamed, Bool.and_eq_true] at named
    obtain ⟨⟨isF, namedParams⟩, namedBody⟩ := named
    rw [Rule.lexemes_f] at begins
    obtain ⟨token, behind, rfl, spelled, begins⟩ := Begins.cons_iff.mp begins
    obtain ⟨inside, opens, begins⟩ := Begins.append_iff.mp begins
    obtain ⟨tail, params, body⟩ := Begins.append_iff.mp begins
    rw [List.forall_mem_cons] at lawful
    have lawfulInside := opens.lawful lawful.2
    have isParams := (readVariables_eq_ok lawfulInside (by simp)).mpr ⟨namedParams, params⟩
    have isBody := (readBody_eq_ok (params.lawful lawfulInside)).mpr ⟨namedBody, body⟩
    rw [spelled] at lawful
    simp only [readRule, spelled, (Name.startsIn_of_lawful lawful.1).2.1.mpr isF, if_true]
    exact bind_eq_ok.mpr ⟨inside, expect_eq_ok.mpr opens, bind_eq_ok.mpr ⟨_, isParams,
      bind_eq_ok.mpr ⟨_, isBody, rfl⟩⟩⟩
  | g rule =>
    simp only [Rule.wellNamed, GRule.wellNamed, Bool.and_eq_true] at named
    obtain ⟨⟨⟨isG, namedPattern⟩, namedParams⟩, namedBody⟩ := named
    rw [Rule.lexemes_g] at begins
    obtain ⟨token, behind, rfl, spelled, begins⟩ := Begins.cons_iff.mp begins
    obtain ⟨inside, opens, begins⟩ := Begins.append_iff.mp begins
    obtain ⟨middle, pattern, begins⟩ := Begins.append_iff.mp begins
    obtain ⟨tail, params, body⟩ := Begins.append_iff.mp begins
    rw [List.forall_mem_cons] at lawful
    have lawfulInside := opens.lawful lawful.2
    have lawfulMiddle := pattern.lawful lawfulInside
    have isPattern := (readPattern_eq_ok lawfulInside).mpr ⟨namedPattern, pattern⟩
    have isParams := (readVariables_eq_ok lawfulMiddle (by simp)).mpr ⟨namedParams, params⟩
    have isBody := (readBody_eq_ok (params.lawful lawfulMiddle)).mpr ⟨namedBody, body⟩
    rw [spelled] at lawful
    have noF : Name.isF rule.name = false := Name.not_isF_of_isG
      ((Name.startsIn_of_lawful lawful.1).2.2.mpr isG)
    simp only [readRule, spelled, noF, Bool.false_eq_true, if_false,
      (Name.startsIn_of_lawful lawful.1).2.2.mpr isG, if_true]
    exact bind_eq_ok.mpr ⟨inside, expect_eq_ok.mpr opens, bind_eq_ok.mpr ⟨_, isPattern,
      bind_eq_ok.mpr ⟨_, isParams, bind_eq_ok.mpr ⟨_, isBody, rfl⟩⟩⟩⟩

end Rules

end Supercompilation
