import Supercompilation.Proofs.Grammar
import Supercompilation.Proofs.Program

/-!
# What the grammar accepts

A text is accepted as a term, or as a program, exactly if its lexemes are those of a term or of
rules whose names are right for their kind, and then the result is that term or these rules. Every
other text is refused, with a complaint about a stray character or about a place among its tokens or
at their end.

Only the lexemes count. What is read does not depend on the positions of the tokens, nor does what a
complaint asks for and finds: reading commutes with `Token.bare`, which forgets the position.
-/

namespace Supercompilation

/-! ## Rules up to the end -/

/-- Tokens begin with some lexemes and nothing else if these are all their lexemes. -/
theorem Begins.end_iff {lexemes : List Lexeme} {tokens : List Token} :
    Begins lexemes tokens [] ↔ tokens.map Token.lexeme = lexemes := by
  simp [Begins]

/-- Every rule has a lexeme. -/
theorem Rule.lexemes_ne_nil (rule : Rule) : rule.lexemes ≠ [] := by
  cases rule with
  | f rule => simp [lexemes_f]
  | g rule => simp [lexemes_g]

/-- Behind a rule fewer tokens are left. -/
theorem Begins.length_lt {rule : Rule} {tokens rest : List Token}
    (begins : Begins rule.lexemes tokens rest) : rest.length < tokens.length := by
  obtain ⟨taken, rfl, spelled⟩ := begins
  have some : taken ≠ [] := by
    rintro rfl
    exact rule.lexemes_ne_nil spelled.symm
  have positive : 0 < taken.length := List.length_pos_of_ne_nil some
  rw [List.length_append]
  omega

/-- The rules that are read from tokens, with a count that is large enough, are those whose lexemes
the tokens have. -/
theorem readRules_eq_ok {count : Nat} {tokens : List Token} {rules : List Rule}
    (lawful : ∀ token ∈ tokens, token.lexeme.lawful = true) (enough : tokens.length ≤ count) :
    readRules count tokens = .ok rules ↔
      (∀ rule ∈ rules, rule.wellNamed = true) ∧
        tokens.map Token.lexeme = rules.flatMap Rule.lexemes := by
  induction count generalizing tokens rules with
  | zero =>
    obtain rfl := List.length_eq_zero_iff.mp (Nat.le_zero.mp enough)
    cases rules with
    | nil => simp [readRules]
    | cons rule rules => simp [readRules, rule.lexemes_ne_nil]
  | succ count ih =>
    cases tokens with
    | nil =>
      cases rules with
      | nil => simp [readRules]
      | cons rule rules => simp [readRules, rule.lexemes_ne_nil]
    | cons token behind =>
      rw [readRules]
      constructor
      · intro read
        obtain ⟨⟨rule, rest⟩, first, read⟩ := bind_eq_ok.mp read
        obtain ⟨others, later, read⟩ := bind_eq_ok.mp read
        obtain rfl := Except.ok.inj read
        obtain ⟨named, begins⟩ := begins_of_readRule lawful first
        have shorter : rest.length ≤ count :=
          Nat.le_of_lt_succ (Nat.lt_of_lt_of_le begins.length_lt enough)
        obtain ⟨namedOthers, spelled⟩ := (ih (begins.lawful lawful) shorter).mp later
        refine ⟨List.forall_mem_cons.mpr ⟨named, namedOthers⟩, ?_⟩
        rw [List.flatMap_cons, ← Begins.end_iff]
        exact Begins.append_iff.mpr ⟨rest, begins, Begins.end_iff.mpr spelled⟩
      · rintro ⟨named, spelled⟩
        cases rules with
        | nil => simp at spelled
        | cons rule rules =>
          rw [List.forall_mem_cons] at named
          rw [List.flatMap_cons, ← Begins.end_iff] at spelled
          obtain ⟨rest, begins, others⟩ := Begins.append_iff.mp spelled
          have shorter : rest.length ≤ count :=
            Nat.le_of_lt_succ (Nat.lt_of_lt_of_le begins.length_lt enough)
          have later := (ih (begins.lawful lawful) shorter).mpr
            ⟨named.2, Begins.end_iff.mp others⟩
          exact bind_eq_ok.mpr ⟨_, readRule_of_begins lawful named.1 begins,
            bind_eq_ok.mpr ⟨_, later, rfl⟩⟩

section Tokens

variable {tokens : List Token} (lawful : ∀ token ∈ tokens, token.lexeme.lawful = true)

include lawful

/-- The rules that some tokens are have the lexemes of these tokens. -/
theorem rulesOfTokens_eq_ok {rules : List Rule} :
    rulesOfTokens tokens = .ok rules ↔
      (∀ rule ∈ rules, rule.wellNamed = true) ∧
        tokens.map Token.lexeme = rules.flatMap Rule.lexemes :=
  readRules_eq_ok lawful (Nat.le_refl _)

/-- The term that some tokens are has the lexemes of these tokens. -/
theorem Term.ofTokens_eq_ok {t : Term} :
    Term.ofTokens tokens = .ok t ↔ t.wellNamed = true ∧ tokens.map Token.lexeme = t.lexemes := by
  rw [Term.ofTokens]
  constructor
  · intro read
    obtain ⟨⟨u, rest⟩, isTerm, read⟩ := bind_eq_ok.mp read
    obtain ⟨named, begins⟩ := begins_of_readTerm lawful isTerm
    simp only at read
    split at read
    · rename_i atEnd
      obtain rfl := Except.ok.inj read
      obtain rfl := List.isEmpty_iff.mp atEnd
      exact ⟨named, Begins.end_iff.mp begins⟩
    · contradiction
  · rintro ⟨named, spelled⟩
    have read : readTerm .term [] tokens = .ok (t, []) :=
      readable_of_wellNamed named (by simp) (Begins.end_iff.mpr spelled) rfl
    exact bind_eq_ok.mpr ⟨_, read, rfl⟩

end Tokens

/-! ## Complaints -/

/-- A reading stays among some tokens: what it leaves of them, or what it complains about, is an end
part of them. -/
def Within {α : Type} (left : α → List Token) (tokens : List Token) : Except Mismatch α → Prop
  | .ok a => left a <:+ tokens
  | .error mismatch => mismatch.found <:+ tokens

namespace Within

variable {α β : Type} {left : α → List Token} {leave : β → List Token} {tokens rest : List Token}

/-- A reading of an end part stays among the whole tokens. -/
theorem of_suffix {outcome : Except Mismatch α} (within : Within left rest outcome)
    (suffix : rest <:+ tokens) : Within left tokens outcome := by
  cases outcome with
  | error mismatch => exact List.IsSuffix.trans within suffix
  | ok a => exact List.IsSuffix.trans within suffix

/-- A reading behind a first token stays among the tokens. -/
theorem of_cons {outcome : Except Mismatch α} {token : Token} (within : Within left rest outcome) :
    Within left (token :: rest) outcome :=
  within.of_suffix (List.suffix_cons token rest)

/-- A complaint about the first token stays among the tokens. -/
theorem here (expected : Expected) : Within left tokens (.error ⟨expected, tokens⟩) :=
  List.suffix_refl tokens

/-- Two readings, of which the second goes on where the first one stops, stay among the tokens. -/
theorem bind {first : Except Mismatch α} {second : α → Except Mismatch β}
    (within : Within left tokens first) (goesOn : ∀ a, Within leave (left a) (second a)) :
    Within leave tokens (first >>= second) := by
  cases first with
  | error mismatch => exact within
  | ok a => exact (goesOn a).of_suffix within

end Within

/-- A mark that must come is looked for among the tokens. -/
theorem within_expect (mark : Mark) (tokens : List Token) :
    Within id tokens (expect mark tokens) := by
  cases tokens with
  | nil => exact .here _
  | cons token rest =>
    rw [expect]
    split
    · exact List.suffix_cons token rest
    · exact .here _

/-- A term is read among the tokens. -/
theorem within_readTerm (mode : TermMode) (calls : List OpenCall) (tokens : List Token) :
    Within Prod.snd tokens (readTerm mode calls tokens) := by
  fun_induction readTerm mode calls tokens with
  | case3 calls token behind _ ih => exact ih.of_cons
  | case5 token behind | case8 token behind => exact List.suffix_cons token behind
  | case6 token behind _ call outer calls ih | case9 token behind _ call outer calls ih =>
    exact ih.of_cons
  | case12 | case13 | case14 => exact List.nil_suffix
  | case15 mode calls token name _ second behind _ head _ _ ih => exact ih.of_cons.of_cons
  | case17 _ _ token | case18 _ token => exact List.suffix_cons token _
  | case19 mode token name _ second behind _ _ call calls _ ih => exact ih.of_cons
  | _ => exact .here _

/-- Variables are read among the tokens. -/
theorem within_readVariables (mode : TermMode) (tokens : List Token) :
    Within Prod.snd tokens (readVariables mode tokens) := by
  fun_induction readVariables mode tokens with
  | case3 token behind _ ih => exact ih.of_cons
  | case4 token behind | case5 token behind => exact List.suffix_cons token behind
  | case9 mode token behind => exact List.suffix_cons token behind
  | case10 mode token behind name _ _ _ _ ih =>
    cases later : readVariables .next behind with
    | error mismatch =>
      rw [later] at ih
      exact ih.of_cons
    | ok found =>
      rw [later] at ih
      exact List.IsSuffix.trans ih (List.suffix_cons token behind)
  | _ => exact .here _

/-- A pattern is read among the tokens. -/
theorem within_readPattern (tokens : List Token) :
    Within Prod.snd tokens (readPattern tokens) := by
  cases tokens with
  | nil => exact .here _
  | cons token rest =>
    rw [readPattern]
    split
    · exact .here _
    · split
      · refine Within.of_cons ((within_expect _ _).bind fun inside => ?_)
        refine (within_readVariables _ _).bind fun found => ?_
        exact List.suffix_refl _
      · exact .here _

/-- A body is read among the tokens. -/
theorem within_readBody (tokens : List Token) : Within Prod.snd tokens (readBody tokens) := by
  refine (within_expect _ _).bind fun behind => (within_readTerm _ _ _).bind fun found => ?_
  refine (within_expect _ _).bind fun rest => ?_
  exact List.suffix_refl rest

/-- A rule is read among the tokens. -/
theorem within_readRule (tokens : List Token) : Within Prod.snd tokens (readRule tokens) := by
  cases tokens with
  | nil => exact .here _
  | cons token rest =>
    rw [readRule]
    split
    · exact .here _
    · split
      · refine Within.of_cons ((within_expect _ _).bind fun inside => ?_)
        refine (within_readVariables _ _).bind fun params => (within_readBody _).bind fun body => ?_
        exact List.suffix_refl _
      · split
        · refine Within.of_cons ((within_expect _ _).bind fun inside => ?_)
          refine (within_readPattern _).bind fun pattern => ?_
          refine (within_readVariables _ _).bind fun params => ?_
          refine (within_readBody _).bind fun body => ?_
          exact List.suffix_refl _
        · exact .here _

/-- Rules are read among the tokens. -/
theorem within_readRules (count : Nat) (tokens : List Token) :
    Within (fun _ => []) tokens (readRules count tokens) := by
  induction count generalizing tokens with
  | zero =>
    cases tokens with
    | nil => exact List.nil_suffix
    | cons token rest => exact .here _
  | succ count ih =>
    cases tokens with
    | nil => exact List.nil_suffix
    | cons token rest =>
      refine (within_readRule _).bind fun found => (ih found.2).bind fun rules => ?_
      exact List.nil_suffix

/-- A term is made of tokens, and so are complaints about them. -/
theorem Term.within_ofTokens (tokens : List Token) :
    Within (fun _ => []) tokens (Term.ofTokens tokens) := by
  refine (within_readTerm _ _ _).bind fun read => ?_
  obtain ⟨t, rest⟩ := read
  change Within _ rest (if rest.isEmpty then _ else _)
  split
  · exact List.nil_suffix
  · exact .here _

/-! ## Positions -/

/-- The token without its position. -/
def Token.bare (token : Token) : Token := { token with position := 0 }

@[simp]
theorem Token.lexeme_bare (token : Token) : token.bare.lexeme = token.lexeme := rfl

/-- The complaint without positions. -/
def Mismatch.bare (mismatch : Mismatch) : Mismatch :=
  { mismatch with found := mismatch.found.map Token.bare }

/-- What is read and what is left, without positions. -/
def bareRest {α : Type} (read : α × List Token) : α × List Token :=
  (read.1, read.2.map Token.bare)

/-- An outcome without positions. -/
def bareOutcome {α : Type} (bare : α → α) : Except Mismatch α → Except Mismatch α
  | .ok a => .ok (bare a)
  | .error mismatch => .error mismatch.bare

/-- Two readings one after the other commute with forgetting positions if both do. -/
theorem bind_bare {α β : Type} {bare : α → α} {bare' : β → β} {first first' : Except Mismatch α}
    {second : α → Except Mismatch β} (starts : first' = bareOutcome bare first)
    (goesOn : ∀ a, second (bare a) = bareOutcome bare' (second a)) :
    first' >>= second = bareOutcome bare' (first >>= second) := by
  rw [starts]
  cases first with
  | error mismatch => rfl
  | ok a => exact goesOn a

/-- A mark that must come is looked for in the same way without positions. -/
theorem expect_bare (mark : Mark) (tokens : List Token) :
    expect mark (tokens.map Token.bare) =
      bareOutcome (List.map Token.bare) (expect mark tokens) := by
  cases tokens with
  | nil => rfl
  | cons token rest =>
    rw [List.map_cons, expect, expect, Token.lexeme_bare]
    split <;> rfl

/-- An opening parenthesis is seen in the same way without positions. -/
@[simp]
theorem startsWith_bare (mark : Mark) (tokens : List Token) :
    startsWith mark (tokens.map Token.bare) = startsWith mark tokens := by
  cases tokens <;> rfl

/-- A term is read in the same way without positions. -/
theorem readTerm_bare (mode : TermMode) (calls : List OpenCall) (tokens : List Token) :
    readTerm mode calls (tokens.map Token.bare) =
      bareOutcome bareRest (readTerm mode calls tokens) := by
  fun_induction readTerm mode calls tokens with
  | case10 calls token rest noComma noClosing =>
    unfold readTerm
    simp [bareOutcome, Mismatch.bare]
  | case15 mode calls token name spelled second behind opens head known isTerm ih =>
    rw [← ih]
    exact readTerm_opening isTerm (token.lexeme_bare.trans spelled) known
      (second.lexeme_bare.trans opens)
  | case16 mode calls token name spelled second behind opens unknown isTerm
  | case17 mode calls token name spelled second behind opens capital isTerm =>
    cases mode with
    | next => contradiction
    | _ => cases calls <;> simp_all [readTerm, bareOutcome, Mismatch.bare]
  | _ => simp_all [readTerm, bareOutcome, bareRest, Mismatch.bare]

/-- Variables are read in the same way without positions. -/
theorem readVariables_bare (mode : TermMode) (tokens : List Token) :
    readVariables mode (tokens.map Token.bare) =
      bareOutcome bareRest (readVariables mode tokens) := by
  fun_induction readVariables mode tokens with
  | case10 mode token behind name spelled small apart isTerm ih =>
    cases later : readVariables .next behind with
    | _ => simp_all [readVariables, bareOutcome, bareRest, Mismatch.bare, Except.map]
  | _ => simp_all [readVariables, bareOutcome, bareRest, Mismatch.bare]

/-- A pattern is read in the same way without positions. -/
theorem readPattern_bare (tokens : List Token) :
    readPattern (tokens.map Token.bare) = bareOutcome bareRest (readPattern tokens) := by
  cases tokens with
  | nil => rfl
  | cons token rest =>
    rw [List.map_cons, readPattern, readPattern, Token.lexeme_bare]
    split
    · rfl
    · split
      · refine bind_bare (expect_bare _ _) fun inside => ?_
        exact bind_bare (readVariables_bare _ _) fun found => rfl
      · rfl

/-- A body is read in the same way without positions. -/
theorem readBody_bare (tokens : List Token) :
    readBody (tokens.map Token.bare) = bareOutcome bareRest (readBody tokens) := by
  refine bind_bare (expect_bare _ _) fun behind => ?_
  refine bind_bare (readTerm_bare _ _ _) fun found => ?_
  exact bind_bare (expect_bare _ _) fun rest => rfl

/-- A rule is read in the same way without positions. -/
theorem readRule_bare (tokens : List Token) :
    readRule (tokens.map Token.bare) = bareOutcome bareRest (readRule tokens) := by
  cases tokens with
  | nil => rfl
  | cons token rest =>
    rw [List.map_cons, readRule, readRule, Token.lexeme_bare]
    split
    · rfl
    · split
      · refine bind_bare (expect_bare _ _) fun inside => ?_
        refine bind_bare (readVariables_bare _ _) fun params => ?_
        exact bind_bare (readBody_bare _) fun body => rfl
      · split
        · refine bind_bare (expect_bare _ _) fun inside => ?_
          refine bind_bare (readPattern_bare _) fun pattern => ?_
          refine bind_bare (readVariables_bare _ _) fun params => ?_
          exact bind_bare (readBody_bare _) fun body => rfl
        · rfl

/-- Rules are read in the same way without positions. -/
theorem readRules_bare (count : Nat) (tokens : List Token) :
    readRules count (tokens.map Token.bare) = bareOutcome id (readRules count tokens) := by
  induction count generalizing tokens with
  | zero => cases tokens <;> rfl
  | succ count ih =>
    cases tokens with
    | nil => rfl
    | cons token rest =>
      refine bind_bare (readRule_bare (token :: rest)) fun found => ?_
      exact bind_bare (ih found.2) fun rules => rfl

/-- The rules that tokens are do not depend on positions. -/
theorem rulesOfTokens_bare (tokens : List Token) :
    rulesOfTokens (tokens.map Token.bare) = bareOutcome id (rulesOfTokens tokens) := by
  rw [rulesOfTokens, List.length_map]
  exact readRules_bare tokens.length tokens

/-- The term that tokens are does not depend on positions. -/
theorem Term.ofTokens_bare (tokens : List Token) :
    Term.ofTokens (tokens.map Token.bare) = bareOutcome id (Term.ofTokens tokens) := by
  refine bind_bare (readTerm_bare _ _ _) fun read => ?_
  obtain ⟨t, rest⟩ := read
  cases rest <;> rfl

/-! ## Texts -/

/-- A text is a sequence of lexemes, with gaps anywhere. -/
def CutInto (text : String) (lexemes : List Lexeme) : Prop :=
  ∃ found, tokenize text = .ok found ∧ found.map Token.lexeme = lexemes

/-- The complaints about a text that may come: about a stray character, or about a place among the
tokens or at their end. -/
inductive Refusal (text : String) : ParseError → Prop where
  /-- There is a character that starts no lexeme. -/
  | stray {stray : StrayCharacter} (cut : tokens text = .error stray) :
      Refusal text (stray.error text)
  /-- The grammar asks for something else than what comes from some token on. -/
  | mismatch {found : List Token} {mismatch : Mismatch} (cut : tokens text = .ok found)
      (within : mismatch.found <:+ found) : Refusal text (mismatch.error text)

section Texts

variable {text : String}

/-- Lexemes that are written with gaps anywhere are what the text is cut into. -/
theorem CutInto.of_spaced {lexemes : List Lexeme} (spaced : Spaced lexemes text.toList) :
    CutInto text lexemes := by
  obtain ⟨found, cut, spelled⟩ := spaced.tokens
  exact ⟨found, mapError_eq_ok.mpr cut, spelled⟩

/-- The term that a text stands for is the one that has the lexemes of the text. -/
theorem Term.parse_eq_ok {t : Term} :
    Term.parse text = .ok t ↔ t.wellNamed = true ∧ CutInto text t.lexemes := by
  rw [Term.parse]
  constructor
  · intro parsed
    obtain ⟨found, cut, read⟩ := bind_eq_ok.mp parsed
    have lawful := lawful_of_tokens (mapError_eq_ok.mp cut)
    obtain ⟨named, spelled⟩ := (ofTokens_eq_ok lawful).mp (mapError_eq_ok.mp read)
    exact ⟨named, found, cut, spelled⟩
  · rintro ⟨named, found, cut, spelled⟩
    have lawful := lawful_of_tokens (mapError_eq_ok.mp cut)
    have read := (ofTokens_eq_ok lawful).mpr ⟨named, spelled⟩
    exact bind_eq_ok.mpr ⟨found, cut, mapError_eq_ok.mpr read⟩

/-- The program that a text stands for is made of the rules that have the lexemes of the text. -/
theorem Program.parse_eq_ok {program : Program} :
    Program.parse text = .ok program ↔
      ∃ rules, program = .ofRules rules ∧ (∀ rule ∈ rules, rule.wellNamed = true) ∧
        CutInto text (rules.flatMap Rule.lexemes) := by
  rw [Program.parse]
  constructor
  · intro parsed
    obtain ⟨found, cut, parsed⟩ := bind_eq_ok.mp parsed
    obtain ⟨rules, read, made⟩ := bind_eq_ok.mp parsed
    have lawful := lawful_of_tokens (mapError_eq_ok.mp cut)
    obtain ⟨named, spelled⟩ := (rulesOfTokens_eq_ok lawful).mp (mapError_eq_ok.mp read)
    exact ⟨rules, (Except.ok.inj made).symm, named, found, cut, spelled⟩
  · rintro ⟨rules, rfl, named, found, cut, spelled⟩
    have lawful := lawful_of_tokens (mapError_eq_ok.mp cut)
    have read := (rulesOfTokens_eq_ok lawful).mpr ⟨named, spelled⟩
    exact bind_eq_ok.mpr ⟨found, cut, bind_eq_ok.mpr ⟨rules, mapError_eq_ok.mpr read, rfl⟩⟩

/-- A text that stands for no term is refused at one of its places. -/
theorem Term.refusal_of_parse {e : ParseError} (refused : Term.parse text = .error e) :
    Refusal text e := by
  rw [Term.parse, tokenize] at refused
  cases cut : tokens text with
  | error stray =>
    rw [cut] at refused
    obtain rfl := Except.error.inj refused
    exact .stray cut
  | ok found =>
    have within := within_ofTokens found
    rw [cut] at refused
    change (Term.ofTokens found).mapError _ = _ at refused
    cases read : Term.ofTokens found with
    | ok t => simp [read, Except.mapError] at refused
    | error mismatch =>
      rw [read] at refused within
      obtain rfl := Except.error.inj refused
      exact .mismatch cut within

/-- A text that stands for no program is refused at one of its places. -/
theorem Program.refusal_of_parse {e : ParseError} (refused : Program.parse text = .error e) :
    Refusal text e := by
  rw [Program.parse, tokenize] at refused
  cases cut : tokens text with
  | error stray =>
    rw [cut] at refused
    obtain rfl := Except.error.inj refused
    exact .stray cut
  | ok found =>
    have within : Within (fun _ => []) found (rulesOfTokens found) := within_readRules _ _
    rw [cut] at refused
    cases read : rulesOfTokens found with
    | ok rules => simp [read, Except.mapError, bind, Except.bind] at refused
    | error mismatch =>
      rw [read] at within
      simp only [read, Except.mapError, bind, Except.bind, Except.error.injEq] at refused
      obtain rfl := refused
      exact .mismatch cut within

end Texts

/-- What a complaint of the grammar asks for and finds. -/
def Mismatch.problem (mismatch : Mismatch) : ParseProblem :=
  .mismatch mismatch.expected (mismatch.found.head?.map Token.lexeme)

/-- What a complaint asks for and finds does not depend on positions. -/
theorem Mismatch.problem_bare (mismatch : Mismatch) : mismatch.bare.problem = mismatch.problem := by
  rw [problem, problem, bare]
  cases mismatch.found <;> rfl

/-- Tokens with the same lexemes are the same tokens without their positions. -/
theorem map_bare_congr {found found' : List Token}
    (same : found.map Token.lexeme = found'.map Token.lexeme) :
    found.map Token.bare = found'.map Token.bare := by
  have bare : ∀ tokens : List Token,
      tokens.map Token.bare = (tokens.map Token.lexeme).map fun lexeme => ⟨lexeme, 0⟩ := by
    intro tokens
    rw [List.map_map]
    rfl
  rw [bare, bare, same]

/-- A reading that does not depend on positions gives the same result, or complains in the same way,
about tokens with the same lexemes. -/
theorem mapError_problem_congr {α : Type} {read : List Token → Except Mismatch α}
    (free : ∀ tokens, read (tokens.map Token.bare) = bareOutcome id (read tokens))
    {found found' : List Token} (same : found.map Token.lexeme = found'.map Token.lexeme) :
    (read found).mapError Mismatch.problem = (read found').mapError Mismatch.problem := by
  have bare : ∀ outcome : Except Mismatch α,
      (bareOutcome id outcome).mapError Mismatch.problem = outcome.mapError Mismatch.problem := by
    intro outcome
    cases outcome with
    | error mismatch => exact congrArg Except.error mismatch.problem_bare
    | ok a => rfl
  rw [← bare, ← free, map_bare_congr same, free, bare]

section Texts

variable {text other : String} {lexemes : List Lexeme}

/-- Texts with the same lexemes stand for the same term, or are refused for the same reason. -/
theorem Term.parse_congr (cut : CutInto text lexemes) (cut' : CutInto other lexemes) :
    (Term.parse text).mapError ParseError.problem =
      (Term.parse other).mapError ParseError.problem := by
  have parsed : ∀ {text : String} {found : List Token}, tokenize text = .ok found →
      (Term.parse text).mapError ParseError.problem =
        (Term.ofTokens found).mapError Mismatch.problem := by
    intro text found cut
    rw [Term.parse, cut]
    change ((Term.ofTokens found).mapError _).mapError _ = _
    cases Term.ofTokens found <;> rfl
  obtain ⟨found, cut, rfl⟩ := cut
  obtain ⟨found', cut', same⟩ := cut'
  rw [parsed cut, parsed cut', mapError_problem_congr ofTokens_bare same]

/-- Texts with the same lexemes stand for the same program, or are refused for the same reason. -/
theorem Program.parse_congr (cut : CutInto text lexemes) (cut' : CutInto other lexemes) :
    (Program.parse text).mapError ParseError.problem =
      (Program.parse other).mapError ParseError.problem := by
  have parsed : ∀ {text : String} {found : List Token}, tokenize text = .ok found →
      (Program.parse text).mapError ParseError.problem =
        ((rulesOfTokens found).mapError Mismatch.problem).map Program.ofRules := by
    intro text found cut
    rw [Program.parse, cut]
    change Except.mapError _ ((rulesOfTokens found).mapError _ >>= _) = _
    cases rulesOfTokens found <;> rfl
  obtain ⟨found, cut, rfl⟩ := cut
  obtain ⟨found', cut', same⟩ := cut'
  rw [parsed cut, parsed cut', mapError_problem_congr rulesOfTokens_bare same]

end Texts

/-- A text is accepted as a term exactly if its lexemes are those of a term with the right names,
and as a program exactly if they are those of rules with the right names, one after the other. Any
other text is refused, at a stray character or at a place among its tokens or at their end. Nothing
but the lexemes counts, neither for the result nor for the reason of a refusal, and they may be
written with blanks and comments anywhere between them. -/
theorem parse_accepts_exactly (text : String) :
    (∀ t, Term.parse text = .ok t ↔ t.wellNamed = true ∧ CutInto text t.lexemes) ∧
    (∀ rules, (∃ program, Program.parse text = .ok program ∧ program.rules = rules) ↔
      (∀ rule ∈ rules, rule.wellNamed = true) ∧ CutInto text (rules.flatMap Rule.lexemes)) ∧
    ((∃ t, Term.parse text = .ok t) ∨ ∃ e, Term.parse text = .error e ∧ Refusal text e) ∧
    ((∃ program, Program.parse text = .ok program) ∨
      ∃ e, Program.parse text = .error e ∧ Refusal text e) ∧
    (∀ lexemes other, CutInto text lexemes → CutInto other lexemes →
      (Term.parse text).mapError ParseError.problem =
        (Term.parse other).mapError ParseError.problem ∧
      (Program.parse text).mapError ParseError.problem =
        (Program.parse other).mapError ParseError.problem) ∧
    ∀ lexemes, Spaced lexemes text.toList → CutInto text lexemes := by
  refine ⟨fun t => Term.parse_eq_ok, fun rules => ?_, ?_, ?_, fun lexemes other cut cut' => ?_,
    fun lexemes spaced => .of_spaced spaced⟩
  · constructor
    · rintro ⟨program, parsed, rfl⟩
      obtain ⟨rules, rfl, named, cut⟩ := Program.parse_eq_ok.mp parsed
      rw [Program.rules_ofRules]
      exact ⟨named, cut⟩
    · rintro ⟨named, cut⟩
      exact ⟨.ofRules rules, Program.parse_eq_ok.mpr ⟨rules, rfl, named, cut⟩,
        Program.rules_ofRules rules⟩
  · cases parsed : Term.parse text with
    | ok t => exact .inl ⟨t, rfl⟩
    | error e => exact .inr ⟨e, rfl, Term.refusal_of_parse parsed⟩
  · cases parsed : Program.parse text with
    | ok program => exact .inl ⟨program, rfl⟩
    | error e => exact .inr ⟨e, rfl, Program.refusal_of_parse parsed⟩
  · exact ⟨Term.parse_congr cut cut', Program.parse_congr cut cut'⟩

/-- A call without arguments is read with a comment behind it as it is without one; with a
parenthesis too many it is refused. -/
theorem parse_accepts_exactly_commented :
    Spaced (Term.app .fCall "f" []).lexemes "f( ) // call".toList ∧
    CutInto "f()" (Term.app .fCall "f" []).lexemes ∧
    Term.parse "f( ) // call" = .ok (.app .fCall "f" []) ∧
    (Term.parse "f( ) // call").mapError ParseError.problem =
      (Term.parse "f()").mapError ParseError.problem ∧
    ∃ e, Term.parse "f())" = .error e ∧ Refusal "f())" e := by
  have comment : Spaced [] ("//".toList ++ " call".toList) := .lastComment (.inr rfl) (by decide)
  have behind : Spaced [.mark .opening, .mark .closing] "( ) // call".toList :=
    .mark .opening (.blank rfl (.mark .closing (.blank rfl comment)))
  have apart : ∀ c ∈ "( ) // call".toList.head?, Text.isWord c = false := by
    intro c first
    obtain rfl : '(' = c := Option.some.inj first
    rfl
  have spaced : Spaced (Term.app .fCall "f" []).lexemes "f( ) // call".toList :=
    .name rfl apart behind
  have plain : CutInto "f()" (Term.app .fCall "f" []).lexemes := ⟨_, by rfl, rfl⟩
  obtain ⟨isTerm, -, -, -, same, spacing⟩ := parse_accepts_exactly "f( ) // call"
  obtain ⟨-, -, refuses, -⟩ := parse_accepts_exactly "f())"
  have cut := spacing _ spaced
  refine ⟨spaced, plain, (isTerm _).mpr ⟨rfl, cut⟩, (same _ _ cut plain).1, ?_⟩
  rcases refuses with ⟨t, parsed⟩ | refused
  · have unread : (Term.parse "f())").toOption = none := by rfl
    rw [parsed] at unread
    exact absurd unread (Option.some_ne_none t)
  · exact refused

end Supercompilation
