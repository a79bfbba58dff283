import Supercompilation.Proofs.RoundTrip
import Supercompilation.Proofs.Spelling

/-!
# Texts of nodes can be told apart

The text of a term goes on with whatever stands behind it in the line of a node, and nothing marks
its end. `Legible` says that something is nevertheless told by what is written for it, and the place
where it ends as well, as long as what stands behind it is of a certain form. Lists are legible if
their items are, and if what follows the list does not look like one more item.

Names hold no marks, so they end at the first mark. From there terms, contractions and lines are
legible one after another. A line says at which level a node stands, and which term and contraction
it holds.
-/

namespace Supercompilation

variable {α γ : Type}

/-- What is written for something tells it, among all that is good, and tells where it ends, in
front of all that may follow. -/
def Legible (write : α → List γ) (good : α → Prop) (follows : List γ → Prop) (a : α) : Prop :=
  ∀ ⦃b : α⦄ ⦃rest rest' : List γ⦄, good a → good b → follows rest → follows rest' →
    write a ++ rest = write b ++ rest' → a = b ∧ rest = rest'

/-- Something of one class ends where the first thing of no such class stands. -/
theorem append_inj_of_forall {inside : γ → Prop} {xs ys rest rest' : List γ}
    (all : ∀ c ∈ xs, inside c) (all' : ∀ c ∈ ys, inside c)
    (apart : ∀ c ∈ rest.head?, ¬ inside c) (apart' : ∀ c ∈ rest'.head?, ¬ inside c)
    (same : xs ++ rest = ys ++ rest') : xs = ys ∧ rest = rest' := by
  induction xs generalizing ys with
  | nil =>
    cases ys with
    | nil => exact ⟨rfl, same⟩
    | cons y ys =>
      rw [List.nil_append] at same
      exact absurd (all' y List.mem_cons_self) (apart y (by rw [same]; rfl))
  | cons x xs ih =>
    cases ys with
    | nil =>
      rw [List.nil_append] at same
      exact absurd (all x List.mem_cons_self) (apart' x (by rw [← same]; rfl))
    | cons y ys =>
      obtain ⟨rfl, behind⟩ := List.cons.inj same
      rw [List.forall_mem_cons] at all all'
      obtain ⟨rfl, ended⟩ := ih all.2 all'.2 behind
      exact ⟨rfl, ended⟩

/-- Something is as legible with the same in front of it. -/
theorem Legible.prefixed {write : α → List γ} {good : α → Prop} {follows : List γ → Prop} {a : α}
    (legible : Legible write good follows a) (front : List γ) :
    Legible (fun a => front ++ write a) good follows a := by
  intro b rest rest' good good' ended ended' same
  rw [List.append_assoc, List.append_assoc] at same
  exact legible good good' ended ended' (List.append_cancel_left same)

/-- What ends a list of items does not look like one more of them, and both may follow an item. -/
structure Divides (write : α → List γ) (good : α → Prop) (follows ends : List γ → Prop) :
    Prop where
  /-- The end may follow an item. -/
  last : ∀ rest, ends rest → follows rest
  /-- One more item may follow an item. -/
  next : ∀ a rest, good a → follows (write a ++ rest)
  /-- One more item is no end. -/
  goesOn : ∀ a rest, good a → ¬ ends (write a ++ rest)

section Lists

variable {write : α → List γ} {good : α → Prop} {follows ends : List γ → Prop}

/-- Items, and the end behind them, may follow an item. -/
theorem Divides.follows_flatMap (divides : Divides write good follows ends) {as : List α}
    (each : ∀ a ∈ as, good a) {rest : List γ} (ended : ends rest) :
    follows (as.flatMap write ++ rest) := by
  cases as with
  | nil => exact divides.last rest ended
  | cons a as =>
    rw [List.flatMap_cons, List.append_assoc]
    exact divides.next a _ (each a List.mem_cons_self)

/-- Items one after another are legible if each of them is. -/
theorem legible_flatMap (divides : Divides write good follows ends) {as : List α}
    (each : ∀ a ∈ as, Legible write good follows a) :
    Legible (List.flatMap write) (fun as => ∀ a ∈ as, good a) ends as := by
  induction as with
  | nil =>
    intro bs rest rest' _ goods ended _ same
    cases bs with
    | nil => exact ⟨rfl, same⟩
    | cons b bs =>
      rw [List.flatMap_nil, List.nil_append, List.flatMap_cons, List.append_assoc] at same
      exact absurd (same ▸ ended) (divides.goesOn b _ (goods b List.mem_cons_self))
  | cons a as ih =>
    intro bs rest rest' goods goods' ended ended' same
    rw [List.forall_mem_cons] at each goods
    cases bs with
    | nil =>
      rw [List.flatMap_nil, List.nil_append, List.flatMap_cons, List.append_assoc] at same
      exact absurd (same ▸ ended') (divides.goesOn a _ goods.1)
    | cons b bs =>
      rw [List.forall_mem_cons] at goods'
      rw [List.flatMap_cons, List.flatMap_cons, List.append_assoc, List.append_assoc] at same
      obtain ⟨rfl, behind⟩ := each.1 goods.1 goods'.1 (divides.follows_flatMap goods.2 ended)
        (divides.follows_flatMap goods'.2 ended') same
      obtain ⟨rfl, left⟩ := ih each.2 goods.2 goods'.2 ended ended' behind
      exact ⟨rfl, left⟩

end Lists

section Joined

variable {text : α → String} {good : α → Prop} {follows ends : List Char → Prop} {sep : String}

/-- The first text has no separator before it, the others are items that start with it. -/
theorem toList_joined_cons (text : α → String) (a : α) (as : List α) :
    (Text.joined sep ((a :: as).map text)).toList =
      (text a).toList ++ as.flatMap fun a => sep.toList ++ (text a).toList := by
  rw [List.map_cons, Text.joined, Text.toList_followed, List.flatMap_map]

/-- Texts with a separator between neighbours are legible if each of them is, if what ends the list
does not look like the separator with one more text, and if it does not look like a text. -/
theorem legible_joined
    (divides : Divides (fun a => sep.toList ++ (text a).toList) good follows ends)
    (starts : ∀ a rest, good a → ¬ ends ((text a).toList ++ rest)) {as : List α}
    (each : ∀ a ∈ as, Legible (fun a => (text a).toList) good follows a) :
    Legible (fun as : List α => (Text.joined sep (as.map text)).toList)
      (fun as => ∀ a ∈ as, good a) ends as := by
  intro bs rest rest' goods goods' ended ended' same
  dsimp only at same
  cases as with
  | nil =>
    cases bs with
    | nil => exact ⟨rfl, same⟩
    | cons b bs =>
      rw [toList_joined_cons, List.append_assoc] at same
      have none : rest = _ := same
      exact absurd (none ▸ ended) (starts b _ (goods' b List.mem_cons_self))
  | cons a as =>
    rw [List.forall_mem_cons] at goods each
    cases bs with
    | nil =>
      rw [toList_joined_cons, List.append_assoc] at same
      have none : rest' = _ := same.symm
      exact absurd (none ▸ ended') (starts a _ goods.1)
    | cons b bs =>
      rw [List.forall_mem_cons] at goods'
      rw [toList_joined_cons, toList_joined_cons, List.append_assoc, List.append_assoc] at same
      obtain ⟨rfl, behind⟩ := each.1 goods.1 goods'.1 (divides.follows_flatMap goods.2 ended)
        (divides.follows_flatMap goods'.2 ended') same
      obtain ⟨rfl, left⟩ := legible_flatMap divides
        (fun a member => (each.2 a member).prefixed sep.toList) goods.2 goods'.2 ended ended' behind
      exact ⟨rfl, left⟩

end Joined

/-- What may follow a name: a mark, or nothing. -/
def Text.EndsName (rest : List Char) : Prop := ∀ c ∈ rest.head?, c ∈ marks

/-- What may follow a term: a mark other than an opening parenthesis, or nothing. -/
def Text.EndsTerm (rest : List Char) : Prop := ∀ c ∈ rest.head?, c ∈ marks ∧ c ≠ '('

/-- What may follow a line: a line feed, or nothing. -/
def Text.EndsLine (rest : List Char) : Prop := ∀ c ∈ rest.head?, c = '\n'

/-- What may follow a term may follow a name. -/
theorem Text.EndsTerm.endsName {rest : List Char} (ended : EndsTerm rest) : EndsName rest :=
  fun c first => (ended c first).1

/-- A mark and whatever follows it may follow a name. -/
theorem Text.endsName_cons {c : Char} (mark : c ∈ marks) (rest : List Char) :
    EndsName (c :: rest) := by
  intro d first
  exact Option.some.inj first ▸ mark

/-- A mark other than an opening parenthesis, and whatever follows it, may follow a term. -/
theorem Text.endsTerm_cons {c : Char} (mark : c ∈ marks) (noCall : c ≠ '(') (rest : List Char) :
    EndsTerm (c :: rest) := by
  intro d first
  exact Option.some.inj first ▸ ⟨mark, noCall⟩

/-- Unbroken names are legible. -/
theorem legible_name (name : String) :
    Legible String.toList Name.Unbroken Text.EndsName name := by
  intro other rest rest' unbroken unbroken' ended ended' same
  obtain ⟨characters, same⟩ := append_inj_of_forall unbroken.unmarked unbroken'.unmarked
    (fun c first => not_not.mpr (ended c first)) (fun c first => not_not.mpr (ended' c first)) same
  exact ⟨String.toList_inj.mp characters, same⟩

/-- A text that starts with an unbroken name. -/
def Text.Named (text : String) : Prop :=
  ∃ name behind, Name.Unbroken name ∧ text.toList = name.toList ++ behind

/-- A text that starts with an unbroken name does not start with a mark. -/
theorem Text.Named.head?_ne {text : String} (named : Named text) {c : Char} (mark : c ∈ marks)
    (rest : List Char) : (text.toList ++ rest).head? ≠ some c := by
  obtain ⟨name, behind, unbroken, starts⟩ := named
  intro first
  rw [starts, List.append_assoc, List.head?_append_of_ne_nil _ unbroken.nonempty] at first
  exact unbroken.unmarked c (List.mem_of_head? first) mark

/-- Texts with commas between neighbours, in front of a mark that is neither a comma nor an opening
parenthesis, are legible if each of them is and starts with a name. -/
theorem legible_listed {text : α → String} {good : α → Prop} {close : Char}
    (mark : close ∈ Text.marks) (noCall : close ≠ '(') (noComma : close ≠ ',')
    (starts : ∀ a, good a → Text.Named (text a)) {as : List α}
    (each : ∀ a ∈ as, Legible (fun a => (text a).toList) good Text.EndsTerm a) :
    Legible (fun as : List α => (Text.joined ", " (as.map text)).toList)
      (fun as => ∀ a ∈ as, good a) (fun rest => rest.head? = some close) as := by
  refine legible_joined ⟨?_, ?_, ?_⟩ ?_ each
  · intro rest ended c first
    rw [ended] at first
    exact Option.some.inj first ▸ ⟨mark, noCall⟩
  · exact fun a rest _ => Text.endsTerm_cons (by decide) (by decide) _
  · exact fun a rest _ ended => noComma (Option.some.inj ended).symm
  · exact fun a rest good => (starts a good).head?_ne mark rest

namespace Term

/-- A term without patterns and `let` terms whose names are in order. -/
def Plainly (t : Term) : Prop := t.plain = true ∧ t.Spelled

/-- The arguments of such an application are such terms. -/
theorem Plainly.args {head : Head} {name : String} {args : List Term}
    (good : (app head name args).Plainly) : ∀ t ∈ args, t.Plainly :=
  fun t member => ⟨(plain_app.mp good.1).2 t member, (spelled_app.mp good.2).2 t member⟩

/-- The name of such an application is unbroken. -/
theorem Plainly.unbroken {head : Head} {name : String} {args : List Term}
    (good : (app head name args).Plainly) : Name.Unbroken name :=
  Name.unbroken_of_lawful (Name.lawful_of_admits (spelled_app.mp good.2).1)

/-- The text of such a term starts with a name. -/
theorem Plainly.named {t : Term} (good : t.Plainly) : Text.Named t.text := by
  cases t with
  | var x => exact ⟨x, [], spelled_var.mp good.2, by rw [text, List.append_nil]⟩
  | app head name args => exact ⟨name, _, good.unbroken, by rw [text, toList_callText]⟩
  | letIn body bindings => exact absurd good.1 (by simp)

/-- A variable is not written like an application. -/
theorem text_var_ne_app {x name : String} {head : Head} {args : List Term}
    (unbroken : Name.Unbroken x) (unbroken' : Name.Unbroken name) {rest rest' : List Char}
    (ended : Text.EndsTerm rest) :
    (var x).text.toList ++ rest ≠ (app head name args).text.toList ++ rest' := by
  intro same
  rw [text, text, toList_callText, List.append_assoc, List.cons_append] at same
  obtain ⟨-, behind⟩ := legible_name x unbroken unbroken' ended.endsName
    (Text.endsName_cons (by decide) _) same
  exact (ended '(' (by rw [behind]; rfl)).2 rfl

/-- Plain terms whose names are in order are legible. -/
theorem legible_text (t : Term) :
    Legible (fun t : Term => t.text.toList) Plainly Text.EndsTerm t := by
  induction t with
  | letIn body bindings => exact fun u _ _ good => absurd good.1 (by simp)
  | var x =>
    intro u rest rest' good good' ended ended' same
    cases u with
    | letIn body bindings => exact absurd good'.1 (by simp)
    | app head name args =>
      exact absurd same (text_var_ne_app (spelled_var.mp good.2) good'.unbroken ended)
    | var y =>
      dsimp only at same
      rw [text, text] at same
      obtain ⟨rfl, behind⟩ := legible_name x (spelled_var.mp good.2) (spelled_var.mp good'.2)
        ended.endsName ended'.endsName same
      exact ⟨rfl, behind⟩
  | app head name args ih =>
    intro u rest rest' good good' ended ended' same
    cases u with
    | letIn body bindings => exact absurd good'.1 (by simp)
    | var y =>
      exact absurd same.symm (text_var_ne_app (spelled_var.mp good'.2) good.unbroken ended')
    | app head' name' args' =>
      simp only [text, textArgs_eq_map, toList_callText, List.append_assoc, List.cons_append,
        List.nil_append] at same
      obtain ⟨rfl, behind⟩ := legible_name name good.unbroken good'.unbroken
        (Text.endsName_cons (by decide) _) (Text.endsName_cons (by decide) _) same
      obtain ⟨rfl, left⟩ := legible_listed (by decide) (by decide) (by decide)
        (fun t good => good.named) ih good.args good'.args rfl rfl (List.cons.inj behind).2
      have sameHead := Head.eq_of_admits (spelled_app.mp good.2).1 (spelled_app.mp good'.2).1
      exact ⟨by rw [sameHead], (List.cons.inj left).2⟩

/-- The text of a binding. -/
def bindingText (binding : String × Term) : String := binding.1 ++ "=" ++ binding.2.text

/-- The texts of bindings are those of each of them. -/
theorem textBindings_eq_map (bindings : List (String × Term)) :
    textBindings bindings = bindings.map bindingText := by
  induction bindings with
  | nil => rfl
  | cons binding rest ih => rw [textBindings, ih, List.map_cons, bindingText]

/-- A binding of an unbroken name to a term that is told by its text. -/
def PlainlyBound (binding : String × Term) : Prop :=
  Name.Unbroken binding.1 ∧ binding.2.Plainly

/-- Such a binding starts with its name. -/
theorem PlainlyBound.named {binding : String × Term} (good : PlainlyBound binding) :
    Text.Named (bindingText binding) :=
  ⟨binding.1, _, good.1, by rw [bindingText, String.append_assoc, String.toList_append]⟩

/-- Bindings are legible. -/
theorem legible_binding (binding : String × Term) :
    Legible (fun binding => (bindingText binding).toList) PlainlyBound Text.EndsTerm binding := by
  obtain ⟨name, t⟩ := binding
  rintro ⟨name', u⟩ rest rest' good good' ended ended' same
  simp only [bindingText, String.toList_append, List.append_assoc] at same
  obtain ⟨rfl, behind⟩ := legible_name name good.1 good'.1 (Text.endsName_cons (by decide) _)
    (Text.endsName_cons (by decide) _) same
  obtain ⟨rfl, left⟩ := legible_text t good.2 good'.2 ended ended' (List.cons.inj behind).2
  exact ⟨rfl, left⟩

/-- A term that a node holds, with names in order. -/
def Told (t : Term) : Prop := t.Shallow ∧ t.Spelled

/-- What may follow the term of a node: a contraction in braces, a new line, or nothing. -/
def Ends (rest : List Char) : Prop :=
  Text.EndsLine rest ∨ ∃ behind, rest = ' ' :: ' ' :: '\x7b' :: behind

/-- What may follow the term of a node may follow a term. -/
theorem Ends.endsTerm {rest : List Char} (ended : Ends rest) : Text.EndsTerm rest := by
  rcases ended with last | ⟨behind, rfl⟩
  · intro c first
    rw [last c first]
    decide
  · exact Text.endsTerm_cons (by decide) (by decide) _

/-- The parts of a `let` term that a node holds. -/
theorem Told.parts {body : Term} {bindings : List (String × Term)}
    (good : (letIn body bindings).Told) :
    body.Plainly ∧ ∀ binding ∈ bindings, PlainlyBound binding := by
  obtain ⟨⟨plainBody, shallow⟩, spelled⟩ := good
  obtain ⟨inBody, each⟩ := spelled_letIn.mp spelled
  refine ⟨⟨plainBody, inBody⟩, fun binding member => ?_⟩
  obtain ⟨bound, plainValue⟩ := shallow binding member
  exact ⟨inBody.unbroken binding.1 bound, plainValue, each binding member⟩

/-- The characters of a `let` term. -/
theorem toList_text_letIn (body : Term) (bindings : List (String × Term)) :
    (letIn body bindings).text.toList =
      "let".toList ++ ' ' :: ((Text.joined ", " (bindings.map bindingText)).toList ++
        ' ' :: 'i' :: 'n' :: ' ' :: body.text.toList) := by
  simp [text, textBindings_eq_map]

/-- A `let` term is not written like a plain term, although a variable may be named like the word in
front of it. -/
theorem text_letIn_ne_plain {body t : Term} {bindings : List (String × Term)}
    (good : (letIn body bindings).Told) (good' : t.Plainly) {rest rest' : List Char}
    (ended : Ends rest') :
    (letIn body bindings).text.toList ++ rest ≠ t.text.toList ++ rest' := by
  intro same
  have word : Name.Unbroken "let" := Name.unbroken_of_lawful rfl
  rw [toList_text_letIn, List.append_assoc, List.cons_append] at same
  cases t with
  | letIn body bindings => exact absurd good'.1 (by simp)
  | app head name args =>
    rw [text, toList_callText, List.append_assoc, List.append_assoc, List.cons_append] at same
    obtain ⟨-, behind⟩ := legible_name "let" word good'.unbroken
      (Text.endsName_cons (c := ' ') (by decide) _)
      (Text.endsName_cons (c := Mark.opening.char) (by decide) _) same
    exact absurd (List.cons.inj behind).1 (by decide)
  | var x =>
    rw [text] at same
    obtain ⟨-, behind⟩ := legible_name "let" word (spelled_var.mp good'.2)
      (Text.endsName_cons (by decide) _) ended.endsTerm.endsName same
    rcases ended with last | ⟨further, rfl⟩
    · rw [← behind] at last
      exact absurd (last ' ' rfl) (by decide)
    · -- Behind the blank stands a binding or the blank of the word behind the bindings.
      have second := (List.cons.inj behind).2
      cases bindings with
      | nil =>
        exact absurd (List.cons.inj (List.cons.inj second).2).1 (by decide)
      | cons binding bindings =>
        rw [toList_joined_cons, List.append_assoc, List.append_assoc] at second
        have named := (good.parts.2 binding List.mem_cons_self).named
        exact named.head?_ne (c := ' ') (by decide) _ (congrArg List.head? second)

/-- What a node holds is a `let` term or plain. -/
theorem Told.cases {t : Term} (good : t.Told) :
    (∃ body bindings, t = letIn body bindings) ∨ t.Plainly := by
  cases t with
  | letIn body bindings => exact .inl ⟨body, bindings, rfl⟩
  | var x => exact .inr good
  | app head name args => exact .inr good

/-- The terms that nodes hold are legible. -/
theorem legible_text_told (t : Term) : Legible (fun t : Term => t.text.toList) Told Ends t := by
  intro u rest rest' good good' ended ended' same
  rcases good.cases with ⟨body, bindings, rfl⟩ | plainly
  · rcases good'.cases with ⟨body', bindings', rfl⟩ | plainly'
    · simp only [toList_text_letIn, List.append_assoc, List.cons_append] at same
      have behind := (List.cons.inj (List.append_cancel_left same)).2
      obtain ⟨rfl, further⟩ := legible_listed (by decide) (by decide) (by decide)
        (fun binding good => good.named) (fun binding _ => legible_binding binding) good.parts.2
        good'.parts.2 rfl rfl behind
      have inBody : body.text.toList ++ rest = body'.text.toList ++ rest' := by
        simpa using further
      obtain ⟨rfl, left⟩ := legible_text body good.parts.1 good'.parts.1 ended.endsTerm
        ended'.endsTerm inBody
      exact ⟨rfl, left⟩
    · exact absurd same (text_letIn_ne_plain good plainly' ended')
  · rcases good'.cases with ⟨body', bindings', rfl⟩ | plainly'
    · exact absurd same.symm (text_letIn_ne_plain good' plainly ended)
    · exact legible_text t plainly plainly' ended.endsTerm ended'.endsTerm same

end Term

namespace Contraction

/-- A contraction that is there is written like a branch of its constructor. -/
theorem Spelled.exists_ctor {contraction : Contraction} (good : contraction.Spelled) :
    ∃ name args, contraction.pattern = .pattern name args ∧ (Term.ctor name args).Plainly := by
  obtain ⟨name, fields, shape, admits, unbroken⟩ := good.pattern
  refine ⟨name, fields.map .var, shape, Term.plain_app.mpr ⟨by simp, ?_⟩,
    Term.spelled_app.mpr ⟨admits, ?_⟩⟩
  · rw [List.forall_mem_map]
    exact fun x _ => Term.plain_var x
  · rw [List.forall_mem_map]
    exact fun x member => Term.spelled_var.mpr (unbroken x member)

/-- What stands behind the term in the line of a node. -/
def suffix : Option Contraction → String
  | none => ""
  | some contraction => "  \x7b" ++ contraction.text ++ "\x7d"

/-- The characters of a contraction in the line of a node. -/
theorem toList_suffix_some (contraction : Contraction) :
    (suffix (some contraction)).toList =
      ' ' :: ' ' :: '\x7b' :: (contraction.var.toList ++ ' ' :: '=' :: ' ' ::
        (contraction.pattern.text.toList ++ ['\x7d'])) := by
  simp [suffix, Contraction.text]

/-- A contraction that is there does not look like the end of a line. -/
theorem suffix_some_ne (contraction : Contraction) {rest rest' : List Char}
    (ended : Text.EndsLine rest') : (suffix (some contraction)).toList ++ rest ≠ rest' := by
  rw [toList_suffix_some]
  rintro rfl
  exact absurd (ended ' ' rfl) (by decide)

/-- Where a line ends, a contraction or its absence is legible. -/
theorem legible_suffix (contraction : Option Contraction) :
    Legible (fun contraction => (suffix contraction).toList)
      (fun contraction => ∀ given, contraction = some given → given.Spelled) Text.EndsLine
      contraction := by
  intro contraction' rest rest' good good' ended ended' same
  cases contraction with
  | none =>
    cases contraction' with
    | none => exact ⟨rfl, same⟩
    | some given' => exact absurd same.symm (suffix_some_ne given' ended)
  | some given =>
    cases contraction' with
    | none => exact absurd same (suffix_some_ne given ended')
    | some given' =>
      obtain ⟨x, pattern⟩ := given
      obtain ⟨x', pattern'⟩ := given'
      have spelled := good _ rfl
      have spelled' := good' _ rfl
      obtain ⟨name, args, rfl, plainly⟩ := spelled.exists_ctor
      obtain ⟨name', args', rfl, plainly'⟩ := spelled'.exists_ctor
      simp only [toList_suffix_some, List.cons_append, List.append_assoc, List.cons.injEq,
        true_and] at same
      obtain ⟨rfl, behind⟩ := legible_name x spelled.unbroken spelled'.unbroken
        (Text.endsName_cons (by decide) _) (Text.endsName_cons (by decide) _) same
      have patterns : (Term.ctor name args).text.toList ++ '\x7d' :: rest =
          (Term.ctor name' args').text.toList ++ '\x7d' :: rest' := by
        simpa [Term.text] using behind
      obtain ⟨same, left⟩ := Term.legible_text _ plainly plainly'
        (Text.endsTerm_cons (by decide) (by decide) _)
        (Text.endsTerm_cons (by decide) (by decide) _) patterns
      obtain ⟨-, rfl, rfl⟩ := Term.app.inj same
      exact ⟨rfl, (List.cons.inj left).2⟩

end Contraction

/-- What a line tells: a level, and the term and the contraction of a node. -/
abbrev TreeEntry := Nat × Branch

namespace TreeEntry

/-- The line of an entry. -/
def text (entry : TreeEntry) : String :=
  ProcessTree.line "" entry.1 ⟨entry.2.term, entry.2.contraction, none, []⟩

/-- An entry that is told by its line. -/
def Told (entry : TreeEntry) : Prop := entry.2.term.Shallow ∧ entry.2.Spelled

/-- The characters of a line. -/
theorem toList_text (entry : TreeEntry) :
    entry.text.toList = List.replicate (4 * entry.1) ' ' ++ '|' :: '_' :: '_' ::
      (entry.2.term.text.toList ++ (Contraction.suffix entry.2.contraction).toList) := by
  obtain ⟨level, term, contraction⟩ := entry
  cases contraction <;> simp [text, ProcessTree.line, Contraction.suffix]

/-- Behind the term of a node stands its contraction, or the line ends. -/
theorem ends_suffix (contraction : Option Contraction) {rest : List Char}
    (ended : Text.EndsLine rest) :
    Term.Ends ((Contraction.suffix contraction).toList ++ rest) := by
  cases contraction with
  | none => exact .inl ended
  | some given => exact .inr ⟨_, by rw [Contraction.toList_suffix_some]; rfl⟩

/-- Lines are legible. -/
theorem legible_text (entry : TreeEntry) :
    Legible (fun entry => (text entry).toList) Told Text.EndsLine entry := by
  obtain ⟨level, term, contraction⟩ := entry
  rintro ⟨level', term', contraction'⟩ rest rest' good good' ended ended' same
  simp only [toList_text, List.append_assoc, List.cons_append] at same
  -- The first character that is no blank ends the indentation.
  have blank : ∀ (n : Nat), ∀ c ∈ List.replicate n ' ', c = ' ' :=
    fun _ _ member => List.eq_of_mem_replicate member
  obtain ⟨indented, behind⟩ := append_inj_of_forall (blank _) (blank _) (by simp) (by simp) same
  have levels : level = level' := by
    have lengths := congrArg List.length indented
    rw [List.length_replicate, List.length_replicate] at lengths
    omega
  simp only [List.cons.injEq, true_and] at behind
  obtain ⟨rfl, further⟩ := Term.legible_text_told term ⟨good.1, good.2.term⟩
    ⟨good'.1, good'.2.term⟩ (ends_suffix _ ended) (ends_suffix _ ended') behind
  obtain ⟨rfl, left⟩ := Contraction.legible_suffix contraction good.2.contraction
    good'.2.contraction ended ended' further
  exact ⟨by rw [levels], left⟩

/-- A line is not empty. -/
theorem text_append_ne_nil (entry : TreeEntry) (rest : List Char) :
    (text entry).toList ++ rest ≠ [] := by
  rw [toList_text]
  simp

/-- The text of some lines, one per entry, tells the entries. -/
theorem eq_of_joined {entries entries' : List TreeEntry} (good : ∀ entry ∈ entries, entry.Told)
    (good' : ∀ entry ∈ entries', entry.Told)
    (same : Text.joined "\n " (entries.map text) = Text.joined "\n " (entries'.map text)) :
    entries = entries' := by
  have divides : Divides (fun entry => "\n ".toList ++ (text entry).toList) Told Text.EndsLine
      (· = []) := by
    refine ⟨?_, fun entry rest _ => ?_, fun entry rest _ => ?_⟩
    · rintro _ rfl
      simp [Text.EndsLine]
    · simp [Text.EndsLine]
    · simp
  have each : ∀ entry ∈ entries,
      Legible (fun entry => (text entry).toList) Told Text.EndsLine entry :=
    fun entry _ => legible_text entry
  have legible := legible_joined divides (fun entry rest _ => text_append_ne_nil entry rest) each
  refine (legible good good' rfl rfl ?_).1
  rw [List.append_nil, List.append_nil]
  exact congrArg String.toList same

end TreeEntry

end Supercompilation
