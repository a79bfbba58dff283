import Supercompilation.Source.Reader
import Supercompilation.Proofs.Term

/-!
# What the grammar can produce

The grammar has no words for `let` terms, and patterns stand only in the heads of rules. Terms that
are read, and the bodies of rules that are read, are therefore plain.
-/

namespace Supercompilation

/-- A chain of readings succeeds if each of them does. -/
theorem bind_eq_ok {ε α β : Type} {first : Except ε α} {second : α → Except ε β} {b : β} :
    first >>= second = .ok b ↔ ∃ a, first = .ok a ∧ second a = .ok b := by
  cases first with
  | error e => simp [bind, Except.bind]
  | ok a => simp [bind, Except.bind]

/-- Rewording a complaint changes no result. -/
theorem mapError_eq_ok {ε δ α : Type} {outcome : Except ε α} {reword : ε → δ} {a : α} :
    outcome.mapError reword = .ok a ↔ outcome = .ok a := by
  cases outcome with
  | error e => simp [Except.mapError]
  | ok b => simp [Except.mapError]

/-- An open application that becomes a plain term. -/
def OpenCall.Plain (call : OpenCall) : Prop :=
  call.head ≠ .pattern ∧ ∀ t ∈ call.reversed, t.plain = true

namespace OpenCall

/-- Closing a plain application yields a plain term. -/
theorem Plain.close {call : OpenCall} (written : call.Plain) : call.close.plain = true :=
  Term.plain_app.mpr ⟨written.1, fun t member => written.2 t (List.mem_reverse.mp member)⟩

/-- A plain application stays plain with one more plain argument. -/
theorem Plain.push {call : OpenCall} (written : call.Plain) {t : Term} (plain : t.plain = true) :
    (call.push t).Plain := by
  refine ⟨written.1, fun u member => ?_⟩
  rcases List.mem_cons.mp member with rfl | old
  · exact plain
  · exact written.2 u old

/-- An application that has just been opened is plain. -/
theorem Plain.of_head? {name : String} {head : Head} (known : Name.head? name = some head) :
    OpenCall.Plain ⟨head, name, []⟩ := by
  refine ⟨?_, by simp⟩
  rw [Name.head?] at known
  rintro rfl
  grind

end OpenCall

/-- A term that is read inside plain applications is plain. -/
theorem plain_of_readTerm {mode : TermMode} {calls : List OpenCall} {tokens rest : List Token}
    {t : Term} (written : ∀ call ∈ calls, call.Plain)
    (read : readTerm mode calls tokens = .ok (t, rest)) : t.plain = true := by
  -- The closed application becomes an argument of the one around it.
  have pushed : ∀ {call outer : OpenCall} {calls : List OpenCall},
      (∀ c ∈ call :: outer :: calls, c.Plain) →
        ∀ c ∈ outer.push call.close :: calls, c.Plain := by
    intro call outer calls written c member
    rw [List.forall_mem_cons, List.forall_mem_cons] at written
    rcases List.mem_cons.mp member with rfl | old
    · exact written.2.1.push written.1.close
    · exact written.2.2 c old
  have closed : ∀ {call : OpenCall} {after : List Token}, (∀ c ∈ [call], c.Plain) →
      Except.ok (call.close, after) = (.ok (t, rest) : Except Mismatch _) → t.plain = true := by
    intro call after written read
    rw [Except.ok.injEq, Prod.mk.injEq] at read
    exact read.1 ▸ (written call List.mem_cons_self).close
  fun_induction readTerm mode calls tokens with
  | case3 calls token behind comma ih => exact ih written read
  | case5 token behind closing call => exact closed written read
  | case6 token behind closing call outer calls ih => exact ih (pushed written) read
  | case8 token behind closing call => exact closed written read
  | case9 token behind closing call outer calls ih => exact ih (pushed written) read
  | case13 mode calls token name =>
    rw [Except.ok.injEq, Prod.mk.injEq] at read
    exact read.1 ▸ Term.plain_var name
  | case15 mode calls token name _ second behind _ head known _ ih =>
    exact ih (List.forall_mem_cons.mpr ⟨.of_head? known, written⟩) read
  | case18 mode token name =>
    rw [Except.ok.injEq, Prod.mk.injEq] at read
    exact read.1 ▸ Term.plain_var name
  | case19 mode token name _ second behind _ _ call calls _ ih =>
    rw [List.forall_mem_cons] at written
    exact ih (List.forall_mem_cons.mpr ⟨written.1.push (Term.plain_var name), written.2⟩) read
  | _ => contradiction

/-- A term that a text stands for is plain. -/
theorem Term.plain_of_parse {text : String} {t : Term} (parsed : Term.parse text = .ok t) :
    t.plain = true := by
  rw [Term.parse, bind_eq_ok] at parsed
  obtain ⟨found, -, parsed⟩ := parsed
  rw [mapError_eq_ok, Term.ofTokens, bind_eq_ok] at parsed
  obtain ⟨⟨u, rest⟩, read, parsed⟩ := parsed
  simp only at parsed
  split at parsed
  · rw [Except.ok.injEq] at parsed
    exact parsed ▸ plain_of_readTerm (by simp) read
  · contradiction

/-- The body of a rule that is read is plain. -/
theorem plain_of_readBody {tokens rest : List Token} {body : Term}
    (read : readBody tokens = .ok (body, rest)) : body.plain = true := by
  rw [readBody, bind_eq_ok] at read
  obtain ⟨behind, -, read⟩ := read
  rw [bind_eq_ok] at read
  obtain ⟨⟨u, behind⟩, isBody, read⟩ := read
  simp only [bind_eq_ok] at read
  obtain ⟨last, -, read⟩ := read
  rw [Except.ok.injEq, Prod.mk.injEq] at read
  exact read.1 ▸ plain_of_readTerm (by simp) isBody

/-- A rule that is read has a plain body. -/
theorem plain_of_readRule {tokens rest : List Token} {rule : Rule}
    (read : readRule tokens = .ok (rule, rest)) : rule.body.plain = true := by
  cases tokens with
  | nil => simp [readRule] at read
  | cons token behind =>
    rw [readRule] at read
    split at read
    · contradiction
    · split at read
      · simp only [bind_eq_ok] at read
        obtain ⟨_, -, ⟨params, _⟩, -, ⟨body, _⟩, isBody, read⟩ := read
        rw [Except.ok.injEq, Prod.mk.injEq] at read
        exact read.1 ▸ plain_of_readBody isBody
      · split at read
        · simp only [bind_eq_ok] at read
          obtain ⟨_, -, ⟨pattern, _⟩, -, ⟨params, _⟩, -, ⟨body, _⟩, isBody, read⟩ := read
          rw [Except.ok.injEq, Prod.mk.injEq] at read
          exact read.1 ▸ plain_of_readBody isBody
        · contradiction

/-- Rules that are read have plain bodies. -/
theorem plain_of_readRules {count : Nat} {tokens : List Token} {rules : List Rule}
    (read : readRules count tokens = .ok rules) : ∀ rule ∈ rules, rule.body.plain = true := by
  induction count generalizing tokens rules with
  | zero =>
    cases tokens with
    | nil =>
      rw [readRules, Except.ok.injEq] at read
      simp [← read]
    | cons token behind => simp [readRules] at read
  | succ count ih =>
    cases tokens with
    | nil =>
      rw [readRules, Except.ok.injEq] at read
      simp [← read]
    | cons token behind =>
      rw [readRules, bind_eq_ok] at read
      obtain ⟨⟨rule, rest⟩, first, read⟩ := read
      simp only [bind_eq_ok] at read
      obtain ⟨others, later, read⟩ := read
      rw [Except.ok.injEq] at read
      rw [← read, List.forall_mem_cons]
      exact ⟨plain_of_readRule first, ih later⟩

/-- A program that a text stands for is made of rules with plain bodies. -/
theorem Program.exists_rules_of_parse {text : String} {program : Program}
    (parsed : Program.parse text = .ok program) :
    ∃ rules, program = .ofRules rules ∧ ∀ rule ∈ rules, rule.body.plain = true := by
  rw [Program.parse, bind_eq_ok] at parsed
  obtain ⟨found, -, parsed⟩ := parsed
  rw [bind_eq_ok] at parsed
  obtain ⟨rules, read, parsed⟩ := parsed
  rw [mapError_eq_ok] at read
  rw [Except.ok.injEq] at parsed
  exact ⟨rules, parsed.symm, plain_of_readRules read⟩

end Supercompilation
