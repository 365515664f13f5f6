import Heddle.Proofs.Document.Sole

/-!
# Chains of selectors in front of a block and of an arrow

A chain of selectors begins two kinds of statements, a rule with a block behind it and a call with
an arrow behind it.

Both read the same chain: what is a chain in front of a block might be expected to be one in front
of an arrow. That fails at a flag, since a colon behind a name is also the sign of an assignment,
and the look for an assignment does not know of arrows.
-/

set_option autoImplicit false

namespace Heddle

/-- The chains of selectors among the children. -/
def Node.chains (n : Node) : List Node := n.nodes.filter (·.kind == .selectorChain)

/-- In front of a block the text is one chain of selectors. Flags that belong to the rule itself
would be data of the rule, and are excluded. -/
def Heads (o : Options) (text : String) (chain : Node) : Prop :=
  ∃ rule, (Parsed.ofSource o (text ++ " \x7b \x7d")).sole? = some rule ∧ rule.kind = .rule ∧
    rule.chains = [chain] ∧ (.punctuation, ":") ∉ rule.data

/-- In front of an arrow and a call the text is one chain of selectors. -/
def Calls (o : Options) (text : String) (chain : Node) : Prop :=
  ∃ call, (Parsed.ofSource o (text ++ " -> f();")).sole? = some call ∧
    call.kind = .selectorCall ∧ call.chains = [chain]

/-- A flag on the first selector makes an assignment of the call. -/
theorem not_heads_calls : ¬ ∀ (o : Options) (text : String) (chain : Node),
    Heads o text chain → Calls o text chain := by
  intro h
  have hrule : ((Parsed.ofSource {} ("a:b" ++ " \x7b \x7d")).sole?.any fun rule =>
      rule.kind == .rule && rule.chains.length == 1 && !rule.data.contains (.punctuation, ":")) =
        true := by
    cbv
  obtain ⟨rule, hsole, hr⟩ := (Option.any_eq_true _ _).1 hrule
  simp only [Bool.and_eq_true, beq_iff_eq, Bool.not_eq_true', List.length_eq_one_iff] at hr
  obtain ⟨⟨hkind, chain, hchain⟩, hcolon⟩ := hr
  obtain ⟨call, hcall, -⟩ := h {} "a:b" chain ⟨rule, hsole, hkind, hchain, by simpa using hcolon⟩
  have hnone : (Parsed.ofSource {} ("a:b" ++ " -> f();")).sole? = none := by cbv
  rw [hnone] at hcall
  cases hcall

end Heddle
