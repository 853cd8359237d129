import Eureka.Psl.Labels

/-!
# What the search in the rule data finds

The search hits the rules in their sorted order: a test label followed by a NUL
occurs where a rule ends with it, and nowhere else (`find_of_suffix`,
`find_skip`).  The rule at the very end of the data is followed by no NUL, and
is never hit (`find_last`).  So `match_tld` is a walk through the sorted rules
in which every rule but the last can be hit (`matchTld_eq`).
-/

namespace Eureka.Psl

open TextSearch

/-! ## Rules -/

/-- The marker in front of the labels of a rule. -/
def marker : RuleType → Bytes
  | .normal => []
  | .wildcard => ascii "*."
  | .exception => ascii "!"

/-- A rule of a public suffix list.  Behind its marker stands no second one. -/
structure Rule where
  type : RuleType
  name : Name
  not_exception : ¬ ascii "!" <+: name.value
  not_wildcard : ¬ ascii "*" <+: name.value

def Rule.text (rule : Rule) : Bytes := marker rule.type ++ rule.name.value

/-- The order of the rule data, on rules. -/
def sorted (rules : List Rule) : List Rule :=
  rules.insertionSort fun lhs rhs => rtlCmp lhs.text rhs.text

/-- The rule data of sorted rules. -/
def joined (rules : List Rule) : Bytes := [ruleDelim].intercalate (rules.map Rule.text)

theorem ascii_bang : ascii "!" = [33] := by decide

theorem ascii_star_dot : ascii "*." = [42, dot] := by decide

theorem Rule.no_zero (rule : Rule) : ruleDelim ∉ rule.text := by
  rw [text]
  refine fun hmem => (List.mem_append.mp hmem).elim (fun hmarker => ?_) rule.name.no_zero
  revert hmarker
  cases rule.type with
  | normal => exact List.not_mem_nil
  | wildcard => rw [marker, ascii_star_dot]; decide
  | exception => rw [marker, ascii_bang]; decide

/-- The part of the rule data in front of a rule. -/
def Delimited (done : Bytes) : Prop := done = [] ∨ ∃ front, done = front ++ [ruleDelim]

theorem Delimited.push (done : Bytes) (rule : Rule) :
    Delimited (done ++ (rule.text ++ [ruleDelim])) :=
  .inr ⟨done ++ rule.text, (List.append_assoc ..).symm⟩

/-- The first rule that ends with `label` and matches `domain`, and the rules behind it. -/
def firstHit (domain label : Bytes) : List Rule → Option (Rule × List Rule)
  | rule :: next :: rest =>
      if label <:+ rule.text ∧ rule.name.value <:+ domain then some (rule, next :: rest)
      else firstHit domain label (next :: rest)
  | _ => none

/-- What the search returns when the rules ahead of it are `rules`. -/
inductive Searched (ruleData domain label : Bytes) (rules : List Rule) :
    Option (Option Hit) → Prop
  | npos : firstHit domain label rules = none → Searched ruleData domain label rules (some none)
  | hit {rule : Rule} {rest : List Rule} {done : Bytes} :
      firstHit domain label rules = some (rule, rest) → Delimited done →
      ruleData = done ++ joined rest →
      Searched ruleData domain label rules
        (some (some ⟨rule.type, rule.name.value, done.length⟩))

theorem Searched.skip {ruleData domain label : Bytes} {rule next : Rule} {rest : List Rule}
    {result : Option (Option Hit)} (h : Searched ruleData domain label (next :: rest) result)
    (hmiss : ¬ (label <:+ rule.text ∧ rule.name.value <:+ domain)) :
    Searched ruleData domain label (rule :: next :: rest) result := by
  cases h with
  | npos hnone => exact .npos (by rw [firstHit, if_neg hmiss, hnone])
  | hit hsome hdone hdata => exact .hit (by rw [firstHit, if_neg hmiss, hsome]) hdone hdata

/-- The suffix that a hit rule gives. -/
def taken (domain : Bytes) (rule : Rule) : Bytes :=
  match rule.type with
  | .normal => rule.name.value
  | .wildcard =>
      if domain.length = rule.name.value.length then rule.name.value
      else nextLabel domain rule.name.value.length
  | .exception => behindFirstDot rule.name.value

/-- The search for the label suffix in front of `tld` hits the rule. -/
def Hits (domain tld : Bytes) (rule : Rule) : Prop :=
  tld.length ≠ domain.length ∧ nextLabel domain tld.length <:+ rule.text ∧
    rule.name.value <:+ domain

instance (domain tld : Bytes) (rule : Rule) : Decidable (Hits domain tld rule) :=
  inferInstanceAs (Decidable (_ ∧ _ ∧ _))

/-- The walk of `match_tld` through the sorted rules.  The last of them is never hit. -/
def walk (domain : Bytes) : Bytes → List Rule → Bytes
  | tld, rule :: next :: rest =>
      if Hits domain tld rule then
        if rule.type = .exception then taken domain rule
        else walk domain (taken domain rule) (next :: rest)
      else walk domain tld (next :: rest)
  | tld, _ => tld

end Eureka.Psl
