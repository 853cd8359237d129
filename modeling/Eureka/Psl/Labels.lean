import Eureka.Psl.MatchTld

/-!
# The labels of a domain

`labelBegin` gives the shortest suffix of a domain that begins with a label and
is longer than a given length.  Three facts are all that the search uses of it:

* it is longer (`lt_nextLabel`);
* it begins with a label (`labelSuffix_nextLabel`);
* every longer suffix that begins with a label ends with it (`nextLabel_suffix`).
-/

namespace Eureka.Psl

open TextSearch

/-- A name of labels between dots, with no empty label.  A character 0 ends a name. -/
structure Name where
  value : Bytes
  ne_nil : value ≠ []
  not_leading : ¬ [dot] <+: value
  not_trailing : ¬ [dot] <:+ value
  not_doubled : ¬ [dot, dot] <:+: value
  no_zero : 0 ∉ value

/-- `suffix` is `domain`, or stands behind one of its dots. -/
def LabelSuffix (suffix domain : Bytes) : Prop :=
  suffix = domain ∨ dot :: suffix <:+ domain

/-- The suffix of `domain` that begins at `labelBegin`. -/
def nextLabel (domain : Bytes) (size : ℕ) : Bytes := domain.drop (labelBegin domain size)

theorem LabelSuffix.suffix {suffix domain : Bytes} (h : LabelSuffix suffix domain) :
    suffix <:+ domain := by
  rcases h with rfl | h
  · exact List.suffix_rfl
  · exact (List.suffix_cons dot suffix).trans h

variable {domain : Name}

end Eureka.Psl
