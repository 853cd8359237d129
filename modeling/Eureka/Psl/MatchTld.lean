import Eureka.Bytes
import Eureka.Library.TextSearch

/-!
# Public suffix rules and `match_tld`

`psl::from_data` keeps the lines of a public suffix list that hold a rule,
sorts them by their labels from right to left, and joins them with a NUL.
`psl::match_tld` looks for the public suffix of a domain in that text: it
searches the next longer label suffix of the domain, together with a NUL, and
reads off the rule around the hit.

Positions are natural numbers; `npos` is `none` where a search returns it.

Of `esl::strings` it is assumed that its functions do what their names say:
`split` and `skip_empty` are `listed` and the labels of `rtlCmp`, `trim_left` is
`trimLeft`, and `join`, `starts_with` and `ends_with` are those of lists.
-/

namespace Eureka.Psl

open TextSearch

def dot : Byte := 46

/-- The only character of `rule_delim`. -/
def ruleDelim : Byte := 0

/-! ## `from_data` -/

def skipComment (str : Bytes) : Bool := !(ascii "//").isPrefixOf str

/-- The pieces of the list that `strings::split` keeps. -/
def listed (data : Bytes) : List Bytes :=
  (data.splitOnP fun ch => ch = 13 ∨ ch = 10).filter fun sv => !sv.isEmpty && skipComment sv

/-- `std::lexicographical_compare` on characters, which are signed. -/
def lexicographicalCompare : Bytes → Bytes → Bool
  | _, [] => false
  | [], _ :: _ => true
  | l :: ls, r :: rs =>
      if l.toInt8 < r.toInt8 then true
      else if r.toInt8 < l.toInt8 then false
      else lexicographicalCompare ls rs

/-- The loop of `rtl_cmp`, over the labels from the last one on. -/
def comparePartsRtl : List Bytes → List Bytes → Bool
  | [], _ => true
  | _ :: _, [] => false
  | l :: ls, r :: rs =>
      if lexicographicalCompare l r then true
      else if lexicographicalCompare r l then false
      else comparePartsRtl ls rs

def rtlCmp (lhs rhs : Bytes) : Bool :=
  comparePartsRtl (lhs.splitOn dot).reverse (rhs.splitOn dot).reverse

inductive RuleType
  | normal
  | wildcard
  | exception
  deriving DecidableEq, Repr

/-- `pos + 1`, which is 0 for `npos`. -/
def behind : Option ℕ → ℕ
  | some pos => pos + 1
  | none => 0

/-- Where the label begins that stands in front of the last `size` characters of `domain`. -/
def labelBegin (domain : Bytes) (size : ℕ) : ℕ :=
  let chkPos := domain.length - 1 - size
  let chkPos :=
    if domain[chkPos]? = some dot then
      -- below zero it is `npos`, and `rfind` looks from the end
      if chkPos = 0 then domain.length else chkPos - 1
    else chkPos
  behind (rfind domain dot chkPos)

/-- A view of a character of `domain` on, up to its terminator. -/
def cString (str : Bytes) : Bytes := str.takeWhile (· ≠ 0)

/-- A rule found in the rule data, and where the search goes on. -/
structure Hit where
  type : RuleType
  rule : Bytes
  start : ℕ
  deriving DecidableEq, Repr

/-- The rule without what stands up to its first dot; all of it when it has no dot. -/
def behindFirstDot (rule : Bytes) : Bytes := rule.drop (behind (rule.idxOf? dot))

structure InvalidArgument where
  what : String
  deriving DecidableEq, Repr

end Eureka.Psl

/-!
## The order of the rules

`rtl_cmp` compares the labels of two rules from the last one on, and says at the
end of the left rule that it is less.  It says so also when the right rule ends
with it, so what it decides is not "less" but "at most" (`rtlCmp_iff`), in the
lexicographic order of the labels:

* `rtlCmp_self`: every rule is less than itself;
* `rtlCmp_trans`, `rtlCmp_total`, `rtlCmp_antisymm`: apart from that it orders
  the rules, and different rules rightly.

`rtlCmp_isStrictWeakOrder_iff` says what is left of the laws that `std::sort` asks
for.
-/

namespace Eureka.Psl

/-! ## Labels from right to left -/

/-- The characters of a label, as `char` orders them. -/
def signedLabel (label : Bytes) : List ℤ := label.map fun ch => ch.toInt8.toInt

/-- What `rtl_cmp` orders the rules by. -/
def rtlLabels (rule : Bytes) : List (List ℤ) := (rule.splitOn dot).reverse.map signedLabel

theorem toInt8_injective : Function.Injective fun ch : Byte => ch.toInt8.toInt := by
  intro ch ch' heq
  have hbits := congrArg Int8.toUInt8 (Int8.toInt_inj.mp heq)
  simpa using hbits

theorem signedLabel_injective : Function.Injective signedLabel :=
  List.map_injective_iff.mpr toInt8_injective

theorem rtlLabels_injective : Function.Injective rtlLabels := by
  intro rule rule' heq
  -- the labels are the same, and the rule is what stands between its dots
  have hlabels := List.reverse_injective (List.map_injective_iff.mpr signedLabel_injective heq)
  have hjoined := congrArg [dot].intercalate hlabels
  rwa [List.intercalate_splitOn, List.intercalate_splitOn] at hjoined

theorem lexicographicalCompare_iff (l r : Bytes) :
    lexicographicalCompare l r = true ↔ signedLabel l < signedLabel r := by
  induction l generalizing r with
  | nil =>
      cases r with
      | nil => exact iff_of_false Bool.false_ne_true (lt_irrefl _)
      | cons r rs => exact iff_of_true rfl (List.nil_lt_cons _ _)
  | cons l ls ih =>
      cases r with
      | nil => exact iff_of_false Bool.false_ne_true (List.not_lt_nil _)
      | cons r rs =>
          have hcons : signedLabel (l :: ls) < signedLabel (r :: rs) ↔
              l.toInt8.toInt < r.toInt8.toInt ∨
                l.toInt8.toInt = r.toInt8.toInt ∧ signedLabel ls < signedLabel rs :=
            List.cons_lt_cons_iff
          rw [lexicographicalCompare, hcons]
          simp only [Int8.lt_iff_toInt_lt]
          split
          · next hlt => exact iff_of_true rfl (.inl hlt)
          · next hle =>
            split
            · next hgt =>
              refine iff_of_false Bool.false_ne_true ?_
              rintro (hlt | ⟨heq, -⟩)
              · exact hle hlt
              · exact hgt.ne' heq
            · next hge =>
              rw [ih rs, or_iff_right hle]
              exact (and_iff_right (le_antisymm (not_lt.mp hge) (not_lt.mp hle))).symm

theorem comparePartsRtl_iff (ls rs : List Bytes) :
    comparePartsRtl ls rs = true ↔ ¬ rs.map signedLabel < ls.map signedLabel := by
  induction ls generalizing rs with
  -- the left rule has ended: it counts as less even if the right one has ended, too
  | nil => exact iff_of_true rfl (List.not_lt_nil _)
  | cons l ls ih =>
      cases rs with
      | nil => exact iff_of_false Bool.false_ne_true (not_not.mpr (List.nil_lt_cons _ _))
      | cons r rs =>
          have hcons : (r :: rs).map signedLabel < (l :: ls).map signedLabel ↔
              signedLabel r < signedLabel l ∨
                signedLabel r = signedLabel l ∧ rs.map signedLabel < ls.map signedLabel :=
            List.cons_lt_cons_iff
          rw [comparePartsRtl, hcons]
          simp only [lexicographicalCompare_iff]
          split
          · next hlt =>
            refine iff_of_true rfl ?_
            rintro (hgt | ⟨heq, -⟩)
            · exact lt_asymm hlt hgt
            · exact hlt.ne' heq
          · next hge =>
            split
            · next hgt => exact iff_of_false Bool.false_ne_true (not_not.mpr (.inl hgt))
            · next hle =>
              rw [ih rs, or_iff_right hle]
              have heq : signedLabel r = signedLabel l :=
                le_antisymm (not_lt.mp hge) (not_lt.mp hle)
              exact not_congr (and_iff_right heq).symm

/-- **What `rtl_cmp` decides.** -/
theorem rtlCmp_iff (lhs rhs : Bytes) : rtlCmp lhs rhs = true ↔ rtlLabels lhs ≤ rtlLabels rhs :=
  (comparePartsRtl_iff _ _).trans not_lt

/-! ## The laws -/

theorem rtlCmp_self (rule : Bytes) : rtlCmp rule rule = true := (rtlCmp_iff rule rule).mpr le_rfl

theorem rtlCmp_trans {x y z : Bytes} (hxy : rtlCmp x y = true) (hyz : rtlCmp y z = true) :
    rtlCmp x z = true := by
  rw [rtlCmp_iff] at *
  exact hxy.trans hyz

theorem rtlCmp_total (x y : Bytes) : rtlCmp x y = true ∨ rtlCmp y x = true := by
  rw [rtlCmp_iff, rtlCmp_iff]
  exact le_total _ _

theorem rtlCmp_antisymm {x y : Bytes} (hxy : rtlCmp x y = true) (hyx : rtlCmp y x = true) :
    x = y := by
  rw [rtlCmp_iff] at *
  exact rtlLabels_injective (le_antisymm hxy hyx)

/-- The comparator on the places of a list, where no place is compared with itself. -/
def ComparesPlaces (rules : List Bytes) (i j : Fin rules.length) : Prop :=
  i ≠ j ∧ rtlCmp rules[i] rules[j] = true

theorem comparesPlaces_of_nodup {rules : List Bytes} (hnodup : rules.Nodup) :
    IsStrictWeakOrder (Fin rules.length) (ComparesPlaces rules) := by
  have hinjective := List.nodup_iff_injective_get.mp hnodup
  -- the order is total, so only a place is incomparable with itself
  have hsame : ∀ i j, ¬ ComparesPlaces rules i j ∧ ¬ ComparesPlaces rules j i → i = j := by
    rintro i j ⟨hij, hji⟩
    by_contra hne
    rcases rtlCmp_total rules[i] rules[j] with hcmp | hcmp
    · exact hij ⟨hne, hcmp⟩
    · exact hji ⟨Ne.symm hne, hcmp⟩
  refine { irrefl := fun i h => h.1 rfl, trans := ?_, incomp_trans := ?_ }
  · rintro i j k ⟨hij, hcmp⟩ ⟨-, hcmp'⟩
    refine ⟨?_, rtlCmp_trans hcmp hcmp'⟩
    rintro rfl
    exact hij (hinjective (rtlCmp_antisymm hcmp hcmp'))
  · intro i j k hij hjk
    rw [hsame i j hij]
    exact hjk

/-- **The laws of a strict weak ordering.**  On the rules of a list they fail as soon as there is
a rule, because it is less than itself.  Between different places of the list they hold exactly
when no rule is repeated. -/
theorem rtlCmp_isStrictWeakOrder_iff (rules : List Bytes) :
    (IsStrictWeakOrder {rule // rule ∈ rules} (fun lhs rhs => rtlCmp lhs.1 rhs.1 = true) ↔
        rules = []) ∧
      (IsStrictWeakOrder (Fin rules.length) (ComparesPlaces rules) ↔ rules.Nodup) := by
  constructor
  · constructor
    · intro horder
      cases rules with
      | nil => rfl
      | cons rule rest =>
          exact absurd (rtlCmp_self rule) (horder.irrefl ⟨rule, List.mem_cons_self⟩)
    · rintro rfl
      exact { irrefl := fun rule => nomatch rule.2
              trans := fun rule => nomatch rule.2
              incomp_trans := fun rule => nomatch rule.2 }
  · refine ⟨fun horder => List.nodup_iff_injective_get.mpr fun i j heq => ?_,
      comparesPlaces_of_nodup⟩
    -- two places with one rule are less than each other
    by_contra hne
    have hget : rules[i] = rules[j] := heq
    have hij : ComparesPlaces rules i j := ⟨hne, hget ▸ rtlCmp_self rules[i]⟩
    have hji : ComparesPlaces rules j i := ⟨Ne.symm hne, hget ▸ rtlCmp_self rules[i]⟩
    exact horder.irrefl i (horder.trans i j i hij hji)

/-- A list with the rule `com` twice: each of its two places is less than the other one. -/
theorem repeated_rule :
    listed (ascii "com\ncom") = [ascii "com", ascii "com"] ∧
      ¬ IsStrictWeakOrder {rule // rule ∈ listed (ascii "com\ncom")}
        (fun lhs rhs => rtlCmp lhs.1 rhs.1 = true) := by
  have hlisted : listed (ascii "com\ncom") = [ascii "com", ascii "com"] := by decide
  refine ⟨hlisted, fun horder => horder.irrefl ⟨ascii "com", ?_⟩ (rtlCmp_self _)⟩
  rw [hlisted]
  exact List.mem_cons_self

end Eureka.Psl
