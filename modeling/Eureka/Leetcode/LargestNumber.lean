import Eureka.Library.Decimal

/-!
# The largest number by concatenation

`largestNumber` sorts decimal strings and joins them.  The comparator goes through both strings; the
shorter one goes on with its first digit, and the concatenations are compared only if that decides
nothing.

* `comp_iff`: the comparator by the padded strings;
* `regular_iff`: strings of which one is the beginning of the other are compared as their
  concatenations under a condition, all others always (`agrees_of_ne`);
* `concat_lt_iff`: the order of concatenations is that of the repeating decimal fractions;
* `value_flatten_le`: the greedy order gives the largest number;
* `largestNumber_iff`: the lists for which the comparator is right.
-/

namespace Eureka.Leetcode.LargestNumber

open Decimal

/-! ## The code -/

/-- The comparator from the positions `l` and `r` on. -/
def walk (lhs rhs : List Char) (l r : ℕ) : Bool :=
  if l < lhs.length ∨ r < rhs.length then
    let le := if l < lhs.length then lhs.getD l '0' else lhs.headD '0'
    let re := if r < rhs.length then rhs.getD r '0' else rhs.headD '0'
    if le > re then true
    else if le < re then false
    else walk lhs rhs (if l < lhs.length then l + 1 else l) (if r < rhs.length then r + 1 else r)
  else
    let s1 := lhs ++ rhs
    let s2 := rhs ++ lhs
    s1 > s2
termination_by (lhs.length - l) + (rhs.length - r)
decreasing_by split_ifs <;> omega

def comp (lhs rhs : List Char) : Bool := walk lhs rhs 0 0

/-- What `std::sort` may leave. -/
def SortsTo (ss ss' : List (List Char)) : Prop :=
  ss'.Perm ss ∧ ss'.Pairwise fun a b => comp b a = false

def strings (nums : List ℕ) : List (List Char) := nums.map (Nat.toDigits 10)

/-- The strings one after the other. -/
def joined (ss : List (List Char)) : List Char :=
  let num := ss.flatten
  if num.length > 1 ∧ num.head? = some '0' then ['0'] else num

/-- `largestNumber` may return this string, by some outcome of the sort. -/
def Returns (nums : List ℕ) (num : List Char) : Prop :=
  ∃ ss, SortsTo (strings nums) ss ∧ num = joined ss

/-! ## What is promised -/

/-- The comparator agrees with comparing the concatenations. -/
def Agrees (s t : List Char) : Prop := comp s t = true ↔ t ++ s < s ++ t

structure StrictWeakOn (ss : List (List Char)) : Prop where
  irrefl : ∀ s ∈ ss, comp s s = false
  trans : ∀ s ∈ ss, ∀ t ∈ ss, ∀ u ∈ ss, comp s t = true → comp t u = true → comp s u = true
  incomparable : ∀ s ∈ ss, ∀ t ∈ ss, ∀ u ∈ ss, comp s t = false → comp t s = false →
    comp t u = false → comp u t = false → comp s u = false ∧ comp u s = false

/-- The largest number that the strings form in some order. -/
def IsLargest (ss : List (List Char)) (n : ℕ) : Prop :=
  (∃ p : List (List Char), p.Perm ss ∧ value p.flatten = n) ∧
    ∀ p : List (List Char), p.Perm ss → value p.flatten ≤ n

structure Meets (nums : List ℕ) : Prop where
  agrees : ∀ s ∈ strings nums, ∀ t ∈ strings nums, Agrees s t
  weakOrder : StrictWeakOn (strings nums)
  returns : ∃ num, Returns nums num
  largest : ∀ num, Returns nums num →
    ∃ n, IsLargest (strings nums) n ∧ num = Nat.toDigits 10 n

/-- A string and what follows it in a longer one: the digits that follow decide against
repetitions of the first digit as the concatenations do. -/
def Regular (s z : List Char) : Prop :=
  z = List.replicate z.length (s.headD '0') ∨
    (z < List.replicate z.length (s.headD '0') ∧ z ++ s < s ++ z) ∨
    (List.replicate z.length (s.headD '0') < z ∧ s ++ z < z ++ s)

/-! ## The comparator -/

variable {s t z p : List Char}

/-- A string that goes on with its first digit. -/
def pad (s : List Char) (n : ℕ) : List Char := s ++ List.replicate (n - s.length) (s.headD '0')

theorem length_pad {n : ℕ} (hn : s.length ≤ n) : (pad s n).length = n := by
  rw [pad, List.length_append, List.length_replicate, Nat.add_sub_cancel' hn]

theorem getElem?_pad {i n : ℕ} (hi : i < n) :
    (pad s n)[i]? = some (if i < s.length then s.getD i '0' else s.headD '0') := by
  rw [pad]
  split_ifs with hlt
  · rw [List.getElem?_append_left hlt, List.getD_eq_getElem?_getD, List.getElem?_eq_getElem hlt,
      Option.getD_some]
  · rw [List.getElem?_append_right (Nat.not_lt.mp hlt), List.getElem?_replicate,
      if_pos (by omega)]

theorem drop_pad {i n : ℕ} (hs : s.length ≤ n) (hi : i < n) : (pad s n).drop i =
    (if i < s.length then s.getD i '0' else s.headD '0') :: (pad s n).drop (i + 1) := by
  have hlt : i < (pad s n).length := by rwa [length_pad hs]
  have hget := getElem?_pad (s := s) hi
  rw [List.getElem?_eq_getElem hlt] at hget
  rw [List.drop_eq_getElem_cons hlt, Option.some.inj hget]

/-- The two positions stay together until the shorter string ends. -/
theorem walk_iff {n : ℕ} (hs : s.length ≤ n) (ht : t.length ≤ n) (i : ℕ) (hin : i ≤ n)
    (hn : n ≤ max s.length t.length) :
    walk s t (min i s.length) (min i t.length) = true ↔
      (pad t n).drop i < (pad s n).drop i ∨
        (pad s n).drop i = (pad t n).drop i ∧ t ++ s < s ++ t := by
  induction hk : n - i generalizing i with
  | zero =>
      obtain rfl : i = n := by omega
      have hend : ¬ (min i s.length < s.length ∨ min i t.length < t.length) := by omega
      rw [walk, if_neg hend, List.drop_of_length_le (length_pad hs).le,
        List.drop_of_length_le (length_pad ht).le, or_iff_right (List.lt_irrefl []),
        and_iff_right rfl]
      exact decide_eq_true_iff
  | succ k ih =>
      have hi : i < n := by omega
      have hnext := ih (i + 1) hi (by omega)
      have hless : min i s.length < s.length ∨ min i t.length < t.length := by omega
      have hstep (u : List Char) :
          (if min i u.length < u.length then min i u.length + 1 else min i u.length) =
            min (i + 1) u.length := by
        split_ifs <;> omega
      have hchar (u : List Char) :
          (if min i u.length < u.length then u.getD (min i u.length) '0' else u.headD '0') =
            if i < u.length then u.getD i '0' else u.headD '0' := by
        by_cases hlt : i < u.length
        · rw [min_eq_left hlt.le]
        · rw [min_eq_right (Nat.not_lt.mp hlt), if_neg (Nat.lt_irrefl _), if_neg hlt]
      rw [walk, if_pos hless]
      simp only [hstep, hchar]
      rw [drop_pad hs hi, drop_pad ht hi, List.cons_lt_cons_iff, List.cons.injEq]
      generalize (if i < s.length then s.getD i '0' else s.headD '0') = le
      generalize (if i < t.length then t.getD i '0' else t.headD '0') = re
      rcases lt_trichotomy le re with hlt | rfl | hgt
      · rw [if_neg hlt.asymm, if_pos hlt]
        refine iff_of_false Bool.false_ne_true ?_
        rintro ((hgt | ⟨rfl, -⟩) | ⟨⟨rfl, -⟩, -⟩)
        · exact hlt.asymm hgt
        · exact lt_irrefl _ hlt
        · exact lt_irrefl _ hlt
      · rw [if_neg (lt_irrefl le), if_neg (lt_irrefl le), hnext, or_iff_right (lt_irrefl le),
          and_iff_right rfl, and_iff_right rfl]
      · rw [if_pos hgt]
        exact iff_of_true rfl (.inl (.inl hgt))

/-- **The comparator** compares the padded strings first. -/
theorem comp_iff (s t : List Char) :
    comp s t = true ↔
      pad t (max s.length t.length) < pad s (max s.length t.length) ∨
        pad s (max s.length t.length) = pad t (max s.length t.length) ∧ t ++ s < s ++ t := by
  have hwalk := walk_iff (le_max_left s.length t.length) (le_max_right s.length t.length) 0
    (Nat.zero_le _) le_rfl
  rwa [Nat.zero_min, Nat.zero_min] at hwalk

theorem append_lt_append_iff (p : List Char) : p ++ s < p ++ t ↔ s < t := by
  induction p with
  | nil => rfl
  | cons c p ih =>
      rw [List.cons_append, List.cons_append, List.cons_lt_cons_iff, or_iff_right (lt_irrefl c),
        and_iff_right rfl, ih]

/-- Strings that differ at some place are compared there. -/
theorem agrees_of_ne {c d : Char} (hne : c ≠ d) (s t : List Char) :
    Agrees (p ++ c :: s) (p ++ d :: t) := by
  have hhead (u v : List Char) : p ++ d :: u < p ++ c :: v ↔ d < c := by
    rw [append_lt_append_iff, List.cons_lt_cons_iff, or_iff_left]
    rintro ⟨rfl, -⟩
    exact hne rfl
  rw [Agrees, comp_iff]
  simp only [pad, List.append_assoc, List.cons_append]
  rw [hhead, hhead, or_iff_left]
  rintro ⟨heq, -⟩
  exact hne (List.cons.inj (List.append_cancel_left heq)).1

theorem pad_append (s z : List Char) :
    pad s (s ++ z).length = s ++ List.replicate z.length (s.headD '0') := by
  rw [pad, List.length_append, Nat.add_sub_cancel_left]

theorem pad_self (s : List Char) : pad s s.length = s := by
  rw [pad, Nat.sub_self, List.replicate_zero, List.append_nil]

theorem comp_append (s z : List Char) :
    (comp s (s ++ z) = true ↔ z < List.replicate z.length (s.headD '0') ∨
        z = List.replicate z.length (s.headD '0') ∧ z ++ s < s ++ z) ∧
      (comp (s ++ z) s = true ↔ List.replicate z.length (s.headD '0') < z ∨
        z = List.replicate z.length (s.headD '0') ∧ s ++ z < z ++ s) := by
  have hle : s.length ≤ (s ++ z).length := by
    rw [List.length_append]
    exact Nat.le_add_right _ _
  constructor
  · rw [comp_iff, max_eq_right hle, pad_append, pad_self, append_lt_append_iff,
      List.append_right_inj, List.append_assoc, append_lt_append_iff, eq_comm]
  · rw [comp_iff, max_eq_left hle, pad_append, pad_self, append_lt_append_iff,
      List.append_right_inj, List.append_assoc, append_lt_append_iff]

theorem regular_iff (s z : List Char) :
    Regular s z ↔ Agrees s (s ++ z) ∧ Agrees (s ++ z) s := by
  obtain ⟨hshort, hlong⟩ := comp_append s z
  rw [Regular, Agrees, Agrees, hshort, hlong, List.append_assoc, append_lt_append_iff,
    append_lt_append_iff]
  rcases lt_trichotomy z (List.replicate z.length (s.headD '0')) with hlt | heq | hgt
  · have hne := hlt.ne
    simp only [hlt, hne, hlt.asymm, false_or, true_and, false_and, or_false, true_iff, false_iff]
    exact ⟨fun h => ⟨h, h.asymm⟩, And.left⟩
  · rw [← heq]
    simp
  · have hne := hgt.ne'
    simp only [hgt, hne, hgt.asymm, false_or, true_and, false_and, or_false, true_iff, false_iff]
    exact ⟨fun h => ⟨h.asymm, h⟩, And.right⟩

theorem exists_prefix (s t : List Char) : (∃ z, t = s ++ z) ∨ (∃ z, s = t ++ z) ∨
    ∃ p c d s' t', c ≠ d ∧ s = p ++ c :: s' ∧ t = p ++ d :: t' := by
  induction s generalizing t with
  | nil => exact .inl ⟨t, rfl⟩
  | cons c s ih =>
      cases t with
      | nil => exact .inr (.inl ⟨c :: s, rfl⟩)
      | cons d t =>
          by_cases heq : c = d
          · subst heq
            rcases ih t with ⟨z, rfl⟩ | ⟨z, rfl⟩ | ⟨p, c', d', s', t', hne, rfl, rfl⟩
            · exact .inl ⟨z, rfl⟩
            · exact .inr (.inl ⟨z, rfl⟩)
            · exact .inr (.inr ⟨c :: p, c', d', s', t', hne, rfl, rfl⟩)
          · exact .inr (.inr ⟨[], c, d, s, t, heq, rfl, rfl⟩)

theorem agrees_iff (ss : List (List Char)) :
    (∀ s ∈ ss, ∀ t ∈ ss, Agrees s t) ↔ ∀ s ∈ ss, ∀ z, s ++ z ∈ ss → Regular s z := by
  constructor
  · exact fun h s hs z hz => (regular_iff s z).mpr ⟨h s hs _ hz, h _ hz s hs⟩
  · intro h s hs t ht
    rcases exists_prefix s t with ⟨z, rfl⟩ | ⟨z, rfl⟩ | ⟨p, c, d, s', t', hne, rfl, rfl⟩
    · exact ((regular_iff s z).mp (h s hs z ht)).1
    · exact ((regular_iff t z).mp (h t ht z hs)).2
    · exact agrees_of_ne hne s' t'

/-! ## The order of concatenations -/

/-- The value of a string as the period of a decimal fraction. -/
def key (s : List Char) : ℚ := value s / (10 ^ s.length - 1)

variable {a b : List Char} {ss ss' : List (List Char)}

theorem period_pos (h : Canonical s) : (0 : ℚ) < 10 ^ s.length - 1 := by
  have hone : (1 : ℚ) < 10 ^ s.length :=
    one_lt_pow₀ (by norm_num) (List.length_pos_iff.mpr h.ne_nil).ne'
  exact sub_pos.mpr hone

/-- **The order of concatenations** is an order of single strings. -/
theorem concat_lt_iff (hs : Canonical s) (ht : Canonical t) : t ++ s < s ++ t ↔ key t < key s := by
  have hlength : (t ++ s).length = (s ++ t).length := by
    rw [List.length_append, List.length_append, Nat.add_comm]
  have hcross : key t < key s ↔
      (value t : ℚ) * (10 ^ s.length - 1) < value s * (10 ^ t.length - 1) :=
    div_lt_div_iff₀ (period_pos ht) (period_pos hs)
  rw [lt_iff_value_lt (isDigits_append.mpr ⟨ht.digits, hs.digits⟩)
    (isDigits_append.mpr ⟨hs.digits, ht.digits⟩) hlength, value_append, value_append, hcross,
    ← Nat.cast_lt (α := ℚ)]
  push_cast
  constructor
  · intro h
    linarith
  · intro h
    linarith

theorem value_swap (ha : Canonical a) (hb : Canonical b) (h : key b ≤ key a) :
    value (b ++ a) ≤ value (a ++ b) := by
  have hnot := mt (concat_lt_iff hb ha).mp (not_lt.mpr h)
  rw [lt_iff_value_lt (isDigits_append.mpr ⟨ha.digits, hb.digits⟩)
    (isDigits_append.mpr ⟨hb.digits, ha.digits⟩)
    (by rw [List.length_append, List.length_append, Nat.add_comm])] at hnot
  exact not_lt.mp hnot

theorem value_move (ha : Canonical a) (hss : ∀ b ∈ ss, Canonical b ∧ key b ≤ key a) :
    value (ss.flatten ++ a) ≤ value (a ++ ss.flatten) := by
  induction ss with
  | nil => rw [List.flatten_nil, List.nil_append, List.append_nil]
  | cons b ss ih =>
      obtain ⟨⟨hb, hkey⟩, hrest⟩ := List.forall_mem_cons.mp hss
      have hlength : (ss.flatten ++ a).length = (a ++ ss.flatten).length := by
        rw [List.length_append, List.length_append, Nat.add_comm]
      calc
        value ((b :: ss).flatten ++ a) = value (b ++ (ss.flatten ++ a)) := by
          rw [List.flatten_cons, List.append_assoc]
        _ = value b * 10 ^ (ss.flatten ++ a).length + value (ss.flatten ++ a) := value_append _ _
        _ ≤ value b * 10 ^ (a ++ ss.flatten).length + value (a ++ ss.flatten) := by
          rw [hlength]
          exact Nat.add_le_add_left (ih hrest) _
        _ = value (b ++ a) * 10 ^ ss.flatten.length + value ss.flatten := by
          rw [← value_append, ← List.append_assoc, value_append]
        _ ≤ value (a ++ b) * 10 ^ ss.flatten.length + value ss.flatten :=
          Nat.add_le_add_right (Nat.mul_le_mul_right _ (value_swap ha hb hkey)) _
        _ = value (a ++ (b :: ss).flatten) := by
          rw [← value_append, List.append_assoc, List.flatten_cons]

/-- **The greedy order is the best one**, by induction on it: in any other order the first
string is moved to the front. -/
theorem value_flatten_le (hss : ∀ s ∈ ss, Canonical s)
    (hsorted : ss.Pairwise fun a b => key b ≤ key a) (hperm : ss'.Perm ss) :
    value ss'.flatten ≤ value ss.flatten := by
  induction ss generalizing ss' with
  | nil => rw [hperm.eq_nil]
  | cons a ss ih =>
      obtain ⟨ha, hrest⟩ := List.forall_mem_cons.mp hss
      obtain ⟨hlargest, hsorted⟩ := List.pairwise_cons.mp hsorted
      obtain ⟨front, back, rfl⟩ := List.append_of_mem (hperm.mem_iff.mpr List.mem_cons_self)
      have hperm' : (front ++ back).Perm ss :=
        List.Perm.cons_inv (List.perm_middle.symm.trans hperm)
      have hfront : ∀ b ∈ front, Canonical b ∧ key b ≤ key a := by
        intro b hb
        have hmem := hperm'.mem_iff.mp (List.mem_append_left back hb)
        exact ⟨hrest b hmem, hlargest b hmem⟩
      have hlength : (front ++ back).flatten.length = ss.flatten.length :=
        hperm'.flatten.length_eq
      calc
        value (front ++ a :: back).flatten
            = value (front.flatten ++ a) * 10 ^ back.flatten.length + value back.flatten := by
          rw [← value_append, List.flatten_append, List.flatten_cons, List.append_assoc]
        _ ≤ value (a ++ front.flatten) * 10 ^ back.flatten.length + value back.flatten :=
          Nat.add_le_add_right (Nat.mul_le_mul_right _ (value_move ha hfront)) _
        _ = value a * 10 ^ (front ++ back).flatten.length + value (front ++ back).flatten := by
          rw [← value_append, ← value_append, List.flatten_append, List.append_assoc]
        _ ≤ value a * 10 ^ ss.flatten.length + value ss.flatten := by
          rw [hlength]
          exact Nat.add_le_add_left (ih hrest hsorted hperm') _
        _ = value (a :: ss).flatten := by rw [← value_append, List.flatten_cons]

/-! ## The result -/

theorem canonical_of_mem {nums : List ℕ} (hs : s ∈ strings nums) : Canonical s := by
  obtain ⟨n, -, rfl⟩ := List.mem_map.mp hs
  exact toDigits_canonical n

theorem value_flatten_eq_zero (h : ∀ s ∈ ss, value s = 0) : value ss.flatten = 0 := by
  induction ss with
  | nil => rfl
  | cons s ss ih =>
      obtain ⟨hs, hrest⟩ := List.forall_mem_cons.mp h
      rw [List.flatten_cons, value_append, hs, ih hrest, Nat.zero_mul]

theorem value_eq_zero (hss : ∀ s ∈ ss, Canonical s)
    (hsorted : ss.Pairwise fun a b => key b ≤ key a) (hhead : ss.flatten.head? = some '0') :
    value ss.flatten = 0 := by
  cases ss with
  | nil => rfl
  | cons a ss =>
      obtain ⟨ha, hrest⟩ := List.forall_mem_cons.mp hss
      have hzero : a = ['0'] := by
        apply ha.no_zero
        rw [List.flatten_cons, List.head?_append_of_ne_nil _ ha.ne_nil] at hhead
        exact hhead
      have hkey : key a = 0 := by
        rw [hzero, key]
        exact zero_div _
      have hall : ∀ b ∈ a :: ss, value b = 0 := by
        refine List.forall_mem_cons.mpr ⟨by rw [hzero]; rfl, fun b hb => ?_⟩
        have hle : key b ≤ 0 := hkey ▸ (List.pairwise_cons.mp hsorted).1 b hb
        have hvalue : (value b : ℚ) ≤ 0 := by
          have hmul := mul_le_mul_of_nonneg_right hle (period_pos (hrest b hb)).le
          rwa [key, div_mul_cancel₀ _ (period_pos (hrest b hb)).ne', zero_mul] at hmul
        exact_mod_cast le_antisymm hvalue (Nat.cast_nonneg _)
      exact value_flatten_eq_zero hall

theorem joined_eq (hss : ∀ s ∈ ss, Canonical s) (hne : ss ≠ [])
    (hsorted : ss.Pairwise fun a b => key b ≤ key a) :
    joined ss = Nat.toDigits 10 (value ss.flatten) := by
  have hdigits : IsDigits ss.flatten := by
    intro c hc
    obtain ⟨s, hs, hc⟩ := List.mem_flatten.mp hc
    exact (hss s hs).digits c hc
  have hnonempty : ss.flatten ≠ [] := by
    obtain ⟨s, ss, rfl⟩ := List.exists_cons_of_ne_nil hne
    exact List.append_ne_nil_of_left_ne_nil (hss s List.mem_cons_self).ne_nil _
  rw [joined]
  by_cases hzero : ss.flatten.length > 1 ∧ ss.flatten.head? = some '0'
  · rw [if_pos hzero, value_eq_zero hss hsorted hzero.2]
    rfl
  · rw [if_neg hzero]
    refine (toDigits_value ⟨hdigits, hnonempty, fun hhead => ?_⟩).symm
    have hpos := List.length_pos_iff.mpr hnonempty
    have hlength : ss.flatten.length = 1 := by
      have hle := not_lt.mp fun hlt => hzero ⟨hlt, hhead⟩
      omega
    obtain ⟨c, hc⟩ := List.length_eq_one_iff.mp hlength
    rw [hc] at hhead ⊢
    rw [Option.some.inj hhead]

/-- **The lists for which the comparator is right.** -/
theorem largestNumber_iff {nums : List ℕ} (hne : nums ≠ []) :
    Meets nums ↔ ∀ s ∈ strings nums, ∀ z, s ++ z ∈ strings nums → Regular s z := by
  rw [← agrees_iff]
  refine ⟨Meets.agrees, fun hagrees => ?_⟩
  have hcanonical : ∀ s ∈ strings nums, Canonical s := fun _ hs => canonical_of_mem hs
  have hkey : ∀ s ∈ strings nums, ∀ t ∈ strings nums, comp s t = true ↔ key t < key s :=
    fun s hs t ht => (hagrees s hs t ht).trans (concat_lt_iff (hcanonical s hs) (hcanonical t ht))
  have hnot : ∀ s ∈ strings nums, ∀ t ∈ strings nums, comp s t = false ↔ key s ≤ key t := by
    intro s hs t ht
    rw [← not_lt, ← hkey s hs t ht, Bool.not_eq_true]
  have hsort {ss : List (List Char)} (h : SortsTo (strings nums) ss) :
      ss.Pairwise fun a b => key b ≤ key a :=
    h.2.imp_of_mem fun ha hb hcomp =>
      (hnot _ (h.1.mem_iff.mp hb) _ (h.1.mem_iff.mp ha)).mp hcomp
  refine ⟨hagrees, ⟨?_, ?_, ?_⟩, ?_, ?_⟩
  · exact fun s hs => (hnot s hs s hs).mpr le_rfl
  · intro s hs t ht u hu hst htu
    rw [hkey s hs t ht] at hst
    rw [hkey t ht u hu] at htu
    exact (hkey s hs u hu).mpr (htu.trans hst)
  · intro s hs t ht u hu hst hts htu hut
    rw [hnot s hs t ht] at hst
    rw [hnot t ht s hs] at hts
    rw [hnot t ht u hu] at htu
    rw [hnot u hu t ht] at hut
    exact ⟨(hnot s hs u hu).mpr (hst.trans htu), (hnot u hu s hs).mpr (hut.trans hts)⟩
  · have hperm := List.mergeSort_perm (strings nums) fun a b => decide (key b ≤ key a)
    have hpairwise : ((strings nums).mergeSort fun a b => decide (key b ≤ key a)).Pairwise
        fun a b => decide (key b ≤ key a) = true :=
      List.pairwise_mergeSort
        (fun a b c hab hbc => decide_eq_true
          ((of_decide_eq_true hbc).trans (of_decide_eq_true hab)))
        (fun a b => by simpa using le_total (key b) (key a)) (strings nums)
    refine ⟨_, _, ⟨hperm, hpairwise.imp_of_mem fun ha hb hle => ?_⟩, rfl⟩
    exact (hnot _ (hperm.mem_iff.mp hb) _ (hperm.mem_iff.mp ha)).mpr (of_decide_eq_true hle)
  · rintro num ⟨ss, hss, rfl⟩
    have hcanonical' : ∀ s ∈ ss, Canonical s := fun s hs => hcanonical s (hss.1.mem_iff.mp hs)
    have hne' : ss ≠ [] := by
      rintro rfl
      exact hne (List.map_eq_nil_iff.mp hss.1.nil_eq.symm)
    refine ⟨_, ⟨⟨ss, hss.1, rfl⟩, fun p hp => ?_⟩, joined_eq hcanonical' hne' (hsort hss)⟩
    exact value_flatten_le hcanonical' (hsort hss) (hp.trans hss.1.symm)

theorem largestNumber_iff_zero_behind : Meets [3, 30] := by
  refine (largestNumber_iff (by decide)).mpr fun s hs z hz => ?_
  have hstrings : strings [3, 30] = [['3'], ['3', '0']] := by decide
  rw [hstrings] at hs hz
  simp only [List.mem_cons, List.not_mem_nil, or_false] at hs
  rcases hs with rfl | rfl
  · simp at hz
    rcases hz with rfl | rfl
    · exact .inl rfl
    · exact .inr (.inl ⟨by decide, by decide⟩)
  · simp at hz
    exact .inl (by rw [hz]; rfl)

/-- The padded strings are compared where the concatenations are not yet. -/
theorem not_largestNumber :
    Returns [21, 21213] ['2', '1', '2', '1', '2', '1', '3'] ∧
      ¬ IsLargest (strings [21, 21213]) (value ['2', '1', '2', '1', '2', '1', '3']) ∧
      comp ['2', '1'] ['2', '1', '2', '1', '3'] = true ∧
      ¬ ['2', '1', '2', '1', '3'] ++ ['2', '1'] < ['2', '1'] ++ ['2', '1', '2', '1', '3'] := by
  have hstrings : strings [21, 21213] = [['2', '1'], ['2', '1', '2', '1', '3']] := by decide
  have hcomp : comp ['2', '1', '2', '1', '3'] ['2', '1'] = false := by
    rw [← Bool.not_eq_true, comp_iff]
    decide
  refine ⟨⟨[['2', '1'], ['2', '1', '2', '1', '3']], ⟨?_, ?_⟩, rfl⟩, ?_, ?_, by decide⟩
  · rw [hstrings]
  · simpa using hcomp
  · rintro ⟨-, hlargest⟩
    have hle := hlargest [['2', '1', '2', '1', '3'], ['2', '1']]
      (hstrings ▸ List.Perm.swap _ _ _)
    exact absurd hle (by decide)
  · rw [comp_iff]
    decide

end Eureka.Leetcode.LargestNumber
