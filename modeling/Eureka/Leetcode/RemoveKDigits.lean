import Eureka.Library.Decimal

/-!
# Removing digits

`removeKdigits` keeps digits on a stack and takes off what is greater than the next one, as long as
digits may still be removed.  A zero that would be the first digit is left out and not counted.

* `exchange`: a digit in front of a smaller one may go, if those before it do not decrease;
* `take_le_of_sublist`: from digits that do not decrease the last ones go;
* `run_spec`: the stack with the zeros that were left out has a least choice of what is ahead;
* `removeKdigits_spec`: the result is the decimal form of the least number.
-/

namespace Eureka.Leetcode.RemoveKDigits

open Decimal

/-! ## The code -/

/-- `int(c)` -/
def int (c : Char) : ℕ := c.toNat - 48

/-- The inner loop, with the top of `bk` in front. -/
def popWhile (c : Char) : ℕ → List Char → ℕ × List Char
  | k, [] => (k, [])
  | k, top :: bk => if k > 0 ∧ int c < int top then popWhile c (k - 1) bk else (k, top :: bk)

/-- One turn of the outer loop. -/
def turn (s : ℕ × List Char) (c : Char) : ℕ × List Char :=
  let (k, bk) := popWhile c s.1 s.2
  (k, if bk ≠ [] ∨ c ≠ '0' then c :: bk else bk)

/-- The last loop. -/
def popRest : ℕ → List Char → List Char
  | _, [] => []
  | k, top :: bk => if k > 0 then popRest (k - 1) bk else top :: bk

def removeKdigits (num : List Char) (k : ℕ) : List Char :=
  let (k, bk) := num.foldl turn (k, [])
  let bk := popRest k bk
  if bk ≠ [] then bk.reverse else ['0']

/-! ## The least choice -/

section Choice

variable {α : Type*} [LinearOrder α] {l s t q : List α} {c x : α} {k : ℕ}

/-- The least sublist that is left when `k` elements go, or as many as there are. -/
structure IsLeastChoice (l : List α) (k : ℕ) (s : List α) : Prop where
  sublist : s.Sublist l
  length : s.length = l.length - k
  least : ∀ t : List α, t.Sublist l → t.length = l.length - k → s ≤ t

theorem append_lt_append_of_lt {t' : List α} (hlt : s < t) (hlength : s.length = t.length)
    (q : List α) : s ++ q < t ++ t' := by
  induction hlt with
  | nil => cases hlength
  | cons _ ih => exact List.cons_lt_cons_iff.mpr (.inr ⟨rfl, ih (Nat.succ.inj hlength)⟩)
  | rel hless => exact List.cons_lt_cons_iff.mpr (.inl hless)

theorem append_le_append_right (hle : s ≤ t) (hlength : s.length = t.length) (q : List α) :
    s ++ q ≤ t ++ q := by
  rcases hle.lt_or_eq with hlt | rfl
  · exact (append_lt_append_of_lt hlt hlength q).le
  · exact le_rfl

theorem append_cons_lt (hlt : c < x) (s t q : List α) : s ++ c :: t < s ++ x :: q :=
  List.append_left_lt (List.cons_lt_cons_iff.mpr (.inl hlt))

/-- **From elements in order** the first ones are the least choice. -/
theorem take_le_of_sublist (hl : l.Pairwise (· ≤ ·)) (ht : t.Sublist l) : l.take t.length ≤ t := by
  induction t generalizing l with
  | nil => exact le_rfl
  | cons z t ih =>
      cases l with
      | nil => cases ht
      | cons y l =>
          obtain ⟨hy, hl⟩ := List.pairwise_cons.mp hl
          have hz : z = y ∨ z ∈ l := List.mem_cons.mp (ht.subset List.mem_cons_self)
          have hyz : y ≤ z := hz.elim (fun heq => heq.ge) (hy z)
          rw [List.length_cons, List.take_succ_cons]
          rcases hyz.lt_or_eq with hlt | rfl
          · exact (List.cons_lt_cons_iff.mpr (.inl hlt)).le
          · exact List.cons_le_cons y (ih hl ht.of_cons_cons)

theorem isLeastChoice_take (hl : 0 < k → l.Pairwise (· ≤ ·)) :
    IsLeastChoice l k (l.take (l.length - k)) where
  sublist := List.take_sublist _ _
  length := List.length_take_of_le (Nat.sub_le _ _)
  least t ht hlength := by
    rcases Nat.eq_zero_or_pos k with rfl | hk
    · rw [Nat.sub_zero] at hlength ⊢
      rw [List.take_length, ht.eq_of_length hlength]
    · rw [← hlength]
      exact take_le_of_sublist (hl hk) ht

/-- **The exchange.**  What is chosen without `x` is no greater. -/
theorem exchange (hs : (s ++ [x]).Pairwise (· ≤ ·)) (hcx : c < x)
    (ht : t.Sublist (s ++ x :: c :: q)) (hlength : t.length ≤ s.length + 1 + q.length) :
    ∃ t', t'.Sublist (s ++ c :: q) ∧ t'.length = t.length ∧ t' ≤ t := by
  obtain ⟨front, back, rfl, hfront, hback⟩ := List.sublist_append_iff.mp ht
  rcases List.sublist_cons_iff.mp hback with hback | ⟨rest, rfl, hrest⟩
  · exact ⟨front ++ back, hfront.append hback, rfl, le_rfl⟩
  · rcases List.sublist_cons_iff.mp hrest with hrest | ⟨rest, rfl, hq⟩
    · -- the smaller element takes the place of `x`
      refine ⟨front ++ c :: rest, hfront.append (hrest.cons_cons c), ?_,
        (append_cons_lt hcx _ _ _).le⟩
      rw [List.length_append, List.length_append, List.length_cons, List.length_cons]
    · rw [List.length_append, List.length_cons, List.length_cons] at hlength ⊢
      rcases Nat.lt_or_ge rest.length q.length with hless | hge
      · -- and there is another one behind it
        refine ⟨front ++ c :: q.take (rest.length + 1),
          hfront.append ((List.take_sublist _ _).cons_cons c), ?_, (append_cons_lt hcx _ _ _).le⟩
        rw [List.length_append, List.length_cons, List.length_take_of_le hless]
      · -- and there is another one in front, where the elements are in order
        obtain rfl : rest = q := hq.eq_of_length (hq.length_le.antisymm hge)
        have hle : (front ++ [x]).length ≤ s.length := by
          rw [List.length_append, List.length_singleton]
          omega
        have htake := take_le_of_sublist hs (hfront.append (List.Sublist.refl [x]))
        rw [List.take_append_of_le_length hle] at htake
        refine ⟨s.take (front ++ [x]).length ++ c :: rest,
          (List.take_sublist _ _).append (List.Sublist.refl _), ?_, ?_⟩
        · rw [List.length_append, List.length_take_of_le hle, List.length_append,
            List.length_singleton, List.length_cons]
          omega
        · rw [List.append_cons front x (c :: rest)]
          exact append_le_append_right htake (List.length_take_of_le hle) _

theorem IsLeastChoice.pop {r : List α} (hs : (s ++ [x]).Pairwise (· ≤ ·)) (hcx : c < x)
    (h : IsLeastChoice (s ++ c :: q) k r) : IsLeastChoice (s ++ x :: c :: q) (k + 1) r := by
  have hsub : (s ++ c :: q).Sublist (s ++ x :: c :: q) :=
    (List.Sublist.refl s).append (List.sublist_cons_self x (c :: q))
  have hlen : (s ++ c :: q).length = s.length + 1 + q.length := by
    rw [List.length_append, List.length_cons]
    omega
  have hlength : (s ++ x :: c :: q).length - (k + 1) = (s ++ c :: q).length - k := by
    rw [hlen, List.length_append, List.length_cons, List.length_cons]
    omega
  refine ⟨h.sublist.trans hsub, h.length.trans hlength.symm, fun t ht htlen => ?_⟩
  obtain ⟨t', ht', hlen', hle⟩ := exchange hs hcx ht (by omega)
  exact (h.least t' ht' (by omega)).trans hle

end Choice

/-! ## The stack -/

variable {num bk q s : List Char} {c : Char} {k z : ℕ}

/-- The stack with the `z` zeros that were left out below it. -/
def kept (z : ℕ) (bk : List Char) : List Char := List.replicate z '0' ++ bk.reverse

theorem kept_cons (z : ℕ) (c : Char) (bk : List Char) : kept z (c :: bk) = kept z bk ++ [c] := by
  rw [kept, kept, List.reverse_cons, List.append_assoc]

theorem kept_succ_nil (z : ℕ) : kept (z + 1) [] = kept z [] ++ ['0'] := by
  rw [kept, kept, List.reverse_nil, List.append_nil, List.append_nil, List.replicate_succ']

theorem int_lt_iff {d : Char} (hc : c.isDigit = true) (hd : d.isDigit = true) :
    int c < int d ↔ c < d := by
  have hcrange := digit_range hc
  have hdrange := digit_range hd
  rw [int, int, digit_lt_iff]
  omega

/-- The stack holds digits, with no zero at the bottom, that do not decrease as long as some may
still be removed. -/
structure Stack (z k : ℕ) (bk : List Char) : Prop where
  digits : IsDigits bk
  bottom : bk.getLast? ≠ some '0'
  sorted : 0 < k → (kept z bk).Pairwise (· ≤ ·)

theorem pairwise_concat {l : List Char} {x : Char} (hl : (l ++ [x]).Pairwise (· ≤ ·)) (hx : x ≤ c) :
    (l ++ [x] ++ [c]).Pairwise (· ≤ ·) := by
  refine List.pairwise_append.mpr ⟨hl, List.pairwise_singleton _ c, fun a ha b hb => ?_⟩
  rw [List.mem_singleton.mp hb]
  rcases List.mem_append.mp ha with ha | ha
  · exact ((List.pairwise_append.mp hl).2.2 a ha x (List.mem_singleton_self x)).trans hx
  · rwa [List.mem_singleton.mp ha]

/-- **The inner loop** takes off what the next digit replaces. -/
theorem popWhile_spec (hc : c.isDigit = true) (h : Stack z k bk) :
    let r := popWhile c k bk
    Stack z r.1 r.2 ∧ (0 < r.1 → (kept z r.2 ++ [c]).Pairwise (· ≤ ·)) ∧
      ∀ q s, IsLeastChoice (kept z r.2 ++ c :: q) r.1 s →
        IsLeastChoice (kept z bk ++ c :: q) k s := by
  induction bk generalizing k with
  | nil =>
      refine ⟨h, fun hk => ?_, fun q s hs => hs⟩
      refine List.pairwise_append.mpr ⟨h.sorted hk, List.pairwise_singleton _ c, ?_⟩
      intro a ha b hb
      have ha : a ∈ List.replicate z '0' ++ [] := ha
      rw [List.append_nil] at ha
      rw [List.mem_singleton.mp hb, List.eq_of_mem_replicate ha]
      exact Char.le_def.mpr (digit_range hc).1
  | cons top bk ih =>
      obtain ⟨htop, hbk⟩ := isDigits_cons.mp h.digits
      rw [popWhile]
      split_ifs with hpop
      · obtain ⟨k, rfl⟩ := Nat.exists_eq_add_of_le' (Nat.one_le_of_lt hpop.1)
        have hsorted := h.sorted hpop.1
        rw [kept_cons] at hsorted
        have hrest : Stack z k bk := by
          refine ⟨hbk, ?_, fun _ => (List.pairwise_append.mp hsorted).1⟩
          cases bk with
          | nil => exact Option.some_ne_none _ ∘ Eq.symm
          | cons d bk => exact h.bottom
        obtain ⟨hstack, hnext, hchoice⟩ := ih hrest
        refine ⟨hstack, hnext, fun q s hs => ?_⟩
        rw [kept_cons, List.append_assoc, List.singleton_append]
        exact (hchoice q s hs).pop hsorted ((int_lt_iff hc htop).mp hpop.2)
      · refine ⟨h, fun hk => ?_, fun q s hs => hs⟩
        have hle : top ≤ c := not_lt.mp fun hlt => hpop ⟨hk, (int_lt_iff hc htop).mpr hlt⟩
        have hsorted := h.sorted hk
        rw [kept_cons] at hsorted ⊢
        exact pairwise_concat hsorted hle

/-- **One turn** takes the next digit to the stack, or to the zeros. -/
theorem turn_spec (hc : c.isDigit = true) (h : Stack z k bk) :
    let r := turn (k, bk) c
    ∃ z', Stack z' r.1 r.2 ∧ ∀ q s, IsLeastChoice (kept z' r.2 ++ q) r.1 s →
      IsLeastChoice (kept z bk ++ c :: q) k s := by
  obtain ⟨hstack, hsorted, hchoice⟩ := popWhile_spec hc h
  rw [turn]
  dsimp only
  generalize popWhile c k bk = r at hstack hsorted hchoice
  split_ifs with hkeep
  · refine ⟨z, ⟨isDigits_cons.mpr ⟨hc, hstack.digits⟩, ?_, ?_⟩, fun q s hs => ?_⟩
    · cases hrest : r.2 with
      | nil =>
          rw [List.getLast?_singleton, ne_eq, Option.some.injEq]
          exact hkeep.resolve_left (not_not.mpr hrest)
      | cons d rest =>
          rw [List.getLast?_cons_cons, ← hrest]
          exact hstack.bottom
    · intro hk
      rw [kept_cons]
      exact hsorted hk
    · rw [kept_cons, List.append_assoc, List.singleton_append] at hs
      exact hchoice q s hs
  · obtain ⟨hnil, rfl⟩ : r.2 = [] ∧ c = '0' := by tauto
    rw [hnil] at hstack hsorted hchoice ⊢
    refine ⟨z + 1, ⟨hstack.digits, hstack.bottom, fun hk => ?_⟩, fun q s hs => ?_⟩
    · rw [kept_succ_nil]
      exact hsorted hk
    · rw [kept_succ_nil, List.append_assoc, List.singleton_append] at hs
      exact hchoice q s hs

theorem popRest_eq_drop (k : ℕ) (bk : List Char) : popRest k bk = bk.drop k := by
  induction bk generalizing k with
  | nil => rw [popRest, List.drop_nil]
  | cons top bk ih =>
      rw [popRest]
      split_ifs with hk
      · obtain ⟨k, rfl⟩ := Nat.exists_eq_add_of_le' (Nat.one_le_of_lt hk)
        rw [Nat.add_sub_cancel, ih, List.drop_succ_cons]
      · rw [Nat.eq_zero_of_not_pos hk, List.drop_zero]

/-- The last loop takes from the stack, and what it would still take are zeros. -/
theorem take_kept (z k : ℕ) (bk : List Char) :
    ∃ z', (kept z bk).take ((kept z bk).length - k) = kept z' (popRest k bk) := by
  have hlength : (kept z bk).length = z + bk.length := by
    rw [kept, List.length_append, List.length_replicate, List.length_reverse]
  refine ⟨min (z + bk.length - k) z, ?_⟩
  rw [hlength, kept, kept, List.take_append, List.take_replicate, List.length_replicate,
    popRest_eq_drop, List.take_reverse]
  congr 2
  rcases Nat.le_total k bk.length with hle | hle
  · congr 1
    omega
  · rw [List.drop_of_length_le hle, List.drop_of_length_le (by omega)]

/-- **The run**, with `q` ahead. -/
theorem run_spec (hq : IsDigits q) (h : Stack z k bk) :
    let r := q.foldl turn (k, bk)
    ∃ z', Stack z' 0 (popRest r.1 r.2) ∧
      IsLeastChoice (kept z bk ++ q) k (kept z' (popRest r.1 r.2)) := by
  induction q generalizing z k bk with
  | nil =>
      obtain ⟨z', hz'⟩ := take_kept z k bk
      refine ⟨z', ⟨?_, ?_, fun hk => absurd hk (lt_irrefl 0)⟩, ?_⟩
      · rw [List.foldl_nil, popRest_eq_drop]
        exact fun c hc => h.digits c (List.mem_of_mem_drop hc)
      · rw [List.foldl_nil, popRest_eq_drop, List.getLast?_drop]
        split_ifs with hall
        · exact Option.some_ne_none _ ∘ Eq.symm
        · exact h.bottom
      · rw [List.append_nil, List.foldl_nil, ← hz']
        exact isLeastChoice_take h.sorted
  | cons c q ih =>
      obtain ⟨hc, hq⟩ := isDigits_cons.mp hq
      obtain ⟨z', hstack, hchoice⟩ := turn_spec hc h
      obtain ⟨z'', hend, hleast⟩ := ih hq hstack
      exact ⟨z'', hend, hchoice q _ hleast⟩

/-! ## The result -/

theorem value_kept (z : ℕ) (bk : List Char) : value (kept z bk) = value bk.reverse := by
  rw [kept]
  induction z with
  | zero => rfl
  | succ z ih =>
      rw [List.replicate_succ, List.cons_append, value_cons, ih, show '0'.toNat - 48 = 0 from rfl,
        Nat.zero_mul, Nat.zero_add]

theorem isDigits_kept (z : ℕ) (hbk : IsDigits bk) : IsDigits (kept z bk) := by
  refine isDigits_append.mpr ⟨fun c hc => ?_, fun c hc => hbk c (List.mem_reverse.mp hc)⟩
  rw [List.eq_of_mem_replicate hc]
  rfl

theorem canonical_reverse (h : Stack z k bk) (hne : bk ≠ []) : Canonical bk.reverse where
  digits c hc := h.digits c (List.mem_reverse.mp hc)
  ne_nil := mt List.reverse_eq_nil_iff.mp hne
  no_zero hhead := by
    rw [List.head?_reverse] at hhead
    exact absurd hhead h.bottom

/-- **The least number** that is left when `k` digits go, or as many as there are. -/
theorem removeKdigits_spec (hnum : IsDigits num) (k : ℕ) :
    ∃ n, IsLeast {v | ∃ s : List Char,
        s.Sublist num ∧ s.length + min k num.length = num.length ∧ value s = v} n ∧
      removeKdigits num k = Nat.toDigits 10 n := by
  have hstart : Stack 0 k [] :=
    ⟨fun c hc => absurd hc List.not_mem_nil, Option.some_ne_none _ ∘ Eq.symm, fun _ => .nil⟩
  obtain ⟨z, hstack, hleast⟩ := run_spec hnum hstart
  rw [removeKdigits]
  dsimp only
  generalize popRest _ _ = bk at hstack hleast
  refine ⟨value bk.reverse, ⟨⟨kept z bk, hleast.sublist, ?_, value_kept z bk⟩, ?_⟩, ?_⟩
  · have hlength := hleast.length
    change _ = num.length - k at hlength
    omega
  · rintro v ⟨t, ht, hlength, rfl⟩
    have htlength : t.length = num.length - k := by omega
    have hle := hleast.least t ht htlength
    rw [← value_kept z bk, ← not_lt, ← lt_iff_value_lt (fun c hc => hnum c (ht.subset hc))
      (isDigits_kept z hstack.digits) (htlength.trans hleast.length.symm)]
    exact not_lt.mpr hle
  · split_ifs with hne
    · rw [toDigits_value (canonical_reverse hstack hne)]
    · rw [not_not.mp hne]
      rfl

theorem removeKdigits_spec_zeros :
    IsDigits "10200".toList ∧ removeKdigits "10200".toList 1 = "200".toList ∧
      ∃ n, IsLeast {v | ∃ s : List Char, s.Sublist "10200".toList ∧
          s.length + min 1 "10200".toList.length = "10200".toList.length ∧ value s = v} n ∧
        removeKdigits "10200".toList 1 = Nat.toDigits 10 n :=
  ⟨by decide, by decide, removeKdigits_spec (by decide) 1⟩

end Eureka.Leetcode.RemoveKDigits
