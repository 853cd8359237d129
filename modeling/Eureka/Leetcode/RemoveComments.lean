import Eureka.Library.TextSearch
import Eureka.Library.WhileLoop

/-!
# Comments are removed

`removeComments` joins the lines and erases one comment after the other.  The reference reads the
text from left to right, with a mode.

* `scan_line_eq`, `scan_block_eq`: the reference looks for the end of a comment too;
* `Removed`: in front of the position stands what the reference has left of the text so far, behind
  it stands an end of the text that the reference reads as code;
* `removeComments_eq`: the lines that are left, if the cursor stays an `int`.
-/

namespace Eureka.Leetcode.RemoveComments

open Getline TextSearch WhileLoop

/-! ## The code -/

/-- `found - pos + extra` in `size_t`, where `npos` is `-1`. -/
def distance (found : Option ℕ) (pos extra : ℕ) : ℕ :=
  found.elim ((2 ^ 64 - 1 - pos + extra) % 2 ^ 64) fun found => found - pos + extra

def erase (code : List Char) (pos count : ℕ) : List Char := code.take pos ++ code.drop (pos + count)

/-- `pos + 1`, which is undefined where it is no `int`. -/
def increment (pos : ℕ) : Option ℕ := if pos + 1 < intLimit then some (pos + 1) else none

/-- The body of the loop over `pos`. -/
def removeAt (s : List Char × ℕ) : Option (List Char × ℕ) := do
  let (code, pos) := s
  -- on every way through the body it is evaluated
  let next ← increment pos
  if code[pos]? = some '/' ∧ next < code.length then
    if code[next]? = some '/' then
      let lineEnd := find code ['\n'] pos
      -- pos now points to the line break
      some (erase code pos (distance lineEnd pos 0), next)
    else if code[next]? = some '*' then
      let behind ← increment next
      let blockEnd := find code ['*', '/'] behind
      some (erase code pos (distance blockEnd pos 2), pos)
    else some (code, next)
  else some (code, next)

/-- The loop over `pos`, one unit of fuel for each test. -/
def removeLoop : ℕ → List Char × ℕ → Option (List Char)
  | 0, _ => none
  | fuel + 1, s => if s.2 < s.1.length then (removeAt s).bind (removeLoop fuel) else some s.1

def join (source : List (List Char)) : List Char := source.flatMap (· ++ ['\n'])

def removeComments (fuel : ℕ) (source : List (List Char)) : Option (List (List Char)) := do
  let code ← removeLoop fuel (join source, 0)
  let lines ← fields '\n' fuel code
  some (lines.filter (· ≠ []))

/-! ## The reference -/

inductive Mode where
  | code
  | line
  | block

/-- What is left of a text by a scan from left to right; `none` if a block is not closed. -/
def scan : Mode → List Char → Option (List Char)
  | .code, '/' :: '/' :: rest => scan .line rest
  | .code, '/' :: '*' :: rest => scan .block rest
  | .code, c :: rest => (scan .code rest).map (c :: ·)
  | .line, '\n' :: rest => (scan .code rest).map ('\n' :: ·)
  | .line, _ :: rest => scan .line rest
  | .block, '*' :: '/' :: rest => scan .code rest
  | .block, _ :: rest => scan .block rest
  | .code, [] => some []
  | .line, [] => some []
  | .block, [] => none

attribute [local simp] scan

variable {c : Char} {text rest out : List Char} {k : ℕ}

theorem scan_code_cons (hline : c = '/' → rest.head? ≠ some '/')
    (hblock : c = '/' → rest.head? ≠ some '*') :
    scan .code (c :: rest) = (scan .code rest).map (c :: ·) := by
  rw [scan]
  · rintro rest' rfl rfl
    exact hline rfl rfl
  · rintro rest' rfl rfl
    exact hblock rfl rfl

theorem scan_line_cons (hc : c ≠ '\n') : scan .line (c :: rest) = scan .line rest := by
  rw [scan]
  exact hc

theorem scan_block_cons (h : ¬ ['*', '/'] <+: c :: rest) :
    scan .block (c :: rest) = scan .block rest := by
  rw [scan]
  rintro rest' rfl rfl
  exact h ⟨rest', rfl⟩

theorem scan_line_eq (h : '\n' ∈ text) :
    ∃ k rest, find text ['\n'] 0 = some k ∧ text.drop k = '\n' :: rest ∧
      scan .line text = (scan .code rest).map ('\n' :: ·) := by
  induction text with
  | nil => cases h
  | cons c text ih =>
      by_cases hc : c = '\n'
      · subst hc
        exact ⟨0, text, find_of_prefix ⟨text, rfl⟩, rfl, by rw [scan]⟩
      · obtain ⟨k, rest, hfind, hdrop, hscan⟩ :=
          ih ((List.mem_cons.mp h).resolve_left (Ne.symm hc))
        have hnot : ¬ ['\n'] <+: c :: text := by
          rintro ⟨rest', heq⟩
          exact hc (List.cons.inj heq).1.symm
        refine ⟨1 + k, rest, ?_, ?_, ?_⟩
        · rw [find_cons_of_not hnot, hfind, Option.map_some]
        · rwa [Nat.add_comm, List.drop_succ_cons]
        · rw [scan_line_cons hc, hscan]

theorem scan_block_eq (h : scan .block text = some out) :
    ∃ k, find text ['*', '/'] 0 = some k ∧ k + 2 ≤ text.length ∧
      scan .code (text.drop (k + 2)) = some out := by
  induction text with
  | nil => cases h
  | cons c text ih =>
      by_cases hend : ['*', '/'] <+: c :: text
      · obtain ⟨rest, heq⟩ := hend
        rw [← heq] at h ⊢
        refine ⟨0, find_of_prefix ⟨rest, rfl⟩, Nat.le_add_left _ _, ?_⟩
        rwa [List.cons_append, List.singleton_append, scan] at h
      · rw [scan_block_cons hend] at h
        obtain ⟨k, hfind, hle, hscan⟩ := ih h
        refine ⟨1 + k, ?_, ?_, ?_⟩
        · rw [find_cons_of_not hend, hfind, Option.map_some]
        · rw [List.length_cons]
          omega
        · rwa [show 1 + k + 2 = k + 2 + 1 by omega, List.drop_succ_cons]

/-! ## One turn of the loop -/

variable {done : List Char}

theorem getElem?_behind (i : ℕ) : (done ++ rest)[done.length + i]? = rest[i]? := by
  rw [List.getElem?_append_right (Nat.le_add_right _ _), Nat.add_sub_cancel_left]

theorem erase_behind (count : ℕ) :
    erase (done ++ rest) done.length count = done ++ rest.drop count := by
  rw [erase, List.take_left, drop_done]

theorem increment_front (hlimit : (done ++ c :: rest).length < intLimit) :
    increment done.length = some (done.length + 1) := by
  rw [List.length_append, List.length_cons] at hlimit
  exact if_pos (by omega)

theorem removeAt_code (hlimit : (done ++ c :: rest).length < intLimit)
    (hline : c = '/' → rest.head? ≠ some '/') (hblock : c = '/' → rest.head? ≠ some '*') :
    removeAt (done ++ c :: rest, done.length) = some (done ++ c :: rest, done.length + 1) := by
  have hfirst : (done ++ c :: rest)[done.length]? = some c := getElem?_behind 0
  have hsecond : (done ++ c :: rest)[done.length + 1]? = rest.head? :=
    (getElem?_behind 1).trans List.head?_eq_getElem?.symm
  rw [removeAt]
  dsimp only [Option.bind_eq_bind]
  rw [increment_front hlimit, Option.bind_some, hfirst, hsecond]
  by_cases hc : c = '/'
  · rw [if_neg (hline hc), if_neg (hblock hc), ite_self]
  · rw [if_neg fun h => hc (Option.some.inj h.1)]

theorem removeAt_line (hlimit : (done ++ '/' :: '/' :: rest).length < intLimit)
    (h : '\n' ∈ rest) :
    ∃ rest', removeAt (done ++ '/' :: '/' :: rest, done.length) =
        some (done ++ '\n' :: rest', done.length + 1) ∧
      ('\n' :: rest') <:+ rest ∧
      scan .line rest = (scan .code rest').map ('\n' :: ·) := by
  obtain ⟨k, rest', hfind, hdrop, hscan⟩ := scan_line_eq h
  have hfirst : (done ++ '/' :: '/' :: rest)[done.length]? = some '/' := getElem?_behind 0
  have hsecond : (done ++ '/' :: '/' :: rest)[done.length + 1]? = some '/' := getElem?_behind 1
  have hnot (text : List Char) : ¬ ['\n'] <+: '/' :: text := by
    rintro ⟨_, heq⟩
    exact absurd (List.cons.inj heq).1 (by decide)
  have hend : find (done ++ '/' :: '/' :: rest) ['\n'] done.length =
      some (done.length + (k + 2)) := by
    have hbehind := find_behind done ('/' :: '/' :: rest) ['\n'] 0
    rw [find_cons_of_not (hnot _), find_cons_of_not (hnot _), hfind] at hbehind
    rw [Nat.add_zero] at hbehind
    rw [hbehind]
    simp only [Option.map_some, Option.some.injEq]
    omega
  refine ⟨rest', ?_, hdrop ▸ List.drop_suffix k rest, hscan⟩
  have hinside : done.length + 1 < (done ++ '/' :: '/' :: rest).length := by
    simp only [List.length_append, List.length_cons]
    omega
  rw [removeAt]
  dsimp only [Option.bind_eq_bind]
  rw [increment_front hlimit, Option.bind_some, if_pos ⟨hfirst, hinside⟩, if_pos hsecond, hend]
  have hcount : distance (some (done.length + (k + 2))) done.length 0 = k + 2 := by
    show done.length + (k + 2) - done.length + 0 = k + 2
    omega
  rw [hcount, erase_behind, List.drop_succ_cons, List.drop_succ_cons, hdrop]

theorem removeAt_block (hlimit : (done ++ '/' :: '*' :: rest).length < intLimit)
    (h : scan .block rest = some out) :
    ∃ rest', removeAt (done ++ '/' :: '*' :: rest, done.length) =
        some (done ++ rest', done.length) ∧
      rest' <:+ rest ∧ rest'.length + 2 ≤ rest.length ∧ scan .code rest' = some out := by
  obtain ⟨k, hfind, hle, hscan⟩ := scan_block_eq h
  have hfirst : (done ++ '/' :: '*' :: rest)[done.length]? = some '/' := getElem?_behind 0
  have hsecond : (done ++ '/' :: '*' :: rest)[done.length + 1]? = some '*' := getElem?_behind 1
  have hend : find (done ++ '/' :: '*' :: rest) ['*', '/'] (done.length + 2) =
      some (done.length + 2 + k) := by
    have hbehind := find_behind (done ++ ['/', '*']) rest ['*', '/'] 0
    rw [hfind, List.append_assoc, List.length_append] at hbehind
    exact hbehind
  refine ⟨rest.drop (k + 2), ?_, List.drop_suffix _ _, ?_, hscan⟩
  · have hinside : done.length + 1 < (done ++ '/' :: '*' :: rest).length := by
      simp only [List.length_append, List.length_cons]
      omega
    have hcount : distance (some (done.length + 2 + k)) done.length 2 = k + 4 := by
      show done.length + 2 + k - done.length + 2 = k + 4
      omega
    have hbehind : increment (done.length + 1) = some (done.length + 2) := by
      simp only [List.length_append, List.length_cons] at hlimit
      exact if_pos (by omega)
    rw [removeAt]
    dsimp only [Option.bind_eq_bind]
    rw [increment_front hlimit, Option.bind_some, if_pos ⟨hfirst, hinside⟩, hsecond,
      if_neg (by decide), if_pos rfl, hbehind, Option.bind_some, hend, hcount, erase_behind,
      List.drop_succ_cons, List.drop_succ_cons]
  · rw [List.length_drop]
    omega

/-! ## The loop -/

theorem break_mem {source : List (List Char)} (h : text <:+ join source) (hne : text ≠ []) :
    '\n' ∈ text := by
  rcases List.eq_nil_or_concat source with rfl | ⟨front, last, rfl⟩
  · exact absurd (List.suffix_nil.mp h) hne
  · have hjoin : join (front ++ [last]) = (join front ++ last) ++ ['\n'] := by
      simp [join]
    rw [List.concat_eq_append, hjoin, List.suffix_concat_iff] at h
    obtain ⟨text, rfl, -⟩ := h.resolve_left hne
    exact List.mem_append_right _ (List.mem_singleton.mpr rfl)

structure Removed (source : List (List Char)) (out : List Char) (s : List Char × ℕ)
    (rest : List Char) : Prop where
  code : ∃ done, s.1 = done ++ rest ∧ s.2 = done.length ∧
    (scan .code rest).map (done ++ ·) = some out
  suffix : rest <:+ join source
  length_lt : s.1.length < intLimit

theorem Removed.removeAt {source : List (List Char)} {s : List Char × ℕ}
    (h : Removed source out s rest) (hinside : s.2 < s.1.length) :
    ∃ s' rest', removeAt s = some s' ∧ Removed source out s' rest' ∧
      s'.1.length - s'.2 < s.1.length - s.2 := by
  obtain ⟨code, pos⟩ := s
  obtain ⟨⟨done, hcode, hpos, hscan⟩, hsuffix, hlimit⟩ := h
  dsimp only at hcode hpos hlimit hinside
  subst hcode hpos
  cases rest with
  | nil =>
      rw [List.append_nil] at hinside
      exact absurd hinside (Nat.lt_irrefl _)
  | cons c rest =>
      by_cases hline : c = '/' ∧ rest.head? = some '/'
      · obtain ⟨rfl, hhead⟩ := hline
        obtain ⟨rest, rfl⟩ := List.head?_eq_some_iff.mp hhead
        have hmem := break_mem hsuffix (List.cons_ne_nil _ _)
        have hbreak : '\n' ∈ rest := by
          rcases List.mem_cons.mp hmem with heq | hmem
          · exact absurd heq (by decide)
          · exact (List.mem_cons.mp hmem).resolve_left (by decide)
        obtain ⟨rest', hstep, hsuffix', hscan'⟩ := removeAt_line hlimit hbreak
        have hdrop := hsuffix'.length_le
        simp only [List.length_append, List.length_cons] at hdrop hlimit
        refine ⟨_, rest', hstep, ⟨⟨done ++ ['\n'], ?_, ?_, ?_⟩, ?_, ?_⟩, ?_⟩
        · rw [List.append_assoc, List.singleton_append]
        · rw [List.length_append, List.length_singleton]
        · rw [scan, hscan', Option.map_map] at hscan
          rw [← hscan]
          congr 1
          funext text
          exact List.append_assoc _ _ _
        · exact ((List.suffix_cons _ _).trans hsuffix').trans
            (((List.suffix_cons _ _).trans (List.suffix_cons _ _)).trans hsuffix)
        · simp only [List.length_append, List.length_cons]
          omega
        · simp only [List.length_append, List.length_cons]
          omega
      by_cases hblock : c = '/' ∧ rest.head? = some '*'
      · obtain ⟨rfl, hhead⟩ := hblock
        obtain ⟨rest, rfl⟩ := List.head?_eq_some_iff.mp hhead
        rw [scan] at hscan
        obtain ⟨left, hleft, rfl⟩ := Option.map_eq_some_iff.mp hscan
        obtain ⟨rest', hstep, hsuffix', hlength, hscan'⟩ := removeAt_block hlimit hleft
        simp only [List.length_append, List.length_cons] at hlimit
        refine ⟨_, rest', hstep, ⟨⟨done, rfl, rfl, by rw [hscan', Option.map_some]⟩, ?_, ?_⟩, ?_⟩
        · exact hsuffix'.trans
            (((List.suffix_cons _ _).trans (List.suffix_cons _ _)).trans hsuffix)
        · simp only [List.length_append]
          omega
        · simp only [List.length_append, List.length_cons]
          omega
      · have hline : c = '/' → rest.head? ≠ some '/' := fun hc hhead => hline ⟨hc, hhead⟩
        have hblock : c = '/' → rest.head? ≠ some '*' := fun hc hhead => hblock ⟨hc, hhead⟩
        rw [scan_code_cons hline hblock, Option.map_map] at hscan
        refine ⟨_, rest, removeAt_code hlimit hline hblock,
          ⟨⟨done ++ [c], ?_, ?_, ?_⟩, (List.suffix_cons _ _).trans hsuffix, hlimit⟩, ?_⟩
        · rw [List.append_assoc, List.singleton_append]
        · rw [List.length_append, List.length_singleton]
        · rw [← hscan]
          congr 1
          funext text
          exact List.append_assoc _ _ _
        · simp only [List.length_append, List.length_cons]
          omega

/-- The loop leaves what the reference leaves, by induction on the fuel, which the text behind the
position does not exceed. -/
theorem removeLoop_eq {source : List (List Char)} {s : List Char × ℕ} {fuel : ℕ}
    (h : Removed source out s rest) (hfuel : s.1.length - s.2 < fuel) :
    removeLoop fuel s = some out := by
  induction fuel generalizing s rest with
  | zero => exact absurd hfuel (Nat.not_lt_zero _)
  | succ fuel ih =>
      rw [removeLoop]
      split
      · next hinside =>
        obtain ⟨s', rest', hstep, hremoved, hless⟩ := h.removeAt hinside
        rw [hstep]
        exact ih hremoved (hless.trans_le (Nat.le_of_lt_succ hfuel))
      · next hend =>
        obtain ⟨done, hcode, hpos, hscan⟩ := h.code
        obtain rfl : rest = [] := by
          rw [hcode, hpos, List.length_append] at hend
          exact List.length_eq_zero_iff.mp (by omega)
        rw [hcode]
        exact hscan

/-- **The lines that are left**: those of the reference scan that are not empty. -/
theorem removeComments_eq {source : List (List Char)} (hlimit : (join source).length < intLimit)
    (hclosed : scan .code (join source) = some out) :
    ∃ fuel, removeComments fuel source = some ((out.splitOn '\n').filter (· ≠ [])) := by
  have hstart : Removed source out (join source, 0) (join source) :=
    ⟨⟨[], rfl, rfl, by rw [hclosed]; rfl⟩, List.suffix_rfl, hlimit⟩
  have hloop := removeLoop_eq hstart
    (show (join source).length - 0 < (join source).length + out.length + 1 by omega)
  obtain ⟨lines, hfields, hfilter⟩ :
      ∃ lines, fields '\n' ((join source).length + out.length + 1) out = some lines ∧
        lines.filter (· ≠ []) = (out.splitOn '\n').filter (· ≠ []) := fields_filter (by omega)
  refine ⟨(join source).length + out.length + 1, ?_⟩
  rw [removeComments, hloop]
  dsimp only [Option.bind_eq_bind, Option.bind_some]
  rw [hfields, ← hfilter]
  rfl

theorem removeComments_eq_join : ∃ fuel,
    removeComments fuel [['a', '/', '*', '/'], ['*', '/', 'b', '/', '/'], []] =
      some (((['a', 'b', '\n', '\n'] : List Char).splitOn '\n').filter (· ≠ [])) :=
  removeComments_eq (by decide) rfl

theorem scan_replicate (n : ℕ) :
    scan .code (List.replicate n 'a' ++ ['\n']) = some (List.replicate n 'a' ++ ['\n']) := by
  induction n with
  | zero => rfl
  | succ n ih =>
      have ha : 'a' ≠ '/' := by decide
      rw [List.replicate_succ, List.cons_append, scan_code_cons (absurd · ha) (absurd · ha), ih,
        Option.map_some]

/-- On a long line the cursor is counted up until it is no `int`. -/
theorem removeLoop_replicate {n pos : ℕ} (hn : intLimit ≤ n) (fuel : ℕ) (hpos : pos < intLimit) :
    removeLoop fuel (List.replicate n 'a' ++ ['\n'], pos) = none := by
  induction fuel generalizing pos with
  | zero => rfl
  | succ fuel ih =>
      have hlength : pos < (List.replicate n 'a').length := by
        rw [List.length_replicate]
        omega
      have hget : (List.replicate n 'a' ++ ['\n'])[pos]? = some 'a' := by
        rw [List.getElem?_append_left hlength, List.getElem?_eq_getElem hlength,
          List.getElem_replicate]
      rw [removeLoop, if_pos (by rw [List.length_append]; omega), removeAt]
      dsimp only [Option.bind_eq_bind]
      rw [increment, hget]
      split
      · next hnext => exact ih hnext
      · rfl

/-- A line of 2^31 letters holds no comment, but no call returns it. -/
theorem removeComments_replicate :
    scan .code (join [List.replicate (2 ^ 31) 'a']) = some (join [List.replicate (2 ^ 31) 'a']) ∧
      ∀ fuel, removeComments fuel [List.replicate (2 ^ 31) 'a'] = none := by
  have hjoin : join [List.replicate (2 ^ 31) 'a'] = List.replicate (2 ^ 31) 'a' ++ ['\n'] := by
    rw [join, List.flatMap_singleton]
  refine ⟨?_, fun fuel => ?_⟩
  · rw [hjoin, scan_replicate]
  · have hloop := removeLoop_replicate (le_refl (2 ^ 31)) fuel (by decide : 0 < intLimit)
    rw [removeComments, hjoin, hloop]
    rfl

end Eureka.Leetcode.RemoveComments
