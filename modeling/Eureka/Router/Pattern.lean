import Eureka.Library.PatternTrie
import Eureka.Router.Tree

/-!
# Routes as patterns

What a route stands for is said twice.  `Matches` says it in the words of the
router's users: a request path matches a route if the literal bytes are equal,
every `:name` stands for a run of bytes without `'/'` and a final `/*name` for
the rest of the path.  `parse` reads the same route as the tokens of
`PatternTrie`, and the two agree (`exists_of_matches`, `matches_of_binds`).

`scan` splits a path at its first wildcard.  It is the form in which the proofs
use `find_wildcard`; `findWildcard_eq` connects the two.
-/

namespace Eureka.Router

open PatternTrie

/-! ## Matching a request path -/

/-- A wildcard name: not empty and without `':'`, `'*'` and `'/'`. -/
def ValidName (name : Bytes) : Prop := name ≠ [] ∧ ∀ c ∈ name, stopsName c = false

instance (name : Bytes) : Decidable (ValidName name) :=
  inferInstanceAs (Decidable (name ≠ [] ∧ ∀ c ∈ name, stopsName c = false))

/-- The request path matches the route with these parameters. -/
inductive Matches : Bytes → Bytes → List Param → Prop
  | nil : Matches [] [] []
  | lit {c route path params} :
      startsWildcard c = false → Matches route path params →
        Matches (c :: route) (c :: path) params
  | paramEnd {name value} :
      ValidName name → value ≠ [] → slash ∉ value →
        Matches (colon :: name) value [⟨name, value⟩]
  | param {name value route path params} :
      ValidName name → slash ∉ value → Matches (slash :: route) (slash :: path) params →
        Matches (colon :: name ++ slash :: route) (value ++ slash :: path)
          (⟨name, value⟩ :: params)
  | catchAll {name path} :
      ValidName name →
        Matches (slash :: star :: name) (slash :: path) [⟨name, slash :: path⟩]

/-! ## Splitting a path at its first wildcard -/

/-- A path by its first wildcard: the bytes in front of it, its name, and the
bytes behind the name. -/
inductive Scan
  | plain
  | invalid
  | param (plain name rest : Bytes)
  | catchAll (plain name rest : Bytes)
deriving DecidableEq

/-- Splits a path at its first wildcard. -/
def scan (path : Bytes) : Scan :=
  match path.dropWhile (fun c => !startsWildcard c) with
  | [] => .plain
  | c :: tail =>
      let plain := path.takeWhile fun c => !startsWildcard c
      let name := tail.takeWhile fun c => !stopsName c
      let rest := tail.dropWhile fun c => !stopsName c
      if name ≠ [] ∧ (rest = [] ∨ rest.head? = some slash) then
        if c = colon then .param plain name rest else .catchAll plain name rest
      else
        .invalid

theorem startsWildcard_iff {c : Byte} : startsWildcard c ↔ c = colon ∨ c = star := by
  simp [startsWildcard]

theorem colon_ne_star : colon ≠ star := by decide

theorem slash_ne_star : slash ≠ star := by decide

theorem slash_ne_colon : slash ≠ colon := by decide

@[simp] theorem startsWildcard_slash : startsWildcard slash = false := by decide

@[simp] theorem startsWildcard_colon : startsWildcard colon = true := by decide

@[simp] theorem startsWildcard_star : startsWildcard star = true := by decide

@[simp] theorem stopsName_slash : stopsName slash = true := by decide

/-- No byte of the text starts a wildcard. -/
def Literal (text : Bytes) : Prop := ∀ c ∈ text, startsWildcard c = false

theorem literal_of_scan_plain {path : Bytes} (hscan : scan path = .plain) : Literal path := by
  unfold scan at hscan
  split at hscan
  · rename_i hdrop
    intro c hc
    simpa using List.dropWhile_eq_nil_iff.mp hdrop c hc
  · dsimp only at hscan
    split_ifs at hscan

theorem eq_of_scan_param {path plain name rest : Bytes} (hscan : scan path = .param plain name rest) :
    path = plain ++ colon :: (name ++ rest) ∧ Literal plain ∧ ValidName name ∧
      (rest = [] ∨ rest.head? = some slash) := by
  unfold scan at hscan
  split at hscan
  · simp at hscan
  · rename_i c tail hdrop
    dsimp only at hscan
    split_ifs at hscan with hvalid hcolon
    obtain ⟨rfl, rfl, rfl⟩ := Scan.param.inj hscan
    refine ⟨?_, ?_, ⟨hvalid.1, ?_⟩, hvalid.2⟩
    · rw [List.takeWhile_append_dropWhile, ← hcolon, ← hdrop, List.takeWhile_append_dropWhile]
    · intro b hb
      simpa using List.mem_takeWhile_imp hb
    · intro b hb
      simpa using List.mem_takeWhile_imp hb

theorem eq_of_scan_catchAll {path plain name rest : Bytes}
    (hscan : scan path = .catchAll plain name rest) :
    path = plain ++ star :: (name ++ rest) ∧ Literal plain ∧ ValidName name ∧
      (rest = [] ∨ rest.head? = some slash) := by
  unfold scan at hscan
  split at hscan
  · simp at hscan
  · rename_i c tail hdrop
    dsimp only at hscan
    split_ifs at hscan with hvalid hcolon
    obtain ⟨rfl, rfl, rfl⟩ := Scan.catchAll.inj hscan
    have hc : c = star := by
      have hhead := List.head?_dropWhile_not (fun c => !startsWildcard c) path
      rw [hdrop] at hhead
      simp only [List.head?_cons, Bool.not_eq_eq_eq_not, Bool.not_false] at hhead
      exact (startsWildcard_iff.mp hhead).resolve_left hcolon
    refine ⟨?_, ?_, ⟨hvalid.1, ?_⟩, hvalid.2⟩
    · rw [List.takeWhile_append_dropWhile, ← hc, ← hdrop, List.takeWhile_append_dropWhile]
    · intro b hb
      simpa using List.mem_takeWhile_imp hb
    · intro b hb
      simpa using List.mem_takeWhile_imp hb

theorem findIdx?_append_cons {p : Byte → Bool} {before after : Bytes} {c : Byte}
    (hbefore : ∀ b ∈ before, p b = false) (hc : p c = true) :
    (before ++ c :: after).findIdx? p = some before.length := by
  induction before with
  | nil => simp [List.findIdx?_cons, hc]
  | cons b before ih =>
      simp [List.findIdx?_cons, hbefore b List.mem_cons_self,
        ih fun b hb => hbefore b (List.mem_cons_of_mem _ hb)]

/-- `find_wildcard` on a path that is cut at its first wildcard and at the end
of the wildcard's name. -/
theorem findWildcard_append (plain name rest : Bytes) (c : Byte) (hplain : Literal plain)
    (hc : startsWildcard c = true) (hname : ∀ b ∈ name, stopsName b = false)
    (hrest : ∀ d ∈ rest.head?, stopsName d = true) :
    findWildcard (plain ++ c :: (name ++ rest)) =
      if rest = [] ∨ rest.head? = some slash then ⟨c :: name, some plain.length⟩
      else ⟨[], some plain.length⟩ := by
  have hstart : (plain ++ c :: (name ++ rest)).findIdx? startsWildcard = some plain.length :=
    findIdx?_append_cons hplain hc
  have htail : (plain ++ c :: (name ++ rest)).drop (plain.length + 1) = name ++ rest := by
    rw [← List.drop_drop, List.drop_left, List.drop_one, List.tail_cons]
  cases rest with
  | nil =>
      have hstop : (name ++ []).findIdx? stopsName = none := by
        simpa [List.findIdx?_eq_none_iff] using hname
      simp only [List.append_nil] at hstart htail hstop ⊢
      simp only [findWildcard, hstart, htail, hstop, List.drop_left, true_or, if_true]
  | cons d rest =>
      have hstop : (name ++ d :: rest).findIdx? stopsName = some name.length :=
        findIdx?_append_cons hname (hrest d rfl)
      have hd : (plain ++ c :: (name ++ d :: rest))[plain.length + 1 + name.length]? = some d := by
        rw [List.getElem?_append_right (by omega)]
        simp [Nat.add_assoc, Nat.add_comm 1]
      have htake : (c :: (name ++ d :: rest)).take (plain.length + 1 + name.length - plain.length) =
          c :: name := by
        rw [show plain.length + 1 + name.length - plain.length = name.length + 1 by omega]
        simp
      simp only [findWildcard, hstart, htail, hstop, hd, List.drop_left, htake, Option.some.injEq,
        List.head?_cons, reduceCtorEq, false_or]

/-- `find_wildcard` finds the wildcard of the scan. -/
theorem findWildcard_eq (path : Bytes) :
    match scan path with
    | .plain => findWildcard path = ⟨[], none⟩
    | .invalid => (findWildcard path).found ∧ (findWildcard path).validName = false
    | .param plain name _ => findWildcard path = ⟨colon :: name, some plain.length⟩
    | .catchAll plain name _ => findWildcard path = ⟨star :: name, some plain.length⟩ := by
  rcases hdrop : path.dropWhile (fun c => !startsWildcard c) with _ | ⟨c, tail⟩
  · have hnone : path.findIdx? startsWildcard = none := by
      simpa [List.findIdx?_eq_none_iff] using hdrop
    simp [scan, findWildcard, hdrop, hnone]
  · have hhead := List.head?_dropWhile_not (fun c => !startsWildcard c) path
    have hstop := List.head?_dropWhile_not (fun c => !stopsName c) tail
    have hfind := findWildcard_append (path.takeWhile fun c => !startsWildcard c)
      (tail.takeWhile fun c => !stopsName c) (tail.dropWhile fun c => !stopsName c) c
      (fun b hb => by simpa using List.mem_takeWhile_imp hb) (by simpa [hdrop] using hhead)
      (fun b hb => by simpa using List.mem_takeWhile_imp hb)
      (fun d hd => by simpa [Option.mem_def.mp hd] using hstop)
    rw [List.takeWhile_append_dropWhile, ← hdrop, List.takeWhile_append_dropWhile] at hfind
    have hc : c = colon ∨ c = star := by
      simpa [hdrop, startsWildcard_iff] using hhead
    simp only [scan, hdrop]
    rw [hfind]
    generalize tail.takeWhile (fun c => !stopsName c) = name
    generalize tail.dropWhile (fun c => !stopsName c) = rest
    rcases name with _ | ⟨b, name⟩
    · split_ifs <;> simp_all [WildcardResult.found, WildcardResult.validName]
    · by_cases hrest : rest = [] ∨ rest.head? = some slash
      · rcases hc with rfl | rfl <;> simp [hrest, colon_ne_star.symm]
      · simp [hrest, WildcardResult.found, WildcardResult.validName]

/-! ### A scan, byte by byte -/

/-- The scan of a path with one more byte in front. -/
def Scan.cons (c : Byte) : Scan → Scan
  | .plain => .plain
  | .invalid => .invalid
  | .param text name rest => .param (c :: text) name rest
  | .catchAll text name rest => .catchAll (c :: text) name rest

theorem scan_lit {c : Byte} (hc : startsWildcard c = false) (path : Bytes) :
    scan (c :: path) = (scan path).cons c := by
  simp only [scan, List.dropWhile_cons, List.takeWhile_cons, hc, Bool.not_false, if_true]
  split
  · rfl
  · split_ifs <;> rfl

theorem span_name {name rest : Bytes} (hname : ValidName name)
    (hrest : rest = [] ∨ rest.head? = some slash) :
    (name ++ rest).takeWhile (fun c => !stopsName c) = name ∧
      (name ++ rest).dropWhile (fun c => !stopsName c) = rest := by
  have hkeep : ∀ c ∈ name, (!stopsName c) = true := fun c hc => by rw [hname.2 c hc]; rfl
  rw [List.takeWhile_append_of_pos hkeep, List.dropWhile_append_of_pos hkeep]
  rcases hrest with rfl | hrest
  · exact ⟨List.append_nil _, rfl⟩
  · obtain ⟨rest, rfl⟩ := List.head?_eq_some_iff.mp hrest
    exact ⟨List.append_nil _, rfl⟩

theorem scan_param {name rest : Bytes} (hname : ValidName name)
    (hrest : rest = [] ∨ rest.head? = some slash) :
    scan (colon :: (name ++ rest)) = .param [] name rest := by
  have hspan := span_name hname hrest
  rw [scan, List.dropWhile_cons_of_neg (by decide), List.takeWhile_cons_of_neg (by decide)]
  dsimp only
  rw [hspan.1, hspan.2, if_pos ⟨hname.1, hrest⟩, if_pos rfl]

theorem scan_catchAll {name rest : Bytes} (hname : ValidName name)
    (hrest : rest = [] ∨ rest.head? = some slash) :
    scan (star :: (name ++ rest)) = .catchAll [] name rest := by
  have hspan := span_name hname hrest
  rw [scan, List.dropWhile_cons_of_neg (by decide), List.takeWhile_cons_of_neg (by decide)]
  dsimp only
  rw [hspan.1, hspan.2, if_pos ⟨hname.1, hrest⟩, if_neg colon_ne_star.symm]

/-! ## Parsing a route -/

theorem length_of_scan_param {path plain name rest : Bytes}
    (hscan : scan path = .param plain name rest) : rest.length < path.length := by
  obtain ⟨rfl, -, -, -⟩ := eq_of_scan_param hscan
  simp only [List.length_append, List.length_cons]
  omega

/-- The tokens of a path; `behindSlash` says whether a `'/'` stands in front of it. -/
def parseFrom (behindSlash : Bool) (path : Bytes) : Option (List (Token Byte)) :=
  match _hscan : scan path with
  | .plain => some (path.map .lit)
  | .invalid => none
  | .param plain name rest =>
      (parseFrom false rest).map fun tokens => plain.map .lit ++ .param name :: tokens
  | .catchAll plain name rest =>
      if rest = [] ∧ (plain.getLast? = some slash ∨ plain = [] ∧ behindSlash) then
        some (plain.map .lit ++ [.rest name])
      else
        none
termination_by path.length
decreasing_by exact length_of_scan_param _hscan

def parse (route : Bytes) : Option (List (Token Byte)) := parseFrom false route

theorem parseFrom_of_plain {path : Bytes} (hscan : scan path = .plain) (behindSlash : Bool) :
    parseFrom behindSlash path = some (path.map .lit) := by
  rw [parseFrom.eq_def]
  split <;> simp_all

theorem parseFrom_of_invalid {path : Bytes} (hscan : scan path = .invalid)
    (behindSlash : Bool) : parseFrom behindSlash path = none := by
  rw [parseFrom.eq_def]
  split <;> simp_all

theorem parseFrom_of_param {path plain name rest : Bytes}
    (hscan : scan path = .param plain name rest) (behindSlash : Bool) :
    parseFrom behindSlash path =
      (parseFrom false rest).map fun tokens => plain.map .lit ++ .param name :: tokens := by
  rw [parseFrom.eq_def]
  split <;> simp_all

theorem parseFrom_of_catchAll {path plain name rest : Bytes}
    (hscan : scan path = .catchAll plain name rest) (behindSlash : Bool) :
    parseFrom behindSlash path =
      if rest = [] ∧ (plain.getLast? = some slash ∨ plain = [] ∧ behindSlash) then
        some (plain.map .lit ++ [.rest name])
      else
        none := by
  rw [parseFrom.eq_def]
  split <;> simp_all

@[simp] theorem parseFrom_nil (behindSlash : Bool) : parseFrom behindSlash [] = some [] :=
  parseFrom_of_plain rfl behindSlash

theorem parseFrom_lit {c : Byte} (hc : startsWildcard c = false) (behindSlash : Bool)
    (path : Bytes) :
    parseFrom behindSlash (c :: path) = (parseFrom (c == slash) path).map (.lit c :: ·) := by
  have hscan := scan_lit hc path
  cases hpath : scan path with
  | plain =>
      rw [hpath] at hscan
      rw [parseFrom_of_plain hscan, parseFrom_of_plain hpath]
      rfl
  | invalid =>
      rw [hpath] at hscan
      rw [parseFrom_of_invalid hscan, parseFrom_of_invalid hpath]
      rfl
  | param plain name rest =>
      rw [hpath] at hscan
      rw [parseFrom_of_param hscan, parseFrom_of_param hpath, Option.map_map]
      rfl
  | catchAll plain name rest =>
      rw [hpath] at hscan
      rw [parseFrom_of_catchAll hscan, parseFrom_of_catchAll hpath]
      cases plain with
      | nil => by_cases hslash : c = slash <;> by_cases hrest : rest = [] <;> simp [hslash, hrest]
      | cons b plain => split_ifs <;> simp_all

theorem parseFrom_param {name rest : Bytes} (hname : ValidName name)
    (hrest : rest = [] ∨ rest.head? = some slash) (behindSlash : Bool) :
    parseFrom behindSlash (colon :: (name ++ rest)) =
      (parseFrom false rest).map (.param name :: ·) :=
  parseFrom_of_param (scan_param hname hrest) behindSlash

theorem parseFrom_catchAll {name : Bytes} (hname : ValidName name) (behindSlash : Bool) :
    parseFrom behindSlash (star :: name) = if behindSlash then some [.rest name] else none := by
  have hscan := scan_catchAll hname (.inl rfl)
  rw [List.append_nil] at hscan
  rw [parseFrom_of_catchAll hscan]
  simp

/-- A path is empty, starts with a literal, or starts with the wildcard of its scan. -/
theorem parseFrom_cases {behindSlash : Bool} {path : Bytes} {tokens : List (Token Byte)}
    (hparse : parseFrom behindSlash path = some tokens) :
    path = [] ∧ tokens = [] ∨
      (∃ c rest tokens', startsWildcard c = false ∧ path = c :: rest ∧
        parseFrom (c == slash) rest = some tokens' ∧ tokens = .lit c :: tokens') ∨
      (∃ name rest tokens', ValidName name ∧ (rest = [] ∨ rest.head? = some slash) ∧
        path = colon :: (name ++ rest) ∧ parseFrom false rest = some tokens' ∧
        tokens = .param name :: tokens') ∨
      ∃ name, ValidName name ∧ behindSlash ∧ path = star :: name ∧ tokens = [.rest name] := by
  cases path with
  | nil =>
      rw [parseFrom_nil] at hparse
      exact .inl ⟨rfl, (Option.some.inj hparse).symm⟩
  | cons c path =>
      by_cases hc : startsWildcard c = false
      · rw [parseFrom_lit hc, Option.map_eq_some_iff] at hparse
        obtain ⟨tokens', hparse, rfl⟩ := hparse
        exact .inr (.inl ⟨c, path, tokens', hc, rfl, hparse, rfl⟩)
      · have hnil : ∀ {plain : Bytes} {tail : Bytes}, c :: path = plain ++ tail →
            Literal plain → plain = [] := by
          intro plain tail heq hliteral
          cases plain with
          | nil => rfl
          | cons b plain =>
              obtain ⟨rfl, -⟩ := List.cons.inj heq
              exact absurd (hliteral _ List.mem_cons_self) hc
        cases hscan : scan (c :: path) with
        | plain => exact absurd (literal_of_scan_plain hscan c List.mem_cons_self) hc
        | invalid =>
            rw [parseFrom_of_invalid hscan] at hparse
            exact nomatch hparse
        | param plain name rest =>
            obtain ⟨heq, hliteral, hname, hrest⟩ := eq_of_scan_param hscan
            obtain rfl := hnil heq hliteral
            rw [parseFrom_of_param hscan, Option.map_eq_some_iff] at hparse
            obtain ⟨tokens', hparse, rfl⟩ := hparse
            exact .inr (.inr (.inl ⟨name, rest, tokens', hname, hrest, heq, hparse, rfl⟩))
        | catchAll plain name rest =>
            obtain ⟨heq, hliteral, hname, hrest⟩ := eq_of_scan_catchAll hscan
            obtain rfl := hnil heq hliteral
            rw [parseFrom_of_catchAll hscan, Option.ite_none_right_eq_some] at hparse
            obtain ⟨⟨rfl, hslash⟩, htokens⟩ := hparse
            refine .inr (.inr (.inr ⟨name, hname, ?_, ?_, (Option.some.inj htokens).symm⟩))
            · simpa using hslash
            · simpa using heq

/-- What is a path without a `'/'` in front of it is one with it, too. -/
theorem parseFrom_mono {path : Bytes} {tokens : List (Token Byte)}
    (hparse : parseFrom false path = some tokens) (behindSlash : Bool) :
    parseFrom behindSlash path = some tokens := by
  rcases parseFrom_cases hparse with
    ⟨rfl, rfl⟩ | ⟨c, rest, tokens', hc, rfl, -, -⟩ |
    ⟨name, rest, tokens', hname, hrest, rfl, -, -⟩ | ⟨name, -, hfalse, -, -⟩
  · exact parseFrom_nil behindSlash
  · rwa [parseFrom_lit hc] at hparse ⊢
  · rwa [parseFrom_param hname hrest] at hparse ⊢
  · exact absurd hfalse Bool.false_ne_true

/-! ### The tokens of a route -/

/-- A name with what it stands for, as `locate` reports it. -/
def Param.ofBinding (binding : Binding Byte) : Param := ⟨binding.1, binding.2⟩

theorem exists_of_matches {route path : Bytes} {params : List Param}
    (hmatches : Matches route path params) :
    ∃ tokens bindings, parse route = some tokens ∧ Binds slash tokens path bindings ∧
      params = bindings.map Param.ofBinding := by
  induction hmatches with
  | nil => exact ⟨[], [], parseFrom_nil false, .nil, rfl⟩
  | @lit c route path params hc _ ih =>
      obtain ⟨tokens, bindings, hparse, hbinds, rfl⟩ := ih
      refine ⟨.lit c :: tokens, bindings, ?_, .lit hbinds, rfl⟩
      rw [parse, parseFrom_lit hc, parseFrom_mono hparse, Option.map_some]
  | @paramEnd name value hname hne hslash =>
      refine ⟨[.param name], [(name, value)], ?_, .paramEnd hne hslash, rfl⟩
      have hparse := parseFrom_param hname (.inl rfl) false
      rwa [List.append_nil, parseFrom_nil, Option.map_some] at hparse
  | @param name value route path params hname hslash _ ih =>
      obtain ⟨tokens, bindings, hparse, hbinds, rfl⟩ := ih
      rw [parse, parseFrom_lit (by decide), Option.map_eq_some_iff] at hparse
      obtain ⟨tokens, hparse, rfl⟩ := hparse
      refine ⟨.param name :: .lit slash :: tokens, (name, value) :: bindings, ?_,
        .param hslash hbinds, rfl⟩
      rw [parse, List.cons_append, parseFrom_param hname (.inr rfl), parseFrom_lit (by decide),
        hparse]
      rfl
  | @catchAll name path hname =>
      refine ⟨[.lit slash, .rest name], [(name, slash :: path)], ?_, .lit .rest, rfl⟩
      rw [parse, parseFrom_lit (by decide), beq_self_eq_true, parseFrom_catchAll hname]
      rfl

theorem matches_of_binds {route path : Bytes} {tokens : List (Token Byte)}
    {bindings : List (Binding Byte)} (hparse : parse route = some tokens)
    (hbinds : Binds slash tokens path bindings) :
    Matches route path (bindings.map Param.ofBinding) := by
  induction hbinds generalizing route with
  | nil =>
      rcases parseFrom_cases hparse with ⟨rfl, -⟩ | ⟨_, _, _, _, _, _, h⟩ |
        ⟨_, _, _, _, _, _, _, h⟩ | ⟨_, _, _, _, h⟩
      · exact .nil
      all_goals exact nomatch h
  | @lit letter tokens text bindings hbinds ih =>
      rcases parseFrom_cases hparse with ⟨-, h⟩ | ⟨c, rest, tokens', hc, rfl, hrest, h⟩ |
        ⟨_, _, _, _, _, _, _, h⟩ | ⟨_, _, _, _, h⟩
      · exact nomatch h
      · obtain ⟨hletter, rfl⟩ := List.cons.inj h
        obtain rfl := Token.lit.inj hletter
        -- behind a `'/'` there may be the catch-all that the `'/'` belongs to
        by_cases hplain : parseFrom false rest = some tokens
        · exact .lit hc (ih hplain)
        · rcases parseFrom_cases hrest with ⟨rfl, rfl⟩ | ⟨c', rest', tokens', hc', rfl, hrest', rfl⟩ |
            ⟨name, rest', tokens', hname, hrest', rfl, hparse', rfl⟩ |
            ⟨name, hname, hslash, rfl, rfl⟩
          · exact absurd (parseFrom_nil false) hplain
          · rw [parseFrom_lit hc', hrest'] at hplain
            exact absurd rfl hplain
          · rw [parseFrom_param hname hrest', hparse'] at hplain
            exact absurd rfl hplain
          · cases hbinds with
            | rest =>
                obtain rfl := beq_iff_eq.mp hslash
                exact .catchAll hname
      · exact nomatch h
      · exact nomatch h
  | @paramEnd name value hne hslash =>
      rcases parseFrom_cases hparse with ⟨-, h⟩ | ⟨_, _, _, _, _, _, h⟩ |
        ⟨name', rest, tokens', hname, hrest, rfl, hparse', h⟩ | ⟨_, _, _, _, h⟩
      · exact nomatch h
      · exact nomatch h
      · obtain ⟨hsame, rfl⟩ := List.cons.inj h
        obtain rfl := Token.param.inj hsame
        rcases parseFrom_cases hparse' with ⟨rfl, -⟩ | ⟨_, _, _, _, _, _, h⟩ |
          ⟨_, _, _, _, _, _, _, h⟩ | ⟨_, _, _, _, h⟩
        · rw [List.append_nil]
          exact .paramEnd hname hne hslash
        all_goals exact nomatch h
      · exact nomatch h
  | @param name value tokens text bindings hslash hbinds ih =>
      rcases parseFrom_cases hparse with ⟨-, h⟩ | ⟨_, _, _, _, _, _, h⟩ |
        ⟨name', rest, tokens', hname, hrest, rfl, hparse', h⟩ | ⟨_, _, _, _, h⟩
      · exact nomatch h
      · exact nomatch h
      · obtain ⟨hsame, rfl⟩ := List.cons.inj h
        obtain rfl := Token.param.inj hsame
        have hmatches := ih hparse'
        rcases hrest with rfl | hrest
        · rw [parseFrom_nil] at hparse'
          exact nomatch hparse'
        · obtain ⟨rest, rfl⟩ := List.head?_eq_some_iff.mp hrest
          exact .param hname hslash hmatches
      · exact nomatch h
  | rest =>
      rcases parseFrom_cases hparse with ⟨-, h⟩ | ⟨_, _, _, _, _, _, h⟩ |
        ⟨_, _, _, _, _, _, _, h⟩ | ⟨_, _, hfalse, _, _⟩
      · exact nomatch h
      · exact nomatch h
      · exact nomatch h
      · exact absurd hfalse Bool.false_ne_true

/-- Every parameter of a route ends it or is followed by a `'/'`. -/
theorem paramsSeparated_of_parseFrom {behindSlash : Bool} {path : Bytes}
    {tokens : List (Token Byte)} (hparse : parseFrom behindSlash path = some tokens) :
    Trie.ParamsSeparated slash tokens := by
  induction tokens generalizing behindSlash path with
  | nil => trivial
  | cons token tokens ih =>
      rcases parseFrom_cases hparse with ⟨-, h⟩ | ⟨c, rest, tokens', -, -, hrest, h⟩ |
        ⟨name, rest, tokens', hname, hrest, -, hparse', h⟩ | ⟨name, -, -, -, h⟩
      · exact nomatch h
      · obtain ⟨rfl, rfl⟩ := List.cons.inj h
        exact ih hrest
      · obtain ⟨rfl, rfl⟩ := List.cons.inj h
        refine ⟨?_, ih hparse'⟩
        rcases hrest with rfl | hrest
        · rw [parseFrom_nil] at hparse'
          exact .inl (Option.some.inj hparse').symm
        · obtain ⟨rest, rfl⟩ := List.head?_eq_some_iff.mp hrest
          rw [parseFrom_lit (by decide), Option.map_eq_some_iff] at hparse'
          obtain ⟨tokens', -, rfl⟩ := hparse'
          exact .inr ⟨tokens', rfl⟩
      · obtain ⟨rfl, rfl⟩ := List.cons.inj h
        trivial

/-- The text that a token is read from. -/
def tokenText : Token Byte → Bytes
  | .lit c => [c]
  | .param name => colon :: name
  | .rest name => star :: name

theorem flatMap_tokenText {behindSlash : Bool} {path : Bytes} {tokens : List (Token Byte)}
    (hparse : parseFrom behindSlash path = some tokens) : tokens.flatMap tokenText = path := by
  induction tokens generalizing behindSlash path with
  | nil =>
      rcases parseFrom_cases hparse with ⟨rfl, -⟩ | ⟨_, _, _, _, _, _, h⟩ |
        ⟨_, _, _, _, _, _, _, h⟩ | ⟨_, _, _, _, h⟩
      · rfl
      all_goals exact nomatch h
  | cons token tokens ih =>
      rcases parseFrom_cases hparse with ⟨-, h⟩ | ⟨c, rest, tokens', -, rfl, hrest, h⟩ |
        ⟨name, rest, tokens', -, -, rfl, hparse', h⟩ | ⟨name, -, -, rfl, h⟩
      · exact nomatch h
      · obtain ⟨rfl, rfl⟩ := List.cons.inj h
        rw [List.flatMap_cons, ih hrest]
        rfl
      · obtain ⟨rfl, rfl⟩ := List.cons.inj h
        rw [List.flatMap_cons, ih hparse']
        rfl
      · obtain ⟨rfl, rfl⟩ := List.cons.inj h
        exact List.flatMap_singleton _ _

/-- Different routes have different tokens. -/
theorem parse_injective {route route' : Bytes} {tokens : List (Token Byte)}
    (hparse : parse route = some tokens) (hparse' : parse route' = some tokens) :
    route = route' := by
  rw [← flatMap_tokenText hparse, flatMap_tokenText hparse']

end Eureka.Router
