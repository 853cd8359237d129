import Eureka.Pascal.Scanner

/-!
# Texts whose tokens end

Every call of `nextToken` returns, and the calls come to the end of the text or to a
character that begins no token, unless the lexer gets into a comment that is not closed.

* `meetsOpenComment_iff`: what the next token says about that;
* `scans_iff`: the calls on a text.
-/

namespace Eureka.Pascal

/-! ## Comments that are not closed -/

/-- A character that is passed on its own: a space, or one that begins a token. -/
def Passes (ch : Byte) : Prop :=
  isSpace ch = true ∨ isDigit ch = true ∨ inIdentifier ch = true ∨ ch ∈ Scanner.fixedFirst

instance (ch : Byte) : Decidable (Passes ch) := inferInstanceAs (Decidable (_ ∨ _ ∨ _ ∨ _))

/-- A comment in the text is not closed, and nothing before it stops the lexer: there are only
characters that are passed, `:=` and closed comments. -/
inductive MeetsOpenComment : Bytes → Prop
  | here {inside : Bytes} : 125 ∉ inside → MeetsOpenComment (123 :: inside)
  | character {ch : Byte} {text : Bytes} :
      Passes ch → MeetsOpenComment text → MeetsOpenComment (ch :: text)
  | assign {text : Bytes} : MeetsOpenComment text → MeetsOpenComment (58 :: 61 :: text)
  | comment {inside text : Bytes} :
      125 ∉ inside → MeetsOpenComment text → MeetsOpenComment (123 :: (inside ++ 125 :: text))

theorem not_passes_brace : ¬ Passes 123 := by decide

theorem not_passes_equals : ¬ Passes 61 := by decide

theorem meets_character {ch : Byte} (hpasses : Passes ch) (hcolon : ch ≠ 58) (text : Bytes) :
    MeetsOpenComment (ch :: text) ↔ MeetsOpenComment text := by
  constructor
  · intro hmeets
    cases hmeets with
    | here => exact absurd hpasses not_passes_brace
    | character _ hmeets => exact hmeets
    | assign => exact absurd rfl hcolon
    | comment => exact absurd hpasses not_passes_brace
  · exact .character hpasses

theorem meets_assign (text : Bytes) :
    MeetsOpenComment (58 :: 61 :: text) ↔ MeetsOpenComment text := by
  constructor
  · intro hmeets
    cases hmeets with
    | character _ hmeets =>
        cases hmeets with
        | character hpasses => exact absurd hpasses not_passes_equals
    | assign hmeets => exact hmeets
  · exact .assign

theorem meets_colon {text : Bytes} (hequals : text.head? ≠ some 61) :
    MeetsOpenComment (58 :: text) ↔ MeetsOpenComment text := by
  constructor
  · intro hmeets
    cases hmeets with
    | character _ hmeets => exact hmeets
    | assign => exact absurd rfl hequals
  · exact .character (by decide)

theorem meets_comment {inside : Bytes} (hinside : 125 ∉ inside) (text : Bytes) :
    MeetsOpenComment (123 :: (inside ++ 125 :: text)) ↔ MeetsOpenComment text := by
  constructor
  · intro hmeets
    generalize hwhole : inside ++ 125 :: text = whole at hmeets
    cases hmeets with
    | here hopen =>
        rw [← hwhole] at hopen
        exact absurd (List.mem_append_right inside List.mem_cons_self) hopen
    | character hpasses => exact absurd hpasses not_passes_brace
    | @comment inside' text' hinside' hmeets =>
        have htake := congrArg (List.takeWhile fun ch => ch ≠ 125) hwhole
        rw [Scanner.takeWhile_ne_append hinside, Scanner.takeWhile_ne_append hinside'] at htake
        rw [htake] at hwhole
        obtain ⟨-, rfl⟩ := List.cons.inj (List.append_cancel_left hwhole)
        exact hmeets
  · exact .comment hinside

theorem not_meets_of_not_passes {ch : Byte} (hpasses : ¬ Passes ch) (hcomment : ch ≠ 123)
    (text : Bytes) : ¬ MeetsOpenComment (ch :: text) := by
  intro hmeets
  cases hmeets with
  | here => exact hcomment rfl
  | character h => exact hpasses h
  | assign => exact hpasses (by decide)
  | comment => exact hcomment rfl

theorem meets_append {passed : Bytes} (hpassed : ∀ ch ∈ passed, Passes ch ∧ ch ≠ 58)
    (text : Bytes) : MeetsOpenComment (passed ++ text) ↔ MeetsOpenComment text := by
  induction passed with
  | nil => exact Iff.rfl
  | cons ch passed ih =>
      obtain ⟨⟨hpasses, hcolon⟩, hpassed⟩ := List.forall_mem_cons.mp hpassed
      exact (meets_character hpasses hcolon _).trans (ih hpassed)

/-! ## The next token -/

theorem passes_fixedTokens : ∀ tok ∈ fixedTokens,
    (∀ ch ∈ tok.value, Passes ch ∧ ch ≠ 58) ∨ tok = ⟨.tokAssign, [58, 61]⟩ ∨
      tok = ⟨.tokColon, [58]⟩ := by
  decide +kernel

theorem lexNumber_split (text : Bytes) :
    ∃ passed, text = passed ++ (lexNumber text).2 ∧ ∀ ch ∈ passed, isDigit ch = true ∨ ch = 46 := by
  have hdigits := List.takeWhile_append_dropWhile (p := isDigit) (l := text)
  have hpassed : ∀ {text : Bytes}, ∀ ch ∈ text.takeWhile isDigit, isDigit ch = true ∨ ch = 46 :=
    fun ch hch => .inl (List.mem_takeWhile_imp hch)
  by_cases hpoint : (text.dropWhile isDigit).head? = some 46
  · obtain ⟨fraction, hfraction⟩ := List.head?_eq_some_iff.mp hpoint
    rw [Scanner.lexNumber_of_point hfraction]
    refine ⟨text.takeWhile isDigit ++ 46 :: fraction.takeWhile isDigit, ?_, ?_⟩
    · rw [List.append_assoc, List.cons_append, List.takeWhile_append_dropWhile, ← hfraction, hdigits]
    · rw [List.forall_mem_append, List.forall_mem_cons]
      exact ⟨hpassed, .inr rfl, hpassed⟩
  · rw [Scanner.lexNumber_of_head?_ne hpoint]
    exact ⟨_, hdigits.symm, hpassed⟩

theorem lexToken_word {ch : Byte} (hdigit : isDigit ch = false) (hid : inIdentifier ch = true)
    (text : Bytes) : ∃ tok, lexToken ch text = .token tok (text.dropWhile inIdentifier) := by
  rw [lexToken, hdigit, if_neg Bool.false_ne_true, if_pos hid, lexIdentifier]
  dsimp only
  split
  · exact ⟨_, rfl⟩
  · exact ⟨_, rfl⟩

theorem lexToken_fixed {ch : Byte} (hdigit : isDigit ch = false) (hid : inIdentifier ch = false)
    (text : Bytes) :
    lexToken ch text =
      match fixedTokens.find? fun tok => tok.value.isPrefixOf text with
      | some tok => .token tok (text.drop tok.value.length)
      | none => .unknown (stringOf ch) := by
  rw [lexToken, if_neg (ne_true_of_eq_false hdigit)]
  exact if_neg (ne_true_of_eq_false hid)

theorem lexToken_ne_endless (ch : Byte) (text : Bytes) : lexToken ch text ≠ .endless := by
  cases hdigit : isDigit ch with
  | true =>
      rw [lexToken, if_pos hdigit]
      intro hendless
      cases hendless
  | false =>
      cases hid : inIdentifier ch with
      | true =>
          obtain ⟨tok, htoken⟩ := lexToken_word hdigit hid text
          rw [htoken]
          intro hendless
          cases hendless
      | false =>
          rw [lexToken_fixed hdigit hid]
          cases fixedTokens.find? fun tok => tok.value.isPrefixOf text with
          | some tok =>
              intro hendless
              cases hendless
          | none =>
              intro hendless
              cases hendless

/-- A colon before an equals sign is no token of its own. -/
theorem head?_ne_of_colon {ch : Byte} {text : Bytes}
    (hfind : fixedTokens.find? (fun tok => tok.value.isPrefixOf (ch :: text)) =
      some ⟨.tokColon, [58]⟩) : text.head? ≠ some 61 := by
  intro hequals
  obtain ⟨rest, rfl⟩ := List.head?_eq_some_iff.mp hequals
  have hprefix := List.find?_some
    (p := fun tok : Token => tok.value.isPrefixOf (ch :: 61 :: rest)) hfind
  obtain ⟨rfl, -⟩ := List.cons_prefix_cons.mp (List.isPrefixOf_iff_prefix.mp hprefix)
  cases hfind

theorem meets_lexToken {ch : Byte} (hspace : isSpace ch = false) (hcomment : ch ≠ 123)
    (text : Bytes) :
    MeetsOpenComment (ch :: text) ↔
      match lexToken ch (ch :: text) with
      | .token _ rest => MeetsOpenComment rest
      | _ => False := by
  cases hdigit : isDigit ch with
  | true =>
      obtain ⟨passed, hsplit, hpassed⟩ := lexNumber_split (ch :: text)
      rw [lexToken, hdigit, if_pos rfl]
      dsimp only
      conv_lhs => rw [hsplit]
      refine meets_append (fun ch' hch' => ?_) _
      rcases hpassed ch' hch' with hdigit | rfl
      · refine ⟨.inr (.inl hdigit), ?_⟩
        rintro rfl
        exact Bool.false_ne_true hdigit
      · decide
  | false =>
      cases hid : inIdentifier ch with
      | true =>
          obtain ⟨tok, htoken⟩ := lexToken_word hdigit hid (ch :: text)
          have hsplit := List.takeWhile_append_dropWhile (p := inIdentifier) (l := ch :: text)
          rw [htoken]
          dsimp only
          conv_lhs => rw [← hsplit]
          refine meets_append (fun ch' hch' => ?_) _
          have hword : inIdentifier ch' = true := List.mem_takeWhile_imp hch'
          refine ⟨.inr (.inr (.inl hword)), ?_⟩
          rintro rfl
          revert hword
          decide
      | false =>
          rw [lexToken_fixed hdigit hid]
          cases hfind : fixedTokens.find? fun tok => tok.value.isPrefixOf (ch :: text) with
          | some tok =>
              dsimp only
              have hprefix := List.find?_some
                (p := fun tok : Token => tok.value.isPrefixOf (ch :: text)) hfind
              obtain ⟨rest, hrest⟩ := List.isPrefixOf_iff_prefix.mp hprefix
              have hdrop : (ch :: text).drop tok.value.length = rest := by
                rw [← hrest, List.drop_left]
              rw [hdrop, ← hrest]
              rcases passes_fixedTokens tok (List.mem_of_find?_eq_some hfind) with
                hpassed | rfl | rfl
              · exact meets_append hpassed rest
              · exact meets_assign rest
              · obtain ⟨rfl, rfl⟩ := List.cons.inj hrest
                exact meets_colon (head?_ne_of_colon hfind)
          | none =>
              refine iff_of_false (not_meets_of_not_passes ?_ hcomment text) id
              rintro (h | h | h | hfixed)
              · exact Bool.false_ne_true (hspace.symm.trans h)
              · exact Bool.false_ne_true (hdigit.symm.trans h)
              · exact Bool.false_ne_true (hid.symm.trans h)
              · have hsingle : ∀ ch ∈ Scanner.fixedFirst, ∃ tok ∈ fixedTokens, tok.value = [ch] := by
                  decide +kernel
                obtain ⟨tok, htok, hvalue⟩ := hsingle ch hfixed
                refine List.find?_eq_none.mp hfind tok htok ?_
                rw [hvalue, List.isPrefixOf_iff_prefix]
                exact ⟨text, rfl⟩

/-- **The next token.**  The lexer meets a comment that is not closed when it runs into it now or
behind the token. -/
theorem meetsOpenComment_iff (text : Bytes) :
    MeetsOpenComment text ↔
      match nextToken text with
      | .token _ rest => MeetsOpenComment rest
      | .endless => True
      | _ => False := by
  induction hlength : text.length using Nat.strong_induction_on generalizing text with
  | _ length ih =>
      subst hlength
      cases text with
      | nil =>
          rw [nextToken]
          exact iff_of_false nofun id
      | cons ch text =>
          rw [nextToken]
          cases hspace : isSpace ch with
          | true =>
              have hcolon : ch ≠ 58 := by
                rintro rfl
                revert hspace
                decide
              rw [if_pos rfl, meets_character (.inl hspace) hcolon]
              exact ih text.length (Nat.lt_succ_self _) text rfl
          | false =>
              rw [if_neg Bool.false_ne_true]
              by_cases hcomment : ch = 123
              · subst hcomment
                rw [if_pos rfl]
                by_cases hclosed : 125 ∈ text
                · obtain ⟨inside, after, rfl, hinside⟩ := List.eq_append_cons_of_mem hclosed
                  rw [Scanner.skipComments_closed hinside, meets_comment hinside]
                  refine ih after.length ?_ after rfl
                  rw [List.length_cons, List.length_append, List.length_cons]
                  omega
                · rw [Scanner.skipComments_open hclosed]
                  exact iff_of_true (.here hclosed) trivial
              · rw [if_neg hcomment, meets_lexToken hspace hcomment]
                cases hlex : lexToken ch (ch :: text) with
                | endless => exact absurd hlex (lexToken_ne_endless ch (ch :: text))
                | token tok rest => exact Iff.rfl
                | eof => exact Iff.rfl
                | unknown value => exact Iff.rfl

/-! ## The calls on a text -/

namespace Scanner

/-- A call of `nextToken` returns. -/
def Returns (l l' : Scanner) : Prop := ∃ fuel, nextToken fuel l = some l'

/-- The lexer behind some calls of `nextToken` on a text. -/
inductive Called (text : Bytes) : ℕ → Scanner → Prop
  | init : Called text 0 (init text)
  | next {calls : ℕ} {l l' : Scanner} :
      Called text calls l → Returns l l' → Called text (calls + 1) l'

/-- The lexer is at the end of the text or at an unknown token, and stays there. -/
def AtEnd (l : Scanner) : Prop :=
  (l.tok.kind = .tokEOF ∨ l.tok.kind = .tokUnknown) ∧ Returns l l

/-- Every call returns, within the text, and the calls come to the end of the text or to an unknown
token, at which every further call stays. -/
structure Scans (text : Bytes) : Prop where
  returns : ∀ calls l, Called text calls l → ∃ l', Returns l l' ∧ l'.pos ≤ text.length
  ends : ∃ calls ≤ text.length, ∃ l, Called text (calls + 1) l ∧ AtEnd l

theorem Returns.unique {l l' l'' : Scanner} (h : Returns l l') (h' : Returns l l'') : l' = l'' := by
  obtain ⟨fuel, hcall⟩ := h
  obtain ⟨fuel', hcall'⟩ := h'
  rcases le_total fuel fuel' with hle | hle
  · exact Option.some.inj ((nextToken_below hle l l' hcall).symm.trans hcall')
  · exact Option.some.inj (hcall.symm.trans (nextToken_below hle l l'' hcall'))

/-- The lexer of the text, with no comment ahead that it meets and that is not closed. -/
structure Safe (text : Bytes) (l : Scanner) : Prop where
  text_eq : l.text = text
  pos_le : l.pos ≤ text.length
  safe : ¬ MeetsOpenComment l.rest

theorem length_rest (l : Scanner) : l.rest.length = l.text.length - l.pos := List.length_drop

theorem Safe.skip {text : Bytes} {l : Scanner} (h : Safe text l) {count : ℕ}
    (hcount : count ≤ l.rest.length) (tok : Token)
    (hsafe : ¬ MeetsOpenComment (l.rest.drop count)) : Safe text { l.skip count with tok } := by
  have hlength := length_rest l
  have hpos := h.pos_le
  rw [h.text_eq] at hlength
  refine ⟨h.text_eq, ?_, ?_⟩
  · change l.pos + count ≤ text.length
    omega
  · change ¬ MeetsOpenComment (l.skip count).rest
    rwa [rest_skip]

/-- **One call**: it returns, and comes closer to the end of the text or is there. -/
theorem Safe.call {text : Bytes} {l : Scanner} (h : Safe text l) :
    ∃ l', Returns l l' ∧ Safe text l' ∧ (l'.rest.length < l.rest.length ∨ AtEnd l') := by
  have hspec := nextToken_spec (l := l) (Nat.lt_succ_self (l.rest.length + 1))
  have hmeets := (meetsOpenComment_iff l.rest).not.mp h.safe
  cases hnext : Pascal.nextToken l.rest with
  | token tok rest =>
      rw [hnext] at hspec hmeets
      obtain ⟨count, hcount, hcall, rfl⟩ := hspec
      refine ⟨_, ⟨_, hcall⟩, h.skip hcount tok hmeets, .inl ?_⟩
      change (l.skip count).rest.length < _
      rw [rest_skip]
      exact length_nextToken_lt hnext
  | eof =>
      rw [hnext] at hspec
      have hnil : l.rest.drop l.rest.length = [] := List.drop_length
      have hsafe := h.skip le_rfl ⟨.tokEOF, []⟩ (by rw [hnil]; exact nofun)
      refine ⟨_, ⟨_, hspec⟩, hsafe, .inr ⟨.inl rfl, 1, ?_⟩⟩
      have hpos : ¬ l.pos + l.rest.length < l.text.length := by
        rw [length_rest]
        omega
      exact if_neg hpos
  | unknown value =>
      rw [hnext] at hspec
      obtain ⟨count, ch, behind, hcall, hdrop, hspace, hcomment, hunknown⟩ := hspec
      have hcount : count ≤ l.rest.length := by
        by_contra hlt
        rw [List.drop_eq_nil_of_le (by omega)] at hdrop
        cases hdrop
      have hstop : ¬ MeetsOpenComment (ch :: behind) := by
        rw [meets_lexToken hspace hcomment, hunknown]
        exact id
      refine ⟨_, ⟨_, hcall⟩, h.skip hcount _ (by rwa [hdrop]), .inr ⟨.inr rfl, ?_⟩⟩
      have hrest : ({ l.skip count with tok := ⟨.tokUnknown, value⟩ } : Scanner).rest =
          ch :: behind := by
        change (l.skip count).rest = _
        rw [rest_skip, hdrop]
      rcases nextToken_lexToken hrest hspace hcomment (Nat.lt_succ_self _) with
        ⟨tok, rest, _, _, htoken, -⟩ | ⟨value', hvalue, hagain⟩
      · cases hunknown.symm.trans htoken
      · obtain rfl := Scanned.unknown.inj (hunknown.symm.trans hvalue)
        exact ⟨_, hagain⟩
  | endless =>
      rw [hnext] at hmeets
      exact absurd trivial hmeets

theorem Called.safe {text : Bytes} (hsafe : ¬ MeetsOpenComment text) {calls : ℕ} {l : Scanner}
    (hcalled : Called text calls l) : Safe text l := by
  induction hcalled with
  | init => exact ⟨rfl, Nat.zero_le _, hsafe⟩
  | next _ hreturns ih =>
      obtain ⟨l', hcall, hsafe', -⟩ := ih.call
      rwa [hreturns.unique hcall]

/-- From a lexer that some calls came to, the rest of them come to the end. -/
theorem ends_of_called {text : Bytes} (hsafe : ¬ MeetsOpenComment text) {calls : ℕ} {l : Scanner}
    (hcalled : Called text calls l) :
    ∃ more ≤ l.rest.length, ∃ l', Called text (calls + more + 1) l' ∧ AtEnd l' := by
  induction hlength : l.rest.length using Nat.strong_induction_on generalizing calls l with
  | _ length ih =>
      obtain ⟨l', hcall, -, hless | hend⟩ := (hcalled.safe hsafe).call
      · obtain ⟨more, hmore, l'', hcalled', hend⟩ :=
          ih l'.rest.length (hlength ▸ hless) (hcalled.next hcall) rfl
        refine ⟨more + 1, by omega, l'', ?_, hend⟩
        rwa [Nat.add_right_comm calls 1 more] at hcalled'
      · exact ⟨0, Nat.zero_le _, l', hcalled.next hcall, hend⟩

theorem not_returns_of_endless {l : Scanner} (hendless : Pascal.nextToken l.rest = .endless)
    (l' : Scanner) : ¬ Returns l l' := by
  rintro ⟨fuel, hcall⟩
  have hfuel : l.rest.length + 1 < fuel + (l.rest.length + 2) := by omega
  have hspec := nextToken_spec hfuel
  rw [hendless] at hspec
  have hmore := nextToken_below (Nat.le_add_right fuel (l.rest.length + 2)) l l' hcall
  cases hmore.symm.trans hspec

/-- A lexer that meets a comment that is not closed comes to a call that does not return. -/
theorem exists_endless {text : Bytes} {calls : ℕ} {l : Scanner} (hcalled : Called text calls l)
    (hmeets : MeetsOpenComment l.rest) :
    ∃ calls' l', Called text calls' l' ∧ ∀ l'', ¬ Returns l' l'' := by
  induction hlength : l.rest.length using Nat.strong_induction_on generalizing calls l with
  | _ length ih =>
      have hnext := (meetsOpenComment_iff l.rest).mp hmeets
      cases hscanned : Pascal.nextToken l.rest with
      | token tok rest =>
          have hspec := nextToken_spec (l := l) (Nat.lt_succ_self (l.rest.length + 1))
          rw [hscanned] at hspec hnext
          obtain ⟨count, -, hcall, rfl⟩ := hspec
          have hrest : ({ l.skip count with tok } : Scanner).rest = l.rest.drop count :=
            rest_skip l count
          refine ih _ ?_ (hcalled.next ⟨_, hcall⟩) (hrest ▸ hnext) rfl
          rw [hrest, ← hlength]
          exact length_nextToken_lt hscanned
      | endless =>
          exact ⟨calls, l, hcalled, not_returns_of_endless hscanned⟩
      | eof =>
          rw [hscanned] at hnext
          exact hnext.elim
      | unknown value =>
          rw [hscanned] at hnext
          exact hnext.elim

/-- **The calls of `nextToken` on a text** return and come to an end exactly when the lexer meets no
comment that is not closed. -/
theorem scans_iff (text : Bytes) : Scans text ↔ ¬ MeetsOpenComment text := by
  constructor
  · intro hscans hmeets
    obtain ⟨calls, l, hcalled, hendless⟩ := exists_endless .init hmeets
    obtain ⟨l', hreturns, -⟩ := hscans.returns calls l hcalled
    exact hendless l' hreturns
  · intro hsafe
    constructor
    · intro calls l hcalled
      obtain ⟨l', hcall, hsafe', -⟩ := (hcalled.safe hsafe).call
      exact ⟨l', hcall, hsafe'.pos_le⟩
    · obtain ⟨more, hmore, l, hcalled, hend⟩ := ends_of_called hsafe .init
      rw [Nat.zero_add] at hcalled
      exact ⟨more, hmore, l, hcalled, hend⟩

/-- A text of one brace: the first call, in `newLexer`, does not return. -/
theorem newLexer_brace :
    (∀ fuel, nextToken fuel (init (ascii "\x7b")) = none) ∧ ¬ Scans (ascii "\x7b") := by
  have hendless : Pascal.nextToken (init (ascii "\x7b")).rest = .endless := by decide
  constructor
  · intro fuel
    refine Option.eq_none_iff_forall_ne_some.mpr fun l' hcall => ?_
    exact not_returns_of_endless hendless l' ⟨fuel, hcall⟩
  · intro hscans
    obtain ⟨l', hreturns, -⟩ := hscans.returns 0 _ .init
    exact not_returns_of_endless hendless l' hreturns

end Scanner

end Eureka.Pascal
