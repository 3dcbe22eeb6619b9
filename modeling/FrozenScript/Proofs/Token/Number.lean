import FrozenScript.Proofs.Token.Places
import FrozenScript.Proofs.Token.Rendering
import Mathlib.Algebra.Group.Nat.Defs

/-!
# Numbers

`Numeral` says which runs of word characters are numbers: groups of digits with single underscores
between them. The main statement, `lex_integer_literal`, says what becomes of a run of word
characters that starts with a digit, wherever the scanner looks for a token (`Seeks`). A number that
fits into a signed word of 64 bits is one token with this value, and everything else is a fault of
the whole run.
-/

namespace FrozenScript

open Text

/-! ## Numerals -/

/-- Groups of digits with an underscore between any two of them. -/
inductive Numeral : List Char → Prop where
  | group {digits : List Char} (hsome : digits ≠ []) (hdigits : ∀ c ∈ digits, c.isDigit = true) :
      Numeral digits
  | grouped {digits behind : List Char} (hsome : digits ≠ [])
      (hdigits : ∀ c ∈ digits, c.isDigit = true) (h : Numeral behind) :
      Numeral (digits ++ '_' :: behind)

/-- The number that digits with underscores between them stand for. -/
def numeralValue (word : List Char) : Nat :=
  Nat.ofDigitChars 10 (word.filter (· != '_')) 0

namespace Numeral

variable {word : List Char}

/-- A number starts with a digit. -/
theorem exists_eq_cons (h : Numeral word) :
    ∃ digit behind, word = digit :: behind ∧ digit.isDigit = true := by
  cases h with
  | @group digits hsome hdigits =>
      obtain ⟨digit, behind, rfl⟩ := List.exists_cons_of_ne_nil hsome
      exact ⟨digit, behind, rfl, hdigits digit List.mem_cons_self⟩
  | @grouped digits behind hsome hdigits =>
      obtain ⟨digit, more, rfl⟩ := List.exists_cons_of_ne_nil hsome
      exact ⟨digit, _, rfl, hdigits digit List.mem_cons_self⟩

/-- A digit in front of a number belongs to its first group. -/
theorem cons (h : Numeral word) {digit : Char} (hdigit : digit.isDigit = true) :
    Numeral (digit :: word) := by
  cases h with
  | group _ hdigits =>
      exact .group (List.cons_ne_nil _ _) (List.forall_mem_cons.mpr ⟨hdigit, hdigits⟩)
  | grouped _ hdigits hbehind =>
      exact .grouped (List.cons_ne_nil _ _) (List.forall_mem_cons.mpr ⟨hdigit, hdigits⟩) hbehind

end Numeral

namespace Lexer

theorem isGroupedDigits_cons {digit : Char} (h : digit.isDigit = true) (word : List Char) :
    isGroupedDigits (digit :: word) = isGroupedDigits word := by
  have hline : digit ≠ '_' := by
    rintro rfl
    exact absurd h (by decide)
  simp [isGroupedDigits, hline, h]

theorem isGroupedDigits_append {digits : List Char} (h : ∀ c ∈ digits, c.isDigit = true)
    (word : List Char) : isGroupedDigits (digits ++ word) = isGroupedDigits word := by
  induction digits with
  | nil => rfl
  | cons digit digits ih =>
      obtain ⟨hdigit, hdigits⟩ := List.forall_mem_cons.mp h
      rw [List.cons_append, isGroupedDigits_cons hdigit, ih hdigits]

/-- What may follow a digit makes a number with it. -/
theorem numeral_of_isGroupedDigits {word : List Char} (h : isGroupedDigits word = true)
    {digit : Char} (hdigit : digit.isDigit = true) : Numeral (digit :: word) := by
  have halone : ∀ c ∈ [digit], c.isDigit = true := List.forall_mem_singleton.mpr hdigit
  fun_induction isGroupedDigits word generalizing digit with
  | case1 => exact .group (List.cons_ne_nil _ _) halone
  | case2 => exact nomatch h
  | case3 c rest ih =>
      obtain ⟨hc, hrest⟩ := (Bool.and_eq_true _ _).mp h
      exact .grouped (List.cons_ne_nil _ _) halone
        (ih hrest hc (List.forall_mem_singleton.mpr hc))
  | case4 c rest _ _ ih =>
      obtain ⟨hc, hrest⟩ := (Bool.and_eq_true _ _).mp h
      exact (ih hrest hc (List.forall_mem_singleton.mpr hc)).cons hdigit

/-- The scanner takes exactly the numbers for numbers. -/
theorem isGroupedDigits_iff {digit : Char} (hdigit : digit.isDigit = true) (word : List Char) :
    isGroupedDigits (digit :: word) = true ↔ Numeral (digit :: word) := by
  constructor
  · intro h
    rw [isGroupedDigits_cons hdigit] at h
    exact numeral_of_isGroupedDigits h hdigit
  · intro h
    generalize digit :: word = run at h
    induction h with
    | group _ hdigits => exact isGroupedDigits_of_isDigit hdigits
    | grouped _ hdigits hbehind ih =>
        obtain ⟨first, behind, rfl, hfirst⟩ := hbehind.exists_eq_cons
        rw [isGroupedDigits_cons hfirst] at ih
        rw [isGroupedDigits_append hdigits, isGroupedDigits, hfirst, ih]
        rfl

/-! ## Reading a number -/

/-- What a run of word characters that starts with a digit is read as. -/
inductive Reads (word : List Char) : Except LexFault Int64 → Prop where
  | number {value : Int64} (hform : Numeral word) (hvalue : value.toInt = numeralValue word) :
      Reads word (.ok value)
  | huge (hform : Numeral word) (hvalue : 2 ^ 63 - 1 < numeralValue word) :
      Reads word (.error .hugeInteger)
  | malformed (hform : ¬ Numeral word) : Reads word (.error .malformedInteger)

theorem readInteger_reads {digit : Char} (hdigit : digit.isDigit = true) (word : List Char) :
    Reads (digit :: word) (readInteger (digit :: word)) := by
  have hvalue : Decimal.value ((digit :: word).filter (· != '_')) = numeralValue (digit :: word) :=
    rfl
  have hmin : Int64.minValue.toInt = -2 ^ 63 := rfl
  have hmax : Int64.maxValue.toInt = 2 ^ 63 - 1 := rfl
  unfold readInteger Decimal.toInt64?
  rw [hvalue, hmin, hmax]
  by_cases hgrouped : isGroupedDigits (digit :: word) = true
  · rw [if_pos hgrouped]
    have hform := (isGroupedDigits_iff hdigit word).mp hgrouped
    by_cases hfits : numeralValue (digit :: word) ≤ 2 ^ 63 - 1
    · rw [if_pos (by omega)]
      exact .number hform (Int64.toInt_ofInt_of_le (by omega) (by omega))
    · rw [if_neg (by omega)]
      exact .huge hform (by omega)
  · rw [if_neg hgrouped]
    exact .malformed (mt (isGroupedDigits_iff hdigit word).mpr hgrouped)

/-! ## Looking for a token -/

/-- The states of the scanner in which it looks for a token: within a line, or between parentheses,
or behind the indentation of a line. -/
inductive Seeks (source : String) : State → Prop where
  | within {state : State} (hreach : Reaches (initial source) state)
      (hplace : ¬ (state.atLineStart = true ∧ state.depth = 0)) : Seeks source state
  | line {start state : State} (hreach : Reaches (initial source) start)
      (hplace : start.atLineStart = true ∧ start.depth = 0)
      (hmeasure : measureLine start = .ok (state, true)) : Seeks source state

namespace Seeks

variable {source : String} {state : State}

theorem placed (h : Seeks source state) : ∃ done, state.Placed source.toList done := by
  have hinitial : (initial source).Placed source.toList [] := .nil source.toList
  cases h with
  | within hreach => exact hreach.placed hinitial
  | line hreach _ hmeasure =>
      obtain ⟨done, hstart⟩ := hreach.placed hinitial
      cases measures_of_measureLine hmeasure with
      | line hrest _ _ _ _ hopens => exact ⟨_, hopens.placed hstart hrest⟩

/-- The round in which the scanner looks for a token. -/
theorem exists_round (h : Seeks source state) (hrest : state.rest ≠ []) :
    ∃ start, Reaches (initial source) start ∧ start.rest ≠ [] ∧ step start = scanOne state := by
  cases h with
  | within hreach hplace =>
      refine ⟨state, hreach, hrest, ?_⟩
      rw [step, if_neg (by simpa using hplace)]
  | @line start _ hreach hplace hmeasure =>
      refine ⟨start, hreach, fun hnil => ?_, ?_⟩
      · cases measures_of_measureLine hmeasure with
        | line hstart => simp [hnil] at hstart
      · rw [step, if_pos (by simpa using hplace), hmeasure]
        rfl

end Seeks

/-- A run of word characters behind a digit is scanned as what it is read as. -/
theorem scanOne_digit {state : State} {digit : Char} {word rest : List Char}
    (hrest : state.rest = digit :: word ++ rest) (hdigit : digit.isDigit = true)
    (hword : ∀ c ∈ word, isWordChar c = true) (hend : ∀ c ∈ rest.head?, isWordChar c = false) :
    scanOne state = match readInteger (digit :: word) with
      | .ok value => .ok (state.pushLexeme (digit :: word) rest (.integer value))
      | .error fault =>
        .error ⟨fault, state.cursor.spanTo (state.cursor.advanceBy (digit :: word))⟩ := by
  have hfirst := isWordChar_of_isDigit hdigit
  obtain ⟨hblank, hcomment, hline⟩ := startsToken_of_isWordChar hfirst
  obtain ⟨htake, hdrop⟩ :=
    takeWhile_append_of_head (List.forall_mem_cons.mpr ⟨hfirst, hword⟩) hend
  unfold scanOne
  rw [hrest, List.cons_append] at *
  simp only [hblank, hcomment, hline, hfirst, hdigit, Bool.false_eq_true, if_false, if_true]
  rw [htake, hdrop]
  rfl

end Lexer

/-! ## Whole sources -/

/-- A token and a span have a byte in common. -/
def Token.Overlaps (token : Token) (span : Span) : Prop :=
  token.span.offset < span.stop ∧ span.offset < token.span.stop

instance (token : Token) (span : Span) : Decidable (token.Overlaps span) :=
  inferInstanceAs (Decidable (_ ∧ _))

/-- A token that is not empty is the only one at its place. -/
theorem filter_overlaps {tokens : List Token} (hordered : tokens.Pairwise Token.Precedes)
    {token : Token} (hmem : token ∈ tokens) (hsome : token.span.offset < token.span.stop) :
    tokens.filter (·.Overlaps token.span) = [token] := by
  obtain ⟨before, after, rfl⟩ := List.append_of_mem hmem
  obtain ⟨-, hafter, hbefore⟩ := List.pairwise_append.mp hordered
  have hself : token.Overlaps token.span := ⟨hsome, hsome⟩
  have hearlier : before.filter (·.Overlaps token.span) = [] := by
    refine List.filter_eq_nil_iff.mpr fun earlier hearlier => ?_
    have hstop : earlier.span.stop ≤ token.span.offset :=
      hbefore earlier hearlier token List.mem_cons_self
    have happart : ¬ earlier.Overlaps token.span := fun hoverlaps =>
      Nat.not_le_of_lt hoverlaps.2 hstop
    simpa using happart
  have hlater : after.filter (·.Overlaps token.span) = [] := by
    refine List.filter_eq_nil_iff.mpr fun later hlater => ?_
    have hstart : token.span.stop ≤ later.span.offset :=
      (List.pairwise_cons.mp hafter).1 later hlater
    have happart : ¬ later.Overlaps token.span := fun hoverlaps =>
      Nat.not_le_of_lt hoverlaps.1 hstart
    simpa using happart
  rw [List.filter_append, hearlier, List.filter_cons_of_pos (by simpa using hself), hlater]
  rfl

/-- The scanner makes a token of the characters in front of `rest`, and no other token of the source
has a byte in common with it. -/
structure Produces (source : String) (state : Lexer.State) (rest : List Char) (token : Token) :
    Prop where
  scanned : ∃ after, Lexer.scanOne state = .ok after ∧
    Lexer.Reaches (Lexer.initial source) after ∧ after.tokens = token :: state.tokens ∧
    after.rest = rest
  alone : ∀ tokens, lex source = .ok tokens → tokens.filter (·.Overlaps token.span) = [token]

section

variable {source : String} {state : Lexer.State}

/-- A lexeme in front of the scanner becomes a token of the source. -/
theorem produces_of_lexeme (h : Lexer.Seeks source state) {chars rest : List Char} {kind : Kind}
    (hlexeme : Lexer.Lexeme chars rest kind) (hrest : state.rest = chars ++ rest) :
    Produces source state rest ⟨kind, ⟨state.cursor.offset, byteLength chars⟩, state.cursor.line,
      state.cursor.column⟩ := by
  have hscan := Lexer.scanOne_lexeme hlexeme hrest
  have hsome : state.rest ≠ [] := by
    rw [hrest]
    exact List.append_ne_nil_of_left_ne_nil hlexeme.ne_nil rest
  obtain ⟨start, hreach, hstart, hround⟩ := h.exists_round hsome
  have hafter := hreach.trans (.step hstart (hround.trans hscan) (.refl _))
  have hpushed := Lexer.tokens_pushLexeme state chars rest kind
  refine ⟨⟨_, hscan, hafter, hpushed, rfl⟩, fun tokens htokens => ?_⟩
  have hmem := Lexer.mem_of_tokensFrom (hafter.tokensFrom_eq.symm.trans htokens)
    (hpushed ▸ List.mem_cons_self)
  have hpos : 0 < byteLength chars :=
    Nat.lt_of_lt_of_le (List.length_pos_iff.mpr hlexeme.ne_nil) (length_le_byteLength chars)
  exact filter_overlaps (placed_of_lex htokens).1 hmem (Nat.lt_add_of_pos_right hpos)

/-- A fault in front of the scanner is the one of the source. -/
theorem lex_of_scanOne_error (h : Lexer.Seeks source state) (hrest : state.rest ≠ [])
    {error : LexError} (hscan : Lexer.scanOne state = .error error) :
    lex source = .error error := by
  obtain ⟨start, hreach, hstart, hround⟩ := h.exists_round hrest
  rw [lex_eq_tokensFrom, hreach.tokensFrom_eq,
    Lexer.tokensFrom_of_error hstart (hround.trans hscan)]

theorem not_produces_of_error {error : LexError} (hscan : Lexer.scanOne state = .error error)
    (source : String) (rest : List Char) : ¬ ∃ token, Produces source state rest token := by
  rintro ⟨token, ⟨after, hafter, -⟩, -⟩
  rw [hscan] at hafter
  exact nomatch hafter

end

/-- What becomes of a run of word characters that starts with a digit, where the scanner looks for a
token. Exactly the numbers below `2 ^ 63` become a token, which has the value of the number and is
the only one of these characters. Otherwise the source is refused with a fault of the whole run. -/
theorem lex_integer_literal {source : String} {state : Lexer.State} {digit : Char}
    {word rest : List Char} (hseeks : Lexer.Seeks source state)
    (hrest : state.rest = digit :: word ++ rest) (hdigit : digit.isDigit = true)
    (hword : ∀ c ∈ word, Lexer.isWordChar c = true)
    (hend : ∀ c ∈ rest.head?, Lexer.isWordChar c = false) :
    ∃ span, span.offset = state.cursor.offset ∧
      slice? source span.offset span.stop = some (String.ofList (digit :: word)) ∧
      ((∃ token, Produces source state rest token) ↔
        Numeral (digit :: word) ∧ numeralValue (digit :: word) ≤ 2 ^ 63 - 1) ∧
      (∀ token, Produces source state rest token → ∃ value,
        token = ⟨.integer value, span, state.cursor.line, state.cursor.column⟩ ∧
          value.toInt = numeralValue (digit :: word)) ∧
      (¬ Numeral (digit :: word) → ∃ error, lex source = .error error ∧ error.span = span ∧
        error.fault.message = "invalid integer literal") ∧
      (Numeral (digit :: word) → 2 ^ 63 - 1 < numeralValue (digit :: word) →
        ∃ error, lex source = .error error ∧ error.span = span ∧
          error.fault.message = "integer literal is too large") := by
  have hscan := Lexer.scanOne_digit hrest hdigit hword hend
  have hsome : state.rest ≠ [] := by simp [hrest]
  obtain ⟨done, hplaced⟩ := hseeks.placed
  have hsplit : source.toList = done ++ (digit :: word ++ rest) := by rw [← hrest, hplaced.split]
  have hoffset : state.cursor.offset = byteLength done := by
    rw [hplaced.cursor, Lexer.offset_cursorBehind]
  refine ⟨⟨state.cursor.offset, byteLength (digit :: word)⟩, rfl,
    slice?_of_split hsplit hoffset rfl, ?_⟩
  have hreads := Lexer.readInteger_reads hdigit word
  generalize hread : Lexer.readInteger (digit :: word) = result at hscan hreads
  cases hreads with
  | @number value hform hvalue =>
      have hbound := value.toInt_lt
      have hfits : numeralValue (digit :: word) ≤ 2 ^ 63 - 1 := by omega
      have hproduces := produces_of_lexeme hseeks (.integer hdigit hword hend hread) hrest
      refine ⟨⟨fun _ => ⟨hform, hfits⟩, fun _ => ⟨_, hproduces⟩⟩, fun token htoken => ?_,
        fun hwrong => absurd hform hwrong, fun _ hhuge => absurd hfits (Nat.not_le_of_lt hhuge)⟩
      obtain ⟨after, hafter, -, htokens, -⟩ := htoken.scanned
      obtain ⟨after', hafter', -, htokens', -⟩ := hproduces.scanned
      obtain rfl := Except.ok.inj (hafter.symm.trans hafter')
      exact ⟨value, (List.cons.inj (htokens.symm.trans htokens')).1, hvalue⟩
  | huge hform hhuge =>
      have hnone := not_produces_of_error hscan source rest
      have hlex := lex_of_scanOne_error hseeks hsome hscan
      rw [Lexer.spanTo_advanceBy_eq] at hlex
      exact ⟨⟨fun htoken => absurd htoken hnone, fun h => absurd h.2 (Nat.not_le_of_lt hhuge)⟩,
        fun token htoken => absurd ⟨token, htoken⟩ hnone, fun hwrong => absurd hform hwrong,
        fun _ _ => ⟨_, hlex, rfl, rfl⟩⟩
  | malformed hwrong =>
      have hnone := not_produces_of_error hscan source rest
      have hlex := lex_of_scanOne_error hseeks hsome hscan
      rw [Lexer.spanTo_advanceBy_eq] at hlex
      exact ⟨⟨fun htoken => absurd htoken hnone, fun h => absurd h.1 hwrong⟩,
        fun token htoken => absurd ⟨token, htoken⟩ hnone, fun _ => ⟨_, hlex, rfl, rfl⟩,
        fun hform => absurd hform hwrong⟩

/-- A number may have zeros in front, and underscores between its digits. -/
theorem lex_integer_literal_zeros :
    ∃ state span token, span.offset = 2 ∧ slice? "x=00_7" span.offset span.stop = some "00_7" ∧
      Produces "x=00_7" state [] token ∧ token = ⟨.integer 7, span, 1, 3⟩ := by
  let state : Lexer.State :=
    { rest := ['0', '0', '_', '7'], cursor := ⟨2, 1, 0⟩, atLineStart := false
      tokens := [⟨.symbol .assign, ⟨1, 1⟩, 1, 2⟩, ⟨.identifier "x", ⟨0, 1⟩, 1, 1⟩] }
  have hreach : Lexer.Reaches (Lexer.initial "x=00_7") state :=
    .step (by decide) rfl (.step (by decide) rfl (.refl state))
  have hrest : state.rest = '0' :: ['0', '_', '7'] ++ [] := rfl
  have hseven : Numeral ['7'] := .group (by decide) (List.all_eq_true.mp rfl)
  have hzeros : ∀ c ∈ ['0', '0'], c.isDigit = true := List.all_eq_true.mp rfl
  obtain ⟨span, hoffset, hslice, hproduces, hvalue, -, -⟩ :=
    lex_integer_literal (.within hreach (by decide)) hrest rfl (List.all_eq_true.mp rfl) nofun
  obtain ⟨token, htoken⟩ := hproduces.mpr ⟨.grouped (by decide) hzeros hseven, by decide⟩
  obtain ⟨value, hkind, hnumber⟩ := hvalue token htoken
  have hword : value = 7 := Int64.toInt_inj.mp hnumber
  subst hword
  exact ⟨state, span, token, hoffset, hslice, htoken, hkind⟩

end FrozenScript
