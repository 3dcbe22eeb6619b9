import FrozenScript.Proofs.Token.Scanning
import FrozenScript.Text.Quoted

/-!
# Tokens written out

`Kind.written` writes the lexeme of a kind: a name as it is, a number in decimal, a text between
single quotes with escapes, and a keyword or a symbol by its spelling. The main statement,
`lex_inverts_rendering`, says that kinds written out with single blanks between them are scanned
back, whatever their order.
-/

namespace FrozenScript

open Text

/-! ## Written forms -/

/-- How a character is written between single quotes: as in its quoted form, but the zero character
has a short escape too. -/
def escape (c : Char) : List Char :=
  if c = '\x00' then ['\\', '0'] else Quoted.encodeChar c

/-- The lexeme of a kind. The layout of a source has none. -/
def Kind.written : Kind → String
  | .identifier name => name
  | .integer value => Decimal.ofInt64 value
  | .text value => String.ofList ('\'' :: value.toList.flatMap escape ++ ['\''])
  | .keyword word => word.spelling
  | .symbol sign => sign.spelling
  | .newline | .indent | .dedent | .endOfFile => ""

/-- A name: letters, digits and underscores, of which the first one is no digit, and no keyword. -/
structure IsName (name : String) : Prop where
  chars : ∃ first behind, name.toList = first :: behind ∧ (first.isAlpha = true ∨ first = '_') ∧
    ∀ c ∈ behind, c.isAlphanum = true ∨ c = '_'
  free : ∀ word : Keyword, word.spelling ≠ name

/-- The kinds that a source can spell. Numbers have no sign of their own. -/
def Kind.IsSpelled : Kind → Prop
  | .identifier name => IsName name
  | .integer value => 0 ≤ value
  | .text _ | .keyword _ | .symbol _ => True
  | .newline | .indent | .dedent | .endOfFile => False

namespace Lexer

/-! ## Words -/

theorem isWordChar_of_isAlphanum {c : Char} (h : c.isAlphanum = true ∨ c = '_') :
    isWordChar c = true := by
  simpa [isWordChar] using h

theorem not_isDigit_of_isAlpha {c : Char} (h : c.isAlpha = true ∨ c = '_') :
    c.isDigit = false := by
  rcases h with halpha | rfl
  · refine Bool.eq_false_iff.mpr fun hdigit => ?_
    have hnine : c.toNat ≤ 57 := (Char.isDigit_iff_toNat.mp hdigit).2
    -- The letters come behind the digits, the small ones behind the capital ones.
    rcases (Bool.or_eq_true _ _).mp halpha with hupper | hlower
    · have hcapital : 65 ≤ c.toNat := UInt32.le_iff_toNat_le.mp (of_decide_eq_true hupper).1
      omega
    · have hle : 'a'.val ≤ c.val := of_decide_eq_true (Bool.and_eq_true_iff.mp hlower).1
      have hsmall : 97 ≤ c.toNat := UInt32.le_iff_toNat_le.mp hle
      omega
  · rfl

/-- A name is read as itself. -/
theorem readWord_of_isName {name : String} (h : IsName name) :
    readWord name.toList = .identifier name := by
  have hfree : Keyword.ofSpelling? name = none := by
    refine Option.eq_none_iff_forall_not_mem.mpr fun word hword => ?_
    exact h.free word (Keyword.spelling_of_ofSpelling? hword)
  simp [readWord, hfree]

theorem readWord_spelling (word : Keyword) : readWord word.spelling.toList = .keyword word := by
  simp [readWord, Keyword.ofSpelling?_spelling]

theorem lexeme_identifier {name : String} (h : IsName name) :
    Lexeme name.toList [] (.identifier name) := by
  obtain ⟨first, behind, hchars, hfirst, hbehind⟩ := h.chars
  have hword : Lexeme (first :: behind) [] (readWord (first :: behind)) := by
    refine .word (isWordChar_of_isAlphanum ?_) (not_isDigit_of_isAlpha hfirst)
      (fun c hc => isWordChar_of_isAlphanum (hbehind c hc)) nofun
    exact hfirst.imp_left fun halpha => by simp [Char.isAlphanum, halpha]
  rw [← hchars, readWord_of_isName h] at hword
  exact hword

theorem lexeme_keyword (word : Keyword) : Lexeme word.spelling.toList [] (.keyword word) := by
  have hread := readWord_spelling word
  cases word <;>
    exact hread ▸ .word (by decide) (by decide) (List.all_eq_true.mp (by decide)) nofun

/-! ## Numbers -/

theorem isGroupedDigits_of_isDigit {digits : List Char} (h : ∀ c ∈ digits, c.isDigit = true) :
    isGroupedDigits digits = true := by
  induction digits with
  | nil => rfl
  | cons c digits ih =>
      obtain ⟨hfirst, hdigits⟩ := List.forall_mem_cons.mp h
      have hline : c ≠ '_' := by
        rintro rfl
        exact absurd hfirst (by decide)
      simp [isGroupedDigits, hline, hfirst, ih hdigits]

/-- A number is read from its digits. -/
theorem readInteger_toDigits {value : Int64} {n : Nat} (h : value.toInt = n) :
    readInteger (Nat.toDigits 10 n) = .ok value := by
  have hdigits : ∀ c ∈ Nat.toDigits 10 n, c.isDigit = true :=
    fun _ => Decimal.isDigit_of_mem_toDigits
  have hfilter : (Nat.toDigits 10 n).filter (· != '_') = Nat.toDigits 10 n := by
    refine List.filter_eq_self.mpr fun c hc => ?_
    have hdigit := hdigits c hc
    simp only [bne_iff_ne, ne_eq]
    rintro rfl
    exact absurd hdigit (by decide)
  have hfits : Decimal.toInt64? (n : Int) = some value := by
    have hlow := value.le_toInt
    have hhigh := value.toInt_lt
    rw [Decimal.toInt64?, if_pos (by rw [← h]; exact ⟨hlow, Int.le_of_lt_add_one hhigh⟩), ← h,
      Int64.ofInt_toInt]
  rw [readInteger, if_pos (isGroupedDigits_of_isDigit hdigits), hfilter, Decimal.value_toDigits,
    hfits]

theorem toList_ofInt64 {value : Int64} {n : Nat} (h : value.toInt = n) :
    (Decimal.ofInt64 value).toList = Nat.toDigits 10 n := by
  rw [Decimal.ofInt64, h]
  show (String.ofList (Nat.toDigits 10 n)).toList = _
  exact String.toList_ofList

theorem lexeme_integer {value : Int64} (h : 0 ≤ value) :
    Lexeme (Decimal.ofInt64 value).toList [] (.integer value) := by
  obtain ⟨n, hn⟩ := Int.eq_ofNat_of_zero_le (Int64.le_iff_toInt_le.mp h)
  rw [toList_ofInt64 hn]
  have hread := readInteger_toDigits hn
  have hdigits : ∀ c ∈ Nat.toDigits 10 n, c.isDigit = true :=
    fun _ => Decimal.isDigit_of_mem_toDigits
  cases hchars : Nat.toDigits 10 n with
  | nil => simp at hchars
  | cons digit word =>
      rw [hchars] at hread hdigits
      obtain ⟨hdigit, hword⟩ := List.forall_mem_cons.mp hdigits
      exact .integer hdigit (fun c hc => isWordChar_of_isDigit (hword c hc)) nofun hread

/-! ## Texts -/

theorem TextBody.append {quote : Char} {body value body' value' : List Char}
    (h : TextBody quote body value) (h' : TextBody quote body' value') :
    TextBody quote (body ++ body') (value ++ value') := by
  induction h with
  | nil => exact h'
  | plain hline hquote hslash _ ih => exact .plain hline hquote hslash ih
  | @escape c body value _ ih =>
      rw [List.append_assoc]
      exact .escape ih

/-- A character is read back from its quoted form, unless it is the zero character. -/
theorem textBody_encodeChar {c : Char} (h : c ≠ '\x00') :
    TextBody '\'' (Quoted.encodeChar c) [c] := by
  unfold Quoted.encodeChar
  split
  case h_6 => exact absurd rfl h
  case h_7 hslash hquote hline _ _ _ => exact .plain hline hquote hslash .nil
  all_goals exact .escape .nil

/-- A character is read back from the form it is written in. -/
theorem textBody_escape (c : Char) : TextBody '\'' (escape c) [c] := by
  unfold FrozenScript.escape
  by_cases hzero : c = '\x00'
  · rw [if_pos hzero, hzero]
    exact .escape .nil
  · rw [if_neg hzero]
    exact textBody_encodeChar hzero

theorem textBody_flatMap_escape (chars : List Char) :
    TextBody '\'' (chars.flatMap escape) chars := by
  induction chars with
  | nil => exact .nil
  | cons c chars ih => exact (textBody_escape c).append ih

theorem lexeme_text (value : String) :
    Lexeme (Kind.written (.text value)).toList [] (.text value) := by
  have hbody := textBody_flatMap_escape value.toList
  have htext : Lexeme ('\'' :: value.toList.flatMap escape ++ ['\'']) []
      (.text (String.ofList value.toList)) := .text (.inl rfl) hbody
  rw [String.ofList_toList] at htext
  rw [Kind.written, String.toList_ofList]
  exact htext

/-! ## Kinds -/

theorem lexeme_symbol (sign : Symbol) : Lexeme sign.spelling.toList [] (.symbol sign) := by
  cases sign <;> exact .symbol rfl rfl

/-- What is written is a lexeme. -/
theorem lexeme_written {kind : Kind} (h : kind.IsSpelled) : Lexeme kind.written.toList [] kind := by
  cases kind with
  | identifier name => exact lexeme_identifier h
  | integer value => exact lexeme_integer h
  | text value => exact lexeme_text value
  | keyword word => exact lexeme_keyword word
  | symbol sign => exact lexeme_symbol sign
  | newline | indent | dedent | endOfFile => exact h.elim

end Lexer

/-- The lexeme that a kind is written as. -/
def Kind.lexeme (kind : Kind) : List Char × Kind :=
  (kind.written.toList, kind)

theorem map_lexeme_snd (kinds : List Kind) : (kinds.map Kind.lexeme).map Prod.snd = kinds := by
  rw [List.map_map]
  exact List.map_id kinds

theorem intercalate_blank (first : List Char) (words : List (List Char)) :
    List.intercalate [' '] (first :: words) = first ++ words.flatMap (' ' :: ·) := by
  induction words generalizing first with
  | nil => simp
  | cons word words ih => rw [List.intercalate_cons_cons, ih]; simp

/-- Kinds that are written out with a blank between any two of them are scanned back, and then the
line ends and the source ends. -/
theorem lex_inverts_rendering {kinds : List Kind} (hne : kinds ≠ [])
    (h : ∀ kind ∈ kinds, kind.IsSpelled) :
    (lex (String.intercalate " " (kinds.map Kind.written))).map (List.map Token.kind) =
      .ok (kinds ++ [.newline, .endOfFile]) := by
  cases kinds with
  | nil => exact absurd rfl hne
  | cons first kinds =>
      have hlexemes : ∀ lexeme ∈ (first :: kinds).map Kind.lexeme,
          Lexer.Lexeme lexeme.1 [] lexeme.2 := by
        intro lexeme hlexeme
        obtain ⟨kind, hkind, rfl⟩ := List.mem_map.mp hlexeme
        exact Lexer.lexeme_written (h kind hkind)
      have hsource : String.intercalate " " ((first :: kinds).map Kind.written) =
          String.ofList (first.lexeme.1 ++ Lexer.behindBlanks (kinds.map Kind.lexeme)) := by
        rw [← String.toList_inj, String.toList_intercalate, String.toList_ofList]
        simp [intercalate_blank, Lexer.behindBlanks, List.flatMap_map, Kind.lexeme]
      rw [List.map_cons] at hlexemes
      rw [hsource, lex_spaced hlexemes, ← List.map_cons, map_lexeme_snd]

/-- A closing parenthesis at the start of a line, a text of escapes, the largest number, and
operators with the same beginning. -/
def mixedKinds : List Kind :=
  [.symbol .closeParen, .text "a'\\\n\x00\"é", .integer 9223372036854775807, .keyword .trueWord,
    .identifier "_x1", .symbol .assign, .symbol .equal]

/-- Names, numbers and texts among operators are scanned back. -/
theorem lex_inverts_rendering_mixed :
    mixedKinds ≠ [] ∧ (∀ kind ∈ mixedKinds, kind.IsSpelled) ∧
    (lex (String.intercalate " " (mixedKinds.map Kind.written))).map (List.map Token.kind) =
      .ok (mixedKinds ++ [.newline, .endOfFile]) := by
  have hbehind : ∀ c ∈ ['x', '1'], c.isAlphanum = true ∨ c = '_' :=
    List.forall_mem_cons.mpr ⟨.inl (by decide), List.forall_mem_singleton.mpr (.inl (by decide))⟩
  have hname : IsName "_x1" :=
    ⟨⟨'_', ['x', '1'], rfl, .inr rfl, hbehind⟩, fun word => by cases word <;> decide⟩
  have hspelled : ∀ kind ∈ mixedKinds, kind.IsSpelled := by
    simp [mixedKinds, Kind.IsSpelled, hname]
  exact ⟨nofun, hspelled, lex_inverts_rendering nofun hspelled⟩

end FrozenScript
