import FrozenScript.Proofs.Boundary
import FrozenScript.Proofs.Token.Coverage
import FrozenScript.Proofs.Token.Scanning

/-!
# Where tokens stand

`Token.Spans` says which characters of a source a token stands for: its span is theirs, its line and
its column are those of the first one, and unless it belongs to the layout, they are a lexeme of its
kind. Every token of a source spans some of its characters, behind those of the token before it
(`placed_of_lex`). The main statement, `lex_tokens_stand_alone`, says that the tokens are ordered,
and that the text of each of them is scanned to it alone.
-/

namespace FrozenScript

open Text

/-- The cursor behind some characters of a source. -/
def cursorBehind (before : List Char) : Cursor :=
  Cursor.advanceBy {} before

/-- A token stands for some of the characters of a source. -/
structure Token.Spans (token : Token) (before inside after : List Char) : Prop where
  span : token.span = ⟨byteLength before, byteLength inside⟩
  line : token.line = (cursorBehind before).line
  column : token.column = (cursorBehind before).column
  lexeme : token.kind.isLayout = false → Lexer.Lexeme inside after token.kind

/-- A token ends where the other one starts, or before. -/
def Token.Precedes (earlier later : Token) : Prop :=
  earlier.span.stop ≤ later.span.offset

namespace Lexer

theorem offset_cursorBehind (before : List Char) :
    (cursorBehind before).offset = byteLength before := by
  rw [cursorBehind, Cursor.offset_advanceBy]
  exact Nat.zero_add _

/-- Tokens, last one first, stand for characters of a source one behind the other. -/
structure Placed (source done rest : List Char) (cursor : Cursor) (tokens : List Token) : Prop where
  split : source = done ++ rest
  cursor : cursor = cursorBehind done
  spans : ∀ token ∈ tokens, ∃ before inside after,
    source = before ++ (inside ++ after) ∧ token.Spans before inside after
  behind : ∀ token ∈ tokens, token.span.stop ≤ byteLength done
  ordered : tokens.Pairwise fun later earlier => earlier.Precedes later

namespace Placed

variable {source done chars rest : List Char} {cursor : Cursor} {tokens : List Token}

theorem nil (source : List Char) : Placed source [] source {} [] :=
  ⟨rfl, rfl, nofun, nofun, .nil⟩

/-- Characters without a token. -/
theorem skip (h : Placed source done (chars ++ rest) cursor tokens) :
    Placed source (done ++ chars) rest (cursor.advanceBy chars) tokens := by
  refine ⟨?_, ?_, h.spans, fun token htoken => ?_, h.ordered⟩
  · rw [h.split, List.append_assoc]
  · rw [h.cursor, cursorBehind, cursorBehind, Cursor.advanceBy_append]
  · have hbehind := h.behind token htoken
    rw [byteLength_append]
    omega

/-- The characters of a token. -/
theorem token (h : Placed source done (chars ++ rest) cursor tokens) (kind : Kind)
    (hkind : kind.isLayout = false → Lexeme chars rest kind) :
    Placed source (done ++ chars) rest (cursor.advanceBy chars)
      (⟨kind, cursor.spanTo (cursor.advanceBy chars), cursor.line, cursor.column⟩ :: tokens) := by
  have hoffset : cursor.offset = byteLength done := by rw [h.cursor, offset_cursorBehind]
  have hspan := spanTo_advanceBy hoffset chars
  have hskip := h.skip
  refine ⟨hskip.split, hskip.cursor, List.forall_mem_cons.mpr ⟨?_, h.spans⟩,
    List.forall_mem_cons.mpr ⟨?_, hskip.behind⟩, List.pairwise_cons.mpr ⟨?_, h.ordered⟩⟩
  · refine ⟨done, chars, rest, h.split, hspan, ?_, ?_, hkind⟩
    · rw [← h.cursor]
    · rw [← h.cursor]
  · rw [hspan, byteLength_append]
    exact Nat.le_refl _
  · intro earlier hearlier
    have hbehind := h.behind earlier hearlier
    rw [Token.Precedes, hspan]
    exact hbehind

/-- A token of the layout. -/
theorem layout (h : Placed source done (chars ++ rest) cursor tokens) {kind : Kind}
    (hkind : kind.isLayout = true) :
    Placed source (done ++ chars) rest (cursor.advanceBy chars)
      (⟨kind, cursor.spanTo (cursor.advanceBy chars), cursor.line, cursor.column⟩ :: tokens) := by
  refine h.token kind fun hlexeme => ?_
  rw [hkind] at hlexeme
  exact nomatch hlexeme

end Placed

/-! ## Rounds -/

/-- The tokens of a state stand for characters that the scanner has consumed. -/
def State.Placed (source done : List Char) (state : State) : Prop :=
  Lexer.Placed source done state.rest state.cursor state.tokens

section

variable {source done : List Char} {state after : State}

theorem State.Placed.consume {chars rest : List Char} (h : state.Placed source done)
    (hrest : state.rest = chars ++ rest) :
    (state.consume chars rest).Placed source (done ++ chars) := by
  unfold State.Placed at h
  rw [hrest] at h
  exact h.skip

theorem State.Placed.pushLexeme {chars rest : List Char} {kind : Kind}
    (h : state.Placed source done) (hrest : state.rest = chars ++ rest)
    (hlexeme : Lexeme chars rest kind) :
    (state.pushLexeme chars rest kind).Placed source (done ++ chars) := by
  unfold State.Placed at h
  rw [hrest] at h
  exact h.token kind fun _ => hlexeme

/-- Empty tokens at the cursor. -/
theorem State.Placed.empties (h : state.Placed source done) {kinds : List Kind}
    (hkinds : ∀ kind ∈ kinds, kind.isLayout = true) :
    Lexer.Placed source done state.rest state.cursor
      (kinds.map state.emptyToken ++ state.tokens) := by
  induction kinds with
  | nil => exact h
  | cons kind kinds ih =>
      obtain ⟨hkind, hkinds⟩ := List.forall_mem_cons.mp hkinds
      have hmore : Lexer.Placed source done ([] ++ state.rest) state.cursor _ := ih hkinds
      have hempty := hmore.layout hkind
      rw [List.append_nil] at hempty
      exact hempty

theorem Opens.placed {width : Nat} {blanks behind : List Char} {opened : State}
    (h : Opens width state.cursor (state.consume blanks behind) opened)
    (hplaced : state.Placed source done) (hrest : state.rest = blanks ++ behind) :
    opened.Placed source (done ++ blanks) := by
  cases h with
  | deeper =>
      unfold State.Placed at hplaced
      rw [hrest] at hplaced
      exact hplaced.layout rfl
  | level =>
      rw [← List.map_replicate]
      refine (hplaced.consume hrest).empties fun kind hkind => ?_
      rw [List.eq_of_mem_replicate hkind]
      rfl

theorem Scans.placed (h : Scans state after) (hplaced : state.Placed source done) :
    ∃ done, after.Placed source done := by
  cases h with
  | done => exact ⟨done, hplaced⟩
  | blank hrest => exact ⟨_, hplaced.consume hrest⟩
  | comment hrest => exact ⟨_, hplaced.consume hrest⟩
  | joined hrest => exact ⟨_, hplaced.consume hrest⟩
  | @newline rest hrest =>
      have hline : Lexer.Placed source done (['\n'] ++ rest) state.cursor state.tokens := by
        rw [List.singleton_append, ← hrest]
        exact hplaced
      exact ⟨_, hline.layout rfl⟩
  | lexeme hrest hlexeme => exact ⟨_, hplaced.pushLexeme hrest hlexeme⟩

theorem Round.placed (h : Round state after) (hplaced : state.Placed source done) :
    ∃ done, after.Placed source done := by
  cases h with
  | within _ hscan => exact hscan.placed hplaced
  | blankLine _ _ hrest => exact ⟨_, hplaced.consume hrest⟩
  | line _ _ hrest _ hopens hbehind hlexeme =>
      have hopened := hopens.placed hplaced hrest
      exact ⟨_, hopened.pushLexeme (hopens.rest_eq.trans hbehind) hlexeme⟩

/-- The rounds of the scanner keep the tokens at their places. -/
theorem Reaches.placed {last : State} (h : Reaches state last)
    (hplaced : state.Placed source done) : ∃ done, last.Placed source done := by
  induction h generalizing done with
  | refl => exact ⟨done, hplaced⟩
  | step _ hstep _ ih =>
      obtain ⟨done, hfollowing⟩ := (round_of_step hstep).placed hplaced
      exact ih hfollowing

theorem exists_closing_eq_map (state : State) :
    ∃ kinds : List Kind, state.closing = kinds.map state.emptyToken ∧
      ∀ kind ∈ kinds, kind.isLayout = true := by
  refine ⟨(if state.atLineStart then [] else [.newline]) ++
    (List.replicate state.blocks.length .dedent ++ [.endOfFile]), ?_, fun kind hkind => ?_⟩
  · unfold State.closing
    split <;> simp
  · simp only [List.mem_append, List.mem_replicate, List.mem_singleton] at hkind
    rcases hkind with hkind | ⟨-, rfl⟩ | rfl
    · split at hkind
      · exact nomatch hkind
      · rw [List.mem_singleton.mp hkind]
        rfl
    · rfl
    · rfl

/-- The tokens that close what is open stand at the cursor. -/
theorem State.Placed.closing (h : state.Placed source done) :
    Lexer.Placed source done state.rest state.cursor (state.closing.reverse ++ state.tokens) := by
  obtain ⟨kinds, hclosing, hkinds⟩ := exists_closing_eq_map state
  rw [hclosing, ← List.map_reverse]
  exact h.empties fun kind hkind => hkinds kind (List.mem_reverse.mp hkind)

end

end Lexer

/-! ## Whole sources -/

/-- The tokens of a source stand for characters of it, one behind the other. -/
theorem placed_of_lex {source : String} {tokens : List Token} (h : lex source = .ok tokens) :
    tokens.Pairwise Token.Precedes ∧
      ∀ token ∈ tokens, ∃ before inside after,
        source.toList = before ++ (inside ++ after) ∧ token.Spans before inside after := by
  obtain ⟨last, hreach, -, -, rfl⟩ := exists_of_lex h
  have hinitial : (Lexer.initial source).Placed source.toList [] := .nil source.toList
  obtain ⟨done, hlast⟩ := hreach.placed hinitial
  have hall : (last.closing.reverse ++ last.tokens).reverse =
      last.tokens.reverse ++ last.closing := by
    rw [List.reverse_append, List.reverse_reverse]
  have hplaced := hlast.closing
  refine ⟨?_, fun token htoken => ?_⟩
  · rw [← hall, List.pairwise_reverse]
    exact hplaced.ordered
  · rw [← hall] at htoken
    exact hplaced.spans token (List.mem_reverse.mp htoken)

/-- Each token of a source ends where the next one starts, or before. The text of a token that is
no layout is split into that token alone, with the end of the line and of the file behind it. -/
theorem lex_tokens_stand_alone {source : String} {tokens : List Token}
    (h : lex source = .ok tokens) :
    tokens.Pairwise Token.Precedes ∧
      ∀ token ∈ tokens, token.kind.isLayout = false →
        ∃ text, slice? source token.span.offset token.span.stop = some text ∧
          (lex text).map (List.map Token.kind) = .ok [token.kind, .newline, .endOfFile] := by
  obtain ⟨hordered, hplaced⟩ := placed_of_lex h
  refine ⟨hordered, fun token htoken hlayout => ?_⟩
  obtain ⟨before, inside, after, hsplit, hspans⟩ := hplaced token htoken
  have hoffset : token.span.offset = byteLength before := by rw [hspans.span]
  have hstop : token.span.stop = token.span.offset + byteLength inside := by
    rw [hspans.span]
    rfl
  have hlexeme : ∀ lexeme ∈ [(inside, token.kind)], Lexer.Lexeme lexeme.1 [] lexeme.2 :=
    List.forall_mem_singleton.mpr ((hspans.lexeme hlayout).separated nofun)
  have halone := lex_spaced hlexeme
  have hnothing : Lexer.behindBlanks [] = [] := rfl
  rw [hnothing, List.append_nil] at halone
  exact ⟨String.ofList inside, slice?_of_split hsplit hoffset hstop, halone⟩

/-- A text with an escaped line break keeps its value without the line around it. -/
theorem lex_tokens_stand_alone_broken_text :
    ∃ tokens, lex "f('a\\\nb')" = .ok tokens ∧ tokens.Pairwise Token.Precedes ∧
      ∀ token ∈ tokens, token.kind.isLayout = false →
        ∃ text, slice? "f('a\\\nb')" token.span.offset token.span.stop = some text ∧
          (lex text).map (List.map Token.kind) = .ok [token.kind, .newline, .endOfFile] := by
  have hlex : lex "f('a\\\nb')" = .ok [⟨.identifier "f", ⟨0, 1⟩, 1, 1⟩,
      ⟨.symbol .openParen, ⟨1, 1⟩, 1, 2⟩, ⟨.text "ab", ⟨2, 6⟩, 1, 3⟩,
      ⟨.symbol .closeParen, ⟨8, 1⟩, 2, 3⟩, ⟨.newline, ⟨9, 0⟩, 2, 4⟩, ⟨.endOfFile, ⟨9, 0⟩, 2, 4⟩] :=
    eq_ok_of_toOption (by decide +kernel)
  obtain ⟨hordered, halone⟩ := lex_tokens_stand_alone hlex
  exact ⟨_, hlex, hordered, halone⟩

end FrozenScript
