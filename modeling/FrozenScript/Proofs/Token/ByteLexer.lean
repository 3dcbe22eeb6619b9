import FrozenScript.Proofs.Boundary
import FrozenScript.Proofs.Token.Coverage

/-!
# Scanning bytes

`ByteLexer.lex` splits a source into tokens as `lex` does, but it walks over bytes. It looks at one
byte at a time, counts its position in bytes, and takes text from the source only by `slice?`, which
refuses offsets inside a character. `Stands` says that it is between two characters. From such a
place the scanner moves over the bytes of whole characters and reads the same texts as the scanner
over characters does (`readText_eq`).
-/

namespace FrozenScript

open Text

namespace ByteLexer

/-- Why the scanner stops: the source has a fault, or text would be taken from inside a
character. -/
inductive Halt where
  | fault (error : LexError)
  | insideCharacter

/-- The text between two offsets of a source. -/
def textBetween (source : String) (start stop : Nat) : Except Halt String :=
  match slice? source start stop with
  | some text => .ok text
  | none => .error .insideCharacter

/-- A scanner between two rounds. -/
structure State where
  /-- The bytes that are left. -/
  rest : List UInt8
  pos : Nat := 0
  /-- The widths of the open blocks, innermost first. -/
  blocks : List Nat := []
  /-- The number of open parentheses. -/
  depth : Nat := 0
  atLineStart : Bool := true
  /-- The kinds and spans of the tokens so far, last one first. -/
  tokens : List (Kind × Span) := []

namespace State

/-- The indentation of the innermost open block. -/
def indentation (state : State) : Nat :=
  state.blocks.headD 0

/-- Move over some bytes. -/
def skip (state : State) (count : Nat) : State :=
  { state with rest := state.rest.drop count, pos := state.pos + count }

/-- Move over the bytes in a class. -/
def skipWhile (state : State) (p : Char → Bool) : State :=
  state.skip (state.rest.takeWhile (byteIn p)).length

/-- Move over one byte, if there is one. -/
def skipOne (state : State) : State :=
  if state.rest.isEmpty then state else state.skip 1

/-- Add a token that reaches from an earlier offset to the current one. -/
def push (state : State) (kind : Kind) (start : Nat) : State :=
  { state with tokens := (kind, .between start state.pos) :: state.tokens }

/-- Add an empty token at the current offset. -/
def pushEmpty (state : State) (kind : Kind) : State :=
  state.push kind state.pos

end State

/-- Close every block that is indented deeper than `width`, innermost first. -/
def closeBlocks (width : Nat) (state : State) : List Nat → State
  | [] => { state with blocks := [] }
  | block :: outer =>
    if width < block then closeBlocks width (state.pushEmpty .dedent) outer
    else { state with blocks := block :: outer }

/-- Open or close blocks for a line of the given width whose indentation starts at `start`. -/
def openLine (width start : Nat) (state : State) : Except Halt State :=
  let state := { state with atLineStart := false }
  if state.indentation < width then
    .ok ({ state with blocks := width :: state.blocks }.push .indent start)
  else
    let state := closeBlocks width state state.blocks
    if state.indentation = width then .ok state
    else .error (.fault ⟨.unmatchedIndentation, .between start state.pos⟩)

/-- Consume the indentation of a line, or a line that holds nothing else. -/
def measureLine (state : State) : Except Halt (State × Bool) :=
  let blanks := (state.rest.takeWhile (byteIn Lexer.isIndentation)).map Char.ofUInt8
  let indented := state.skipWhile Lexer.isIndentation
  match indented.rest with
  | [] => .ok (indented, false)
  | byte :: _ =>
    let c := Char.ofUInt8 byte
    if c = '\n' then .ok (indented.skipOne, false)
    else if c = '#' ∨ c = '\r' then .ok ((indented.skipWhile (· != '\n')).skipOne, false)
    else (·, true) <$> openLine (Lexer.indentationWidth blanks) state.pos indented

/-- The fault of a text that starts at an offset and is not closed. -/
def unterminated (source : String) (start : Nat) : Halt :=
  .fault ⟨.unterminatedText, restOfLine (Utf8.encode source) start⟩

/-- The characters of a text that stand for themselves. -/
def isPlain (quote c : Char) : Bool :=
  c != quote && c != '\\' && c != '\n'

/-- Read a text up to its closing quote. `value` holds the characters read so far. -/
def readText (source : String) (quote : Char) (start : Nat) :
    (rounds : Nat) → (value : List Char) → State → Except Halt (String × State)
  | 0, _, _ => .error (unterminated source start)
  | rounds + 1, value, state =>
    match state.rest.head?.map Char.ofUInt8 with
    | none => .error (unterminated source start)
    | some c =>
      if c = '\n' then .error (unterminated source start)
      else if c = quote then .ok (String.ofList value, state.skip 1)
      else if c = '\\' then do
        let behind ← textBetween source (state.pos + 1) source.utf8ByteSize
        match behind.toList with
        | [] => .error (unterminated source start)
        | escaped :: _ =>
          readText source quote start rounds (value ++ Lexer.unescape escaped)
            (state.skip (1 + escaped.utf8Size))
      else do
        let after := state.skipWhile (isPlain quote)
        let run ← textBetween source state.pos after.pos
        readText source quote start rounds (value ++ run.toList) after

/-- Consume a word or a number that starts with a character. -/
def scanWord (source : String) (first : Char) (state : State) : Except Halt State := do
  let after := state.skipWhile Lexer.isWordChar
  let word ← textBetween source state.pos after.pos
  if first.isDigit then
    match Lexer.readInteger word.toList with
    | .ok value => .ok (after.push (.integer value) state.pos)
    | .error fault => .error (.fault ⟨fault, .between state.pos after.pos⟩)
  else .ok (after.push (Lexer.readWord word.toList) state.pos)

/-- Consume a text between quotes. -/
def scanText (source : String) (quote : Char) (state : State) : Except Halt State := do
  let (value, after) ← readText source quote state.pos state.rest.length [] (state.skip 1)
  .ok (after.push (.text value) state.pos)

/-- Consume the symbol that starts with a character, in front of other ones. -/
def scanSymbol (source : String) (first : Char) (behind : List Char) (state : State) :
    Except Halt State :=
  match Lexer.readSymbol first behind with
  | .ok (symbol, width) =>
    let after := state.skip width
    let depth := Lexer.depthAfter state.depth symbol
    .ok ({ after with depth }.push (.symbol symbol) state.pos)
  | .error (.strayCharacter _) => do
    let text ← textBetween source state.pos source.utf8ByteSize
    let stray := text.toList.headD '\uFFFD'
    .error (.fault ⟨.strayCharacter stray, ⟨state.pos, stray.utf8Size⟩⟩)
  | .error fault => .error (.fault ⟨fault, ⟨state.pos, 1⟩⟩)

/-- Consume a blank, a comment or one token. -/
def scanOne (source : String) (state : State) : Except Halt State :=
  match state.rest with
  | [] => .ok state
  | byte :: rest =>
    let c := Char.ofUInt8 byte
    if Lexer.isSkipped c then .ok (state.skip 1)
    else if c = '#' then .ok (state.skipWhile (· != '\n'))
    else if c = '\n' then
      let after := state.skip 1
      .ok (if state.depth = 0 then { after.push .newline state.pos with atLineStart := true }
        else after)
    else if Lexer.isWordChar c then scanWord source c state
    else if c = '\'' || c = '"' then scanText source c state
    else scanSymbol source c (rest.map Char.ofUInt8) state

/-- One round: at the start of a logical line measure its indentation, and unless that consumed the
line, scan one token. -/
def step (source : String) (state : State) : Except Halt State :=
  if state.atLineStart && state.depth == 0 then do
    let (state, hasTokens) ← measureLine state
    if hasTokens then scanOne source state else pure state
  else scanOne source state

/-- Close the last line and all blocks at the end of the text. -/
def finish (state : State) : List (Kind × Span) :=
  let state := if state.atLineStart then state else state.pushEmpty .newline
  let state := state.blocks.foldl (fun state _ => state.pushEmpty .dedent) state
  (state.pushEmpty .endOfFile).tokens.reverse

/-- Scan until no byte is left. -/
def run (source : String) : (rounds : Nat) → State → Except Halt (List (Kind × Span))
  | 0, state => .ok (finish state)
  | rounds + 1, state =>
    if state.rest.isEmpty then .ok (finish state)
    else
      match step source state with
      | .ok state => run source rounds state
      | .error halt => .error halt

/-- Split a source into tokens by its bytes. -/
def lex (source : String) : Except Halt (List (Kind × Span)) :=
  let bytes := Utf8.encode source
  run source bytes.length { rest := bytes }

end ByteLexer

/-! ## The scanner over characters -/

namespace Lexer

theorem isWordChar_blind : Blind isWordChar false :=
  blind_or isAlphanum_blind (blind_eq (by decide))

theorem isIndentation_blind : Blind isIndentation false :=
  blind_or (blind_or (blind_eq (by decide)) (blind_eq (by decide))) (blind_eq (by decide))

theorem isSkipped_blind : Blind isSkipped false :=
  blind_or isIndentation_blind (blind_eq (by decide))

/-- No symbol starts with a character from 128 on. -/
theorem readSymbol_of_le {c : Char} (h : 128 ≤ c.toNat) (rest : List Char) :
    readSymbol c rest = .error (.strayCharacter c) := by
  unfold readSymbol
  split
  all_goals try exact absurd h (by decide)
  rfl

/-- A stray character is the one that no symbol starts with. -/
theorem eq_of_readSymbol {c d : Char} {rest : List Char}
    (h : readSymbol c rest = .error (.strayCharacter d)) : d = c := by
  unfold readSymbol at h
  split at h <;> cases h
  rfl

/-- A round leaves fewer bytes, unless nothing is left. -/
theorem byteLength_lt_of_step {state after : State} (h : step state = .ok after)
    (hrest : state.rest ≠ []) : byteLength after.rest < byteLength state.rest := by
  obtain ⟨chars, hsplit, -, hne⟩ := (round_of_step h).consumes
  have hpos := List.length_pos_iff.mpr (hne hrest)
  have hsize := length_le_byteLength chars
  rw [hsplit, byteLength_append]
  omega

end Lexer

theorem isPlain_blind {quote : Char} (h : quote.toNat < 128) :
    Blind (ByteLexer.isPlain quote) true :=
  blind_and (blind_and (blind_ne h) (blind_ne (by decide))) (blind_ne (by decide))

namespace ByteLexer

/-! ## Places of the scanner -/

/-- The scanner stands between the characters of a source. -/
structure Stands (source : String) (done rest : List Char) (state : State) : Prop where
  split : source.toList = done ++ rest
  rest : state.rest = Utf8.bytes rest
  pos : state.pos = byteLength done

namespace Stands

variable {source : String} {done chars rest : List Char} {state : State}

theorem skip (h : Stands source done (chars ++ rest) state) {count : Nat}
    (hcount : count = byteLength chars) :
    Stands source (done ++ chars) rest (state.skip count) := by
  refine ⟨?_, ?_, ?_⟩
  · rw [h.split, List.append_assoc]
  · have hlength : count = (Utf8.bytes chars).length := hcount.trans (Utf8.length_bytes _).symm
    unfold State.skip
    rw [h.rest, Utf8.bytes_append, hlength]
    exact List.drop_left
  · rw [byteLength_append, ← h.pos, ← hcount]
    rfl

theorem length_takeWhile {p : Char → Bool} {answer : Bool} (hblind : Blind p answer)
    (h : Stands source done rest state) :
    (state.rest.takeWhile (byteIn p)).length = byteLength (rest.takeWhile p) := by
  rw [h.rest, takeWhile_bytes hblind, Utf8.length_bytes]

theorem takeWhile_dropWhile (p : Char → Bool) (h : Stands source done rest state) :
    Stands source done (rest.takeWhile p ++ rest.dropWhile p) state := by
  rwa [List.takeWhile_append_dropWhile]

/-- The bytes in a class end where the characters in it do. -/
theorem skipWhile {p : Char → Bool} {answer : Bool} (hblind : Blind p answer)
    (h : Stands source done rest state) :
    Stands source (done ++ rest.takeWhile p) (rest.dropWhile p) (state.skipWhile p) :=
  (h.takeWhile_dropWhile p).skip (h.length_takeWhile hblind)

/-- Moving over bytes and moving over their characters lead to the same place. -/
theorem skip_eq {cursor : Cursor} (h : Stands source done (chars ++ rest) state)
    (hpos : state.pos = cursor.offset) {count : Nat} (hcount : count = byteLength chars) :
    state.skip count =
      { state with rest := Utf8.bytes rest, pos := (cursor.advanceBy chars).offset } := by
  rw [Cursor.offset_advanceBy, ← hpos, ← hcount, ← (h.skip hcount).rest]
  rfl

theorem pos_skip {cursor : Cursor} (h : Stands source done (chars ++ rest) state)
    (hpos : state.pos = cursor.offset) {count : Nat} (hcount : count = byteLength chars) :
    (state.skip count).pos = (cursor.advanceBy chars).offset := by
  rw [h.skip_eq hpos hcount]

/-- The text that the scanner moves over can be taken. -/
theorem textWhile {p : Char → Bool} {answer : Bool} (hblind : Blind p answer)
    (h : Stands source done rest state) :
    textBetween source state.pos (state.skipWhile p).pos =
      .ok (String.ofList (rest.takeWhile p)) := by
  have hstop : (state.skipWhile p).pos = state.pos + byteLength (rest.takeWhile p) :=
    congrArg (state.pos + ·) (h.length_takeWhile hblind)
  unfold textBetween
  rw [slice?_of_split (h.takeWhile_dropWhile p).split h.pos hstop]

/-- The text behind the scanner can be taken. -/
theorem textBehind (h : Stands source done rest state) :
    textBetween source state.pos source.utf8ByteSize = .ok (String.ofList rest) := by
  have hsplit : source.toList = done ++ (rest ++ []) := by rw [h.split, List.append_nil]
  have hstop : source.utf8ByteSize = state.pos + byteLength rest := by
    rw [← byteLength_toList, h.split, byteLength_append, h.pos]
  unfold textBetween
  rw [slice?_of_split hsplit h.pos hstop]

/-- The next byte is in a class exactly if the next character is. -/
theorem head {c : Char} (h : Stands source done (c :: rest) state) :
    ∃ byte tail, state.rest = byte :: tail ∧ byte ∈ String.utf8EncodeChar c := by
  have hrest := h.rest
  rw [Utf8.bytes_cons] at hrest
  cases hbytes : String.utf8EncodeChar c with
  | nil => exact absurd hbytes String.utf8EncodeChar_ne_nil
  | cons byte tail =>
      rw [hbytes] at hrest
      exact ⟨byte, _, hrest, List.mem_cons_self⟩

/-- The next byte is all of the next character if that is below 128. -/
theorem head_of_lt {c : Char} {byte : UInt8} {tail : List UInt8}
    (h : Stands source done (c :: rest) state) (hbytes : state.rest = byte :: tail)
    (hlt : c.toNat < 128) : Char.ofUInt8 byte = c ∧ tail = Utf8.bytes rest := by
  obtain ⟨first, hfirst, hchar⟩ := utf8EncodeChar_of_lt hlt
  have hrest := h.rest
  rw [hbytes, Utf8.bytes_cons, hfirst, List.singleton_append] at hrest
  obtain ⟨rfl, rfl⟩ := List.cons.inj hrest
  exact ⟨hchar, rfl⟩

end Stands

/-! ## Texts -/

/-- Characters that stand for themselves are read as they are. -/
theorem readText_takeWhile (quote : Char) (value chars : List Char) (cursor : Cursor) :
    Lexer.readText quote value cursor chars =
      Lexer.readText quote ((chars.takeWhile (isPlain quote)).reverse ++ value)
        (cursor.advanceBy (chars.takeWhile (isPlain quote))) (chars.dropWhile (isPlain quote)) := by
  induction chars generalizing value cursor with
  | nil => rfl
  | cons c chars ih =>
  cases hplain : isPlain quote c with
  | true =>
      rw [List.takeWhile_cons_of_pos hplain, List.dropWhile_cons_of_pos hplain, List.reverse_cons,
        List.append_assoc]
      unfold isPlain at hplain
      simp only [Bool.and_eq_true, bne_iff_ne] at hplain
      obtain ⟨⟨hquote, hslash⟩, hline⟩ := hplain
      rw [Lexer.readText_cons, if_neg hline, if_neg hquote, if_neg hslash]
      exact ih ..
  | false =>
      have hstop : ¬ isPlain quote c = true := Bool.eq_false_iff.mp hplain
      rw [List.takeWhile_cons_of_neg hstop, List.dropWhile_cons_of_neg hstop]
      rfl

/-- The two scanners read the same text, and find the same ones unclosed. -/
theorem readText_eq {source : String} {quote : Char} (hquote : quote.toNat < 128)
    {start rounds : Nat} {done rest : List Char} {state : State} {cursor : Cursor}
    {value : List Char} (h : Stands source done rest state) (hpos : state.pos = cursor.offset)
    (hrounds : rest.length < rounds) :
    readText source quote start rounds value state =
      match Lexer.readText quote value.reverse cursor rest with
      | none => .error (unterminated source start)
      | some (text, last, after) =>
        .ok (text, { state with rest := Utf8.bytes after, pos := last.offset }) := by
  -- A round of the scanner over bytes moves over a whole run of plain characters, so the other
  -- scanner may take several steps for it (`readText_takeWhile`).
  induction rounds generalizing done rest state cursor value with
  | zero => exact absurd hrounds (Nat.not_lt_zero _)
  | succ rounds ih =>
  cases rest with
  | nil =>
      unfold readText
      rw [h.rest]
      rfl
  | cons c rest =>
  obtain ⟨byte, tail, hbytes, hmem⟩ := h.head
  have hfirst (sign : Char) (hsign : sign.toNat < 128) := ofUInt8_eq_iff hmem hsign
  have hstands : Stands source done ([c] ++ rest) state := h
  unfold readText
  rw [hbytes, Lexer.readText_cons]
  dsimp only [List.head?_cons, Option.map_some]
  by_cases hline : c = '\n'
  · rw [if_pos ((hfirst '\n' (by decide)).mpr hline), if_pos hline]
  rw [if_neg (mt (hfirst '\n' (by decide)).mp hline), if_neg hline]
  by_cases hclose : c = quote
  · have hone : 1 = byteLength [c] := by
      rw [byteLength_singleton, utf8Size_of_lt (hclose ▸ hquote)]
    rw [if_pos ((hfirst quote hquote).mpr hclose), if_pos hclose, List.reverse_reverse,
      hstands.skip_eq hpos hone]
    rfl
  rw [if_neg (mt (hfirst quote hquote).mp hclose), if_neg hclose]
  by_cases hslash : c = '\\'
  · have hone : 1 = byteLength [c] := by
      rw [byteLength_singleton, hslash]
      rfl
    have htext : textBetween source (state.pos + 1) source.utf8ByteSize =
        .ok (String.ofList rest) :=
      (hstands.skip hone).textBehind
    rw [if_pos ((hfirst '\\' (by decide)).mpr hslash), if_pos hslash, htext]
    dsimp only [bind, Except.bind]
    rw [String.toList_ofList]
    cases rest with
    | nil => rfl
    | cons escaped rest =>
        have hboth : Stands source done ([c, escaped] ++ rest) state := h
        have hcount : 1 + escaped.utf8Size = byteLength [c, escaped] := by
          rw [byteLength_cons, byteLength_singleton, hslash]
          rfl
        rw [List.length_cons, List.length_cons] at hrounds
        refine (ih (hboth.skip hcount) (hboth.pos_skip hpos hcount) (by omega)).trans ?_
        rw [List.reverse_append]
        rfl
  · rw [if_neg (mt (hfirst '\\' (by decide)).mp hslash), if_neg hslash]
    have hblind := isPlain_blind hquote
    have hplain : isPlain quote c = true := by
      unfold isPlain
      rw [bne_iff_ne.mpr hline, bne_iff_ne.mpr hclose, bne_iff_ne.mpr hslash]
      rfl
    have hbehind : (state.skipWhile (isPlain quote)).pos =
        (cursor.advanceBy ((c :: rest).takeWhile (isPlain quote))).offset :=
      (h.takeWhile_dropWhile _).pos_skip hpos (h.length_takeWhile hblind)
    have hfewer : ((c :: rest).dropWhile (isPlain quote)).length < rounds := by
      rw [List.dropWhile_cons_of_pos hplain]
      exact Nat.lt_of_le_of_lt (List.dropWhile_suffix _).length_le (Nat.lt_of_succ_lt_succ hrounds)
    rw [h.textWhile hblind]
    refine (ih (h.skipWhile hblind) hbehind hfewer).trans ?_
    have hread := Lexer.readText_cons quote value.reverse cursor c rest
    rw [if_neg hline, if_neg hclose, if_neg hslash] at hread
    rw [← hread, readText_takeWhile quote value.reverse (c :: rest), String.toList_ofList,
      List.reverse_append]
    rfl

end ByteLexer

end FrozenScript
