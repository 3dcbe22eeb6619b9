import FrozenScript.Proofs.Token.ByteLexer

/-!
# The two scanners

The scanner over bytes and the scanner over characters stay in the same state (`Mirrors`) until they
come to the same tokens or to the same fault (`Agrees`). The main statement, `byteLexer_lex`, says
so of every source, so that no offset at which text is taken is ever inside a character. The proof
also keeps track of the spans of tokens and faults, which never end inside a character
(`aligned_of_lex`, `aligned_of_lex_error`).
-/

namespace FrozenScript

open Text

namespace ByteLexer

/-! ## States -/

/-- The kinds and spans of some tokens. -/
def kindsAndSpans (tokens : List Token) : List (Kind × Span) :=
  tokens.map fun token => (token.kind, token.span)

/-- The scanner over bytes and the scanner over characters are in the same state, and the spans of
the tokens so far do not end inside characters. -/
structure Mirrors (source : String) (done : List Char) (walker : State) (scanner : Lexer.State) :
    Prop where
  stands : Stands source done scanner.rest walker
  pos : walker.pos = scanner.cursor.offset
  blocks : walker.blocks = scanner.blocks
  depth : walker.depth = scanner.depth
  atLineStart : walker.atLineStart = scanner.atLineStart
  tokens : walker.tokens = kindsAndSpans scanner.tokens
  aligned : ∀ token ∈ scanner.tokens, token.span.Aligned source

/-- The two scanners come to related results, or to the same fault, whose span does not end inside a
character. -/
inductive Agrees {α β : Type} (source : String) (related : α → β → Prop) :
    Except Halt α → Except LexError β → Prop where
  | ok {a : α} {b : β} (h : related a b) : Agrees source related (.ok a) (.ok b)
  | fault {error : LexError} (h : error.span.Aligned source) :
      Agrees source related (.error (.fault error)) (.error error)

namespace Agrees

variable {α β γ δ : Type} {source : String} {related : α → β → Prop} {related' : γ → δ → Prop}

theorem ite {p q : Prop} [Decidable p] [Decidable q] {walked walked' : Except Halt α}
    {scanned scanned' : Except LexError β} (hiff : p ↔ q)
    (hthen : q → Agrees source related walked scanned)
    (helse : ¬ q → Agrees source related walked' scanned') :
    Agrees source related (if p then walked else walked') (if q then scanned else scanned') := by
  by_cases hq : q
  · rw [if_pos hq, if_pos (hiff.mpr hq)]
    exact hthen hq
  · rw [if_neg hq, if_neg (mt hiff.mp hq)]
    exact helse hq

theorem bind {walked : Except Halt α} {scanned : Except LexError β} {walk : α → Except Halt γ}
    {scan : β → Except LexError δ} (h : Agrees source related walked scanned)
    (hnext : ∀ a b, related a b → Agrees source related' (walk a) (scan b)) :
    Agrees source related' (walked >>= walk) (scanned >>= scan) := by
  cases h with
  | ok h => exact hnext _ _ h
  | fault h => exact .fault h

theorem map {walked : Except Halt α} {scanned : Except LexError β} {f : α → γ} {g : β → δ}
    (h : Agrees source related walked scanned) (hmap : ∀ a b, related a b → related' (f a) (g b)) :
    Agrees source related' (f <$> walked) (g <$> scanned) := by
  cases h with
  | ok h => exact .ok (hmap _ _ h)
  | fault h => exact .fault h

end Agrees

/-- The two scanners are in the same state, wherever in the source. -/
def Same (source : String) (walker : State) (scanner : Lexer.State) : Prop :=
  ∃ done, Mirrors source done walker scanner

theorem aligned_spanTo {source : String} {before chars rest : List Char}
    (h : source.toList = before ++ (chars ++ rest)) {start stop : Cursor}
    (hstart : start.offset = byteLength before)
    (hstop : stop.offset = byteLength (before ++ chars)) : (start.spanTo stop).Aligned source := by
  have hspan : start.spanTo stop = ⟨byteLength before, byteLength chars⟩ := by
    rw [Cursor.spanTo, hstart, hstop, byteLength_append, Span.between, Nat.add_sub_cancel_left]
  rw [hspan]
  exact aligned_of_split h

namespace Mirrors

variable {source : String} {done chars rest : List Char} {walker : State} {scanner : Lexer.State}

theorem offset (h : Mirrors source done walker scanner) :
    scanner.cursor.offset = byteLength done :=
  h.pos.symm.trans h.stands.pos

theorem consume (h : Mirrors source done walker scanner) (hrest : scanner.rest = chars ++ rest)
    {count : Nat} (hcount : count = byteLength chars) :
    Mirrors source (done ++ chars) (walker.skip count) (scanner.consume chars rest) := by
  have hstands := h.stands
  rw [hrest] at hstands
  refine ⟨hstands.skip hcount, ?_, h.blocks, h.depth, h.atLineStart, h.tokens, h.aligned⟩
  exact hstands.pos_skip h.pos hcount

theorem skipWhile (h : Mirrors source done walker scanner) {p : Char → Bool} {answer : Bool}
    (hblind : Blind p answer) :
    Mirrors source (done ++ scanner.rest.takeWhile p) (walker.skipWhile p)
      (scanner.consume (scanner.rest.takeWhile p) (scanner.rest.dropWhile p)) :=
  h.consume List.takeWhile_append_dropWhile.symm (h.stands.length_takeWhile hblind)

/-- The span of some characters that are left. -/
theorem aligned_front (h : Mirrors source done walker scanner)
    (hrest : scanner.rest = chars ++ rest) :
    (scanner.cursor.spanTo (scanner.cursor.advanceBy chars)).Aligned source := by
  have hsplit := h.stands.split
  rw [hrest] at hsplit
  exact aligned_spanTo hsplit h.offset (Lexer.offset_consume h.offset chars rest)

/-- A token that reaches from an earlier place to the current one. -/
theorem push {before : List Char} (h : Mirrors source (before ++ chars) walker scanner)
    {start : Cursor} (hstart : start.offset = byteLength before) (kind : Kind) :
    Mirrors source (before ++ chars) (walker.push kind start.offset) (scanner.push kind start) := by
  have hsplit := h.stands.split
  rw [List.append_assoc] at hsplit
  have haligned := aligned_spanTo hsplit hstart h.offset
  refine ⟨⟨h.stands.split, h.stands.rest, h.stands.pos⟩, h.pos, h.blocks, h.depth, h.atLineStart,
    ?_, List.forall_mem_cons.mpr ⟨haligned, h.aligned⟩⟩
  unfold State.push
  rw [h.tokens, h.pos]
  rfl

theorem pushEmpty (h : Mirrors source done walker scanner) (kind : Kind) :
    Mirrors source done (walker.pushEmpty kind) (scanner.pushEmpty kind) := by
  have hnothing : Mirrors source (done ++ []) walker scanner := by rwa [List.append_nil]
  have hpush := hnothing.push h.offset kind
  rwa [List.append_nil, ← h.pos] at hpush

theorem withBlocks (h : Mirrors source done walker scanner) {blocks blocks' : List Nat}
    (hblocks : blocks = blocks') :
    Mirrors source done { walker with blocks } { scanner with blocks := blocks' } :=
  ⟨⟨h.stands.split, h.stands.rest, h.stands.pos⟩, h.pos, hblocks, h.depth, h.atLineStart, h.tokens,
    h.aligned⟩

theorem withDepth (h : Mirrors source done walker scanner) (depth : Nat) :
    Mirrors source done { walker with depth } { scanner with depth } :=
  ⟨⟨h.stands.split, h.stands.rest, h.stands.pos⟩, h.pos, h.blocks, rfl, h.atLineStart, h.tokens,
    h.aligned⟩

theorem withAtLineStart (h : Mirrors source done walker scanner) (atLineStart : Bool) :
    Mirrors source done { walker with atLineStart } { scanner with atLineStart } :=
  ⟨⟨h.stands.split, h.stands.rest, h.stands.pos⟩, h.pos, h.blocks, h.depth, rfl, h.tokens,
    h.aligned⟩

theorem closeBlocks (h : Mirrors source done walker scanner) (width : Nat)
    {blocks blocks' : List Nat} (hblocks : blocks = blocks') :
    Mirrors source done (ByteLexer.closeBlocks width walker blocks)
      (Lexer.closeBlocks width scanner blocks') := by
  subst hblocks
  induction blocks generalizing walker scanner with
  | nil => exact h.withBlocks rfl
  | cons block outer ih =>
      unfold ByteLexer.closeBlocks Lexer.closeBlocks
      split
      next => exact ih (h.pushEmpty .dedent)
      next => exact h.withBlocks rfl

end Mirrors

section

variable {source : String} {done chars rest : List Char} {walker : State} {scanner : Lexer.State}

theorem openLine_agrees {before : List Char} (h : Mirrors source (before ++ chars) walker scanner)
    {start : Cursor} (hstart : start.offset = byteLength before) (width : Nat) :
    Agrees source (Same source) (openLine width start.offset walker)
      (Lexer.openLine width start scanner) := by
  have hwithin := h.withAtLineStart false
  have hclosed := hwithin.closeBlocks width hwithin.blocks
  have hopened := hwithin.withBlocks (congrArg (width :: ·) hwithin.blocks)
  have hsplit := hclosed.stands.split
  rw [List.append_assoc] at hsplit
  unfold openLine Lexer.openLine
  refine .ite ?_ (fun _ => ?_) fun _ => .ite ?_ (fun _ => ?_) fun _ => ?_
  · exact iff_of_eq (congrArg (·.headD 0 < width) hwithin.blocks)
  · exact .ok ⟨_, hopened.push hstart .indent⟩
  · exact iff_of_eq (congrArg (·.headD 0 = width) hclosed.blocks)
  · exact .ok ⟨_, hclosed⟩
  · rw [hclosed.pos]
    exact .fault (aligned_spanTo hsplit hstart hclosed.offset)

/-- The indentation of a line, read as characters. -/
theorem Stands.blanks (h : Stands source done rest walker) :
    (walker.rest.takeWhile (byteIn Lexer.isIndentation)).map Char.ofUInt8 =
      rest.takeWhile Lexer.isIndentation := by
  rw [h.rest, takeWhile_bytes Lexer.isIndentation_blind]
  exact map_ofUInt8_bytes fun c hc =>
    Lexer.isIndentation_blind.toNat_lt (Lexer.of_mem_takeWhile hc)

theorem Mirrors.skipOne (h : Mirrors source done walker scanner)
    (hfirst : ∀ c ∈ scanner.rest.head?, c.toNat < 128) :
    Same source walker.skipOne scanner.skipOne := by
  unfold Lexer.State.skipOne State.skipOne
  have hbytes := h.stands.rest
  cases hrest : scanner.rest with
  | nil =>
      rw [hrest] at hbytes
      rw [hbytes]
      exact ⟨done, h⟩
  | cons c rest =>
      have hone : 1 = byteLength [c] := by
        rw [byteLength_singleton, utf8Size_of_lt (hfirst c (hrest ▸ rfl))]
      obtain ⟨byte, tail, hwalker, -⟩ := (hrest ▸ h.stands).head
      rw [hwalker]
      exact ⟨_, h.consume hrest hone⟩

theorem measureLine_agrees (h : Mirrors source done walker scanner) :
    Agrees source (fun walked scanned => Same source walked.1 scanned.1 ∧ walked.2 = scanned.2)
      (measureLine walker) (Lexer.measureLine scanner) := by
  have hindented := h.skipWhile Lexer.isIndentation_blind
  unfold measureLine
  dsimp only
  rw [h.stands.blanks]
  cases hbehind : scanner.rest.dropWhile Lexer.isIndentation with
  | nil =>
      rw [hbehind] at hindented
      have hrest := hindented.stands.rest
      unfold Lexer.measureLine
      dsimp only
      rw [hbehind, hrest]
      exact .ok ⟨⟨_, hindented⟩, rfl⟩
  | cons c rest =>
      rw [Lexer.measureLine_of_cons hbehind]
      rw [hbehind] at hindented ⊢
      obtain ⟨byte, tail, hbytes, hmem⟩ := hindented.stands.head
      have hfirst (sign : Char) (hsign : sign.toNat < 128) := ofUInt8_eq_iff hmem hsign
      rw [hbytes]
      dsimp only
      refine .ite (hfirst '\n' (by decide)) (fun hline => ?_)
        fun _ => .ite ?_ (fun _ => ?_) fun _ => ?_
      · refine .ok ⟨hindented.skipOne ?_, rfl⟩
        rintro _ ⟨⟩
        exact hline ▸ by decide
      · exact or_congr (hfirst '#' (by decide)) (hfirst '\r' (by decide))
      · refine .ok ⟨(hindented.skipWhile (@blind_ne '\n' (by decide))).skipOne ?_, rfl⟩
        intro d hd
        exact Lexer.eq_newline_of_mem_head? hd ▸ by decide
      · rw [h.pos]
        refine (openLine_agrees hindented h.offset _).map ?_
        exact fun _ _ hsame => ⟨hsame, rfl⟩

/-! ### Words -/

theorem scanWord_agrees {c : Char} (h : Mirrors source done walker scanner) {first : Char}
    (hfirst : first.isDigit = c.isDigit) :
    Agrees source (Same source) (scanWord source first walker)
      (let word := scanner.rest.takeWhile Lexer.isWordChar
      let after := scanner.consume word (scanner.rest.dropWhile Lexer.isWordChar)
      if c.isDigit then
        match Lexer.readInteger word with
        | .ok value => .ok (after.push (.integer value) scanner.cursor)
        | .error fault => .error ⟨fault, scanner.cursor.spanTo after.cursor⟩
      else .ok (after.push (Lexer.readWord word) scanner.cursor)) := by
  have hafter := h.skipWhile Lexer.isWordChar_blind
  unfold scanWord
  dsimp only
  rw [h.stands.textWhile Lexer.isWordChar_blind, hfirst, hafter.pos, h.pos]
  dsimp only [bind, Except.bind]
  rw [String.toList_ofList]
  split
  next =>
    cases Lexer.readInteger (scanner.rest.takeWhile Lexer.isWordChar) with
    | ok value => exact .ok ⟨_, hafter.push h.offset _⟩
    | error fault => exact .fault (h.aligned_front List.takeWhile_append_dropWhile.symm)
  next => exact .ok ⟨_, hafter.push h.offset _⟩

/-! ### Texts -/

/-- The span up to the end of the line ends where the line break is. -/
theorem restOfLine_eq (h : Mirrors source done walker scanner) :
    restOfLine (Utf8.encode source) walker.pos =
      scanner.cursor.spanTo (scanner.cursor.advanceBy (scanner.rest.takeWhile (· != '\n'))) := by
  have hbytes : Utf8.encode source = Utf8.bytes done ++ Utf8.bytes scanner.rest := by
    rw [← Utf8.bytes_append, ← h.stands.split]
    rfl
  have hpos : walker.pos = (Utf8.bytes done).length := by rw [h.stands.pos, Utf8.length_bytes]
  have hmin : min walker.pos (Utf8.encode source).length = walker.pos := by
    rw [hbytes, List.length_append, hpos]
    exact Nat.min_eq_left (Nat.le_add_right ..)
  unfold restOfLine
  dsimp only
  rw [hmin, hbytes, hpos, List.drop_left, bne_newlineByte,
    takeWhile_bytes (blind_ne (by decide)), Utf8.length_bytes, Utf8.length_bytes,
    Lexer.spanTo_advanceBy h.offset]

theorem scanText_agrees {quote : Char} (h : Mirrors source done walker scanner)
    (hrest : scanner.rest = quote :: rest) (hquote : quote.toNat < 128) :
    Agrees source (Same source) (scanText source quote walker)
      (match Lexer.readText quote [] (scanner.cursor.advance quote) rest with
      | some (value, cursor, rest) =>
        .ok ({ scanner with rest, cursor }.push (.text value) scanner.cursor)
      | none =>
        let line := scanner.rest.takeWhile (· != '\n')
        .error ⟨.unterminatedText, scanner.cursor.spanTo (scanner.cursor.advanceBy line)⟩) := by
  have hstands : Stands source done ([quote] ++ rest) walker := by
    rw [List.singleton_append, ← hrest]
    exact h.stands
  have hone : 1 = byteLength [quote] := by rw [byteLength_singleton, utf8Size_of_lt hquote]
  have hpos : (walker.skip 1).pos = (scanner.cursor.advance quote).offset :=
    hstands.pos_skip h.pos hone
  have hrounds : rest.length < walker.rest.length := by
    rw [hstands.rest, Utf8.length_bytes]
    exact length_le_byteLength ([quote] ++ rest)
  unfold scanText
  rw [readText_eq hquote (hstands.skip hone) hpos hrounds]
  dsimp only [List.reverse_nil]
  cases hread : Lexer.readText quote [] (scanner.cursor.advance quote) rest with
  | none =>
      unfold unterminated
      rw [restOfLine_eq h]
      exact .fault (h.aligned_front List.takeWhile_append_dropWhile.symm)
  | some read =>
      obtain ⟨text, last, after⟩ := read
      obtain ⟨body, value, rfl, -, rfl, rfl⟩ := Lexer.exists_of_readText hread
      have hchars : scanner.rest = (quote :: (body ++ [quote])) ++ after := by
        rw [hrest, List.cons_append, List.append_assoc]
        rfl
      have hafter := h.consume hchars rfl
      have hfront := h.stands
      rw [hchars] at hfront
      rw [hfront.skip_eq h.pos rfl] at hafter
      have hpush := hafter.push h.offset (.text (String.ofList value))
      rw [← h.pos] at hpush
      exact .ok ⟨_, hpush⟩

/-! ### Symbols -/

/-- Whether a symbol takes one character or two shows in the bytes too. -/
theorem readSymbol_map_ofUInt8 (c : Char) (rest : List Char) :
    Lexer.readSymbol c ((Utf8.bytes rest).map Char.ofUInt8) = Lexer.readSymbol c rest := by
  rw [Lexer.readSymbol_eq c rest, Lexer.readSymbol_eq c (List.map ..)]
  simp only [head?_map_ofUInt8_iff rest '/' (by decide),
    head?_map_ofUInt8_iff rest '=' (by decide)]

theorem scanSymbol_agrees {c : Char} {byte : UInt8} {tail : List UInt8}
    (h : Mirrors source done walker scanner) (hrest : scanner.rest = c :: rest)
    (hbytes : walker.rest = byte :: tail) (hmem : byte ∈ String.utf8EncodeChar c) :
    Agrees source (Same source)
      (scanSymbol source (Char.ofUInt8 byte) (tail.map Char.ofUInt8) walker)
      (match Lexer.readSymbol c rest with
      | .ok (symbol, width) =>
        let after := scanner.consume (scanner.rest.take width) (scanner.rest.drop width)
        .ok ({ after with depth := Lexer.depthAfter scanner.depth symbol }.push (.symbol symbol)
          scanner.cursor)
      | .error fault =>
        .error ⟨fault, scanner.cursor.spanTo (scanner.cursor.advance c)⟩) := by
  have hspan : scanner.cursor.spanTo (scanner.cursor.advance c) = ⟨walker.pos, c.utf8Size⟩ := by
    rw [h.stands.pos, ← byteLength_singleton]
    exact Lexer.spanTo_advanceBy h.offset [c]
  have hfront : scanner.rest = [c] ++ rest := hrest
  have haligned : (scanner.cursor.spanTo (scanner.cursor.advance c)).Aligned source :=
    h.aligned_front hfront
  rw [hspan] at haligned ⊢
  have htext := h.stands.textBehind
  rw [hrest] at htext
  unfold scanSymbol
  rw [htext]
  dsimp only [bind, Except.bind]
  rw [String.toList_ofList]
  -- A byte below 128 is the whole character. Another one starts no symbol, and only the text from
  -- there on tells which character it belongs to.
  rcases Nat.lt_or_ge c.toNat 128 with hlt | hle
  · obtain ⟨hchar, rfl⟩ := (hrest ▸ h.stands).head_of_lt hbytes hlt
    rw [hchar, readSymbol_map_ofUInt8]
    cases hread : Lexer.readSymbol c rest with
    | ok read =>
        obtain ⟨symbol, width⟩ := read
        obtain ⟨htake, hwidth⟩ := Lexer.spelling_of_readSymbol hread
        have hcount : width = byteLength (scanner.rest.take width) := by
          rw [hrest, htake, hwidth]
          cases symbol <;> decide
        have hafter := h.consume (List.take_append_drop width scanner.rest).symm hcount
        rw [h.depth, h.pos]
        exact .ok ⟨_, (hafter.withDepth _).push h.offset _⟩
    | error fault =>
        rw [utf8Size_of_lt hlt] at haligned ⊢
        cases fault with
        | strayCharacter d =>
            obtain rfl := Lexer.eq_of_readSymbol hread
            dsimp only [List.headD_cons]
            rw [utf8Size_of_lt hlt]
            exact .fault haligned
        | _ => exact .fault haligned
  · rw [Lexer.readSymbol_of_le hle, Lexer.readSymbol_of_le (le_ofUInt8 hle hmem)]
    exact .fault haligned

/-! ### Rounds -/

theorem scanOne_agrees (h : Mirrors source done walker scanner) :
    Agrees source (Same source) (scanOne source walker) (Lexer.scanOne scanner) := by
  unfold scanOne Lexer.scanOne
  dsimp only
  cases hrest : scanner.rest with
  | nil =>
      have hnothing := h.stands.rest
      rw [hrest] at hnothing
      rw [hnothing]
      exact .ok ⟨_, h⟩
  | cons c rest =>
  obtain ⟨byte, tail, hbytes, hmem⟩ := (hrest ▸ h.stands).head
  have hclass {p : Char → Bool} {answer : Bool} (hblind : Blind p answer) :
      p (Char.ofUInt8 byte) = p c := hblind.byteIn_of_mem hmem
  have hfirst (sign : Char) (hsign : sign.toNat < 128) := ofUInt8_eq_iff hmem hsign
  have hone (hc : c.toNat < 128) :
      Mirrors source (done ++ [c]) (walker.skip 1) scanner.skipOne := by
    have hcount : 1 = byteLength [c] := by rw [byteLength_singleton, utf8Size_of_lt hc]
    unfold Lexer.State.skipOne
    rw [hrest]
    exact h.consume hrest hcount
  rw [hbytes]
  dsimp only
  refine .ite (iff_of_eq (congrArg (· = true) (hclass Lexer.isSkipped_blind))) (fun hskipped => ?_)
    fun _ => .ite (hfirst '#' (by decide)) (fun _ => ?_)
    fun _ => .ite (hfirst '\n' (by decide)) (fun hline => ?_)
    fun _ => .ite (iff_of_eq (congrArg (· = true) (hclass Lexer.isWordChar_blind))) (fun _ => ?_)
    fun _ => .ite ?_ (fun hquote => ?_) fun _ => ?_
  · exact .ok ⟨_, hone (Lexer.isSkipped_blind.toNat_lt hskipped)⟩
  · exact .ok ⟨_, h.skipWhile (blind_ne (by decide))⟩
  · have hafter := hone (hline ▸ by decide)
    have hpush := (hafter.push h.offset .newline).withAtLineStart true
    rw [← h.pos] at hpush
    rw [h.depth]
    refine .ok ?_
    split
    next => exact ⟨_, hpush⟩
    next => exact ⟨_, hafter⟩
  · have hword := scanWord_agrees h (hclass isDigit_blind)
    rwa [hrest] at hword
  · simp only [Bool.or_eq_true, decide_eq_true_eq]
    exact or_congr (hfirst '\'' (by decide)) (hfirst '"' (by decide))
  · have hlt : c.toNat < 128 := by
      simp only [Bool.or_eq_true, decide_eq_true_eq] at hquote
      rcases hquote with rfl | rfl <;> decide
    obtain ⟨hchar, -⟩ := (hrest ▸ h.stands).head_of_lt hbytes hlt
    have htext := scanText_agrees h hrest hlt
    rw [hrest] at htext
    rw [hchar]
    exact htext
  · have hsymbol := scanSymbol_agrees h hrest hbytes hmem
    rw [hrest] at hsymbol
    exact hsymbol

theorem step_agrees (h : Mirrors source done walker scanner) :
    Agrees source (Same source) (step source walker) (Lexer.step scanner) := by
  unfold step Lexer.step
  rw [h.atLineStart, h.depth]
  refine .ite Iff.rfl (fun _ => ?_) fun _ => scanOne_agrees h
  refine (measureLine_agrees h).bind ?_
  rintro ⟨walker, hasTokens⟩ ⟨scanner, _⟩ ⟨⟨done, hsame⟩, rfl⟩
  refine .ite Iff.rfl (fun _ => scanOne_agrees hsame) fun _ => .ok ⟨done, hsame⟩

/-! ### Whole sources -/

/-- The tokens of the two scanners have the same kinds and spans, and these do not end inside
characters. -/
structure SameTokens (source : String) (walked : List (Kind × Span)) (scanned : List Token) :
    Prop where
  eq : walked = kindsAndSpans scanned
  aligned : ∀ token ∈ scanned, token.span.Aligned source

theorem Mirrors.closing (h : Mirrors source done walker scanner) {blocks blocks' : List Nat}
    (hblocks : blocks = blocks') :
    Mirrors source done
      ((blocks.foldl (fun state _ => state.pushEmpty .dedent) walker).pushEmpty .endOfFile)
      ((blocks'.foldl (fun state _ => state.pushEmpty .dedent) scanner).pushEmpty .endOfFile) := by
  subst hblocks
  induction blocks generalizing walker scanner with
  | nil => exact h.pushEmpty .endOfFile
  | cons block blocks ih => exact ih (h.pushEmpty .dedent)

theorem Mirrors.sameTokens (h : Mirrors source done walker scanner) :
    SameTokens source walker.tokens.reverse scanner.tokens.reverse := by
  rw [h.tokens]
  exact ⟨List.map_reverse.symm, fun token htoken => h.aligned token (List.mem_reverse.mp htoken)⟩

theorem finish_same (h : Mirrors source done walker scanner) :
    SameTokens source (finish walker) (Lexer.finish scanner) := by
  have hnewline := h.pushEmpty .newline
  unfold finish Lexer.finish
  dsimp only
  rw [h.atLineStart]
  split
  next => exact (h.closing h.blocks).sameTokens
  next => exact (hnewline.closing hnewline.blocks).sameTokens

theorem run_of_nil {state : State} (h : state.rest = []) (rounds : Nat) :
    run source rounds state = .ok (finish state) := by
  cases rounds with
  | zero => rfl
  | succ rounds =>
      unfold run
      rw [h]
      rfl

theorem run_agrees {rounds rounds' : Nat} (h : Mirrors source done walker scanner)
    (hwalks : byteLength scanner.rest ≤ rounds) (hscans : scanner.rest.length ≤ rounds') :
    Agrees source (SameTokens source) (run source rounds walker) (Lexer.run rounds' scanner) := by
  induction rounds' generalizing rounds done walker scanner with
  | zero =>
      have hnil : scanner.rest = [] := List.eq_nil_of_length_eq_zero (Nat.le_zero.mp hscans)
      have hnothing := h.stands.rest
      rw [hnil] at hnothing
      rw [run_of_nil hnothing]
      exact .ok (finish_same h)
  | succ rounds' ih =>
  unfold Lexer.run
  cases hrest : scanner.rest with
  | nil =>
      have hnothing := h.stands.rest
      rw [hrest] at hnothing
      rw [run_of_nil hnothing]
      exact .ok (finish_same h)
  | cons c rest =>
  have hsize : 0 < byteLength (c :: rest) :=
    Nat.lt_of_lt_of_le (Nat.zero_lt_succ _) (length_le_byteLength (c :: rest))
  rw [hrest] at hwalks
  cases rounds with
  | zero => exact absurd hwalks (Nat.not_le.mpr hsize)
  | succ rounds =>
  obtain ⟨byte, tail, hbytes, -⟩ := (hrest ▸ h.stands).head
  unfold run
  rw [hbytes]
  dsimp only [List.isEmpty_cons]
  rw [if_neg Bool.false_ne_true, if_neg Bool.false_ne_true]
  -- A round leaves fewer bytes and fewer characters, so neither scanner runs out of rounds.
  have hstep := step_agrees h
  have hleft : scanner.rest ≠ [] := hrest ▸ List.cons_ne_nil c rest
  have hfewer (after : Lexer.State) (hscanned : Lexer.step scanner = .ok after) :=
    And.intro (Lexer.byteLength_lt_of_step hscanned hleft)
      (Lexer.length_lt_of_step hscanned hleft)
  rw [hrest] at hfewer hscans
  generalize step source walker = walked, Lexer.step scanner = scanned at hstep hfewer
  cases hstep with
  | fault haligned => exact .fault haligned
  | ok hsame =>
      obtain ⟨done, hsame⟩ := hsame
      obtain ⟨hbytes, hchars⟩ := hfewer _ rfl
      exact ih hsame (Nat.le_of_lt_succ (Nat.lt_of_lt_of_le hbytes hwalks))
        (Nat.le_of_lt_succ (Nat.lt_of_lt_of_le hchars hscans))

end

end ByteLexer

/-- The two scanners agree on every source. -/
theorem byteLexer_agrees (source : String) :
    ByteLexer.Agrees source (ByteLexer.SameTokens source) (ByteLexer.lex source) (lex source) := by
  have hinitial : ByteLexer.Mirrors source [] { rest := Utf8.encode source }
      { rest := source.toList } := by
    refine ⟨⟨rfl, rfl, rfl⟩, rfl, rfl, rfl, rfl, rfl, nofun⟩
  have hbytes : (Utf8.encode source).length = byteLength source.toList :=
    Utf8.length_bytes source.toList
  exact ByteLexer.run_agrees hinitial (Nat.le_of_eq hbytes.symm) (Nat.le_refl _)

/-- A source is split into the same tokens if it is read byte by byte. No text is taken from inside
a character, and the faults are the same, too. -/
theorem byteLexer_lex (source : String) :
    ByteLexer.lex source = ((lex source).map ByteLexer.kindsAndSpans).mapError .fault := by
  have h := byteLexer_agrees source
  generalize ByteLexer.lex source = walked, lex source = scanned at h
  cases h with
  | ok hsame => exact congrArg Except.ok hsame.eq
  | fault => rfl

/-- No token ends inside a character or behind the source. -/
theorem aligned_of_lex {source : String} {tokens : List Token} (h : lex source = .ok tokens) :
    ∀ token ∈ tokens, token.span.Aligned source := by
  have hagrees := byteLexer_agrees source
  rw [h] at hagrees
  generalize ByteLexer.lex source = walked at hagrees
  cases hagrees with
  | ok hsame => exact hsame.aligned

/-- No place of a fault ends inside a character or behind the source. -/
theorem aligned_of_lex_error {source : String} {error : LexError} (h : lex source = .error error) :
    error.span.Aligned source := by
  have hagrees := byteLexer_agrees source
  rw [h] at hagrees
  generalize ByteLexer.lex source = walked at hagrees
  cases hagrees with
  | fault haligned => exact haligned

end FrozenScript
