import FrozenScript.Machine.Operators
import FrozenScript.Text.Utf8

/-!
# Comparing values

Equality looks at what `Value.identity` gives, so it is an equivalence over all values. An order is
there for two texts and for two values that stand for numbers (`Value.Ordered`); then it agrees with
equality, turns around with the operands and is transitive, and the four operators of the order are
read off it. Texts are ordered by their code points, which is also the order of their bytes
(`encode_lt_iff`): of two characters the smaller one has the smaller bytes, whatever follows them.

The main statement is `comparison_coherent`.
-/

namespace FrozenScript

open Text

/-! ## Equality -/

namespace Value

/-- What tells values apart. Truth values are numbers here. -/
inductive Identity where
  | none
  | number (value : Int64)
  | text (value : String)
  | function (id : Nat)
  | builtin (value : Builtin)
  | module (id : Nat)

/-- What tells a value from others: its content, or the number of a function or a module. -/
def identity : Value → Identity
  | none => .none
  | bool value => .number (if value then 1 else 0)
  | int value => .number value
  | text value => .text value
  | function value => .function value.id
  | builtin value => .builtin value
  | module value => .module value.id

/-- Values are equal if nothing tells them apart. -/
theorem equals_iff (a b : Value) : a.equals b = true ↔ a.identity = b.identity := by
  cases a <;> cases b <;> simp [equals, toInt?, identity]

/-- A value that stands for a number is told from others by this number. -/
theorem identity_of_toInt? {a : Value} {n : Int64} (h : a.toInt? = some n) :
    a.identity = .number n := by
  cases a <;> simp_all [toInt?, identity]

/-- Two values that have an order: two texts, or two values that stand for numbers. -/
inductive Ordered : Value → Value → Prop where
  | texts (s t : String) : Ordered (.text s) (.text t)
  | numbers {a b : Value} {m n : Int64} : a.toInt? = some m → b.toInt? = some n → Ordered a b

end Value

open Value (Ordered)

/-! ## Order -/

section

variable {a b c : Value}

theorem order?_of_numbers {m n : Int64} (ha : a.toInt? = some m) (hb : b.toInt? = some n) :
    order? a b = some (compare m.toInt n.toInt) := by
  unfold order?
  split
  next => simp [Value.toInt?] at ha
  next => simp [ha, hb]

/-- Values have an order exactly if one is found. -/
theorem isSome_order?_iff : (order? a b).isSome ↔ Ordered a b := by
  constructor
  · intro h
    unfold order? at h
    split at h
    next s t => exact .texts s t
    next =>
      split at h
      next ha hb => exact .numbers ha hb
      next => simp at h
  · intro h
    cases h with
    | texts s t => rfl
    | numbers ha hb => simp [order?_of_numbers ha hb]

theorem Value.Ordered.swap (h : Ordered a b) : Ordered b a := by
  cases h with
  | texts s t => exact .texts t s
  | numbers ha hb => exact .numbers hb ha

/-- The order turns around with the values. -/
theorem order?_swap (a b : Value) : order? b a = (order? a b).map Ordering.swap := by
  by_cases h : Ordered a b
  · cases h with
    | texts s t => exact congrArg some Std.OrientedCmp.eq_swap
    | numbers ha hb =>
        rw [order?_of_numbers ha hb, order?_of_numbers hb ha]
        exact congrArg some Std.OrientedCmp.eq_swap
  · have hnone : order? a b = none := by
      rw [← isSome_order?_iff] at h
      simpa using h
    have hswapped : order? b a = none := by
      have h' : ¬ Ordered b a := fun hba => h hba.swap
      rw [← isSome_order?_iff] at h'
      simpa using h'
    simp [hnone, hswapped]

/-- The order of two values agrees with equality. -/
theorem order?_eq_iff {order : Ordering} (h : order? a b = some order) :
    order = .eq ↔ a.equals b = true := by
  have hordered : Ordered a b := isSome_order?_iff.mp (by simp [h])
  rw [Value.equals_iff]
  cases hordered with
  | texts s t =>
      obtain rfl := Option.some.inj h
      simp [Value.identity]
  | numbers ha hb =>
      rw [order?_of_numbers ha hb] at h
      obtain rfl := Option.some.inj h
      rw [Value.identity_of_toInt? ha, Value.identity_of_toInt? hb]
      simp [Int64.toInt_inj]

/-- Being less is transitive. -/
theorem order?_trans (h : order? a b = some .lt) (h' : order? b c = some .lt) :
    order? a c = some .lt := by
  have hab : Ordered a b := isSome_order?_iff.mp (by simp [h])
  have hbc : Ordered b c := isSome_order?_iff.mp (by simp [h'])
  cases hab with
  | texts s t =>
      cases hbc with
      | texts _ u =>
          exact congrArg some (Std.TransCmp.lt_trans (Option.some.inj h) (Option.some.inj h'))
      | numbers hb _ => simp [Value.toInt?] at hb
  | numbers ha hb =>
      cases hbc with
      | texts s t => simp [Value.toInt?] at hb
      | numbers hb' hc =>
          obtain rfl := Option.some.inj (hb.symm.trans hb')
          rw [order?_of_numbers ha hb] at h
          rw [order?_of_numbers hb hc] at h'
          rw [order?_of_numbers ha hc]
          exact congrArg some (Std.TransCmp.lt_trans (Option.some.inj h) (Option.some.inj h'))

end

/-! ## Texts -/

section

variable {α : Type} [LT α] {write : Char → List α}

/-- A way to write characters that keeps their order, whatever follows, keeps the order of texts. -/
theorem flatMap_lt_flatMap (hempty : ∀ c, write c ≠ [])
    (hwrite : ∀ c d, c < d → ∀ xs ys, write c ++ xs < write d ++ ys) {s t : List Char}
    (h : s < t) : s.flatMap write < t.flatMap write := by
  induction s generalizing t with
  | nil =>
      cases t with
      | nil => exact absurd h (List.lt_irrefl [])
      | cons d t =>
          obtain ⟨x, xs, hx⟩ := List.exists_cons_of_ne_nil (hempty d)
          rw [List.flatMap_nil, List.flatMap_cons, hx]
          exact List.nil_lt_cons x _
  | cons c s ih =>
      cases t with
      | nil => exact absurd h (List.not_lt_nil _)
      | cons d t =>
          rw [List.flatMap_cons, List.flatMap_cons]
          rcases List.cons_lt_cons_iff.mp h with hlt | ⟨heq, hrest⟩
          · exact hwrite c d hlt _ _
          · rw [heq]
            exact List.append_left_lt (ih hrest)

/-- Writing characters in such a way turns no order around. -/
theorem flatMap_lt_flatMap_iff [Std.Asymm fun x y : α => x < y] (hempty : ∀ c, write c ≠ [])
    (hwrite : ∀ c d, c < d → ∀ xs ys, write c ++ xs < write d ++ ys) {s t : List Char} :
    s.flatMap write < t.flatMap write ↔ s < t := by
  constructor
  · intro h
    rcases Std.lt_trichotomy s t with hlt | heq | hgt
    · exact hlt
    · rw [heq] at h
      exact absurd h (List.lt_irrefl _)
    · exact absurd h (List.lt_asymm (flatMap_lt_flatMap hempty hwrite hgt))
  · exact flatMap_lt_flatMap hempty hwrite

end

/-- Lists of bytes are ordered by their first bytes, and then by the rest. -/
theorem ofNat_cons_lt {m n : Nat} {xs ys : List UInt8} (hle : m ≤ n) (hn : n < 256)
    (h : m = n → xs < ys) : UInt8.ofNat m :: xs < UInt8.ofNat n :: ys := by
  rw [List.cons_lt_cons_iff]
  by_cases heq : m = n
  · exact .inr ⟨by rw [heq], h heq⟩
  · have hm : m < UInt8.size := Nat.lt_of_le_of_lt hle hn
    rw [UInt8.lt_iff_toNat_lt, UInt8.toNat_ofNat_of_lt' hm, UInt8.toNat_ofNat_of_lt' hn]
    omega

/-- Of two characters the smaller one has the smaller bytes, whatever follows them. -/
theorem utf8EncodeChar_append_lt (c d : Char) (h : c < d) (xs ys : List UInt8) :
    String.utf8EncodeChar c ++ xs < String.utf8EncodeChar d ++ ys := by
  have hlt : c.val.toNat < d.val.toNat := h
  have hmax : d.val.toNat < 0x110000 := by
    have hvalid : d.val.toNat.isValidChar := d.valid
    simp only [Nat.isValidChar] at hvalid
    omega
  have shorter {m n : Nat} {xs ys : List UInt8} (h : m < n) (hn : n < 256) :
      UInt8.ofNat m :: xs < UInt8.ofNat n :: ys :=
    ofNat_cons_lt (Nat.le_of_lt h) hn fun heq => absurd heq (Nat.ne_of_lt h)
  unfold String.utf8EncodeChar
  dsimp only
  generalize c.val.toNat = m at hlt
  generalize d.val.toNat = n at hlt hmax
  -- The bytes of characters of one length carry their digits, the highest ones first; the first
  -- byte of a longer one is greater.
  split
  · split
    · exact shorter (by omega) (by omega)
    split
    · exact shorter (by omega) (by omega)
    split
    · exact shorter (by omega) (by omega)
    · exact shorter (by omega) (by omega)
  rw [if_neg (show ¬ n ≤ 127 by omega)]
  split
  · split
    · exact ofNat_cons_lt (by omega) (by omega) fun _ => shorter (by omega) (by omega)
    split
    · exact shorter (by omega) (by omega)
    · exact shorter (by omega) (by omega)
  rw [if_neg (show ¬ n ≤ 2047 by omega)]
  split
  · split
    · refine ofNat_cons_lt (by omega) (by omega) fun _ => ?_
      exact ofNat_cons_lt (by omega) (by omega) fun _ => shorter (by omega) (by omega)
    · exact shorter (by omega) (by omega)
  rw [if_neg (show ¬ n ≤ 65535 by omega)]
  refine ofNat_cons_lt (by omega) (by omega) fun _ => ?_
  refine ofNat_cons_lt (by omega) (by omega) fun _ => ?_
  exact ofNat_cons_lt (by omega) (by omega) fun _ => shorter (by omega) (by omega)

/-- The order of texts is that of their bytes. -/
theorem encode_lt_iff (s t : String) : Utf8.encode s < Utf8.encode t ↔ s < t := by
  rw [String.lt_iff]
  exact flatMap_lt_flatMap_iff (fun _ => String.utf8EncodeChar_ne_nil) utf8EncodeChar_append_lt

/-- The code points of a text. -/
def codePoints (s : String) : List Nat :=
  s.toList.map Char.toNat

/-- The order of texts is that of their code points. -/
theorem codePoints_lt_iff (s t : String) : codePoints s < codePoints t ↔ s < t := by
  rw [String.lt_iff, codePoints, codePoints, List.map_eq_flatMap, List.map_eq_flatMap]
  refine flatMap_lt_flatMap_iff (fun c => List.cons_ne_nil _ []) fun c d h xs ys => ?_
  exact List.cons_lt_cons_iff.mpr (.inl h)

/-! ## Comparisons -/

namespace CompareOp

/-- The operators that ask for an order. -/
def ranks : CompareOp → Bool
  | .eq | .ne => false
  | .lt | .le | .gt | .ge => true

/-- A comparison gives true. -/
def Holds (op : CompareOp) (a b : Value) : Prop :=
  op.apply a b = .ok (.bool true)

variable {a b c : Value}

theorem holds_eq_iff : Holds .eq a b ↔ a.identity = b.identity := by
  rw [← Value.equals_iff]
  simp [Holds, CompareOp.apply]

theorem apply_of_order? {op : CompareOp} (hop : op.ranks) {order : Ordering}
    (h : order? a b = some order) :
    op.apply a b = .ok (.bool (op.holds order)) := by
  cases op <;> simp_all [CompareOp.apply, ranks]

theorem apply_of_not_ordered (op : CompareOp) (hop : op.ranks) (h : ¬ Ordered a b) :
    op.apply a b = .error (.type (.comparison op a.typeName b.typeName)) := by
  have hnone : order? a b = none := by
    rw [← isSome_order?_iff] at h
    simpa using h
  cases op <;> simp_all [CompareOp.apply, ranks]

/-- What holds of two values is read off their order. -/
theorem holds_of_order? (op : CompareOp) (hop : op.ranks) {order : Ordering}
    (h : order? a b = some order) :
    op.Holds a b ↔ op.holds order = true := by
  simp [Holds, apply_of_order? hop h]

theorem holds_lt_iff : Holds .lt a b ↔ order? a b = some .lt := by
  constructor
  · intro h
    by_cases hordered : Ordered a b
    · obtain ⟨order, horder⟩ := Option.isSome_iff_exists.mp (isSome_order?_iff.mpr hordered)
      rw [holds_of_order? .lt rfl horder] at h
      rw [horder]
      simpa [CompareOp.holds] using h
    · simp [Holds, apply_of_not_ordered .lt rfl hordered] at h
  · intro h
    exact (holds_of_order? .lt rfl h).mpr rfl

end CompareOp

open CompareOp (Holds)

/-- How two values with an order compare. -/
theorem compared_of_ordered {a b : Value} (h : Ordered a b) :
    ((Holds .lt a b ∧ ¬ Holds .eq a b ∧ ¬ Holds .gt a b) ∨
      (¬ Holds .lt a b ∧ Holds .eq a b ∧ ¬ Holds .gt a b) ∨
      (¬ Holds .lt a b ∧ ¬ Holds .eq a b ∧ Holds .gt a b)) ∧
    (Holds .le a b ↔ Holds .lt a b ∨ Holds .eq a b) ∧ (Holds .ge a b ↔ Holds .le b a) := by
  obtain ⟨order, horder⟩ := Option.isSome_iff_exists.mp (isSome_order?_iff.mpr h)
  have hswap : order? b a = some order.swap := by
    rw [order?_swap, horder]
    rfl
  have heq : Holds .eq a b ↔ order = .eq := by
    rw [order?_eq_iff horder, Value.equals_iff]
    exact CompareOp.holds_eq_iff
  have hlt := CompareOp.holds_of_order? .lt rfl horder
  have hgt := CompareOp.holds_of_order? .gt rfl horder
  have hle := CompareOp.holds_of_order? .le rfl horder
  have hge := CompareOp.holds_of_order? .ge rfl horder
  have hel := CompareOp.holds_of_order? .le rfl hswap
  rw [heq, hlt, hgt, hle, hge, hel]
  cases order <;> simp [CompareOp.holds]

/-- Less than is the order of texts by their code points, which is that of their bytes. -/
theorem holds_lt_texts (s t : String) :
    (Holds .lt (.text s) (.text t) ↔ codePoints s < codePoints t) ∧
      (Holds .lt (.text s) (.text t) ↔ Utf8.encode s < Utf8.encode t) := by
  have hlt : Holds .lt (.text s) (.text t) ↔ s < t := by
    rw [CompareOp.holds_lt_iff]
    show some (compareOfLessAndEq s t) = some .lt ↔ s < t
    rw [Option.some.injEq, compareOfLessAndEq_eq_lt]
  exact ⟨hlt.trans (codePoints_lt_iff s t).symm, hlt.trans (encode_lt_iff s t).symm⟩

/-- The order is not that of UTF-16, in which the second text would come first. -/
example : Holds .lt (.text "\uffff") (.text "😀") := rfl

/-- Comparisons are coherent. Equality is an equivalence over all values, which compares truth
values as numbers and functions and modules by their identity, and the two operators for it always
give opposite answers. The other four operators give an answer for two texts and for two values that
stand for numbers, and fail alike for any other ones. Where there is an answer, exactly one of less,
equal and greater holds, and the remaining operators follow from them. Less is transitive, and
orders texts by their code points, as their bytes do. -/
theorem comparison_coherent :
    (Equivalence (Holds .eq) ∧ ∀ a b, Holds .eq a b ↔ a.identity = b.identity) ∧
    (∀ a b, ∃ truth, CompareOp.eq.apply a b = .ok (.bool truth) ∧
      CompareOp.ne.apply a b = .ok (.bool !truth)) ∧
    (∀ op : CompareOp, op.ranks → ∀ a b,
      (Ordered a b ∧ ∃ truth, op.apply a b = .ok (.bool truth)) ∨
        (¬ Ordered a b ∧
          op.apply a b = .error (.type (.comparison op a.typeName b.typeName)))) ∧
    (∀ a b, Ordered a b →
      ((Holds .lt a b ∧ ¬ Holds .eq a b ∧ ¬ Holds .gt a b) ∨
        (¬ Holds .lt a b ∧ Holds .eq a b ∧ ¬ Holds .gt a b) ∨
        (¬ Holds .lt a b ∧ ¬ Holds .eq a b ∧ Holds .gt a b)) ∧
      (Holds .le a b ↔ Holds .lt a b ∨ Holds .eq a b) ∧ (Holds .ge a b ↔ Holds .le b a)) ∧
    (∀ a b c, Holds .lt a b → Holds .lt b c → Holds .lt a c) ∧
    ∀ s t, (Holds .lt (.text s) (.text t) ↔ codePoints s < codePoints t) ∧
      (Holds .lt (.text s) (.text t) ↔ Utf8.encode s < Utf8.encode t) := by
  have hidentity (a b : Value) : Holds .eq a b ↔ a.identity = b.identity := CompareOp.holds_eq_iff
  refine ⟨⟨⟨?_, ?_, ?_⟩, hidentity⟩, ?_, ?_, ?_, ?_, holds_lt_texts⟩
  · exact fun a => (hidentity a a).mpr rfl
  · exact fun h => (hidentity _ _).mpr ((hidentity _ _).mp h).symm
  · exact fun h h' => (hidentity _ _).mpr (((hidentity _ _).mp h).trans ((hidentity _ _).mp h'))
  · exact fun a b => ⟨a.equals b, rfl, rfl⟩
  · intro op hop a b
    by_cases h : Ordered a b
    · obtain ⟨order, horder⟩ := Option.isSome_iff_exists.mp (isSome_order?_iff.mpr h)
      exact .inl ⟨h, _, CompareOp.apply_of_order? hop horder⟩
    · exact .inr ⟨h, CompareOp.apply_of_not_ordered op hop h⟩
  · exact fun a b h => compared_of_ordered h
  · intro a b c h h'
    rw [CompareOp.holds_lt_iff] at h h' ⊢
    exact order?_trans h h'

/-- False is less than one and one less than two, so false is less than two. True and one have an
order, in which they are equal. A text and a number have none. -/
theorem comparison_coherent_mixed :
    (Holds .lt (.bool false) (.int 1) ∧ Holds .lt (.int 1) (.int 2) ∧
      Holds .lt (.bool false) (.int 2)) ∧
    (Ordered (.bool true) (.int 1) ∧
      (Holds .le (.bool true) (.int 1) ↔
        Holds .lt (.bool true) (.int 1) ∨ Holds .eq (.bool true) (.int 1)) ∧
      (Holds .ge (.bool true) (.int 1) ↔ Holds .le (.int 1) (.bool true))) ∧
    CompareOp.ge.ranks = true ∧
      ((Ordered (.text "a") (.int 1) ∧
        ∃ truth, CompareOp.ge.apply (.text "a") (.int 1) = .ok (.bool truth)) ∨
      (¬ Ordered (.text "a") (.int 1) ∧
        CompareOp.ge.apply (.text "a") (.int 1) =
          .error (.type (.comparison .ge "str" "int")))) := by
  obtain ⟨-, -, hranks, hordered, htrans, -⟩ := comparison_coherent
  have hfirst : Holds .lt (.bool false) (.int 1) := rfl
  have hsecond : Holds .lt (.int 1) (.int 2) := rfl
  have hequal : Ordered (.bool true) (.int 1) := .numbers rfl rfl
  exact ⟨⟨hfirst, hsecond, htrans _ _ _ hfirst hsecond⟩, ⟨hequal, (hordered _ _ hequal).2⟩, rfl,
    hranks .ge rfl _ _⟩

end FrozenScript
