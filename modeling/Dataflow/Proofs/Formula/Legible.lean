import Dataflow.Expr.Formula
import Dataflow.Proofs.Text.Separation

/-!
# Legible expressions

The text of an expression does not tell everything about it: the operands of `NOT`, of a sign and of
what stands behind them are not enclosed, a name may stand for any column, and quotation marks
inside a text are not marked. An expression is `legible` if nothing of this happens in it, and then
it can be read off its text what it is, the shown names of columns aside (`Expr.readable_shown`).

This module is about the leaves, the constants and columns: what they begin with tells their kind,
and how far they go is seen from what follows (`Expr.leaf_append_inj`).
-/

namespace Dataflow

open Text

/-! ## What can be read off the text -/

/-- The words that are not taken for names. -/
def Expr.keywords : List String := ["NOT", "null", "true", "false"]

/-- The characters of numbers with a point or a power of ten. -/
def isNumeralChar (c : Char) : Bool := c.isDigit || c == '.' || c == 'e' || c == '-'

/-- A number without a sign in front. -/
def isNumeral (text : String) : Bool :=
  match text.toList with
  | [] => false
  | c :: rest => c.isDigit && rest.all isNumeralChar

/-- The constants of which the text tells the value: no numbers with a sign, those with a point if
their text is read as the same number again, and nothing that is made of other values. -/
def Value.legible : Value → Bool
  | .null | .boolean _ => true
  | .int i => 0 ≤ i.toInt
  | .long i => 0 ≤ i.toInt
  | .float x =>
    let text := x.text plainStyle
    isNumeral text && Binary.read? text.toList == some x
  | .double x =>
    let text := x.text numberStyle
    isNumeral text && !text.toList.all Char.isDigit && Binary.read? text.toList == some x
  | .charArray s => isQuotable s
  | _ => false

theorem Value.numeral_float {x : Single} (h : (float x).legible = true) :
    isNumeral (x.text plainStyle) = true ∧ Binary.read? (x.text plainStyle).toList = some x := by
  simpa [legible] using h

theorem Value.numeral_double {x : Double} (h : (double x).legible = true) :
    isNumeral (x.text numberStyle) = true ∧
      (x.text numberStyle).toList.all Char.isDigit = false ∧
      Binary.read? (x.text numberStyle).toList = some x := by
  simpa only [legible, Bool.and_eq_true, Bool.not_eq_true', beq_iff_eq, and_assoc] using h

namespace Expr

variable {place : Nat → String → Nat}

/-- The text of an expression. -/
def shown : Expr → String
  | .const v => Formula.Unfolding.textNode default (.const v) []
  | .column input i name => Formula.Unfolding.textNode default (.column input i name) []
  | .named _ name => name
  | .unary op e => Formula.Unfolding.textNode default (.unary op) [e.shown]
  | .binary op a b => Formula.Unfolding.textNode default (.binary op) [a.shown, b.shown]

/-- The expression without the shown names of columns. -/
def unlabeled : Expr → Expr
  | .const v => .const v
  | .column input i _ => .column input i none
  | .named input name => .named input name
  | .unary op e => .unary op e.unlabeled
  | .binary op a b => .binary op a.unlabeled b.unlabeled

/-- Whether the text of the operation stands in front of that of its operand. -/
def isPrefixed : Expr → Bool
  | .unary .not _ | .unary .negate _ => true
  | _ => false

/-- Whether the text of an expression tells what it is, if every shown name stands for the column
that `place` gives for it. -/
def legible (place : Nat → String → Nat) : Expr → Bool
  | .const v => v.legible
  | .column _ _ none => true
  | .column input i (some name) =>
    isPlain name && !keywords.contains name && place input name == i
  | .named _ _ => false
  | .unary (.lookup key) e => !e.isPrefixed && isQuotable key && e.legible place
  | .unary .isNull e => !e.isPrefixed && e.legible place
  | .unary .not e | .unary .negate e => e.legible place
  | .binary _ a b => a.legible place && b.legible place

theorem isPlain_of_legible {i c : Nat} {name : String}
    (h : (column i c (some name)).legible place = true) :
    isPlain name = true ∧ name ∉ keywords ∧ place i name = c := by
  simpa [legible, and_assoc] using h

/-! ## What an expression begins with -/

/-- The kinds of characters with which the text of an expression may begin. -/
inductive Opening where
  | letter | digit | dollar | bracket | quote | parenthesis | sign
deriving DecidableEq

/-- The kind of a character. -/
def Opening.of (c : Char) : Option Opening :=
  if c.isAlpha || c == '_' then some .letter
  else if c.isDigit then some .digit
  else if c == '$' then some .dollar
  else if c == '[' then some .bracket
  else if c == '\'' then some .quote
  else if c == '(' then some .parenthesis
  else if c == '-' then some .sign
  else none

/-- What the text of the expression begins with. -/
def opening : Expr → Opening
  | .const (.int _) | .const (.long _) | .const (.float _) | .const (.double _) => .digit
  | .const (.charArray _) => .quote
  | .const _ => .letter
  | .column 0 _ (some _) => .letter
  | .column 0 _ none => .dollar
  | .column _ _ _ => .bracket
  | .named _ _ => .letter
  | .unary .not _ => .letter
  | .unary .negate _ => .sign
  | .unary _ e => e.opening
  | .binary _ _ _ => .parenthesis

/-- Columns of other inputs than the first are written in brackets. -/
theorem opening_column_succ {i c : Nat} {name : Option String} :
    (column (i + 1) c name).opening = .bracket := by
  simp only [opening]

theorem Opening.of_letter {c : Char} (h : c.isAlpha = true ∨ c = '_') :
    Opening.of c = some .letter := by
  have : (c.isAlpha || c == '_') = true := by simpa using h
  rw [Opening.of, if_pos this]

/-- The letters stand behind the digits. -/
theorem isAlpha_of_isDigit {c : Char} (h : c.isDigit = true) : c.isAlpha = false := by
  have hdigit : c.val ≤ '9'.val := of_decide_eq_true (Bool.and_eq_true_iff.mp h).2
  have hbehind : ∀ d : Char, '9'.val < d.val → ¬d.val ≤ c.val := fun d hd hle =>
    absurd (UInt32.lt_of_lt_of_le hd hle) (UInt32.not_lt.mpr hdigit)
  rw [Bool.eq_false_iff]
  intro halpha
  rcases Bool.or_eq_true_iff.mp (show (c.isUpper || c.isLower) = true from halpha) with h | h
  · exact hbehind 'A' (by decide) (of_decide_eq_true h).1
  · exact hbehind 'a' (by decide) (of_decide_eq_true (Bool.and_eq_true_iff.mp h).1)

theorem Opening.of_digit {c : Char} (h : c.isDigit = true) : Opening.of c = some .digit := by
  have hline : (c == '_') = false := by
    rw [beq_eq_false_iff_ne]
    rintro rfl
    exact absurd h (by decide)
  rw [Opening.of, isAlpha_of_isDigit h, hline, h]
  rfl

theorem exists_of_isNumeral {text : String} (h : isNumeral text = true) : ∃ c rest,
    text.toList = c :: rest ∧ c.isDigit = true ∧ ∀ d ∈ c :: rest, isNumeralChar d = true := by
  unfold isNumeral at h
  split at h
  · exact absurd h (by simp)
  · next c rest htext =>
    simp only [Bool.and_eq_true, List.all_eq_true] at h
    exact ⟨c, rest, htext, h.1, List.forall_mem_cons.mpr ⟨by simp [isNumeralChar, h.1], h.2⟩⟩

theorem exists_repr (n : Nat) : ∃ c rest, n.repr.toList = c :: rest ∧
    Opening.of c = some .digit ∧ ∀ d ∈ c :: rest, d.isDigit = true := by
  cases h : n.repr.toList with
  | nil => exact absurd h (repr_toList_ne_nil n)
  | cons c rest =>
    have hdigit : ∀ d ∈ c :: rest, d.isDigit = true := fun d hd =>
      isDigit_of_mem_repr (n := n) (by rw [h]; exact hd)
    exact ⟨c, rest, rfl, Opening.of_digit (hdigit c (by simp)), hdigit⟩

/-- The text of a number that is not negative. -/
theorem toString_of_nonneg {i : Int} (h : 0 ≤ i) : toString i = i.toNat.repr := by
  obtain ⟨n, rfl⟩ := Int.eq_ofNat_of_zero_le h
  rfl

section Shown

variable (v : Value) (i c : Nat) (name key : String) (e a b : Expr) (op : BinaryOp)

theorem shown_place : (column 0 c none).shown.toList = '$' :: c.repr.toList := by
  have h : (column 0 c none).shown = s!"${c}" := rfl
  simp [h, toString]

theorem shown_inputPlace :
    (column (i + 1) c none).shown.toList =
      '[' :: ((i + 1).repr.toList ++ ']' :: '$' :: c.repr.toList) := by
  have h : (column (i + 1) c none).shown = s!"[{i + 1}]${c}" := rfl
  simp [h, toString]

theorem shown_inputName :
    (column (i + 1) c (some name)).shown.toList =
      '[' :: ((i + 1).repr.toList ++ ']' :: name.toList) := by
  have h : (column (i + 1) c (some name)).shown = s!"[{i + 1}]{name}" := rfl
  simp [h, toString]

theorem shown_lookup :
    (unary (.lookup key) e).shown.toList =
      e.shown.toList ++ '#' :: '\'' :: (key.toList ++ ['\'']) := by
  have h : (unary (.lookup key) e).shown = e.shown ++ "#'" ++ key ++ "'" := rfl
  simp [h]

theorem shown_isNull :
    (unary .isNull e).shown.toList = e.shown.toList ++ ' ' :: 'I' :: "S NULL".toList := by
  have h : (unary .isNull e).shown = e.shown ++ " IS NULL" := rfl
  rw [h, String.toList_append]
  rfl

theorem shown_not : (unary .not e).shown.toList = "NOT".toList ++ ' ' :: e.shown.toList := by
  have h : (unary .not e).shown = "NOT " ++ e.shown := rfl
  rw [h, String.toList_append]
  rfl

theorem shown_negate : (unary .negate e).shown.toList = '-' :: e.shown.toList := by
  have h : (unary .negate e).shown = "-" ++ e.shown := rfl
  rw [h, String.toList_append]
  rfl

theorem shown_binary : (binary op a b).shown.toList = '(' :: (a.shown.toList ++
    ' ' :: (op.symbol.toList ++ ' ' :: (b.shown.toList ++ [')']))) := by
  have h : (binary op a b).shown =
    "(" ++ a.shown ++ " " ++ op.symbol ++ " " ++ b.shown ++ ")" := rfl
  simp [h]

theorem shown_charArray (s : String) :
    (const (.charArray s)).shown.toList = '\'' :: (s.toList ++ ['\'']) := by
  have h : (const (.charArray s)).shown = "'" ++ s ++ "'" := rfl
  simp [h]

theorem shown_int {i : Int32} (h : (const (.int i)).legible place = true) :
    (const (.int i)).shown.toList = i.toInt.toNat.repr.toList := by
  have hi : 0 ≤ i.toInt := by simpa [legible, Value.legible] using h
  rw [← toString_of_nonneg hi]
  rfl

theorem shown_long {i : Int64} (h : (const (.long i)).legible place = true) :
    (const (.long i)).shown.toList = i.toInt.toNat.repr.toList ++ ['L'] := by
  have hi : 0 ≤ i.toInt := by simpa [legible, Value.legible] using h
  have hshown : (const (.long i)).shown = s!"{i.toInt}L" := rfl
  rw [hshown, String.toList_append, toString_of_nonneg hi]
  rfl

theorem shown_float (x : Single) :
    (const (.float x)).shown.toList = (x.text Value.plainStyle).toList ++ ['F'] := by
  have h : (const (.float x)).shown = x.text Value.plainStyle ++ "F" := rfl
  rw [h, String.toList_append]
  rfl

theorem shown_double (x : Double) : (const (.double x)).shown = x.text Value.numberStyle := rfl

end Shown

/-- The text of a legible expression is not empty, and it begins as expected. -/
theorem exists_opening : ∀ {e : Expr}, e.legible place = true →
    ∃ c rest, e.shown.toList = c :: rest ∧ Opening.of c = some e.opening
  | .const .null, _ => ⟨'n', _, rfl, by decide⟩
  | .const (.boolean true), _ => ⟨'t', _, rfl, by decide⟩
  | .const (.boolean false), _ => ⟨'f', _, rfl, by decide⟩
  | .const (.int i), h => by
    obtain ⟨c, rest, hrepr, hc, -⟩ := exists_repr i.toInt.toNat
    exact ⟨c, rest, (shown_int h).trans hrepr, hc⟩
  | .const (.long i), h => by
    obtain ⟨c, rest, hrepr, hc, -⟩ := exists_repr i.toInt.toNat
    exact ⟨c, rest ++ ['L'], by rw [shown_long h, hrepr, List.cons_append], hc⟩
  | .const (.float x), h => by
    obtain ⟨c, rest, htext, hc, -⟩ := exists_of_isNumeral (Value.numeral_float h).1
    exact ⟨c, rest ++ ['F'], by rw [shown_float, htext, List.cons_append], Opening.of_digit hc⟩
  | .const (.double x), h => by
    obtain ⟨c, rest, htext, hc, -⟩ := exists_of_isNumeral (Value.numeral_double h).1
    exact ⟨c, rest, htext, Opening.of_digit hc⟩
  | .const (.charArray s), _ => ⟨'\'', _, shown_charArray s, rfl⟩
  | .column 0 c none, _ => ⟨'$', _, shown_place c, rfl⟩
  | .column 0 c (some name), h => by
    simp only [legible, Bool.and_eq_true] at h
    obtain ⟨d, rest, htext, hd, -⟩ := exists_of_isPlain h.1.1
    exact ⟨d, rest, htext, Opening.of_letter hd⟩
  | .column (i + 1) c none, _ => ⟨'[', _, shown_inputPlace i c, rfl⟩
  | .column (i + 1) c (some name), _ => ⟨'[', _, shown_inputName i c name, rfl⟩
  | .unary (.lookup key) e, h => by
    simp only [legible, Bool.and_eq_true] at h
    obtain ⟨c, rest, htext, hc⟩ := exists_opening h.2
    exact ⟨c, _, by rw [shown_lookup, htext, List.cons_append], hc⟩
  | .unary .isNull e, h => by
    simp only [legible, Bool.and_eq_true] at h
    obtain ⟨c, rest, htext, hc⟩ := exists_opening h.2
    exact ⟨c, _, by rw [shown_isNull, htext, List.cons_append], hc⟩
  | .unary .not e, _ => ⟨'N', _, shown_not e, rfl⟩
  | .unary .negate e, _ => ⟨'-', _, shown_negate e, rfl⟩
  | .binary op a b, _ => ⟨'(', _, shown_binary a b op, rfl⟩

/-- What begins alike is of the same kind. -/
theorem opening_eq {a b : Expr} {r s : List Char} (ha : a.legible place = true)
    (hb : b.legible place = true) (h : a.shown.toList ++ r = b.shown.toList ++ s) :
    a.opening = b.opening := by
  obtain ⟨c, rest, hc, hopen⟩ := exists_opening ha
  obtain ⟨d, rest', hd, hopen'⟩ := exists_opening hb
  rw [hc, hd, List.cons_append, List.cons_append] at h
  rw [(List.cons.inj h).1, hopen'] at hopen
  exact (Option.some.inj hopen).symm

/-! ## Leaves -/

/-- The characters of names, numbers and columns. -/
def isWordChar (c : Char) : Bool :=
  isNameChar c || isNumeralChar c || c == '$' || c == '[' || c == ']'

theorem isWordChar_of_isNameChar {c : Char} (h : isNameChar c = true) : isWordChar c = true := by
  simp [isWordChar, h]

theorem isWordChar_of_isDigit {c : Char} (h : c.isDigit = true) : isWordChar c = true :=
  isWordChar_of_isNameChar (by simp [isNameChar, Char.isAlphanum, h])

theorem isWordChar_of_mem_numeral {text : String} (h : isNumeral text = true) :
    ∀ c ∈ text.toList, isWordChar c = true := by
  obtain ⟨c, rest, htext, -, hall⟩ := exists_of_isNumeral h
  rw [htext]
  exact fun d hd => by simp [isWordChar, hall d hd]

/-- Whether the expression is a constant or a column. -/
def isLeaf : Expr → Bool
  | .const _ | .column _ _ _ => true
  | _ => false

theorem isWordChar_of_mem_repr {n : Nat} : ∀ c ∈ n.repr.toList, isWordChar c = true :=
  fun _ hc => isWordChar_of_isDigit (isDigit_of_mem_repr hc)

theorem isWordChar_of_mem_name {name : String} (h : isPlain name = true) :
    ∀ c ∈ name.toList, isWordChar c = true :=
  fun c hc => isWordChar_of_isNameChar (isNameChar_of_mem h c hc)

/-- A leaf that is no quoted text is a word. -/
theorem isWordChar_of_mem_leaf : ∀ {e : Expr}, e.isLeaf = true → e.legible place = true →
    e.opening ≠ .quote → ∀ c ∈ e.shown.toList, isWordChar c = true
  | .const .null, _, _, _ => List.all_eq_true.mp (by decide)
  | .const (.boolean true), _, _, _ => List.all_eq_true.mp (by decide)
  | .const (.boolean false), _, _, _ => List.all_eq_true.mp (by decide)
  | .const (.int i), _, h, _ => by
    rw [shown_int h]
    exact isWordChar_of_mem_repr
  | .const (.long i), _, h, _ => by
    rw [shown_long h]
    exact List.forall_mem_append.mpr ⟨isWordChar_of_mem_repr, List.all_eq_true.mp (by decide)⟩
  | .const (.float x), _, h, _ => by
    rw [shown_float]
    exact List.forall_mem_append.mpr
      ⟨isWordChar_of_mem_numeral (Value.numeral_float h).1, List.all_eq_true.mp (by decide)⟩
  | .const (.double x), _, h, _ => isWordChar_of_mem_numeral (Value.numeral_double h).1
  | .const (.charArray s), _, _, hq => absurd rfl hq
  | .column 0 c none, _, _, _ => by
    rw [shown_place]
    exact List.forall_mem_cons.mpr ⟨by decide, isWordChar_of_mem_repr⟩
  | .column 0 c (some name), _, h, _ => by
    simp only [legible, Bool.and_eq_true] at h
    exact isWordChar_of_mem_name h.1.1
  | .column (i + 1) c none, _, _, _ => by
    rw [shown_inputPlace]
    exact List.forall_mem_cons.mpr ⟨by decide, List.forall_mem_append.mpr
      ⟨isWordChar_of_mem_repr, List.forall_mem_cons.mpr ⟨by decide,
        List.forall_mem_cons.mpr ⟨by decide, isWordChar_of_mem_repr⟩⟩⟩⟩
  | .column (i + 1) c (some name), _, h, _ => by
    simp only [legible, Bool.and_eq_true] at h
    rw [shown_inputName]
    exact List.forall_mem_cons.mpr ⟨by decide, List.forall_mem_append.mpr
      ⟨isWordChar_of_mem_repr, List.forall_mem_cons.mpr ⟨by decide, isWordChar_of_mem_name h.1.1⟩⟩⟩

theorem toInt_eq_of_repr {i j : Int} (hi : 0 ≤ i) (hj : 0 ≤ j)
    (h : i.toNat.repr.toList = j.toNat.repr.toList) : i = j := by
  have := repr_toList_inj h
  omega

/-- The type of a number, as its text tells it. -/
def numberType (text : List Char) : DataType :=
  if text.contains 'L' then .long
  else if text.contains 'F' then .float
  else if text.all Char.isDigit then .int
  else .double

/-- Letters that do not stand in the digits of a number. -/
theorem contains_eq_false {kind : Char → Bool} {text : List Char} {c : Char}
    (h : ∀ d ∈ text, kind d = true) (hc : kind c = false) : text.contains c = false := by
  rw [Bool.eq_false_iff]
  intro hmem
  rw [h c (by simpa using hmem)] at hc
  cases hc

theorem numberType_shown {v : Value} (hv : (const v).legible place = true)
    (hopen : (const v).opening = .digit) :
    v.type? = some (numberType (const v).shown.toList) := by
  cases v with
  | int i =>
    have hall : ∀ c ∈ i.toInt.toNat.repr.toList, c.isDigit = true := fun c => isDigit_of_mem_repr
    rw [shown_int hv, numberType, contains_eq_false hall (by decide),
      contains_eq_false hall (by decide), List.all_eq_true.mpr hall]
    rfl
  | long i => simp [shown_long hv, numberType, Value.type?]
  | float x =>
    obtain ⟨c, rest, htext, -, hall⟩ := exists_of_isNumeral (Value.numeral_float hv).1
    have hlong : 'L' ∉ (x.text Value.plainStyle).toList := by
      simpa using contains_eq_false (c := 'L') (htext ▸ hall) (by decide)
    simp [shown_float, numberType, Value.type?, hlong]
  | double x =>
    obtain ⟨hnumeral, hpoint, -⟩ := Value.numeral_double hv
    obtain ⟨c, rest, htext, -, hall⟩ := exists_of_isNumeral hnumeral
    rw [shown_double, numberType, contains_eq_false (htext ▸ hall) (by decide),
      contains_eq_false (htext ▸ hall) (by decide), hpoint]
    rfl
  | null | boolean _ | charArray _ => simp [opening] at hopen
  | _ => simp [legible, Value.legible] at hv

/-- Numbers with the same text are the same. -/
theorem number_inj {v w : Value} (hv : (const v).legible place = true)
    (hw : (const w).legible place = true) (hopen : (const v).opening = .digit)
    (hopen' : (const w).opening = .digit) (h : (const v).shown.toList = (const w).shown.toList) :
    v = w := by
  have htype : v.type? = w.type? := by
    rw [numberType_shown hv hopen, numberType_shown hw hopen', h]
  cases v with
  | int i =>
    cases w with
    | int j =>
      rw [shown_int hv, shown_int hw] at h
      have hi : 0 ≤ i.toInt := by simpa [legible, Value.legible] using hv
      have hj : 0 ≤ j.toInt := by simpa [legible, Value.legible] using hw
      rw [Int32.toInt_inj.mp (toInt_eq_of_repr hi hj h)]
    | _ => simp [Value.type?] at htype
  | long i =>
    cases w with
    | long j =>
      rw [shown_long hv, shown_long hw] at h
      have hi : 0 ≤ i.toInt := by simpa [legible, Value.legible] using hv
      have hj : 0 ≤ j.toInt := by simpa [legible, Value.legible] using hw
      rw [Int64.toInt_inj.mp (toInt_eq_of_repr hi hj (List.append_cancel_right h))]
    | _ => simp [Value.type?] at htype
  | float x =>
    cases w with
    | float y =>
      rw [shown_float, shown_float] at h
      have hread := (Value.numeral_float hv).2
      rw [List.append_cancel_right h, (Value.numeral_float hw).2] at hread
      rw [Option.some.inj hread]
    | _ => simp [Value.type?] at htype
  | double x =>
    cases w with
    | double y =>
      rw [shown_double, shown_double] at h
      have hread := (Value.numeral_double hv).2.2
      rw [h, (Value.numeral_double hw).2.2] at hread
      rw [Option.some.inj hread]
    | _ => simp [Value.type?] at htype
  | null | boolean _ | charArray _ => simp [opening] at hopen
  | _ => simp [legible, Value.legible] at hv

/-- The constants of which the text is a word. -/
theorem const_inj {v w : Value} (hv : (const v).legible place = true)
    (hw : (const w).legible place = true) (hopen : (const v).opening = (const w).opening)
    (hquote : (const v).opening ≠ .quote) (h : (const v).shown.toList = (const w).shown.toList) :
    v = w := by
  by_cases hdigit : (const v).opening = .digit
  · exact number_inj hv hw hdigit (hopen.symm.trans hdigit) h
  cases v with
  | null =>
    cases w with
    | null => rfl
    | boolean b => cases b <;> exact absurd h (by decide)
    | int _ | long _ | float _ | double _ | charArray _ => simp [opening] at hopen
    | _ => simp [legible, Value.legible] at hw
  | boolean b =>
    cases w with
    | null => cases b <;> exact absurd h (by decide)
    | boolean b' =>
      cases b <;> cases b'
      · rfl
      · exact absurd h (by decide)
      · exact absurd h (by decide)
      · rfl
    | int _ | long _ | float _ | double _ | charArray _ => simp [opening] at hopen
    | _ => simp [legible, Value.legible] at hw
  | int _ | long _ | float _ | double _ => exact absurd rfl hdigit
  | charArray _ => exact absurd rfl hquote
  | _ => simp [legible, Value.legible] at hv

/-- A constant is not written like a column. -/
theorem const_ne_column {v : Value} {i c : Nat} {name : Option String}
    (hv : (const v).legible place = true) (hc : (column i c name).legible place = true)
    (hopen : (const v).opening = (column i c name).opening) :
    (const v).shown.toList ≠ (column i c name).shown.toList := by
  intro h
  cases i with
  | zero =>
    cases name with
    | none => cases v <;> simp [opening] at hopen
    | some name =>
      have hkey := (isPlain_of_legible hc).2.1
      have hname : (const v).shown = name := String.toList_inj.mp h
      cases v with
      | null => exact hkey (hname ▸ by decide)
      | boolean b => cases b <;> exact hkey (hname ▸ by decide)
      | int _ | long _ | float _ | double _ | charArray _ => simp [opening] at hopen
      | _ => simp [legible, Value.legible] at hv
  | succ i =>
    rw [opening_column_succ] at hopen
    cases v <;> simp [opening] at hopen

theorem column_inj {i j c d : Nat} {name name' : Option String}
    (ha : (column i c name).legible place = true) (hb : (column j d name').legible place = true)
    (hopen : (column i c name).opening = (column j d name').opening)
    (h : (column i c name).shown.toList = (column j d name').shown.toList) : i = j ∧ c = d := by
  have hbracket : ∀ {r : List Char}, EndsWord Char.isDigit (']' :: r) := .cons (by decide)
  cases i with
  | zero =>
    cases j with
    | zero =>
      cases name with
      | none =>
        cases name' with
        | none =>
          rw [shown_place, shown_place] at h
          exact ⟨rfl, repr_toList_inj (List.cons.inj h).2⟩
        | some n => simp [opening] at hopen
      | some m =>
        cases name' with
        | none => simp [opening] at hopen
        | some n =>
          obtain rfl : m = n := String.toList_inj.mp h
          exact ⟨rfl, (isPlain_of_legible ha).2.2.symm.trans (isPlain_of_legible hb).2.2⟩
    | succ j => cases name <;> simp [opening] at hopen
  | succ i =>
    cases j with
    | zero => cases name' <;> simp [opening] at hopen
    | succ j =>
      -- the column after the number of its input
      have hcolumn : ∀ {r s : List Char}, '[' :: ((i + 1).repr.toList ++ ']' :: r) =
          '[' :: ((j + 1).repr.toList ++ ']' :: s) → i + 1 = j + 1 ∧ r = s := fun heq => by
        obtain ⟨hij, hrs⟩ := readable_repr _ _ _ _ trivial trivial hbracket hbracket
          (List.cons.inj heq).2
        exact ⟨hij, (List.cons.inj hrs).2⟩
      cases name with
      | none =>
        cases name' with
        | none =>
          rw [shown_inputPlace, shown_inputPlace] at h
          obtain ⟨hij, hcd⟩ := hcolumn h
          exact ⟨hij, repr_toList_inj (List.cons.inj hcd).2⟩
        | some n =>
          rw [shown_inputPlace, shown_inputName] at h
          obtain ⟨x, rest, hn, hx, -⟩ := exists_of_isPlain (isPlain_of_legible hb).1
          have hopen' := (hcolumn h).2
          rw [hn] at hopen'
          rw [← (List.cons.inj hopen').1] at hx
          exact absurd hx (by decide)
      | some m =>
        cases name' with
        | none =>
          rw [shown_inputName, shown_inputPlace] at h
          obtain ⟨x, rest, hm, hx, -⟩ := exists_of_isPlain (isPlain_of_legible ha).1
          have hopen' := (hcolumn h).2
          rw [hm] at hopen'
          rw [(List.cons.inj hopen').1] at hx
          exact absurd hx (by decide)
        | some n =>
          rw [shown_inputName, shown_inputName] at h
          obtain ⟨hij, hmn⟩ := hcolumn h
          obtain rfl : m = n := String.toList_inj.mp hmn
          obtain rfl : i = j := Nat.succ.inj hij
          exact ⟨rfl, (isPlain_of_legible ha).2.2.symm.trans (isPlain_of_legible hb).2.2⟩

theorem opening_of_quote : ∀ {e : Expr}, e.isLeaf = true → e.legible place = true →
    e.opening = .quote → ∃ s, e = const (.charArray s) ∧ '\'' ∉ s.toList
  | .const v, _, h, hq => by
    cases v with
    | charArray s => exact ⟨s, rfl, by simpa [legible, Value.legible, isQuotable] using h⟩
    | null | boolean _ | int _ | long _ | float _ | double _ => simp [opening] at hq
    | _ => simp [legible, Value.legible] at h
  | .column 0 _ none, _, _, hq | .column 0 _ (some _), _, _, hq
  | .column (_ + 1) _ _, _, _, hq => by
    simp [opening] at hq

/-- A leaf can be told from its text and from what stands behind it, if that does not go on like a
word. -/
theorem leaf_append_inj {a b : Expr} {r s : List Char} (hleafa : a.isLeaf = true)
    (hleafb : b.isLeaf = true) (ha : a.legible place = true) (hb : b.legible place = true)
    (hr : EndsWord isWordChar r) (hs : EndsWord isWordChar s)
    (h : a.shown.toList ++ r = b.shown.toList ++ s) : a.unlabeled = b.unlabeled ∧ r = s := by
  have hopen := opening_eq ha hb h
  by_cases hquote : a.opening = .quote
  · obtain ⟨v, rfl, hv⟩ := opening_of_quote hleafa ha hquote
    obtain ⟨w, rfl, hw⟩ := opening_of_quote hleafb hb (hopen.symm.trans hquote)
    simp only [shown_charArray, List.cons_append, List.append_assoc, List.nil_append] at h
    obtain ⟨hvw, hrs⟩ := marked_append_inj hv hw (List.cons.inj h).2
    rw [String.toList_inj.mp hvw]
    exact ⟨rfl, hrs⟩
  · obtain ⟨htext, hrs⟩ := word_append_inj (isWordChar_of_mem_leaf hleafa ha hquote)
      (isWordChar_of_mem_leaf hleafb hb (hopen ▸ hquote)) hr hs h
    refine ⟨?_, hrs⟩
    cases a with
    | const v =>
      cases b with
      | const w => rw [const_inj ha hb hopen hquote htext]
      | column j d n => exact absurd htext (const_ne_column ha hb hopen)
      | _ => simp [isLeaf] at hleafb
    | column i c m =>
      cases b with
      | const w => exact absurd htext.symm (const_ne_column hb ha hopen.symm)
      | column j d n =>
        obtain ⟨rfl, rfl⟩ := column_inj ha hb hopen htext
        rfl
      | _ => simp [isLeaf] at hleafb
    | _ => simp [isLeaf] at hleafa

/-- No leaf is written like a negation. -/
theorem leaf_ne_not {a e : Expr} {r s : List Char} (hleaf : a.isLeaf = true)
    (ha : a.legible place = true) (hr : EndsWord isWordChar r) :
    a.shown.toList ++ r ≠ (unary .not e).shown.toList ++ s := by
  rw [shown_not, List.append_assoc, List.cons_append]
  intro h
  have hopen : a.opening = .letter := by
    obtain ⟨c, rest, hc, hopen⟩ := exists_opening ha
    rw [hc] at h
    rw [(List.cons.inj h).1] at hopen
    exact (Option.some.inj hopen).symm
  obtain ⟨htext, -⟩ := word_append_inj (isWordChar_of_mem_leaf hleaf ha (by simp [hopen]))
    (List.all_eq_true.mp (by decide)) hr (.cons (by decide)) h
  have htext : a.shown = "NOT" := String.toList_inj.mp htext
  cases a with
  | const v =>
    cases v with
    | null => exact absurd htext (by decide)
    | boolean b => cases b <;> exact absurd htext (by decide)
    | int _ | long _ | float _ | double _ | charArray _ => simp [opening] at hopen
    | _ => simp [legible, Value.legible] at ha
  | column i c name =>
    cases i with
    | zero =>
      cases name with
      | none => simp [opening] at hopen
      | some name =>
        have hkey := (isPlain_of_legible ha).2.1
        exact hkey ((show name = "NOT" from htext) ▸ by decide)
    | succ i => simp [opening_column_succ] at hopen
  | _ => simp [isLeaf] at hleaf

end Expr

end Dataflow
