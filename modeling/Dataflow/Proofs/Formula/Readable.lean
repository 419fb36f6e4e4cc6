import Dataflow.Proofs.Formula.Legible

/-!
# Reading expressions off their texts

The text of an expression is the text of an operand without a lookup or a test for null, followed by
the lookups and tests made on it. The proof that legible expressions can be told from their texts
(`Expr.readable_shown`) carries those along (`Expr.shown_append_inj`), since where the operand ends
is seen only from what follows.
-/

namespace Dataflow.Expr

open Text

variable {place : Nat → String → Nat}

/-! ## Operations that stand behind their operand -/

/-- What an operation adds behind the text of its operand. -/
def suffix : UnaryOp → List Char
  | .lookup key => '#' :: '\'' :: (key.toList ++ ['\''])
  | .isNull => ' ' :: 'I' :: "S NULL".toList
  | _ => []

/-- Whether the operation is written behind its operand, and legibly. -/
def isSuffixed : UnaryOp → Bool
  | .lookup key => isQuotable key
  | .isNull => true
  | _ => false

/-- What several operations, each on the result of the one before, add behind the text. -/
def suffixes (ops : List UnaryOp) : List Char := ops.flatMap suffix

/-- The expression with several operations made on it. -/
def applyAll (ops : List UnaryOp) (e : Expr) : Expr := ops.foldl (fun e op => .unary op e) e

theorem unlabeled_applyAll : ∀ (ops : List UnaryOp) (e : Expr),
    (applyAll ops e).unlabeled = applyAll ops e.unlabeled
  | [], _ => rfl
  | op :: ops, e => unlabeled_applyAll ops (.unary op e)

/-- What may stand behind an expression: nothing, the end of a bracket, a comma, or a blank that
does not begin a test for null. -/
def Follows (r : List Char) : Prop :=
  r = [] ∨ (∃ t, r = ')' :: t) ∨ (∃ t, r = ',' :: t) ∨ ∃ c t, r = ' ' :: c :: t ∧ c ≠ 'I'

theorem Follows.endsWord {r : List Char} (h : Follows r) : EndsWord isWordChar r := by
  rcases h with rfl | ⟨t, rfl⟩ | ⟨t, rfl⟩ | ⟨c, t, rfl, -⟩
  · exact .nil
  all_goals exact .cons (by decide)

theorem Follows.endsWord_suffixes {r : List Char} (h : Follows r) : ∀ {ops : List UnaryOp},
    (∀ op ∈ ops, isSuffixed op = true) → EndsWord isWordChar (suffixes ops ++ r)
  | [], _ => h.endsWord
  | .lookup _ :: _, _ => .cons (by decide)
  | .isNull :: _, _ => .cons (by decide)
  | .not :: _, hops | .negate :: _, hops => by simp [isSuffixed] at hops

/-- What may stand behind an expression is not one more operation on it. -/
theorem Follows.ne_suffix {r s : List Char} (h : Follows r) {op : UnaryOp}
    (hop : isSuffixed op = true) : r ≠ suffix op ++ s := by
  rintro rfl
  cases op with
  | lookup key => simp [Follows, suffix] at h
  | isNull =>
    rcases h with h | ⟨t, h⟩ | ⟨t, h⟩ | ⟨c, t, h, hc⟩
    · simp [suffix] at h
    · simp [suffix] at h
    · simp [suffix] at h
    · exact hc (List.cons.inj (List.cons.inj h).2).1.symm
  | not | negate => simp [isSuffixed] at hop

theorem Follows.suffixes_ne_parenthesis {r s : List Char} (h : Follows r) : ∀ {ops : List UnaryOp},
    (∀ op ∈ ops, isSuffixed op = true) → suffixes ops ++ r ≠ '(' :: s
  | [], _ => by rintro rfl; simp [Follows] at h
  | .lookup _ :: _, _ => by simp [suffixes, suffix]
  | .isNull :: _, _ => by simp [suffixes, suffix]
  | .not :: _, hops | .negate :: _, hops => by simp [isSuffixed] at hops

theorem suffix_append_inj {op op' : UnaryOp} {r s : List Char} (hop : isSuffixed op = true)
    (hop' : isSuffixed op' = true) (h : suffix op ++ r = suffix op' ++ s) : op = op' ∧ r = s := by
  cases op with
  | lookup key =>
    cases op' with
    | lookup key' =>
      simp only [suffix, List.cons_append, List.append_assoc, List.nil_append, List.cons.injEq,
        true_and] at h
      obtain ⟨hkey, hrs⟩ := marked_append_inj (by simpa [isSuffixed, isQuotable] using hop)
        (by simpa [isSuffixed, isQuotable] using hop') h
      rw [String.toList_inj.mp hkey]
      exact ⟨rfl, hrs⟩
    | isNull => simp [suffix] at h
    | not | negate => simp [isSuffixed] at hop'
  | isNull =>
    cases op' with
    | isNull => exact ⟨rfl, List.append_cancel_left h⟩
    | lookup key' => simp [suffix] at h
    | not | negate => simp [isSuffixed] at hop'
  | not | negate => simp [isSuffixed] at hop

theorem suffixes_append_inj {r s : List Char} (hr : Follows r) (hs : Follows s) :
    ∀ {ops ops' : List UnaryOp}, (∀ op ∈ ops, isSuffixed op = true) →
      (∀ op ∈ ops', isSuffixed op = true) → suffixes ops ++ r = suffixes ops' ++ s →
      ops = ops' ∧ r = s
  | [], [], _, _, h => ⟨rfl, h⟩
  | [], op :: ops', _, hops', h => by
    have h : r = suffix op ++ (suffixes ops' ++ s) := by simpa [suffixes] using h
    exact absurd h (hr.ne_suffix (hops' op (by simp)))
  | op :: ops, [], hops, _, h => by
    have h : s = suffix op ++ (suffixes ops ++ r) := by simpa [suffixes] using h.symm
    exact absurd h (hs.ne_suffix (hops op (by simp)))
  | op :: ops, op' :: ops', hops, hops', h => by
    have h : suffix op ++ (suffixes ops ++ r) = suffix op' ++ (suffixes ops' ++ s) := by
      simpa [suffixes] using h
    obtain ⟨rfl, hrest⟩ := suffix_append_inj (hops op (by simp)) (hops' op' (by simp)) h
    obtain ⟨rfl, hrs⟩ := suffixes_append_inj hr hs
      (fun o ho => hops o (List.mem_cons_of_mem _ ho))
      (fun o ho => hops' o (List.mem_cons_of_mem _ ho)) hrest
    exact ⟨rfl, hrs⟩

theorem symbol_inj : ∀ op op' : BinaryOp, op.symbol = op'.symbol → op = op'
  | .and, .and, _ | .or, .or, _ => rfl
  | .compare c, .compare d, h => by cases c <;> cases d <;> first | rfl | exact absurd h (by decide)
  | .arithmetic c, .arithmetic d, h => by
    cases c <;> cases d <;> first | rfl | exact absurd h (by decide)
  | .and, .or, h | .or, .and, h => absurd h (by decide)
  | .and, .compare c, h | .or, .compare c, h => by cases c <;> exact absurd h (by decide)
  | .and, .arithmetic c, h | .or, .arithmetic c, h => by cases c <;> exact absurd h (by decide)
  | .compare c, .and, h | .compare c, .or, h => by cases c <;> exact absurd h (by decide)
  | .arithmetic c, .and, h | .arithmetic c, .or, h => by cases c <;> exact absurd h (by decide)
  | .compare c, .arithmetic d, h | .arithmetic d, .compare c, h => by
    cases c <;> cases d <;> exact absurd h (by decide)

theorem blank_not_mem_symbol (op : BinaryOp) : ' ' ∉ op.symbol.toList := by
  rcases op with _ | _ | c | c
  · decide
  · decide
  · cases c <;> decide
  · cases c <;> decide

theorem follows_symbol (op : BinaryOp) (r : List Char) :
    Follows (' ' :: (op.symbol.toList ++ r)) := by
  have hfirst : ∃ c t, op.symbol.toList = c :: t ∧ c ≠ 'I' := by
    rcases op with _ | _ | c | c
    · exact ⟨'A', _, rfl, by decide⟩
    · exact ⟨'O', _, rfl, by decide⟩
    · cases c <;> exact ⟨_, _, rfl, by decide⟩
    · cases c <;> exact ⟨_, _, rfl, by decide⟩
  obtain ⟨c, t, hsymbol, hc⟩ := hfirst
  exact .inr (.inr (.inr ⟨c, t ++ r, by rw [hsymbol]; rfl, hc⟩))

/-- An expression with the operations that are made on it and what stands behind them. -/
structure Trail (place : Nat → String → Nat) (e : Expr) (ops : List UnaryOp) (r : List Char) :
    Prop where
  legible : e.legible place = true
  suffixed : ∀ op ∈ ops, isSuffixed op = true
  unprefixed : ops ≠ [] → e.isPrefixed = false
  follows : Follows r

namespace Trail

variable {e a b : Expr} {op : UnaryOp} {ops ops' : List UnaryOp} {r s : List Char}

theorem nil (h : e.legible place = true) (hr : Follows r) : Trail place e [] r :=
  ⟨h, by simp, fun hne => absurd rfl hne, hr⟩

/-- An operation that is written behind its operand may be counted among what is made on it. -/
theorem shift (h : Trail place (.unary op e) ops r) (hop : op ≠ .not ∧ op ≠ .negate) :
    Trail place e (op :: ops) r ∧ (unary op e).shown.toList = e.shown.toList ++ suffix op := by
  have hlegible := h.legible
  cases op with
  | lookup key =>
    simp only [Expr.legible, Bool.and_eq_true, Bool.not_eq_true'] at hlegible
    exact ⟨⟨hlegible.2, List.forall_mem_cons.mpr ⟨hlegible.1.2, h.suffixed⟩, fun _ => hlegible.1.1,
      h.follows⟩, shown_lookup key e⟩
  | isNull =>
    simp only [Expr.legible, Bool.and_eq_true, Bool.not_eq_true'] at hlegible
    exact ⟨⟨hlegible.2, List.forall_mem_cons.mpr ⟨rfl, h.suffixed⟩, fun _ => hlegible.1, h.follows⟩,
      shown_isNull e⟩
  | not => exact absurd rfl hop.1
  | negate => exact absurd rfl hop.2

/-- All of them may, so that something else is left. -/
theorem exists_base : ∀ {e : Expr} {ops : List UnaryOp}, Trail place e ops r →
    ∃ a ops', Trail place a ops' r ∧ (∀ op b, a = .unary op b → op = .not ∨ op = .negate) ∧
      e.shown.toList ++ suffixes ops = a.shown.toList ++ suffixes ops' ∧
      applyAll ops e = applyAll ops' a
  | .unary op e, ops, h => by
    by_cases hop : op = .not ∨ op = .negate
    · exact ⟨_, ops, h, fun op' b heq => by obtain ⟨rfl, -⟩ := unary.inj heq; exact hop, rfl, rfl⟩
    · obtain ⟨hshift, htext⟩ := h.shift (not_or.mp hop)
      obtain ⟨a, ops', ha, hbase, hshown, happly⟩ := exists_base hshift
      refine ⟨a, ops', ha, hbase, ?_, happly⟩
      rw [htext, ← hshown, List.append_assoc]
      rfl
  | .const v, ops, h => ⟨_, ops, h, by simp, rfl, rfl⟩
  | .column i c n, ops, h => ⟨_, ops, h, by simp, rfl, rfl⟩
  | .named i n, ops, h => ⟨_, ops, h, by simp, rfl, rfl⟩
  | .binary op x y, ops, h => ⟨_, ops, h, by simp, rfl, rfl⟩

/-- Equal operands with the same text behind them had the same operations made on them. -/
theorem finish (ha : Trail place a ops r) (hb : Trail place b ops' s)
    (hab : a.unlabeled = b.unlabeled) (h : suffixes ops ++ r = suffixes ops' ++ s) :
    (applyAll ops a).unlabeled = (applyAll ops' b).unlabeled ∧ r = s := by
  obtain ⟨rfl, hrs⟩ := suffixes_append_inj ha.follows hb.follows ha.suffixed hb.suffixed h
  exact ⟨by rw [unlabeled_applyAll, unlabeled_applyAll, hab], hrs⟩

theorem endsWord (h : Trail place e ops r) : EndsWord isWordChar (suffixes ops ++ r) :=
  h.follows.endsWord_suffixes h.suffixed

/-- Nothing is written behind what is written in front of its operand. -/
theorem operand (h : Trail place (.unary op e) ops r) (hop : op = .not ∨ op = .negate) :
    ops = [] ∧ Trail place e [] r := by
  have hnil : ops = [] := by
    by_contra hne
    have hprefixed := h.unprefixed hne
    rcases hop with rfl | rfl <;> exact absurd hprefixed (by simp [isPrefixed])
  have he : e.legible place = true := by
    rcases hop with rfl | rfl <;> exact h.legible
  exact ⟨hnil, .nil he h.follows⟩

end Trail

theorem opening_of_isLeaf : ∀ {a : Expr}, a.isLeaf = true →
    a.opening ≠ .sign ∧ a.opening ≠ .parenthesis
  | .const v, _ => by cases v <;> simp [opening]
  | .column i _ name, _ => by
    rcases i with _ | i
    · rcases name with _ | name <;> simp [opening]
    · simp [opening]

/-- What is left where nothing is written behind: a leaf, a negation, a sign or an operation in
parentheses. -/
theorem cases_of_base {b : Expr} (hb : b.legible place = true)
    (hbase : ∀ op e, b = .unary op e → op = .not ∨ op = .negate) :
    b.isLeaf = true ∨ (∃ e, b = .unary .not e) ∨ (∃ e, b = .unary .negate e) ∨
      ∃ op x y, b = .binary op x y := by
  cases b with
  | const v => exact .inl rfl
  | column i c n => exact .inl rfl
  | named i n => simp [legible] at hb
  | unary op e =>
    rcases hbase op e rfl with rfl | rfl
    · exact .inr (.inl ⟨e, rfl⟩)
    · exact .inr (.inr (.inl ⟨e, rfl⟩))
  | binary op x y => exact .inr (.inr (.inr ⟨op, x, y, rfl⟩))

/-- A leaf is taken for nothing but a leaf. -/
theorem leaf_trail_inj {a b : Expr} {ops ops' : List UnaryOp} {r s : List Char}
    (hleaf : a.isLeaf = true) (ha : Trail place a ops r) (hb : Trail place b ops' s)
    (h : a.shown.toList ++ (suffixes ops ++ r) = b.shown.toList ++ (suffixes ops' ++ s)) :
    (applyAll ops a).unlabeled = (applyAll ops' b).unlabeled ∧ r = s := by
  obtain ⟨b, ops', hb, hbase, hshown, happly⟩ := hb.exists_base
  rw [← List.append_assoc _ _ s, hshown, List.append_assoc] at h
  rw [happly]
  have hopen := opening_eq ha.legible hb.legible h
  rcases cases_of_base hb.legible hbase with hleafb | ⟨e, rfl⟩ | ⟨e, rfl⟩ | ⟨op, x, y, rfl⟩
  · obtain ⟨hab, hrest⟩ :=
      leaf_append_inj hleaf hleafb ha.legible hb.legible ha.endsWord hb.endsWord h
    exact ha.finish hb hab hrest
  · exact absurd h (leaf_ne_not hleaf ha.legible ha.endsWord)
  · exact absurd hopen (opening_of_isLeaf hleaf).1
  · exact absurd hopen (opening_of_isLeaf hleaf).2

/-- From the text of a legible expression, the operations written behind it and what stands behind
them it can be told what all of it is. The induction is on the expression; an operation that is
written behind its operand is counted among those that are made on the operand. -/
theorem shown_append_inj : ∀ {a b : Expr} {ops ops' : List UnaryOp} {r s : List Char},
    Trail place a ops r → Trail place b ops' s →
    a.shown.toList ++ (suffixes ops ++ r) = b.shown.toList ++ (suffixes ops' ++ s) →
    (applyAll ops a).unlabeled = (applyAll ops' b).unlabeled ∧ r = s := by
  intro a
  induction a with
  | const v => exact fun ha hb h => leaf_trail_inj rfl ha hb h
  | column i c name => exact fun ha hb h => leaf_trail_inj rfl ha hb h
  | named i name => exact fun ha => absurd ha.legible (by simp [legible])
  | unary op e ih =>
    intro b ops ops' r s ha hb h
    by_cases hop : op = .not ∨ op = .negate
    · obtain ⟨b, ops', hb, hbase, hshown, happly⟩ := hb.exists_base
      rw [← List.append_assoc _ _ s, hshown, List.append_assoc] at h
      rw [happly]
      have hopen := opening_eq ha.legible hb.legible h
      obtain ⟨rfl, ha'⟩ := ha.operand hop
      rcases cases_of_base hb.legible hbase with hleafb | ⟨e', rfl⟩ | ⟨e', rfl⟩ | ⟨op', x, y, rfl⟩
      · obtain ⟨hab, hrs⟩ := leaf_trail_inj hleafb hb ha h.symm
        exact ⟨hab.symm, hrs.symm⟩
      · obtain ⟨rfl, hb'⟩ := hb.operand (.inl rfl)
        rcases hop with rfl | rfl
        · rw [shown_not, shown_not, List.append_assoc, List.append_assoc, List.cons_append,
            List.cons_append] at h
          obtain ⟨hab, hrs⟩ := ih ha' hb'
            (List.cons.inj (List.append_cancel_left h)).2
          exact ⟨congrArg (unary .not) hab, hrs⟩
        · simp [opening] at hopen
      · obtain ⟨rfl, hb'⟩ := hb.operand (.inr rfl)
        rcases hop with rfl | rfl
        · simp [opening] at hopen
        · rw [shown_negate, shown_negate, List.cons_append, List.cons_append] at h
          obtain ⟨hab, hrs⟩ := ih ha' hb'
            (List.cons.inj h).2
          exact ⟨congrArg (unary .negate) hab, hrs⟩
      · rcases hop with rfl | rfl <;> simp [opening] at hopen
    · obtain ⟨hshift, htext⟩ := ha.shift (not_or.mp hop)
      rw [htext, List.append_assoc, ← List.append_assoc (suffix op)] at h
      exact ih hshift hb h
  | binary op x y ihx ihy =>
    intro b ops ops' r s ha hb h
    obtain ⟨b, ops', hb, hbase, hshown, happly⟩ := hb.exists_base
    rw [← List.append_assoc _ _ s, hshown, List.append_assoc] at h
    rw [happly]
    have hopen := opening_eq ha.legible hb.legible h
    rcases cases_of_base hb.legible hbase with hleafb | ⟨e, rfl⟩ | ⟨e, rfl⟩ | ⟨op', x', y', rfl⟩
    · exact absurd hopen.symm (opening_of_isLeaf hleafb).2
    · simp [opening] at hopen
    · simp [opening] at hopen
    · have hxy : x.legible place = true ∧ y.legible place = true := by
        simpa [legible] using ha.legible
      have hxy' : x'.legible place = true ∧ y'.legible place = true := by
        simpa [legible] using hb.legible
      simp only [shown_binary, List.cons_append, List.append_assoc, List.nil_append,
        List.cons.injEq, true_and] at h
      obtain ⟨hx, hbehindx⟩ :=
        ihx (.nil hxy.1 (follows_symbol op _)) (.nil hxy'.1 (follows_symbol op' _)) h
      obtain ⟨hop, hbehindop⟩ := marked_append_inj (blank_not_mem_symbol op)
        (blank_not_mem_symbol op') (List.cons.inj hbehindx).2
      obtain ⟨hy, hbehindy⟩ := ihy (.nil hxy.2 (.inr (.inl ⟨_, rfl⟩)))
        (.nil hxy'.2 (.inr (.inl ⟨_, rfl⟩))) hbehindop
      obtain rfl : op = op' := symbol_inj op op' (String.toList_inj.mp hop)
      have hab : (binary op x y).unlabeled = (binary op x' y').unlabeled :=
        congrArg₂ (binary op) hx hy
      exact ha.finish hb hab (List.cons.inj hbehindy).2

/-- A legible expression can be told from its text, the shown names of columns aside. -/
theorem readable_shown : Readable shown (legible place · = true) Follows
    (fun a b => a.unlabeled = b.unlabeled) :=
  fun _ _ _ _ ha hb hr hs h => shown_append_inj (.nil ha hr) (.nil hb hs) h

/-- No expression is a word before a parenthesis. -/
theorem shown_ne_call {e : Expr} {c : Char} {word r s : List Char} (he : e.legible place = true)
    (hr : Follows r) (hword : ∀ d ∈ c :: word, isWordChar d = true) (hc : c ≠ 'N' ∧ c ≠ '-') :
    e.shown.toList ++ r ≠ c :: word ++ '(' :: s := by
  obtain ⟨b, ops, hb, hbase, hshown, -⟩ := (Trail.nil he hr).exists_base
  have hshown : e.shown.toList = b.shown.toList ++ suffixes ops := by
    simpa [suffixes] using hshown
  rw [hshown, List.append_assoc]
  intro h
  rcases cases_of_base hb.legible hbase with hleaf | ⟨e, rfl⟩ | ⟨e, rfl⟩ | ⟨op, x, y, rfl⟩
  · have hquote : b.opening ≠ .quote := fun hquote => by
      obtain ⟨v, rfl, -⟩ := opening_of_quote hleaf hb.legible hquote
      rw [shown_charArray, List.cons_append, List.cons_append] at h
      have hmark := hword c (by simp)
      rw [← (List.cons.inj h).1] at hmark
      exact absurd hmark (by decide)
    obtain ⟨-, hrest⟩ := word_append_inj (isWordChar_of_mem_leaf hleaf hb.legible hquote) hword
      hb.endsWord (.cons (by decide)) h
    exact hr.suffixes_ne_parenthesis hb.suffixed hrest
  · rw [shown_not, List.cons_append] at h
    exact hc.1 (List.cons.inj (show 'N' :: _ = _ from h)).1.symm
  · rw [shown_negate, List.cons_append, List.cons_append] at h
    exact hc.2 (List.cons.inj h).1.symm
  · rw [shown_binary, List.cons_append, List.cons_append] at h
    have hpar := hword c (by simp)
    rw [← (List.cons.inj h).1] at hpar
    exact absurd hpar (by decide)

end Dataflow.Expr
