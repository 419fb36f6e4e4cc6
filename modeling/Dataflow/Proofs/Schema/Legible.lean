import Dataflow.Proofs.Text.Separation
import Dataflow.Schema.Basic

/-!
# Legible schemas

The text of a schema tells the names, types and nesting of its columns, if the names are plain: a
column is a word for its name and type, the columns inside it between parentheses, and its identity
as a number (`Schema.readable_text`).
-/

namespace Dataflow

open Text

/-! ## Types -/

theorem DataType.name_inj {s t : DataType} (h : s.name = t.name) : s = t := by
  have hname : ∀ t : DataType, ofName? t.name = some t := by
    intro t
    cases t <;> rfl
  exact Option.some.inj ((hname s).symm.trans (h ▸ hname t))

theorem DataType.isAlpha_of_mem_name {t : DataType} : ∀ c ∈ t.name.toList, c.isAlpha = true := by
  cases t <;> exact List.all_eq_true.mp (by decide)

theorem DataType.name_toList_ne_nil (t : DataType) : t.name.toList ≠ [] := by
  cases t <;> decide

/-! ## Columns -/

mutual

/-- Whether the names of a column and of those inside it are plain, if they have names. -/
def Field.legible : Field → Bool
  | ⟨n, _, inner, _, _⟩ => n.all isPlain && Schema.nestedLegible inner

def Schema.nestedLegible : Option (List Field) → Bool
  | none => true
  | some s => Schema.legible s

/-- Whether all names in a schema are plain. -/
def Schema.legible : List Field → Bool
  | [] => true
  | a :: as => a.legible && Schema.legible as

end

theorem Schema.legible_iff {s : Schema} : Schema.legible s = true ↔ ∀ a ∈ s, a.legible = true := by
  induction s with
  | nil => simp [legible]
  | cons a s ih => rw [legible, Bool.and_eq_true, ih, List.forall_mem_cons]

theorem Schema.sameShape_of_forall₂ {s t : Schema}
    (h : List.Forall₂ (fun a b => a.sameShape b = true) s t) : Schema.sameShape s t = true := by
  induction h with
  | nil => rfl
  | cons hab _ ih => rw [sameShape, hab, ih]; rfl

theorem Schema.fieldTexts_eq (s : Schema) : Schema.fieldTexts s = s.map Field.text := by
  induction s with
  | nil => rfl
  | cons a s ih => rw [fieldTexts, ih, List.map_cons]

namespace Field

/-- The name and the type of a column. -/
def label (name : Option String) (type : DataType) : List Char :=
  match name with
  | some n => n.toList ++ ':' :: type.name.toList
  | none => type.name.toList

theorem text_toList (n : Option String) (t : DataType) (inner : Option (List Field)) (u : Uid)
    (ps : List Uid) : (Field.mk n t inner u ps).text.toList =
      label n t ++ ((Schema.nestedText inner).toList ++ '#' :: u.val.toNat.repr.toList) := by
  cases n <;> simp [text, label, toString]

variable {n m : Option String} {t u : DataType}

theorem isNameChar_of_mem_label (hn : n.all isPlain = true) :
    ∀ c ∈ label n t, isNameChar c = true := by
  have htype : ∀ c ∈ t.name.toList, isNameChar c = true := fun c hc =>
    isNameChar_of_isAlpha (DataType.isAlpha_of_mem_name c hc)
  cases n with
  | none => exact htype
  | some n =>
    exact List.forall_mem_append.mpr ⟨isNameChar_of_mem hn,
      List.forall_mem_cons.mpr ⟨by decide, htype⟩⟩

theorem label_ne_nil : label n t ≠ [] := by
  cases n with
  | none => exact t.name_toList_ne_nil
  | some n => simp [label]

/-- The type is what stands behind the last colon. -/
theorem label_inj (h : label n t = label m u) : n = m ∧ t = u := by
  have hcolon : ∀ {t : DataType}, ':' ∉ t.name.toList := fun hmem =>
    absurd (DataType.isAlpha_of_mem_name _ hmem) (by decide)
  cases n with
  | none =>
    cases m with
    | none => exact ⟨rfl, DataType.name_inj (String.toList_inj.mp h)⟩
    | some m =>
      have h : t.name.toList = m.toList ++ ':' :: u.name.toList := h
      exact absurd (h ▸ by simp) (hcolon (t := t))
  | some n =>
    cases m with
    | none =>
      have h : n.toList ++ ':' :: t.name.toList = u.name.toList := h
      exact absurd (h ▸ by simp) (hcolon (t := u))
    | some m =>
      have h := congrArg List.reverse h
      simp only [label, List.reverse_append, List.reverse_cons, List.append_assoc,
        List.singleton_append] at h
      obtain ⟨ht, hn⟩ := marked_append_inj (by simpa using hcolon) (by simpa using hcolon) h
      rw [String.toList_inj.mp (List.reverse_inj.mp hn),
        DataType.name_inj (String.toList_inj.mp (List.reverse_inj.mp ht))]
      exact ⟨rfl, rfl⟩

theorem exists_first {a : Field} (h : a.legible = true) :
    ∃ c rest, a.text.toList = c :: rest ∧ isNameChar c = true := by
  obtain ⟨n, t, inner, u, ps⟩ := a
  simp only [legible, Bool.and_eq_true] at h
  cases hlabel : label n t with
  | nil => exact absurd hlabel label_ne_nil
  | cons c rest =>
    refine ⟨c, _, by rw [text_toList, hlabel, List.cons_append], ?_⟩
    exact isNameChar_of_mem_label (t := t) h.1 c (by rw [hlabel]; simp)

/-- The columns that a text in parentheses tells, if each of them can be told from its text. -/
theorem readable_parenthesized {ok : Field → Prop}
    (h : Readable text ok (EndsWord Char.isDigit) (fun a b => a.sameShape b = true))
    (hok : ∀ a, ok a → a.legible = true) :
    Readable Schema.text (∀ a ∈ ·, ok a) (fun _ => True) (fun s t =>
      Schema.sameShape s t = true) := by
  have hlist : ∀ s : Schema, ∀ r, s.text.toList ++ r =
      '(' :: ((Text.join ", " (s.map text)).toList ++ ')' :: r) := fun s r => by
    simp [Schema.text, Schema.nestedText, Schema.fieldTexts_eq]
  intro s t r r' hs ht _ _ heq
  rw [hlist, hlist] at heq
  have hfirst : ∀ a, ok a → ∃ c rest, a.text.toList = c :: rest ∧ c ≠ ')' := fun a ha => by
    obtain ⟨c, rest, hc, hname⟩ := exists_first (hok a ha)
    exact ⟨c, rest, hc, by rintro rfl; exact absurd hname (by decide)⟩
  obtain ⟨hall, hrs⟩ := h.join_closed ", " ')' (fun r => .cons (by decide))
    (fun r => .cons (by decide)) (by simp) hfirst hs ht (List.cons.inj heq).2
  exact ⟨Schema.sameShape_of_forall₂ hall, hrs⟩

/-- The columns inside a column are legible with it, and less deep. -/
theorem forall_nested {l : List Field} {ps : List Uid} {u : Uid} {depth : Nat}
    (h : Schema.nestedLegible (some l) = true)
    (hdepth : sizeOf (Field.mk n t (some l) u ps) < depth + 1) :
    ∀ a ∈ l, a.legible = true ∧ sizeOf a < depth := by
  intro a ha
  have hsize := List.sizeOf_lt_of_mem ha
  simp only [Field.mk.sizeOf_spec, Option.some.sizeOf_spec] at hdepth
  exact ⟨Schema.legible_iff.mp h a ha, by omega⟩

/-- A column can be told from its text, if those inside it can be told from theirs. The induction is
on how deep columns may be nested. -/
theorem readable_text (depth : Nat) : Readable text (fun a => a.legible = true ∧ sizeOf a < depth)
    (EndsWord Char.isDigit) (fun a b => a.sameShape b = true) := by
  induction depth with
  | zero => exact fun a b r s ha => absurd ha.2 (Nat.not_lt_zero _)
  | succ depth ih =>
    rintro ⟨n, t, inner, u, ps⟩ ⟨m, t', inner', u', ps'⟩ r s ⟨ha, hdepth⟩ ⟨hb, hdepth'⟩ hr hs h
    rw [text_toList, text_toList, List.append_assoc, List.append_assoc, List.append_assoc,
      List.append_assoc] at h
    simp only [legible, Bool.and_eq_true] at ha hb
    -- what stands behind the label begins with a parenthesis or a number sign
    have hbehind : ∀ (inner : Option (List Field)) (r : List Char),
        EndsWord isNameChar ((Schema.nestedText inner).toList ++ '#' :: r) := fun inner r => by
      cases inner with
      | none => exact .cons (by decide)
      | some s => simp [Schema.nestedText, EndsWord]; decide
    obtain ⟨hlabel, hrest⟩ := word_append_inj (isNameChar_of_mem_label ha.1)
      (isNameChar_of_mem_label hb.1) (hbehind inner _) (hbehind inner' _) h
    obtain ⟨rfl, rfl⟩ := label_inj hlabel
    have hinner : Schema.nestedSameShape inner inner' = true ∧
        u.val.toNat.repr.toList ++ r = u'.val.toNat.repr.toList ++ s := by
      cases inner with
      | none =>
        cases inner' with
        | none => exact ⟨rfl, (List.cons.inj hrest).2⟩
        | some l' => simp [Schema.nestedText] at hrest
      | some l =>
        cases inner' with
        | none => simp [Schema.nestedText] at hrest
        | some l' =>
          obtain ⟨hsame, hnumber⟩ := readable_parenthesized ih (fun a ha => ha.1) l l' _ _
            (forall_nested ha.2 hdepth) (forall_nested hb.2 hdepth') trivial trivial hrest
          exact ⟨hsame, (List.cons.inj hnumber).2⟩
    obtain ⟨-, hrs⟩ := readable_repr _ _ _ _ trivial trivial hr hs hinner.2
    exact ⟨by simp [sameShape, hinner.1], hrs⟩

end Field

/-- A schema with plain names can be told from its text. -/
theorem Schema.readable_text : Readable text (fun s => Schema.legible s = true) (fun _ => True)
    (fun s t => Schema.sameShape s t = true) := by
  intro s t r r' hs ht hr hr' h
  have hok : ∀ {l : Schema}, Schema.legible l = true → sizeOf l ≤ sizeOf s + sizeOf t →
      ∀ a ∈ l, a.legible = true ∧ sizeOf a < sizeOf s + sizeOf t := fun hl hle a ha =>
    ⟨Schema.legible_iff.mp hl a ha, Nat.lt_of_lt_of_le (List.sizeOf_lt_of_mem ha) hle⟩
  exact Field.readable_parenthesized (Field.readable_text _) (fun a ha => ha.1) s t r r'
    (hok hs (Nat.le_add_right _ _)) (hok ht (Nat.le_add_left _ _)) hr hr' h

end Dataflow
