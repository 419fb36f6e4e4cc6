import Dataflow.Proofs.Json.Tokens

/-!
# JSON that is read back

A value is `Legible` if it is not nested more deeply than the reader allows, if whole numbers fit 64
bits and if each other number, taken for itself, is read as it was; the digits of some are rounded
twice and are not. From its text the reader gets back such a value (`read_text`), whatever texts
there are in it. The reader is given as many calls as the text has characters, and each value, item
and member takes at least one of them.
-/

namespace Dataflow.Json

/-! ## Values -/

mutual

/-- Whether a value can be read from its text: it is not nested more deeply than is allowed, whole
numbers fit their width, and other numbers are read from their digits as they were. -/
def Legible : Json → Nat → Prop
  | .null, _ | .bool _, _ | .string _, _ => True
  | .int i, _ => -2 ^ 63 ≤ i ∧ i < 2 ^ 64
  | .double x, _ => takeNumber false (x.text numberStyle).toList = .ok (.double x, [])
  | .array items, depth => 0 < depth ∧ ItemsLegible items (depth - 1)
  | .object members, depth => 0 < depth ∧ MembersLegible members (depth - 1)
  | .unheld, _ => False
termination_by structural j => j

def ItemsLegible : List Json → Nat → Prop
  | [], _ => True
  | j :: rest, depth => Legible j depth ∧ ItemsLegible rest depth
termination_by structural items => items

def MembersLegible : List (String × Json) → Nat → Prop
  | [], _ => True
  | (_, j) :: rest, depth => Legible j depth ∧ MembersLegible rest depth
termination_by structural members => members

end

/-- The characters of items with commas between them. -/
def itemChars (items : List Json) : List Char :=
  [','].intercalate ((itemTexts items).map String.toList)

def memberChars (members : List (String × Json)) : List Char :=
  [','].intercalate ((memberTexts members).map String.toList)

theorem text_string (s : String) :
    (string s).text.toList = '"' :: (s.toList.flatMap escapedChar ++ ['"']) := by
  rw [text, stringText, String.toList_ofList]
  rfl

theorem text_array (items : List Json) :
    (array items).text.toList = '[' :: (itemChars items ++ [']']) := by
  rw [text, String.toList_append, String.toList_append, String.toList_intercalate]
  rfl

theorem text_object (members : List (String × Json)) :
    (object members).text.toList = '\x7b' :: (memberChars members ++ ['\x7d']) := by
  rw [text, String.toList_append, String.toList_append, String.toList_intercalate]
  rfl

theorem itemChars_singleton (j : Json) : itemChars [j] = j.text.toList := by
  simp [itemChars, itemTexts]

theorem itemChars_cons_cons (j j' : Json) (items : List Json) :
    itemChars (j :: j' :: items) = j.text.toList ++ ',' :: itemChars (j' :: items) := by
  simp [itemChars, itemTexts]

/-- The characters of a member. -/
def memberChar (k : String) (j : Json) : List Char :=
  (string k).text.toList ++ ':' :: j.text.toList

theorem memberChars_singleton (k : String) (j : Json) : memberChars [(k, j)] = memberChar k j := by
  simp [memberChars, memberTexts, memberChar, text]

theorem memberChars_cons_cons (k : String) (j : Json) (m : String × Json)
    (members : List (String × Json)) :
    memberChars ((k, j) :: m :: members) = memberChar k j ++ ',' :: memberChars (m :: members) := by
  simp [memberChars, memberTexts, memberChar, text]

/-- Whether a text begins like a value. -/
def BeginsValue (text : List Char) : Prop :=
  ∃ c rest, text = c :: rest ∧ isSpace c = false ∧ c ≠ ']'

theorem beginsValue_of_number {c : Char} {rest : List Char} (h : c = '-' ∨ c.isDigit = true) :
    BeginsValue (c :: rest) := by
  refine ⟨c, rest, rfl, ?_⟩
  rcases h with rfl | h
  · decide
  · have hne : ∀ d : Char, d.isDigit = false → c ≠ d := by
      rintro d hd rfl
      exact absurd h (by simp [hd])
    simp [isSpace, hne]

theorem beginsValue_text {j : Json} {depth : Nat} (h : j.Legible depth) :
    BeginsValue j.text.toList := by
  cases j with
  | null => exact ⟨'n', _, rfl, by decide, by decide⟩
  | bool b => cases b <;> exact ⟨_, _, rfl, by decide, by decide⟩
  | int i =>
    obtain ⟨c, rest, htext, hc⟩ := exists_of_takeNumber (takeNumber_int false h.1 h.2)
    rw [text, htext]
    exact beginsValue_of_number hc
  | double x =>
    obtain ⟨c, rest, htext, hc⟩ := exists_of_takeNumber h
    rw [text, htext]
    exact beginsValue_of_number hc
  | string s => exact ⟨_, _, text_string s, by decide, by decide⟩
  | array items => exact ⟨_, _, text_array items, by decide, by decide⟩
  | object members => exact ⟨_, _, text_object members, by decide, by decide⟩
  | unheld => exact h.elim

theorem BeginsValue.append {text : List Char} (h : BeginsValue text) (rest : List Char) :
    BeginsValue (text ++ rest) := by
  obtain ⟨c, text, rfl, hc⟩ := h
  exact ⟨c, text ++ rest, rfl, hc⟩

theorem BeginsValue.skipSpace_eq {text : List Char} (h : BeginsValue text) :
    skipSpace text = text := by
  obtain ⟨c, text, rfl, hc, -⟩ := h
  simp [skipSpace, hc]

theorem exists_calls {j : Json} {depth calls : Nat} (h : j.Legible depth)
    (hcalls : j.text.toList.length ≤ calls) : ∃ k, calls = k + 1 := by
  obtain ⟨c, rest, htext, -⟩ := beginsValue_text h
  rw [htext, List.length_cons] at hcalls
  exact ⟨calls - 1, by omega⟩

theorem beginsValue_itemChars {items : List Json} {depth : Nat} (hne : items ≠ [])
    (h : ItemsLegible items depth) : BeginsValue (itemChars items) := by
  match items with
  | [j] =>
    rw [itemChars_singleton]
    exact beginsValue_text h.1
  | j :: j' :: items =>
    rw [itemChars_cons_cons]
    exact (beginsValue_text h.1).append _

theorem exists_memberChars {members : List (String × Json)} (hne : members ≠ []) :
    ∃ behind, memberChars members = '"' :: behind := by
  match members with
  | [(k, j)] =>
    rw [memberChars_singleton, memberChar, text_string]
    exact ⟨_, rfl⟩
  | (k, j) :: m :: members =>
    rw [memberChars_cons_cons, memberChar, text_string]
    exact ⟨_, rfl⟩

theorem takeValue_number {depth calls : Nat} {text behind : List Char} {j : Json}
    (h : takeNumber false text = .ok (j, behind)) :
    takeValue false depth (calls + 1) text = .ok (j, behind) := by
  obtain ⟨c, rest, rfl, hc⟩ := exists_of_takeNumber h
  have hne : ∀ d : Char, d ≠ '-' → d.isDigit = false → c ≠ d := by
    rintro d hminus hdigit rfl
    exact hc.elim hminus fun h => absurd h (by simp [hdigit])
  rw [takeValue, (beginsValue_of_number hc).skipSpace_eq]
  split
  · next heq => cases heq
  · next heq => exact absurd (List.cons.inj heq).1 (hne _ (by decide) (by decide))
  · next heq => exact absurd (List.cons.inj heq).1 (hne _ (by decide) (by decide))
  · next heq => exact absurd (List.cons.inj heq).1 (hne _ (by decide) (by decide))
  · next heq => exact absurd (List.cons.inj heq).1 (hne _ (by decide) (by decide))
  · next heq => exact absurd (List.cons.inj heq).1 (hne _ (by decide) (by decide))
  · next heq => exact absurd (List.cons.inj heq).1 (hne _ (by decide) (by decide))
  · next heq =>
    obtain ⟨rfl, rfl⟩ := List.cons.inj heq
    rw [if_pos (by simpa using hc), h]

variable {depth calls : Nat} {text rest : List Char}

theorem takeValue_string (s : String) :
    takeValue false depth (calls + 1) ((string s).text.toList ++ rest) = .ok (.string s, rest) := by
  have hskip : ∀ text, skipSpace ('"' :: text) = '"' :: text := fun _ => rfl
  rw [text_string, List.cons_append, List.append_assoc, List.singleton_append, takeValue, hskip]
  simp [takeString, stringTail_text, holding]

theorem takeValue_emptyArray (hdepth : 0 < depth) :
    takeValue false depth (calls + 1) ('[' :: ']' :: rest) = .ok (.array [], rest) := by
  have hne : depth ≠ 0 := by omega
  simp [takeValue, skipSpace, isSpace, hne]

theorem takeValue_array {items : List Json} (hdepth : 0 < depth) (hbegins : BeginsValue text)
    (h : takeItems false (depth - 1) calls text = .ok (items, rest)) :
    takeValue false depth (calls + 1) ('[' :: text) = .ok (.array items, rest) := by
  have hne : depth ≠ 0 := by omega
  have hskip : skipSpace ('[' :: text) = '[' :: text := rfl
  obtain ⟨c, behind, rfl, -, hc⟩ := id hbegins
  rw [takeValue, hskip]
  simp only [hne, decide_false, Bool.false_and, Bool.false_eq_true, if_false, hbegins.skipSpace_eq]
  split
  · next heq => cases heq
  · next heq => exact absurd (List.cons.inj heq).1 hc
  · rw [h]
    rfl

theorem takeValue_emptyObject (hdepth : 0 < depth) :
    takeValue false depth (calls + 1) ('\x7b' :: '\x7d' :: rest) = .ok (.object [], rest) := by
  have hne : depth ≠ 0 := by omega
  simp [takeValue, skipSpace, isSpace, hne, holding]

theorem takeValue_object {members : List (String × Json)} (hdepth : 0 < depth)
    (h : takeMembers false (depth - 1) calls ('"' :: text) = .ok (some members, rest)) :
    takeValue false depth (calls + 1) ('\x7b' :: '"' :: text) = .ok (.object members, rest) := by
  have hne : depth ≠ 0 := by omega
  have hskip : skipSpace ('\x7b' :: '"' :: text) = '\x7b' :: '"' :: text := rfl
  have hskip' : skipSpace ('"' :: text) = '"' :: text := rfl
  rw [takeValue, hskip]
  simp only [hne, decide_false, Bool.false_and, Bool.false_eq_true, if_false, hskip']
  split
  · next heq => cases heq
  · next heq => cases heq
  · rw [h]
    rfl

theorem takeItems_last {j : Json}
    (h : takeValue false depth calls text = .ok (j, ']' :: rest)) :
    takeItems false depth (calls + 1) text = .ok ([j], rest) := by
  rw [takeItems, h]
  rfl

theorem takeItems_more {j : Json} {items : List Json} {behind : List Char}
    (h : takeValue false depth calls text = .ok (j, ',' :: behind)) (hbegins : BeginsValue behind)
    (hitems : takeItems false depth calls behind = .ok (items, rest)) :
    takeItems false depth (calls + 1) text = .ok (j :: items, rest) := by
  have hcomma : skipSpace (',' :: behind) = ',' :: behind := rfl
  obtain ⟨c, behind, rfl, -, hc⟩ := id hbegins
  rw [takeItems, h, Pass.except_ok_bind]
  simp only [hcomma, hbegins.skipSpace_eq]
  split
  · next heq => exact absurd (List.cons.inj heq).1 hc
  · rw [hitems]
    rfl

theorem takeName_string (k : String) (behind : List Char) :
    takeName false ((string k).text.toList ++ ':' :: behind) = .ok (some k, behind) := by
  have hcolon : skipSpace (':' :: behind) = ':' :: behind := rfl
  rw [text_string, List.cons_append, List.append_assoc, List.singleton_append, takeName,
    stringTail_text, Pass.except_ok_bind]
  simp [hcolon]

theorem takeMembers_last {k : String} {j : Json}
    (h : takeValue false depth calls text = .ok (j, '\x7d' :: rest)) :
    takeMembers false depth (calls + 1) ((string k).text.toList ++ ':' :: text) =
      .ok (some [(k, j)], rest) := by
  rw [takeMembers, takeName_string, Pass.except_ok_bind]
  dsimp only
  rw [h]
  rfl

theorem takeMembers_more {k : String} {j : Json} {members : List (String × Json)}
    {behind : List Char} (h : takeValue false depth calls text = .ok (j, ',' :: '"' :: behind))
    (hmembers : takeMembers false depth calls ('"' :: behind) = .ok (some members, rest)) :
    takeMembers false depth (calls + 1) ((string k).text.toList ++ ':' :: text) =
      .ok (some ((k, j) :: members), rest) := by
  have hcomma : skipSpace (',' :: '"' :: behind) = ',' :: '"' :: behind := rfl
  have hquote : skipSpace ('"' :: behind) = '"' :: behind := rfl
  rw [takeMembers, takeName_string, Pass.except_ok_bind]
  dsimp only
  rw [h, Pass.except_ok_bind]
  simp only [hcomma, hquote]
  split
  · next heq => cases heq
  · next heq => cases heq
  · rw [hmembers]
    rfl

mutual

theorem takeValue_text {j : Json} {depth calls : Nat} {rest : List Char} (h : j.Legible depth)
    (hcalls : j.text.toList.length ≤ calls + 1) (hrest : EndsNumber rest) :
    takeValue false depth (calls + 1) (j.text.toList ++ rest) = .ok (j, rest) := by
  cases j with
  | null => rfl
  | bool b => cases b <;> rfl
  | int i => exact takeValue_number (takeNumber_append hrest (takeNumber_int false h.1 h.2))
  | double x => exact takeValue_number (takeNumber_append hrest h)
  | string s => exact takeValue_string s
  | array items =>
    by_cases hne : items = []
    · subst hne
      exact takeValue_emptyArray h.1
    rw [text_array] at hcalls ⊢
    simp only [List.length_cons, List.length_append, List.length_nil] at hcalls
    obtain ⟨calls, rfl⟩ : ∃ k, calls = k + 1 := ⟨calls - 1, by omega⟩
    rw [List.cons_append, List.append_assoc, List.singleton_append]
    exact takeValue_array h.1 ((beginsValue_itemChars hne h.2).append _)
      (takeItems_text hne h.2 (by omega))
  | object members =>
    by_cases hne : members = []
    · subst hne
      exact takeValue_emptyObject h.1
    rw [text_object] at hcalls ⊢
    simp only [List.length_cons, List.length_append, List.length_nil] at hcalls
    obtain ⟨calls, rfl⟩ : ∃ k, calls = k + 1 := ⟨calls - 1, by omega⟩
    rw [List.cons_append, List.append_assoc, List.singleton_append]
    obtain ⟨behind, hchars⟩ := exists_memberChars hne
    have hmembers := @takeMembers_text members (depth - 1) calls rest hne h.2 (by omega)
    rw [hchars] at hmembers ⊢
    exact takeValue_object h.1 hmembers
  | unheld => exact h.elim
termination_by structural j

theorem takeItems_text {items : List Json} {depth calls : Nat} {rest : List Char} (hne : items ≠ [])
    (h : ItemsLegible items depth) (hcalls : (itemChars items).length ≤ calls) :
    takeItems false depth (calls + 1) (itemChars items ++ ']' :: rest) = .ok (items, rest) := by
  cases items with
  | nil => exact absurd rfl hne
  | cons j items =>
    have hj := @takeValue_text j depth
    have hitems := @takeItems_text items depth
    cases items with
    | nil =>
      rw [itemChars_singleton] at hcalls ⊢
      obtain ⟨calls, rfl⟩ := exists_calls h.1 hcalls
      exact takeItems_last (hj h.1 hcalls (.cons (by decide)))
    | cons j' items =>
      rw [itemChars_cons_cons] at hcalls ⊢
      simp only [List.length_cons, List.length_append] at hcalls
      obtain ⟨calls, rfl⟩ := exists_calls h.1 (show _ ≤ calls by omega)
      rw [List.append_assoc]
      exact takeItems_more (hj h.1 (by omega) (.cons (by decide)))
        ((beginsValue_itemChars (by simp) h.2).append _) (hitems (by simp) h.2 (by omega))
termination_by structural items

theorem takeMembers_text {members : List (String × Json)} {depth calls : Nat} {rest : List Char}
    (hne : members ≠ []) (h : MembersLegible members depth)
    (hcalls : (memberChars members).length ≤ calls) :
    takeMembers false depth (calls + 1) (memberChars members ++ '\x7d' :: rest) =
      .ok (some members, rest) := by
  cases members with
  | nil => exact absurd rfl hne
  | cons m members =>
    obtain ⟨k, j⟩ := m
    have hj := @takeValue_text j depth
    have hmembers := @takeMembers_text members depth
    cases members with
    | nil =>
      rw [memberChars_singleton, memberChar] at hcalls ⊢
      simp only [List.length_cons, List.length_append] at hcalls
      obtain ⟨calls, rfl⟩ := exists_calls h.1 (show _ ≤ calls by omega)
      rw [List.append_assoc]
      exact takeMembers_last (hj h.1 (by omega) (.cons (by decide)))
    | cons m members =>
      rw [memberChars_cons_cons, memberChar] at hcalls ⊢
      simp only [List.length_cons, List.length_append] at hcalls
      obtain ⟨calls, rfl⟩ := exists_calls h.1 (show _ ≤ calls by omega)
      have hnext := @hmembers calls rest (by simp) h.2 (by omega)
      obtain ⟨behind, hchars⟩ := exists_memberChars (List.cons_ne_nil m members)
      rw [hchars] at hnext ⊢
      rw [List.append_assoc, List.append_assoc]
      exact takeMembers_more (hj h.1 (by omega) (.cons (by decide))) hnext
termination_by structural members

end

/-- A legible value is read from its text. -/
theorem read_text {j : Json} (h : j.Legible depthLimit) : read j.text.toList = .ok j := by
  have hvalue := @takeValue_text j depthLimit j.text.toList.length [] h (by omega) .nil
  rw [List.append_nil] at hvalue
  rw [read, takeAll, hvalue]
  rfl

end Dataflow.Json
