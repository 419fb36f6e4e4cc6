import Dataflow.Text.Basic
import Mathlib.Data.List.Forall2

/-!
# Telling texts apart

A text is `Readable` if, from the text of something and whatever stands behind it, it can be told
what the text is of and where it ends. What may stand behind it is part of the matter: a word ends
where there is no letter any more, a quoted text at the quotation mark. Texts that are put together
of readable ones are readable, and so the texts of whole plans are taken apart piece by piece.
-/

namespace Dataflow.Text

variable {α β : Type}

/-- The text of anything that is `ok` tells, up to `same`, what it is of, and where it ends if
`stop` holds of what follows. -/
def Readable (text : α → String) (ok : α → Prop) (stop : List Char → Prop) (same : α → α → Prop) :
    Prop :=
  ∀ a b r s, ok a → ok b → stop r → stop s → (text a).toList ++ r = (text b).toList ++ s →
    same a b ∧ r = s

/-! ## Words and numbers -/

/-- The text does not go on with a character of the kind. -/
def EndsWord (kind : Char → Bool) (r : List Char) : Prop := ∀ c ∈ r.head?, kind c = false

theorem EndsWord.nil {kind : Char → Bool} : EndsWord kind [] := by simp [EndsWord]

theorem EndsWord.cons {kind : Char → Bool} {c : Char} {r : List Char} (h : kind c = false) :
    EndsWord kind (c :: r) := by simpa [EndsWord] using h

/-- A word goes as far as there are characters of its kind. -/
theorem word_append_inj {kind : Char → Bool} : ∀ {v w r s : List Char}, (∀ c ∈ v, kind c = true) →
    (∀ c ∈ w, kind c = true) → EndsWord kind r → EndsWord kind s → v ++ r = w ++ s →
    v = w ∧ r = s
  | [], [], _, _, _, _, _, _, h => ⟨rfl, h⟩
  | [], c :: w, r, s, _, hw, hr, _, h => by
    have hc : kind c = false := hr c (by rw [show r = c :: (w ++ s) from h]; rfl)
    rw [hw c (by simp)] at hc
    exact absurd hc (by simp)
  | c :: v, [], r, s, hv, _, _, hs, h => by
    have hc : kind c = false := hs c (by rw [show s = c :: (v ++ r) from h.symm]; rfl)
    rw [hv c (by simp)] at hc
    exact absurd hc (by simp)
  | c :: v, d :: w, r, s, hv, hw, hr, hs, h => by
    obtain ⟨hcd, htail⟩ := List.cons.inj h
    obtain ⟨hvw, hrs⟩ := word_append_inj (fun x hx => hv x (List.mem_cons_of_mem c hx))
      (fun x hx => hw x (List.mem_cons_of_mem d hx)) hr hs htail
    exact ⟨by rw [hcd, hvw], hrs⟩

/-- A text without the mark ends where the mark stands. -/
theorem marked_append_inj {mark : Char} {v w r s : List Char} (hv : mark ∉ v) (hw : mark ∉ w)
    (h : v ++ mark :: r = w ++ mark :: s) : v = w ∧ r = s := by
  have hkind : ∀ {v : List Char}, mark ∉ v → ∀ c ∈ v, (c != mark) = true := fun hv c hc =>
    bne_iff_ne.mpr fun heq => hv (heq ▸ hc)
  obtain ⟨hvw, hrs⟩ := word_append_inj (hkind hv) (hkind hw) (.cons (by simp)) (.cons (by simp)) h
  exact ⟨hvw, (List.cons.inj hrs).2⟩

/-- The characters of names. -/
def isNameChar (c : Char) : Bool := c.isAlphanum || c == '_' || c == ':'

/-- A name of letters, digits, underscores and colons that begins with a letter or an underscore. -/
def isPlain (name : String) : Bool :=
  match name.toList with
  | [] => false
  | c :: rest => (c.isAlpha || c == '_') && rest.all isNameChar

theorem isNameChar_of_isAlpha {c : Char} (h : c.isAlpha = true) : isNameChar c = true := by
  simp [isNameChar, Char.isAlphanum, h]

theorem exists_of_isPlain {name : String} (h : isPlain name = true) :
    ∃ c rest, name.toList = c :: rest ∧ (c.isAlpha = true ∨ c = '_') ∧
      ∀ d ∈ c :: rest, isNameChar d = true := by
  unfold isPlain at h
  split at h
  · exact absurd h (by simp)
  · rename_i c rest hname
    simp only [Bool.and_eq_true, List.all_eq_true, Bool.or_eq_true, beq_iff_eq] at h
    refine ⟨c, rest, hname, h.1, List.forall_mem_cons.mpr ⟨?_, h.2⟩⟩
    rcases h.1 with hc | rfl
    · exact isNameChar_of_isAlpha hc
    · decide

theorem isNameChar_of_mem {name : String} (h : isPlain name = true) :
    ∀ c ∈ name.toList, isNameChar c = true := by
  obtain ⟨c, rest, hname, -, hall⟩ := exists_of_isPlain h
  rwa [hname]

/-- A text that may stand between quotation marks. -/
def isQuotable (text : String) : Bool := !text.toList.contains '\''

theorem isDigit_of_mem_repr {n : Nat} {c : Char} (h : c ∈ n.repr.toList) : c.isDigit = true := by
  rw [Nat.repr_eq_ofList_toDigits, String.toList_ofList] at h
  exact Nat.isDigit_of_mem_toDigits (by decide) (by decide) h

theorem repr_toList_inj {m n : Nat} (h : m.repr.toList = n.repr.toList) : m = n := by
  rw [Nat.repr_eq_ofList_toDigits, Nat.repr_eq_ofList_toDigits, String.toList_ofList,
    String.toList_ofList] at h
  rw [← Nat.ofDigitChars_ten_toDigits (n := m), h, Nat.ofDigitChars_ten_toDigits]

theorem repr_toList_ne_nil (n : Nat) : n.repr.toList ≠ [] := by
  rw [Nat.repr_eq_ofList_toDigits, String.toList_ofList]
  exact Nat.toDigits_ne_nil

theorem readable_repr : Readable Nat.repr (fun _ => True) (EndsWord Char.isDigit) Eq := by
  intro m n r s _ _ hr hs h
  obtain ⟨heq, h⟩ := word_append_inj (fun c => isDigit_of_mem_repr) (fun c => isDigit_of_mem_repr)
    hr hs h
  exact ⟨repr_toList_inj heq, h⟩

/-! ## Lists -/

theorem join_cons {separator : String} {a : String} : ∀ {l : List String}, l ≠ [] →
    join separator (a :: l) = a ++ separator ++ join separator l
  | [], h => absurd rfl h
  | b :: l, _ => by simp [join]

variable {text : α → String} {ok : α → Prop} {follow : List Char → Prop} {same : α → α → Prop}

/-- Texts with a separator between them can be told apart if a separator, or what ends the list,
ends each of them, and what ends the list looks neither like a separator nor like one more text. -/
theorem Readable.join (h : Readable text ok follow same) {separator : String}
    {stop : List Char → Prop} (hsep : ∀ r, follow (separator.toList ++ r))
    (hend : ∀ r, stop r → follow r) (hnosep : ∀ r, ¬stop (separator.toList ++ r))
    (hstart : ∀ a r, ok a → ¬stop ((text a).toList ++ r)) :
    Readable (fun l : List α => Text.join separator (l.map text)) (∀ a ∈ ·, ok a) stop
      (List.Forall₂ same) := by
  -- what stands behind the first text of a list
  let behind (l : List α) (r : List Char) : List Char :=
    if l.isEmpty then r else separator.toList ++ ((Text.join separator (l.map text)).toList ++ r)
  have hcons : ∀ a l r, (Text.join separator ((a :: l).map text)).toList ++ r =
      (text a).toList ++ behind l r := fun a l r => by
    cases l with
    | nil => simp [Text.join, behind]
    | cons b l => rw [List.map_cons, join_cons (by simp)]; simp [behind]
  have hfollow : ∀ l r, stop r → follow (behind l r) := fun l r hr => by
    cases l with
    | nil => exact hend r hr
    | cons b l => exact hsep _
  intro as
  induction as with
  | nil =>
    intro bs r s _ hbs hr hs heq
    cases bs with
    | nil => exact ⟨.nil, by simpa [Text.join] using heq⟩
    | cons b bs =>
      rw [hcons] at heq
      have heq : r = (text b).toList ++ behind bs s := by simpa [Text.join] using heq
      exact absurd (heq ▸ hr) (hstart b _ (hbs b (by simp)))
  | cons a as ih =>
    intro bs r s has hbs hr hs heq
    cases bs with
    | nil =>
      rw [hcons] at heq
      have heq : (text a).toList ++ behind as r = s := by simpa [Text.join] using heq
      exact absurd (heq ▸ hs) (hstart a _ (has a (by simp)))
    | cons b bs =>
      rw [hcons, hcons] at heq
      obtain ⟨hab, hrest⟩ := h a b _ _ (has a (by simp)) (hbs b (by simp)) (hfollow as r hr)
        (hfollow bs s hs) heq
      cases as with
      | nil =>
        cases bs with
        | nil => exact ⟨.cons hab .nil, hrest⟩
        | cons b' bs => exact absurd ((show r = _ from hrest) ▸ hr) (hnosep _)
      | cons a' as =>
        cases bs with
        | nil => exact absurd ((show _ = s from hrest) ▸ hs) (hnosep _)
        | cons b' bs =>
          obtain ⟨hall, hrs⟩ := ih (b' :: bs) r s (fun x hx => has x (List.mem_cons_of_mem a hx))
            (fun x hx => hbs x (List.mem_cons_of_mem b hx)) hr hs
            (List.append_cancel_left
              (show separator.toList ++ _ = separator.toList ++ _ from hrest))
          exact ⟨.cons hab hall, hrs⟩

/-- A list that is ended by a closing mark. -/
theorem Readable.join_closed (h : Readable text ok follow same) (separator : String) (close : Char)
    (hsep : ∀ r, follow (separator.toList ++ r)) (hclose : ∀ r, follow (close :: r))
    (hmark : ∀ r t, separator.toList ++ r ≠ close :: t)
    (hstart : ∀ a, ok a → ∃ c rest, (text a).toList = c :: rest ∧ c ≠ close) {as bs : List α}
    {r s : List Char} (has : ∀ a ∈ as, ok a) (hbs : ∀ b ∈ bs, ok b)
    (heq : (Text.join separator (as.map text)).toList ++ close :: r =
      (Text.join separator (bs.map text)).toList ++ close :: s) :
    List.Forall₂ same as bs ∧ r = s := by
  have hstop : ∀ a t, ok a → ¬∃ t', (text a).toList ++ t = close :: t' := fun a t ha => by
    rintro ⟨t', heq⟩
    obtain ⟨c, rest, hc, hne⟩ := hstart a ha
    rw [hc] at heq
    exact hne (List.cons.inj heq).1
  have hend : ∀ r, (∃ t, r = close :: t) → follow r := fun r ⟨t, hr⟩ => hr ▸ hclose t
  obtain ⟨hall, hrest⟩ := h.join hsep hend (fun r ⟨t, hr⟩ => hmark r t hr) hstop as bs _ _ has hbs
    ⟨r, rfl⟩ ⟨s, rfl⟩ heq
  exact ⟨hall, (List.cons.inj hrest).2⟩

/-- A list that is a whole text. -/
theorem Readable.join_whole (h : Readable text ok follow same) (separator : String)
    (hsep : ∀ r, follow (separator.toList ++ r)) (hend : follow []) (hmark : separator.toList ≠ [])
    (hstart : ∀ a, ok a → (text a).toList ≠ []) {as bs : List α} (has : ∀ a ∈ as, ok a)
    (hbs : ∀ b ∈ bs, ok b)
    (heq : Text.join separator (as.map text) = Text.join separator (bs.map text)) :
    List.Forall₂ same as bs := by
  have hend : ∀ r, r = [] → follow r := fun r hr => hr ▸ hend
  refine (h.join hsep hend (fun r hr => hmark (List.append_eq_nil_iff.mp hr).1)
    (fun a r ha hr => hstart a ha (List.append_eq_nil_iff.mp hr).1) as bs [] [] has hbs
    rfl rfl ?_).1
  dsimp only
  rw [heq]

end Dataflow.Text
